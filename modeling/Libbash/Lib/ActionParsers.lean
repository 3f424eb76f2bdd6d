import Mathlib.Data.List.Basic
import Mathlib.Data.List.Nodup

/-!
# Parsers with actions

A parser of this kind has an attribute when it matches, and the actions on its parts
write to an output while it matches. An alternative is tried on the same input when
the one before it fails, but nothing takes back what that one has written.

`Does p input a w` says that `p` makes the attempt `a` of the input and writes `w`,
whatever has been written before. There is a rule for each combinator.
`does_choice`: among alternatives that start with different elements, the one for the
first element of the input decides. `does_plus` repeats a parser that consumes.
-/

namespace Lib

variable {X Y E A : Type}

/-- What a parser makes of an input: it leaves a rest, it fails, or an action stops it. -/
inductive Attempt (X E A : Type) where
  | matched (a : A) (rest : List X)
  | failed
  | thrown (e : E)

/-- From an input and what has been written to an attempt and what has been written then. -/
abbrev ActionParser (X Y E A : Type) := List X → List Y → Attempt X E A × List Y

namespace ActionParser

/-! ## Combinators -/

def lit [DecidableEq X] (x : X) : ActionParser X Y E Unit := fun input out =>
  match input with
  | [] => (.failed, out)
  | y :: rest => if y = x then (.matched () rest, out) else (.failed, out)

/-- Any element. -/
def anyOne : ActionParser X Y E X := fun input out =>
  match input with
  | [] => (.failed, out)
  | x :: rest => (.matched x rest, out)

/-- The action that writes. -/
def writes (p : ActionParser X Y E A) (f : A → List Y) : ActionParser X Y E Unit := fun input out =>
  match p input out with
  | (.matched a rest, out) => (.matched () rest, out ++ f a)
  | (.failed, out) => (.failed, out)
  | (.thrown e, out) => (.thrown e, out)

/-- The action that throws. -/
def throws (p : ActionParser X Y E A) (e : E) : ActionParser X Y E Unit := fun input out =>
  match p input out with
  | (.matched _ _, out) => (.thrown e, out)
  | (.failed, out) => (.failed, out)
  | (.thrown e, out) => (.thrown e, out)

/-- One after the other. -/
def seq (p q : ActionParser X Y E Unit) : ActionParser X Y E Unit := fun input out =>
  match p input out with
  | (.matched _ rest, out) => q rest out
  | other => other

/-- The second one on the same input when the first one fails. -/
def alt (p q : ActionParser X Y E Unit) : ActionParser X Y E Unit := fun input out =>
  match p input out with
  | (.failed, out) => q input out
  | other => other

def choice : List (ActionParser X Y E Unit) → ActionParser X Y E Unit
  | [] => fun _ out => (.failed, out)
  | p :: ps => alt p (choice ps)

/-- As often as it matches, with at most `fuel` tries. -/
def star (p : ActionParser X Y E Unit) : Nat → ActionParser X Y E Unit
  | 0, input, out => (.matched () input, out)
  | fuel + 1, input, out =>
    match p input out with
    | (.matched _ rest, out) => star p fuel rest out
    | (.failed, out) => (.matched () input, out)
    | (.thrown e, out) => (.thrown e, out)

/-- At least once, for a parser that consumes. -/
def plus (p : ActionParser X Y E Unit) : ActionParser X Y E Unit := fun input out =>
  match p input out with
  | (.matched _ rest, out) => star p (rest.length + 1) rest out
  | other => other

/-! ## What a parser does -/

/-- The attempt that is made of an input, and what is written in it. -/
def Does (p : ActionParser X Y E A) (input : List X) (a : Attempt X E A) (w : List Y) : Prop :=
  ∀ out, p input out = (a, out ++ w)

section Does

variable {input rest : List X} {w w' : List Y} {p q : ActionParser X Y E Unit}

theorem does_lit [DecidableEq X] (x : X) (rest : List X) :
    Does (lit x : ActionParser X Y E Unit) (x :: rest) (.matched () rest) [] := by
  intro out
  simp [lit]

theorem does_lit_ne [DecidableEq X] {x : X} (h : input.head? ≠ some x) :
    Does (lit x : ActionParser X Y E Unit) input .failed [] := by
  intro out
  cases input with
  | nil => simp [lit]
  | cons y rest =>
    have hne : y ≠ x := fun heq => h (by rw [heq]; rfl)
    simp [lit, hne]

theorem does_anyOne (x : X) (rest : List X) :
    Does (anyOne : ActionParser X Y E X) (x :: rest) (.matched x rest) [] := by
  intro out
  simp [anyOne]

theorem does_anyOne_nil : Does (anyOne : ActionParser X Y E X) [] .failed [] := by
  intro out
  simp [anyOne]

theorem does_writes {p : ActionParser X Y E A} {a : A} (f : A → List Y)
    (h : Does p input (.matched a rest) w) :
    Does (writes p f) input (.matched () rest) (w ++ f a) := by
  intro out
  simp [writes, h out]

theorem does_writes_failed {p : ActionParser X Y E A} (f : A → List Y)
    (h : Does p input .failed w) : Does (writes p f) input .failed w := by
  intro out
  simp [writes, h out]

theorem does_throws {p : ActionParser X Y E A} {a : A} (e : E)
    (h : Does p input (.matched a rest) w) : Does (throws p e) input (.thrown e) w := by
  intro out
  simp [throws, h out]

theorem does_throws_failed {p : ActionParser X Y E A} (e : E) (h : Does p input .failed w) :
    Does (throws p e) input .failed w := by
  intro out
  simp [throws, h out]

theorem does_seq {a : Attempt X E Unit} (hp : Does p input (.matched () rest) w)
    (hq : Does q rest a w') : Does (seq p q) input a (w ++ w') := by
  intro out
  simp [seq, hp out, hq (out ++ w), List.append_assoc]

theorem does_seq_failed (hp : Does p input .failed w) : Does (seq p q) input .failed w := by
  intro out
  simp [seq, hp out]

/-- The first alternative, when it does not fail. -/
theorem does_alt_left {a : Attempt X E Unit} (hp : Does p input a w) (ha : a ≠ .failed) :
    Does (alt p q) input a w := by
  intro out
  cases a with
  | matched u rest => simp [alt, hp out]
  | failed => exact absurd rfl ha
  | thrown e => simp [alt, hp out]

/-- The second alternative, behind what the first one has written. -/
theorem does_alt_right {a : Attempt X E Unit} (hp : Does p input .failed w)
    (hq : Does q input a w') : Does (alt p q) input a (w ++ w') := by
  intro out
  simp [alt, hp out, hq (out ++ w), List.append_assoc]

end Does

/-! ## A choice by the first element -/

/-- The parser fails on every input that does not start with `x`, and writes nothing. -/
def StartsWith (p : ActionParser X Y E Unit) (x : X) : Prop :=
  ∀ input : List X, input.head? ≠ some x → Does p input .failed []

section Choice

variable {x : X} {p q : ActionParser X Y E Unit}

theorem startsWith_writes {p : ActionParser X Y E Unit} (f : Unit → List Y) (h : StartsWith p x) :
    StartsWith (writes p f) x := fun input hne => does_writes_failed f (h input hne)

theorem startsWith_throws (e : E) (h : StartsWith p x) : StartsWith (throws p e) x :=
  fun input hne => does_throws_failed e (h input hne)

theorem startsWith_seq (h : StartsWith p x) : StartsWith (seq p q) x :=
  fun input hne => does_seq_failed (h input hne)

theorem startsWith_lit [DecidableEq X] : StartsWith (lit x : ActionParser X Y E Unit) x :=
  fun _ hne => does_lit_ne hne

/-- No alternative starts with the first element. -/
theorem does_choice_none {table : List (X × ActionParser X Y E Unit)} {input : List X}
    (hstarts : ∀ e ∈ table, StartsWith e.2 e.1) (h : ∀ e ∈ table, input.head? ≠ some e.1) :
    Does (choice (table.map Prod.snd)) input .failed [] := by
  induction table with
  | nil =>
    intro out
    simp [choice]
  | cons e table ih =>
    rw [List.forall_mem_cons] at hstarts h
    exact does_alt_right (hstarts.1 input h.1) (ih hstarts.2 h.2)

/-- The alternative that starts with the first element decides, also when it fails and
has written nothing. -/
theorem does_choice {table : List (X × ActionParser X Y E Unit)} {rest : List X}
    {a : Attempt X E Unit} {w : List Y} (hstarts : ∀ e ∈ table, StartsWith e.2 e.1)
    (hnodup : (table.map Prod.fst).Nodup) (hmem : (x, p) ∈ table)
    (hp : Does p (x :: rest) a w) (hsilent : a = .failed → w = []) :
    Does (choice (table.map Prod.snd)) (x :: rest) a w := by
  induction table with
  | nil => exact absurd hmem List.not_mem_nil
  | cons e table ih =>
    rw [List.forall_mem_cons] at hstarts
    rw [List.map_cons, List.nodup_cons] at hnodup
    rcases List.mem_cons.mp hmem with rfl | hin
    · by_cases ha : a = .failed
      · have hother : ∀ e ∈ table, (x :: rest).head? ≠ some e.1 := by
          intro e he heq
          exact hnodup.1 (List.mem_map.mpr ⟨e, he, (Option.some.inj heq).symm⟩)
        rw [ha, hsilent ha] at hp ⊢
        exact does_alt_right hp (does_choice_none hstarts.2 hother)
      · exact does_alt_left hp ha
    · have hne : (x :: rest).head? ≠ some e.1 := by
        intro heq
        rw [← Option.some.inj heq] at hnodup
        exact hnodup.1 (List.mem_map_of_mem (f := Prod.fst) hin)
      exact does_alt_right (hstarts.1 _ hne) (ih hstarts.2 hnodup.2 hin)

end Choice

/-! ## Repetition -/

/-- What the repetitions of a parser make of an input, and what they write. -/
inductive Repeats (p : ActionParser X Y E Unit) : List X → Attempt X E Unit → List Y → Prop
  | stop {input : List X} (h : Does p input .failed []) : Repeats p input (.matched () input) []
  | thrown {input : List X} {e : E} {w : List Y} (h : Does p input (.thrown e) w) :
      Repeats p input (.thrown e) w
  | step {input rest : List X} {a : Attempt X E Unit} {w w' : List Y}
      (h : Does p input (.matched () rest) w) (hless : rest.length < input.length)
      (hrest : Repeats p rest a w') : Repeats p input a (w ++ w')

section Repetition

variable {p : ActionParser X Y E Unit} {input : List X} {a : Attempt X E Unit} {w : List Y}

theorem Repeats.does_star (h : Repeats p input a w) {fuel : Nat} (hfuel : input.length < fuel) :
    Does (star p fuel) input a w := by
  induction h generalizing fuel with
  | stop h =>
    intro out
    obtain ⟨fuel, rfl⟩ := Nat.exists_eq_succ_of_ne_zero (Nat.ne_zero_of_lt hfuel)
    simp [star, h out]
  | thrown h =>
    intro out
    obtain ⟨fuel, rfl⟩ := Nat.exists_eq_succ_of_ne_zero (Nat.ne_zero_of_lt hfuel)
    simp [star, h out]
  | @step input rest a w w' h hless _ ih =>
    intro out
    obtain ⟨fuel, rfl⟩ := Nat.exists_eq_succ_of_ne_zero (Nat.ne_zero_of_lt hfuel)
    have hrest := ih (Nat.lt_of_lt_of_le hless (Nat.le_of_lt_succ hfuel)) (out ++ w)
    simp [star, h out, hrest, List.append_assoc]

/-- One match is asked for: an input without one is a failure, and nothing is written. -/
theorem Repeats.plus_apply (h : Repeats p input a w) (out : List Y) :
    plus p input out = (a, out ++ w) ∨
      plus p input out = (.failed, out ++ w) ∧ a = .matched () input := by
  cases h with
  | stop h =>
    right
    simp [plus, h out]
  | thrown h =>
    left
    simp [plus, h out]
  | @step _ rest _ w w' h _ hrest =>
    left
    have hstar := hrest.does_star (Nat.lt_succ_self _) (out ++ w)
    simp [plus, h out, hstar, List.append_assoc]

end Repetition

end ActionParser

end Lib
