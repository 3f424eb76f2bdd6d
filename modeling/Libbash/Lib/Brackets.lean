import Mathlib.Algebra.BigOperators.Group.List.Basic
import Mathlib.Algebra.Ring.Int.Defs
import Mathlib.Data.List.Infix

/-!
# Brackets in a sequence

What an element means for the nesting of brackets depends on the elements before it: quotes
and escapes take away the meaning of a bracket. A `Reader` is an automaton that says what
each element means, and `scan` counts levels along its reading. `scan_eq_iff` says where the
count ends: at the first closing bracket with balanced brackets before it.
-/

namespace Lib

/-- What an element means for the nesting. -/
inductive Mark where
  | opening | closing | plain
  deriving DecidableEq, Repr

/-- By how much the nesting gets deeper. -/
def Mark.weight : Mark → Int
  | opening => 1
  | closing => -1
  | plain => 0

/-! ## Balance -/

/-- How many brackets are opened and not closed. -/
def depth (ms : List Mark) : Int := (ms.map Mark.weight).sum

@[simp] theorem depth_nil : depth [] = 0 := rfl

@[simp] theorem depth_cons (m : Mark) (ms : List Mark) : depth (m :: ms) = m.weight + depth ms := by
  rw [depth, List.map_cons, List.sum_cons]
  rfl

/-- As many brackets are closed as opened, and none before it is opened. -/
structure BalancedMarks (ms : List Mark) : Prop where
  opened : ∀ before, before <+: ms → 0 ≤ depth before
  closed : depth ms = 0

instance (ms : List Mark) : Decidable (BalancedMarks ms) :=
  decidable_of_iff ((∀ before ∈ ms.inits, 0 ≤ depth before) ∧ depth ms = 0)
    ⟨fun h => ⟨fun before hb => h.1 before (List.mem_inits before ms |>.mpr hb), h.2⟩,
      fun h => ⟨fun before hb => h.1 before (List.mem_inits before ms |>.mp hb), h.2⟩⟩

/-- A count that starts at `level` stays positive along the marks. -/
def StaysAbove (level : Int) (ms : List Mark) : Prop :=
  ∀ before, before <+: ms → 0 < level + depth before

theorem StaysAbove.level_pos {level : Int} {ms : List Mark} (h : StaysAbove level ms) :
    0 < level := by
  have hnil := h [] (List.nil_prefix)
  rwa [depth_nil, Int.add_zero] at hnil

theorem staysAbove_nil {level : Int} : StaysAbove level [] ↔ 0 < level := by
  refine ⟨StaysAbove.level_pos, fun h before hb => ?_⟩
  rw [List.prefix_nil.mp hb, depth_nil, Int.add_zero]
  exact h

theorem staysAbove_cons {level : Int} {m : Mark} {ms : List Mark} (hlevel : 0 < level) :
    StaysAbove level (m :: ms) ↔ StaysAbove (level + m.weight) ms := by
  constructor
  · intro h before hb
    have hcons := h (m :: before) ((List.prefix_cons_inj m).mpr hb)
    rwa [depth_cons, ← Int.add_assoc] at hcons
  · intro h before hb
    rcases List.prefix_cons_iff.mp hb with rfl | ⟨rest, rfl, hrest⟩
    · rwa [depth_nil, Int.add_zero]
    · rw [depth_cons, ← Int.add_assoc]
      exact h rest hrest

/-- One level deeper than balanced marks. -/
theorem balancedMarks_iff (ms : List Mark) :
    BalancedMarks ms ↔ StaysAbove 1 ms ∧ 1 + depth ms = 1 := by
  constructor
  · intro h
    refine ⟨fun before hb => ?_, ?_⟩
    · have := h.opened before hb
      omega
    · rw [h.closed]
      rfl
  · rintro ⟨habove, hend⟩
    refine ⟨fun before hb => ?_, ?_⟩
    · have := habove before hb
      omega
    · omega

/-! ## Readers -/

/-- An automaton that says what each element means, from the state before it. -/
structure Reader (S A : Type) where
  mark : S → A → Mark
  next : S → A → S

namespace Reader

variable {S A : Type} (r : Reader S A)

/-- What the elements of a sequence mean. -/
def marks : S → List A → List Mark
  | _, [] => []
  | s, a :: l => r.mark s a :: marks (r.next s a) l

/-- The state behind a sequence. -/
def after (s : S) (l : List A) : S := l.foldl r.next s

@[simp] theorem after_nil (s : S) : r.after s [] = s := rfl

@[simp] theorem after_cons (s : S) (a : A) (l : List A) :
    r.after s (a :: l) = r.after (r.next s a) l := rfl

/-- The brackets of a sequence are balanced, and the reader ends as it began. -/
structure Balanced (s : S) (l : List A) : Prop where
  marks : BalancedMarks (r.marks s l)
  ends : r.after s l = s

instance [DecidableEq S] (s : S) (l : List A) : Decidable (r.Balanced s l) :=
  decidable_of_iff (BalancedMarks (r.marks s l) ∧ r.after s l = s)
    ⟨fun h => ⟨h.1, h.2⟩, fun h => ⟨h.1, h.2⟩⟩

/-- How many elements there are up to the bracket that closes the outermost of so many
levels. -/
def scan : S → Nat → List A → Option Nat
  | _, _, [] => none
  | s, level, a :: l =>
    match r.mark s a with
    | .opening => (scan (r.next s a) (level + 1) l).map (· + 1)
    | .closing =>
      if level - 1 = 0 then some 1 else (scan (r.next s a) (level - 1) l).map (· + 1)
    | .plain => (scan (r.next s a) level l).map (· + 1)

variable {r}

theorem map_succ_eq_some {o : Option Nat} {n : Nat} :
    o.map (· + 1) = some (n + 1) ↔ o = some n := by
  cases o with
  | none => simp
  | some m => simp

/-- The closing bracket is counted too. -/
theorem scan_ne_zero (s : S) (level : Nat) (l : List A) : r.scan s level l ≠ some 0 := by
  cases l with
  | nil => exact nofun
  | cons a l =>
    unfold scan
    split
    · simp
    · split
      · simp
      · simp
    · simp

/-- A count ends at an element of a sequence if the element is a closing bracket, and the
levels before it are all closed but the outermost. -/
theorem scan_append_eq_iff (s : S) (level : Nat) (hlevel : 0 < level) (l : List A) (a : A)
    (rest : List A) :
    r.scan s level (l ++ a :: rest) = some (l.length + 1) ↔
      (StaysAbove level (r.marks s l) ∧ level + depth (r.marks s l) = 1) ∧
        r.mark (r.after s l) a = .closing := by
  induction l generalizing s level with
  | nil =>
    -- The count ends here, so `a` closes the only level there is.
    have hpos : StaysAbove (level : Int) [] := staysAbove_nil.mpr (by omega)
    have hlater : ∀ o : Option Nat, o ≠ some 0 → o.map (· + 1) ≠ some 1 := by
      intro o ho h
      exact ho (map_succ_eq_some.mp h)
    simp only [List.nil_append, List.length_nil, Nat.zero_add, marks, after_nil, depth_nil,
      Int.add_zero, hpos, true_and]
    unfold scan
    cases hm : r.mark s a with
    | opening => simpa using hlater _ (scan_ne_zero _ _ _)
    | plain => simpa using hlater _ (scan_ne_zero _ _ _)
    | closing =>
      simp only [and_true]
      split
      · simp only [true_iff]
        omega
      · refine iff_of_false (hlater _ (scan_ne_zero _ _ _)) ?_
        omega
  | cons b l ih =>
    simp only [List.cons_append, List.length_cons, marks, after_cons, depth_cons,
      staysAbove_cons (show (0 : Int) < level by omega), ← Int.add_assoc]
    unfold scan
    cases hm : r.mark s b with
    | opening =>
      have hnext := ih (r.next s b) (level + 1) (Nat.succ_pos level)
      rw [Int.natCast_succ] at hnext
      simp only [map_succ_eq_some]
      exact hnext
    | plain =>
      simp only [map_succ_eq_some, Mark.weight, Int.add_zero]
      exact ih (r.next s b) level hlevel
    | closing =>
      simp only [Mark.weight]
      split
      · -- The outermost level is closed before `a` is read.
        refine iff_of_false (by simp) ?_
        rintro ⟨⟨habove, -⟩, -⟩
        have := habove.level_pos
        omega
      · have hnext := ih (r.next s b) (level - 1) (by omega)
        rw [Int.natCast_sub (by omega)] at hnext
        simp only [map_succ_eq_some]
        exact hnext

/-- Where a count ends that starts behind an opening bracket. -/
theorem scan_eq_iff (s : S) (l : List A) (a : A) (rest : List A) :
    r.scan s 1 (l ++ a :: rest) = some (l.length + 1) ↔
      BalancedMarks (r.marks s l) ∧ r.mark (r.after s l) a = .closing := by
  rw [scan_append_eq_iff s 1 Nat.one_pos, balancedMarks_iff]
  rfl

/-! ## Readers that agree -/

/-- Two readers find the same meanings in a sequence when each element keeps the relation of
their states. The relation may depend on what is still to be read. -/
theorem marks_eq {S' : Type} (r : Reader S A) (r' : Reader S' A) {R : S → S' → List A → Prop}
    (hstep : ∀ s s' a l, R s s' (a :: l) →
      r.mark s a = r'.mark s' a ∧ R (r.next s a) (r'.next s' a) l)
    {s : S} {s' : S'} {l : List A} (h : R s s' l) :
    r.marks s l = r'.marks s' l ∧ R (r.after s l) (r'.after s' l) [] := by
  induction l generalizing s s' with
  | nil => exact ⟨rfl, h⟩
  | cons a l ih =>
    obtain ⟨hmark, hnext⟩ := hstep s s' a l h
    obtain ⟨hmarks, hafter⟩ := ih hnext
    refine ⟨?_, hafter⟩
    rw [marks, marks, hmark, hmarks]

end Reader

end Lib
