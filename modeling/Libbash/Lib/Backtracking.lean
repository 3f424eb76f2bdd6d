import Mathlib.Computability.Language

/-!
# Regular expressions and backtracking

A regular expression with the order in which a backtracking matcher finds its
matches: alternatives from left to right, a greedy quantifier from many repetitions
to few, a lazy one from few to many. `run` lists the outcomes in that order.

* **`mem_run_iff`** — the outcomes are those that the language of the expression
  allows, whatever the order;
* **`substitute`** — replacing the matches of an expression, one or all of them: a
  match goes on where the last one ended, and after an empty one it may not be empty.
-/

namespace Lib

open Computability

inductive Regex (α : Type) where
  | any
  | set (p : α → Bool)
  | text (w : List α)
  | seq (r q : Regex α)
  | alt (r q : Regex α)
  | optional (greedy : Bool) (r : Regex α)
  | star (greedy : Bool) (r : Regex α)
  | plus (greedy : Bool) (r : Regex α)
  /-- The beginning of the text. -/
  | bos
  /-- The end of the text. -/
  | eos
  /-- A part whose match is kept. -/
  | mark (r : Regex α)

namespace Regex

variable {α : Type}

/-- The words that an expression without anchors matches. -/
def lang : Regex α → Language α
  | any => {w | ∃ a, w = [a]}
  | set p => {w | ∃ a, p a = true ∧ w = [a]}
  | text w => {w}
  | seq r q => r.lang * q.lang
  | alt r q => r.lang + q.lang
  | optional _ r => 1 + r.lang
  | star _ r => r.lang∗
  | plus _ r => r.lang * r.lang∗
  | bos | eos => 1
  | mark r => r.lang

/-- No anchor and no mark. -/
def Plain : Regex α → Prop
  | any | set _ | text _ => True
  | seq r q | alt r q => r.Plain ∧ q.Plain
  | optional _ r | star _ r | plus _ r => r.Plain
  | bos | eos | mark _ => False

/-- Where a match stands: the rest of the text, and what has been kept. -/
structure Point (α : Type) where
  rest : List α
  kept : List α

/-- The outcomes of a repetition, with a bound on the number of its iterations. An
iteration that is empty is the last one. -/
def loop (m : Point α → List (Point α)) (greedy : Bool) : Nat → Point α → List (Point α)
  | 0, s => [s]
  | n + 1, s =>
    let again := (m s).flatMap fun t =>
      if t.rest.length < s.rest.length then loop m greedy n t else [t]
    if greedy then again ++ [s] else s :: again

variable [DecidableEq α]

/-- The outcomes of an expression in a text of the given length, in the order in
which they are found. -/
def run (size : Nat) : Regex α → Point α → List (Point α)
  | any, s =>
    match s.rest with
    | [] => []
    | _ :: u => [{ s with rest := u }]
  | set p, s =>
    match s.rest with
    | [] => []
    | a :: u => if p a then [{ s with rest := u }] else []
  | text w, s => if w <+: s.rest then [{ s with rest := s.rest.drop w.length }] else []
  | seq r q, s => (r.run size s).flatMap (q.run size)
  | alt r q, s => r.run size s ++ q.run size s
  | optional greedy r, s => if greedy then r.run size s ++ [s] else s :: r.run size s
  | star greedy r, s => loop (r.run size) greedy s.rest.length s
  | plus greedy r, s =>
    (r.run size s).flatMap fun t => loop (r.run size) greedy t.rest.length t
  | bos, s => if s.rest.length = size then [s] else []
  | eos, s => if s.rest = [] then [s] else []
  | mark r, s =>
    (r.run size s).map fun t =>
      { t with kept := s.rest.take (s.rest.length - t.rest.length) }

/-! ## Outcomes and languages -/

/-- The outcome `t` is reached from `s` by a word of the language. -/
def Reaches (L : Language α) (s t : Point α) : Prop :=
  ∃ w ∈ L, s.rest = w ++ t.rest ∧ t.kept = s.kept

omit [DecidableEq α] in
theorem reaches_mul {L M : Language α} {s t : Point α} :
    Reaches (L * M) s t ↔ ∃ u, Reaches L s u ∧ Reaches M u t := by
  constructor
  · rintro ⟨w, hw, hrest, hkept⟩
    obtain ⟨a, ha, b, hb, rfl⟩ := Language.mem_mul.mp hw
    rw [List.append_assoc] at hrest
    exact ⟨⟨b ++ t.rest, s.kept⟩, ⟨a, ha, hrest, rfl⟩, ⟨b, hb, rfl, hkept⟩⟩
  · rintro ⟨u, ⟨a, ha, hrest, hkept⟩, ⟨b, hb, hrest', hkept'⟩⟩
    refine ⟨a ++ b, Language.append_mem_mul ha hb, ?_, hkept'.trans hkept⟩
    rw [hrest, hrest', List.append_assoc]

omit [DecidableEq α] in
theorem reaches_add {L M : Language α} {s t : Point α} :
    Reaches (L + M) s t ↔ Reaches L s t ∨ Reaches M s t := by
  constructor
  · rintro ⟨w, hw, hrest⟩
    rcases (Language.mem_add L M w).mp hw with hL | hM
    · exact .inl ⟨w, hL, hrest⟩
    · exact .inr ⟨w, hM, hrest⟩
  · rintro (⟨w, hw, hrest⟩ | ⟨w, hw, hrest⟩)
    · exact ⟨w, (Language.mem_add L M w).mpr (.inl hw), hrest⟩
    · exact ⟨w, (Language.mem_add L M w).mpr (.inr hw), hrest⟩

omit [DecidableEq α] in
theorem reaches_one {s t : Point α} : Reaches 1 s t ↔ t = s := by
  constructor
  · rintro ⟨w, hw, hrest, hkept⟩
    rw [(Language.mem_one w).mp hw, List.nil_append] at hrest
    cases s
    cases t
    simp only at hrest hkept
    rw [hrest, hkept]
  · rintro rfl
    exact ⟨[], Language.nil_mem_one, rfl, rfl⟩

omit [DecidableEq α] in
theorem reaches_star {L : Language α} {s t : Point α} :
    Reaches L∗ s t ↔
      t = s ∨ ∃ u, Reaches L s u ∧ u.rest.length < s.rest.length ∧ Reaches L∗ u t := by
  constructor
  · rintro ⟨w, hw, hrest, hkept⟩
    rw [Language.kstar_def_nonempty] at hw
    obtain ⟨S, rfl, hS⟩ := hw
    cases S with
    | nil => exact .inl (reaches_one.mp ⟨[], Language.nil_mem_one, hrest, hkept⟩)
    | cons a S =>
      obtain ⟨ha, hne⟩ := hS a List.mem_cons_self
      rw [List.flatten_cons, List.append_assoc] at hrest
      have hstar : S.flatten ∈ L∗ :=
        Language.join_mem_kstar fun y hy => (hS y (List.mem_cons_of_mem _ hy)).1
      refine .inr ⟨⟨S.flatten ++ t.rest, s.kept⟩, ⟨a, ha, hrest, rfl⟩, ?_,
        ⟨S.flatten, hstar, rfl, hkept⟩⟩
      have hpos := List.length_pos_of_ne_nil hne
      rw [hrest]
      simp only [List.length_append]
      omega
  · rintro (rfl | ⟨u, hu, -, ht⟩)
    · exact ⟨[], Language.nil_mem_kstar L, rfl, rfl⟩
    · have hmul := reaches_mul.mpr ⟨u, hu, ht⟩
      obtain ⟨w, hw, hrest⟩ := hmul
      refine ⟨w, ?_, hrest⟩
      rw [← Language.one_add_self_mul_kstar_eq_kstar]
      exact (Language.mem_add _ _ _).mpr (.inr hw)

omit [DecidableEq α] in
theorem Reaches.length_le {L : Language α} {s t : Point α} (h : Reaches L s t) :
    t.rest.length ≤ s.rest.length := by
  obtain ⟨w, -, hrest, -⟩ := h
  rw [hrest, List.length_append]
  omega

omit [DecidableEq α] in
/-- An outcome that takes nothing is where it starts. -/
theorem Reaches.eq_of_length {L : Language α} {s t : Point α} (h : Reaches L s t)
    (hlen : ¬t.rest.length < s.rest.length) : t = s := by
  obtain ⟨w, -, hrest, hkept⟩ := h
  have hw : w = [] := by
    apply List.eq_nil_of_length_eq_zero
    rw [hrest, List.length_append] at hlen
    omega
  subst hw
  exact reaches_one.mp ⟨[], Language.nil_mem_one, hrest, hkept⟩

omit [DecidableEq α] in
theorem mem_loop_iff {m : Point α → List (Point α)} {L : Language α}
    (hm : ∀ s t, t ∈ m s ↔ Reaches L s t) (greedy : Bool) {n : Nat} {s t : Point α}
    (hn : s.rest.length ≤ n) : t ∈ loop m greedy n s ↔ Reaches L∗ s t := by
  induction n generalizing s with
  | zero =>
    have hzero : s.rest.length = 0 := Nat.le_zero.mp hn
    rw [loop, List.mem_singleton, reaches_star, hzero]
    simp
  | succ n ih =>
    have hagain : t ∈ (m s).flatMap (fun u =>
        if u.rest.length < s.rest.length then loop m greedy n u else [u]) ∨ t = s ↔
          Reaches L∗ s t := by
      rw [List.mem_flatMap, reaches_star]
      constructor
      · rintro (⟨u, hu, ht⟩ | rfl)
        · have hreach := (hm s u).mp hu
          by_cases hlt : u.rest.length < s.rest.length
          · rw [if_pos hlt, ih (by omega)] at ht
            exact .inr ⟨u, hreach, hlt, ht⟩
          · rw [if_neg hlt, List.mem_singleton] at ht
            exact .inl (ht.trans (hreach.eq_of_length hlt))
        · exact .inl rfl
      · rintro (rfl | ⟨u, hu, hlt, ht⟩)
        · exact .inr rfl
        · refine .inl ⟨u, (hm s u).mpr hu, ?_⟩
          rw [if_pos hlt, ih (by omega)]
          exact ht
    rw [← hagain, loop]
    cases greedy with
    | true => simp
    | false =>
      simp only [Bool.false_eq_true, if_false, List.mem_cons]
      exact or_comm

/-- The outcomes of an expression are those of its language. -/
theorem mem_run_iff {r : Regex α} (h : r.Plain) (size : Nat) (s t : Point α) :
    t ∈ r.run size s ↔ Reaches r.lang s t := by
  induction r generalizing s t with
  | any =>
    constructor
    · intro ht
      unfold run at ht
      split at ht
      · cases ht
      · next a u hs =>
        rw [List.mem_singleton.mp ht]
        exact ⟨[a], ⟨a, rfl⟩, hs, rfl⟩
    · rintro ⟨w, ⟨a, rfl⟩, hrest, hkept⟩
      unfold run
      rw [hrest]
      cases t
      simp_all
  | set p =>
    constructor
    · intro ht
      unfold run at ht
      split at ht
      · cases ht
      · next a u hs =>
        split_ifs at ht with hp
        · rw [List.mem_singleton.mp ht]
          exact ⟨[a], ⟨a, hp, rfl⟩, hs, rfl⟩
        · cases ht
    · rintro ⟨w, ⟨a, hp, rfl⟩, hrest, hkept⟩
      unfold run
      rw [hrest]
      cases t
      simp_all
  | text w =>
    constructor
    · intro ht
      unfold run at ht
      split_ifs at ht with hprefix
      · rw [List.mem_singleton.mp ht]
        exact ⟨w, rfl, (List.prefix_iff_eq_append.mp hprefix).symm, rfl⟩
      · cases ht
    · rintro ⟨w', hw', hrest, hkept⟩
      obtain rfl : w' = w := hw'
      unfold run
      rw [if_pos ⟨t.rest, hrest.symm⟩, hrest, List.drop_left]
      cases t
      simp_all
  -- The operators of the language are those of the lists of matches.
  | seq r q ihr ihq =>
    rw [run, List.mem_flatMap, lang, reaches_mul]
    exact exists_congr fun u => and_congr (ihr h.1 s u) (ihq h.2 u t)
  | alt r q ihr ihq =>
    rw [run, List.mem_append, lang, reaches_add]
    exact or_congr (ihr h.1 s t) (ihq h.2 s t)
  | optional greedy r ih =>
    rw [run, lang, reaches_add, reaches_one, ← ih h]
    cases greedy with
    | true => simp [or_comm]
    | false => simp
  | star greedy r ih => exact mem_loop_iff (ih h) greedy le_rfl
  | plus greedy r ih =>
    rw [run, List.mem_flatMap, lang, reaches_mul]
    exact exists_congr fun u => and_congr (ih h s u) (mem_loop_iff (ih h) greedy le_rfl)
  | bos => exact h.elim
  | eos => exact h.elim
  | mark r _ => exact h.elim

/-! ## Matching and replacing -/

/-- The first match of the whole text. -/
def matchWhole (r : Regex α) (v : List α) : Option (Point α) :=
  (r.run v.length ⟨v, []⟩).find? fun t => t.rest.isEmpty

theorem matchWhole_isSome_iff {r : Regex α} (h : r.Plain) (v : List α) :
    (r.matchWhole v).isSome = true ↔ v ∈ r.lang := by
  unfold matchWhole
  rw [List.find?_isSome]
  constructor
  · rintro ⟨t, ht, hend⟩
    obtain ⟨w, hw, hrest, -⟩ := (mem_run_iff h _ _ t).mp ht
    rw [List.isEmpty_iff.mp hend, List.append_nil] at hrest
    obtain rfl : v = w := hrest
    exact hw
  · intro hv
    exact ⟨⟨[], []⟩, (mem_run_iff h _ _ _).mpr ⟨v, hv, (List.append_nil v).symm, rfl⟩, rfl⟩

/-- What the first match that starts here leaves; an empty one does not count when
`notNull` is set. -/
def matchAt (size : Nat) (r : Regex α) (notNull : Bool) (u : List α) : Option (List α) :=
  ((r.run size ⟨u, []⟩).map Point.rest).find? fun rest =>
    !notNull || decide (rest.length < u.length)

/-- Replace the matches from here on, or the next one; the number bounds the steps. -/
def substituteFrom (size : Nat) (r : Regex α) (w : List α) (once : Bool) :
    Nat → Bool → List α → List α
  | 0, _, u => u
  | n + 1, notNull, u =>
    match r.matchAt size notNull u with
    | some rest =>
      if once then w ++ rest
      else w ++ substituteFrom size r w once n (!decide (rest.length < u.length)) rest
    | none =>
      match u with
      | [] => []
      | a :: u => a :: substituteFrom size r w once n false u

/-- Replace the matches in a text, or the first one. -/
def substitute (r : Regex α) (w : List α) (once : Bool) (v : List α) : List α :=
  r.substituteFrom v.length w once (2 * v.length + 2) false v

section Substitute

variable {size : Nat} {r : Regex α} {w u rest : List α} {once notNull : Bool} {n : Nat}

theorem substituteFrom_succ :
    r.substituteFrom size w once (n + 1) notNull u =
      match r.matchAt size notNull u with
      | some rest =>
        if once then w ++ rest
        else w ++ substituteFrom size r w once n (!decide (rest.length < u.length)) rest
      | none =>
        match u with
        | [] => []
        | a :: u => a :: substituteFrom size r w once n false u := rfl

/-- Where nothing matches, nothing is replaced. -/
theorem substituteFrom_of_none (hn : u.length < n)
    (h : ∀ u', u' <:+ u → ∀ notNull, r.matchAt size notNull u' = none) :
    r.substituteFrom size w once n notNull u = u := by
  induction n generalizing u notNull with
  | zero => exact absurd hn (Nat.not_lt_zero _)
  | succ n ih =>
    rw [substituteFrom_succ, h u List.suffix_rfl notNull]
    cases u with
    | nil => rfl
    | cons a u =>
      show a :: substituteFrom size r w once n false u = a :: u
      rw [ih (Nat.lt_of_succ_lt_succ hn) fun u' hu' => h u' (hu'.trans (List.suffix_cons a u))]

/-- What stands before the first match is kept. -/
theorem substituteFrom_append (pre : List α)
    (h : ∀ u', u' <:+ pre → u' ≠ [] → r.matchAt size false (u' ++ u) = none) :
    r.substituteFrom size w once (pre.length + n) false (pre ++ u) =
      pre ++ r.substituteFrom size w once n false u := by
  induction pre with
  | nil => rw [List.length_nil, Nat.zero_add, List.nil_append, List.nil_append]
  | cons a pre ih =>
    have hlen : (a :: pre).length + n = pre.length + n + 1 := by
      rw [List.length_cons]
      omega
    rw [hlen, substituteFrom_succ, h (a :: pre) List.suffix_rfl (List.cons_ne_nil a pre)]
    show a :: substituteFrom size r w once (pre.length + n) false (pre ++ u) = _
    rw [ih fun u' hu' => h u' (hu'.trans (List.suffix_cons a pre))]
    rfl

theorem substituteFrom_of_match (h : r.matchAt size notNull u = some rest) :
    r.substituteFrom size w once (n + 1) notNull u =
      if once then w ++ rest
      else w ++ r.substituteFrom size w once n (!decide (rest.length < u.length)) rest := by
  rw [substituteFrom_succ, h]

end Substitute

end Regex

end Lib
