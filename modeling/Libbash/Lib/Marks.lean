import Mathlib.Data.List.Basic

/-!
# Marks in front of elements

A mark protects the element after it. `eraseMarks` takes the marks of one
protected element out of a sequence, from left to right; `eraseLoop` does it in
place, with a search that goes on behind what it has kept. `eraseMarks_mark`:
two passes, for the mark itself and then for another element, undo the marking
of both.
-/

namespace Lib

variable {X : Type}

section Passes

variable [DecidableEq X]

/-! ## The loop in place -/

/-- The first place, from `pos` on, where `pattern` stands. -/
def findFrom (pattern l : List X) (pos : Nat) : Option Nat :=
  (List.range' pos (l.length - pos)).find? fun i => pattern.isPrefixOf (l.drop i)

/-- Search, erase one element where `pattern` starts, and go on behind the next
one, for at most `fuel` passes. -/
def eraseLoop (pattern : List X) : Nat → List X → Nat → List X
  | 0, l, _ => l
  | fuel + 1, l, pos =>
    match findFrom pattern l pos with
    | none => l
    | some i => eraseLoop pattern fuel (l.eraseIdx i) (i + 1)

section Find

variable {pattern l : List X} {pos : Nat}

theorem findFrom_here (hpos : pos < l.length) (h : pattern.isPrefixOf (l.drop pos) = true) :
    findFrom pattern l pos = some pos := by
  obtain ⟨n, hn⟩ := Nat.exists_eq_succ_of_ne_zero (Nat.sub_ne_zero_of_lt hpos)
  unfold findFrom
  rw [hn, List.range'_succ]
  exact List.find?_cons_of_pos h

theorem findFrom_next (hpos : pos < l.length) (h : ¬ pattern.isPrefixOf (l.drop pos) = true) :
    findFrom pattern l pos = findFrom pattern l (pos + 1) := by
  have hlen : l.length - pos = l.length - (pos + 1) + 1 := by omega
  unfold findFrom
  rw [hlen, List.range'_succ]
  exact List.find?_cons_of_neg h

theorem findFrom_end (hpos : l.length ≤ pos) : findFrom pattern l pos = none := by
  unfold findFrom
  rw [Nat.sub_eq_zero_of_le hpos]
  rfl

theorem eraseLoop_next (fuel : Nat) (hpos : pos < l.length)
    (h : ¬ pattern.isPrefixOf (l.drop pos) = true) :
    eraseLoop pattern fuel l pos = eraseLoop pattern fuel l (pos + 1) := by
  cases fuel with
  | zero => rfl
  | succ fuel => rw [eraseLoop, eraseLoop, findFrom_next hpos h]

theorem eraseLoop_end (fuel : Nat) (hpos : l.length ≤ pos) :
    eraseLoop pattern fuel l pos = l := by
  cases fuel with
  | zero => rfl
  | succ fuel => rw [eraseLoop, findFrom_end hpos]

end Find

/-! ## One pass -/

/-- The sequence without the marks of `item`. -/
def eraseMarks (mark item : X) : List X → List X
  | a :: b :: l =>
    if a = mark ∧ b = item then b :: eraseMarks mark item l else a :: eraseMarks mark item (b :: l)
  | l => l

variable {mark item : X}

/-- The loop has done what stands before its position, and what is left is a pass
to come. -/
theorem eraseLoop_eq (pre l : List X) (fuel : Nat) (hfuel : l.length ≤ fuel) :
    eraseLoop [mark, item] fuel (pre ++ l) pre.length = pre ++ eraseMarks mark item l := by
  have hdrop (l : List X) : (pre ++ l).drop pre.length = l := List.drop_left
  fun_induction eraseMarks mark item l generalizing pre fuel with
  | case1 a b l hmatch ih =>
    obtain ⟨rfl, rfl⟩ := hmatch
    obtain ⟨fuel, rfl⟩ := Nat.exists_eq_add_of_le' hfuel
    have hfind : findFrom [a, b] (pre ++ a :: b :: l) pre.length = some pre.length := by
      apply findFrom_here
      · simp
      · rw [hdrop]
        simp [List.isPrefixOf]
    have herase : (pre ++ a :: b :: l).eraseIdx pre.length = (pre ++ [b]) ++ l := by
      rw [List.eraseIdx_append_of_length_le (Nat.le_refl _), Nat.sub_self]
      simp
    have hrest := ih (pre ++ [b]) (fuel + l.length + 1) (by omega) fun l => List.drop_left
    rw [List.length_append] at hrest
    show eraseLoop [a, b] (fuel + l.length + 1 + 1) _ _ = _
    rw [eraseLoop, hfind]
    show eraseLoop [a, b] (fuel + l.length + 1) ((pre ++ a :: b :: l).eraseIdx pre.length) _ = _
    rw [herase]
    exact hrest.trans (by simp)
  | case2 a b l hmatch ih =>
    have hhead : ¬ [mark, item].isPrefixOf ((pre ++ a :: b :: l).drop pre.length) = true := by
      rw [hdrop]
      simp only [List.isPrefixOf, Bool.and_true, Bool.and_eq_true, beq_iff_eq]
      rintro ⟨rfl, rfl⟩
      exact hmatch ⟨rfl, rfl⟩
    have hrest := ih (pre ++ [a]) fuel (Nat.le_of_succ_le hfuel) fun l => List.drop_left
    rw [eraseLoop_next fuel (by simp) hhead]
    simpa using hrest
  | case3 l hshort =>
    match l with
    | [] => exact eraseLoop_end fuel (by simp)
    | [a] =>
      have hhead : ¬ [mark, item].isPrefixOf ((pre ++ [a]).drop pre.length) = true := by
        rw [hdrop]
        simp [List.isPrefixOf]
      rw [eraseLoop_next fuel (by simp) hhead]
      exact eraseLoop_end fuel (by simp)
    | a :: b :: l => exact absurd rfl (hshort a b l)

theorem eraseLoop_start (l : List X) :
    eraseLoop [mark, item] l.length l 0 = eraseMarks mark item l :=
  eraseLoop_eq [] l l.length (Nat.le_refl _)

end Passes

/-! ## Marking and its two passes -/

section Marking

variable {mark : X}

/-- A mark in front of every element that `p` holds of. -/
def markAll (mark : X) (p : X → Bool) (l : List X) : List X :=
  l.flatMap fun a => if p a then [mark, a] else [a]

theorem markAll_cons_of_pos {p : X → Bool} {a : X} (h : p a = true) (l : List X) :
    markAll mark p (a :: l) = mark :: a :: markAll mark p l := by
  simp [markAll, h]

theorem markAll_cons_of_neg {p : X → Bool} {a : X} (h : p a = false) (l : List X) :
    markAll mark p (a :: l) = a :: markAll mark p l := by
  simp [markAll, h]

/-- Nothing that is marked starts a marked sequence. -/
theorem head?_markAll {p : X → Bool} {a : X} (ha : p a = true) (hne : a ≠ mark) (l : List X) :
    (markAll mark p l).head? ≠ some a := by
  cases l with
  | nil => simp [markAll]
  | cons b l =>
    cases hb : p b with
    | true =>
      rw [markAll_cons_of_pos hb]
      exact fun h => hne (Option.some.inj h).symm
    | false =>
      rw [markAll_cons_of_neg hb]
      intro h
      rw [Option.some.inj h, ha] at hb
      cases hb

end Marking

section Unmarking

variable [DecidableEq X] {mark item : X}

/-- An element that starts no protected pair stays. -/
theorem eraseMarks_cons {a : X} {l : List X} (h : a = mark → l.head? ≠ some item) :
    eraseMarks mark item (a :: l) = a :: eraseMarks mark item l := by
  cases l with
  | nil => simp [eraseMarks]
  | cons b l =>
    rw [eraseMarks, if_neg]
    rintro ⟨rfl, rfl⟩
    exact h rfl rfl

theorem eraseMarks_pair (l : List X) :
    eraseMarks mark item (mark :: item :: l) = item :: eraseMarks mark item l := by
  rw [eraseMarks, if_pos ⟨rfl, rfl⟩]

/-- The pass for the mark itself leaves the marks of the other element. -/
theorem eraseMarks_self (hne : item ≠ mark) (l : List X) :
    eraseMarks mark mark (markAll mark (fun a => a == mark || a == item) l) =
      markAll mark (· == item) l := by
  induction l with
  | nil => rfl
  | cons a l ih =>
    by_cases hmark : a = mark
    · subst hmark
      rw [markAll_cons_of_pos (by simp), markAll_cons_of_neg (by simpa using Ne.symm hne),
        eraseMarks_pair, ih]
    · by_cases hitem : a = item
      · subst hitem
        have hhead : (a :: markAll mark (fun b => b == mark || b == a) l).head? ≠ some mark :=
          fun h => hmark (Option.some.inj h)
        rw [markAll_cons_of_pos (by simp), markAll_cons_of_pos (by simp),
          eraseMarks_cons fun _ => hhead, eraseMarks_cons fun h => absurd h hmark, ih]
      · rw [markAll_cons_of_neg (by simp [hmark, hitem]), markAll_cons_of_neg (by simp [hitem]),
          eraseMarks_cons fun h => absurd h hmark, ih]

/-- The pass for the other element leaves no marks. -/
theorem eraseMarks_item (hne : item ≠ mark) (l : List X) :
    eraseMarks mark item (markAll mark (· == item) l) = l := by
  induction l with
  | nil => rfl
  | cons a l ih =>
    by_cases hitem : a = item
    · subst hitem
      rw [markAll_cons_of_pos (by simp), eraseMarks_pair, ih]
    · rw [markAll_cons_of_neg (by simp [hitem]),
        eraseMarks_cons fun _ => head?_markAll (by simp) hne l, ih]

theorem eraseMarks_mark (hne : item ≠ mark) (l : List X) :
    eraseMarks mark item
      (eraseMarks mark mark (markAll mark (fun a => a == mark || a == item) l)) = l := by
  rw [eraseMarks_self hne, eraseMarks_item hne]

end Unmarking

end Lib
