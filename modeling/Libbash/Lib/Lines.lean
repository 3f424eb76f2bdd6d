import Mathlib.Data.List.TakeDrop
import Mathlib.Data.Nat.Find

/-!
# Lines of a text, and scans that look ahead

A scan goes on until what is still to be read has a property (`splitTail`); it stops at the
first such place (`length_splitTail`). A line of a text begins at the start or behind a line
end and goes up to the next one (`IsLine`); of several equal lines there is a first one.
-/

namespace Lib

/-! ## Scans -/

section Scan

variable {A : Type} {p : List A → Bool} {l : List A}

variable (p) in
/-- The elements before the first place where the rest of the sequence has the property, and
that rest. -/
def splitTail : List A → List A × List A
  | [] => ([], [])
  | a :: l => if p (a :: l) then ([], a :: l) else (a :: (splitTail l).1, (splitTail l).2)

variable (p) in
/-- How many elements stand before that place. -/
def stopOf : List A → Nat
  | [] => 0
  | a :: l => if p (a :: l) then 0 else stopOf l + 1

theorem splitTail_eq (l : List A) : splitTail p l = (l.take (stopOf p l), l.drop (stopOf p l)) := by
  induction l with
  | nil => rfl
  | cons a l ih =>
    rw [splitTail, stopOf]
    split
    · rfl
    · rw [ih]
      rfl

/-- Before it stops, the scan has not seen the property. -/
theorem eq_false_of_lt_stopOf {i : Nat} (h : i < stopOf p l) : p (l.drop i) = false := by
  induction l generalizing i with
  | nil => cases h
  | cons a l ih =>
    rw [stopOf] at h
    split at h
    · cases h
    · next hp =>
      cases i with
      | zero => exact Bool.not_eq_true _ ▸ hp
      | succ i => exact ih (Nat.lt_of_succ_lt_succ h)

/-- The scan stops at the end or where it sees the property. -/
theorem eq_true_of_stopOf_lt (h : stopOf p l < l.length) : p (l.drop (stopOf p l)) = true := by
  induction l with
  | nil => cases h
  | cons a l ih =>
    by_cases hp : p (a :: l) = true
    · rw [stopOf, if_pos hp]
      exact hp
    · rw [stopOf, if_neg hp] at h ⊢
      exact ih (Nat.lt_of_succ_lt_succ h)

/-- The scan stops at the first place with the property. -/
theorem stopOf_eq {i : Nat} (hi : i < l.length) (hfirst : ∀ j < i, p (l.drop j) = false)
    (h : p (l.drop i) = true) : stopOf p l = i := by
  rcases Nat.lt_trichotomy (stopOf p l) i with hlt | heq | hgt
  · have htrue := eq_true_of_stopOf_lt (Nat.lt_trans hlt hi)
    rw [hfirst _ hlt] at htrue
    cases htrue
  · exact heq
  · rw [eq_false_of_lt_stopOf hgt] at h
    cases h

end Scan

/-! ## Texts of the elements -/

section Texts

variable {A B : Type} {f : A → List B} {l : List A}

/-- More elements have a longer text, when none has an empty one. -/
theorem length_flatMap_take_lt (hf : ∀ a, f a ≠ []) {i j : Nat} (hij : i < j)
    (hj : j ≤ l.length) :
    ((l.take i).flatMap f).length < ((l.take j).flatMap f).length := by
  have hsplit : l.take j = l.take i ++ (l.drop i).take (j - i) := by
    rw [← List.take_add, Nat.add_sub_cancel' (Nat.le_of_lt hij)]
  have hne : ((l.drop i).take (j - i)).flatMap f ≠ [] := by
    intro hempty
    obtain ⟨a, ha⟩ := List.exists_mem_of_ne_nil ((l.drop i).take (j - i)) (by
      rw [ne_eq, List.take_eq_nil_iff, List.drop_eq_nil_iff]
      omega)
    exact hf a (List.flatMap_eq_nil_iff.mp hempty a ha)
  have hpos := List.length_pos_iff.mpr hne
  rw [hsplit, List.flatMap_append, List.length_append]
  omega

end Texts

/-! ## Lines -/

section Lines

variable {text line before behind : List Char}

/-- A line end stands at the beginning of a text. -/
def startsWithLineEnd : List Char → Prop
  | '\n' :: _ => True
  | '\r' :: '\n' :: _ => True
  | _ => False

/-- A text has this line between what stands before and behind it. Behind the last line end
there is a line only if it is not empty. -/
structure IsLine (text line before behind : List Char) : Prop where
  text_eq : text = before ++ line ++ behind
  single : '\n' ∉ line
  starts : before = [] ∨ before.getLast? = some '\n'
  ends : behind = [] ∨ startsWithLineEnd behind
  there : line = [] → behind ≠ []

/-- No equal line stands before this one. -/
structure IsFirstLine (text line before behind : List Char) : Prop
    extends IsLine text line before behind where
  first : ∀ before' behind', IsLine text line before' behind' → before.length ≤ before'.length

theorem IsFirstLine.length_eq {before' behind' : List Char}
    (h : IsFirstLine text line before behind) (h' : IsFirstLine text line before' behind') :
    before.length = before'.length :=
  Nat.le_antisymm (h.first _ _ h'.toIsLine) (h'.first _ _ h.toIsLine)

theorem IsLine.exists_first (h : IsLine text line before behind) :
    ∃ before' behind', IsFirstLine text line before' behind' := by
  classical
  have hlen : ∃ n, ∃ before' behind', IsLine text line before' behind' ∧ before'.length = n :=
    ⟨_, before, behind, h, rfl⟩
  obtain ⟨before', behind', hline, hn⟩ := Nat.find_spec hlen
  refine ⟨before', behind', hline, fun b c hother => ?_⟩
  rw [hn]
  exact Nat.find_min' hlen ⟨b, c, hother, rfl⟩

end Lines

end Lib
