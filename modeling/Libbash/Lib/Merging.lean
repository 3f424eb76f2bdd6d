import Mathlib.Data.List.Basic
import Mathlib.Tactic.Basic

/-!
# Appending what is new

Elements are appended to a line one after the other, each only when none of the line
covers it. With equality for covering nothing is lost and nothing comes twice; with a
wider relation an element that is covered by a different one never comes in.

* **`appendNew`** — the merge;
* **`AppendsAll`** — every element that is covered is there already;
* **`appendNew_eq_of_appendsAll`**, **`appendsAll_of_subset`** — this is so exactly when
  the merge is the one with equality, and as soon as nothing is lost.
-/

namespace Lib

variable {A : Type}

section Merge

variable (covers : A → A → Prop) [DecidableRel covers]

/-- Append each element in turn that nothing in the line covers. -/
def appendNew : List A → List A → List A
  | line, [] => line
  | line, a :: as =>
    if ∃ b ∈ line, covers b a then appendNew line as else appendNew (line ++ [a]) as

/-- What is covered by the line, or by an element before it, is one of these. -/
def AppendsAll : List A → List A → Prop
  | _, [] => True
  | line, a :: as => ((∃ b ∈ line, covers b a) → a ∈ line) ∧ AppendsAll (line ++ [a]) as

instance decidableAppendsAll [DecidableEq A] :
    ∀ line as : List A, Decidable (AppendsAll covers line as)
  | _, [] => isTrue trivial
  | line, a :: as =>
    haveI := decidableAppendsAll (line ++ [a]) as
    inferInstanceAs (Decidable (((∃ b ∈ line, covers b a) → a ∈ line) ∧
      AppendsAll covers (line ++ [a]) as))

variable {covers} {line line' as : List A} {a : A}

omit [DecidableRel covers] in
theorem covered_mono (h : line ⊆ line') (hcov : ∃ b ∈ line, covers b a) :
    ∃ b ∈ line', covers b a := by
  obtain ⟨b, hb, hba⟩ := hcov
  exact ⟨b, h hb, hba⟩

/-- An element that is there already is no new one. -/
theorem mem_append_of_mem {b : A} (ha : a ∈ line) : b ∈ line ++ [a] ↔ b ∈ line := by
  rw [List.mem_append, List.mem_singleton]
  constructor
  · rintro (hb | rfl)
    · exact hb
    · exact ha
  · exact .inl

/-- What is covered and is not there does not come in any more. -/
theorem notMem_appendNew (hcov : ∃ b ∈ line, covers b a) (ha : a ∉ line) (as : List A) :
    a ∉ appendNew covers line as := by
  induction as generalizing line with
  | nil => exact ha
  | cons c as ih =>
    unfold appendNew
    split
    · exact ih hcov ha
    · next hnew =>
      have hac : a ≠ c := by
        rintro rfl
        exact hnew hcov
      apply ih (covered_mono (List.subset_append_left line [c]) hcov)
      intro hmem
      rcases List.mem_append.mp hmem with hmem | hmem
      · exact ha hmem
      · exact hac (List.mem_singleton.mp hmem)

omit [DecidableRel covers] in
/-- Only which elements the line has makes a difference. -/
theorem appendsAll_congr (h : ∀ a, a ∈ line ↔ a ∈ line') :
    AppendsAll covers line as ↔ AppendsAll covers line' as := by
  induction as generalizing line line' with
  | nil => exact Iff.rfl
  | cons a as ih =>
    have hnext : ∀ b, b ∈ line ++ [a] ↔ b ∈ line' ++ [a] := by
      intro b
      rw [List.mem_append, List.mem_append, h]
    simp only [AppendsAll, h, ih hnext]

variable [DecidableEq A]

/-- With equality, the merge has the elements of both lists. -/
theorem mem_appendNew_eq (line as : List A) {x : A} :
    x ∈ appendNew Eq line as ↔ x ∈ line ∨ x ∈ as := by
  induction as generalizing line with
  | nil => simp [appendNew]
  | cons a as ih =>
    unfold appendNew
    split
    · next h =>
      obtain ⟨b, hb, rfl⟩ := h
      rw [ih, List.mem_cons]
      constructor
      · rintro (h | h)
        · exact .inl h
        · exact .inr (.inr h)
      · rintro (h | rfl | h)
        · exact .inl h
        · exact .inl hb
        · exact .inr h
    · rw [ih, List.mem_append, List.mem_singleton, List.mem_cons, or_assoc]

/-- Where everything covered is there already, the merge is the one with equality. -/
theorem appendNew_eq_of_appendsAll (hrefl : ∀ a, covers a a) (h : AppendsAll covers line as) :
    appendNew covers line as = appendNew Eq line as := by
  induction as generalizing line with
  | nil => rfl
  | cons a as ih =>
    obtain ⟨hhead, htail⟩ := h
    unfold appendNew
    by_cases ha : a ∈ line
    · rw [if_pos ⟨a, ha, hrefl a⟩, if_pos ⟨a, ha, rfl⟩]
      exact ih ((appendsAll_congr fun b => mem_append_of_mem ha).mp htail)
    · have hnew : ¬∃ b ∈ line, b = a := by
        rintro ⟨b, hb, rfl⟩
        exact ha hb
      rw [if_neg (mt hhead ha), if_neg hnew]
      exact ih htail

/-- When no element is lost, everything covered was there already. -/
theorem appendsAll_of_subset (hrefl : ∀ a, covers a a)
    (h : appendNew Eq line as ⊆ appendNew covers line as) : AppendsAll covers line as := by
  induction as generalizing line with
  | nil => trivial
  | cons a as ih =>
    by_cases ha : a ∈ line
    · unfold appendNew at h
      rw [if_pos ⟨a, ha, rfl⟩, if_pos ⟨a, ha, hrefl a⟩] at h
      exact ⟨fun _ => ha, (appendsAll_congr fun b => mem_append_of_mem ha).mpr (ih h)⟩
    · have hcov : ¬∃ b ∈ line, covers b a := by
        intro hcov
        apply notMem_appendNew hcov ha (a :: as)
        exact h ((mem_appendNew_eq line (a :: as)).mpr (.inr List.mem_cons_self))
      have hnew : ¬∃ b ∈ line, b = a := by
        rintro ⟨b, hb, rfl⟩
        exact ha hb
      unfold appendNew at h
      rw [if_neg hnew, if_neg hcov] at h
      exact ⟨fun h => absurd h hcov, ih h⟩

end Merge

end Lib
