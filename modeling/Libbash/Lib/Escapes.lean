import Mathlib.Algebra.BigOperators.Group.List.Basic
import Mathlib.Algebra.GroupWithZero.Nat

/-!
# Escapes in a sequence

An escape takes away the meaning of the element after it, and is not an element of its
own (`unescape`). Where there is none, nothing changes; where there is one, the sequence
gets shorter, however the length of its elements is measured.
-/

namespace Lib

variable {X : Type} (isEscape : X → Bool) (quote : X → X)

/-- The elements without their escapes. -/
def unescape : List X → List X
  | [] => []
  | a :: l =>
    if isEscape a then
      match l with
      | [] => []
      | b :: l => quote b :: unescape l
    else a :: unescape l

variable {isEscape quote}

theorem unescape_of_none {l : List X} (h : ∀ a ∈ l, isEscape a = false) :
    unescape isEscape quote l = l := by
  fun_induction unescape isEscape quote l with
  | case1 => rfl
  | case2 a ha => exact absurd (h a List.mem_cons_self) (by rw [ha]; decide)
  | case3 a ha b l ih => exact absurd (h a List.mem_cons_self) (by rw [ha]; decide)
  | case4 a l ha ih => rw [ih (List.forall_mem_cons.mp h).2]

theorem unescape_map {Y : Type} {isEscape' : Y → Bool} {quote' : Y → Y} (f : X → Y)
    (hescape : ∀ a, isEscape' (f a) = isEscape a) (hquote : ∀ a, quote' (f a) = f (quote a))
    (l : List X) :
    unescape isEscape' quote' (l.map f) = (unescape isEscape quote l).map f := by
  fun_induction unescape isEscape quote l with
  | case1 => rfl
  | case2 a ha =>
    rw [List.map_cons, List.map_nil, unescape.eq_def]
    simp [hescape, ha]
  | case3 a ha b l ih =>
    rw [List.map_cons, List.map_cons, unescape.eq_def]
    simp [hescape, hquote, ha, ih]
  | case4 a l ha ih =>
    rw [List.map_cons, unescape.eq_def]
    simp [hescape, ha, ih]

/-- The sequence gets shorter by every escape. -/
theorem sum_unescape {size : X → Nat} (hescape : ∀ a, isEscape a = true → 0 < size a)
    (hquote : ∀ a, size (quote a) = size a) (l : List X) :
    ((unescape isEscape quote l).map size).sum ≤ (l.map size).sum ∧
      ((∃ a ∈ l, isEscape a = true) →
        ((unescape isEscape quote l).map size).sum < (l.map size).sum) := by
  fun_induction unescape isEscape quote l with
  | case1 => exact ⟨Nat.le_refl _, fun ⟨a, ha, _⟩ => absurd ha List.not_mem_nil⟩
  | case2 a ha =>
    have hpos := hescape a ha
    simp only [List.map_nil, List.sum_nil, List.map_cons, List.sum_cons]
    omega
  | case3 a ha b l ih =>
    have hpos := hescape a ha
    simp only [List.map_cons, List.sum_cons, hquote]
    omega
  | case4 a l ha ih =>
    simp only [List.map_cons, List.sum_cons]
    refine ⟨Nat.add_le_add_left ih.1 _, ?_⟩
    rintro ⟨b, hb, hescaped⟩
    rcases List.mem_cons.mp hb with rfl | hin
    · exact absurd hescaped ha
    · exact Nat.add_lt_add_left (ih.2 ⟨b, hin, hescaped⟩) _

end Lib
