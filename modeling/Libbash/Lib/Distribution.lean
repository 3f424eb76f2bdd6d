import Mathlib.Algebra.BigOperators.Group.List.Basic
import Mathlib.Tactic.Linarith
import Mathlib.Tactic.LinearCombination
import Mathlib.Tactic.Zify

/-!
# Texts that are distributed over others

The product of two lists of texts has every text of the first before every text of
the second. The weight of a list is the length of its texts joined by spaces, with
one space more.

* **`weight_distribute`** — the weight of a product;
* **`Lighter.distribute`** — lists that are neither longer nor heavier have a product
  that is neither;
* **`Lighter.of_weight_distribute`** — it has the same weight only where a list that
  has become shorter meets empty texts.
-/

namespace Lib

def distribute (l l' : List String) : List String := l.flatMap fun a => l'.map (a ++ ·)

/-! ## Products -/

section Products

variable (l l' l'' : List String)

theorem distribute_nil : distribute [] l = [] := rfl

theorem distribute_cons (x : String) :
    distribute (x :: l) l' = l'.map (x ++ ·) ++ distribute l l' := rfl

theorem empty_distribute : distribute [""] l = l := by
  rw [distribute_cons, distribute_nil, List.append_nil]
  refine (List.map_congr_left fun x _ => ?_).trans (List.map_id l)
  exact String.empty_append

theorem distribute_singleton (x : String) : distribute l [x] = l.map (· ++ x) := by
  induction l with
  | nil => rfl
  | cons y l ih =>
    rw [distribute_cons, ih]
    rfl

theorem distribute_empty : distribute l [""] = l := by
  rw [distribute_singleton]
  refine (List.map_congr_left fun x _ => ?_).trans (List.map_id l)
  exact String.append_empty

theorem distribute_append_left : distribute (l ++ l') l'' = distribute l l'' ++ distribute l' l'' :=
  List.flatMap_append

theorem distribute_assoc :
    distribute (distribute l l') l'' = distribute l (distribute l' l'') := by
  have hmap : ∀ x : String, distribute (l'.map (x ++ ·)) l'' =
      (distribute l' l'').map (x ++ ·) := by
    intro x
    induction l' with
    | nil => rfl
    | cons y l' ih =>
      rw [List.map_cons, distribute_cons, distribute_cons, List.map_append, ih, List.map_map]
      refine congrArg (· ++ _) (List.map_congr_left fun z _ => ?_)
      exact String.append_assoc
  induction l with
  | nil => rfl
  | cons x l ih => rw [distribute_cons, distribute_append_left, hmap, ih, distribute_cons]

theorem length_distribute : (distribute l l').length = l.length * l'.length := by
  induction l with
  | nil => exact (Nat.zero_mul _).symm
  | cons x l ih =>
    rw [distribute_cons, List.length_append, List.length_map, ih, List.length_cons,
      Nat.succ_mul, Nat.add_comm]

end Products

/-! ## Weights -/

def weight (l : List String) : Nat := (l.map fun x => x.length + 1).sum

section Weights

variable {l l' : List String}

theorem weight_cons (x : String) (l : List String) :
    weight (x :: l) = x.length + 1 + weight l := List.sum_cons

theorem weight_append (l l' : List String) : weight (l ++ l') = weight l + weight l' := by
  rw [weight, List.map_append, List.sum_append]
  rfl

theorem length_le_weight (l : List String) : l.length ≤ weight l := by
  induction l with
  | nil => exact le_refl _
  | cons x l ih =>
    rw [List.length_cons, weight_cons]
    omega

/-- Nothing is lighter than empty texts. -/
theorem weight_eq_length_iff (l : List String) : weight l = l.length ↔ ∀ x ∈ l, x = "" := by
  induction l with
  | nil => exact iff_of_true rfl fun x hx => absurd hx List.not_mem_nil
  | cons x l ih =>
    have hle := length_le_weight l
    rw [List.length_cons, weight_cons, List.forall_mem_cons, ← ih, ← String.length_eq_zero_iff]
    omega

theorem length_intercalate_space (h : l ≠ []) : (" ".intercalate l).length + 1 = weight l := by
  induction l with
  | nil => exact absurd rfl h
  | cons x l ih =>
    cases l with
    | nil =>
      rw [String.intercalate_singleton, weight_cons]
      rfl
    | cons y l =>
      have hrest := ih (List.cons_ne_nil _ _)
      have hspace : " ".length = 1 := rfl
      rw [String.intercalate_cons_cons, String.length_append, String.length_append, weight_cons]
      omega

theorem weight_map_append (x : String) (l : List String) :
    weight (l.map (x ++ ·)) = x.length * l.length + weight l := by
  induction l with
  | nil => rfl
  | cons y l ih =>
    rw [List.map_cons, weight_cons, weight_cons, ih, String.length_append, List.length_cons,
      Nat.mul_succ]
    omega

theorem weight_distribute (l l' : List String) :
    weight (distribute l l') + l.length * l'.length =
      weight l * l'.length + weight l' * l.length := by
  induction l with
  | nil =>
    rw [distribute_nil, List.length_nil, Nat.zero_mul, Nat.mul_zero]
    exact (Nat.zero_mul _).symm
  | cons x l ih =>
    rw [distribute_cons, weight_append, weight_map_append, weight_cons, List.length_cons]
    linarith

variable {m m' : List String}

/-- What a product loses with lists that are shorter and lighter. -/
theorem weight_distribute_sub (hl : l'.length ≤ l.length) (hm : m'.length ≤ m.length)
    (hwl : weight l' ≤ weight l) (hwm : weight m' ≤ weight m) :
    weight (distribute l m) = weight (distribute l' m') +
      ((weight l - weight l') * m'.length + (weight m - weight m') * l'.length +
        (weight m - m'.length) * (l.length - l'.length) +
        (m.length - m'.length) * (weight l - l.length)) := by
  have hprod := weight_distribute l m
  have hprod' := weight_distribute l' m'
  have hlw := length_le_weight l
  have hmw := length_le_weight m
  generalize weight (distribute l m) = w at hprod ⊢
  generalize weight (distribute l' m') = w' at hprod' ⊢
  zify [hl, hm, hwl, hwm, hlw, hm.trans hmw] at hprod hprod' ⊢
  linear_combination hprod - hprod'

/-- The first list is not empty, and neither longer nor heavier than the second. -/
structure Lighter (l' l : List String) : Prop where
  ne_nil : l' ≠ []
  length : l'.length ≤ l.length
  weight : weight l' ≤ weight l

namespace Lighter

theorem refl (h : l ≠ []) : Lighter l l := ⟨h, le_refl _, le_refl _⟩

theorem append (h : Lighter l' l) (h' : Lighter m' m) : Lighter (l' ++ m') (l ++ m) where
  ne_nil := List.append_ne_nil_of_left_ne_nil h.ne_nil _
  length := by
    have hlength := h.length
    have hlength' := h'.length
    rw [List.length_append, List.length_append]
    omega
  weight := by
    have hweight := h.weight
    have hweight' := h'.weight
    rw [weight_append, weight_append]
    omega

theorem distribute (h : Lighter l' l) (h' : Lighter m' m) :
    Lighter (distribute l' m') (distribute l m) where
  ne_nil := by
    have hpos := List.length_pos_iff.mpr h.ne_nil
    have hpos' := List.length_pos_iff.mpr h'.ne_nil
    rw [← List.length_pos_iff, length_distribute]
    exact Nat.mul_pos hpos hpos'
  length := by
    rw [length_distribute, length_distribute]
    exact Nat.mul_le_mul h.length h'.length
  weight := by
    rw [weight_distribute_sub h.length h'.length h.weight h'.weight]
    exact Nat.le_add_right _ _

/-- The joined texts are one text of the same weight. -/
theorem joined (h : Lighter l' l) : Lighter [" ".intercalate l'] l where
  ne_nil := List.cons_ne_nil _ _
  length := (List.length_pos_iff.mpr h.ne_nil).trans_le h.length
  weight := by
    have hjoined := length_intercalate_space h.ne_nil
    have hweight := h.weight
    rw [weight_cons]
    show _ + 1 + 0 ≤ _
    omega

/-- Nothing is lost: the lists are as heavy as before, and one that has become
shorter meets empty texts. -/
theorem of_weight_distribute (h : Lighter l' l) (h' : Lighter m' m)
    (heq : Lib.weight (Lib.distribute l' m') = Lib.weight (Lib.distribute l m)) :
    Lib.weight l' = Lib.weight l ∧ Lib.weight m' = Lib.weight m ∧
      (l'.length < l.length → ∀ x ∈ m, x = "") ∧ (m'.length < m.length → ∀ x ∈ l, x = "") := by
  have hl := h.length
  have hm := h'.length
  have hpos := List.length_pos_iff.mpr h.ne_nil
  have hpos' := List.length_pos_iff.mpr h'.ne_nil
  have hmw := length_le_weight m
  have hlw := length_le_weight l
  have hwl := h.weight
  have hwm := h'.weight
  rw [weight_distribute_sub hl hm hwl hwm] at heq
  have hzero := Nat.left_eq_add.mp heq
  simp only [Nat.add_eq_zero_iff, Nat.mul_eq_zero] at hzero
  obtain ⟨⟨⟨hfirst, hsecond⟩, hthird⟩, hfourth⟩ := hzero
  refine ⟨by omega, by omega, fun hlt => ?_, fun hlt => ?_⟩
  · rw [← weight_eq_length_iff]
    omega
  · rw [← weight_eq_length_iff]
    omega

end Lighter

end Weights

/-! ## Joined texts -/

section Joined

variable {l l' m m' : List String}

theorem distribute_ne_nil (hl : l ≠ []) (hm : m ≠ []) : distribute l m ≠ [] := by
  rw [← List.length_pos_iff] at hl hm ⊢
  rw [length_distribute]
  exact Nat.mul_pos hl hm

theorem intercalate_append_space (hl : l ≠ []) (hm : m ≠ []) :
    " ".intercalate (l ++ m) = " ".intercalate l ++ " " ++ " ".intercalate m :=
  String.intercalate_append_of_ne_nil hl hm

theorem distribute_all_empty (hl : ∀ x ∈ l, x = "") (hm : ∀ x ∈ m, x = "") :
    ∀ x ∈ distribute l m, x = "" := by
  intro x hx
  obtain ⟨a, ha, hx⟩ := List.mem_flatMap.mp hx
  obtain ⟨b, hb, rfl⟩ := List.mem_map.mp hx
  rw [hl a ha, hm b hb]
  rfl

/-- Copies of lists that read alike. -/
theorem intercalate_distribute_empty (hl : ∀ x ∈ l, x = "") (hm : m ≠ []) (hm' : m' ≠ [])
    (heq : " ".intercalate m' = " ".intercalate m) :
    " ".intercalate (distribute l m') = " ".intercalate (distribute l m) := by
  induction l with
  | nil => rfl
  | cons x l ih =>
    obtain ⟨rfl, hrest⟩ := List.forall_mem_cons.mp hl
    have hcopy : ∀ k : List String, distribute ("" :: l) k = k ++ distribute l k := by
      intro k
      have hone := empty_distribute k
      rw [distribute_cons, distribute_nil, List.append_nil] at hone
      rw [distribute_cons, hone]
    rw [hcopy, hcopy]
    cases l with
    | nil => rwa [distribute_nil, distribute_nil, List.append_nil, List.append_nil]
    | cons y l =>
      rw [intercalate_append_space hm' (distribute_ne_nil (List.cons_ne_nil _ _) hm'),
        intercalate_append_space hm (distribute_ne_nil (List.cons_ne_nil _ _) hm), heq, ih hrest]

end Joined

end Lib
