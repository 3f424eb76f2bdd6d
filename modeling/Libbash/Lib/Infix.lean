import Mathlib.Data.List.Induction
import Mathlib.Tactic.Basic

/-!
# Infix expressions and how operators group them

A sequence `a₀ o₁ a₁ … oₙ aₙ` of operands and operators is grouped by a tree. A
`Grouping` says which trees: every operator has a rank, where a lower rank binds
tighter, and the operators of one rank may stand below each other on the left
side, on the right side, or not at all.

* **`exists_grouped`** — a sequence has a tree, for a grouping that lets the
  operators of every rank stand on one side at least;
* **`nestFree_iff_apart`** — that no operator of a rank stands directly below
  another one is seen from the sequence: between any two of them there is an
  operator of a higher rank.
-/

namespace Lib

/-- An expression of binary operators in `Op` over operands in `A`. -/
inductive InfixTree (Op A : Type) where
  | leaf (a : A)
  | node (op : Op) (l r : InfixTree Op A)

namespace InfixTree

variable {Op A : Type}

/-- The first operand. -/
def first : InfixTree Op A → A
  | leaf a => a
  | node _ l _ => l.first

/-- The operators, each with the operand to its right. -/
def rest : InfixTree Op A → List (Op × A)
  | leaf _ => []
  | node op l r => l.rest ++ (op, r.first) :: r.rest

/-- The operators from left to right. -/
def ops (t : InfixTree Op A) : List Op := t.rest.map Prod.fst

/-- Evaluate an expression from its operands up. -/
def fold {V : Type} (onLeaf : A → V) (onNode : Op → V → V → V) : InfixTree Op A → V
  | leaf a => onLeaf a
  | node op l r => onNode op (l.fold onLeaf onNode) (r.fold onLeaf onNode)

/-- The operator at the top. -/
def root? : InfixTree Op A → Option Op
  | leaf _ => none
  | node op _ _ => some op

@[simp] theorem ops_leaf (a : A) : (leaf a : InfixTree Op A).ops = [] := rfl

@[simp] theorem ops_node (op : Op) (l r : InfixTree Op A) :
    (node op l r).ops = l.ops ++ op :: r.ops := by
  simp [ops, rest]

end InfixTree

/-- How the operators of an expression group their operands. -/
structure Grouping (Op : Type) where
  rank : Op → Nat
  /-- An operator of the rank can be the left operand of another one. -/
  onLeft : Nat → Bool
  /-- An operator of the rank can be the right operand of another one. -/
  onRight : Nat → Bool

namespace Grouping

open InfixTree

variable {Op A : Type} (g : Grouping Op)

/-- The operand `t` binds tighter than `op`, or as tight, where `same` lets it. -/
def Binds (same : Nat → Bool) (op : Op) (t : InfixTree Op A) : Prop :=
  ∀ o ∈ t.root?, g.rank o < g.rank op ∨ g.rank o = g.rank op ∧ same (g.rank op) = true

/-- The tree groups its operands as `g` does. -/
def Grouped : InfixTree Op A → Prop
  | leaf _ => True
  | node op l r => g.Binds g.onLeft op l ∧ g.Binds g.onRight op r ∧ Grouped l ∧ Grouped r

/-- Every operator of `t` has a rank below `k`. -/
def Below (k : Nat) (t : InfixTree Op A) : Prop := ∀ o ∈ t.ops, g.rank o < k

theorem below_node {g : Grouping Op} {k : Nat} {op : Op} {l r : InfixTree Op A} :
    g.Below k (node op l r) ↔ g.Below k l ∧ g.rank op < k ∧ g.Below k r := by
  simp only [Below, ops_node, List.mem_append, List.mem_cons]
  constructor
  · intro h
    exact ⟨fun o ho => h o (.inl ho), h op (.inr (.inl rfl)), fun o ho => h o (.inr (.inr ho))⟩
  · rintro ⟨hl, hop, hr⟩ o (ho | rfl | ho)
    · exact hl o ho
    · exact hop
    · exact hr o ho

/-- Below its root a tree holds no operator of a higher rank. -/
theorem Grouped.rank_le {g : Grouping Op} {t : InfixTree Op A} (h : g.Grouped t) {k : Nat}
    (hroot : ∀ o ∈ t.root?, g.rank o < k) : g.Below k t := by
  induction t generalizing k with
  | leaf a =>
    intro o ho
    cases ho
  | node op l r ihl ihr =>
    obtain ⟨hl, hr, gl, gr⟩ := h
    have hop : g.rank op < k := hroot op rfl
    refine below_node.mpr ⟨ihl gl fun o ho => ?_, hop, ihr gr fun o ho => ?_⟩
    · have := hl o ho
      omega
    · have := hr o ho
      omega

/-! ## A tree for every sequence -/

/-- One more operator and operand at the right end. -/
def insert (op : Op) (a : A) : InfixTree Op A → InfixTree Op A
  | leaf b => node op (leaf b) (leaf a)
  | node o l r =>
    if g.rank op < g.rank o ∨ g.rank op = g.rank o ∧ g.onRight (g.rank o) = true then
      node o l (insert op a r)
    else node op (node o l r) (leaf a)

theorem first_insert (op : Op) (a : A) (t : InfixTree Op A) : (g.insert op a t).first = t.first := by
  cases t with
  | leaf b => rfl
  | node o l r =>
    unfold insert
    split <;> rfl

theorem rest_insert (op : Op) (a : A) (t : InfixTree Op A) :
    (g.insert op a t).rest = t.rest ++ [(op, a)] := by
  induction t with
  | leaf b => rfl
  | node o l r ihl ihr =>
    unfold insert
    split
    · simp [rest, first_insert, ihr]
    · simp [rest, first]

theorem root?_insert (op : Op) (a : A) (t : InfixTree Op A) :
    (g.insert op a t).root? = some op ∨ (g.insert op a t).root? = t.root? := by
  cases t with
  | leaf b => exact .inl rfl
  | node o l r =>
    unfold insert
    split
    · exact .inr rfl
    · exact .inl rfl

theorem binds_leaf (same : Nat → Bool) (op : Op) (a : A) : g.Binds same op (leaf a) := by
  intro o ho
  cases ho

theorem grouped_insert (htotal : ∀ k, g.onLeft k = true ∨ g.onRight k = true) (op : Op) (a : A)
    {t : InfixTree Op A} (h : g.Grouped t) : g.Grouped (g.insert op a t) := by
  induction t with
  | leaf b => exact ⟨g.binds_leaf _ op b, g.binds_leaf _ op a, trivial, trivial⟩
  | node o l r ihl ihr =>
    obtain ⟨hl, hr, gl, gr⟩ := h
    unfold insert
    split
    · next hop =>
      refine ⟨hl, ?_, gl, ihr gr⟩
      intro o' ho'
      rcases g.root?_insert op a r with hroot | hroot
      · rw [hroot] at ho'
        cases ho'
        exact hop
      · exact hr o' (hroot ▸ ho')
    · next hop =>
      refine ⟨?_, g.binds_leaf _ op a, ⟨hl, hr, gl, gr⟩, trivial⟩
      intro o' ho'
      cases ho'
      -- an operator as tight as the new one can only stand on its left
      rcases Nat.lt_trichotomy (g.rank o) (g.rank op) with hlt | heq | hgt
      · exact .inl hlt
      · refine .inr ⟨heq, (htotal _).resolve_right fun hright => hop (.inr ⟨heq.symm, ?_⟩)⟩
        rw [heq]
        exact hright
      · exact absurd (.inl hgt) hop

theorem exists_grouped (htotal : ∀ k, g.onLeft k = true ∨ g.onRight k = true) (a : A)
    (tail : List (Op × A)) :
    ∃ t : InfixTree Op A, g.Grouped t ∧ t.first = a ∧ t.rest = tail := by
  induction tail using List.reverseRecOn with
  | nil => exact ⟨leaf a, trivial, rfl, rfl⟩
  | append_singleton tail p ih =>
    obtain ⟨t, ht, hfirst, hrest⟩ := ih
    exact ⟨g.insert p.1 p.2 t, g.grouped_insert htotal p.1 p.2 ht,
      (g.first_insert p.1 p.2 t).trans hfirst, by rw [rest_insert, hrest]⟩

end Grouping

/-! ## Operators of one rank apart from each other -/

section Apart

open InfixTree

variable {Op A : Type} (rank : Op → Nat) (k : Nat)

/-- An operator of a rank above `k` comes before the first one of rank `k`. -/
def Clear : List Op → Bool
  | [] => true
  | o :: os => decide (k < rank o) || (decide (rank o ≠ k) && Clear os)

/-- Between any two operators of rank `k` there is one of a higher rank. -/
def Apart : List Op → Bool
  | [] => true
  | o :: os => (decide (rank o ≠ k) || Clear rank k os) && Apart os

/-- No operator of rank `k` stands directly below another one. -/
def NestFree : InfixTree Op A → Prop
  | leaf _ => True
  | node op l r =>
    (rank op = k → ∀ o, o ∈ l.root? ∨ o ∈ r.root? → rank o ≠ k) ∧ NestFree l ∧ NestFree r

/-- No operator stands above one of a higher rank. -/
def Leveled : InfixTree Op A → Prop
  | leaf _ => True
  | node op l r =>
    (∀ o, o ∈ l.root? ∨ o ∈ r.root? → rank o ≤ rank op) ∧ Leveled l ∧ Leveled r

variable {rank k}

theorem Leveled.le {t : InfixTree Op A} (h : Leveled rank t) {m : Nat}
    (hroot : ∀ o ∈ t.root?, rank o ≤ m) : ∀ o ∈ t.ops, rank o ≤ m := by
  induction t generalizing m with
  | leaf a =>
    intro o ho
    cases ho
  | node op l r ihl ihr =>
    obtain ⟨hop, gl, gr⟩ := h
    have htop : rank op ≤ m := hroot op rfl
    intro o ho
    simp only [ops_node, List.mem_append, List.mem_cons] at ho
    rcases ho with ho | rfl | ho
    · exact ihl gl (fun o ho => Nat.le_trans (hop o (.inl ho)) htop) o ho
    · exact htop
    · exact ihr gr (fun o ho => Nat.le_trans (hop o (.inr ho)) htop) o ho

theorem clear_of_ne {os : List Op} (h : ∀ o ∈ os, rank o ≠ k) : Clear rank k os = true := by
  induction os with
  | nil => rfl
  | cons o os ih =>
    simp only [List.forall_mem_cons] at h
    simp [Clear, h.1, ih h.2]

theorem apart_append_of_ne {os os' : List Op} (h : ∀ o ∈ os, rank o ≠ k) :
    Apart rank k (os ++ os') = Apart rank k os' := by
  induction os with
  | nil => rfl
  | cons o os ih =>
    simp only [List.forall_mem_cons] at h
    simp [Apart, h.1, ih h.2]

theorem apart_of_ne {os : List Op} (h : ∀ o ∈ os, rank o ≠ k) : Apart rank k os = true := by
  rw [← List.append_nil os, apart_append_of_ne h]
  rfl

/-- Past an operator of a higher rank nothing counts. -/
theorem clear_append_of_lt {os os' : List Op} {o : Op} (ho : k < rank o) :
    Clear rank k (os ++ o :: os') = Clear rank k os := by
  induction os with
  | nil => simp [Clear, ho]
  | cons o' os ih => simp only [List.cons_append, Clear, ih]

theorem apart_append_of_lt {os os' : List Op} {o : Op} (ho : k < rank o) :
    Apart rank k (os ++ o :: os') = (Apart rank k os && Apart rank k os') := by
  induction os with
  | nil => simp [Apart, Nat.ne_of_gt ho]
  | cons o' os ih => simp only [List.cons_append, Apart, clear_append_of_lt ho, ih, Bool.and_assoc]

/-- Among operators of rank at most `k` the list is clear only of rank `k`. -/
theorem ne_of_clear {os : List Op} (hle : ∀ o ∈ os, rank o ≤ k) (h : Clear rank k os = true) :
    ∀ o ∈ os, rank o ≠ k := by
  induction os with
  | nil =>
    intro o ho
    cases ho
  | cons o' os ih =>
    simp only [List.forall_mem_cons] at hle
    simp only [Clear, Bool.or_eq_true, decide_eq_true_eq, Bool.and_eq_true] at h
    obtain ⟨hne, hclear⟩ := h.resolve_left (by omega)
    simp only [List.forall_mem_cons]
    exact ⟨hne, ih hle.2 hclear⟩

theorem ne_of_apart_append {os os' : List Op} {o : Op} (hle : ∀ x ∈ os ++ o :: os', rank x ≤ k)
    (ho : rank o = k) (h : Apart rank k (os ++ o :: os') = true) :
    ∀ x, x ∈ os ∨ x ∈ os' → rank x ≠ k := by
  induction os with
  | nil =>
    simp only [List.nil_append, List.forall_mem_cons] at hle
    simp only [List.nil_append, Apart, Bool.and_eq_true, Bool.or_eq_true, decide_eq_true_eq] at h
    have hclear := h.1.resolve_left (fun hne => hne ho)
    rintro x (hx | hx)
    · cases hx
    · exact ne_of_clear hle.2 hclear x hx
  | cons o' os ih =>
    simp only [List.cons_append, List.forall_mem_cons] at hle
    simp only [List.cons_append, Apart, Bool.and_eq_true, Bool.or_eq_true, decide_eq_true_eq] at h
    have hne : rank o' ≠ k := by
      rcases h.1 with hne | hclear
      · exact hne
      · exact absurd ho (ne_of_clear hle.2 hclear o (by simp))
    rintro x (hx | hx)
    · rcases List.mem_cons.mp hx with rfl | hx
      · exact hne
      · exact ih hle.2 h.2 x (.inl hx)
    · exact ih hle.2 h.2 x (.inr hx)

/-- The root of an operand is among its operators. -/
theorem mem_ops_of_root? {t : InfixTree Op A} {o : Op} (h : o ∈ t.root?) : o ∈ t.ops := by
  cases t with
  | leaf a => cases h
  | node op l r =>
    cases h
    simp

theorem nestFree_of_ne {t : InfixTree Op A} (h : ∀ o ∈ t.ops, rank o ≠ k) : NestFree rank k t := by
  induction t with
  | leaf a => trivial
  | node op l r ihl ihr =>
    simp only [ops_node, List.mem_append, List.mem_cons] at h
    exact ⟨fun hop => absurd hop (h op (.inr (.inl rfl))),
      ihl fun o ho => h o (.inl ho), ihr fun o ho => h o (.inr (.inr ho))⟩

/-- What has no operator of rank `k` at the top has none at all, when `k` is the
highest rank in it. -/
theorem ne_of_root_ne {t : InfixTree Op A} (hleveled : Leveled rank t)
    (hle : ∀ o ∈ t.root?, rank o ≤ k) (hne : ∀ o ∈ t.root?, rank o ≠ k) :
    ∀ o ∈ t.ops, rank o ≠ k := by
  intro o ho
  cases t with
  | leaf a => cases ho
  | node op l r =>
    have hop : rank op < k := Nat.lt_of_le_of_ne (hle op rfl) (hne op rfl)
    have : rank o ≤ rank op := hleveled.le (fun x hx => by cases hx; exact Nat.le_refl _) o ho
    omega

theorem nestFree_iff_apart {t : InfixTree Op A} (h : Leveled rank t) :
    NestFree rank k t ↔ Apart rank k t.ops = true := by
  induction t with
  | leaf a => simp [NestFree, Apart]
  | node op l r ihl ihr =>
    have hops := h.le (fun x hx => by cases hx; exact Nat.le_refl (rank op))
    obtain ⟨hop, gl, gr⟩ := h
    rw [ops_node] at hops
    rcases Nat.lt_trichotomy (rank op) k with hlt | heq | hgt
    · -- every operator is tighter than rank `k`
      have hne : ∀ o ∈ (InfixTree.node op l r).ops, rank o ≠ k := by
        intro o ho
        rw [ops_node] at ho
        have := hops o ho
        omega
      exact iff_of_true (nestFree_of_ne hne) (apart_of_ne hne)
    · rw [ops_node]
      constructor
      · intro hnest
        have hl := ne_of_root_ne gl (fun o ho => heq ▸ hop o (.inl ho))
          (fun o ho => hnest.1 heq o (.inl ho))
        have hr := ne_of_root_ne gr (fun o ho => heq ▸ hop o (.inr ho))
          (fun o ho => hnest.1 heq o (.inr ho))
        rw [apart_append_of_ne hl]
        simp [Apart, clear_of_ne hr, apart_of_ne hr]
      · intro hapart
        have hne := ne_of_apart_append (fun x hx => heq ▸ hops x hx) heq hapart
        refine ⟨fun _ o ho => hne o (ho.imp mem_ops_of_root? mem_ops_of_root?),
          nestFree_of_ne fun o ho => hne o (.inl ho), nestFree_of_ne fun o ho => hne o (.inr ho)⟩
    · -- an operator above rank `k` parts the two sides
      rw [ops_node, apart_append_of_lt hgt, Bool.and_eq_true, ← ihl gl, ← ihr gr]
      exact ⟨fun hnest => hnest.2, fun hnest => ⟨fun heq => absurd heq (by omega), hnest⟩⟩

end Apart

end Lib
