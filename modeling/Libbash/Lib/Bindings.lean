import Mathlib.Data.List.Pairwise
import Mathlib.Logic.Function.Basic
import Mathlib.Tactic.Basic

/-!
# Dynamic scoping as one stack of bindings per name

A name is bound at levels: level 0 is global, level `k` is the `k`-th frame
from the bottom, and `depth` is the number of frames. Under dynamic scoping a
name means its innermost binding, so each name has a stack of bindings with
strictly falling levels, none of them above the current depth. The structure
carries both facts.

* **operations** — frames are pushed and popped; a binding is made at the
  global level or in the top frame, and the innermost binding is replaced or
  removed;
* **reading** — the stacks and the innermost bindings after an operation; one on
  a name leaves the stacks of the other names;
* **levels** — `valueAt` is the binding of a name at a level, and each operation
  changes it at one level only (`ChangesOnly`).
-/

namespace Lib

/-- One stack of bindings per name, the innermost first. -/
@[ext] structure Bindings (N V : Type) where
  depth : Nat
  stack : N → List (Nat × V)
  falling : ∀ x, (stack x).Pairwise fun a b => b.1 < a.1
  bounded : ∀ x, ∀ b ∈ stack x, b.1 ≤ depth

namespace Bindings

variable {N V : Type} [DecidableEq N]

/-- The value of the innermost binding. -/
def resolve (b : Bindings N V) (x : N) : Option V := (b.stack x).head?.map Prod.snd

/-- Enter a frame. -/
def push (b : Bindings N V) : Bindings N V where
  depth := b.depth + 1
  stack := b.stack
  falling := b.falling
  bounded x e he := Nat.le_succ_of_le (b.bounded x e he)

/-- Leave the top frame with the bindings made in it. -/
def pop (b : Bindings N V) : Bindings N V where
  depth := b.depth - 1
  stack x := (b.stack x).filter fun e => e.1 ≤ b.depth - 1
  falling x := (b.falling x).filter _
  bounded x e he := by simpa using (List.mem_filter.mp he).2

/-- Replace the stack of one name. -/
def withStack (b : Bindings N V) (x : N) (l : List (Nat × V))
    (hf : l.Pairwise fun a b => b.1 < a.1) (hb : ∀ e ∈ l, e.1 ≤ b.depth) : Bindings N V where
  depth := b.depth
  stack := Function.update b.stack x l
  falling y := by
    by_cases h : y = x
    · subst h
      rwa [Function.update_self]
    · rw [Function.update_of_ne h]
      exact b.falling y
  bounded y := by
    by_cases h : y = x
    · subst h
      rwa [Function.update_self]
    · rw [Function.update_of_ne h]
      exact b.bounded y

/-- Bind a name at the global level. -/
def bindGlobal (b : Bindings N V) (x : N) (v : V) : Bindings N V :=
  b.withStack x ((b.stack x).filter (fun e => 0 < e.1) ++ [(0, v)])
    (by
      rw [List.pairwise_append]
      refine ⟨(b.falling x).filter _, List.pairwise_singleton _ _, ?_⟩
      intro e he e' he'
      rw [List.mem_singleton.mp he']
      simpa using (List.mem_filter.mp he).2)
    (by
      intro e he
      rcases List.mem_append.mp he with he | he
      · exact b.bounded x e (List.mem_filter.mp he).1
      · rw [List.mem_singleton.mp he]
        exact Nat.zero_le _)

/-- Bind a name in the top frame. -/
def bindLocal (b : Bindings N V) (x : N) (v : V) : Bindings N V :=
  b.withStack x ((b.depth, v) :: (b.stack x).filter fun e => e.1 < b.depth)
    (by
      refine List.pairwise_cons.mpr ⟨?_, (b.falling x).filter _⟩
      intro e he
      simpa using (List.mem_filter.mp he).2)
    (by
      intro e he
      rcases List.mem_cons.mp he with rfl | he
      · exact Nat.le_refl _
      · exact b.bounded x e (List.mem_filter.mp he).1)

/-- Another value at the level of the first binding. -/
def replaceHead (v : V) : List (Nat × V) → List (Nat × V)
  | [] => []
  | (level, _) :: rest => (level, v) :: rest

/-- Replace the value of the innermost binding. -/
def replace (b : Bindings N V) (x : N) (v : V) : Bindings N V :=
  b.withStack x (replaceHead v (b.stack x))
    (by
      have hf := b.falling x
      cases hs : b.stack x with
      | nil => exact List.Pairwise.nil
      | cons e rest =>
        rw [hs] at hf
        exact List.pairwise_cons.mpr (List.pairwise_cons.mp hf))
    (by
      have hb := b.bounded x
      cases hs : b.stack x with
      | nil => exact fun e he => absurd he List.not_mem_nil
      | cons e rest =>
        rw [hs] at hb
        intro e' he'
        rcases List.mem_cons.mp he' with rfl | he'
        · exact hb e List.mem_cons_self
        · exact hb e' (List.mem_cons_of_mem _ he'))

/-- Remove the innermost binding. -/
def uncover (b : Bindings N V) (x : N) : Bindings N V :=
  b.withStack x (b.stack x).tail ((b.falling x).tail)
    fun e he => b.bounded x e (List.mem_of_mem_tail he)

/-! ## Reading -/

section Reading

variable (b : Bindings N V) (x : N) (v : V)

theorem stack_withStack_self {l : List (Nat × V)} {hf hb} :
    (b.withStack x l hf hb).stack x = l := Function.update_self ..

theorem stack_withStack_ne {l : List (Nat × V)} {hf hb} {y : N} (h : y ≠ x) :
    (b.withStack x l hf hb).stack y = b.stack y := Function.update_of_ne h ..

omit [DecidableEq N] in
theorem resolve_eq_none : b.resolve x = none ↔ b.stack x = [] := by
  unfold resolve
  cases b.stack x <;> simp

theorem replace_self {v : V} (h : b.resolve x = some v) : b.replace x v = b := by
  refine Bindings.ext rfl (funext fun y => ?_)
  unfold replace
  by_cases hy : y = x
  · subst hy
    rw [stack_withStack_self]
    unfold resolve at h
    cases hs : b.stack y with
    | nil => rfl
    | cons e rest =>
      rw [hs] at h
      cases h
      rfl
  · rw [stack_withStack_ne _ _ hy]

theorem resolve_replace {v : V} (h : b.resolve x ≠ none) : (b.replace x v).resolve x = some v := by
  unfold resolve replace
  rw [stack_withStack_self]
  cases hs : b.stack x with
  | nil => exact absurd ((resolve_eq_none b x).mpr hs) h
  | cons e rest => rfl

theorem replace_replace (v w : V) : (b.replace x v).replace x w = b.replace x w := by
  refine Bindings.ext rfl (funext fun y => ?_)
  unfold replace
  by_cases hy : y = x
  · subst hy
    rw [stack_withStack_self, stack_withStack_self, stack_withStack_self]
    cases b.stack y <;> rfl
  · rw [stack_withStack_ne _ _ hy, stack_withStack_ne _ _ hy, stack_withStack_ne _ _ hy]

theorem resolve_uncover : (b.uncover x).resolve x = (b.stack x).tail.head?.map Prod.snd := by
  unfold resolve uncover
  rw [stack_withStack_self]

end Reading

/-! ## Levels -/

/-- The level of the innermost binding, or 0. -/
def level (b : Bindings N V) (x : N) : Nat := ((b.stack x).head?.map Prod.fst).getD 0

/-- The binding of a name at a level. -/
def valueAt (b : Bindings N V) (x : N) (l : Nat) : Option V :=
  ((b.stack x).find? fun e => e.1 = l).map Prod.snd

/-- The two differ at one name and one level at most. -/
structure ChangesOnly (b b' : Bindings N V) (x : N) (l : Nat) : Prop where
  depth : b'.depth = b.depth
  others : ∀ y m, y ≠ x ∨ m ≠ l → b'.valueAt y m = b.valueAt y m

section Levels

variable (b : Bindings N V) (x : N) (v : V)

omit [DecidableEq N] in
theorem level_le : b.level x ≤ b.depth := by
  unfold level
  cases hs : b.stack x with
  | nil => exact Nat.zero_le _
  | cons e rest => exact b.bounded x e (by rw [hs]; exact List.mem_cons_self)

omit [DecidableEq N] in
theorem valueAt_of_lt {l : Nat} (h : b.depth < l) : b.valueAt x l = none := by
  unfold valueAt
  rw [Option.map_eq_none_iff, List.find?_eq_none]
  intro e he
  have := b.bounded x e he
  simp only [decide_eq_true_eq]
  omega

omit [DecidableEq N] in
/-- There is one binding at a level. -/
theorem mem_stack_iff {l : Nat} : (l, v) ∈ b.stack x ↔ b.valueAt x l = some v := by
  unfold valueAt
  have hfall := b.falling x
  revert hfall
  induction b.stack x with
  | nil => simp
  | cons e rest ih =>
    intro hfall
    obtain ⟨hhead, hrest⟩ := List.pairwise_cons.mp hfall
    by_cases he : e.1 = l
    · rw [List.find?_cons_of_pos (by simpa using he), List.mem_cons]
      constructor
      · rintro (rfl | hmem)
        · rfl
        · have := hhead _ hmem
          omega
      · intro hv
        exact .inl (Prod.ext he.symm (Option.some.inj hv).symm)
    · have hmem : (l, v) ∈ rest ↔ (rest.find? fun e => e.1 = l).map Prod.snd = some v := ih hrest
      rw [List.find?_cons_of_neg (by simpa using he), ← hmem, List.mem_cons]
      constructor
      · rintro (rfl | hmem)
        · exact absurd rfl he
        · exact hmem
      · exact .inr

omit [DecidableEq N] in
/-- The innermost binding is the one at its level. -/
theorem valueAt_level : b.valueAt x (b.level x) = b.resolve x := by
  unfold valueAt level resolve
  cases hs : b.stack x with
  | nil => rfl
  | cons e rest => simp

omit [DecidableEq N] in
/-- No binding is above the innermost one. -/
theorem valueAt_of_level_lt {l : Nat} (h : b.level x < l) : b.valueAt x l = none := by
  unfold valueAt
  rw [Option.map_eq_none_iff, List.find?_eq_none]
  intro e he
  have hfall := b.falling x
  unfold level at h
  cases hs : b.stack x with
  | nil =>
    rw [hs] at he
    cases he
  | cons e' rest =>
    rw [hs] at h he hfall
    simp only [List.head?_cons, Option.map_some, Option.getD_some] at h
    simp only [decide_eq_true_eq]
    rcases List.mem_cons.mp he with rfl | he
    · omega
    · have := (List.pairwise_cons.mp hfall).1 e he
      omega

omit [DecidableEq N] in
theorem level_le_of_valueAt {l : Nat} {v : V} (h : b.valueAt x l = some v) : l ≤ b.level x := by
  by_contra hlt
  rw [valueAt_of_level_lt b x (Nat.lt_of_not_le hlt)] at h
  cases h

omit [DecidableEq N] in
theorem resolve_eq_some_of_valueAt {l : Nat} {v : V} (hv : b.valueAt x l = some v)
    (habove : ∀ m w, b.valueAt x m = some w → m ≤ l) : b.resolve x = some v := by
  have hle := level_le_of_valueAt b x hv
  cases hr : b.resolve x with
  | none =>
    rw [resolve_eq_none] at hr
    unfold valueAt at hv
    rw [hr] at hv
    cases hv
  | some w =>
    rw [← valueAt_level] at hr
    have heq : b.level x = l := Nat.le_antisymm (habove _ w hr) hle
    rw [← hr, heq, hv]

omit [DecidableEq N] in
theorem resolve_congr {b b' : Bindings N V} {x : N} (h : ∀ l, b'.valueAt x l = b.valueAt x l) :
    b'.resolve x = b.resolve x := by
  have key : ∀ {b b' : Bindings N V}, (∀ l, b'.valueAt x l = b.valueAt x l) →
      ∀ v, b.resolve x = some v → b'.resolve x = some v := by
    intro b b' h v hv
    rw [← valueAt_level] at hv
    refine resolve_eq_some_of_valueAt b' x ((h _).trans hv) fun m w hw => ?_
    exact level_le_of_valueAt b x ((h m).symm.trans hw)
  exact Option.ext fun v => ⟨key (fun l => (h l).symm) v, key h v⟩

theorem valueAt_withStack_ne {l : List (Nat × V)} {hf hb} {y : N} (h : y ≠ x) (m : Nat) :
    (b.withStack x l hf hb).valueAt y m = b.valueAt y m := by
  unfold valueAt
  rw [stack_withStack_ne _ _ h]

/-- A change of the stack of one name that keeps all levels but one. -/
theorem changesOnly_withStack {l : List (Nat × V)} {hf hb} {k : Nat}
    (h : ∀ m, m ≠ k → l.find? (fun e => e.1 = m) = (b.stack x).find? fun e => e.1 = m) :
    ChangesOnly b (b.withStack x l hf hb) x k where
  depth := rfl
  others y m hne := by
    by_cases hy : y = x
    · subst hy
      unfold valueAt
      rw [stack_withStack_self, h m (hne.resolve_left fun hn => hn rfl)]
    · exact valueAt_withStack_ne b x hy m

omit [DecidableEq N] in
theorem find?_filter_level {l : List (Nat × V)} {p : Nat × V → Bool} {m : Nat}
    (h : ∀ e : Nat × V, e.1 = m → p e = true) :
    (l.filter p).find? (fun e => e.1 = m) = l.find? fun e => e.1 = m := by
  rw [List.find?_filter]
  congr 1
  funext e
  by_cases he : e.1 = m
  · simp [he, h e he]
  · simp [he]

theorem changesOnly_bindGlobal : ChangesOnly b (b.bindGlobal x v) x 0 := by
  refine changesOnly_withStack b x fun m hm => ?_
  rw [List.find?_append, find?_filter_level fun e he => by simp; omega]
  have hnone : [((0 : Nat), v)].find? (fun e => e.1 = m) = none := by
    simp [Ne.symm hm]
  rw [hnone, Option.or_none]

theorem changesOnly_bindLocal : ChangesOnly b (b.bindLocal x v) x b.depth := by
  refine changesOnly_withStack b x fun m hm => ?_
  rw [List.find?_cons_of_neg (by simpa using Ne.symm hm)]
  by_cases hlt : m < b.depth
  · exact find?_filter_level fun e he => by simp; omega
  · -- above the depth there is no binding
    have hnone : ∀ l : List (Nat × V), (∀ e ∈ l, e.1 ≤ b.depth) →
        l.find? (fun e => e.1 = m) = none := by
      intro l hl
      rw [List.find?_eq_none]
      intro e he
      have := hl e he
      simp only [decide_eq_true_eq]
      omega
    rw [hnone _ (b.bounded x), hnone _ fun e he => b.bounded x e (List.mem_filter.mp he).1]

theorem changesOnly_replace : ChangesOnly b (b.replace x v) x (b.level x) := by
  refine changesOnly_withStack b x fun m hm => ?_
  unfold level at hm
  cases hs : b.stack x with
  | nil => rfl
  | cons e rest =>
    rw [hs] at hm
    have hne : ¬ e.1 = m := Ne.symm hm
    simp [replaceHead, hne]

theorem changesOnly_uncover : ChangesOnly b (b.uncover x) x (b.level x) := by
  refine changesOnly_withStack b x fun m hm => ?_
  unfold level at hm
  cases hs : b.stack x with
  | nil => rfl
  | cons e rest =>
    rw [hs] at hm
    have hne : ¬ e.1 = m := Ne.symm hm
    simp [hne]

omit [DecidableEq N] in
theorem changesOnly_refl (l : Nat) : ChangesOnly b b x l where
  depth := rfl
  others _ _ _ := rfl

omit [DecidableEq N] in
theorem valueAt_push (m : Nat) : b.push.valueAt x m = b.valueAt x m := rfl

omit [DecidableEq N] in
/-- Leaving a frame keeps the levels below it. -/
theorem valueAt_pop {m : Nat} (h : m ≤ b.depth - 1) : b.pop.valueAt x m = b.valueAt x m := by
  unfold valueAt pop
  rw [find?_filter_level fun e he => by simp; omega]

theorem valueAt_bindGlobal : (b.bindGlobal x v).valueAt x 0 = some v := by
  unfold valueAt bindGlobal
  rw [stack_withStack_self, List.find?_append]
  have hnone : ((b.stack x).filter fun e => 0 < e.1).find? (fun e => e.1 = 0) = none := by
    rw [List.find?_eq_none]
    intro e he
    have := (List.mem_filter.mp he).2
    simp only [decide_eq_true_eq] at this ⊢
    omega
  rw [hnone]
  rfl

theorem valueAt_bindLocal : (b.bindLocal x v).valueAt x b.depth = some v := by
  unfold valueAt bindLocal
  rw [stack_withStack_self]
  simp

theorem valueAt_replace (h : b.resolve x ≠ none) :
    (b.replace x v).valueAt x (b.level x) = some v := by
  unfold valueAt replace level
  rw [stack_withStack_self]
  cases hs : b.stack x with
  | nil => exact absurd ((resolve_eq_none b x).mpr hs) h
  | cons e rest => simp [replaceHead]

end Levels

end Bindings

end Lib
