import Libbash.Lib.Infix

/-!
# Grammars with a rule for each rank of operators

A grammar of binary operators in the way of recursive descent: the rule of a
rank reads operands with the rule of the rank below, and between them the
operators of its own rank, either as long as there are any or once at most. The
trees it builds lean to the left.

* **`rule_reads`** — a sequence that is written down as the tokens say is read as
  its tree, when that tree is grouped as the layers say;
* **`rule_grouped`** — what is read is grouped so, whatever the tokens are.
-/

namespace Lib

/-- A rule of a parser: what it reads and the tokens that are left. -/
abbrev Rule (T V : Type) := List T → Option (V × List T)

/-- How a rule reads the operators of one rank: the look-ahead that decides for
an operator, and the rule for the operator itself. -/
structure Layer (T K : Type) where
  starts : List T → Bool
  read : Rule T K
  /-- `(op^ operand)*` rather than `(op^ operand)?`. -/
  repeats : Bool

namespace Layer

variable {T K V : Type} (y : Layer T K) (build : K → V → V → V) (sub : Rule T V)

/-- An operator and its right operand, next to the left operand `l`. -/
def pass (l : V) : Rule T V := fun ts =>
  match y.read ts with
  | none => none
  | some (op, ts) =>
    match sub ts with
    | none => none
    | some (r, ts) => some (build op l r, ts)

/-- `(op^ operand)*` after the operand `l`, with a bound on the passes. -/
def loop : Nat → V → Rule T V
  | 0, _, _ => none
  | n + 1, l, ts =>
    if y.starts ts then
      match y.pass build sub l ts with
      | none => none
      | some (v, ts) => loop n v ts
    else some (l, ts)

/-- `operand (op^ operand)*`, or `operand (op^ operand)?`. -/
def rule : Rule T V := fun ts =>
  match sub ts with
  | none => none
  | some (l, ts) =>
    if y.repeats then y.loop build sub (ts.length + 1) l ts
    else if y.starts ts then y.pass build sub l ts
    else some (l, ts)

variable {y build sub}

theorem loop_stop {n : Nat} {l : V} {ts : List T} (h : y.starts ts = false) :
    y.loop build sub (n + 1) l ts = some (l, ts) := by
  unfold loop
  rw [h]
  rfl

theorem loop_pass {n : Nat} {l v : V} {ts us : List T} (h : y.starts ts = true)
    (hpass : y.pass build sub l ts = some (v, us)) :
    y.loop build sub (n + 1) l ts = y.loop build sub n v us := by
  conv_lhs => unfold loop
  rw [if_pos h, hpass]

theorem pass_eq {l r : V} {op : K} {ts us vs : List T} (hread : y.read ts = some (op, us))
    (hsub : sub us = some (r, vs)) : y.pass build sub l ts = some (build op l r, vs) := by
  unfold pass
  rw [hread]
  simp only [hsub]

theorem pass_cases {l v : V} {ts vs : List T} (h : y.pass build sub l ts = some (v, vs)) :
    ∃ op r us, y.read ts = some (op, us) ∧ sub us = some (r, vs) ∧ v = build op l r := by
  unfold pass at h
  split at h
  · cases h
  · next op us hread =>
    split at h
    · cases h
    · next r ws hsub =>
      cases h
      exact ⟨op, r, us, hread, hsub, rfl⟩

/-- A bound that is enough can be raised. -/
theorem loop_mono {n m : Nat} {l : V} {ts : List T} {res : V × List T}
    (h : y.loop build sub n l ts = some res) (hnm : n ≤ m) : y.loop build sub m l ts = some res := by
  induction n generalizing l ts m with
  | zero => cases h
  | succ n ih =>
    obtain ⟨m, rfl⟩ : ∃ m', m = m' + 1 := ⟨m - 1, by omega⟩
    unfold loop at h ⊢
    split at h
    · next hstarts =>
      rw [if_pos hstarts]
      split at h
      · cases h
      · next v us hpass =>
        exact ih h (by omega)
    · next hstarts =>
      rw [if_neg hstarts]
      exact h

/-- Before anything that is no operator a rule reads an operand. -/
theorem rule_of_stop {ts us : List T} {v : V} (h : sub ts = some (v, us))
    (hstop : y.starts us = false) : y.rule build sub ts = some (v, us) := by
  unfold rule
  simp only [h, loop_stop hstop, hstop, Bool.false_eq_true, if_false, ite_self]

/-- What the operands satisfy and an operator makes of operands holds of what a
rule reads. To the left of an operator stands an operand, or, where the rule
repeats, anything that it has read. -/
theorem rule_induction {P Q : V → Prop} (hsub : ∀ {ts v us}, sub ts = some (v, us) → Q v)
    (hweaken : ∀ {v}, Q v → P v)
    (hbuild : ∀ {op l r ts us}, y.read ts = some (op, us) → (Q l ∨ y.repeats = true ∧ P l) → Q r →
      P (build op l r))
    {ts us : List T} {v : V} (h : y.rule build sub ts = some (v, us)) : P v := by
  unfold rule at h
  split at h
  · cases h
  · next l ws hfirst =>
    split at h
    · next hrepeats =>
      have hl := hweaken (hsub hfirst)
      clear hfirst
      -- the induction is on the passes, and `P` is what they keep
      generalize ws.length + 1 = n at h
      induction n generalizing l ws with
      | zero => cases h
      | succ n ih =>
        unfold loop at h
        split at h
        · split at h
          · cases h
          · next w xs hpass =>
            obtain ⟨op, r, vs, hread, hr, rfl⟩ := pass_cases hpass
            exact ih _ _ (hbuild hread (.inr ⟨hrepeats, hl⟩) (hsub hr)) h
        · cases h
          exact hl
    · split at h
      · obtain ⟨op, r, vs, hread, hr, rfl⟩ := pass_cases h
        exact hbuild hread (.inl (hsub hfirst)) (hsub hr)
      · cases h
        exact hweaken (hsub hfirst)

end Layer

/-- A grammar: the rule for operands and a layer for every rank, from the
tightest on. -/
structure PrecedenceGrammar (T K V : Type) where
  layer : Nat → Layer T K
  build : K → V → V → V
  operand : Rule T V

namespace PrecedenceGrammar

variable {T K V : Type}

/-- The rule that reads the operators of the ranks below `k`. -/
def rule (G : PrecedenceGrammar T K V) : Nat → Rule T V
  | 0 => G.operand
  | k + 1 => (G.layer k).rule G.build (rule G k)

/-- How sequences are written as the tokens of a grammar. -/
structure Writing (G : PrecedenceGrammar T K V) (Op A : Type) where
  rank : Op → Nat
  kind : Op → K
  value : A → V
  /-- The tokens of an operand and of what follows. -/
  atOperand : A → List (Op × A) → List T
  /-- The tokens after an operand. -/
  atOperator : List (Op × A) → List T
  operand_eq : ∀ a tail, G.operand (atOperand a tail) = some (value a, atOperator tail)
  read_eq : ∀ op a tail,
    (G.layer (rank op)).read (atOperator ((op, a) :: tail)) = some (kind op, atOperand a tail)
  starts_eq : ∀ k op a tail,
    (G.layer k).starts (atOperator ((op, a) :: tail)) = decide (rank op = k)
  starts_nil : ∀ k, (G.layer k).starts (atOperator []) = false
  shorter : ∀ op a tail, (atOperator tail).length < (atOperator ((op, a) :: tail)).length

namespace Writing

open InfixTree

variable {G : PrecedenceGrammar T K V} {Op A : Type} (W : G.Writing Op A)

/-- What the grammar builds for an expression. -/
def valueOf : InfixTree Op A → V := fold W.value fun op l r => G.build (W.kind op) l r

/-- The grouping that the layers make. -/
def grouping : Grouping Op where
  rank := W.rank
  onLeft k := (G.layer k).repeats
  onRight _ := false

variable {W}

/-- No operator of the ranks below `k` comes next. -/
def Outside (W : G.Writing Op A) (k : Nat) (tail : List (Op × A)) : Prop :=
  ∀ p ∈ tail.head?, k ≤ W.rank p.1

theorem starts_of_outside {k : Nat} {tail : List (Op × A)} (h : W.Outside (k + 1) tail) :
    (G.layer k).starts (W.atOperator tail) = false := by
  cases tail with
  | nil => exact W.starts_nil k
  | cons p tail =>
    have : k + 1 ≤ W.rank p.1 := h p rfl
    rw [W.starts_eq]
    exact decide_eq_false (by omega)

theorem length_atOperator_le (xs tail : List (Op × A)) :
    (W.atOperator tail).length ≤ (W.atOperator (xs ++ tail)).length := by
  induction xs with
  | nil => exact Nat.le_refl _
  | cons p xs ih => exact Nat.le_trans ih (Nat.le_of_lt (W.shorter p.1 p.2 (xs ++ tail)))

/-- An operator that binds no operand of its own rank has tighter operands only. -/
theorem below_of_binds {same : Nat → Bool} {op : Op} {t : InfixTree Op A}
    (ht : W.grouping.Grouped t) (h : W.grouping.Binds same op t) (hsame : same (W.rank op) = false) :
    W.grouping.Below (W.rank op) t := by
  refine ht.rank_le fun o ho => ?_
  rcases h o ho with hlt | ⟨-, hyes⟩
  · exact hlt
  · rw [show W.grouping.rank op = W.rank op from rfl, hsame] at hyes
    cases hyes

variable {k : Nat}

/-- The two sides of an operator of rank `k`, for a grammar that reads what is
below `k`: the operator and its right operand are one pass. -/
theorem pass_reads (hsub : ∀ t : InfixTree Op A, W.grouping.Grouped t → W.grouping.Below k t →
      ∀ tail, W.Outside k tail →
        G.rule k (W.atOperand t.first (t.rest ++ tail)) = some (W.valueOf t, W.atOperator tail))
    {op : Op} (hop : W.rank op = k) {r : InfixTree Op A} (hr : W.grouping.Binds (fun _ => false) op r)
    (gr : W.grouping.Grouped r) {tail : List (Op × A)} (htail : W.Outside k tail) (l : V) :
    (G.layer k).pass G.build (G.rule k) l (W.atOperator ((op, r.first) :: (r.rest ++ tail))) =
      some (G.build (W.kind op) l (W.valueOf r), W.atOperator tail) := by
  have hbelow : W.grouping.Below k r := hop ▸ below_of_binds gr hr rfl
  refine Layer.pass_eq ?_ (hsub r gr hbelow tail htail)
  rw [← hop]
  exact W.read_eq op r.first (r.rest ++ tail)

/-- The rule of a rank that repeats, up to its loop: on the tokens of a tree the
loop comes to stand behind it, and has used up no more passes than tokens. -/
theorem loop_reads (hsub : ∀ t : InfixTree Op A, W.grouping.Grouped t → W.grouping.Below k t →
      ∀ tail, W.Outside k tail →
        G.rule k (W.atOperand t.first (t.rest ++ tail)) = some (W.valueOf t, W.atOperator tail))
    {t : InfixTree Op A} (ht : W.grouping.Grouped t) (hbelow : W.grouping.Below (k + 1) t)
    {tail : List (Op × A)} (htail : W.Outside k tail) (n : Nat) :
    ∃ l ts m, G.rule k (W.atOperand t.first (t.rest ++ tail)) = some (l, ts) ∧
      m + (W.atOperator tail).length ≤ n + ts.length ∧
      (G.layer k).loop G.build (G.rule k) m l ts =
        (G.layer k).loop G.build (G.rule k) n (W.valueOf t) (W.atOperator tail) := by
  induction t generalizing tail n with
  | leaf a =>
    have hread := hsub (leaf a) trivial (fun o ho => by cases ho) tail htail
    exact ⟨_, _, n, hread, Nat.le_refl _, rfl⟩
  | node op l r ihl ihr =>
    by_cases hop : W.rank op = k
    · -- the loop reads `l` first and then passes over the operator
      obtain ⟨-, hr, gl, gr⟩ := ht
      obtain ⟨bl, -, -⟩ := Grouping.below_node.mp hbelow
      have houtside : W.Outside k ((op, r.first) :: (r.rest ++ tail)) := by
        intro p hp
        cases hp
        exact Nat.le_of_eq hop.symm
      obtain ⟨v, ts, m, hread, hm, hloop⟩ := ihl gl bl houtside (n + 1)
      have hstarts : (G.layer k).starts (W.atOperator ((op, r.first) :: (r.rest ++ tail))) = true := by
        rw [W.starts_eq]
        exact decide_eq_true hop
      have hpass := pass_reads hsub hop hr gr htail (W.valueOf l)
      refine ⟨v, ts, m, ?_, ?_, hloop.trans (Layer.loop_pass hstarts hpass)⟩
      · simpa [rest, first] using hread
      · have h1 := W.shorter op r.first (r.rest ++ tail)
        have h2 := W.length_atOperator_le r.rest tail
        omega
    · have hlt : W.rank op < k := by
        have : W.rank op < k + 1 := hbelow op (by simp)
        omega
      have hbelow' : W.grouping.Below k (node op l r) :=
        ht.rank_le fun o ho => by cases ho; exact hlt
      exact ⟨_, _, n, hsub _ ht hbelow' tail htail, Nat.le_refl _, rfl⟩

theorem rule_reads (k : Nat) (t : InfixTree Op A) (ht : W.grouping.Grouped t)
    (hbelow : W.grouping.Below k t) (tail : List (Op × A)) (htail : W.Outside k tail) :
    G.rule k (W.atOperand t.first (t.rest ++ tail)) = some (W.valueOf t, W.atOperator tail) := by
  induction k generalizing t tail with
  | zero =>
    cases t with
    | leaf a => exact W.operand_eq a tail
    | node op l r => exact absurd (hbelow op (by simp)) (Nat.not_lt_zero _)
  | succ k ih =>
    have hstop := starts_of_outside htail
    have houtside : W.Outside k tail := fun p hp => Nat.le_of_succ_le (htail p hp)
    by_cases hbelow' : W.grouping.Below k t
    · exact Layer.rule_of_stop (ih t ht hbelow' tail houtside) hstop
    show (G.layer k).rule G.build (G.rule k) _ = _
    unfold Layer.rule
    by_cases hrepeats : (G.layer k).repeats = true
    · obtain ⟨l, ts, m, hread, hm, hloop⟩ := loop_reads ih ht hbelow houtside 1
      rw [Layer.loop_stop hstop] at hloop
      simp only [hread, if_pos hrepeats]
      exact Layer.loop_mono hloop (by omega)
    · cases t with
      | leaf a => exact absurd (fun o ho => by cases ho) hbelow'
      | node op l r =>
        -- the one operator of the rank is the root
        have hop : W.rank op = k := by
          have hle : W.rank op < k + 1 := hbelow op (by simp)
          by_contra hne
          have hlt : W.rank op < k := by omega
          exact hbelow' (ht.rank_le fun o ho => by cases ho; exact hlt)
        obtain ⟨hl, hr, gl, gr⟩ := ht
        have hleft : (G.layer (W.rank op)).repeats = false := by
          rw [hop]
          exact Bool.eq_false_iff.mpr hrepeats
        have houtside' : W.Outside k ((op, r.first) :: (r.rest ++ tail)) := by
          intro p hp
          cases hp
          exact Nat.le_of_eq hop.symm
        have hread := ih l gl (hop ▸ below_of_binds gl hl hleft) _ houtside'
        have hpass := pass_reads ih hop hr gr houtside (W.valueOf l)
        have hstarts := W.starts_eq k op r.first (r.rest ++ tail)
        rw [decide_eq_true hop] at hstarts
        simp only [rest, first, List.append_assoc, List.cons_append, hread, if_neg hrepeats,
          hstarts, if_true, hpass]
        rfl

/-! ## What is read is grouped -/

/-- The values of a grammar tell the expressions apart. -/
structure Faithful (W : G.Writing Op A) (Good : V → Prop) : Prop where
  good_build : ∀ {op l r}, Good l → Good r → Good (G.build op l r)
  build_inj : ∀ {o tl tr op l r}, Good l → Good r →
    G.build (W.kind o) (W.valueOf tl) (W.valueOf tr) = G.build op l r →
      W.kind o = op ∧ W.valueOf tl = l ∧ W.valueOf tr = r
  build_ne_value : ∀ {op l r a}, Good l → Good r → G.build op l r ≠ W.value a
  operand_good : ∀ {ts v us}, G.operand ts = some (v, us) → Good v
  operand_leaf : ∀ {ts v us}, G.operand ts = some (v, us) → ∀ op l r, W.valueOf (node op l r) ≠ v
  read_rank : ∀ {k ts op us}, (G.layer k).read ts = some (W.kind op, us) → W.rank op = k

variable {Good : V → Prop}

/-- A value that only stands for expressions grouped in the ranks below `k`. -/
def Shaped (W : G.Writing Op A) (Good : V → Prop) (k : Nat) (v : V) : Prop :=
  Good v ∧ ∀ t, W.valueOf t = v → W.grouping.Grouped t ∧ W.grouping.Below k t

theorem Shaped.succ {v : V} (h : W.Shaped Good k v) : W.Shaped Good (k + 1) v := by
  refine ⟨h.1, fun t ht => ?_⟩
  obtain ⟨hg, hb⟩ := h.2 t ht
  exact ⟨hg, fun o ho => Nat.lt_succ_of_lt (hb o ho)⟩

/-- One operator of rank `k` between shaped operands. -/
theorem shaped_build (F : W.Faithful Good) {bound : Nat} (hbound : bound ≤ k + 1)
    (hleft : bound = k ∨ (G.layer k).repeats = true) {op : K} {ts us : List T} {l r : V}
    (hread : (G.layer k).read ts = some (op, us)) (hl : W.Shaped Good bound l)
    (hr : W.Shaped Good k r) : W.Shaped Good (k + 1) (G.build op l r) := by
  refine ⟨F.good_build hl.1 hr.1, fun t ht => ?_⟩
  cases t with
  | leaf a => exact absurd ht.symm (F.build_ne_value hl.1 hr.1)
  | node o tl tr =>
    obtain ⟨rfl, hvl, hvr⟩ := F.build_inj hl.1 hr.1 ht
    have hrank : W.rank o = k := F.read_rank hread
    obtain ⟨gl, bl⟩ := hl.2 tl hvl
    obtain ⟨gr, br⟩ := hr.2 tr hvr
    refine ⟨⟨fun x hx => ?_, fun x hx => ?_, gl, gr⟩, ?_⟩
    · have hx' := bl x (mem_ops_of_root? hx)
      rcases Nat.lt_or_ge (W.rank x) k with hlt | hge
      · exact .inl (by rw [show W.grouping.rank o = k from hrank]; exact hlt)
      · have hx'' : W.rank x < bound := hx'
        have hrepeats := hleft.resolve_left (by omega)
        refine .inr ⟨?_, ?_⟩
        · show W.rank x = W.rank o
          omega
        · show (G.layer (W.rank o)).repeats = true
          rw [hrank]
          exact hrepeats
    · exact .inl (by rw [show W.grouping.rank o = k from hrank]; exact br x (mem_ops_of_root? hx))
    · refine Grouping.below_node.mpr ⟨fun x hx => ?_, ?_, fun x hx => ?_⟩
      · exact Nat.lt_of_lt_of_le (bl x hx) hbound
      · show W.rank o < k + 1
        omega
      · exact Nat.lt_succ_of_lt (br x hx)

theorem rule_grouped (F : W.Faithful Good) (k : Nat) {ts us : List T} {v : V}
    (h : G.rule k ts = some (v, us)) : W.Shaped Good k v := by
  induction k generalizing ts us v with
  | zero =>
    refine ⟨F.operand_good h, fun t ht => ?_⟩
    cases t with
    | leaf a => exact ⟨trivial, fun o ho => by cases ho⟩
    | node op l r => exact absurd ht (F.operand_leaf h op l r)
  | succ k ih =>
    refine Layer.rule_induction (fun hsub => ih hsub) Shaped.succ ?_ h
    rintro op l r ts us hread (hl | ⟨hrepeats, hl⟩) hr
    · exact shaped_build F (Nat.le_succ k) (.inl rfl) hread hl hr
    · exact shaped_build F (Nat.le_refl _) (.inr hrepeats) hread hl hr

end Writing

end PrecedenceGrammar

end Lib
