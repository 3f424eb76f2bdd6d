import Libbash.Arith.Nodes
import Libbash.Core.StoreBindings

/-!
# Elements of variables

What an arithmetic operand stands for is an element of a variable: `x` is
`x[0]`. `textAt` reads an element, `setNumber_run` says what a write to it
changes, and `operand_run` that a node which stands for an element is evaluated
by what the element holds.
-/

namespace Libbash.Arith

open Lib Lib.Comp

/-! ## Elements of the store -/

/-- The text of an element; an unset one is empty. -/
def textAt (s : Store) (x : String) (ix : UInt32) : String :=
  match s.resolveVariable x with
  | none => ""
  | some v => v.getValueString ix

/-- The visible variable of the name may be written. -/
def Writable (s : Store) (x : String) : Prop :=
  ∀ v, s.resolveVariable x = some v → v.readonly = false

/-- The two stores differ at most in one element of the visible variable. -/
structure ChangesElement (s t : Store) (x : String) (ix : UInt32) : Prop where
  bindings : s.bindings.ChangesOnly t.bindings x (s.bindings.level x)
  elements : ∀ j, j ≠ ix → textAt t x j = textAt s x j

theorem textAt_eq {s : Store} {x : String} {v : Variable} (h : s.resolveVariable x = some v)
    (ix : UInt32) : textAt s x ix = v.getValueString ix := by
  unfold textAt
  rw [h]

/-- A change through the pointer that `resolve_variable` has returned. -/
theorem resolveVariable_assign {s : Store} {x : String} {v : Variable}
    (h : s.resolveVariable x = some v) (v' : Variable) :
    (s.assign x v').resolveVariable x = some v' := by
  have hname := isEmpty_of_resolve h
  rw [resolveVariable_eq s hname] at h
  have hsome : s.bindings.resolve x ≠ none := by
    rw [h]
    exact Option.some_ne_none v
  rw [resolveVariable_eq _ hname, bindings_assign s x v' hsome, Bindings.resolve_replace _ _ hsome]

/-- `set_value` on a variable that exists writes through its pointer. -/
theorem setValue_run {s : Store} {x : String} {v : Variable} (h : s.resolveVariable x = some v)
    (new : Value) (ix : UInt32) :
    Libbash.setValue x new ix s =
      if v.readonly then
        some (.error (.error .readonly (v.name ++ " is readonly variable")), s.assign x v)
      else some (.ok (), s.assign x { v with value := v.value.insert ix new }) := by
  simp only [Libbash.setValue, reads_bind_apply, id_eq, h, throughPointer, Variable.setValue]
  by_cases hro : v.readonly = true
  · simp only [if_pos hro]
    rfl
  · simp only [if_neg hro]
    rfl

/-- `set_value` on a name without a variable defines one. -/
theorem setValue_define {s : Store} {x : String} (h : s.resolveVariable x = none) (new : Value)
    (ix : UInt32) :
    Libbash.setValue x new ix s = some (.ok (),
      { s with members := s.members.insert x (.new x (.scalar new ix) false) }) := by
  simp only [Libbash.setValue, reads_bind_apply, id_eq, h]
  rfl

/-- A number that is written to an element of a variable. -/
theorem setNumber_run {s : Store} {x : String} {v : Variable} (h : s.resolveVariable x = some v)
    (hwritable : v.readonly = false) (m : Int64) (ix : UInt32) :
    ∃ t, setNumber x m ix s = some (.ok m, t) ∧
      t.resolveVariable x = some { v with value := v.value.insert ix (.num m) } ∧
      ChangesElement s t x ix := by
  have hresolve := resolveVariable_assign h { v with value := v.value.insert ix (.num m) }
  have hwrite := setValue_run h (.num m) ix
  rw [if_neg (by rw [hwritable]; exact Bool.false_ne_true)] at hwrite
  refine ⟨_, ?_, hresolve, ?_, fun j hj => ?_⟩
  · unfold setNumber
    rw [bind_of_ok hwrite]
    rfl
  · have hsome : s.bindings.resolve x ≠ none := by
      rw [← resolveVariable_eq s (isEmpty_of_resolve h), h]
      exact Option.some_ne_none v
    rw [bindings_assign s x _ hsome]
    exact Bindings.changesOnly_replace _ _ _
  · rw [textAt_eq hresolve, textAt_eq h, Variable.getValueString, Variable.getValueString]
    simp only [Std.ExtTreeMap.getElem?_insert]
    rw [if_neg (by simpa using Ne.symm hj)]

/-- What an element holds. -/
def elementAt (s : Store) (x : String) (ix : UInt32) : Option Value :=
  (s.resolveVariable x).bind fun v => v.value[ix]?

theorem resolveVariable_define {s : Store} {x : String} (hx : x.isEmpty = false)
    (h : s.resolveVariable x = none) (v : Variable) :
    ({ s with members := s.members.insert x v } : Store).resolveVariable x = some v := by
  unfold Store.resolveVariable at h ⊢
  rw [hx, if_neg Bool.false_ne_true] at h ⊢
  cases hlocal : resolveLocal x s.localMembers with
  | none => exact Std.ExtTreeMap.getElem?_insert_self
  | some w =>
    rw [hlocal] at h
    cases h

/-- A write that succeeds leaves the number in the element. -/
theorem setNumber_element {s t : Store} {x : String} {ix : UInt32} {v w : Int64}
    (hx : x.isEmpty = false) (h : setNumber x v ix s = some (.ok w, t)) :
    w = v ∧ elementAt t x ix = some (.num v) := by
  unfold setNumber at h
  cases hs : s.resolveVariable x with
  | some old =>
    by_cases hro : old.readonly = true
    · have hwrite := setValue_run hs (.num v) ix
      rw [if_pos hro] at hwrite
      rw [bind_of_error hwrite] at h
      cases h
    · have hwrite := setValue_run hs (.num v) ix
      rw [if_neg hro] at hwrite
      rw [bind_of_ok hwrite] at h
      cases h
      refine ⟨rfl, ?_⟩
      rw [elementAt, resolveVariable_assign hs, Option.bind_some]
      exact Std.ExtTreeMap.getElem?_insert_self
  | none =>
    rw [bind_of_ok (setValue_define hs (.num v) ix)] at h
    cases h
    refine ⟨rfl, ?_⟩
    rw [elementAt, resolveVariable_define hx hs, Option.bind_some]
    exact Std.ExtTreeMap.getElem?_insert_self

/-! ## Reading an element -/

section Reading

variable {env : ArithEnv} {s : Store} {x : String} {ix : UInt32}

theorem resolve_run {α : Type} (get : Variable → UInt32 → α) (default : α) {v : Variable}
    (h : s.resolveVariable x = some v) (hset : v.isUnset ix = false) :
    resolve env get default x ix s = some (.ok (get v ix), s) := by
  unfold resolve
  simp only [reads_bind_apply, id_eq, h, hset, Bool.and_false, Bool.false_eq_true, if_false]
  rfl

/-- Reading an element fails at an unbound one, and changes nothing. -/
theorem resolve_cases {α : Type} (env : ArithEnv) (get : Variable → UInt32 → α) (default : α)
    (x : String) (ix : UInt32) (s : Store) :
    (∃ what, resolve env get default x ix s = some (.error (.error .unsupported what), s)) ∨
      resolve env get default x ix s = some (.ok (match s.resolveVariable x with
        | none => default
        | some v => get v ix), s) := by
  unfold resolve
  simp only [reads_bind_apply, id_eq]
  cases s.resolveVariable x with
  | none =>
    dsimp only
    split
    · exact .inl ⟨_, rfl⟩
    · exact .inr rfl
  | some v =>
    dsimp only
    split
    · exact .inl ⟨_, rfl⟩
    · exact .inr rfl

/-- Reading the text of an element fails, or returns it. -/
theorem resolveString_cases (env : ArithEnv) (s : Store) (x : String) (ix : UInt32) :
    (∃ e, resolveString env x ix s = some (.error e, s)) ∨
      resolveString env x ix s = some (.ok (textAt s x ix), s) := by
  rcases resolve_cases env Variable.getValueString "" x ix s with ⟨what, herr⟩ | hok
  · exact .inl ⟨_, herr⟩
  · exact .inr hok

/-- An element that holds a value is read as it. -/
theorem resolve_element {α : Type} (env : ArithEnv) (get : Variable → UInt32 → α) (default : α)
    {value : Value} (h : elementAt s x ix = some value) :
    ∃ v, s.resolveVariable x = some v ∧ v.value[ix]? = some value ∧
      resolve env get default x ix s = some (.ok (get v ix), s) := by
  obtain ⟨v, hv, hvalue⟩ := Option.bind_eq_some_iff.mp h
  exact ⟨v, hv, hvalue, resolve_run get default hv (by simp [Variable.isUnset, hvalue])⟩

theorem resolveString_element {value : Value} (h : elementAt s x ix = some value) :
    resolveString env x ix s = some (.ok value.toStr, s) := by
  obtain ⟨v, -, hvalue, hrun⟩ := resolve_element env Variable.getValueString "" h
  rw [resolveString, hrun, Variable.getValueString, hvalue]

theorem resolveLong_element {value : Value} (h : elementAt s x ix = some value) :
    resolveLong env x ix s = some (.ok value.toLong, s) := by
  obtain ⟨v, -, hvalue, hrun⟩ := resolve_element env Variable.getValueLong 0 h
  rw [resolveLong, hrun, Variable.getValueLong, hvalue]

/-- A text that is not empty stands in an element that is set. -/
theorem exists_value (h : textAt s x ix ≠ "") :
    ∃ v value, s.resolveVariable x = some v ∧ v.value[ix]? = some value ∧
      value.toStr = textAt s x ix := by
  cases hv : s.resolveVariable x with
  | none =>
    unfold textAt at h
    rw [hv] at h
    exact absurd rfl h
  | some v =>
    rw [textAt_eq hv, Variable.getValueString] at h ⊢
    cases hvalue : v.value[ix]? with
    | none =>
      rw [hvalue] at h
      exact absurd rfl h
    | some value => exact ⟨v, value, rfl, hvalue, rfl⟩

end Reading

/-! ## Operands -/

/-- From `s₀` on, the operand `p` stands for the element `x[ix]`, and leaves the
store as `s`. -/
def Names (env : ArithEnv) (d : Nat) (p : AstNode) (x : String) (ix : UInt32) (s₀ s : Store) :
    Prop :=
  ∀ toks i rest, OnTree toks i (p.stream ++ .up :: rest) →
    primary env toks (arithmetics env d toks) ⟨i, s₀⟩ =
      some (.ok (x, ix), ⟨i + p.stream.length, s⟩)

theorem names_varNode (env : ArithEnv) (d : Nat) (x : String) (s : Store) :
    Names env d (varNode x) x 0 s s :=
  fun _ _ _ h => primary_var_step s h

/-- `Names`, for an operand that may have others after it. -/
def Operand (env : ArithEnv) (d : Nat) (p : AstNode) (x : String) (ix : UInt32) (s₀ s : Store) :
    Prop :=
  ∀ toks i rest, OnTree toks i (p.stream ++ rest) →
    primary env toks (arithmetics env d toks) ⟨i, s₀⟩ =
      some (.ok (x, ix), ⟨i + p.stream.length, s⟩)

/-- `Names`, for the target of an assignment: its right side stands after it. -/
def Target (env : ArithEnv) (d : Nat) (p : AstNode) (x : String) (ix : UInt32) (s₀ s : Store) :
    Prop :=
  ∀ toks i rest, OnTree toks i (p.stream ++ rest) → NoDown rest →
    primary env toks (arithmetics env d toks) ⟨i, s₀⟩ =
      some (.ok (x, ix), ⟨i + p.stream.length, s⟩)

/-- An operand that is an element of an array. -/
def elementNode (a : String) (e : AstNode) : AstNode := astNode .varRef [.node (nameToken a) [e]]

section Operand

variable {env : ArithEnv} {d : Nat} {toks : NodeStream} {arith : Walk Store Int64}
variable {i : Nat} {rest : NodeStream} {s₀ s : Store} {p : AstNode} {x : String} {ix : UInt32}

theorem Operand.names (h : Operand env d p x ix s₀ s) : Names env d p x ix s₀ s :=
  fun toks i rest hon => h toks i (.up :: rest) hon

theorem Operand.target (h : Operand env d p x ix s₀ s) : Target env d p x ix s₀ s :=
  fun toks i rest hon _ => h toks i rest hon

theorem target_nameNode (env : ArithEnv) (d : Nat) (x : String) (s : Store) :
    Target env d (nameNode x) x 0 s s := by
  intro toks i rest h hrest
  rw [stream_leaf] at h ⊢
  exact primary_name_step s h hrest

theorem operand_varNode (env : ArithEnv) (d : Nat) (x : String) (s : Store) :
    Operand env d (varNode x) x 0 s s :=
  fun _ _ _ h => primary_var_step s h

/-- The index of an element is an expression. -/
theorem operand_elementNode {a : String} {e : AstNode} {n : Int64}
    (he : ∀ toks i rest, OnTree toks i (e.stream ++ .up :: rest) →
      arithmetics env d toks ⟨i, s₀⟩ = some (.ok n, ⟨i + e.stream.length, s⟩))
    (hn : 0 ≤ n.toInt32) :
    Operand env d (elementNode a e) a n.toInt32.toUInt32 s₀ s := by
  intro toks i rest h
  -- The rule goes through the reference, the name and the index, and closes both trees.
  have hstream : (elementNode a e).stream ++ rest =
      .tok ⟨.varRef, ""⟩ :: .down :: .tok (nameToken a) :: .down ::
        (e.stream ++ .up :: .up :: rest) := by
    unfold elementNode
    rw [stream_node (List.cons_ne_nil _ _), forestStream_singleton,
      stream_node (List.cons_ne_nil _ _), forestStream_singleton]
    simp
  have hlen : (elementNode a e).stream.length = e.stream.length + 6 := by
    unfold elementNode
    rw [length_stream_node (List.cons_ne_nil _ _), forestStream_singleton,
      length_stream_node (List.cons_ne_nil _ _), forestStream_singleton]
  rw [hstream] at h
  have hinside : (nameToken a).type ≠ .varRef := by
    rcases nameToken_isName a with ha | ha | ha <;> simp [ha]
  have hindex := he toks (i + 4) _ h.tail.tail.tail.tail
  have hset (j : Nat) : action (setIndex a n) ⟨j, s⟩ = some (.ok n.toInt32.toUInt32, ⟨j, s⟩) := by
    unfold action setIndex
    rw [if_neg (by simpa using hn)]
    rfl
  have hname : name toks (arithmetics env d toks) ⟨i + 2, s₀⟩ =
      some (.ok (a, n.toInt32.toUInt32), ⟨i + 4 + e.stream.length + 1, s⟩) := by
    unfold name
    rw [bind_of_ok (la_step s₀ h.tail.tail 1), List.getElem?_cons_succ, List.getElem?_cons_zero,
      if_pos rfl, bind_of_ok (nameBase_step s₀ h.tail.tail),
      bind_of_ok (matchDown_step s₀ h.tail.tail.tail), bind_of_ok hindex,
      bind_of_ok (matchUp_step s h.tail.tail.tail.tail.advance), bind_of_ok (hset _)]
    rfl
  unfold primary
  rw [bind_of_ok (laType_step s₀ h 0)]
  simp only [List.getElem?_cons_zero]
  rw [bind_of_ok (laType_step s₀ h 2)]
  simp only [List.getElem?_cons_succ, List.getElem?_cons_zero]
  rw [bind_of_ok (matchToken_step s₀ h), bind_of_ok (matchDown_step s₀ h.tail),
    if_neg (by simpa using hinside), bind_of_ok hname,
    bind_of_ok (matchUp_step s h.tail.tail.tail.tail.advance.tail), hlen]
  have hend : i + 4 + e.stream.length + 2 = i + (e.stream.length + 6) := by omega
  rw [← hend]
  rfl

/-! ### Evaluating an operand -/

theorem matchDown_ok {c c' : Cursor Store} {u : Unit}
    (h : matchDown toks c = some (.ok u, c')) : c' = ⟨c.index + 1, c.inner⟩ := by
  unfold matchDown at h
  simp only [la, reads_bind_apply] at h
  split at h
  · cases h
    rfl
  · cases h

/-- The types that `name_base` takes. -/
def IsName (ty : TokenType) : Prop := ty = .name ∨ ty = .letter ∨ ty = .underscore

theorem nameBase_token {c c' : Cursor Store} {b : String}
    (h : nameBase toks c = some (.ok b, c')) :
    ∃ t, toks[c.index]? = some (.tok t) ∧ IsName t.type := by
  unfold nameBase at h
  rw [bind_of_ok (show la toks 1 c = some (.ok toks[c.index]?, c) from rfl)] at h
  rcases hget : toks[c.index]? with _ | t | _ | _
  · rw [hget] at h
    cases h
  · rw [hget] at h
    dsimp only at h
    by_cases hname : t.type = .name ∨ t.type = .letter ∨ t.type = .underscore
    · exact ⟨t, rfl, hname⟩
    · rw [if_neg hname] at h
      cases h
  all_goals
    rw [hget] at h
    cases h

theorem name_token {c c' : Cursor Store} {q : String × UInt32}
    (h : name toks arith c = some (.ok q, c')) :
    ∃ t, toks[c.index]? = some (.tok t) ∧ IsName t.type := by
  unfold name at h
  simp only [la, reads_bind_apply] at h
  split at h
  all_goals
    rcases bind_cases h with ⟨b, c₁, hbase, -⟩ | ⟨e, -, he⟩
    · exact nameBase_token hbase
    · cases he

/-- A node that is read as a variable is no other alternative of `arithmetic`. -/
theorem alternative_of_primary (evalArith : String → Comp Exn Store Int64) {q : String × UInt32}
    {c' : Cursor Store} {t : Token} (h : OnTree toks i (.tok t :: rest))
    (hp : primary env toks arith ⟨i, s₀⟩ = some (.ok q, c')) :
    t.type ≠ .arithmetic ∧
      alternative env toks arith evalArith (some t.type) ⟨i, s₀⟩ =
        primaryOperand env toks arith evalArith ⟨i, s₀⟩ := by
  unfold primary at hp
  rw [bind_of_ok (laType_step s₀ h 0)] at hp
  simp only [List.getElem?_cons_zero] at hp
  by_cases hvar : t.type = .varRef
  · refine ⟨by rw [hvar]; decide, ?_⟩
    obtain ⟨inside, hla, hinside⟩ : ∃ inside,
        laType toks 3 ⟨i, s₀⟩ = some (.ok inside, (⟨i, s₀⟩ : Cursor Store)) ∧
          ∀ u, toks[i + 2]? = some (.tok u) → inside = some u.type := by
      refine ⟨_, rfl, fun u hu => ?_⟩
      have hindex : toks[i + 3 - 1]? = some (.tok u) := hu
      dsimp only
      rw [hindex]
    rw [hvar] at hp ⊢
    dsimp only at hp
    show (laType toks 3 >>= _) _ = _
    rw [bind_of_ok hla] at hp ⊢
    -- Both decide by the type behind the symbol that opens the tree.
    by_cases hnested : inside = some .varRef
    · rw [hnested]
      rfl
    · have hmatch := matchToken_step s₀ h
      rw [hvar] at hmatch
      rw [bind_of_ok hmatch, if_neg hnested] at hp
      rcases bind_cases hp with ⟨u, c₁, hdown, hrest⟩ | ⟨e, -, he⟩
      · obtain rfl := matchDown_ok hdown
        rcases bind_cases hrest with ⟨q', c₂, hname, -⟩ | ⟨e, -, he⟩
        · obtain ⟨v, hv, hisName⟩ := name_token hname
          rw [hinside v hv]
          rcases hisName with hty | hty | hty <;> rw [hty] <;> rfl
        · cases he
      · cases he
  · have hname : name toks arith ⟨i, s₀⟩ = some (.ok q, c') := by
      rw [← hp]
      apply congrFun
      split
      · next heq => exact absurd (Option.some.inj heq) hvar
      · rfl
    obtain ⟨v, hv, hisName⟩ := name_token hname
    have htok : v = t := by
      have hget := h.getElem? 0
      rw [Nat.add_zero, hv] at hget
      simpa using hget
    rw [htok] at hisName
    rcases hisName with hty | hty | hty <;> rw [hty] <;> exact ⟨by decide, rfl⟩

/-- An operand that stands for an element has the value of its text. -/
theorem operand_run (hp : Operand env d p x ix s₀ s) (h : OnTree toks i (p.stream ++ rest)) :
    arithmetics env (d + 1) toks ⟨i, s₀⟩ =
      action (primaryValue env (evalArithmetic env d) x ix) ⟨i + p.stream.length, s⟩ := by
  have hread := hp toks i rest h
  obtain ⟨htype, halt⟩ := alternative_of_primary (evalArithmetic env d) h.root hread
  rw [arithmetics_eq_alternative s₀ h htype, halt]
  unfold primaryOperand
  rw [bind_of_ok hread]

/-! ## Expressions -/

/-- What the tree `e` does, for every bound on the nesting of rules: as the last
child of a node it acts as `m`, wherever it stands. -/
def ActsAs (env : ArithEnv) (e : AstNode) (m : Nat → Comp Exn Store Int64) : Prop :=
  ∀ d toks i rest, OnTree toks i (e.stream ++ .up :: rest) → ∀ s,
    Lands (i + e.stream.length) (arithmetics env d toks ⟨i, s⟩) (m d s)

/-- What a node does, from what its rule does. -/
def deeper (m : Nat → Comp Exn Store Int64) : Nat → Comp Exn Store Int64
  | 0 => diverge
  | d + 1 => m d

theorem actsAs_deeper {e : AstNode} {m : Nat → Comp Exn Store Int64}
    (h : ∀ d toks i rest, OnTree toks i (e.stream ++ .up :: rest) → ∀ s,
      Lands (i + e.stream.length) (arithmetics env (d + 1) toks ⟨i, s⟩) (m d s)) :
    ActsAs env e (deeper m) := by
  intro d toks i rest hon s
  cases d with
  | zero => exact ⟨rfl, fun _ _ h => nomatch h⟩
  | succ d => exact h d toks i rest hon s

theorem actsAs_unary {e : AstNode} {m : Nat → Comp Exn Store Int64} (op : UnaryOp)
    (he : ActsAs env e m) :
    ActsAs env (astNode op.type [e]) (deeper fun d => m d >>= fun l => pure (op.act l)) := by
  refine actsAs_deeper fun d toks i rest h s => ?_
  have htype : (astNode op.type [e]).label.type ≠ .arithmetic := by
    cases op <;> simp [NodeTree.label, UnaryOp.type]
  have hkids := h.children (List.cons_ne_nil _ _)
  rw [forestStream_singleton] at hkids
  rw [arithmetics_eq_alternative s h htype,
    show (astNode op.type [e]).label.type = op.type from rfl, alternative_unary,
    length_stream_node (List.cons_ne_nil _ _), forestStream_singleton]
  rw [stream_node (List.cons_ne_nil _ _)] at h
  unfold unaryNode
  rw [bind_of_ok (matchToken_step s h), bind_of_ok (matchDown_step s h.tail)]
  refine lands_bind (he d toks (i + 2) _ hkids s) fun l t _ => ?_
  rw [bind_of_ok (matchUp_step t hkids.advance)]
  have hend : i + 2 + e.stream.length + 1 = i + (e.stream.length + 3) := by omega
  rw [hend]
  exact lands_ret _ t

/-- An assignment to `x[ix]` acts on what its right side returns. -/
theorem assignment_lands (act : String → UInt32 → Int64 → Comp Exn Store Int64)
    {m : Comp Exn Store Int64} {q e : AstNode} {ty : TokenType}
    (hq : Target env d q x ix s₀ s) (h : OnTree toks i ((astNode ty [q, e]).stream ++ rest))
    (he : ∀ j, OnTree toks j (e.stream ++ .up :: rest) →
      Lands (j + e.stream.length) (arithmetics env d toks ⟨j, s⟩) (m s)) :
    Lands (i + (astNode ty [q, e]).stream.length)
      ((do
        let _ ← matchToken toks ty
        matchDown toks
        let p ← primary env toks (arithmetics env d toks)
        let l ← arithmetics env d toks
        matchUp toks
        action (act p.1 p.2 l)) ⟨i, s₀⟩)
      ((m >>= fun l => act x ix l) s) := by
  have hkids := h.children (List.cons_ne_nil _ _)
  rw [stream_node (List.cons_ne_nil _ _)] at h
  rw [forestStream_cons, forestStream_singleton, List.append_assoc] at hkids
  rw [length_stream_node (List.cons_ne_nil _ _), forestStream_cons, forestStream_singleton]
  rw [bind_of_ok (matchToken_step s₀ h), bind_of_ok (matchDown_step s₀ h.tail),
    bind_of_ok (hq toks (i + 2) _ hkids (noDown_stream _ _))]
  refine lands_bind (he _ hkids.advance) fun l t _ => ?_
  rw [bind_of_ok (matchUp_step t hkids.advance.advance)]
  have hend : i + 2 + q.stream.length + e.stream.length + 1 =
      i + ((q.stream ++ e.stream).length + 3) := by
    rw [List.length_append]
    omega
  rw [hend]
  exact lands_action _ t

/-- A binary operator whose left operand is an element. -/
theorem binary_lands {m : Comp Exn Store Int64} {e : AstNode} (op : BinaryOp)
    (hp : Operand env d p x ix s₀ s) (h : OnTree toks i ((astNode op.type [p, e]).stream ++ rest))
    (he : ∀ j t, OnTree toks j (e.stream ++ .up :: rest) →
      Lands (j + e.stream.length) (arithmetics env (d + 1) toks ⟨j, t⟩) (m t)) :
    Lands (i + (astNode op.type [p, e]).stream.length) (arithmetics env (d + 2) toks ⟨i, s₀⟩)
      ((primaryValue env (evalArithmetic env d) x ix >>= fun old =>
        m >>= fun l => op.act old l) s) := by
  have htype : (astNode op.type [p, e]).label.type ≠ .arithmetic := by
    cases op <;> simp [NodeTree.label, BinaryOp.type]
  have hkids := h.children (List.cons_ne_nil _ _)
  rw [arithmetics_eq_alternative s₀ h htype,
    show (astNode op.type [p, e]).label.type = op.type from rfl, alternative_binary]
  rw [stream_node (List.cons_ne_nil _ _)] at h
  rw [forestStream_cons, forestStream_singleton, List.append_assoc] at hkids
  rw [length_stream_node (List.cons_ne_nil _ _), forestStream_cons, forestStream_singleton]
  unfold binaryNode
  rw [bind_of_ok (matchToken_step s₀ h), bind_of_ok (matchDown_step s₀ h.tail)]
  have hleft : Lands (i + 2 + p.stream.length) (arithmetics env (d + 1) toks ⟨i + 2, s₀⟩)
      (primaryValue env (evalArithmetic env d) x ix s) := by
    rw [operand_run hp hkids]
    exact lands_action _ s
  refine lands_bind hleft fun old t _ => lands_bind (he _ t hkids.advance) fun l u _ => ?_
  rw [bind_of_ok (matchUp_step u hkids.advance.advance)]
  have hend : i + 2 + p.stream.length + e.stream.length + 1 =
      i + ((p.stream ++ e.stream).length + 3) := by
    rw [List.length_append]
    omega
  rw [hend]
  exact lands_action _ u

end Operand

end Libbash.Arith
