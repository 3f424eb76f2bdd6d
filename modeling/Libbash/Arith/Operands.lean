import Libbash.Arith.Evaluator

/-!
# Operand boundaries in arithmetic

The parser turns a parenthesised operand into one `ARITHMETIC` sibling for each
part between its commas, with no node around them, and the rule `arithmetics`
walks as many `ARITHMETIC` siblings as there are. `Expr.OperandsConsumed` says
that every operand rule the walk runs stops at the end of its own operand and
returns the value bash gives to it; `Expr.Walkable` says for which expressions
that is so (`operandsConsumed_iff`): no two neighbouring operands may both be
parenthesised, and an operand that is skipped has to be one node.
-/

namespace Libbash.Arith

open Lib Lib.Comp

/-! ## Expressions -/

mutual

/-- Expressions over integer literals, wider than the grammar: which operand
needs parentheses by its precedence is left open. -/
inductive Expr where
  | num (l : Literal)
  | unary (op : UnaryOp) (e : Expr)
  | binary (op : BinaryOp) (l r : Expr)
  | logic (op : LogicOp) (l r : Expr)
  | cond (c t f : Expr)
  | paren (ps : Parts)

/-- What stands between parentheses, separated by commas. -/
inductive Parts where
  | last (e : Expr)
  | more (e : Expr) (ps : Parts)

end

mutual

/-- The trees that the parser builds, siblings of each other. -/
def Expr.trees : Expr → List AstNode
  | .num l => [l.node]
  | .unary op e => [astNode op.type e.trees]
  | .binary op l r => [astNode op.type (l.trees ++ r.trees)]
  | .logic op l r => [astNode op.type (l.trees ++ r.trees)]
  | .cond c t f => [astNode .arithmeticCondition (c.trees ++ (t.trees ++ f.trees))]
  | .paren ps => ps.trees

def Parts.trees : Parts → List AstNode
  | .last e => [astNode .arithmetic e.trees]
  | .more e ps => astNode .arithmetic e.trees :: ps.trees

end

mutual

/-- The value that bash gives to an expression, when it gives one. -/
def Expr.value : Expr → Option Int64
  | .num l => l.bashValue
  | .unary op e => e.value.map op.apply
  | .binary op l r => l.value.bind fun lv => r.value.bind fun rv => op.apply lv rv
  | .logic op l r =>
    l.value.bind fun lv =>
      if op.short lv then some op.shortValue else r.value.map fun rv => ofBool (rv != 0)
  | .cond c t f => c.value.bind fun cv => if cv ≠ 0 then t.value else f.value
  | .paren ps => ps.value

def Parts.value : Parts → Option Int64
  | .last e => e.value
  | .more e ps => e.value.bind fun _ => ps.value

end

mutual

/-- How deep the rules nest in a walk of the trees. -/
def Expr.nesting : Expr → Nat
  | .num _ => 1
  | .unary _ e => e.nesting + 1
  | .binary _ l r => max l.nesting r.nesting + 1
  | .logic _ l r => max l.nesting r.nesting + 1
  | .cond c t f => max c.nesting (max t.nesting f.nesting) + 1
  | .paren ps => ps.nesting

def Parts.nesting : Parts → Nat
  | .last e => e.nesting + 1
  | .more e ps => max (e.nesting + 1) ps.nesting

end

theorem Parts.nesting_pos : ∀ ps : Parts, 0 < ps.nesting
  | .last e => Nat.succ_pos e.nesting
  | .more _ ps => Nat.lt_of_lt_of_le ps.nesting_pos (Nat.le_max_right _ _)

theorem Expr.nesting_pos (e : Expr) : 0 < e.nesting := by
  cases e with
  | num => simp [Expr.nesting]
  | unary => simp [Expr.nesting]
  | binary => simp [Expr.nesting]
  | logic => simp [Expr.nesting]
  | cond => simp [Expr.nesting]
  | paren ps => exact ps.nesting_pos

def Expr.isParen : Expr → Bool
  | .paren _ => true
  | _ => false

/-- The value of the left operand settles the result. -/
def Expr.settles (op : LogicOp) (l : Expr) : Bool := (l.value.map op.short).getD false

/-! ## The property and the condition -/

/-- The operand rule, run at `i` on the operand, stops at its end and returns
its value. -/
def Expr.Consumed (env : ArithEnv) (toks : NodeStream) (i : Nat) (e : Expr) : Prop :=
  ∃ v, e.value = some v ∧ ∀ d, e.nesting ≤ d → ∀ s,
    arithmetics env d toks ⟨i, s⟩ = some (.ok v, ⟨i + (forestStream e.trees).length, s⟩)

mutual

/-- Every operand rule of a walk that starts at `i` consumes its own operand.
A right operand that the left value makes superfluous is not walked; of the
conditional operator both branches are. -/
def Expr.OperandsConsumed (env : ArithEnv) (toks : NodeStream) : Nat → Expr → Prop
  | i, .num l => (Expr.num l).Consumed env toks i
  | i, .unary op e => (Expr.unary op e).Consumed env toks i ∧ e.OperandsConsumed env toks (i + 2)
  | i, .binary op l r =>
    (Expr.binary op l r).Consumed env toks i ∧ l.OperandsConsumed env toks (i + 2) ∧
      r.OperandsConsumed env toks (i + 2 + (forestStream l.trees).length)
  | i, .logic op l r =>
    (Expr.logic op l r).Consumed env toks i ∧ l.OperandsConsumed env toks (i + 2) ∧
      (l.settles op = false →
        r.OperandsConsumed env toks (i + 2 + (forestStream l.trees).length))
  | i, .cond c t f =>
    (Expr.cond c t f).Consumed env toks i ∧ c.OperandsConsumed env toks (i + 2) ∧
      t.OperandsConsumed env toks (i + 2 + (forestStream c.trees).length) ∧
      f.OperandsConsumed env toks
        (i + 2 + (forestStream c.trees).length + (forestStream t.trees).length)
  | i, .paren ps => (Expr.paren ps).Consumed env toks i ∧ ps.OperandsConsumed env toks i

def Parts.OperandsConsumed (env : ArithEnv) (toks : NodeStream) : Nat → Parts → Prop
  | i, .last e => e.OperandsConsumed env toks (i + 2)
  | i, .more e ps =>
    e.OperandsConsumed env toks (i + 2) ∧
      ps.OperandsConsumed env toks (i + (astNode .arithmetic e.trees).stream.length)

end

mutual

/-- The expressions whose operands are walked as they are meant: every literal
that is walked reads as bash reads it, no two neighbouring operands are both
parenthesised, a skipped operand is a single node, and the branch that the
conditional operator does not take has a value of its own. -/
def Expr.Walkable (env : ArithEnv) : Expr → Prop
  | .num l => l.bashValue = some (parseInteger env l.token)
  | .unary _ e => e.Walkable env
  | .binary _ l r => l.Walkable env ∧ r.Walkable env ∧ ¬ (l.isParen ∧ r.isParen)
  | .logic op l r =>
    l.Walkable env ∧ ¬ (l.isParen ∧ r.isParen) ∧
      (l.settles op = false → r.Walkable env) ∧
      (l.settles op = true → r.trees.length = 1)
  | .cond c t f =>
    (c.Walkable env ∧ t.Walkable env ∧ f.Walkable env) ∧
      ¬ (c.isParen ∧ t.isParen) ∧ ¬ (t.isParen ∧ f.isParen) ∧
      t.value.isSome ∧ f.value.isSome
  | .paren ps => ps.Walkable env

def Parts.Walkable (env : ArithEnv) : Parts → Prop
  | .last e => e.Walkable env
  | .more e ps => e.Walkable env ∧ ps.Walkable env

end

variable {env : ArithEnv} {toks : NodeStream} {i d : Nat} {rest : NodeStream}

/-! ## The first node of an operand -/

theorem Parts.trees_cons (ps : Parts) :
    ∃ cs ts, ps.trees = astNode .arithmetic cs :: ts := by
  cases ps with
  | last e => exact ⟨e.trees, [], rfl⟩
  | more e ps => exact ⟨e.trees, ps.trees, rfl⟩

theorem Expr.trees_ne_nil (e : Expr) : e.trees ≠ [] := by
  cases e with
  | paren ps =>
    obtain ⟨cs, ts, h⟩ := ps.trees_cons
    show ps.trees ≠ []
    rw [h]
    exact List.cons_ne_nil _ _
  | _ => exact List.cons_ne_nil _ _

/-- An operand without parentheses is one node, and not an `ARITHMETIC` one. -/
theorem Expr.trees_of_not_paren {e : Expr} (h : e.isParen = false) :
    ∃ t, e.trees = [t] ∧ t.label.type ≠ .arithmetic := by
  cases e with
  | num l =>
    refine ⟨_, rfl, ?_⟩
    show l.token.type ≠ .arithmetic
    rcases l.token_type with ht | ht <;> simp [ht]
  | unary op e => exact ⟨_, rfl, by cases op <;> simp [NodeTree.label, UnaryOp.type]⟩
  | binary op l r => exact ⟨_, rfl, by cases op <;> simp [NodeTree.label, BinaryOp.type]⟩
  | logic op l r => exact ⟨_, rfl, by cases op <;> simp [NodeTree.label, LogicOp.type]⟩
  | cond c t f => exact ⟨_, rfl, by simp [NodeTree.label]⟩
  | paren ps => cases h

theorem Expr.noPart_of_not_paren {e : Expr} (h : e.isParen = false) :
    NoPart (forestStream e.trees ++ rest) := by
  obtain ⟨t, ht, htype⟩ := trees_of_not_paren h
  rw [ht, forestStream_singleton, stream_eq_cons]
  intro u hu
  cases hu
  exact htype

theorem Expr.atPart_of_paren {e : Expr} (h : e.isParen = true) :
    atPart (forestStream e.trees ++ rest) = true := by
  cases e with
  | paren ps =>
    obtain ⟨cs, ts, hts⟩ := ps.trees_cons
    show atPart (forestStream ps.trees ++ rest) = true
    rw [hts, forestStream_cons, stream_eq_cons]
    rfl
  | _ => cases h

/-! ## Where the loop of `arithmetics` stops -/

/-- The loop ends in front of something that is no `ARITHMETIC` node. -/
theorem moreParts_stops {arith : Walk Store Int64} {n : Nat} {v v' : Int64}
    {c c' : Cursor Store} (h : moreParts toks arith n v c = some (.ok v', c')) :
    laIs toks .arithmetic c' = some (.ok false, c') := by
  induction n generalizing v c with
  | zero => cases h
  | succ n ih =>
    obtain ⟨b, hb⟩ : ∃ b, laIs toks .arithmetic c = some (.ok b, c) := ⟨_, rfl⟩
    rw [moreParts, bind_of_ok hb] at h
    cases b with
    | true =>
      rcases bind_cases h with ⟨v₁, c₁, -, hmore⟩ | ⟨e, -, he⟩
      · exact ih hmore
      · cases he
    | false =>
      cases h
      exact hb

/-- A parenthesised operand that is consumed has no `ARITHMETIC` node after it. -/
theorem Expr.Consumed.atPart {e : Expr} (hc : e.Consumed env toks i) (he : e.isParen = true)
    (h : OnTree toks i (forestStream e.trees ++ rest)) : atPart rest = false := by
  cases e with
  | paren ps =>
    obtain ⟨v, -, hrun⟩ := hc
    let s : Store := ⟨∅, []⟩
    obtain ⟨cs, ts, hts⟩ := ps.trees_cons
    have hrun := hrun ((Expr.paren ps).nesting + 1) (Nat.le_succ _) s
    have hfirst : OnTree toks i ((astNode .arithmetic cs).stream ++ (forestStream ts ++ rest)) := by
      have : (Expr.paren ps).trees = astNode .arithmetic cs :: ts := hts
      rwa [this, forestStream_cons, List.append_assoc] at h
    rw [arithmetics_part 0 s hfirst] at hrun
    have hstop := moreParts_stops hrun
    rw [laIs_arithmetic_step s h.advance] at hstop
    simpa using hstop
  | _ => cases he

/-! ## Consumed operands are walkable -/

theorem Expr.OperandsConsumed.consumed {e : Expr} (h : e.OperandsConsumed env toks i) :
    e.Consumed env toks i := by
  cases e with
  | num l => exact h
  | _ => exact h.1

/-- A consumed operand and the one after it are not both parenthesised. -/
theorem Expr.Consumed.not_both_paren {l r : Expr} (hl : l.Consumed env toks i)
    (h : OnTree toks i (forestStream l.trees ++ (forestStream r.trees ++ rest))) :
    ¬ (l.isParen ∧ r.isParen) := by
  rintro ⟨hlp, hrp⟩
  have hstop := hl.atPart hlp h
  rw [Expr.atPart_of_paren hrp] at hstop
  cases hstop

theorem matchUp_fails {t : AstNode} (s : Store) (h : OnTree toks i (t.stream ++ rest)) :
    matchUp toks ⟨i, s⟩ = some (.error .recognition, (⟨i, s⟩ : Cursor Store)) := by
  unfold matchUp
  rw [bind_of_ok (la_step s h.root 0)]
  rfl

/-- After the skip of a right operand that is several nodes, the `UP` is missing. -/
theorem Expr.Consumed.skipped_single {op : LogicOp} {l r : Expr}
    (hnode : (Expr.logic op l r).Consumed env toks i) (hl : l.Consumed env toks (i + 2))
    (h : OnTree toks i (forestStream (Expr.logic op l r).trees ++ rest))
    (hsettles : l.settles op = true) : r.trees.length = 1 := by
  obtain ⟨lv, hlv, hlrun⟩ := hl
  have hshort : op.short lv = true := by simpa [Expr.settles, hlv] using hsettles
  obtain ⟨t, ts, hts⟩ := List.exists_cons_of_ne_nil r.trees_ne_nil
  cases ts with
  | nil => rw [hts, List.length_singleton]
  | cons u us =>
    exfalso
    let s : Store := ⟨∅, []⟩
    obtain ⟨v, -, hrun⟩ := hnode
    have hrun := hrun (max l.nesting r.nesting + 1) (Nat.le_refl _) s
    have hleft := hlrun (max l.nesting r.nesting) (Nat.le_max_left _ _) s
    have hne : l.trees ++ r.trees ≠ [] := by simp [l.trees_ne_nil]
    have hroot : OnTree toks i ((astNode op.type (l.trees ++ r.trees)).stream ++ rest) := by
      rwa [Expr.trees, forestStream_singleton] at h
    have hops := OnTree.operands (hroot.children hne)
    have hright := hops.advance
    rw [hts, forestStream_cons, forestStream_cons, List.append_assoc, List.append_assoc] at hright
    have hskip := skipNextTokenOrTree_step s hright (noDown_stream u _)
    have hup := matchUp_fails s hright.advance
    have htype : (astNode op.type (l.trees ++ r.trees)).label.type ≠ .arithmetic := by
      cases op <;> simp [NodeTree.label, LogicOp.type]
    rw [arithmetics_eq_alternative s hroot htype] at hrun
    rw [stream_node hne] at hroot
    change alternative _ _ _ _ (some op.type) _ = _ at hrun
    rw [alternative_logic, logicNode, bind_of_ok (matchToken_step s hroot),
      bind_of_ok (matchDown_step s hroot.tail), bind_of_ok hleft, hshort] at hrun
    change ((skipNextTokenOrTree toks >>= fun _ => pure op.shortValue) >>= _) _ = _ at hrun
    rw [bind_of_ok (bind_of_ok hskip _), bind_of_error hup] at hrun
    cases hrun

mutual

theorem Expr.walkable_of_consumed : ∀ (e : Expr) {i : Nat} {rest : NodeStream},
    OnTree toks i (forestStream e.trees ++ rest) → e.OperandsConsumed env toks i → e.Walkable env
  | .num l, i, rest, h, hc => by
    obtain ⟨v, hv, hrun⟩ := hc
    rw [Expr.trees, forestStream_singleton] at h
    -- What the walk reads does not depend on the store, so any one will do.
    let s : Store := ⟨∅, []⟩
    have hlit : Follows i (i + l.node.stream.length) (arithmetics env 1 toks)
        (pure (parseInteger env l.token)) := literal_arithmetics l h
    have hread := hlit.finishes (s := s) rfl
    rw [hrun 1 (Nat.le_refl _) s] at hread
    cases hread
    exact hv
  | .unary op e, i, rest, h, hc => by
    rw [Expr.trees, forestStream_singleton] at h
    exact e.walkable_of_consumed (h.children e.trees_ne_nil) hc.2
  | .binary op l r, i, rest, h, hc => by
    rw [Expr.trees, forestStream_singleton] at h
    have hops := OnTree.operands (h.children (by simp [l.trees_ne_nil]))
    exact ⟨l.walkable_of_consumed hops hc.2.1, r.walkable_of_consumed hops.advance hc.2.2,
      hc.2.1.consumed.not_both_paren hops⟩
  | .logic op l r, i, rest, h, hc => by
    have hroot := h
    rw [Expr.trees, forestStream_singleton] at hroot
    have hops := OnTree.operands (hroot.children (by simp [l.trees_ne_nil]))
    exact ⟨l.walkable_of_consumed hops hc.2.1, hc.2.1.consumed.not_both_paren hops,
      fun hs => r.walkable_of_consumed hops.advance (hc.2.2 hs),
      hc.1.skipped_single hc.2.1.consumed h⟩
  | .cond c t f, i, rest, h, hc => by
    rw [Expr.trees, forestStream_singleton] at h
    have hops := OnTree.operands (h.children (by simp [c.trees_ne_nil]))
    have hbranches := OnTree.operands hops.advance
    obtain ⟨-, hcc, hct, hcf⟩ := hc
    obtain ⟨tv, htv, -⟩ := hct.consumed
    obtain ⟨fv, hfv, -⟩ := hcf.consumed
    rw [forestStream_append, List.append_assoc] at hops
    exact ⟨⟨c.walkable_of_consumed hops hcc, t.walkable_of_consumed hbranches hct,
      f.walkable_of_consumed hbranches.advance hcf⟩, hcc.consumed.not_both_paren hops,
      hct.consumed.not_both_paren hbranches, by rw [htv]; rfl, by rw [hfv]; rfl⟩
  | .paren ps, i, rest, h, hc => ps.walkable_of_consumed h hc.2

theorem Parts.walkable_of_consumed : ∀ (ps : Parts) {i : Nat} {rest : NodeStream},
    OnTree toks i (forestStream ps.trees ++ rest) → ps.OperandsConsumed env toks i →
      ps.Walkable env
  | .last e, i, rest, h, hc => by
    rw [Parts.trees, forestStream_singleton] at h
    exact e.walkable_of_consumed (h.children e.trees_ne_nil) hc
  | .more e ps, i, rest, h, hc => by
    rw [Parts.trees, forestStream_cons, List.append_assoc] at h
    exact ⟨e.walkable_of_consumed (h.children e.trees_ne_nil) hc.1,
      ps.walkable_of_consumed h.advance hc.2⟩

end

/-! ## Walkable operands are consumed -/

theorem Expr.Consumed.follows {e : Expr} (hc : e.Consumed env toks i) :
    ∃ v, e.value = some v ∧ ∀ d, e.nesting ≤ d →
      Follows i (i + (forestStream e.trees).length) (arithmetics env d toks) (pure v) := by
  obtain ⟨v, hv, hrun⟩ := hc
  exact ⟨v, hv, fun d hd => follows_pure_iff.mpr (hrun d hd)⟩

/-- A node is consumed when the alternative of `arithmetic` for it computes its
value. -/
theorem Expr.consumed_of_follows {e : Expr} {t : AstNode} {v : Int64} (htrees : e.trees = [t])
    (htype : t.label.type ≠ .arithmetic) (hv : e.value = some v)
    (h : OnTree toks i (t.stream ++ rest))
    (hw : ∀ d, e.nesting ≤ d + 1 → Follows i (i + t.stream.length)
      (alternative env toks (arithmetics env d toks) (evalArithmetic env d) (some t.label.type))
      (pure v)) : e.Consumed env toks i := by
  refine ⟨v, hv, fun d hd s => ?_⟩
  have hpos := e.nesting_pos
  obtain ⟨d, rfl⟩ : ∃ k, d = k + 1 := ⟨d - 1, by omega⟩
  rw [htrees, forestStream_singleton]
  exact (follows_arithmetics h htype (hw d hd)).finishes rfl

theorem Expr.consumed_unary {op : UnaryOp} {e : Expr} {v : Int64} (he : e.Consumed env toks (i + 2))
    (hv : (Expr.unary op e).value = some v)
    (h : OnTree toks i ((astNode op.type e.trees).stream ++ rest)) :
    (Expr.unary op e).Consumed env toks i := by
  obtain ⟨ev, hev, hfollows⟩ := he.follows
  refine Expr.consumed_of_follows rfl (by cases op <;> simp [NodeTree.label, UnaryOp.type]) hv h
    (fun d hd => ?_)
  rw [Expr.value, hev, Option.map_some, Option.some.injEq] at hv
  simp only [Expr.nesting, Nat.add_le_add_iff_right] at hd
  show Follows i _ (alternative _ _ _ _ (some op.type)) _
  rw [alternative_unary, ← hv, ← UnaryOp.act_eq_apply]
  exact unaryNode_follows (f := op.act) e.trees_ne_nil h fun _ => hfollows d hd

theorem Expr.consumed_binary {op : BinaryOp} {l r : Expr} {v : Int64}
    (hl : l.Consumed env toks (i + 2))
    (hr : r.Consumed env toks (i + 2 + (forestStream l.trees).length))
    (hv : (Expr.binary op l r).value = some v)
    (h : OnTree toks i ((astNode op.type (l.trees ++ r.trees)).stream ++ rest)) :
    (Expr.binary op l r).Consumed env toks i := by
  obtain ⟨lv, hlv, hlf⟩ := hl.follows
  obtain ⟨rv, hrv, hrf⟩ := hr.follows
  refine Expr.consumed_of_follows rfl (by cases op <;> simp [NodeTree.label, BinaryOp.type]) hv h
    (fun d hd => ?_)
  rw [Expr.value, hlv, hrv] at hv
  simp only [Expr.nesting, Nat.add_le_add_iff_right] at hd
  show Follows i _ (alternative _ _ _ _ (some op.type)) _
  rw [alternative_binary, ← BinaryOp.act_of_apply hv]
  exact binaryNode_follows (f := op.act) l.trees_ne_nil h (fun _ => hlf d (by omega))
    fun _ => hrf d (by omega)

/-- The left value settles the result, the right operand is one node. -/
theorem Expr.consumed_logic_short {op : LogicOp} {l r : Expr} {lv : Int64} {t : AstNode}
    (hl : l.Consumed env toks (i + 2)) (hlv : l.value = some lv) (hshort : op.short lv = true)
    (ht : r.trees = [t]) (h : OnTree toks i ((astNode op.type (l.trees ++ r.trees)).stream ++ rest)) :
    (Expr.logic op l r).Consumed env toks i := by
  obtain ⟨lv', hlv', hlf⟩ := hl.follows
  obtain rfl : lv' = lv := Option.some.inj (hlv'.symm.trans hlv)
  have hv : (Expr.logic op l r).value = some op.shortValue := by
    simp only [Expr.value, hlv, Option.bind_some, hshort, if_true]
  refine Expr.consumed_of_follows rfl (by cases op <;> simp [NodeTree.label, LogicOp.type]) hv h
    (fun d hd => ?_)
  simp only [Expr.nesting, Nat.add_le_add_iff_right] at hd
  show Follows i _ (alternative _ _ _ _ (some op.type)) _
  rw [alternative_logic]
  refine logicNode_follows (g := fun _ => pure op.shortValue) l.trees_ne_nil h
    (fun _ => hlf d (by omega)) fun hright lv s t hl => ?_
  cases hl
  rw [ht, forestStream_singleton] at hright ⊢
  rw [hshort]
  exact logicRight_short hright (noDown_up rest)

theorem Expr.consumed_logic_long {op : LogicOp} {l r : Expr} {lv : Int64}
    (hl : l.Consumed env toks (i + 2)) (hlv : l.value = some lv) (hshort : op.short lv = false)
    (hr : r.Consumed env toks (i + 2 + (forestStream l.trees).length))
    (h : OnTree toks i ((astNode op.type (l.trees ++ r.trees)).stream ++ rest)) :
    (Expr.logic op l r).Consumed env toks i := by
  obtain ⟨lv', hlv', hlf⟩ := hl.follows
  obtain rfl : lv' = lv := Option.some.inj (hlv'.symm.trans hlv)
  obtain ⟨rv, hrv, hrf⟩ := hr.follows
  have hv : (Expr.logic op l r).value = some (ofBool (rv != 0)) := by
    simp only [Expr.value, hlv, hrv, Option.bind_some, hshort, Option.map_some, Bool.false_eq_true,
      if_false]
  refine Expr.consumed_of_follows rfl (by cases op <;> simp [NodeTree.label, LogicOp.type]) hv h
    (fun d hd => ?_)
  simp only [Expr.nesting, Nat.add_le_add_iff_right] at hd
  show Follows i _ (alternative _ _ _ _ (some op.type)) _
  rw [alternative_logic]
  refine logicNode_follows (g := fun _ => pure rv >>= fun r => pure (ofBool (r != 0)))
    l.trees_ne_nil h (fun _ => hlf d (by omega)) fun hright lv s t hl => ?_
  cases hl
  rw [hshort]
  exact logicRight_long (hrf d (by omega))

theorem Expr.consumed_cond {c t f : Expr} {v : Int64} (hc : c.Consumed env toks (i + 2))
    (ht : t.Consumed env toks (i + 2 + (forestStream c.trees).length))
    (hf : f.Consumed env toks
      (i + 2 + (forestStream c.trees).length + (forestStream t.trees).length))
    (hv : (Expr.cond c t f).value = some v)
    (h : OnTree toks i ((astNode .arithmeticCondition (c.trees ++ (t.trees ++ f.trees))).stream ++
      rest)) : (Expr.cond c t f).Consumed env toks i := by
  obtain ⟨cv, hcv, hcf⟩ := hc.follows
  obtain ⟨tv, htv, htf⟩ := ht.follows
  obtain ⟨fv, hfv, hff⟩ := hf.follows
  refine Expr.consumed_of_follows rfl (by simp [NodeTree.label]) hv h (fun d hd => ?_)
  have hchosen : (if cv ≠ 0 then tv else fv) = v := by
    rw [Expr.value, hcv, htv, hfv, Option.bind_some, ← apply_ite some] at hv
    exact Option.some.inj hv
  simp only [Expr.nesting, Nat.add_le_add_iff_right] at hd
  rw [← hchosen]
  exact conditionNode_follows c.trees_ne_nil h (fun _ => hcf d (by omega))
    (fun _ => htf d (by omega)) fun _ => hff d (by omega)

/-- The loop of `arithmetics`, run at `i` on the parts, stops after the last one
and returns its value. -/
def Parts.Looped (env : ArithEnv) (toks : NodeStream) (i : Nat) (ps : Parts) : Prop :=
  ∃ v, ps.value = some v ∧ ∀ d n v₀, ps.nesting ≤ d + 1 → ps.trees.length < n →
    Follows i (i + (forestStream ps.trees).length)
      (moreParts toks (arithmetics env d toks) n v₀) (pure v)

theorem Parts.looped_last {e : Expr} (he : e.Consumed env toks (i + 2))
    (h : OnTree toks i (forestStream (Parts.last e).trees ++ rest)) (hrest : NoPart rest) :
    (Parts.last e).Looped env toks i := by
  obtain ⟨v, hv, hf⟩ := he.follows
  refine ⟨v, hv, fun d n v₀ hd hn => ?_⟩
  simp only [Parts.nesting, Nat.add_le_add_iff_right] at hd
  simp only [Parts.trees, List.length_singleton] at hn
  obtain ⟨n, rfl⟩ : ∃ k, n = k + 2 := ⟨n - 2, by omega⟩
  rw [Parts.trees, forestStream_singleton] at h ⊢
  have hpart := arithmeticPart_follows e.trees_ne_nil h fun _ => hf d hd
  refine follows_step (j := i) true (fun s => ?_) ?_
  · rw [laIs_arithmetic_step s h.root]
    rfl
  · exact follows_step v (follows_pure_iff.mp hpart) (moreParts_stop v h.advance hrest)

theorem Parts.looped_more {e : Expr} {ps : Parts} (he : e.Consumed env toks (i + 2))
    (hps : ps.Looped env toks (i + (astNode .arithmetic e.trees).stream.length))
    (h : OnTree toks i (forestStream (Parts.more e ps).trees ++ rest)) :
    (Parts.more e ps).Looped env toks i := by
  obtain ⟨ev, hev, hf⟩ := he.follows
  obtain ⟨v, hv, hmore⟩ := hps
  refine ⟨v, by rw [Parts.value, hev, Option.bind_some, hv], fun d n v₀ hd hn => ?_⟩
  simp only [Parts.nesting] at hd
  simp only [Parts.trees, List.length_cons] at hn
  obtain ⟨n, rfl⟩ : ∃ k, n = k + 1 := ⟨n - 1, by omega⟩
  rw [Parts.trees, forestStream_cons, List.append_assoc] at h
  rw [Parts.trees, forestStream_cons, List.length_append, ← Nat.add_assoc]
  exact moreParts_part (m := pure ev) e.trees_ne_nil h (fun _ => hf d (by omega))
    fun v₁ => hmore d n v₁ (by omega) (by omega)

theorem Expr.consumed_paren {ps : Parts} (hps : ps.Looped env toks i)
    (h : OnTree toks i (forestStream ps.trees ++ rest)) : (Expr.paren ps).Consumed env toks i := by
  obtain ⟨v, hv, hloop⟩ := hps
  obtain ⟨cs, ts, hts⟩ := ps.trees_cons
  have hpos : 0 < ps.nesting := by cases ps <;> simp only [Parts.nesting] <;> omega
  have hlen : ps.trees.length < toks.length + 1 := by
    have h₁ := length_le_forestStream ps.trees
    have h₂ := h.length_le
    simp only [List.length_append] at h₂
    omega
  refine ⟨v, hv, fun d hd s => ?_⟩
  change ps.nesting ≤ d at hd
  obtain ⟨d, rfl⟩ : ∃ k, d = k + 1 := ⟨d - 1, by omega⟩
  have hfirst : OnTree toks i ((astNode .arithmetic cs).stream ++ (forestStream ts ++ rest)) := by
    rwa [hts, forestStream_cons, List.append_assoc] at h
  rw [arithmetics_part 0 s hfirst]
  exact (hloop d (toks.length + 1) 0 hd hlen).finishes rfl

/-- Not both of two neighbours are parenthesised: the loop on the left one stops
at the right one. -/
theorem Expr.noPart_next {l r : Expr} (h : ¬ (l.isParen ∧ r.isParen)) (hl : l.isParen = true) :
    NoPart (forestStream r.trees ++ rest) := by
  refine Expr.noPart_of_not_paren ?_
  cases hr : r.isParen with
  | true => exact absurd ⟨hl, hr⟩ h
  | false => rfl

mutual

theorem Expr.consumed_of_walkable : ∀ (e : Expr) {i : Nat} {rest : NodeStream} {v : Int64},
    e.Walkable env → e.value = some v → OnTree toks i (forestStream e.trees ++ rest) →
      (e.isParen = true → NoPart rest) → e.OperandsConsumed env toks i
  -- By the structure of the expression: an operand starts where the one before it ends.
  | .num l, i, rest, v, hw, hv, h, _ => by
    rw [Expr.trees, forestStream_singleton] at h
    refine ⟨parseInteger env l.token, hw, fun d hd s => ?_⟩
    simp only [Expr.nesting] at hd
    obtain ⟨d, rfl⟩ : ∃ k, d = k + 1 := ⟨d - 1, by omega⟩
    rw [Expr.trees, forestStream_singleton]
    exact (literal_arithmetics l h).finishes rfl
  | .unary op e, i, rest, v, hw, hv, h, _ => by
    rw [Expr.trees, forestStream_singleton] at h
    obtain ⟨ev, hev, -⟩ := Option.map_eq_some_iff.mp hv
    have he := e.consumed_of_walkable hw hev (h.children e.trees_ne_nil) fun _ => noPart_up rest
    exact ⟨Expr.consumed_unary he.consumed hv h, he⟩
  | .binary op l r, i, rest, v, hw, hv, h, _ => by
    rw [Expr.trees, forestStream_singleton] at h
    have hops := OnTree.operands (h.children (by simp [l.trees_ne_nil]))
    obtain ⟨hwl, hwr, hnot⟩ := hw
    obtain ⟨lv, hlv, hbind⟩ := Option.bind_eq_some_iff.mp hv
    obtain ⟨rv, hrv, -⟩ := Option.bind_eq_some_iff.mp hbind
    have hl := l.consumed_of_walkable hwl hlv hops (Expr.noPart_next hnot)
    have hr := r.consumed_of_walkable hwr hrv hops.advance fun _ => noPart_up rest
    exact ⟨Expr.consumed_binary hl.consumed hr.consumed hv h, hl, hr⟩
  | .logic op l r, i, rest, v, hw, hv, h, _ => by
    rw [Expr.trees, forestStream_singleton] at h
    have hops := OnTree.operands (h.children (by simp [l.trees_ne_nil]))
    obtain ⟨hwl, hnot, hlong, hshort⟩ := hw
    obtain ⟨lv, hlv, hbind⟩ := Option.bind_eq_some_iff.mp hv
    have hl := l.consumed_of_walkable hwl hlv hops (Expr.noPart_next hnot)
    have hsettles : l.settles op = op.short lv := by simp [Expr.settles, hlv]
    cases hs : op.short lv with
    | true =>
      obtain ⟨t, ht⟩ := List.length_eq_one_iff.mp (hshort (hsettles.trans hs))
      exact ⟨Expr.consumed_logic_short hl.consumed hlv hs ht h, hl,
        fun hsf => by rw [hsettles, hs] at hsf; cases hsf⟩
    | false =>
      rw [hs, if_neg Bool.false_ne_true] at hbind
      obtain ⟨rv, hrv, -⟩ := Option.map_eq_some_iff.mp hbind
      have hr := r.consumed_of_walkable (hlong (hsettles.trans hs)) hrv hops.advance
        fun _ => noPart_up rest
      exact ⟨Expr.consumed_logic_long hl.consumed hlv hs hr.consumed h, hl, fun _ => hr⟩
  | .cond c t f, i, rest, v, hw, hv, h, _ => by
    rw [Expr.trees, forestStream_singleton] at h
    have hops := OnTree.operands (h.children (by simp [c.trees_ne_nil]))
    have hbranches := OnTree.operands hops.advance
    obtain ⟨⟨hwc, hwt, hwf⟩, hct, htf, htv, hfv⟩ := hw
    obtain ⟨cv, hcv, -⟩ := Option.bind_eq_some_iff.mp hv
    obtain ⟨tv, htv⟩ := Option.isSome_iff_exists.mp htv
    obtain ⟨fv, hfv⟩ := Option.isSome_iff_exists.mp hfv
    rw [forestStream_append, List.append_assoc] at hops
    have hc := c.consumed_of_walkable hwc hcv hops (Expr.noPart_next hct)
    have ht := t.consumed_of_walkable hwt htv hbranches (Expr.noPart_next htf)
    have hf := f.consumed_of_walkable hwf hfv hbranches.advance fun _ => noPart_up rest
    exact ⟨Expr.consumed_cond hc.consumed ht.consumed hf.consumed hv h, hc, ht, hf⟩
  | .paren ps, i, rest, v, hw, hv, h, hrest => by
    obtain ⟨hloop, hps⟩ := ps.looped_of_walkable hw hv h (hrest rfl)
    exact ⟨Expr.consumed_paren hloop h, hps⟩

theorem Parts.looped_of_walkable : ∀ (ps : Parts) {i : Nat} {rest : NodeStream} {v : Int64},
    ps.Walkable env → ps.value = some v → OnTree toks i (forestStream ps.trees ++ rest) →
      NoPart rest → ps.Looped env toks i ∧ ps.OperandsConsumed env toks i
  | .last e, i, rest, v, hw, hv, h, hrest => by
    have hpart := h
    rw [Parts.trees, forestStream_singleton] at hpart
    have he := e.consumed_of_walkable hw hv (hpart.children e.trees_ne_nil) fun _ => noPart_up rest
    exact ⟨Parts.looped_last he.consumed h hrest, he⟩
  | .more e ps, i, rest, v, hw, hv, h, hrest => by
    have hpart := h
    rw [Parts.trees, forestStream_cons, List.append_assoc] at hpart
    obtain ⟨ev, hev, hpsv⟩ := Option.bind_eq_some_iff.mp hv
    have he := e.consumed_of_walkable hw.1 hev (hpart.children e.trees_ne_nil)
      fun _ => noPart_up _
    obtain ⟨hloop, hps⟩ := ps.looped_of_walkable hw.2 hpsv hpart.advance hrest
    exact ⟨Parts.looped_more he.consumed hloop h, he, hps⟩

end

/-! ## Operand boundaries -/

/-- A literal without a leading zero is walkable exactly below `2 ^ 31`. -/
theorem Expr.walkable_num_iff (hint : ReadsDecimals env.toInt32) {l : Literal}
    (hl : l.digits.head? ≠ some '0') : (Expr.num l).Walkable env ↔ l.decimal < 2 ^ 31 := by
  have hbash : l.bashValue = if l.decimal < 2 ^ 63 then some (Int64.ofNat l.decimal) else none := by
    unfold Literal.bashValue
    split
    · next ds hds => rw [hds] at hl; exact absurd rfl hl
    · rfl
  unfold Expr.Walkable
  rw [hbash]
  constructor
  · intro h
    by_cases hlt : l.decimal < 2 ^ 63
    · rw [if_pos hlt, Option.some.injEq, ← Int64.toInt_inj, ← Int64.ofInt_eq_ofNat,
        Int64.toInt_ofInt_of_le (by omega) (by omega)] at h
      have hrange := Int32.toInt_lt (env.toInt32 l.token.text)
      change (l.decimal : Int) = (env.toInt32 l.token.text).toInt64.toInt at h
      rw [Int32.toInt_toInt64] at h
      omega
    · rw [if_neg hlt] at h
      cases h
  · intro hlt
    rw [if_pos (by omega), parseInteger_eq hint hlt]

/-- In an expression to which bash gives a value, every operand rule consumes
exactly its own operand and returns its value if and only if the expression is
walkable. The expression is followed by the `UP` of the node around it, as every
arithmetic expansion and every part is. -/
theorem operandsConsumed_iff (e : Expr) {v : Int64} (hv : e.value = some v)
    (h : OnTree toks i (forestStream e.trees ++ .up :: rest)) :
    e.OperandsConsumed env toks i ↔ e.Walkable env := by
  constructor
  · exact e.walkable_of_consumed h
  · intro hw
    exact e.consumed_of_walkable hw hv h fun _ => noPart_up rest

/-- `1 ? (2, 3) : 4`, whose middle operand alone is parenthesised. -/
def oneParen : Expr :=
  .cond (.num (.ofNat 1)) (.paren (.more (.num (.ofNat 2)) (.last (.num (.ofNat 3)))))
    (.num (.ofNat 4))

theorem operandsConsumed_iff_oneParen :
    oneParen.OperandsConsumed numeralEnv (forestStream oneParen.trees ++ [.up]) 0 ↔
      oneParen.Walkable numeralEnv :=
  operandsConsumed_iff oneParen (v := 3) (by decide) rfl

/-- `(1)+(2)`. -/
def plusParens : Expr :=
  .binary .plus (.paren (.last (.num (.ofNat 1)))) (.paren (.last (.num (.ofNat 2))))

/-- The left operand of `(1)+(2)` is walked together with the right one. -/
theorem not_operandsConsumed_plusParens :
    plusParens.value = some 3 ∧
      ¬ plusParens.OperandsConsumed numeralEnv (forestStream plusParens.trees ++ [.up]) 0 := by
  refine ⟨by decide, fun h => ?_⟩
  have hat : OnTree (forestStream plusParens.trees ++ [.up]) 0
      (forestStream plusParens.trees ++ [.up]) := rfl
  exact (plusParens.walkable_of_consumed hat h).2.2 ⟨rfl, rfl⟩

example (s : Store) :
    arithmetics numeralEnv 3 (forestStream plusParens.trees ++ [.up]) ⟨2, s⟩ =
      some (.ok 2, ⟨10, s⟩) := rfl

end Libbash.Arith
