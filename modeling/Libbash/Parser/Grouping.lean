import Libbash.Parser.InfixTexts

/-!
# How the parser groups binary operators

bash has eleven levels of binary operators, of which all but `**` associate to
the left. The rules from `exponential` to `logicor` are ten: they group `**` to
the left as well, and read the relational operators and `==` and `!=` in one rule
that takes no second operator. `sequence_grouped_iff` says which sequences they
group as bash does.
-/

namespace Libbash

open Lib ArithParser
open Arith (BinaryOp LogicOp)

/-! ## Levels -/

/-- The level of an operator in bash, the tightest being 0. -/
def InfixOp.bashLevel : InfixOp → Nat
  | binary .exp => 0
  | binary .times | binary .slash | binary .pct => 1
  | binary .plus | binary .minus => 2
  | binary .lshift | binary .rshift => 3
  | binary .leq | binary .geq | binary .lessThan | binary .greaterThan => 4
  | binary .notEquals | binary .equalsTo => 5
  | binary .amp => 6
  | binary .caret => 7
  | binary .pipe => 8
  | logic .logicAnd => 9
  | logic .logicOr => 10

/-- The rule of the grammar that reads an operator, counted from `exponential`. -/
def InfixOp.rule : InfixOp → Nat
  | binary .exp => 0
  | binary .times | binary .slash | binary .pct => 1
  | binary .plus | binary .minus => 2
  | binary .lshift | binary .rshift => 3
  | binary .leq | binary .geq | binary .lessThan | binary .greaterThan
  | binary .notEquals | binary .equalsTo => 4
  | binary .amp => 5
  | binary .caret => 6
  | binary .pipe => 7
  | logic .logicAnd => 8
  | logic .logicOr => 9

theorem InfixOp.rule_eq (op : InfixOp) :
    op.rule = if op.bashLevel ≤ 4 then op.bashLevel else op.bashLevel - 1 := by
  cases op with
  | binary op => cases op <;> rfl
  | logic op => cases op <;> rfl

theorem InfixOp.rule_lt (op : InfixOp) : op.rule < 10 := by
  cases op with
  | binary op => cases op <;> decide
  | logic op => cases op <;> decide

/-- An expression with the blanks of its text. -/
abbrev InfixExpr := InfixTree Occurrence Literal

/-- How bash groups: only `**` associates to the right. -/
def bashGrouping : Grouping Occurrence where
  rank o := o.op.bashLevel
  onLeft k := k != 0
  onRight k := k == 0

/-- The node of an expression. -/
def infixNode : InfixExpr → AstNode :=
  InfixTree.fold Literal.node fun o l r => astNode o.op.type [l, r]

/-! ## Tokens of a sequence at the rules -/

section Writing

variable (arithmetics : TreeRule)

/-- The tokens after an operand, which has taken the blanks. -/
def atOperator (tail : List (Occurrence × Literal)) : List ArithToken := skipBlank (tailTokens tail)

theorem InfixOp.skipBlank_tokens (op : InfixOp) (ts : List ArithToken) :
    skipBlank (op.tokens ++ ts) = op.tokens ++ ts := by
  cases op with
  | binary op => cases op <;> rfl
  | logic op => cases op <;> rfl

theorem skipBlank_gap (g : Gap) {ts : List ArithToken} (h : skipBlank ts = ts) :
    skipBlank (g.tokens ++ ts) = ts := by
  unfold Gap.tokens
  split
  · exact h
  · rfl

theorem atOperator_cons (o : Occurrence) (l : Literal) (tail : List (Occurrence × Literal)) :
    atOperator ((o, l) :: tail) = o.op.tokens ++ (o.after.tokens ++ .num l :: tailTokens tail) := by
  show skipBlank (o.before.tokens ++ o.op.tokens ++ o.after.tokens ++ .num l :: tailTokens tail) = _
  rw [List.append_assoc, List.append_assoc]
  exact skipBlank_gap o.before (o.op.skipBlank_tokens _)

/-- After an operator there is no second `+` or `-`, and no `=` that would make it
longer. -/
theorem gap_cases (g : Gap) (l : Literal) (ts : List ArithToken) :
    (∃ us, g.tokens ++ .num l :: ts = .num l :: us) ∨
      ∃ us, g.tokens ++ .num l :: ts = .blank :: us := by
  unfold Gap.tokens
  split
  · exact .inl ⟨_, rfl⟩
  · exact .inr ⟨_, rfl⟩

theorem skipDquote_tailTokens (tail : List (Occurrence × Literal)) :
    skipDquote (tailTokens tail) = tailTokens tail := by
  cases tail with
  | nil => rfl
  | cons p tail =>
    obtain ⟨⟨op, before, after⟩, l⟩ := p
    show skipDquote (before.tokens ++ op.tokens ++ after.tokens ++ .num l :: tailTokens tail) =
      before.tokens ++ op.tokens ++ after.tokens ++ .num l :: tailTokens tail
    unfold Gap.tokens
    split
    · cases op with
      | binary op => cases op <;> rfl
      | logic op => cases op <;> rfl
    · rfl

/-- `post_inc_dec` reads a literal and the blanks after it. -/
theorem unary_literal (l : Literal) (tail : List (Occurrence × Literal)) :
    unary arithmetics (.num l :: tailTokens tail) = some ([l.node], atOperator tail) := by
  have hprimary : prePostPrimary arithmetics (.num l :: tailTokens tail) =
      some ([l.node], tailTokens tail) := by
    show some ([l.node], skipDquote (tailTokens tail)) = _
    rw [skipDquote_tailTokens]
  have hunary : unary arithmetics (.num l :: tailTokens tail) =
      postIncDec arithmetics (.num l :: tailTokens tail) := by
    simp [unary, signType]
  rw [hunary]
  have hat : skipBlank (tailTokens tail) = atOperator tail := rfl
  unfold postIncDec
  rw [hprimary]
  dsimp only
  rw [hat]
  cases tail with
  | nil => rfl
  | cons p tail =>
    obtain ⟨⟨op, before, after⟩, r⟩ := p
    rw [atOperator_cons]
    rcases gap_cases after r (tailTokens tail) with ⟨us, hus⟩ | ⟨us, hus⟩ <;>
    · rw [hus]
      cases op with
      | binary op => cases op <;> rfl
      | logic op => cases op <;> rfl

theorem layer_read_tokens (op : InfixOp) {l : Literal} {ts : List ArithToken}
    (h : (∃ us, ts = .num l :: us) ∨ ∃ us, ts = .blank :: us) :
    (layer op.rule).read (op.tokens ++ ts) = some (op.type, skipBlank ts) := by
  rcases h with ⟨us, rfl⟩ | ⟨us, rfl⟩ <;>
  · cases op with
    | binary op => cases op <;> rfl
    | logic op => cases op <;> rfl

theorem layer_read (o : Occurrence) (l : Literal) (tail : List (Occurrence × Literal)) :
    (layer o.op.rule).read (atOperator ((o, l) :: tail)) =
      some (o.op.type, .num l :: tailTokens tail) := by
  rw [atOperator_cons, layer_read_tokens o.op (gap_cases o.after l (tailTokens tail)),
    skipBlank_gap o.after rfl]

theorem layer_starts (k : Nat) (o : Occurrence) (l : Literal) (tail : List (Occurrence × Literal)) :
    (layer k).starts (atOperator ((o, l) :: tail)) = decide (o.op.rule = k) := by
  obtain ⟨op, before, after⟩ := o
  rw [atOperator_cons]
  unfold layer
  by_cases hk : k = 4
  · subst hk
    rw [if_pos rfl]
    cases op with
    | binary op => cases op <;> rfl
    | logic op => cases op <;> rfl
  · rw [if_neg hk]
    have hone (j : Nat) (ty : TokenType) :
        (if j = k then some ty else none).isSome = decide (j = k) := by
      split <;> simp_all
    have hfour : decide (4 = k) = false := decide_eq_false fun h => hk h.symm
    cases op with
    | binary op =>
      cases op with
      | leq | geq | lessThan | greaterThan | notEquals | equalsTo => exact hfour.symm
      | _ => exact hone _ _
    | logic op => cases op <;> exact hone _ _

/-- Sequences as the rules from `exponential` to `logicor` read them. -/
def sequenceWriting : (grammar arithmetics).Writing Occurrence Literal where
  rank o := o.op.rule
  kind o := o.op.type
  value l := [l.node]
  atOperand l tail := .num l :: tailTokens tail
  atOperator := atOperator
  operand_eq := unary_literal arithmetics
  read_eq := layer_read
  starts_eq := layer_starts
  starts_nil k := by
    show (layer k).starts [] = false
    unfold layer
    split <;> rfl
  shorter o l tail := by
    rw [atOperator_cons]
    have hskip (ts : List ArithToken) : (skipBlank ts).length ≤ ts.length := by
      unfold skipBlank
      split
      · exact Nat.le_succ _
      · exact Nat.le_refl _
    have := hskip (tailTokens tail)
    simp only [atOperator, List.length_append, List.length_cons]
    omega

theorem valueOf_sequenceWriting (t : InfixExpr) : (sequenceWriting arithmetics).valueOf t = [infixNode t] := by
  induction t with
  | leaf l => rfl
  | node o l r ihl ihr =>
    show operatorNode o.op.type ((sequenceWriting arithmetics).valueOf l)
      ((sequenceWriting arithmetics).valueOf r) = _
    rw [ihl, ihr]
    rfl

end Writing

/-! ## Trees that are no operator's -/

/-- The rule that makes nodes of a type, counted from `exponential`. -/
def ruleOfType : TokenType → Option Nat
  | .exp => some 0
  | .times | .slash | .pct => some 1
  | .plus | .minus => some 2
  | .lshift | .rshift => some 3
  | .leq | .geq | .lessThan | .greaterThan | .notEquals | .equalsTo => some 4
  | .amp => some 5
  | .caret => some 6
  | .pipe => some 7
  | .logicAnd => some 8
  | .logicOr => some 9
  | _ => none

theorem ruleOfType_type (op : InfixOp) : ruleOfType op.type = some op.rule := by
  cases op with
  | binary op => cases op <;> rfl
  | logic op => cases op <;> rfl

theorem ruleOfType_read {k : Nat} {ts us : List ArithToken} {ty : TokenType}
    (h : (layer k).read ts = some (ty, us)) : ruleOfType ty = some k := by
  unfold layer at h
  split at h
  · next hk =>
    subst hk
    obtain ⟨⟨ty', vs⟩, hop, heq⟩ := Option.map_eq_some_iff.mp h
    cases heq
    unfold compareOperator at hop
    split at hop <;> cases hop <;> rfl
  · cases ts with
    | nil => cases h
    | cons t ts =>
      obtain ⟨ty', hty, heq⟩ := Option.map_eq_some_iff.mp h
      cases heq
      obtain ⟨⟨j, ty''⟩, hrule, hty⟩ := Option.bind_eq_some_iff.mp hty
      split at hty
      · next hj =>
        cases hty
        subst hj
        unfold operatorRule at hrule
        split at hrule <;> cases hrule <;> rfl
      · cases hty

/-- At least one tree, and none for a binary operator. -/
def NoOperator (nodes : List AstNode) : Prop :=
  nodes ≠ [] ∧ ∀ n ∈ nodes, ruleOfType n.label.type = none

theorem noOperator_single {ty : TokenType} (h : ruleOfType ty = none) (nodes : List AstNode) :
    NoOperator [astNode ty nodes] := by
  refine ⟨List.cons_ne_nil _ _, fun n hn => ?_⟩
  rw [List.mem_singleton.mp hn]
  exact h

theorem ruleOfType_signType {t : ArithToken} {ty : TokenType} (h : signType t = some ty) :
    ruleOfType ty = none := by
  unfold signType at h
  split at h <;> cases h <;> rfl

section Operands

variable {arithmetics : TreeRule} (harith : ∀ {ts v us}, arithmetics ts = some (v, us) → NoOperator v)
include harith

theorem primary_noOperator {ts us : List ArithToken} {v : List AstNode}
    (h : primary arithmetics ts = some (v, us)) : NoOperator v := by
  unfold primary at h
  split at h
  · next l ts =>
    cases h
    refine ⟨List.cons_ne_nil _ _, fun n hn => ?_⟩
    rw [List.mem_singleton.mp hn]
    show ruleOfType l.token.type = none
    rcases l.token_type with hty | hty <;> rw [hty] <;> rfl
  · split at h
    · next nodes rest hinner =>
      cases h
      exact harith hinner
    · cases h
  · obtain ⟨p, -, heq⟩ := Option.map_eq_some_iff.mp h
    cases heq
    exact noOperator_single rfl _

theorem prePostPrimary_noOperator {ts us : List ArithToken} {v : List AstNode}
    (h : prePostPrimary arithmetics ts = some (v, us)) : NoOperator v := by
  obtain ⟨p, hp, heq⟩ := Option.map_eq_some_iff.mp h
  cases heq
  exact primary_noOperator harith hp

theorem postIncDec_noOperator {ts us : List ArithToken} {v : List AstNode}
    (h : postIncDec arithmetics ts = some (v, us)) : NoOperator v := by
  unfold postIncDec at h
  split at h
  · cases h
  · next nodes rest hprimary =>
    split at h
    · cases h
      exact noOperator_single rfl _
    · cases h
      exact noOperator_single rfl _
    · split at h
      · cases h
        exact prePostPrimary_noOperator harith hprimary
      · cases h

theorem unary_noOperator {ts us : List ArithToken} {v : List AstNode}
    (h : unary arithmetics ts = some (v, us)) : NoOperator v := by
  unfold unary at h
  split at h
  · exact postIncDec_noOperator harith h
  · obtain ⟨p, -, heq⟩ := Option.map_eq_some_iff.mp h
    cases heq
    exact noOperator_single rfl _
  · obtain ⟨p, -, heq⟩ := Option.map_eq_some_iff.mp h
    cases heq
    exact noOperator_single rfl _
  · split at h
    · exact postIncDec_noOperator harith h
    · next ty hty =>
      split at h
      · obtain ⟨p, -, heq⟩ := Option.map_eq_some_iff.mp h
        cases heq
        exact noOperator_single (ruleOfType_signType hty) _
      · obtain ⟨p, -, heq⟩ := Option.map_eq_some_iff.mp h
        cases heq
        exact noOperator_single (ruleOfType_signType hty) _

end Operands

/-- Trees of `arithmetic`, each below `ARITHMETIC`. -/
def Parts (arithmetics : TreeRule) (v : List AstNode) : Prop :=
  v ≠ [] ∧ ∀ n ∈ v, ∃ w ts us, n = astNode .arithmetic w ∧
    ArithParser.arithmetic arithmetics ts = some (w, us)

theorem arithmeticsRule_parts {arithmetics : TreeRule} {ts us : List ArithToken} {v : List AstNode}
    (h : ArithParser.arithmeticsRule arithmetics ts = some (v, us)) : Parts arithmetics v := by
  have hjoin {l r : List AstNode} (hl : Parts arithmetics l) (hr : Parts arithmetics r) :
      Parts arithmetics (l ++ r) :=
    ⟨List.append_ne_nil_of_left_ne_nil hl.1 _,
      fun n hn => (List.mem_append.mp hn).elim (hl.2 n) (hr.2 n)⟩
  refine Layer.rule_induction (fun hsub => ?_) (fun hq => hq)
    (fun _ hl hr => hjoin (hl.elim id And.right) hr) h
  obtain ⟨p, hp, heq⟩ := Option.map_eq_some_iff.mp hsub
  cases heq
  exact ⟨List.cons_ne_nil _ _, fun n hn => ⟨p.1, _, _, List.mem_singleton.mp hn, hp⟩⟩

theorem arithmetics_noOperator (d : Nat) {ts us : List ArithToken} {v : List AstNode}
    (h : ArithParser.arithmetics d ts = some (v, us)) : NoOperator v := by
  cases d with
  | zero => cases h
  | succ d =>
    obtain ⟨hne, hparts⟩ := arithmeticsRule_parts h
    refine ⟨hne, fun n hn => ?_⟩
    obtain ⟨w, -, -, rfl, -⟩ := hparts n hn
    rfl

/-- A tree of a binary operator is one of `logicor`. -/
theorem arithmetic_operator {arithmetics : TreeRule} {ts us : List ArithToken} {n : AstNode}
    (h : arithmetic arithmetics ts = some ([n], us)) (hn : ruleOfType n.label.type ≠ none) :
    ∃ us, logicor arithmetics ts = some ([n], us) := by
  unfold arithmetic at h
  split at h
  · next target op rest htarget =>
    obtain ⟨p, -, heq⟩ := Option.map_eq_some_iff.mp h
    cases heq
    refine absurd ?_ hn
    show ruleOfType op = none
    unfold assignmentTarget at htarget
    split at htarget
    · cases htarget
    · obtain ⟨q, hq, heq⟩ := Option.map_eq_some_iff.mp htarget
      cases heq
      unfold assignmentOperator at hq
      split at hq <;> cases hq <;> rfl
  · split at h
    · cases h
    · split at h
      · obtain ⟨p, -, heq⟩ := Option.map_eq_some_iff.mp h
        cases heq
        exact absurd rfl hn
      · cases h
    · next hcnd =>
      split at h
      · cases h
        exact ⟨_, hcnd⟩
      · cases h

/-! ## The grammar's own grouping -/

theorem append_eq_pair {α : Type} {a b : α} {l r : List α} (hl : l ≠ []) (hr : r ≠ [])
    (h : [a] ++ [b] = l ++ r) : [a] = l ∧ [b] = r := by
  cases l with
  | nil => exact absurd rfl hl
  | cons x l =>
    cases l with
    | nil =>
      cases h
      exact ⟨rfl, rfl⟩
    | cons y l =>
      simp only [List.cons_append, List.nil_append, List.cons.injEq, List.nil_eq,
        List.append_eq_nil_iff] at h
      exact absurd h.2.2.2 hr

theorem faithful (d : Nat) :
    (sequenceWriting (ArithParser.arithmetics d)).Faithful fun nodes => nodes ≠ [] where
  good_build _ _ := List.cons_ne_nil _ _
  build_inj := by
    intro o tl tr op l r hl hr h
    rw [valueOf_sequenceWriting, valueOf_sequenceWriting] at h ⊢
    simp only [grammar, operatorNode, sequenceWriting, List.cons.injEq, NodeTree.node.injEq, Token.mk.injEq,
      and_true] at h
    exact ⟨h.1, append_eq_pair hl hr h.2⟩
  build_ne_value := by
    intro op l r a hl _ h
    simp only [grammar, operatorNode, sequenceWriting, Literal.node, List.cons.injEq, NodeTree.node.injEq,
      List.append_eq_nil_iff] at h
    exact hl h.1.2.1
  operand_good h := (unary_noOperator (arithmetics_noOperator d) h).1
  operand_leaf := by
    rintro ts v us h op l r rfl
    have hnode := (unary_noOperator (arithmetics_noOperator d) h).2
    rw [valueOf_sequenceWriting] at hnode
    have hnone := hnode _ (List.mem_singleton.mpr rfl)
    have hsome := ruleOfType_type op.op
    rw [show ruleOfType op.op.type = none from hnone] at hsome
    cases hsome
  read_rank := by
    intro k ts op us h
    have hread : ruleOfType op.op.type = some k := ruleOfType_read h
    exact Option.some.inj ((ruleOfType_type op.op).symm.trans hread)

/-! ## Where the two groupings agree -/

/-- The rule that reads an operator. -/
def ruleOf (o : Occurrence) : Nat := o.op.rule

theorem ruleOf_eq (o : Occurrence) :
    ruleOf o = if o.op.bashLevel ≤ 4 then o.op.bashLevel else o.op.bashLevel - 1 :=
  o.op.rule_eq

theorem layer_repeats (k : Nat) : (layer k).repeats = decide (k ≠ 4) := by
  unfold layer
  by_cases hk : k = 4
  · rw [if_pos hk, decide_eq_false (not_not.mpr hk)]
    rfl
  · rw [if_neg hk, decide_eq_true hk]
    rfl

/-- What bash lets stand to the left of an operator. -/
theorem bash_left {o : Occurrence} {l : InfixExpr} (h : bashGrouping.Binds bashGrouping.onLeft o l) :
    ∀ x ∈ l.root?, x.op.bashLevel < o.op.bashLevel ∨
      x.op.bashLevel = o.op.bashLevel ∧ o.op.bashLevel ≠ 0 := by
  intro x hx
  exact (h x hx).imp id fun heq => ⟨heq.1, by simpa [bashGrouping] using heq.2⟩

theorem bash_right {o : Occurrence} {r : InfixExpr}
    (h : bashGrouping.Binds bashGrouping.onRight o r) :
    ∀ x ∈ r.root?, x.op.bashLevel < o.op.bashLevel ∨
      x.op.bashLevel = o.op.bashLevel ∧ o.op.bashLevel = 0 := by
  intro x hx
  exact (h x hx).imp id fun heq => ⟨heq.1, by simpa [bashGrouping] using heq.2⟩

theorem leveled_of_bash {t : InfixExpr} (h : bashGrouping.Grouped t) : Leveled ruleOf t := by
  induction t with
  | leaf l => trivial
  | node o l r ihl ihr =>
    obtain ⟨hl, hr, gl, gr⟩ := h
    refine ⟨fun x hx => ?_, ihl gl, ihr gr⟩
    rw [ruleOf_eq, ruleOf_eq]
    rcases hx with hx | hx
    · have := bash_left hl x hx
      split_ifs <;> omega
    · have := bash_right hr x hx
      split_ifs <;> omega

section

variable (d : Nat)

/-- A tree that groups as bash does is one of the grammar's, unless an operator
stands directly below another one of rule 0, or of rule 4. -/
theorem grouped_iff_nestFree {t : InfixExpr} (h : bashGrouping.Grouped t) :
    (sequenceWriting (ArithParser.arithmetics d)).grouping.Grouped t ↔
      NestFree ruleOf 0 t ∧ NestFree ruleOf 4 t := by
  have hleft (o x : Occurrence) :
      (ruleOf x < ruleOf o ∨ ruleOf x = ruleOf o ∧ (layer (ruleOf o)).repeats = true) ↔
        ruleOf x < ruleOf o ∨ ruleOf x = ruleOf o ∧ ruleOf o ≠ 4 := by
    rw [layer_repeats, decide_eq_true_eq]
  induction t with
  | leaf l => exact ⟨fun _ => ⟨trivial, trivial⟩, fun _ => trivial⟩
  | node o l r ihl ihr =>
    obtain ⟨hl, hr, gl, gr⟩ := h
    constructor
    · rintro ⟨cl, cr, hgl, hgr⟩
      obtain ⟨l0, l4⟩ := (ihl gl).mp hgl
      obtain ⟨r0, r4⟩ := (ihr gr).mp hgr
      have hlt (x : Occurrence) (hx : x ∈ r.root?) : ruleOf x < ruleOf o :=
        (cr x hx).resolve_right fun heq => Bool.false_ne_true heq.2
      have hle (x : Occurrence) (hx : x ∈ l.root?) := (hleft o x).mp (cl x hx)
      refine ⟨⟨fun h0 x hx => ?_, l0, r0⟩, ⟨fun h4 x hx => ?_, l4, r4⟩⟩
      · rcases hx with hx | hx
        · have := bash_left hl x hx
          rw [ruleOf_eq] at h0 ⊢
          split_ifs at h0 ⊢ <;> omega
        · have := hlt x hx
          omega
      · rcases hx with hx | hx
        · have := hle x hx
          omega
        · have := hlt x hx
          omega
    · rintro ⟨⟨n0, l0, r0⟩, ⟨n4, l4, r4⟩⟩
      refine ⟨fun x hx => (hleft o x).mpr ?_, fun x hx => .inl ?_, (ihl gl).mpr ⟨l0, l4⟩,
        (ihr gr).mpr ⟨r0, r4⟩⟩
      · have hb := bash_left hl x hx
        have h4 := fun h => n4 h x (.inl hx)
        rw [ruleOf_eq, ruleOf_eq] at h4 ⊢
        split_ifs at h4 ⊢ <;> omega
      · have hb := bash_right hr x hx
        have h0 := fun h => n0 h x (.inr hx)
        have h4 := fun h => n4 h x (.inr hx)
        show ruleOf x < ruleOf o
        rw [ruleOf_eq, ruleOf_eq] at h0 h4 ⊢
        split_ifs at h0 h4 ⊢ <;> omega

/-- The rules read a sequence as the tree that they group it by. -/
theorem arithmetics_infix {t : InfixExpr}
    (h : (sequenceWriting (ArithParser.arithmetics d)).grouping.Grouped t) :
    ArithParser.arithmetics (d + 1) (.num t.first :: tailTokens t.rest) =
      some ([astNode .arithmetic [infixNode t]], []) := by
  have hbelow : (sequenceWriting (ArithParser.arithmetics d)).grouping.Below 10 t := by
    intro o _
    exact o.op.rule_lt
  have hread := (sequenceWriting _).rule_reads 10 t h hbelow [] (fun p hp => by cases hp)
  rw [List.append_nil, valueOf_sequenceWriting] at hread
  replace hread : logicor (ArithParser.arithmetics d) (.num t.first :: tailTokens t.rest) =
    some ([infixNode t], []) := hread
  have harith : ArithParser.arithmetic (ArithParser.arithmetics d)
      (.num t.first :: tailTokens t.rest) = some ([infixNode t], []) := by
    unfold ArithParser.arithmetic
    rw [show assignmentTarget (ArithParser.arithmetics d) (.num t.first :: tailTokens t.rest) = none
      from rfl]
    simp only [hread]
    rfl
  have hstop : commaLayer.starts [] = false := rfl
  show ArithParser.arithmeticsRule (ArithParser.arithmetics d) _ = _
  refine Layer.rule_of_stop ?_ hstop
  rw [harith]
  rfl

/-- A tree that the rules return is grouped as they group. -/
theorem grouped_of_arithmetics {ts us : List ArithToken} {t : InfixExpr}
    (h : ArithParser.arithmetics (d + 1) ts = some ([astNode .arithmetic [infixNode t]], us)) :
    (sequenceWriting (ArithParser.arithmetics d)).grouping.Grouped t := by
  cases t with
  | leaf l => trivial
  | node o l r =>
    obtain ⟨w, ts', us', hw, harith⟩ := (arithmeticsRule_parts h).2 _ (List.mem_singleton.mpr rfl)
    cases hw
    have hne : ruleOfType o.op.type ≠ none := by
      rw [ruleOfType_type]
      exact Option.some_ne_none _
    obtain ⟨vs, hlogicor⟩ := arithmetic_operator harith hne
    rw [logicor_eq] at hlogicor
    exact (((sequenceWriting _).rule_grouped (faithful d) 10 hlogicor).2 _ (valueOf_sequenceWriting _ _)).1

end

/-- The sequence is parsed, and as bash groups it. -/
def ParsedAsBash (elsewhere : String → Except Exn (List AstNode)) (l : Literal)
    (tail : List (Occurrence × Literal)) : Prop :=
  ∃ t : InfixExpr, bashGrouping.Grouped t ∧ t.first = l ∧ t.rest = tail ∧
    parseArithmetics elsewhere (infixText l tail) = .ok [astNode .arithmetic [infixNode t]]

/-- A sequence is grouped as bash groups it if and only if a looser operator
stands between any two `**`, and between any two comparisons. -/
theorem sequence_grouped_iff (elsewhere : String → Except Exn (List AstNode)) (l : Literal)
    (tail : List (Occurrence × Literal)) :
    ParsedAsBash elsewhere l tail ↔
      Apart ruleOf 0 (tail.map Prod.fst) = true ∧ Apart ruleOf 4 (tail.map Prod.fst) = true := by
  obtain ⟨d, hparse⟩ := parseArithmetics_infixText elsewhere l tail
  have hiff {t : InfixExpr} (ht : bashGrouping.Grouped t) (hrest : t.rest = tail) :
      (sequenceWriting (ArithParser.arithmetics d)).grouping.Grouped t ↔
        Apart ruleOf 0 (tail.map Prod.fst) = true ∧ Apart ruleOf 4 (tail.map Prod.fst) = true := by
    rw [grouped_iff_nestFree d ht, nestFree_iff_apart (leveled_of_bash ht),
      nestFree_iff_apart (leveled_of_bash ht), InfixTree.ops, hrest]
  constructor
  · rintro ⟨t, ht, rfl, hrest, hnode⟩
    rw [hparse] at hnode
    have hgrouped : (sequenceWriting (ArithParser.arithmetics d)).grouping.Grouped t := by
      cases hresult : ArithParser.arithmetics (d + 1) (.num t.first :: tailTokens tail) with
      | none =>
        rw [hresult] at hnode
        cases hnode
      | some p =>
        obtain ⟨nodes, us⟩ := p
        rw [hresult] at hnode
        cases Except.ok.inj hnode
        exact grouped_of_arithmetics d hresult
    exact (hiff ht hrest).mp hgrouped
  · intro hapart
    have htotal (k : Nat) : bashGrouping.onLeft k = true ∨ bashGrouping.onRight k = true := by
      show (k != 0) = true ∨ (k == 0) = true
      cases k <;> simp
    obtain ⟨t, ht, hfirst, hrest⟩ := bashGrouping.exists_grouped htotal l tail
    refine ⟨t, ht, hfirst, hrest, ?_⟩
    have hread := arithmetics_infix d ((hiff ht hrest).mpr hapart)
    rw [hfirst, hrest] at hread
    rw [hparse, hread]
    rfl

/-- `1<2<3`. -/
def twoComparisons : List (Occurrence × Literal) :=
  [({ op := .binary .lessThan }, .ofNat 2), ({ op := .binary .lessThan }, .ofNat 3)]

theorem twoComparisons_not_parsed :
    ¬ ParsedAsBash (fun _ => .error .recognition) (.ofNat 1) twoComparisons := by
  rintro ⟨t, -, -, -, hnode⟩
  obtain ⟨d, hparse⟩ :=
    parseArithmetics_infixText (fun _ => .error .recognition) (.ofNat 1) twoComparisons
  rw [hparse] at hnode
  cases hnode

end Libbash
