import Libbash.Arith.Nodes

/-!
# The arithmetic walk computes a reference evaluator

`FlatExpr` is an arithmetic tree each of whose operands is a single node.
`FlatExpr.eval` evaluates it from left to right on the variable store, by
structural recursion and with the meanings of `Operators`; it describes the
states in which every variable it reads is unset, empty or a decimal number of
magnitude below `2 ^ 31`, and is `none` for the others.
`arithmetics_follows_eval` proves that the walker rule, with its cursor, its
skips and the re-parsing of the text of every variable, does the same.
-/

namespace Libbash.Arith

open Lib Lib.Comp

/-- An arithmetic tree whose operands are single nodes. -/
inductive FlatExpr where
  | num (l : Literal)
  | var (x : String)
  | unary (op : UnaryOp) (e : FlatExpr)
  | binary (op : BinaryOp) (l r : FlatExpr)
  | logic (op : LogicOp) (l r : FlatExpr)
  | equals (x : String) (e : FlatExpr)
  | assign (op : AssignOp) (x : String) (e : FlatExpr)

/-- The tree that the parser builds. -/
def FlatExpr.tree : FlatExpr → AstNode
  | num l => l.node
  | var x => varNode x
  | unary op e => astNode op.type [e.tree]
  | binary op l r => astNode op.type [l.tree, r.tree]
  | logic op l r => astNode op.type [l.tree, r.tree]
  | equals x e => astNode .equals [nameNode x, e.tree]
  | assign op x e => astNode op.type [nameNode x, e.tree]

/-! ## The reference evaluator -/

/-- The text of a variable; an unset one is empty. -/
def variableText (x : String) (s : Store) : String :=
  match s.resolveVariable x with
  | none => ""
  | some v => v.getValueString 0

/-- The value of a variable with a given text. -/
def textValue (text : String) : Comp Exn Store Int64 :=
  if text.isEmpty then pure 0
  else
    match numeral? text with
    | some n => pure (.ofInt n)
    | none => diverge

def readVariable (x : String) : Comp Exn Store Int64 := do
  let text ← reads (variableText x)
  textValue text

/-- A value that may be undefined. -/
def defined : Option Int64 → Comp Exn Store Int64
  | some v => pure v
  | none => diverge

/-- Left-to-right evaluation. -/
def FlatExpr.eval : FlatExpr → Comp Exn Store Int64
  | num l => if l.decimal < 2 ^ 31 then pure (.ofNat l.decimal) else diverge
  | var x => readVariable x
  | unary op e => do
    let l ← e.eval
    pure (op.apply l)
  | binary op l r => do
    let l ← l.eval
    let r ← r.eval
    defined (op.apply l r)
  | logic op l r => do
    let l ← l.eval
    if op.short l then pure op.shortValue
    else do
      let r ← r.eval
      pure (ofBool (r != 0))
  | equals x e => do
    let l ← e.eval
    setNumber x l 0
  | assign op x e => do
    let l ← e.eval
    let old ← readVariable x
    let new ← defined (op.binary.apply old l)
    setNumber x new 0

/-! ## Literals and numerals -/

/-- How deep the rules nest in a walk of the tree. -/
def FlatExpr.nesting : FlatExpr → Nat
  | num _ => 1
  | var _ => 4
  | unary _ e => e.nesting + 1
  | binary _ l r => max l.nesting r.nesting + 1
  | logic _ l r => max l.nesting r.nesting + 1
  | equals _ e => e.nesting + 1
  | assign _ _ e => e.nesting + 1

variable {env : ArithEnv} {toks : NodeStream} {i d : Nat} {rest : NodeStream}

theorem parseInteger_eq (hint : ReadsDecimals env.toInt32) {l : Literal}
    (hl : l.decimal < 2 ^ 31) : parseInteger env l.token = .ofNat l.decimal := by
  rw [← Int64.toInt_inj]
  show (env.toInt32 l.text).toInt64.toInt = _
  rw [Int32.toInt_toInt64, hint l hl, ← Int64.ofInt_eq_ofNat,
    Int64.toInt_ofInt_of_le (by omega) (by omega)]

theorem literal_arithmetics (l : Literal) (h : OnTree toks i (l.node.stream ++ rest)) :
    Follows i (i + l.node.stream.length) (arithmetics env (d + 1) toks)
      (pure (parseInteger env l.token)) := by
  refine follows_arithmetics h ?_ (literal_follows l h)
  show l.token.type ≠ .arithmetic
  rcases l.token_type with ht | ht <;> simp [ht]

/-- What the tree of a number evaluates to: `parse_integer` reads its digits. -/
def numeralValue (env : ArithEnv) (n : Int) : Int64 :=
  if n < 0 then -parseInteger env (Literal.ofNat n.natAbs).token
  else parseInteger env (Literal.ofNat n.natAbs).token

theorem numeral_follows {n : Int} (h : OnTree toks i ((numeralNode n).stream ++ rest)) :
    Follows i (i + (numeralNode n).stream.length) (arithmetics env (d + 2) toks)
      (pure (numeralValue env n)) := by
  by_cases hneg : n < 0
  · rw [numeralNode, if_pos hneg] at h ⊢
    rw [numeralValue, if_pos hneg]
    have hnum : ∀ {j : Nat} {rest : NodeStream},
        OnTree toks j (forestStream [(Literal.ofNat n.natAbs).node] ++ rest) →
          Follows j (j + (forestStream [(Literal.ofNat n.natAbs).node]).length)
            (arithmetics env (d + 1) toks)
            (pure (parseInteger env (Literal.ofNat n.natAbs).token)) := by
      intro j rest hkids
      rw [forestStream_singleton] at hkids ⊢
      exact literal_arithmetics _ hkids
    have hunary := unaryNode_follows (f := UnaryOp.minusSign.act) (List.cons_ne_nil _ _) h hnum
    rw [pure_bind] at hunary
    exact follows_arithmetics h (by simp [NodeTree.label]) hunary
  · rw [numeralNode, if_neg hneg] at h ⊢
    rw [numeralValue, if_neg hneg]
    exact literal_arithmetics _ h

theorem numeralValue_eq (hint : ReadsDecimals env.toInt32) {n : Int} (hn : n.natAbs < 2 ^ 31) :
    numeralValue env n = Int64.ofInt n := by
  have hval : parseInteger env (Literal.ofNat n.natAbs).token = Int64.ofInt n.natAbs := by
    rw [parseInteger_eq hint (by simpa using hn), Literal.decimal_ofNat, Int64.ofInt_eq_ofNat]
  unfold numeralValue
  rw [hval]
  split
  · rw [← Int64.ofInt_neg]
    congr 1
    omega
  · congr 1
    omega

/-- The tree of a number evaluates to the number. -/
theorem numeral_arithmetics (hint : ReadsDecimals env.toInt32) {n : Int} (hn : n.natAbs < 2 ^ 31)
    (h : OnTree toks i ((numeralNode n).stream ++ rest)) :
    Follows i (i + (numeralNode n).stream.length) (arithmetics env (d + 2) toks)
      (pure (Int64.ofInt n)) := by
  rw [← numeralValue_eq hint hn]
  exact numeral_follows h

/-! ## Variables -/

theorem walkStream_of_follows {j : Nat} {w : Walk Store Int64} {m : Comp Exn Store Int64}
    (h : Follows 0 j w m) {s t : Store} {r : Except Exn Int64} (hm : m s = some (r, t)) :
    walkStream w s = some (r, t) := by
  obtain ⟨p, hw, -⟩ := h s r t hm
  simp only [walkStream, hw]

/-- One `ARITHMETIC` node, walked by `arithmetics`. -/
theorem single_part {t : AstNode} {m : Comp Exn Store Int64}
    (h : OnTree toks i ((astNode .arithmetic [t]).stream ++ rest)) (hrest : NoPart rest)
    (ht : OnTree toks (i + 2) (t.stream ++ .up :: rest) →
      Follows (i + 2) (i + 2 + t.stream.length) (arithmetics env d toks) m) :
    Follows i (i + (astNode .arithmetic [t]).stream.length) (arithmetics env (d + 1) toks) m := by
  have hpart : Follows i (i + (astNode .arithmetic [t]).stream.length)
      (arithmeticPart toks (arithmetics env d toks)) m := by
    refine arithmeticPart_follows (List.cons_ne_nil _ _) h fun hkids => ?_
    rw [forestStream_singleton] at hkids ⊢
    exact ht hkids
  have hla : ∀ s : Store, laIs toks .arithmetic ⟨i, s⟩ = some (.ok true, ⟨i, s⟩) := by
    intro s
    rw [laIs_arithmetic_step s h.root]
    rfl
  obtain ⟨n, hn⟩ : ∃ n, toks.length = n + 1 :=
    Nat.exists_eq_succ_of_ne_zero fun h0 => by
      have := h.length_le
      rw [stream_eq_cons] at this
      simp only [List.cons_append, List.length_cons] at this
      omega
  rw [← bind_pure m]
  refine follows_step true hla (follows_bind hpart fun v _ _ _ => ?_)
  rw [hn]
  exact moreParts_stop v h.advance hrest

/-- A text that is parsed to one part evaluates as the tree in it. -/
theorem evalArithmetic_part {text : String} {t : AstNode} {m : Comp Exn Store Int64}
    (hparse : env.parse text = .ok [astNode .arithmetic [t]])
    (ht : ∀ toks rest, OnTree toks 2 (t.stream ++ .up :: rest) →
      Follows 2 (2 + t.stream.length) (arithmetics env d toks) m)
    {s u : Store} {r : Except Exn Int64} (hm : m s = some (r, u)) :
    evalArithmetic env (d + 1) text s = some (r, u) := by
  rw [evalArithmetic, evalText, hparse]
  have h : OnTree (forestStream [astNode .arithmetic [t]]) 0
      ((astNode .arithmetic [t]).stream ++ []) := by
    rw [forestStream_singleton, List.append_nil]
    rfl
  have hwalk : Follows 0 (0 + (astNode .arithmetic [t]).stream.length)
      (arithmetics env (d + 1) (forestStream [astNode .arithmetic [t]])) m :=
    single_part h noPart_nil fun hkids => ht _ _ hkids
  exact walkStream_of_follows hwalk hm

/-- The text of a number is parsed and walked back. -/
theorem evalArithmetic_numeral {n : Int}
    (hparse : env.parse (toString n) = .ok [astNode .arithmetic [numeralNode n]]) :
    evalArithmetic env (d + 3) (toString n) = pure (numeralValue env n) := by
  funext s
  exact evalArithmetic_part hparse (fun _ _ hkids => numeral_follows hkids) rfl

/-- The text of a variable that holds a number is parsed and walked back to
that number. -/
theorem evalArithmetic_toString (hint : ReadsDecimals env.toInt32)
    (hparse : ParsesNumerals env.parse) {n : Int} (hn : n.natAbs < 2 ^ 31) :
    evalArithmetic env (d + 3) (toString n) = pure (Int64.ofInt n) := by
  rw [evalArithmetic_numeral (hparse n hn), numeralValue_eq hint hn]

theorem resolve_eq {α : Type} (hu : env.nounset = false) (get : Variable → UInt32 → α)
    (default : α) (x : String) (s : Store) : resolve env get default x 0 s =
      some (.ok (match s.resolveVariable x with
        | none => default
        | some v => get v 0), s) := by
  unfold resolve
  simp only [reads_bind_apply, id_eq, hu, Bool.false_and, Bool.false_eq_true, if_false]
  cases s.resolveVariable x <;> rfl

/-- The values that a variable may have where the evaluator describes it. -/
theorem textValue_cases (text : String) {s t : Store} {r : Except Exn Int64}
    (h : textValue text s = some (r, t)) :
    (text = "" ∧ (pure 0 : Comp Exn Store Int64) s = some (r, t)) ∨
      ∃ n, numeral? text = some n ∧
        (pure (Int64.ofInt n) : Comp Exn Store Int64) s = some (r, t) := by
  unfold textValue at h
  by_cases hempty : text.isEmpty
  · rw [if_pos hempty] at h
    exact .inl ⟨String.isEmpty_iff.mp hempty, h⟩
  · rw [if_neg hempty] at h
    cases hn : numeral? text with
    | none => rw [hn] at h; cases h
    | some n => rw [hn] at h; exact .inr ⟨n, rfl, h⟩

/-- A variable that is an operand. -/
theorem primaryValue_eq (hint : ReadsDecimals env.toInt32) (hparse : ParsesNumerals env.parse)
    (hu : env.nounset = false) {x : String} {s t : Store} {r : Except Exn Int64}
    (h : readVariable x s = some (r, t)) :
    primaryValue env (evalArithmetic env (d + 3)) x 0 s = some (r, t) := by
  have htext : resolveString env x 0 s = some (.ok (variableText x s), s) :=
    resolve_eq hu Variable.getValueString "" x s
  unfold primaryValue
  rw [bind_of_ok htext]
  rcases textValue_cases (variableText x s) h with ⟨hempty, hr⟩ | ⟨n, hn, hr⟩
  · rwa [hempty]
  · obtain ⟨hcanon, hlt⟩ := numeral?_eq_some hn
    have hne : ¬ (toString n).isEmpty = true := by
      rw [String.isEmpty_iff]
      exact toString_ne_empty n
    rwa [hcanon, if_neg hne, evalArithmetic_toString hint hparse hlt]

/-- A number that is read as `long` is the number that its text denotes. -/
theorem toLong_eq {value : Value} {n : Int} (h : numeral? value.toStr = some n) :
    value.toLong = .ofInt n := by
  obtain ⟨htext, hlt⟩ := numeral?_eq_some h
  cases value with
  | str text =>
    have ht : text = toString n := htext
    rw [Value.toLong, ht, lexicalCastLong_toString hlt]
    rfl
  | num v =>
    have hv : v.toInt = n := by
      rw [← signedDecimal_toString v.toInt, ← signedDecimal_toString n, ← htext]
      rfl
    rw [Value.toLong, ← hv, Int64.ofInt_toInt]

theorem toLong_of_empty {value : Value} (h : value.toStr = "") : value.toLong = 0 := by
  cases value with
  | str text =>
    have ht : text = "" := h
    rw [Value.toLong, ht]
    rfl
  | num v => exact absurd h (toString_ne_empty v.toInt)

/-- The target of a compound assignment. -/
theorem resolveLong_eq (hu : env.nounset = false) {x : String} {s t : Store}
    {r : Except Exn Int64} (h : readVariable x s = some (r, t)) :
    resolveLong env x 0 s = some (r, t) := by
  rw [resolveLong, resolve_eq hu Variable.getValueLong 0 x s]
  have hcases := textValue_cases (variableText x s) h
  unfold variableText at hcases
  cases hv : s.resolveVariable x with
  | none =>
    rw [hv] at hcases
    rcases hcases with ⟨-, hr⟩ | ⟨n, hn, -⟩
    · exact hr
    · cases hn
  | some v =>
    simp only [hv, Variable.getValueString] at hcases
    simp only [Variable.getValueLong]
    cases hvalue : v.value[(0 : UInt32)]? with
    | none =>
      rw [hvalue] at hcases
      rcases hcases with ⟨-, hr⟩ | ⟨n, hn, -⟩
      · exact hr
      · cases hn
    | some value =>
      rw [hvalue] at hcases
      rcases hcases with ⟨hempty, hr⟩ | ⟨n, hn, hr⟩
      · simp only [toLong_of_empty hempty]
        exact hr
      · simp only [toLong_eq hn]
        exact hr

/-! ## The walk -/

theorem defined_act {op : BinaryOp} {l r : Int64} {s t : Store} {out : Except Exn Int64}
    (h : defined (op.apply l r) s = some (out, t)) : op.act l r s = some (out, t) := by
  cases hv : op.apply l r with
  | none => rw [hv] at h; cases h
  | some v =>
    rw [hv] at h
    rwa [BinaryOp.act_of_apply hv]

/-- Replace what follows `m` by what it is at least as defined as. -/
theorem bind_mono {α : Type} {n : Comp Exn Store α} {f g : α → Comp Exn Store Int64} {s t : Store}
    {r : Except Exn Int64} (hfg : ∀ a s r t, f a s = some (r, t) → g a s = some (r, t))
    (h : (n >>= f) s = some (r, t)) : (n >>= g) s = some (r, t) := by
  rcases bind_cases h with ⟨a, s₁, h₁, h₂⟩ | ⟨e, h₁, rfl⟩
  · rw [bind_of_ok h₁]
    exact hfg a s₁ r t h₂
  · exact bind_of_error h₁ g

theorem updateVariable_eq (hu : env.nounset = false) {op : AssignOp} {x : String} {l : Int64}
    {s t : Store} {r : Except Exn Int64}
    (h : (readVariable x >>= fun old => defined (op.binary.apply old l) >>= fun new =>
      setNumber x new 0) s = some (r, t)) :
    updateVariable env op.binary.act x 0 l s = some (r, t) := by
  unfold updateVariable
  rcases bind_cases h with ⟨old, s₁, h₁, h₂⟩ | ⟨e, h₁, rfl⟩
  · rw [bind_of_ok (resolveLong_eq hu h₁)]
    rcases bind_cases h₂ with ⟨new, s₂, h₃, h₄⟩ | ⟨e, h₃, rfl⟩
    · rwa [bind_of_ok (defined_act h₃)]
    · exact bind_of_error (defined_act h₃) _
  · exact bind_of_error (resolveLong_eq hu h₁) _

theorem FlatExpr.tree_type (e : FlatExpr) : e.tree.label.type ≠ .arithmetic := by
  cases e with
  | num l =>
    show l.token.type ≠ .arithmetic
    rcases l.token_type with ht | ht <;> simp [ht]
  | var x => simp [tree, NodeTree.label]
  | unary op e => cases op <;> simp [tree, NodeTree.label, UnaryOp.type]
  | binary op l r => cases op <;> simp [tree, NodeTree.label, BinaryOp.type]
  | logic op l r => cases op <;> simp [tree, NodeTree.label, LogicOp.type]
  | equals x e => simp [tree, NodeTree.label]
  | assign op x e => cases op <;> simp [tree, NodeTree.label, AssignOp.type]

/-- Walking an arithmetic tree of single-node operands does what the reference
evaluator does: the same value or exception and the same variables, and the
cursor one past the tree. -/
theorem arithmetics_follows_eval (hint : ReadsDecimals env.toInt32)
    (hparse : ParsesNumerals env.parse) (hu : env.nounset = false) (e : FlatExpr)
    (h : OnTree toks i (e.tree.stream ++ rest)) (hd : e.nesting ≤ d) :
    Follows i (i + e.tree.stream.length) (arithmetics env d toks) e.eval := by
  induction e generalizing i rest d with
  | num l =>
    simp only [FlatExpr.nesting] at hd
    obtain ⟨d, rfl⟩ : ∃ k, d = k + 1 := ⟨d - 1, by omega⟩
    refine (literal_arithmetics l h).weaken fun s r t hr => ?_
    rw [FlatExpr.eval] at hr
    by_cases hl : l.decimal < 2 ^ 31
    · rw [if_pos hl] at hr
      rwa [parseInteger_eq hint hl]
    · rw [if_neg hl] at hr
      cases hr
  | var x =>
    simp only [FlatExpr.nesting] at hd
    obtain ⟨d, rfl⟩ : ∃ k, d = k + 4 := ⟨d - 4, by omega⟩
    refine follows_arithmetics h (FlatExpr.tree_type (.var x)) ?_
    exact (varNode_follows h).weaken fun s r t hr => primaryValue_eq hint hparse hu hr
  | unary op e ih =>
    simp only [FlatExpr.nesting] at hd
    obtain ⟨d, rfl⟩ : ∃ k, d = k + 1 := ⟨d - 1, by omega⟩
    have hd' : e.nesting ≤ d := by omega
    refine follows_arithmetics h (FlatExpr.tree_type (.unary op e)) ?_
    show Follows i _ (alternative _ _ _ _ (some op.type)) _
    rw [alternative_unary]
    have hnode := unaryNode_follows (f := op.act) (List.cons_ne_nil _ _) h fun hkids => by
      rw [forestStream_singleton] at hkids ⊢
      exact ih hkids hd'
    simp only [UnaryOp.act_eq_apply] at hnode
    exact hnode
  | binary op l r ihl ihr =>
    simp only [FlatExpr.nesting] at hd
    obtain ⟨d, rfl⟩ : ∃ k, d = k + 1 := ⟨d - 1, by omega⟩
    have hdl : l.nesting ≤ d := by omega
    have hdr : r.nesting ≤ d := by omega
    refine follows_arithmetics h (FlatExpr.tree_type (.binary op l r)) ?_
    show Follows i _ (alternative _ _ _ _ (some op.type)) _
    rw [alternative_binary]
    have hnode := binaryNode_follows (f := op.act) (List.cons_ne_nil l.tree []) h
      (fun hl => by
        rw [forestStream_singleton] at hl ⊢
        exact ihl hl hdl)
      (fun hr => by
        rw [forestStream_singleton] at hr ⊢
        rw [forestStream_singleton] at hr ⊢
        exact ihr hr hdr)
    refine hnode.weaken fun s out t hr => ?_
    refine bind_mono (fun lv s out t hr => ?_) hr
    exact bind_mono (fun rv s out t hr => defined_act hr) hr
  | logic op l r ihl ihr =>
    simp only [FlatExpr.nesting] at hd
    obtain ⟨d, rfl⟩ : ∃ k, d = k + 1 := ⟨d - 1, by omega⟩
    have hdl : l.nesting ≤ d := by omega
    have hdr : r.nesting ≤ d := by omega
    refine follows_arithmetics h (FlatExpr.tree_type (.logic op l r)) ?_
    show Follows i _ (alternative _ _ _ _ (some op.type)) _
    rw [alternative_logic]
    refine logicNode_follows (List.cons_ne_nil l.tree []) h (fun hl => ?_)
      fun hr lv s t _ => ?_
    · rw [forestStream_singleton] at hl ⊢
      exact ihl hl hdl
    · rw [forestStream_singleton] at hr ⊢
      rw [forestStream_singleton] at hr ⊢
      -- the left value decides between the skip and the walk of the right operand
      cases op.short lv with
      | true => exact logicRight_short hr (noDown_up rest)
      | false => exact logicRight_long (ihr hr hdr)
  | equals x e ih =>
    simp only [FlatExpr.nesting] at hd
    obtain ⟨d, rfl⟩ : ∃ k, d = k + 1 := ⟨d - 1, by omega⟩
    have hd' : e.nesting ≤ d := by omega
    refine follows_arithmetics h (FlatExpr.tree_type (.equals x e)) ?_
    exact assignment_follows (fun x index l => setNumber x l index)
      (List.cons_ne_nil _ _) h fun hr => by
        rw [forestStream_singleton] at hr ⊢
        exact ih hr hd'
  | assign op x e ih =>
    simp only [FlatExpr.nesting] at hd
    obtain ⟨d, rfl⟩ : ∃ k, d = k + 1 := ⟨d - 1, by omega⟩
    have hd' : e.nesting ≤ d := by omega
    refine follows_arithmetics h (FlatExpr.tree_type (.assign op x e)) ?_
    show Follows i _ (alternative _ _ _ _ (some op.type)) _
    rw [alternative_assign]
    have hoperand : OnTree toks (i + 3) (forestStream [e.tree] ++ .up :: rest) →
        Follows (i + 3) (i + 3 + (forestStream [e.tree]).length) (arithmetics env d toks)
          e.eval := by
      intro hr
      rw [forestStream_singleton] at hr ⊢
      exact ih hr hd'
    refine (assignment_follows (updateVariable env op.binary.act) (List.cons_ne_nil _ _) h
      hoperand).weaken fun s out t hr => ?_
    exact bind_mono (fun lv s out t hr => updateVariable_eq hu hr) hr

/-! ## Concrete surroundings -/

/-- `toInt32` on the digits of a number. -/
def decimalToInt32 (text : String) : Int32 := .ofNat (Nat.ofDigitChars 10 text.toList 0)

/-- The parser on the text of a number. -/
def parseNumeral (text : String) : Except Exn (List AstNode) :=
  match numeral? text with
  | some n => .ok [astNode .arithmetic [numeralNode n]]
  | none => .error (.error .parse "Something wrong happened while parsing")

/-- Surroundings for trees without expansions. -/
def numeralEnv : ArithEnv where
  toInt32 := decimalToInt32
  parse := parseNumeral
  varRef _ := throw .recognition
  varExpansion _ := throw .recognition
  nounset := false

theorem readsDecimals_numeralEnv : ReadsDecimals numeralEnv.toInt32 := by
  intro l hl
  show (decimalToInt32 l.text).toInt = l.decimal
  have htext : l.text.toList = l.digits := String.toList_ofList
  rw [decimalToInt32, htext, ← Int32.ofInt_eq_ofNat]
  change Nat.ofDigitChars 10 l.digits 0 < 2 ^ 31 at hl
  exact Int32.toInt_ofInt_of_le (by omega) (by omega)

theorem parsesNumerals_numeralEnv : ParsesNumerals numeralEnv.parse := by
  intro n hn
  show parseNumeral (toString n) = _
  rw [parseNumeral, numeral?_toString hn]

/-- `x -= 7 || (y = 2)`, whose assignment to `y` is skipped when `x` is 5. -/
def skippingExpr : FlatExpr :=
  .logic .logicOr (.assign .minusAssign "x" (.num (.ofNat 7))) (.equals "y" (.num (.ofNat 2)))

def fiveStore : Store := ⟨(∅ : Scope).insert "x" (.new "x" (.scalar (.str "5") 0) false), []⟩

theorem onTree_self (t : AstNode) : OnTree t.stream 0 (t.stream ++ []) := (List.append_nil _).symm

/-- The evaluator describes this run, in which nothing is assigned to `y`. -/
theorem arithmetics_follows_eval_skippingExpr :
    (skippingExpr.eval fiveStore).isSome = true ∧
      Follows 0 (0 + skippingExpr.tree.stream.length)
        (arithmetics numeralEnv 3 skippingExpr.tree.stream) skippingExpr.eval :=
  ⟨rfl, arithmetics_follows_eval readsDecimals_numeralEnv parsesNumerals_numeralEnv rfl
    skippingExpr (onTree_self _) (by decide)⟩

end Libbash.Arith
