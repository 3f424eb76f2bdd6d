import Libbash.Walker.ConditionTrees
import Libbash.Walker.WalkCorrect

/-!
# Conditions as they are walked

The rules `cond_expr`, `common_condition` and `keyword_condition` of
`libbashWalker.g` over a node stream. `keyword_condition` returns from its
middle when the right operand is not needed: it passes the operand and the
closing symbol by hand.

`Condition.value` is what a condition means: conjunctions are tried from the
left until one holds, and the primaries of a conjunction until one does not.
`followsOrOfAnds_iff` says that parsing and walking a test gives this value, and
when.
-/

namespace Libbash

open Lib Lib.Comp

/-- What the rules below `common_condition` do to a state. -/
structure ConditionSem (S : Type) where
  setStatus : Int → S → S
  /-- The value of `string_expr`. -/
  stringExpr : rawLeaves.Word → Comp Exn S String
  Pattern : Type
  /-- The pattern of `bash_pattern`. -/
  bashPattern : rawLeaves.Word → Comp Exn S Pattern
  isMatch : String → Pattern → Bool
  testBinary : String → String → String → Comp Exn S Bool
  testUnary : Char → String → Comp Exn S Bool
  matchRegularExpression : String → String → Comp Exn S Bool

/-- `get_char`. -/
def getChar (t : Token) : Char := t.text.toList.headD '\x00'

namespace Walker

variable {S : Type} (toks : NodeStream) (sem : ConditionSem S) (crash : Nat → S → Exn → Nat)

def stringExpr : Walk S String := leaf toks crash readWord (fun w => w.1.stream) sem.stringExpr

def bashPattern : Walk S sem.Pattern :=
  leaf toks crash readWord (fun w => w.1.stream) sem.bashPattern

/-- `^(ty left_str=string_expr right_str=string_expr)`. -/
def twoStrings (ty : TokenType) : Walk S (Token × String × String) := do
  let t ← matchToken toks ty
  matchDown toks
  let left ← stringExpr toks sem crash
  let right ← stringExpr toks sem crash
  matchUp toks
  pure (t, left, right)

/-- `^(ty left_str=string_expr bash_pattern[pattern, false])`. -/
def stringAndPattern (ty : TokenType) : Walk S Bool := do
  let _ ← matchToken toks ty
  matchDown toks
  let left ← stringExpr toks sem crash
  let pattern ← bashPattern toks sem crash
  matchUp toks
  pure (sem.isMatch left pattern)

def commonCondition : Walk S Bool := do
  match ← laType toks 1 with
  | some .name => do
    let (t, left, right) ← twoStrings toks sem crash .name
    action (sem.testBinary t.text left right)
  | some .letter => do
    let op ← matchToken toks .letter
    matchDown toks
    let target ← stringExpr toks sem crash
    matchUp toks
    action (sem.testUnary (getChar op) target)
  | some .equals => do
    let (_, left, right) ← twoStrings toks sem crash .equals
    pure (left == right)
  | some .matchPattern => stringAndPattern toks sem crash .matchPattern
  | some .notEquals => do
    let (_, left, right) ← twoStrings toks sem crash .notEquals
    pure (left != right)
  | some .notMatchPattern => do
    let matched ← stringAndPattern toks sem crash .notMatchPattern
    pure (!matched)
  | some .lessThan => do
    let (_, left, right) ← twoStrings toks sem crash .lessThan
    pure (decide (left < right))
  | some .greaterThan => do
    let (_, left, right) ← twoStrings toks sem crash .greaterThan
    pure (decide (right < left))
  | _ => do
    let value ← stringExpr toks sem crash
    pure (!value.isEmpty)

def keywordCondition : Nat → Walk S Bool
  | 0 => diverge
  | d + 1 => do
    match ← laType toks 1 with
    | some .logicOr => do
      let _ ← matchToken toks .logicOr
      matchDown toks
      let l ← keywordCondition d
      if l then do
        -- pass the right operand and the closing symbol
        seekToNextTree toks
        seek ((← index) + 1)
        pure true
      else do
        let r ← keywordCondition d
        matchUp toks
        pure (l || r)
    | some .logicAnd => do
      let _ ← matchToken toks .logicAnd
      matchDown toks
      let l ← keywordCondition d
      if !l then do
        seekToNextTree toks
        seek ((← index) + 1)
        pure false
      else do
        let r ← keywordCondition d
        matchUp toks
        pure (l && r)
    | some .negation => do
      let _ ← matchToken toks .negation
      matchDown toks
      let l ← keywordCondition d
      matchUp toks
      pure (!l)
    | some .matchRegularExpression => do
      let (_, left, right) ← twoStrings toks sem crash .matchRegularExpression
      action (sem.matchRegularExpression left right)
    | _ => commonCondition toks sem crash

/-- The alternative `KEYWORD_TEST` of `cond_expr`. -/
def condExpr (d : Nat) : Walk S Unit := do
  let _ ← matchToken toks .keywordTest
  matchDown toks
  let status ← keywordCondition toks sem crash d
  matchUp toks
  action (update (sem.setStatus (if status then 0 else 1)))

end Walker

/-! ## What a condition means -/

namespace Written

variable {S : Type} (sem : ConditionSem S)

/-- The word or pattern that the walker finds in the tree. -/
def word (lexemes : List Lexeme) : rawLeaves.Word := ⟨wordTree lexemes, rfl⟩

/-- A primary without connectives. -/
def Leaf.value : Leaf → Comp Exn S Bool
  | .unary op w => do
    let target ← sem.stringExpr (word w.lexemes)
    sem.testUnary op target
  | .string w => do
    let value ← sem.stringExpr (word w.lexemes)
    pure (!value.isEmpty)
  | .binary op _ _ left right => do
    let l ← sem.stringExpr (word left.lexemes)
    match op with
    | .matchRegularExpression => do
      let r ← sem.stringExpr (word right.lexemes)
      sem.matchRegularExpression l r
    | .named name => do
      let r ← sem.stringExpr (word right.lexemes)
      sem.testBinary name l r
    | .notMatchPattern => do
      let pattern ← sem.bashPattern (word right.lexemes)
      pure (!sem.isMatch l pattern)
    | .matchPattern => do
      let pattern ← sem.bashPattern (word right.lexemes)
      pure (sem.isMatch l pattern)
    | .equals => do
      let r ← sem.stringExpr (word right.lexemes)
      pure (l == r)
    | .lessThan => do
      let r ← sem.stringExpr (word right.lexemes)
      pure (decide (l < r))
    | .greaterThan => do
      let r ← sem.stringExpr (word right.lexemes)
      pure (decide (r < l))

mutual

def Primary.value : Primary → Comp Exn S Bool
  | .group _ c _ => c.value
  | .negation p => do
    let v ← p.value
    pure (!v)
  | .leaf l => l.value sem

/-- The primaries from the left, up to the first that does not hold. -/
def Conjunction.value : Conjunction → Comp Exn S Bool
  | .last p => p.value
  | .cons p _ _ rest => andAlso p.value rest.value

/-- The conjunctions from the left, up to the first that holds. -/
def Condition.value : Condition → Comp Exn S Bool
  | .last a => a.value
  | .cons a _ _ rest => orAlso a.value rest.value

end

/-- The status of a test. -/
def Test.run (t : Test) : Comp Exn S Unit := do
  let holds ← t.condition.value sem
  update (sem.setStatus (if holds then 0 else 1))

/-! ## The walker on one node -/

section Nodes

variable {toks : NodeStream} {sem} {crash : Nat → S → Exn → Nat} {i : Nat} {rest : NodeStream}

theorem stringExpr_moves (w : rawLeaves.Word) (h : OnTree toks i (w.1.stream ++ rest))
    (hrest : NoDown rest) :
    Moves i (i + w.1.stream.length) (Walker.stringExpr toks sem crash) (sem.stringExpr w) :=
  moves_leaf (fun w : rawLeaves.Word => w.1.stream) h (readWord_stream w hrest)

theorem bashPattern_moves (w : rawLeaves.Word) (h : OnTree toks i (w.1.stream ++ rest))
    (hrest : NoDown rest) :
    Moves i (i + w.1.stream.length) (Walker.bashPattern toks sem crash) (sem.bashPattern w) :=
  moves_leaf (fun w : rawLeaves.Word => w.1.stream) h (readWord_stream w hrest)

/-- `MATCHT(ty); MATCHT(DOWN)`, with the token kept. -/
theorem moves_openWith {α : Type} {t : Token} {cs : List AstNode} {f : Token → Walk S α}
    {m : Comp Exn S α} {j : Nat} (hcs : cs ≠ [])
    (h : OnTree toks i ((NodeTree.node t cs).stream ++ rest))
    (hk : OnTree toks (i + 2) (forestStream cs ++ .up :: rest) → Moves (i + 2) j (f t) m) :
    Moves i j (matchToken toks t.type >>= fun u => matchDown toks >>= fun _ => f u) m := by
  rw [stream_node hcs] at h
  simp only [List.cons_append, List.append_assoc, List.nil_append] at h
  exact moves_step t (fun s => matchToken_step s h)
    (moves_step () (fun s => matchDown_step s h.tail) (hk h.tail.tail))

theorem length_two (t : Token) (l r : AstNode) :
    (NodeTree.node t [l, r]).stream.length = 2 + l.stream.length + r.stream.length + 1 := by
  simp [stream_node_cons]
  omega

theorem length_one (t : Token) (l : AstNode) :
    (NodeTree.node t [l]).stream.length = 2 + l.stream.length + 1 := by
  simp [stream_node_cons]
  omega

/-- A node of two operands, read one after the other. -/
theorem moves_twoOperands {α β γ : Type} {t : Token} {l r : AstNode} {wl : Walk S α}
    {wr : Walk S β} {ml : Comp Exn S α} {mr : Comp Exn S β} (f : Token → α → β → γ)
    (h : OnTree toks i ((NodeTree.node t [l, r]).stream ++ rest))
    (hl : ∀ rest, OnTree toks (i + 2) (l.stream ++ rest) → NoDown rest →
      Moves (i + 2) (i + 2 + l.stream.length) wl ml)
    (hr : ∀ j rest, OnTree toks j (r.stream ++ rest) → NoDown rest →
      Moves j (j + r.stream.length) wr mr) :
    Moves i (i + (NodeTree.node t [l, r]).stream.length)
      (matchToken toks t.type >>= fun u => matchDown toks >>= fun _ => wl >>= fun a =>
        wr >>= fun b => matchUp toks >>= fun _ => pure (f u a b))
      (ml >>= fun a => mr >>= fun b => pure (f t a b)) := by
  rw [length_two]
  refine moves_openWith (by simp) h fun h => ?_
  simp only [forestStream_cons, forestStream_nil, List.append_nil, List.append_assoc] at h
  refine moves_bind (hl _ h (noDown_stream r _)) fun a => ?_
  refine moves_bind (hr _ _ h.advance (noDown_up rest)) fun b => ?_
  exact moves_up h.advance.advance ((moves_pure (f t a b)).to (by omega))

theorem twoStrings_moves {t : Token} (l r : rawLeaves.Word)
    (h : OnTree toks i ((NodeTree.node t [l.1, r.1]).stream ++ rest)) :
    Moves i (i + (NodeTree.node t [l.1, r.1]).stream.length)
      (Walker.twoStrings toks sem crash t.type)
      (sem.stringExpr l >>= fun a => sem.stringExpr r >>= fun b => pure (t, a, b)) :=
  moves_twoOperands (fun u a b => (u, a, b)) h (fun _ h hrest => stringExpr_moves l h hrest)
    (fun _ _ h hrest => stringExpr_moves r h hrest)

theorem stringAndPattern_moves {t : Token} (l r : rawLeaves.Word)
    (h : OnTree toks i ((NodeTree.node t [l.1, r.1]).stream ++ rest)) :
    Moves i (i + (NodeTree.node t [l.1, r.1]).stream.length)
      (Walker.stringAndPattern toks sem crash t.type)
      (sem.stringExpr l >>= fun a => sem.bashPattern r >>= fun b => pure (sem.isMatch a b)) :=
  moves_twoOperands (fun _ a b => sem.isMatch a b) h (fun _ h hrest => stringExpr_moves l h hrest)
    (fun _ _ h hrest => bashPattern_moves r h hrest)

end Nodes

/-! ## The walker on a condition -/

section Trees

variable {toks : NodeStream} {sem} {crash : Nat → S → Exn → Nat}

/-- With a large enough bound, `keyword_condition` on the tree does what `m`
does and ends right after it. -/
def Evaluates (toks : NodeStream) (sem : ConditionSem S) (crash : Nat → S → Exn → Nat)
    (t : AstNode) (m : Comp Exn S Bool) : Prop :=
  t.children ≠ [] ∧ ∃ bound, ∀ d, bound ≤ d → ∀ i rest, OnTree toks i (t.stream ++ rest) →
    NoDown rest → Moves i (i + t.stream.length) (Walker.keywordCondition toks sem crash d) m

/-- A rule that reads two words and then works on them. -/
theorem moves_thenStrings {i : Nat} {rest : NodeStream} {t : Token} (left right : List Lexeme)
    {k : Token × String × String → Walk S Bool} {f : Token × String × String → Comp Exn S Bool}
    (h : OnTree toks i ((NodeTree.node t [wordTree left, wordTree right]).stream ++ rest))
    (hk : ∀ j x, Moves j j (k x) (f x)) :
    Moves i (i + (NodeTree.node t [wordTree left, wordTree right]).stream.length)
      (Walker.twoStrings toks sem crash t.type >>= k)
      (sem.stringExpr (word left) >>= fun a => sem.stringExpr (word right) >>= fun b =>
        f (t, a, b)) := by
  have hread : Moves _ _ (Walker.twoStrings toks sem crash t.type) _ :=
    twoStrings_moves (word left) (word right) h
  have hall := moves_bind hread (fun x => hk _ x)
  simp only [bind_assoc, pure_bind] at hall
  exact hall

/-- A rule that matches a word against a pattern. -/
theorem moves_thenPattern {i : Nat} {rest : NodeStream} {t : Token} (left right : List Lexeme)
    (f : Bool → Bool)
    (h : OnTree toks i ((NodeTree.node t [wordTree left, wordTree right]).stream ++ rest)) :
    Moves i (i + (NodeTree.node t [wordTree left, wordTree right]).stream.length)
      (Walker.stringAndPattern toks sem crash t.type >>= fun matched => pure (f matched))
      (sem.stringExpr (word left) >>= fun a => sem.bashPattern (word right) >>= fun b =>
        pure (f (sem.isMatch a b))) := by
  have hread : Moves _ _ (Walker.stringAndPattern toks sem crash t.type) _ :=
    stringAndPattern_moves (word left) (word right) h
  have hall := moves_bind hread (fun x => moves_pure (f x))
  simp only [bind_assoc, pure_bind] at hall
  exact hall

/-- The root of a primary without connectives selects its alternative. -/
theorem Leaf.evaluates (l : Leaf) : Evaluates toks sem crash l.tree (l.value sem) := by
  refine ⟨?_, 1, fun d hd i rest h hrest => ?_⟩
  · cases l with
    | string w => simpa [Leaf.tree, wordTree, NodeTree.children] using w.nonempty
    | unary op w => simp [Leaf.tree, NodeTree.children]
    | binary op before after left right => simp [Leaf.tree, NodeTree.children]
  -- The alternative of the rule is chosen by the type of the root, for each operator its own.
  obtain ⟨d, rfl⟩ : ∃ k, d = k + 1 := ⟨d - 1, by omega⟩
  rw [Walker.keywordCondition]
  cases l with
  | string w =>
    refine moves_laType_node h (moves_laType_node h ?_)
    exact moves_bind (stringExpr_moves (word w.lexemes) h hrest) fun value => moves_pure _
  | unary op w =>
    refine moves_laType_node h (moves_laType_node h ?_)
    have hop : getChar ⟨.letter, op.toString⟩ = op := by
      simp [getChar, Char.toString]
    rw [Leaf.tree, length_one]
    refine moves_openWith (by simp) h fun h => ?_
    simp only [forestStream_cons, forestStream_nil, List.append_nil] at h
    refine moves_bind (stringExpr_moves (word w.lexemes) h (noDown_up rest)) fun target => ?_
    refine moves_up h.advance ?_
    rw [hop]
    exact (moves_action (sem.testUnary op target)).to (by simp only [word]; omega)
  | binary op before after left right =>
    cases op with
    | matchRegularExpression =>
      refine moves_laType_node h ?_
      exact moves_thenStrings left.lexemes right.lexemes h fun j x => moves_action _
    | named name =>
      refine moves_laType_node h (moves_laType_node h ?_)
      exact moves_thenStrings left.lexemes right.lexemes h fun j x => moves_action _
    | notMatchPattern =>
      refine moves_laType_node h (moves_laType_node h ?_)
      exact moves_thenPattern left.lexemes right.lexemes (!·) h
    | matchPattern =>
      refine moves_laType_node h (moves_laType_node h ?_)
      exact stringAndPattern_moves (word left.lexemes) (word right.lexemes) h
    | equals =>
      refine moves_laType_node h (moves_laType_node h ?_)
      exact moves_thenStrings left.lexemes right.lexemes h fun j x => moves_pure _
    | lessThan =>
      refine moves_laType_node h (moves_laType_node h ?_)
      exact moves_thenStrings left.lexemes right.lexemes h fun j x => moves_pure _
    | greaterThan =>
      refine moves_laType_node h (moves_laType_node h ?_)
      exact moves_thenStrings left.lexemes right.lexemes h fun j x => moves_pure _

namespace Evaluates

variable {l r : AstNode} {ml mr : Comp Exn S Bool}

/-- A right operand that is not needed is passed with the closing symbol. -/
theorem moves_passOperand {i j : Nat} {rest : NodeStream} (v : Bool) (hr : r.children ≠ [])
    (h : OnTree toks i (r.stream ++ .up :: rest)) (hj : i + r.stream.length + 1 = j) :
    Moves (S := S) i j (seekToNextTree toks >>= fun _ => index >>= fun p => seek (p + 1) >>=
      fun _ => pure v) (pure v) :=
  moves_skipTree hr h (moves_seekBy 1 ((moves_pure v).to hj))

/-- A right operand that is evaluated gives the value, and the closing symbol follows it. -/
theorem moves_evaluateOperand {d i j : Nat} {rest : NodeStream}
    (hr : Moves i (i + r.stream.length) (Walker.keywordCondition toks sem crash d) mr)
    (h : OnTree toks i (r.stream ++ .up :: rest)) (hj : i + r.stream.length + 1 = j) :
    Moves i j (Walker.keywordCondition toks sem crash d >>= fun r =>
      matchUp toks >>= fun _ => pure r) mr := by
  rw [← bind_pure mr]
  refine moves_bind hr fun v => ?_
  exact moves_up h.advance ((moves_pure v).to hj)

theorem logicAnd (hl : Evaluates toks sem crash l ml) (hr : Evaluates toks sem crash r mr) :
    Evaluates toks sem crash (.node ⟨.logicAnd, "&&"⟩ [l, r]) (andAlso ml mr) := by
  obtain ⟨-, boundL, hl⟩ := hl
  obtain ⟨hchildren, boundR, hr⟩ := hr
  refine ⟨by simp [NodeTree.children], boundL + boundR + 1, fun d hd i rest h hrest => ?_⟩
  obtain ⟨d, rfl⟩ : ∃ k, d = k + 1 := ⟨d - 1, by omega⟩
  rw [Walker.keywordCondition, length_two]
  refine moves_laType_node h (moves_openWith (by simp) h fun h => ?_)
  simp only [forestStream_cons, forestStream_nil, List.append_nil, List.append_assoc] at h
  refine moves_bind (hl d (by omega) _ _ h (noDown_stream r _)) fun v => ?_
  have hright := h.advance
  cases v with
  | false => exact moves_passOperand false hchildren hright (by omega)
  | true =>
    exact moves_evaluateOperand (hr d (by omega) _ _ hright (noDown_up rest)) hright (by omega)

theorem logicOr (hl : Evaluates toks sem crash l ml) (hr : Evaluates toks sem crash r mr) :
    Evaluates toks sem crash (.node ⟨.logicOr, "||"⟩ [l, r]) (orAlso ml mr) := by
  obtain ⟨-, boundL, hl⟩ := hl
  obtain ⟨hchildren, boundR, hr⟩ := hr
  refine ⟨by simp [NodeTree.children], boundL + boundR + 1, fun d hd i rest h hrest => ?_⟩
  obtain ⟨d, rfl⟩ : ∃ k, d = k + 1 := ⟨d - 1, by omega⟩
  rw [Walker.keywordCondition, length_two]
  refine moves_laType_node h (moves_openWith (by simp) h fun h => ?_)
  simp only [forestStream_cons, forestStream_nil, List.append_nil, List.append_assoc] at h
  refine moves_bind (hl d (by omega) _ _ h (noDown_stream r _)) fun v => ?_
  have hright := h.advance
  cases v with
  | true => exact moves_passOperand true hchildren hright (by omega)
  | false =>
    exact moves_evaluateOperand (hr d (by omega) _ _ hright (noDown_up rest)) hright (by omega)

theorem negation (hl : Evaluates toks sem crash l ml) :
    Evaluates toks sem crash (astNode .negation [l]) (ml >>= fun v => pure (!v)) := by
  obtain ⟨-, bound, hl⟩ := hl
  refine ⟨by simp [NodeTree.children], bound + 1, fun d hd i rest h hrest => ?_⟩
  obtain ⟨d, rfl⟩ : ∃ k, d = k + 1 := ⟨d - 1, by omega⟩
  rw [Walker.keywordCondition, length_one]
  refine moves_laType_node h (moves_openWith (by simp) h fun h => ?_)
  simp only [forestStream_cons, forestStream_nil, List.append_nil] at h
  refine moves_bind (hl d (by omega) _ _ h (noDown_up rest)) fun v => ?_
  exact moves_up h.advance ((moves_pure (!v)).to (by omega))

end Evaluates

mutual

theorem Primary.evaluates : (p : Primary) → Evaluates toks sem crash p.tree (p.value sem)
  | .group before c after => by
    rw [Primary.tree, Primary.value]
    exact c.evaluates
  | .negation p => by
    rw [Primary.tree, Primary.value]
    exact p.evaluates.negation
  | .leaf l => by
    rw [Primary.tree, Primary.value]
    exact l.evaluates

theorem Conjunction.evaluates : (a : Conjunction) → Evaluates toks sem crash a.tree (a.value sem)
  | .last p => by
    rw [Conjunction.tree, Conjunction.value]
    exact p.evaluates
  | .cons p _ _ rest => by
    rw [Conjunction.tree, Conjunction.value]
    exact rest.evaluatesFrom p.evaluates

/-- The tree leans to the left, the meaning to the right. -/
theorem Conjunction.evaluatesFrom {l : AstNode} {m : Comp Exn S Bool} :
    (a : Conjunction) → Evaluates toks sem crash l m →
      Evaluates toks sem crash (a.treeFrom l) (andAlso m (a.value sem))
  | .last p, h => by
    rw [Conjunction.treeFrom, Conjunction.value]
    exact h.logicAnd p.evaluates
  | .cons p _ _ rest, h => by
    rw [Conjunction.treeFrom, Conjunction.value, ← andAlso_assoc]
    exact rest.evaluatesFrom (h.logicAnd p.evaluates)

theorem Condition.evaluates : (c : Condition) → Evaluates toks sem crash c.tree (c.value sem)
  | .last a => by
    rw [Condition.tree, Condition.value]
    exact a.evaluates
  | .cons a _ _ rest => by
    rw [Condition.tree, Condition.value]
    exact rest.evaluatesFrom a.evaluates

theorem Condition.evaluatesFrom {l : AstNode} {m : Comp Exn S Bool} :
    (c : Condition) → Evaluates toks sem crash l m →
      Evaluates toks sem crash (c.treeFrom l) (orAlso m (c.value sem))
  | .last a, h => by
    rw [Condition.treeFrom, Condition.value]
    exact h.logicOr a.evaluates
  | .cons a _ _ rest, h => by
    rw [Condition.treeFrom, Condition.value, ← orAlso_assoc]
    exact rest.evaluatesFrom (h.logicOr a.evaluates)

end

variable (toks sem crash) in
/-- `cond_expr` sets the status and passes the test. -/
theorem Test.walks (t : Test) :
    ∃ bound, ∀ d, bound ≤ d → ∀ i rest, OnTree toks i (t.tree.stream ++ rest) →
      Moves i (i + t.tree.stream.length) (Walker.condExpr toks sem crash d) (t.run sem) := by
  obtain ⟨-, bound, hc⟩ : Evaluates toks sem crash t.condition.tree (t.condition.value sem) :=
    t.condition.evaluates
  refine ⟨bound, fun d hd i rest h => ?_⟩
  rw [Test.tree, length_one]
  refine moves_openWith (by simp) h fun h => ?_
  simp only [forestStream_cons, forestStream_nil, List.append_nil] at h
  refine moves_bind (hc d hd _ _ h (noDown_up rest)) fun holds => ?_
  exact moves_up h.advance ((moves_action _).to (by omega))

end Trees

/-! ## The property -/

/-- The text has a tree; wherever the tree stands in a stream, walking it gives
the value of the condition and the state and the status that go with it, and
leaves the cursor right after it. -/
def FollowsOrOfAnds (t : Test) : Prop :=
  ∃ tree, Parses t.tokens tree ∧ ∀ (S : Type) (sem : ConditionSem S) (crash : Nat → S → Exn → Nat)
    (pre post : NodeStream), ∃ bound, ∀ d, bound ≤ d → ∀ s,
      match t.condition.value sem s with
      | none => Walker.condExpr (pre ++ (tree.stream ++ post)) sem crash d ⟨pre.length, s⟩ = none
      | some (.ok holds, s') =>
        Walker.condExpr (pre ++ (tree.stream ++ post)) sem crash d ⟨pre.length, s⟩ =
          some (.ok (), ⟨pre.length + tree.stream.length,
            sem.setStatus (if holds then 0 else 1) s'⟩)
      | some (.error e, s') =>
        ∃ i, Walker.condExpr (pre ++ (tree.stream ++ post)) sem crash d ⟨pre.length, s⟩ =
          some (.error e, ⟨i, s'⟩)

/-- For every test: no group begins right after the parenthesis of another. -/
theorem followsOrOfAnds_iff (t : Test) : FollowsOrOfAnds t ↔ t.condition.spaced = true := by
  constructor
  · rintro ⟨tree, hparse, -⟩
    exact hparse.spaced.1
  · intro hspaced
    refine ⟨t.tree, parses_tree hspaced, fun S sem crash pre post => ?_⟩
    obtain ⟨bound, hwalk⟩ := t.walks sem (pre ++ (t.tree.stream ++ post)) crash
    refine ⟨bound, fun d hd s => ?_⟩
    have hmoves := hwalk d hd pre.length post (onTree_append pre _)
    have hat : At pre.length (⟨pre.length, s⟩ : Cursor S) s := ⟨rfl, rfl⟩
    cases hvalue : t.condition.value sem s with
    | none => exact hmoves.diverges hat (bind_of_none hvalue _)
    | some out =>
      obtain ⟨outcome, s'⟩ := out
      cases outcome with
      | ok holds =>
        have hrun : t.run sem s =
            some (.ok (), sem.setStatus (if holds then 0 else 1) s') := by
          rw [Test.run, bind_of_ok hvalue]
          rfl
        obtain ⟨u, ⟨p, s''⟩, hw, -, hp, hs⟩ := hmoves.finishes hat hrun
        cases hp
        cases hs
        exact hw
      | error e =>
        obtain ⟨⟨p, s''⟩, hw, hs⟩ := hmoves.raises hat (bind_of_error hvalue _)
        cases hs
        exact ⟨p, hw⟩

/-- The word `a`. -/
def wordA : FirstWord where
  lexemes := [.letter 'a']
  nonempty := List.cons_ne_nil _ _
  parts := by
    intro l hl
    obtain rfl := List.mem_singleton.mp hl
    rfl
  notBang := rfl
  notUnary := rfl

/-- `(c)`. -/
def parenthesized (c : Condition) : Condition := .last (.last (.group false c false))

/-- `[[ ((a)) ]]`. -/
def nestedGroups : Test where
  before := .blank
  moreBefore := []
  condition := parenthesized (parenthesized (.last (.last (.leaf (.string wordA)))))
  after := .blank
  moreAfter := []

/-- Of the two parentheses the lexer makes one token, and the text has no
tree. -/
theorem not_followsOrOfAnds_nestedGroups : ¬FollowsOrOfAnds nestedGroups := by
  rintro ⟨tree, hparse, -⟩
  have hspaced : nestedGroups.condition.spaced = true := hparse.spaced.1
  have hjoined : nestedGroups.condition.spaced = false := by
    simp [nestedGroups, parenthesized, Condition.spaced, Conjunction.spaced, Primary.spaced,
      Condition.startsGroup, Conjunction.startsGroup, Primary.startsGroup]
  rw [hjoined] at hspaced
  cases hspaced

end Written

end Libbash
