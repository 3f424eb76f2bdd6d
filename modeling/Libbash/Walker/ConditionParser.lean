import Libbash.Walker.Token

/-!
# Conditions as they are parsed

The rules `condition_expr` to `bash_pattern_part` of `bashast.g`, with
look-ahead instead of backtracking. A quoted string, an expansion, a bracket
pattern and any other character of a word are read by rules of their own, which
begin with a token of their own; here each of them is one `part`.

`Condition` is what stands between `[[` and `]]`, blanks included. The parser
has to find its tree (`parse_condition`); it does so unless the lexer takes two
parentheses for one token.
-/

namespace Libbash

open Lib

/-- A token, or what another rule reads as one part of a word or pattern. -/
inductive Lexeme where
  | tok (t : Token)
  | part (t : AstNode)

namespace Lexeme

/-- The type of a token. -/
def type? : Lexeme → Option TokenType
  | .tok t => some t.type
  | .part _ => none

/-- The tree of one token or part. -/
def leaf : Lexeme → AstNode
  | .tok t => .node t []
  | .part t => t

abbrev blank : Lexeme := .tok ⟨.blank, " "⟩
abbrev eol : Lexeme := .tok ⟨.eol, "\n"⟩
abbrev lparen : Lexeme := .tok ⟨.lparen, "("⟩
abbrev llparen : Lexeme := .tok ⟨.llparen, "(("⟩
abbrev rparen : Lexeme := .tok ⟨.rparen, ")"⟩
abbrev lsquare : Lexeme := .tok ⟨.lsquare, "["⟩
abbrev rsquare : Lexeme := .tok ⟨.rsquare, "]"⟩
abbrev bang : Lexeme := .tok ⟨.bang, "!"⟩
abbrev minus : Lexeme := .tok ⟨.minus, "-"⟩
abbrev equals : Lexeme := .tok ⟨.equals, "="⟩
abbrev tilde : Lexeme := .tok ⟨.tilde, "~"⟩
abbrev lessThan : Lexeme := .tok ⟨.lessThan, "<"⟩
abbrev greaterThan : Lexeme := .tok ⟨.greaterThan, ">"⟩
abbrev logicAnd : Lexeme := .tok ⟨.logicAnd, "&&"⟩
abbrev logicOr : Lexeme := .tok ⟨.logicOr, "||"⟩
abbrev name (text : String) : Lexeme := .tok ⟨.name, text⟩
abbrev letter (op : Char) : Lexeme := .tok ⟨.letter, op.toString⟩

/-- The tokens of `string_expr_part`. -/
def isStringPart : Lexeme → Bool
  | .part _ => true
  | .tok t =>
    match t.type with
    | .name | .letter | .bang | .minus | .equals | .tilde | .lsquare | .rsquare => true
    | _ => false

def isSpace (l : Lexeme) : Bool := l.type? == some .blank || l.type? == some .eol

def isLparen (l : Lexeme) : Bool := l.type? == some .lparen

end Lexeme

/-! ## The rules of the parser -/

namespace ConditionParser

/-- One token of a type. -/
def readToken (ty : TokenType) : List Lexeme → Option (Token × List Lexeme)
  | .tok t :: ts => if t.type = ty then some (t, ts) else none
  | _ => none

/-- The next tokens have these types. -/
def startsWith (tys : List TokenType) (ts : List Lexeme) : Bool :=
  (ts.take tys.length).map Lexeme.type? == tys.map some

/-- `BLANK!?`. -/
def skipBlank (ts : List Lexeme) : List Lexeme :=
  if startsWith [.blank] ts then ts.drop 1 else ts

/-- `wspace!?`. -/
def skipSpace (ts : List Lexeme) : List Lexeme := ts.dropWhile Lexeme.isSpace

/-- `wspace`. -/
def readSpace (ts : List Lexeme) : Option (Unit × List Lexeme) :=
  match ts.head? with
  | some l => if l.isSpace then some ((), skipSpace ts) else none
  | none => none

/-- `string_expr_part+`, and the tree of `string_expr`. -/
def conditionPart (ts : List Lexeme) : Option (AstNode × List Lexeme) :=
  match ts.takeWhile Lexeme.isStringPart with
  | [] => none
  | parts => some (astNode .string (parts.map Lexeme.leaf), ts.dropWhile Lexeme.isStringPart)

/-- `^(STRING extended_pattern_match+)`. -/
def extendedPattern (ts : List Lexeme) : Option (AstNode × List Lexeme) := conditionPart ts

/-- `parens` after one more token of `bash_pattern_part`, when it is one. -/
def patternStep (parens : Nat) (l : Lexeme) : Option Nat :=
  match l.type? with
  | some .lparen => some (parens + 1)
  | some .llparen => some (parens + 2)
  | some .rparen => if parens ≠ 0 then some (parens - 1) else none
  | some .blank | some .eol | some .logicAnd | some .logicOr => none
  | _ => some parens

/-- The loop of `bash_pattern_part`. -/
def patternTokens : Nat → List Lexeme → List AstNode × List Lexeme
  | _, [] => ([], [])
  | parens, l :: ts =>
    match patternStep parens l with
    | some parens' => (l.leaf :: (patternTokens parens' ts).1, (patternTokens parens' ts).2)
    | none => ([], l :: ts)

/-- `^(STRING bash_pattern_part)`. -/
def bashPatternPart (ts : List Lexeme) : Option (AstNode × List Lexeme) :=
  match patternTokens 0 ts with
  | ([], _) => none
  | (parts, rest) => some (astNode .string parts, rest)

end ConditionParser

/-- The operators between two words. -/
inductive BinaryOperator where
  /-- `=~`. -/
  | matchRegularExpression
  /-- `-eq` and the others that are names. -/
  | named (op : String)
  /-- `!=`. -/
  | notMatchPattern
  /-- `==`. -/
  | matchPattern
  /-- `=`. -/
  | equals
  | lessThan
  | greaterThan

/-- The root of the tree. -/
def BinaryOperator.token : BinaryOperator → Token
  | .matchRegularExpression => ⟨.matchRegularExpression, ""⟩
  | .named op => ⟨.name, op⟩
  | .notMatchPattern => ⟨.notMatchPattern, ""⟩
  | .matchPattern => ⟨.matchPattern, ""⟩
  | .equals => ⟨.equals, "="⟩
  | .lessThan => ⟨.lessThan, "<"⟩
  | .greaterThan => ⟨.greaterThan, ">"⟩

namespace ConditionParser

/-- The text of a token. -/
def textAt (ts : List Lexeme) (k : Nat) : String :=
  match ts[k]? with
  | some (.tok t) => t.text
  | _ => ""

/-- The operator of `keyword_condition_binary` with its blanks. -/
def readOperator (ts : List Lexeme) : Option (BinaryOperator × List Lexeme) :=
  if startsWith [.blank, .equals, .tilde, .blank] ts then some (.matchRegularExpression, ts.drop 4)
  else if startsWith [.blank, .minus, .name, .blank] ts then some (.named (textAt ts 2), ts.drop 4)
  else if startsWith [.blank, .bang, .equals, .blank] ts then some (.notMatchPattern, ts.drop 4)
  else if startsWith [.blank, .equals, .equals, .blank] ts then some (.matchPattern, ts.drop 4)
  else if startsWith [.blank, .equals, .blank] ts then some (.equals, ts.drop 3)
  else if startsWith [.lessThan] (skipBlank ts) then
    some (.lessThan, skipBlank ((skipBlank ts).drop 1))
  else if startsWith [.greaterThan] (skipBlank ts) then
    some (.greaterThan, skipBlank ((skipBlank ts).drop 1))
  else none

/-- The right operand. -/
def rightOperand : BinaryOperator → List Lexeme → Option (AstNode × List Lexeme)
  | .matchRegularExpression => bashPatternPart
  | .notMatchPattern | .matchPattern => extendedPattern
  | .named _ | .equals | .lessThan | .greaterThan => conditionPart

/-- `keyword_condition_unary`. -/
def keywordConditionUnary (ts : List Lexeme) : Option (AstNode × List Lexeme) := do
  let (_, ts) ← readToken .minus ts
  let (op, ts) ← readToken .letter ts
  let (_, ts) ← readToken .blank ts
  let (w, ts) ← conditionPart ts
  pure (.node op [w], ts)

/-- `keyword_condition_binary`. -/
def keywordConditionBinary (ts : List Lexeme) : Option (AstNode × List Lexeme) := do
  let (left, ts) ← conditionPart ts
  match readOperator ts with
  | some (op, ts) => do
    let (right, ts) ← rightOperand op ts
    pure (.node op.token [left, right], ts)
  | none => pure (left, ts)

mutual

/-- `keyword_condition`. -/
def keywordCondition : Nat → List Lexeme → Option (AstNode × List Lexeme)
  | 0, _ => none
  | d + 1, ts => do
    let (l, ts) ← keywordConditionAnd d ts
    orOperands d l ts

/-- `( wspace!? LOGICOR^ wspace!? keyword_condition_and)*`. -/
def orOperands : Nat → AstNode → List Lexeme → Option (AstNode × List Lexeme)
  | 0, _, _ => none
  | d + 1, l, ts =>
    match readToken .logicOr (skipSpace ts) with
    | some (t, rest) => do
      let (r, rest) ← keywordConditionAnd d (skipSpace rest)
      orOperands d (.node t [l, r]) rest
    | none => some (l, ts)

/-- `keyword_condition_and`. -/
def keywordConditionAnd : Nat → List Lexeme → Option (AstNode × List Lexeme)
  | 0, _ => none
  | d + 1, ts => do
    let (l, ts) ← keywordConditionPrimary d ts
    andOperands d l ts

/-- `( wspace!? LOGICAND^ wspace!? keyword_condition_primary)*`. -/
def andOperands : Nat → AstNode → List Lexeme → Option (AstNode × List Lexeme)
  | 0, _, _ => none
  | d + 1, l, ts =>
    match readToken .logicAnd (skipSpace ts) with
    | some (t, rest) => do
      let (r, rest) ← keywordConditionPrimary d (skipSpace rest)
      andOperands d (.node t [l, r]) rest
    | none => some (l, ts)

/-- `keyword_condition_primary`. -/
def keywordConditionPrimary : Nat → List Lexeme → Option (AstNode × List Lexeme)
  | 0, _ => none
  | d + 1, ts =>
    if startsWith [.lparen] ts then do
      let (t, ts) ← keywordCondition d (skipBlank (ts.drop 1))
      let (_, ts) ← readToken .rparen (skipBlank ts)
      pure (t, ts)
    else if startsWith [.bang] ts then do
      -- `keyword_negation_primary`
      let (_, ts) ← readToken .blank (ts.drop 1)
      let (t, ts) ← keywordConditionPrimary d ts
      pure (astNode .negation [t], ts)
    else if startsWith [.minus, .letter] ts then keywordConditionUnary ts
    else keywordConditionBinary ts

end

/-- The first alternative of `condition_expr`. -/
def conditionExpr (d : Nat) (ts : List Lexeme) : Option (AstNode × List Lexeme) := do
  let (_, ts) ← readToken .lsquare ts
  let (_, ts) ← readToken .lsquare ts
  let ((), ts) ← readSpace ts
  let (t, ts) ← keywordCondition d ts
  let ((), ts) ← readSpace ts
  let (_, ts) ← readToken .rsquare ts
  let (_, ts) ← readToken .rsquare ts
  pure (astNode .keywordTest [t], ts)

end ConditionParser

/-! ## Conditions as they are written -/

/-- The lexer reads two opening parentheses in a row as one token. -/
def joinParens : List Lexeme → List Lexeme
  | a :: b :: ts =>
    if a.isLparen && b.isLparen then .llparen :: joinParens ts else a :: joinParens (b :: ts)
  | ts => ts

namespace Written

open ConditionParser

/-- The tokens of a word or of a pattern. -/
structure WordTokens where
  lexemes : List Lexeme
  nonempty : lexemes ≠ []
  parts : ∀ l ∈ lexemes, l.isStringPart = true

/-- The tokens of a word in front of an operator. -/
structure FirstWord extends WordTokens where
  notBang : startsWith [.bang] lexemes = false
  notUnary : startsWith [.minus, .letter] lexemes = false

/-- The tokens of a regular expression, whose parentheses are balanced. -/
structure RegexTokens where
  lexemes : List Lexeme
  nonempty : lexemes ≠ []
  joined : joinParens lexemes = lexemes
  balanced : lexemes.foldlM patternStep 0 = some 0

/-- `^(STRING ..)`. -/
def wordTree (lexemes : List Lexeme) : AstNode := astNode .string (lexemes.map Lexeme.leaf)

/-- What stands to the right of an operator. -/
def Operand : BinaryOperator → Type
  | .matchRegularExpression => RegexTokens
  | _ => WordTokens

def Operand.lexemes : (op : BinaryOperator) → Operand op → List Lexeme
  | .matchRegularExpression, r => RegexTokens.lexemes r
  | .named _, w | .notMatchPattern, w | .matchPattern, w | .equals, w | .lessThan, w
  | .greaterThan, w => WordTokens.lexemes w

/-- `BLANK?`. -/
def blanks (present : Bool) : List Lexeme := if present then [.blank] else []

/-- The operator and the blanks around it; only `<` and `>` can do without. -/
def operatorLexemes (before after : Bool) : BinaryOperator → List Lexeme
  | .matchRegularExpression => [.blank, .equals, .tilde, .blank]
  | .named op => [.blank, .minus, .name op, .blank]
  | .notMatchPattern => [.blank, .bang, .equals, .blank]
  | .matchPattern => [.blank, .equals, .equals, .blank]
  | .equals => [.blank, .equals, .blank]
  | .lessThan => blanks before ++ .lessThan :: blanks after
  | .greaterThan => blanks before ++ .greaterThan :: blanks after

/-- `keyword_condition_unary` and `keyword_condition_binary`. -/
inductive Leaf where
  | unary (op : Char) (w : WordTokens)
  | string (w : FirstWord)
  | binary (op : BinaryOperator) (before after : Bool) (left : FirstWord) (right : Operand op)

def Leaf.lexemes : Leaf → List Lexeme
  | .unary op w => .minus :: .letter op :: .blank :: w.lexemes
  | .string w => w.lexemes
  | .binary op before after left right =>
    left.lexemes ++ (operatorLexemes before after op ++ right.lexemes)

def Leaf.tree : Leaf → AstNode
  | .unary op w => .node ⟨.letter, op.toString⟩ [wordTree w.lexemes]
  | .string w => wordTree w.lexemes
  | .binary op _ _ left right => .node op.token [wordTree left.lexemes, wordTree right.lexemes]

/-- A blank or the end of a line. -/
inductive Space where
  | blank
  | eol

def Space.lexeme : Space → Lexeme
  | .blank => .blank
  | .eol => .eol

/-- `wspace?`. -/
def spaces (s : List Space) : List Lexeme := s.map Space.lexeme

mutual

/-- A primary: in parentheses, negated, or without a connective. -/
inductive Primary where
  | group (before : Bool) (c : Condition) (after : Bool)
  | negation (p : Primary)
  | leaf (l : Leaf)

/-- Primaries joined by `&&`. -/
inductive Conjunction where
  | last (p : Primary)
  | cons (p : Primary) (before after : List Space) (rest : Conjunction)

/-- Conjunctions joined by `||`. -/
inductive Condition where
  | last (a : Conjunction)
  | cons (a : Conjunction) (before after : List Space) (rest : Condition)

end

mutual

def Primary.lexemes : Primary → List Lexeme
  | .group before c after =>
    .lparen :: (blanks before ++ (c.lexemes ++ (blanks after ++ [.rparen])))
  | .negation p => .bang :: .blank :: p.lexemes
  | .leaf l => l.lexemes

def Conjunction.lexemes : Conjunction → List Lexeme
  | .last p => p.lexemes
  | .cons p before after rest =>
    p.lexemes ++ (spaces before ++ .logicAnd :: (spaces after ++ rest.lexemes))

def Condition.lexemes : Condition → List Lexeme
  | .last a => a.lexemes
  | .cons a before after rest =>
    a.lexemes ++ (spaces before ++ .logicOr :: (spaces after ++ rest.lexemes))

end

mutual

def Primary.tree : Primary → AstNode
  | .group _ c _ => c.tree
  | .negation p => astNode .negation [p.tree]
  | .leaf l => l.tree

def Conjunction.tree : Conjunction → AstNode
  | .last p => p.tree
  | .cons p _ _ rest => rest.treeFrom p.tree

/-- The tree of a conjunction whose first operands have the tree `l`. -/
def Conjunction.treeFrom (l : AstNode) : Conjunction → AstNode
  | .last p => .node ⟨.logicAnd, "&&"⟩ [l, p.tree]
  | .cons p _ _ rest => rest.treeFrom (.node ⟨.logicAnd, "&&"⟩ [l, p.tree])

def Condition.tree : Condition → AstNode
  | .last a => a.tree
  | .cons a _ _ rest => rest.treeFrom a.tree

def Condition.treeFrom (l : AstNode) : Condition → AstNode
  | .last a => .node ⟨.logicOr, "||"⟩ [l, a.tree]
  | .cons a _ _ rest => rest.treeFrom (.node ⟨.logicOr, "||"⟩ [l, a.tree])

end

def Primary.startsGroup : Primary → Bool
  | .group _ _ _ => true
  | .negation _ | .leaf _ => false

def Conjunction.startsGroup : Conjunction → Bool
  | .last p | .cons p _ _ _ => p.startsGroup

def Condition.startsGroup : Condition → Bool
  | .last a | .cons a _ _ _ => a.startsGroup

mutual

/-- No group begins right after the parenthesis of another one. -/
def Primary.spaced : Primary → Bool
  | .group before c _ => (before || !c.startsGroup) && c.spaced
  | .negation p => p.spaced
  | .leaf _ => true

def Conjunction.spaced : Conjunction → Bool
  | .last p => p.spaced
  | .cons p _ _ rest => p.spaced && rest.spaced

def Condition.spaced : Condition → Bool
  | .last a => a.spaced
  | .cons a _ _ rest => a.spaced && rest.spaced

end

/-- `[[ .. ]]`. -/
structure Test where
  before : Space
  moreBefore : List Space
  condition : Condition
  after : Space
  moreAfter : List Space

def Test.lexemes (t : Test) : List Lexeme :=
  .lsquare :: .lsquare :: (spaces (t.before :: t.moreBefore) ++ (t.condition.lexemes ++
    (spaces (t.after :: t.moreAfter) ++ [.rsquare, .rsquare])))

/-- The tokens that the parser gets. -/
def Test.tokens (t : Test) : List Lexeme := joinParens t.lexemes

def Test.tree (t : Test) : AstNode := astNode .keywordTest [t.condition.tree]

end Written

end Libbash
