import Libbash.Lib.Precedence
import Libbash.Parser.Lexer

/-!
# The parser rules of arithmetic

`arithmetics` to `logicor` of `bashast.g`, without the alternatives that start
with `$` or a command substitution. A rule is given what is left of the tokens
and returns its trees; `none` is a syntax error. Where the alternative that reads
nothing is the last one of a choice, the generated parser takes it only before a
token that can follow (`follows`, `followsOperand`); a loop or an option it just
leaves.

The rule `arithmetics` is called again for what stands in parentheses or in an
index; `arithmetics` is tied together by a bound on this nesting.
-/

namespace Libbash

namespace ArithParser

open Lib

abbrev TreeRule := Rule ArithToken (List AstNode)

/-- `BLANK!?`. -/
def skipBlank : List ArithToken → List ArithToken
  | .blank :: ts => ts
  | ts => ts

/-- `DQUOTE!?`. -/
def skipDquote : List ArithToken → List ArithToken
  | .dquote :: ts => ts
  | ts => ts

/-- A token that can follow the rule `arithmetic`. -/
def follows : List ArithToken → Bool
  | [] => true
  | t :: _ =>
    match t with
    | .comma | .rparen | .blank | .eol | .rsquare | .semic | .doubleSemic | .colon | .rbrace => true
    | _ => false

/-- A token that can follow the rule `post_inc_dec`. -/
def followsOperand (ts : List ArithToken) : Bool :=
  follows ts ||
  match ts with
  | t :: _ =>
    match t with
    | .exp | .times | .slash | .pct | .plus | .minus | .lshift | .rshift | .lessThan | .greaterThan
    | .equals | .bang | .amp | .caret | .pipe | .logicAnd | .logicOr | .qmark => true
    | _ => false
  | [] => true

/-! ## Operands -/

section Operands

variable (arithmetics : TreeRule)

/-- `variable_name_no_digit`. -/
def variableNameNoDigit : Rule ArithToken AstNode
  | .name text :: .lsquare :: ts =>
    match arithmetics (skipBlank ts) with
    | none => none
    | some (index, ts) =>
      match skipBlank ts with
      | .rsquare :: ts => some (.node (nameToken text) index, ts)
      | _ => none
  | .name text :: ts => some (.node (nameToken text) [], ts)
  | _ => none

/-- `primary`. -/
def primary : TreeRule
  | .num l :: ts => some ([l.node], ts)
  | .lparen :: ts =>
    match arithmetics ts with
    | some (nodes, .rparen :: ts) => some (nodes, ts)
    | _ => none
  | ts => (variableNameNoDigit arithmetics ts).map fun p => ([astNode .varRef [p.1]], p.2)

/-- `pre_post_primary`. -/
def prePostPrimary : TreeRule := fun ts =>
  (primary arithmetics (skipDquote ts)).map fun p => (p.1, skipDquote p.2)

/-- `post_inc_dec`. -/
def postIncDec : TreeRule := fun ts =>
  match prePostPrimary arithmetics ts with
  | none => none
  | some (nodes, ts) =>
    match skipBlank ts with
    | .plus :: .plus :: ts => some ([astNode .postIncr nodes], ts)
    | .minus :: .minus :: ts => some ([astNode .postDecr nodes], ts)
    | ts => if followsOperand ts then some (nodes, ts) else none

/-- An alternative of `pre_inc_dec`, after its operator. -/
def preIncDec (ty : TokenType) : TreeRule := fun ts =>
  (prePostPrimary arithmetics (skipBlank ts)).map fun p => ([astNode ty p.1], p.2)

/-- The operators of `unary_with_operator`. -/
def signType : ArithToken → Option TokenType
  | .plus => some .plusSign
  | .minus => some .minusSign
  | .tilde => some .tilde
  | .bang => some .bang
  | _ => none

/-- `unary`. -/
def unary : TreeRule
  | [] => postIncDec arithmetics []
  | .plus :: .plus :: ts => preIncDec arithmetics .preIncr ts
  | .minus :: .minus :: ts => preIncDec arithmetics .preDecr ts
  | t :: ts =>
    match signType t with
    | none => postIncDec arithmetics (t :: ts)
    | some ty =>
      match ts with
      | .blank :: us => (unary us).map fun p => ([astNode ty p.1], p.2)
      | us => (unary us).map fun p => ([astNode ty p.1], p.2)

end Operands

/-! ## Binary operators -/

/-- `(op^ BLANK!? operand)*` for operators of one token. -/
def tokenLayer (types : ArithToken → Option TokenType) : Layer ArithToken TokenType where
  starts ts := (ts.head?.bind types).isSome
  read
    | [] => none
    | t :: ts => (types t).map fun ty => (ty, skipBlank ts)
  repeats := true

/-- `compare_operator`. -/
def compareOperator : Rule ArithToken TokenType
  | .lessThan :: .equals :: ts => some (.leq, ts)
  | .greaterThan :: .equals :: ts => some (.geq, ts)
  | .lessThan :: ts => some (.lessThan, ts)
  | .greaterThan :: ts => some (.greaterThan, ts)
  | .equals :: .equals :: ts => some (.equalsTo, ts)
  | .bang :: .equals :: ts => some (.notEquals, ts)
  | _ => none

/-- `(compare_operator^ BLANK!? shifts)?`. -/
def compareLayer : Layer ArithToken TokenType where
  starts
    | .lessThan :: _ | .greaterThan :: _ | .equals :: _ | .bang :: _ => true
    | _ => false
  read ts := (compareOperator ts).map fun p => (p.1, skipBlank p.2)
  repeats := false

/-- The operators of one token: the rule that reads them, counted from
`exponential`, and the type of their node. -/
def operatorRule : ArithToken → Option (Nat × TokenType)
  | .exp => some (0, .exp)
  | .times => some (1, .times)
  | .slash => some (1, .slash)
  | .pct => some (1, .pct)
  | .plus => some (2, .plus)
  | .minus => some (2, .minus)
  | .lshift => some (3, .lshift)
  | .rshift => some (3, .rshift)
  | .amp => some (5, .amp)
  | .caret => some (6, .caret)
  | .pipe => some (7, .pipe)
  | .logicAnd => some (8, .logicAnd)
  | .logicOr => some (9, .logicOr)
  | _ => none

/-- The operators of a rule, `compare` being the fifth. -/
def layer (k : Nat) : Layer ArithToken TokenType :=
  if k = 4 then compareLayer
  else tokenLayer fun t => (operatorRule t).bind fun p => if p.1 = k then some p.2 else none

/-- `^(op l r)`. -/
def operatorNode (ty : TokenType) (l r : List AstNode) : List AstNode := [astNode ty (l ++ r)]

section Rules

variable (arithmetics : TreeRule)

def exponential : TreeRule := (layer 0).rule operatorNode (unary arithmetics)

def timesDivisionModulus : TreeRule := (layer 1).rule operatorNode (exponential arithmetics)

def addsub : TreeRule := (layer 2).rule operatorNode (timesDivisionModulus arithmetics)

def shifts : TreeRule := (layer 3).rule operatorNode (addsub arithmetics)

def compare : TreeRule := (layer 4).rule operatorNode (shifts arithmetics)

def bitwiseand : TreeRule := (layer 5).rule operatorNode (compare arithmetics)

def bitwisexor : TreeRule := (layer 6).rule operatorNode (bitwiseand arithmetics)

def bitwiseor : TreeRule := (layer 7).rule operatorNode (bitwisexor arithmetics)

def logicand : TreeRule := (layer 8).rule operatorNode (bitwiseor arithmetics)

def logicor : TreeRule := (layer 9).rule operatorNode (logicand arithmetics)

/-- The rules as a grammar with a rule for every rank. -/
def grammar : PrecedenceGrammar ArithToken TokenType (List AstNode) where
  layer := layer
  build := operatorNode
  operand := unary arithmetics

theorem logicor_eq : logicor arithmetics = (grammar arithmetics).rule 10 := rfl

/-! ## Assignments, conditions and lists -/

/-- `arithmetic_assignment_operator`. -/
def assignmentOperator : Rule ArithToken TokenType
  | .equals :: .equals :: _ => none
  | .equals :: ts => some (.equals, ts)
  | .times :: .equals :: ts => some (.mulAssign, ts)
  | .slash :: .equals :: ts => some (.divideAssign, ts)
  | .pct :: .equals :: ts => some (.modAssign, ts)
  | .plus :: .equals :: ts => some (.plusAssign, ts)
  | .minus :: .equals :: ts => some (.minusAssign, ts)
  | .lshift :: .equals :: ts => some (.lshiftAssign, ts)
  | .rshift :: .equals :: ts => some (.rshiftAssign, ts)
  | .amp :: .equals :: ts => some (.andAssign, ts)
  | .caret :: .equals :: ts => some (.xorAssign, ts)
  | .pipe :: .equals :: ts => some (.orAssign, ts)
  | _ => none

/-- `variable_name_no_digit BLANK? arithmetic_assignment_operator`. -/
def assignmentTarget : Rule ArithToken (AstNode × TokenType) := fun ts =>
  match variableNameNoDigit arithmetics ts with
  | none => none
  | some (target, ts) => (assignmentOperator (skipBlank ts)).map fun p => ((target, p.1), p.2)

/-- `arithmetic`. -/
def arithmetic : TreeRule := fun ts =>
  match assignmentTarget arithmetics ts with
  | some ((target, op), ts) =>
    (logicor arithmetics (skipBlank ts)).map fun p => ([astNode op (target :: p.1)], p.2)
  | none =>
    match logicor arithmetics ts with
    | none => none
    | some (cnd, .qmark :: ts) =>
      match logicor arithmetics ts with
      | some (t, .colon :: ts) =>
        (logicor arithmetics ts).map fun p =>
          ([astNode .arithmeticCondition (cnd ++ t ++ p.1)], p.2)
      | _ => none
    | some (cnd, ts) => if follows ts then some (cnd, ts) else none

/-- `(COMMA BLANK? arithmetic)*`. -/
def commaLayer : Layer ArithToken Unit where
  starts
    | .comma :: _ => true
    | _ => false
  read
    | .comma :: ts => some ((), skipBlank ts)
    | _ => none
  repeats := true

/-- `^(ARITHMETIC arithmetic)+`. -/
def arithmeticsRule : TreeRule :=
  commaLayer.rule (fun _ l r => l ++ r) fun ts =>
    (arithmetic arithmetics ts).map fun p => ([astNode .arithmetic p.1], p.2)

end Rules

/-- `arithmetics`, with a bound on the nesting of parentheses and indices. -/
def arithmetics : Nat → TreeRule
  | 0 => fun _ => none
  | d + 1 => arithmeticsRule (arithmetics d)

end ArithParser

open ArithParser

/-- What the constructor of `bash_ast` makes of the parser's result. -/
def parsed : Option (List AstNode × List ArithToken) → Except Exn (List AstNode)
  | some (nodes, _) => .ok nodes
  | none => .error (.error .parse "Something wrong happened while parsing")

/-- The `bash_ast` of a text for `eval_arithmetic`. A text that is not plain is
parsed `elsewhere`. -/
def parseArithmetics (elsewhere : String → Except Exn (List AstNode)) (text : String) :
    Except Exn (List AstNode) :=
  let script := (readScript true text).toList
  if isPlain script then parsed (ArithParser.arithmetics (script.length + 1) (tokens script))
  else elsewhere text

theorem parseArithmetics_of_plain (elsewhere : String → Except Exn (List AstNode)) {cs : List Char}
    (hplain : isPlain cs = true) (hhead : ∀ c ∈ cs.head?, isBlank c = false)
    (hlast : ∀ c ∈ cs.getLast?, isBlank c = false) :
    parseArithmetics elsewhere (String.ofList cs) =
      parsed (ArithParser.arithmetics (cs.length + 1) (tokens cs)) := by
  have hescape : '\\' ∉ cs := by
    intro hmem
    have := List.all_eq_true.mp hplain _ hmem
    cases this
  unfold parseArithmetics
  simp only [readScript_eq hescape hhead hlast, String.toList_ofList, if_pos hplain]

end Libbash
