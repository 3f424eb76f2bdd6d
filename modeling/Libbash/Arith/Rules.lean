import Libbash.Walker.Cursor
import Libbash.Core.Store
import Libbash.Arith.Numerals

/-!
# The walker rules for arithmetic

`arithmetics`, `arithmetic_part`, `arithmetic`, `primary` and `name` of
`libbashWalker.g`. The value of a variable is parsed and walked again, so the
rules are tied together by a bound on how deep they nest, through the tree being
walked and through the texts of variables alike.

`long` is `Int64`: it wraps around, as the compiled code does. A division by
zero, the one quotient that does not fit, a shift count outside the word and a
negative exponent have no defined behaviour.
-/

namespace Libbash.Arith

open Lib Lib.Comp

/-- What the rules use from outside: the conversion of the ANTLR runtime, the
parser rule `arithmetics`, the walker rules `var_ref` and `var_expansion`, and
the option `u`. -/
structure ArithEnv where
  toInt32 : String → Int32
  parse : String → Except Exn (List AstNode)
  varRef : NodeStream → Walk Store String
  varExpansion : NodeStream → Walk Store String
  nounset : Bool

/-! ## Reading and writing variables -/

/-- The name of an element in an error message of `resolve`. -/
def elementText (name : String) (index : UInt32) : String :=
  if name == "*" then "$" ++ toString index
  else if index == 0 then name
  else name ++ "[" ++ toString index ++ "]"

/-- `resolve`, for a type with the given reading of an element and default. -/
def resolve {α : Type} (env : ArithEnv) (get : Variable → UInt32 → α) (default : α)
    (name : String) (index : UInt32) : Comp Exn Store α := do
  let s ← reads id
  match s.resolveVariable name with
  | none =>
    if env.nounset then throw (.error .unsupported (name ++ ": unbound variable"))
    else pure default
  | some v =>
    if env.nounset && v.isUnset index then
      throw (.error .unsupported (elementText name index ++ ": unbound variable"))
    else pure (get v index)

/-- `resolve<std::string>`. -/
def resolveString (env : ArithEnv) : String → UInt32 → Comp Exn Store String :=
  resolve env Variable.getValueString ""

/-- `resolve<long>`. -/
def resolveLong (env : ArithEnv) : String → UInt32 → Comp Exn Store Int64 :=
  resolve env Variable.getValueLong 0

/-- `set_value` with a number; it returns the new value. -/
def setNumber (name : String) (v : Int64) (index : UInt32) : Comp Exn Store Int64 := do
  setValue name (.num v) index
  pure v

/-! ## Operations of `long` -/

def ofBool (b : Bool) : Int64 := if b then 1 else 0

def divide (l r : Int64) : Comp Exn Store Int64 :=
  if r = 0 ∨ (l = Int64.minValue ∧ r = -1) then throw .undefinedBehaviour else pure (l / r)

def modulo (l r : Int64) : Comp Exn Store Int64 :=
  if r = 0 ∨ (l = Int64.minValue ∧ r = -1) then throw .undefinedBehaviour else pure (l % r)

def shiftLeft (l r : Int64) : Comp Exn Store Int64 :=
  if r < 0 ∨ 64 ≤ r then throw .undefinedBehaviour else pure (l <<< r)

def shiftRight (l r : Int64) : Comp Exn Store Int64 :=
  if r < 0 ∨ 64 ≤ r then throw .undefinedBehaviour else pure (l >>> r)

/-- `while(r--) $value *= l`; from a negative `r` on the count leaves the range
of `long`. -/
def power (l r : Int64) : Comp Exn Store Int64 :=
  if r < 0 then throw .undefinedBehaviour else pure (r.toInt.toNat.repeat (fun v => v * l) 1)

/-! ## Rules -/

section Rules

variable (env : ArithEnv) (toks : NodeStream)
variable (arithmetics : Walk Store Int64) (evalArithmetic : String → Comp Exn Store Int64)

/-- `set_index`, which takes an `int`. -/
def setIndex (name : String) (value : Int64) : Comp Exn Store UInt32 :=
  if value.toInt32 < 0 then
    throw (.error .illegalArgument
      ("Array index is less than 0: " ++ name ++ "[" ++ toString value.toInt32.toInt ++ "]"))
  else pure value.toInt32.toUInt32

/-- `name`, with the index that follows the name or 0. -/
def name : Walk Store (String × UInt32) := do
  if (← la toks 2) = some .down then do
    let libbashName ← nameBase toks
    matchDown toks
    let value ← arithmetics
    matchUp toks
    let index ← action (setIndex libbashName value)
    pure (libbashName, index)
  else do
    let libbashName ← nameBase toks
    pure (libbashName, 0)

/-- `primary`; its alternatives for `VAR_REF` differ in the node inside. -/
def primary : Walk Store (String × UInt32) := do
  match ← laType toks 1 with
  | some .varRef => do
    let inside ← laType toks 3
    let _ ← matchToken toks .varRef
    matchDown toks
    if inside = some .varRef then do
      let libbashString ← env.varRef toks
      matchUp toks
      pure (libbashString, 0)
    else do
      let p ← name toks arithmetics
      matchUp toks
      pure p
  | _ => name toks arithmetics

/-- `is_number`. -/
def isNumber (target : String) : Bool := (target.toList.head?.map Char.isDigit).getD false

/-- `parse_integer`. -/
def parseInteger (t : Token) : Int64 := (env.toInt32 t.text).toInt64

/-- The value of an operand that is a variable: its text is an expression. -/
def primaryValue (name : String) (index : UInt32) : Comp Exn Store Int64 := do
  let text ← resolveString env name index
  if text.isEmpty then pure 0 else evalArithmetic text

/-- `arithmetic_part`. -/
def arithmeticPart : Walk Store Int64 := do
  let _ ← matchToken toks .arithmetic
  matchDown toks
  let value ← arithmetics
  matchUp toks
  pure value

/-- The passes of the loop of `arithmetics` after the first one. -/
def moreParts : Nat → Int64 → Walk Store Int64
  | 0, _ => diverge
  | n + 1, value => do
    if ← laIs toks .arithmetic then do
      let value ← arithmeticPart toks arithmetics
      moreParts n value
    else pure value

/-- `^(ty l=arithmetics)`. -/
def unaryNode (ty : TokenType) (f : Int64 → Int64) : Walk Store Int64 := do
  let _ ← matchToken toks ty
  matchDown toks
  let l ← arithmetics
  matchUp toks
  pure (f l)

/-- `^(ty l=arithmetics r=arithmetics)`. -/
def binaryNode (ty : TokenType) (f : Int64 → Int64 → Comp Exn Store Int64) :
    Walk Store Int64 := do
  let _ ← matchToken toks ty
  matchDown toks
  let l ← arithmetics
  let r ← arithmetics
  matchUp toks
  action (f l r)

/-- The action inside `LOGICOR` and `LOGICAND`: on `short` the right operand is
skipped and the value is `value`. -/
def logicRight (short : Bool) (value : Int64) : Walk Store Int64 :=
  if short then do
    skipNextTokenOrTree toks
    pure value
  else do
    let r ← arithmetics
    pure (ofBool (r != 0))

/-- `^(ty l=arithmetics {..})` of `LOGICOR` and `LOGICAND`. -/
def logicNode (ty : TokenType) (short : Int64 → Bool) (value : Int64) : Walk Store Int64 := do
  let _ ← matchToken toks ty
  matchDown toks
  let l ← arithmetics
  let v ← logicRight toks arithmetics (short l) value
  matchUp toks
  pure v

/-- `^(ARITHMETIC_CONDITION cnd=arithmetics l=arithmetics r=arithmetics)`. -/
def conditionNode : Walk Store Int64 := do
  let _ ← matchToken toks .arithmeticCondition
  matchDown toks
  let cnd ← arithmetics
  let l ← arithmetics
  let r ← arithmetics
  matchUp toks
  pure (if cnd ≠ 0 then l else r)

/-- The action of the four nodes that count a variable up or down: `back` takes
the step back for the value, `text` is the expression for a value that is no
number. -/
def countVariable (step back : Int64) (text : String → String) (name : String)
    (index : UInt32) : Comp Exn Store Int64 := do
  let value ← resolveString env name index
  if isNumber value then do
    let old ← resolveLong env name index
    let new ← setNumber name (old + step) index
    pure (new + back)
  else if value.isEmpty then pure 0
  else evalArithmetic (text value)

/-- `^(ty primary)`. -/
def countNode (ty : TokenType) (step back : Int64) (text : String → String) :
    Walk Store Int64 := do
  let _ ← matchToken toks ty
  matchDown toks
  let p ← primary env toks arithmetics
  matchUp toks
  action (countVariable env evalArithmetic step back text p.1 p.2)

/-- `^(EQUALS primary l=arithmetics)`. -/
def equalsNode : Walk Store Int64 := do
  let _ ← matchToken toks .equals
  matchDown toks
  let p ← primary env toks arithmetics
  let l ← arithmetics
  matchUp toks
  action (setNumber p.1 l p.2)

/-- The action of a compound assignment. -/
def updateVariable (f : Int64 → Int64 → Comp Exn Store Int64) (name : String) (index : UInt32)
    (l : Int64) : Comp Exn Store Int64 := do
  let old ← resolveLong env name index
  let new ← f old l
  setNumber name new index

/-- `^(ty primary l=arithmetics)` of a compound assignment. -/
def assignNode (ty : TokenType) (f : Int64 → Int64 → Comp Exn Store Int64) :
    Walk Store Int64 := do
  let _ ← matchToken toks ty
  matchDown toks
  let p ← primary env toks arithmetics
  let l ← arithmetics
  matchUp toks
  action (updateVariable env f p.1 p.2 l)

/-- The last alternative of `arithmetic`. -/
def expansionNode : Walk Store Int64 := do
  let _ ← matchToken toks .varRef
  matchDown toks
  let libbashString ← env.varExpansion toks
  matchUp toks
  match lexicalCastLong libbashString with
  | some v => pure v
  | none => throw .badLexicalCast

/-- The alternative of `arithmetic` for an operand that is a variable. -/
def primaryOperand : Walk Store Int64 := do
  let p ← primary env toks arithmetics
  action (primaryValue env evalArithmetic p.1 p.2)

/-- The alternatives of `arithmetic` that start with `VAR_REF`, by the node
inside. -/
def reference (inside : Option TokenType) : Walk Store Int64 :=
  match inside with
  | some .name | some .letter | some .underscore | some .varRef =>
    primaryOperand env toks arithmetics evalArithmetic
  | _ => expansionNode env toks

/-- The alternatives of `arithmetic`, by the type of the node they start with. -/
def alternative (ty : Option TokenType) : Walk Store Int64 :=
  match ty with
  | some .logicOr => logicNode toks arithmetics .logicOr (· != 0) 1
  | some .logicAnd => logicNode toks arithmetics .logicAnd (· == 0) 0
  | some .pipe => binaryNode toks arithmetics .pipe fun l r => pure (l ||| r)
  | some .caret => binaryNode toks arithmetics .caret fun l r => pure (l ^^^ r)
  | some .amp => binaryNode toks arithmetics .amp fun l r => pure (l &&& r)
  | some .leq => binaryNode toks arithmetics .leq fun l r => pure (ofBool (l ≤ r))
  | some .geq => binaryNode toks arithmetics .geq fun l r => pure (ofBool (l ≥ r))
  | some .lessThan => binaryNode toks arithmetics .lessThan fun l r => pure (ofBool (l < r))
  | some .greaterThan => binaryNode toks arithmetics .greaterThan fun l r => pure (ofBool (l > r))
  | some .notEquals => binaryNode toks arithmetics .notEquals fun l r => pure (ofBool (l != r))
  | some .equalsTo => binaryNode toks arithmetics .equalsTo fun l r => pure (ofBool (l == r))
  | some .lshift => binaryNode toks arithmetics .lshift shiftLeft
  | some .rshift => binaryNode toks arithmetics .rshift shiftRight
  | some .plus => binaryNode toks arithmetics .plus fun l r => pure (l + r)
  | some .plusSign => unaryNode toks arithmetics .plusSign fun l => l
  | some .minus => binaryNode toks arithmetics .minus fun l r => pure (l - r)
  | some .minusSign => unaryNode toks arithmetics .minusSign fun l => -l
  | some .times => binaryNode toks arithmetics .times fun l r => pure (l * r)
  | some .slash => binaryNode toks arithmetics .slash divide
  | some .pct => binaryNode toks arithmetics .pct modulo
  | some .exp => binaryNode toks arithmetics .exp power
  | some .bang => unaryNode toks arithmetics .bang fun l => ofBool (l == 0)
  | some .tilde => unaryNode toks arithmetics .tilde fun l => ~~~l
  | some .arithmeticCondition => conditionNode toks arithmetics
  | some .varRef => do
    let inside ← laType toks 3
    reference env toks arithmetics evalArithmetic inside
  | some .name | some .letter | some .underscore =>
    primaryOperand env toks arithmetics evalArithmetic
  | some .preIncr => countNode env toks arithmetics evalArithmetic .preIncr 1 0 ("++" ++ ·)
  | some .preDecr => countNode env toks arithmetics evalArithmetic .preDecr (-1) 0 ("--" ++ ·)
  | some .postIncr => countNode env toks arithmetics evalArithmetic .postIncr 1 (-1) (· ++ "++")
  | some .postDecr => countNode env toks arithmetics evalArithmetic .postDecr (-1) 1 (· ++ "--")
  | some .equals => equalsNode env toks arithmetics
  | some .mulAssign => assignNode env toks arithmetics .mulAssign fun v l => pure (v * l)
  | some .divideAssign => assignNode env toks arithmetics .divideAssign divide
  | some .modAssign => assignNode env toks arithmetics .modAssign modulo
  | some .plusAssign => assignNode env toks arithmetics .plusAssign fun v l => pure (v + l)
  | some .minusAssign => assignNode env toks arithmetics .minusAssign fun v l => pure (v - l)
  | some .lshiftAssign => assignNode env toks arithmetics .lshiftAssign shiftLeft
  | some .rshiftAssign => assignNode env toks arithmetics .rshiftAssign shiftRight
  | some .andAssign => assignNode env toks arithmetics .andAssign fun v l => pure (v &&& l)
  | some .xorAssign => assignNode env toks arithmetics .xorAssign fun v l => pure (v ^^^ l)
  | some .orAssign => assignNode env toks arithmetics .orAssign fun v l => pure (v ||| l)
  | some .number => do
    let t ← matchToken toks .number
    pure (parseInteger env t)
  | some .digit => do
    let t ← matchToken toks .digit
    pure (parseInteger env t)
  | some .arithmeticExpression => unaryNode toks arithmetics .arithmeticExpression fun l => l
  | _ => throw .recognition

/-- `arithmetic`. -/
def arithmetic : Walk Store Int64 := do
  let ty ← laType toks 1
  alternative env toks arithmetics evalArithmetic ty

/-- `arithmetics`: a loop over `ARITHMETIC` siblings, or one node. -/
def arithmeticsRule : Walk Store Int64 := do
  if ← laIs toks .arithmetic then do
    let value ← arithmeticPart toks arithmetics
    moreParts toks arithmetics toks.length value
  else arithmetic env toks arithmetics evalArithmetic

end Rules

/-- Walk a fresh stream from its start. -/
def walkStream {S α : Type} (w : Walk S α) : Comp Exn S α := fun s =>
  match w ⟨0, s⟩ with
  | none => none
  | some (r, c) => some (r, c.inner)

/-- `eval_arithmetic`, for a given rule `arithmetics`. -/
def evalText (env : ArithEnv) (arithmetics : NodeStream → Walk Store Int64) (text : String) :
    Comp Exn Store Int64 :=
  match env.parse text with
  | .error e => throw e
  | .ok trees => walkStream (arithmetics (forestStream trees))

/-- `arithmetics`, with a bound on the nesting of rules. -/
def arithmetics (env : ArithEnv) : Nat → NodeStream → Walk Store Int64
  | 0, _ => diverge
  | d + 1, toks =>
    arithmeticsRule env toks (arithmetics env d toks) (evalText env (arithmetics env d))

/-- `eval_arithmetic`. -/
def evalArithmetic (env : ArithEnv) (d : Nat) : String → Comp Exn Store Int64 :=
  evalText env (arithmetics env d)

end Libbash.Arith
