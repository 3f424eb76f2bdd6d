import Libbash.Interp.State

/-!
# Expansion of words

The member functions of the interpreter that read variables, and the walker
rules from `name` to `var_ref` and `arithmetics` that evaluate the trees below
the command level.
-/

namespace Libbash

open Lib Lib.Program

namespace Shell

/-! ## Reading variables -/

/-- `is_valid`. -/
def isValid (var : Option Variable) (name : String) : Shell Bool :=
  match var with
  | some _ => pure true
  | none => do
    if ← perform (.getOption 'u') then
      throw (.error .unsupported (name ++ ": unbound variable"))
    else pure false

/-- The name of an element in an error message of `resolve`. -/
def elementText (name : String) (index : UInt32) : String :=
  if name == "*" then "$" ++ toString index
  else if index == 0 then name
  else name ++ "[" ++ toString index ++ "]"

/-- `resolve`, for a type with the given reading of an element and default. -/
def resolve {α : Type} (get : Variable → UInt32 → α) (default : α) (name : String)
    (index : UInt32) : Shell α := do
  match ← perform (.resolveVariable name) with
  | none => do
    let _ ← isValid none name
    pure default
  | some v => do
    if (← perform (.getOption 'u')) && v.isUnset index then
      throw (.error .unsupported (elementText name index ++ ": unbound variable"))
    else pure (get v index)

/-- `resolve<std::string>`. -/
def resolveString : String → UInt32 → Shell String := resolve Variable.getValueString ""

/-- `resolve<long>`. -/
def resolveLong : String → UInt32 → Shell Int64 := resolve Variable.getValueLong 0

end Shell

namespace Variable

/-- `get_all_values<std::string>`: the values in the order of their indices. -/
def getAllValues (v : Variable) : List String := v.value.toList.map fun p => p.2.toStr

/-- `get_array_length`. -/
def getArrayLength (v : Variable) : Nat := v.value.size

/-- `get_max_index`. -/
def getMaxIndex (v : Variable) : UInt32 := (v.value.toList.getLast?.map (·.1)).getD 0

end Variable

namespace Shell

/-- `resolve_array`: nothing when the variable is not set. -/
def resolveArray (name : String) : Shell (Option (List String)) := do
  let var ← perform (.resolveVariable name)
  let _ ← isValid var name
  pure (var.map Variable.getAllValues)

/-- `get_array_length`. -/
def getArrayLength (name : String) : Shell Nat := do
  let var ← perform (.resolveVariable name)
  let _ ← isValid var name
  pure ((var.map Variable.getArrayLength).getD 0)

/-- `get_length`. -/
def getLength (name : String) (index : UInt32) : Shell Nat := do
  let var ← perform (.resolveVariable name)
  let _ ← isValid var name
  pure ((var.map fun v => (v.getValueString index).length).getD 0)

/-- `get_max_index`. -/
def getMaxIndex (name : String) : Shell UInt32 := do
  let var ← perform (.resolveVariable name)
  let _ ← isValid var name
  pure ((var.map Variable.getMaxIndex).getD 0)

/-- `is_unset_or_null`. -/
def isUnsetOrNull (name : String) (index : UInt32) : Shell Bool := do
  let var ← perform (.resolveVariable name)
  pure ((var.map fun v => v.isNull index).getD true)

/-- `is_unset`. -/
def isUnset (name : String) : Shell Bool := perform (.isUnset name)

/-- `resolve<std::string>("IFS").substr(0, 1)`. -/
def joiner : Shell String := do
  let ifs ← resolveString "IFS" 0
  pure (String.ofList (ifs.toList.take 1))

/-- `get_all_elements_IFS_joined`. -/
def getAllElementsIFSJoined (name : String) : Shell String := do
  let delim ← joiner
  let array ← resolveArray name
  pure (delim.intercalate (array.getD []))

end Shell

/-! ## Splitting -/

/-- `boost::split` with `token_compress_on`: a run of delimiters separates two
tokens. -/
def splitRuns (p : Char → Bool) : List Char → List (List Char)
  | [] => [[]]
  | c :: cs =>
    if p c then
      if (cs.head?.map p).getD false then splitRuns p cs else [] :: splitRuns p cs
    else
      match splitRuns p cs with
      | [] => [[c]]
      | token :: tokens => (c :: token) :: tokens

/-- What `split_word` adds to its output, for a value of `IFS`. -/
def splitFields (delimeter word : String) : List String :=
  let p (c : Char) : Bool := delimeter.toList.contains c
  let trimmed := trimIf p word.toList
  if trimmed.isEmpty then [] else (splitRuns p trimmed).map String.ofList

/-- `split_word`. -/
def Shell.splitWord (word : String) : Shell (List String) := do
  let delimeter ← resolveString "IFS" 0
  pure (splitFields delimeter word)

/-! ## Escapes -/

/-- The escapes of one letter. -/
def escapeChar (ansiC : Bool) : Char → Option (List Char)
  | 'a' => some [Char.ofNat 7]
  | 'b' => some [Char.ofNat 8]
  | 'e' => some [Char.ofNat 27]
  | 'E' => some [Char.ofNat 27]
  | 'f' => some [Char.ofNat 12]
  | 'n' => some ['\n']
  | 'r' => some ['\r']
  | 't' => some ['\t']
  | 'v' => some [Char.ofNat 11]
  | '\'' => some (if ansiC then ['\''] else ['\\', '\''])
  | '"' => some (if ansiC then ['"'] else ['\\', '"'])
  | '\\' => some ['\\']
  | _ => none

def octalDigit (c : Char) : Option Nat :=
  if '0' ≤ c ∧ c ≤ '7' then some (c.toNat - '0'.toNat) else none

def hexDigit (c : Char) : Option Nat :=
  if '0' ≤ c ∧ c ≤ '9' then some (c.toNat - '0'.toNat)
  else if 'a' ≤ c ∧ c ≤ 'f' then some (c.toNat - 'a'.toNat + 10)
  else if 'A' ≤ c ∧ c ≤ 'F' then some (c.toNat - 'A'.toNat + 10)
  else none

/-- `static_cast<char>` of a code. -/
def charCode (n : Nat) : Char := Char.ofNat (n % 256)

/-- At most `most` further digits after the value `n`: the value, and what they
leave of the text. -/
def readDigits (digit : Char → Option Nat) (base : Nat) : Nat → Nat → List Char → Nat × List Char
  | 0, n, cs => (n, cs)
  | _ + 1, n, [] => (n, [])
  | most + 1, n, c :: cs =>
    match digit c with
    | some k => readDigits digit base most (base * n + k) cs
    | none => (n, c :: cs)

/-- The escape after a backslash: its text, and what it leaves. `none` is a
backslash that starts no escape. -/
def escapeSequence (ansiC : Bool) : List Char → Option (List Char × List Char)
  | '0' :: d :: cs =>
    (octalDigit d).map fun k =>
      ([charCode (readDigits octalDigit 8 2 k cs).1], (readDigits octalDigit 8 2 k cs).2)
  | 'x' :: d :: cs =>
    (hexDigit d).map fun k =>
      ([charCode (readDigits hexDigit 16 1 k cs).1], (readDigits hexDigit 16 1 k cs).2)
  | c :: cs => (escapeChar ansiC c).map fun text => (text, cs)
  | [] => none

/-- `transform_escapes`, for at most `fuel` characters: what it has written, and
whether `\c` has stopped it. -/
def transformChars (ansiC : Bool) : Nat → List Char → List Char × Bool
  | 0, _ => ([], false)
  | _ + 1, [] => ([], false)
  | _ + 1, '\\' :: 'c' :: _ => ([], true)
  | fuel + 1, '\\' :: cs =>
    match escapeSequence ansiC cs with
    | some (text, rest) =>
      (text ++ (transformChars ansiC fuel rest).1, (transformChars ansiC fuel rest).2)
    | none => ('\\' :: (transformChars ansiC fuel cs).1, (transformChars ansiC fuel cs).2)
  | fuel + 1, c :: cs => (c :: (transformChars ansiC fuel cs).1, (transformChars ansiC fuel cs).2)

/-- `transform_escapes`. -/
def transformEscapes (ansiC : Bool) (text : String) : String × Bool :=
  let (written, suppressed) := transformChars ansiC text.length text.toList
  (String.ofList written, suppressed)

/-! ## Texts that are parsed -/

namespace Shell

/-- `eval_arithmetic`. -/
def evalArithmetic (expression : String) : Shell Int64 :=
  perform (.interpretArithmetics expression)

/-- `raw_string`. -/
def rawString : RawString → Shell String
  | none => pure ""
  | some str => perform (.interpretWord true str)

/-- The rewriting of `\\` or of an escaped backquote inside backquotes: the
backslash goes, and what it protects is not looked at again. -/
def eraseEscapes (protects : Char) : List Char → List Char
  | '\\' :: c :: cs =>
    if c = protects then c :: eraseEscapes protects cs else '\\' :: eraseEscapes protects (c :: cs)
  | c :: cs => c :: eraseEscapes protects cs
  | [] => []

/-- The text that `command_substitution` parses. -/
def substitutedScript (subscript : String) : String :=
  match subscript.toList with
  | '`' :: cs => String.ofList (eraseEscapes '`' (eraseEscapes '\\' cs.dropLast))
  | cs => String.ofList ((cs.drop 2).dropLast)

/-- `trim_trailing_eols`. -/
def trimTrailingEols (value : String) : String :=
  String.ofList (value.toList.reverse.dropWhile (· == '\n')).reverse

/-- `command_substitution`. -/
def commandSubstitution (subscript : String) : Shell String :=
  within .captureOutput do
    perform (.interpretScript .start (substitutedScript subscript))
    let out ← perform .captured
    pure (trimTrailingEols out)

/-! ## Parts of rules -/

/-- `set_index`, which takes an `int`. -/
def setIndex (name : String) (value : Int64) : Shell UInt32 :=
  if value.toInt32 < 0 then
    throw (.error .illegalArgument
      ("Array index is less than 0: " ++ name ++ "[" ++ toString value.toInt32.toInt ++ "]"))
  else pure value.toInt32.toUInt32

/-- `boost::lexical_cast<unsigned>` of the text of a number. -/
def lexicalCastUnsigned (digits : String) : Shell UInt32 :=
  match magnitude (2 ^ 32 - 1) digits.toList with
  | some n => pure (.ofNat n)
  | none => throw .badLexicalCast

/-- The parameter that a number names. -/
def numberedName (index : UInt32) : String × UInt32 := (if index ≠ 0 then "*" else "0", index)

/-- `set_value` with a string, which it returns. -/
def setString (name : String) (value : String) (index : UInt32) : Shell String := do
  perform (.setValue name (.str value) index)
  pure value

/-- `set_value` with a number, which it returns. -/
def setNumber (name : String) (value : Int64) (index : UInt32) : Shell Int64 := do
  perform (.setValue name (.num value) index)
  pure value

/-- The condition of the expansions that test a parameter. -/
def unsetTest (orNull : Bool) (name : String) (index : UInt32) : Shell Bool :=
  if orNull then isUnsetOrNull name index else isUnset name

/-- `do_default_expansion`. -/
def doDefaultExpansion (cond : Bool) (name value : String) (index : UInt32) : Shell String :=
  if cond then pure value else resolveString name index

/-- `do_assign_expansion`. -/
def doAssignExpansion (cond : Bool) (name value : String) (index : UInt32) : Shell String :=
  if cond then setString name value index else resolveString name index

/-- `do_alternate_expansion`. -/
def doAlternateExpansion (cond : Bool) (value : String) : Shell String :=
  pure (if cond then "" else value)

/-- The end of `var_expansion` for `${p-w}` and `${p:-w}`. -/
def defaultExpansion (orNull : Bool) (p : String × UInt32) (word : String) : Shell String := do
  let cond ← unsetTest orNull p.1 p.2
  doDefaultExpansion cond p.1 word p.2

/-- The end of `var_expansion` for `${p=w}` and `${p:=w}`. -/
def assignExpansion (orNull : Bool) (p : String × UInt32) (word : String) : Shell String := do
  let cond ← unsetTest orNull p.1 p.2
  doAssignExpansion cond p.1 word p.2

/-- The end of `var_expansion` for `${p+w}` and `${p:+w}`. -/
def alternateExpansion (orNull : Bool) (p : String × UInt32) (word : String) : Shell String := do
  let cond ← unsetTest orNull p.1 p.2
  doAlternateExpansion cond word

/-- `get_real_offset`. -/
def getRealOffset (offset : Int) (size : Nat) : Option Nat :=
  let real := if 0 ≤ offset then offset else size + offset
  if real < 0 ∨ (size : Int) ≤ real then none else some real.toNat

/-- `get_substring`; without a length, everything after the offset. -/
def getSubstring (name : String) (offset : Int) (length : Option Nat) (index : UInt32) :
    Shell String := do
  let value ← resolveString name index
  match getRealOffset offset value.length with
  | none => pure ""
  | some start => pure (String.ofList ((value.toList.drop start).take (length.getD value.length)))

/-- The elements that `get_subarray` puts in front, and the offset it goes on
with. -/
def subarrayStart (name : String) (offset : Int) : Shell (List String × Int) :=
  if name == "*" || name == "@" then
    if 0 < offset then pure ([], offset - 1)
    else if offset = 0 then do
      let script ← resolveString "0" 0
      pure ([script], offset)
    else pure ([], offset)
  else pure ([], offset)

/-- `get_subarray`, of fewer than `2 ^ 32` elements: with more the cast of the size throws. -/
def getSubarray (name : String) (offset : Int) (length : Option Nat) : Shell String := do
  let start ← subarrayStart name offset
  match ← resolveArray name with
  | none => pure ""
  | some values =>
    let array := start.1 ++ values
    match getRealOffset start.2 array.length with
    | none => pure ""
    | some from' => do
      let delim ← joiner
      pure (delim.intercalate ((array.drop from').take (length.getD array.length)))

/-- The check of `do_substring_expansion` and `do_subarray_expansion`, whose
length is an `int`. -/
def checkLength (length : Int64) : Shell Nat :=
  if length.toInt32 < 0 then
    throw (.error .illegalArgument
      "length of substring expression should be greater or equal to zero")
  else pure length.toInt32.toInt.toNat

/-- `replace_expansion`; no index stands for the whole array. -/
def replaceExpansion (name : String) (index : Option UInt32) (replacer : String → String) :
    Shell String :=
  match index with
  | some index => do
    let value ← resolveString name index
    pure (replacer value)
  | none => do
    let array ← resolveArray name
    let delim ← joiner
    pure (delim.intercalate ((array.getD []).map replacer))

/-- The value of an operand that is a variable. -/
def primaryValue (p : String × UInt32) : Shell Int64 := do
  let text ← resolveString p.1 p.2
  if text.isEmpty then pure 0 else evalArithmetic text

end Shell

namespace CountOp

/-- What is added to the variable. -/
def step : CountOp → Int64
  | preIncr | postIncr => 1
  | preDecr | postDecr => -1

/-- What is added to the new value for the result. -/
def back : CountOp → Int64
  | preIncr | preDecr => 0
  | postIncr => -1
  | postDecr => 1

/-- The expression for a value that is no number. -/
def text : CountOp → String → String
  | preIncr => ("++" ++ ·)
  | preDecr => ("--" ++ ·)
  | postIncr => (· ++ "++")
  | postDecr => (· ++ "--")

end CountOp

namespace Shell

/-- The action of the nodes that count a variable up or down. -/
def countVariable (op : CountOp) (p : String × UInt32) : Shell Int64 := do
  let value ← resolveString p.1 p.2
  if Arith.isNumber value then do
    let old ← resolveLong p.1 p.2
    let new ← setNumber p.1 (old + op.step) p.2
    pure (new + op.back)
  else if value.isEmpty then pure 0
  else evalArithmetic (op.text value)

/-- The action of a binary operator. -/
def binaryAct (op : Arith.BinaryOp) (l r : Int64) : Shell Int64 :=
  match op.apply l r with
  | some v => pure v
  | none => throw .undefinedBehaviour

/-- The action of a compound assignment. -/
def updateVariable (op : Arith.AssignOp) (p : String × UInt32) (l : Int64) : Shell Int64 := do
  let old ← resolveLong p.1 p.2
  let new ← binaryAct op.binary old l
  setNumber p.1 new p.2

/-- `boost::lexical_cast<long>`. -/
def castLong (text : String) : Shell Int64 :=
  match lexicalCastLong text with
  | some v => pure v
  | none => throw .badLexicalCast

/-- What the name of a character class stands for in a bracket expression. -/
def characterClass (name : String) : String :=
  if name == "word" then "A-Za-z0-9_"
  else if name == "ascii" then "\\x00-\\x7F"
  else "[:" ++ name ++ ":]"

/-- `check_extglob`, and what is not supported. -/
def checkExtended (kind : ExtendedMatch) : Shell Unit := do
  if ← perform (.getAdditionalOption "extglob") then
    if kind = .none then throw (.error .unsupported "!(blah) is not supported for now")
    else pure ()
  else
    throw (.error .unsupported "Entered extended pattern matching with extglob disabled")

end Shell

/-- What `string_part` returns. -/
structure PartValue where
  value : String
  quoted : Bool := false
  isRawString : Bool := true

/-- The variables of `string_expr`. -/
structure StringState where
  braceExpansionBase : List String := [""]
  quoted : Bool := true
  isRawString : Bool := true

/-- What `string_expr` returns. -/
structure StringValue where
  value : String
  quoted : Bool

namespace StringState

def addPart (s : StringState) (p : PartValue) : StringState where
  braceExpansionBase := s.braceExpansionBase.map (· ++ p.value)
  quoted := p.quoted
  isRawString := s.isRawString && p.isRawString

def addBrace (s : StringState) (elements : List String) : StringState :=
  { s with braceExpansionBase := s.braceExpansionBase.flatMap fun b => elements.map (b ++ ·) }

/-- The `@after` action. -/
def finish (s : StringState) : Shell StringValue :=
  if !s.isRawString && decide (1 < s.braceExpansionBase.length) then
    throw (.error .unsupported "We only support brace expansion in raw string for now")
  else pure ⟨" ".intercalate s.braceExpansionBase, s.quoted⟩

end StringState

/-- The text of a bracket expression, once it is compiled. -/
def Host.bracket (host : Host) (text : String) : Shell RegexToken :=
  match host.compileMatch text "" with
  | .ok _ => pure (.bracket text)
  | .error e => throw e

namespace Shell

/-! ## Rules -/

section Rules

variable (host : Host)

mutual

/-- `string_expr`. -/
def stringExpr : Word → Shell StringValue
  | .string parts => do
    let s ← wordParts {} parts
    s.finish

def wordParts (s : StringState) : List WordPart → Shell StringState
  | [] => pure s
  | .part p :: ps => do
    let v ← stringPart p
    wordParts (s.addPart v) ps
  | .brace elements :: ps => do
    let values ← braceExpansion elements
    wordParts (s.addBrace values) ps

/-- `brace_expansion`. -/
def braceExpansion : List Word → Shell (List String)
  | [] => pure []
  | w :: ws => do
    let v ← stringExpr w
    let values ← braceExpansion ws
    pure (v.value :: values)

/-- `string_part`. -/
def stringPart : StringPart → Shell PartValue
  | .doubleQuoted parts => quotedParts { value := "" } parts
  | .singleQuoted text => pure { value := text, quoted := true }
  | .arith e => do
    let value ← arithmetics e
    pure { value := toString value.toInt, isRawString := false }
  | .varRef r => do
    let text ← varRef r
    pure { value := text, isRawString := false }
  | .commandSub subscript => do
    let text ← commandSubstitution subscript
    pure { value := text, isRawString := false }
  | .ansiC text =>
    if (transformEscapes true text).2 then throw .suppressOutput
    else pure { value := (transformEscapes true text).1, quoted := true }
  | .escaped text => pure { value := "\\" ++ text }
  | .text text => pure { value := text }

def quotedParts (v : PartValue) : List QuotedPart → Shell PartValue
  | [] => pure v
  | p :: ps => do
    let text ← doubleQuotedString p
    quotedParts { v with value := v.value ++ text, quoted := true } ps

/-- `double_quoted_string`. -/
def doubleQuotedString : QuotedPart → Shell String
  | .varRef r => varRef r
  | .arith e => do
    let value ← arithmetics e
    pure (toString value.toInt)
  | .commandSub subscript => commandSubstitution subscript
  | .text text => pure text

/-- `var_ref`. -/
def varRef : VarRef → Shell String
  | .var n => do
    let p ← varName n
    resolveString p.1 p.2
  | .array n => do
    let name ← arrayName n
    getAllElementsIFSJoined name
  | .pound => do
    let size ← getArrayLength "*"
    pure (toString size)
  | .qmark => do
    let status ← perform .getStatus
    pure (toString status)
  | .bang => do
    perform (.writeError "$! has not been implemented yet\n")
    pure ""
  | .expansion e => varExpansion e

/-- `var_name`. The last alternatives leave the index at 0. -/
def varName : ParameterName → Shell (String × UInt32)
  | .num digits => do
    let index ← lexicalCastUnsigned digits
    pure (numberedName index)
  | .name n => nameRule n
  | .indirectNum digits => do
    let name ← resolveString digits 0
    pure (name, 0)
  | .indirectName n => do
    let p ← nameRule n
    let name ← resolveString p.1 0
    pure (name, 0)
  | .indirectPound => do
    let index ← getArrayLength "*"
    pure (if index ≠ 0 then "*" else "0", 0)
  | .minus => pure ("-", 0)

/-- `name`. -/
def nameRule : Name → Shell (String × UInt32)
  | .base libbashName => pure (libbashName.text, 0)
  | .element libbashName e => do
    let value ← arithmetics e
    let index ← setIndex libbashName.text value
    pure (libbashName.text, index)

/-- `array_name`. -/
def arrayName : ArrayName → Shell String
  | .array n => do
    let p ← nameRule n
    pure p.1
  | .times | .at => pure "*"

/-- `var_or_array_name`, whose index is an `int`. -/
def varOrArrayName : VarOrArrayName → Shell (String × Option UInt32)
  | .array n => do
    let name ← arrayName n
    pure (name, none)
  | .var n => do
    let p ← varName n
    pure (p.1, if p.2.toInt32 < 0 then none else some p.2)

/-- `var_expansion`. -/
def varExpansion : VarExpansion → Shell String
  | .useDefault orNull n w => do
    let p ← varName n
    let word ← rawString w
    defaultExpansion orNull p word
  | .assignDefault orNull n w => do
    let p ← varName n
    let word ← rawString w
    assignExpansion orNull p word
  | .useAlternate orNull n w => do
    let p ← varName n
    let word ← rawString w
    alternateExpansion orNull p word
  | .subarray n offset => do
    let name ← arrayName n
    let offset ← arithmetics offset
    getSubarray name offset.toInt none
  | .subarrayLength n offset length => do
    let name ← arrayName n
    let offset ← arithmetics offset
    let length ← arithmetics length
    let length ← checkLength length
    getSubarray name offset.toInt (some length)
  | .substring n offset => do
    let p ← varName n
    let offset ← arithmetics offset
    getSubstring p.1 offset.toInt none p.2
  | .substringLength n offset length => do
    let p ← varName n
    let offset ← arithmetics offset
    let length ← arithmetics length
    let length ← checkLength length
    getSubstring p.1 offset.toInt (some length) p.2
  | .length n => do
    let p ← varName n
    let size ← getLength p.1 p.2
    pure (toString size)
  | .arraySize libbashName => do
    let size ← getArrayLength libbashName.text
    pure (toString size)
  | .replace kind n pattern none => do
    let p ← varOrArrayName n
    let regex ← bashPattern none pattern
    replaceExpansion p.1 p.2 (host.replace kind regex "")
  | .replace kind n pattern (some w) => do
    let p ← varOrArrayName n
    let regex ← bashPattern none pattern
    let word ← rawString w
    replaceExpansion p.1 p.2 (host.replace kind regex word)

/-- `bash_pattern` and `composite_pattern`; inside a bracket expression, the text
of the expression so far. -/
def bashPattern (inside : Option String) : List PatternToken → Shell (List RegexToken)
  | [] => pure []
  | .matchAll :: ts => do
    let regex ← bashPattern inside ts
    pure (.matchAll :: regex)
  | .matchOne :: ts => do
    let regex ← bashPattern inside ts
    pure (.matchOne :: regex)
  | .openBracket negation :: ts => bashPattern (some (if negation then "[^" else "[")) ts
  | .characterClass name :: ts =>
    bashPattern (inside.map (· ++ characterClass name)) ts
  | .closeBracket :: ts => do
    let token ← host.bracket (inside.getD "" ++ "]")
    let regex ← bashPattern none ts
    pure (token :: regex)
  | .openExtended kind :: ts => do
    let regex ← bashPattern inside ts
    pure (.openExtended kind :: regex)
  | .closeExtended kind :: ts => do
    checkExtended kind
    let regex ← bashPattern inside ts
    pure (.closeExtended kind :: regex)
  | .branch :: ts => do
    let regex ← bashPattern inside ts
    pure (.branch :: regex)
  | .part p :: ts => do
    let v ← stringPart p
    match inside with
    | some text => bashPattern (some (text ++ v.value)) ts
    | none => do
      let regex ← bashPattern none ts
      pure (.text v.value :: regex)

/-- `arithmetics`. -/
def arithmetics : ArithExpr → Shell Int64
  | .parts ps => arithmeticParts 0 ps
  | .missing => throw .recognition
  | .num text => pure (host.toInt32 text).toInt64
  | .unary op l => do
    let l ← arithmetics l
    pure (op.act l)
  | .binary op l r => do
    let l ← arithmetics l
    let r ← arithmetics r
    binaryAct op l r
  | .logic op l r => do
    let l ← arithmetics l
    if op.short l then
      -- One node is skipped; of an operand of several the walker meets the next, of none it
      -- has skipped `UP`.
      if r.isNode then pure op.shortValue else throw .recognition
    else do
      let r ← arithmetics r
      pure (Arith.ofBool (r != 0))
  | .condition cnd l r => do
    let cnd ← arithmetics cnd
    let l ← arithmetics l
    let r ← arithmetics r
    pure (if cnd ≠ 0 then l else r)
  | .primary p => do
    let p ← primary p
    primaryValue p
  | .count op p => do
    let p ← primary p
    countVariable op p
  | .equals p l => do
    let p ← primary p
    let l ← arithmetics l
    setNumber p.1 l p.2
  | .assign op p l => do
    let p ← primary p
    let l ← arithmetics l
    updateVariable op p l
  | .expression l => arithmetics l
  | .expansion e => do
    let text ← varExpansion e
    castLong text

/-- The loop of `arithmetics`. -/
def arithmeticParts (value : Int64) : List ArithExpr → Shell Int64
  | [] => pure value
  | e :: es => do
    let value ← arithmetics e
    arithmeticParts value es

/-- `primary`. -/
def primary : Primary → Shell (String × UInt32)
  | .name n => nameRule n
  | .varRef r => do
    let name ← varRef r
    pure (name, 0)

end

theorem bashPattern_nil (inside : Option String) : bashPattern host inside [] = pure [] := by
  rw [bashPattern]

theorem varExpansion_assignDefault (orNull : Bool) (n : ParameterName) (w : RawString) :
    varExpansion host (.assignDefault orNull n w) =
      varName host n >>= fun p => rawString w >>= fun word => assignExpansion orNull p word := by
  rw [varExpansion]

end Rules

end Shell

end Libbash
