import Libbash.Interp.Expand

/-!
# The builtins

`exec` of the classes under `builtins`. A builtin returns its status; the
streams it uses are the current ones.
-/

namespace Libbash

open Lib Lib.Program

/-- `boost::lexical_cast<int>`. -/
def lexicalCastInt (text : String) : Option Int :=
  match text.toList with
  | '-' :: ds => (magnitude (2 ^ 31) ds).map fun n => -(n : Int)
  | '+' :: ds => (magnitude (2 ^ 31 - 1) ds).map Int.ofNat
  | ds => (magnitude (2 ^ 31 - 1) ds).map Int.ofNat

/-- `boost::split` at every delimiter. -/
def splitAt (p : Char → Bool) : List Char → List (List Char)
  | [] => [[]]
  | c :: cs =>
    if p c then [] :: splitAt p cs
    else
      match splitAt p cs with
      | [] => [[c]]
      | token :: tokens => (c :: token) :: tokens

/-- `boost::split` at every space. -/
def splitSpaces (text : String) : List String :=
  (splitAt (· == ' ') text.toList).map String.ofList

/-- The words that `>>` reads from a stream. -/
def streamWords (text : String) : List String :=
  let isspace (c : Char) : Bool :=
    isBlank c || c == '\r' || c == Char.ofNat 11 || c == Char.ofNat 12
  ((splitAt isspace text.toList).filter fun w => !w.isEmpty).map String.ofList

namespace Shell

def illegal {α : Type} (what : String) : Shell α := throw (.error .illegalArgument what)

def unsupported {α : Type} (what : String) : Shell α := throw (.error .unsupported what)

/-! ## Control -/

/-- The constructors of the loop control exceptions. -/
def throwLoopControl (kind : LoopControl) (builtin : String) (nth : Int) : Shell Int :=
  if nth < 1 then illegal (builtin ++ ": argument should be greater than or equal to 1")
  else throw (.loopControl kind nth)

/-- The common part of `break` and `continue`, which differ in the class of their
own errors. -/
def loopControlBuiltin (kind : LoopControl) (builtin : String) (error : ErrorKind)
    (args : List String) : Shell Int :=
  match args with
  | [] => throwLoopControl kind builtin 1
  | [arg] =>
    match lexicalCastInt arg with
    | some nth => throwLoopControl kind builtin nth
    | none => throw (.error error (builtin ++ ": argument should be an integer"))
  | _ => throw (.error error (builtin ++ ": too many arguments"))

def breakBuiltin : List String → Shell Int := loopControlBuiltin .breakException "break" .interpreter

def continueBuiltin : List String → Shell Int :=
  loopControlBuiltin .continueException "continue" .illegalArgument

/-- `boost::lexical_cast<int>` that nobody guards. -/
def castInt (text : String) : Shell Int :=
  match lexicalCastInt text with
  | some n => pure n
  | none => throw .badLexicalCast

def returnBuiltin : List String → Shell Int
  | [] => throw .returnException
  | [arg] => do
    let status ← castInt arg
    perform (.setStatus status)
    throw .returnException
  | _ => illegal "return: too many arguments"

/-! ## Scripts -/

def evalBuiltin (args : List String) : Shell Int := do
  perform (.interpretScript .start (" ".intercalate args))
  perform .getStatus

/-- `parse` of `source_builtin.cpp`. -/
def parseCached (path : String) : Shell AstId := do
  match ← perform (.findCached path) with
  | none => do
    perform (.insertCached path none)
    let a ← perform (.constructFile path)
    perform (.insertCached path (some a))
    pure a
  | some none => throw (.error .parse (path ++ " cannot be fully parsed"))
  | some (some a) => pure a

/-- Handle `return_exception`. -/
def catchReturn (p : Shell Unit) : Shell Unit :=
  tryCatch p fun
    | .returnException => pure ()
    | e => throw e

def scriptName : GlobalName := ⟨"0", by decide⟩

def sourceBuiltin : List String → Shell Int
  | [] => illegal "source: argument required"
  | path :: _ => do
    let originalPath ← resolveString "0" 0
    perform (.define scriptName (.scalar (.str path) 0) true)
    catchReturn do
      let a ← parseCached path
      perform (.interpret a)
    perform (.define scriptName (.scalar (.str originalPath) 0) true)
    perform .getStatus

/-! ## Declarations -/

/-- Walk the text of variable definitions. -/
def defineVariables (isLocal : Bool) (script : String) : Shell Unit :=
  perform (.interpretScript (.builtinVariableDefinitions isLocal) script)

def exportBuiltin (args : List String) : Shell Int := do
  defineVariables false (String.join args)
  pure 0

def localBuiltin (args : List String) : Shell Int := do
  defineVariables true (String.join args)
  pure 0

/-- `declare -F` with names: whether all of them are functions. -/
def printFunctions (result : Int) : List String → Shell Int
  | [] => pure result
  | name :: names => do
    if ← perform (.hasFunction name) then do
      perform (.write (name ++ "\n"))
      printFunctions result names
    else printFunctions 1 names

/-- `declare -F` without names. -/
def printAllFunctions : List String → Shell Int
  | [] => pure 0
  | name :: names => do
    perform (.write ("declare -f " ++ name ++ "\n"))
    printAllFunctions names

/-- `declare -p` with names. -/
def printVariables (result : Int) : List String → Shell Int
  | [] => pure result
  | name :: names => do
    if ← isUnset name then do
      perform (.write ("-bash: declare: " ++ name ++ ": not found\n"))
      printVariables 1 names
    else do
      let value ← resolveString name 0
      perform (.write ("declare -- " ++ name ++ "=\"" ++ value ++ "\"\n"))
      printVariables result names

/-- The definitions of `declare`, after `skipped` characters of options. -/
def declareVariables (skipped : Nat) (optionGlobal : Bool) (args : List String) : Shell Int := do
  let script := String.join (args.map (· ++ " "))
  let isLocal ← perform .isLocalScope
  defineVariables (isLocal && !optionGlobal) (String.ofList (script.toList.drop skipped))
  pure 0

/-- The options of `declare`. -/
def declareOption (sign letter : Char) (option : String) (tokens args : List String) : Shell Int :=
  match letter with
  | 'F' =>
    if sign = '+' then pure 0
    else if tokens.isEmpty then do
      let functions ← perform .allFunctionNames
      printAllFunctions functions
    else printFunctions 0 tokens
  | 'p' =>
    if tokens.isEmpty then unsupported "We do not support declare -p without arguments for now"
    else printVariables 0 tokens
  | 'a' | 'i' => declareVariables option.length false args
  | 'g' => declareVariables option.length true args
  | 'A' | 'f' | 'l' | 'r' | 't' | 'u' | 'x' =>
    unsupported ("declare " ++ option ++ " is not supported yet")
  | _ => illegal ("declare: unrecognized option: " ++ option)

def declareBuiltin (args : List String) : Shell Int :=
  match args with
  | [] => illegal "declare: arguments required"
  | arg :: _ =>
    let tokens := splitSpaces arg
    let option := tokens.headD ""
    match option.toList with
    | sign :: letters =>
      if sign = '-' ∨ sign = '+' then
        if 2 < option.length then unsupported ("declare: " ++ option ++ " is not supported yet")
        else declareOption sign (letters.headD (Char.ofNat 0)) option tokens.tail args
      else declareVariables 0 false args
    | [] => declareVariables 0 false args

/-! ## Parameters, options and names -/

/-- The options of `set`; the letters before `u` fall through to it. -/
def setLetter (sign letter : Char) (arg : String) (args : List String) : Shell Int :=
  if letter = '-' then
    if sign ≠ '-' then unsupported "set: invalid option"
    else do
      perform (.definePositionalArguments args)
      pure 0
  else if "abefhkmnptu".toList.contains letter then do
    perform (.setOption 'u' (sign = '-'))
    pure 0
  else if "vxBCEHPT".toList.contains letter then
    unsupported ("set " ++ arg ++ " is not supported yet")
  else illegal ("set: unrecognized option: " ++ arg)

def setBuiltin : List String → Shell Int
  | [] => unsupported "set: variables printing are not supported"
  | arg :: args =>
    match arg.toList with
    | [] => illegal "set: invalid option"
    | sign :: letters =>
      if sign ≠ '-' ∧ sign ≠ '+' then illegal "set: invalid option"
      else setLetter sign (letters.headD (Char.ofNat 0)) arg args

def unsetFunctions : List String → Shell Unit
  | [] => pure ()
  | name :: names => do
    perform (.unsetFunction name)
    unsetFunctions names

/-- `index_pattern`: a name and digits in brackets. -/
def elementPattern (name : String) : Option (String × String) :=
  match name.toList.reverse with
  | ']' :: cs =>
    match cs.span Char.isDigit with
    | (digits, '[' :: base) => some (String.ofList base.reverse, String.ofList digits.reverse)
    | _ => none
  | _ => none

def unsetVariables : List String → Shell Unit
  | [] => pure ()
  | name :: names => do
    match elementPattern name with
    | some (base, digits) => do
      let index ← lexicalCastUnsigned digits
      perform (.unsetIndex base index)
      unsetVariables names
    | none => do
      perform (.unset name)
      unsetVariables names

def unsetBuiltin : List String → Shell Int
  | [] => pure 0
  | arg :: args => do
    if arg = "-f" then unsetFunctions args
    else unsetVariables (if arg = "-v" then args else arg :: args)
    pure 0

/-- `interpreter::shift`. -/
def shiftBy (number : Int) : Shell Int :=
  if number < 0 then pure 1 else perform (.shift (.ofNat number.toNat))

def shiftBuiltin : List String → Shell Int
  | [] => shiftBy 1
  | [arg] => do
    let number ← castInt arg
    shiftBy number
  | _ => illegal "shift: the number of arguments should be 1"

def letBuiltin (args : List String) : Shell Int := do
  let _ ← evalArithmetic (" ".intercalate args)
  pure 0

/-- `set_opt`. -/
def setAdditionalOptions (value : Bool) : List String → Shell Unit
  | [] => pure ()
  | name :: names => do
    perform (.setAdditionalOption name value)
    setAdditionalOptions value names

/-- `print_opts`. -/
def printOptions : List (String × Bool) → Shell Unit
  | [] => pure ()
  | (name, value) :: options => do
    perform (.write ("shopt " ++ (if value then "-s " else "-u ") ++ name ++ "\n"))
    printOptions options

def shoptBuiltin : List String → Shell Int
  | [] => illegal "shopt: arguments required"
  | arg :: args =>
    match arg.toList with
    | [_, 'u'] => do
      setAdditionalOptions false args
      pure 0
    | [_, 's'] => do
      setAdditionalOptions true args
      pure 0
    | [_, 'p'] => do
      let options ← perform .additionalOptions
      printOptions options
      pure 0
    | [_, 'q'] | [_, 'o'] => unsupported ("shopt " ++ arg ++ " is not supported yet")
    | [_, _] => illegal ("shopt: unrecognized option: " ++ arg)
    | _ => unsupported "shopt: multiple arguments are not supported"

/-! ## Input and output -/

end Shell

/-- The options of `echo`. -/
structure EchoOptions where
  suppressNl : Bool := false
  enableEscapes : Bool := false

/-- `determine_options` of one argument: `none` when it is no option. -/
def EchoOptions.determine (o : EchoOptions) (arg : String) : Option EchoOptions :=
  match arg.toList with
  | [] => some o
  | '-' :: c :: cs =>
    if (c :: cs).all fun c => c == 'n' || c == 'e' || c == 'E' then
      some {
        suppressNl := o.suppressNl || (c :: cs).contains 'n'
        enableEscapes :=
          match (c :: cs).reverse.find? fun c => c == 'e' || c == 'E' with
          | some c => c == 'e'
          | none => o.enableEscapes }
    else none
  | _ => none

namespace Shell

/-- The arguments of `echo -e`: whether all of them are written. -/
def echoEscaped : List String → Shell Bool
  | [] => pure true
  | arg :: args => do
    perform (.write (transformEscapes false arg).1)
    if (transformEscapes false arg).2 then pure false else echoEscaped args

/-- The end of `echo`. -/
def echoNewline (o : EchoOptions) : Shell Unit :=
  if o.suppressNl then pure () else perform (.write "\n")

/-- The arguments of `echo` after its options. -/
def echoArguments (o : EchoOptions) (args : List String) : Shell Unit :=
  if o.enableEscapes then do
    if ← echoEscaped args then echoNewline o else pure ()
  else do
    perform (.write (" ".intercalate args))
    echoNewline o

/-- The loop of `echo` over its options. -/
def echoLoop (o : EchoOptions) : List String → Shell Unit
  | [] => pure ()
  | arg :: args =>
    match o.determine arg with
    | some o => echoLoop o args
    | none => echoArguments o (arg :: args)

def echoBuiltin : List String → Shell Int
  | [] => do
    perform (.write "\n")
    pure 0
  | args => do
    echoLoop {} args
    pure 0

/-- `transform_escapes` whose `suppress_output` nobody handles. -/
def escaped (text : String) : Shell String :=
  if (transformEscapes false text).2 then throw .suppressOutput
  else pure (transformEscapes false text).1

/-- The text that `printf` prints or assigns. -/
def formatted (host : Host) (format : String) (args : List String) : Shell String := do
  let formatString ← escaped format
  match host.format formatString args with
  | .ok text => pure text
  | .error e => throw e

def printfBuiltin (host : Host) : List String → Shell Int
  | [] => throw .undefinedBehaviour
  | arg :: args =>
    if arg = "-v" then
      match args with
      | name :: format :: args => do
        let text ← formatted host format args
        perform (.setValue name (.str text) 0)
        pure 0
      | _ => illegal "printf: illegal number of arguments"
    else do
      let text ← formatted host arg args
      if arg.toList.head? = some '-' then illegal ("printf: invalid option: " ++ arg)
      else do
        perform (.write text)
        pure 0

/-- `process`: the last variable gets what is left of the words. -/
def process : List String → List String → Shell Unit
  | [], _ => pure ()
  | name :: names, [] => do
    perform (.setValue name (.str "") 0)
    process names []
  | [name], words => perform (.setValue name (.str (" ".intercalate words)) 0)
  | name :: names, word :: words => do
    perform (.setValue name (.str word) 0)
    process names words

def readBuiltin (args : List String) : Shell Int := do
  let input ← perform .readInput
  match input.1 with
  | none => pure input.2
  | some text => do
    let formatedInput ← escaped text
    process (if args.isEmpty then ["REPLY"] else args) (splitSpaces formatedInput)
    pure input.2

/-! ## `inherit` -/

/-- `append_global`. -/
def appendGlobal (name : String) : Shell Unit := do
  if ← isUnsetOrNull name 0 then pure ()
  else do
    let old ← resolveString ("E_" ++ name) 0
    let value ← resolveString name 0
    perform (.setValue ("E_" ++ name) (.str (old ++ " " ++ value)) 0)

/-- `restore_global`. -/
def restoreGlobal (name value : String) : Shell Unit :=
  if value ≠ "" then perform (.setValue name (.str value) 0) else perform (.unset name)

/-- `backup_global`. -/
def backupGlobal (name : String) : Shell String := do
  let value ← resolveString name 0
  perform (.unset name)
  pure value

def backupGlobals : List String → Shell (List String)
  | [] => pure []
  | name :: names => do
    let value ← backupGlobal name
    let values ← backupGlobals names
    pure (value :: values)

def appendGlobals : List String → Shell Unit
  | [] => pure ()
  | name :: names => do
    appendGlobal name
    appendGlobals names

def restoreGlobals : List (String × String) → Shell Unit
  | [] => pure ()
  | (name, value) :: rest => do
    restoreGlobal name value
    restoreGlobals rest

/-- The variables that `inherit` takes from the caller. -/
def inheritedGlobals : List String := ["IUSE", "REQUIRED_USE", "DEPEND", "RDEPEND", "PDEPEND"]

/-- Whether the characters of one text occur in another. -/
def hasSubstring (cs : List Char) : List Char → Bool
  | [] => cs.isEmpty
  | d :: ds => cs.isPrefixOf (d :: ds) || hasSubstring cs ds

/-- `hasq`. -/
def hasq (value name : String) : Shell Bool := do
  let target ← resolveString name 0
  pure (hasSubstring value.toList target.toList)

/-- The text of the function that `inherit` defines for an exported one. -/
def exportedFunction (eclass funcName : String) : String :=
  funcName ++ "() \x7b " ++ eclass ++ "_" ++ funcName ++ " \"$@\" ; \x7d"

def defineExported : List String → Shell Unit
  | [] => pure ()
  | funcName :: funcNames => do
    let eclass ← resolveString "ECLASS" 0
    let _ ← evalBuiltin [exportedFunction eclass funcName]
    defineExported funcNames

/-- The functions named by the variable that `__export_funcs_var` names. -/
def exportFunctions : Shell Unit := do
  let var ← resolveString "__export_funcs_var" 0
  if ← isUnset var then pure ()
  else do
    let var ← resolveString "__export_funcs_var" 0
    let funcNames ← resolveString var 0
    defineExported (streamWords funcNames)

/-- `unset` of the variable that `__export_funcs_var` names. -/
def unsetExported : Shell Unit := do
  let var ← resolveString "__export_funcs_var" 0
  perform (.unset var)

def exportFuncsVar : GlobalName := ⟨"__export_funcs_var", by decide⟩

/-- One eclass. -/
def inheritEclass (eclassdir eclass : String) : Shell Unit := do
  perform (.setValue "ECLASS" (.str eclass) 0)
  let depth ← resolveString "ECLASS_DEPTH" 0
  perform (.define exportFuncsVar (.scalar (.str ("__export_functions_" ++ depth)) 0) false)
  unsetExported
  let backup ← backupGlobals inheritedGlobals
  let _ ← sourceBuiltin [eclassdir ++ eclass ++ ".eclass"]
  appendGlobals inheritedGlobals
  restoreGlobals (inheritedGlobals.zip backup)
  exportFunctions
  unsetExported
  if ← hasq eclass "INHERITED" then pure ()
  else do
    let inherited ← resolveString "INHERITED" 0
    perform (.setValue "INHERITED" (.str (inherited ++ " " ++ eclass)) 0)

def inheritEclasses (eclassdir : String) : List String → Shell Unit
  | [] => pure ()
  | eclass :: eclasses => do
    inheritEclass eclassdir eclass
    inheritEclasses eclassdir eclasses

/-- The eclass directory. -/
def eclassDirectory (host : Host) : String :=
  match host.getenv "ECLASSDIR" with
  | some dir => dir ++ "/"
  | none => "/usr/portage/eclass/"

def inheritBuiltin (host : Host) (args : List String) : Shell Int := do
  let depth ← resolveLong "ECLASS_DEPTH" 0
  perform (.setValue "ECLASS_DEPTH" (.num (depth + 1)) 0)
  let peclass ← resolveString "ECLASS" 0
  let _ ← resolveString "__export_funcs_var" 0
  inheritEclasses (eclassDirectory host) args
  let depth ← resolveLong "ECLASS_DEPTH" 0
  perform (.setValue "ECLASS_DEPTH" (.num (depth - 1)) 0)
  let depth ← resolveLong "ECLASS_DEPTH" 0
  if 0 < depth then do
    perform (.setValue "ECLASS" (.str peclass) 0)
    pure 0
  else do
    perform (.unset "ECLASS")
    perform (.unset "__export_funcs_var")
    pure 0

/-! ## The table -/

/-- `builtins`. -/
def builtins (host : Host) : List (String × (List String → Shell Int)) :=
  [("break", breakBuiltin), ("continue", continueBuiltin), ("echo", echoBuiltin),
    ("eval", evalBuiltin), ("export", exportBuiltin), ("local", localBuiltin),
    ("declare", declareBuiltin), ("source", sourceBuiltin), ("shift", shiftBuiltin),
    ("shopt", shoptBuiltin), ("inherit", inheritBuiltin host), (":", fun _ => pure 0),
    ("true", fun _ => pure 0), ("false", fun _ => pure 1), ("return", returnBuiltin),
    ("printf", printfBuiltin host), ("let", letBuiltin), ("unset", unsetBuiltin),
    ("read", readBuiltin), ("set", setBuiltin)]

end Shell

end Libbash
