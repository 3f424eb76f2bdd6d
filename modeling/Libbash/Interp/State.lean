import Libbash.Lib.Program
import Libbash.Core.StoreBindings
import Libbash.Interp.Syntax
import Libbash.Parser.Lexer

/-!
# The state of the interpreter and its operations

`Interpreter` has the fields of the class `interpreter`, with the `bash_ast`
objects, the cache of `source` and the streams that its pointers refer to. An
object is known by the order of its construction; one that has been destroyed
stays in the list and is marked.

The walker rules and the builtins are programs over `Op`, the member functions
of the interpreter and the constructors they call, and over `Bracket`, the
objects that undo something in their destructor. `performOp` says what an
operation does, `acquire` and `release` what a bracket does.

`log` and `budget` are no part of the program: the log is the history of the
operations, newest first, that the theorems speak about, and the budget lets
them speak about a run that has not ended: it interrupts the run after so many
steps.
-/

namespace Libbash

open Lib Lib.Comp

/-! ## The state -/

/-- A `bash_ast` object. -/
abbrev AstId := Nat

/-- The class `function`. -/
structure Function where
  ast : AstId
  index : Nat
  deriving DecidableEq

/-- The three stream pointers. -/
structure Streams where
  out : Nat
  err : Nat
  inp : Nat
  deriving DecidableEq

/-- A `std::istream`: the characters that are left, and its `eof` and `fail`
bits. -/
structure InputStream where
  text : List Char
  eof : Bool := false
  fail : Bool := false

/-- What an operation does to a binding. -/
inductive Write where
  | update | define | erase
  deriving DecidableEq

/-- The history of a run. A variable is written at a level: 0 is `members`, and
`k` is the `k`-th frame of `local_members`. -/
inductive Event where
  | wrote (how : Write) (name : String) (level : Nat)
  /-- `define_function` with a function of the tree `walked`. -/
  | defined (name : String) (f : Function) (walked : AstId)
  | removed (name : String)
  /-- `function::call`, with the variables that the body starts with. -/
  | called (name : String) (f : Function) (store : Store)
  /-- The destructor of a `bash_ast`. -/
  | ended (a : AstId)
  | interrupted

/-- The letters of the options. -/
def optionLetters : List Char := "abefhkmnptuvxBCEHPT".toList

/-- The map of the options, which the constructor fills and `set_option` only
updates. -/
structure Options where
  value : Std.ExtTreeMap Char Bool
  known : ∀ c ∈ optionLetters, value[c]?.isSome

def Options.set (o : Options) (c : Char) (value : Bool) : Options where
  value := o.value.insert c value
  known x hx := by
    rw [Std.ExtTreeMap.getElem?_insert]
    split_ifs
    · rfl
    · exact o.known x hx

structure Interpreter where
  store : Store
  functions : Std.ExtTreeMap String Function
  astStack : List AstId
  streams : Streams
  additionalOptions : Std.ExtTreeMap String Bool
  options : Options
  status : Int
  asts : List Tree
  destroyed : List AstId
  astCache : Std.ExtTreeMap String (Option AstId)
  outputs : List String
  inputs : List InputStream
  log : List Event
  budget : Option Nat

namespace Interpreter

/-- The tree of an object that has not been destroyed. -/
def tree (s : Interpreter) (a : AstId) : Option Tree :=
  if a ∈ s.destroyed then none else s.asts[a]?

def record (e : Event) (s : Interpreter) : Interpreter := { s with log := e :: s.log }

end Interpreter

/-- `check_function_name`. -/
def checkFunctionName (name : String) : Bool :=
  let special (c : Char) : Bool := "$'\"() \n\r".toList.contains c
  let tail (cs : List Char) : Bool :=
    match cs with
    | [] => false
    | c :: cs => !c.isDigit && !special c && cs.all fun c => !special c
  match name.toList with
  | [] => false
  | c :: cs => tail (c :: cs) || (c.isDigit && tail cs)

/-- `functions.insert`, while the tree of `walked` is walked. -/
def Interpreter.insertFunction (name : String) (f : Function) (walked : AstId) (s : Interpreter) :
    Interpreter :=
  { s.record (.defined name f walked) with functions := s.functions.insertIfNew name f }

/-! ## What the interpreter uses from outside -/

/-- The functors that `bash_ast` is constructed with. -/
inductive ParserRule where
  | start
  | allExpansions
  | arithmetics
  | builtinVariableDefinitions (isLocal : Bool)
  deriving DecidableEq

/-- A token of an evaluated pattern. -/
inductive RegexToken where
  | matchAll
  | matchOne
  /-- The text of a bracket expression. -/
  | bracket (text : String)
  | openExtended (kind : ExtendedMatch)
  | closeExtended (kind : ExtendedMatch)
  | branch
  | text (s : String)
  deriving DecidableEq

/-- The parser, the files, the environment, and the functions of the libraries
that the rules call. -/
structure Host where
  parse : ParserRule → String → Except Exn Tree
  toInt32 : String → Int32
  readFile : String → Option String
  getenv : String → Option String
  /-- `test_file_stat` and `isatty`. -/
  testUnary : Char → String → Except Exn Bool
  /-- `file_comp`. -/
  testFiles : String → String → String → Except Exn Bool
  /-- `regex_match` with a pattern, greedy or not. -/
  regexMatch : Bool → List RegexToken → String → Bool
  /-- `sregex::compile` and `regex_match`. -/
  compileMatch : String → String → Except Exn Bool
  /-- The replacers of `var_expansion`. -/
  replace : ReplaceKind → List RegexToken → String → String → String
  /-- `boost::format`, with the arguments of `printf`. -/
  format : String → List String → Except Exn String

/-! ## Operations -/

/-- A name that the interpreter defines a global variable under; the positional
parameters have their own functions. -/
structure GlobalName where
  text : String
  notPositional : text ≠ "*"

/-- No name is the one of the positional parameters. -/
def Identifier.global (n : Identifier) : GlobalName :=
  ⟨n.text, fun h => absurd n.isName (by rw [h]; decide)⟩

/-- The walker rules that a tree is walked with. -/
inductive WalkerRule : Type → Type where
  | start : WalkerRule Unit
  | stringExpr : WalkerRule String
  | arithmetics : WalkerRule Int64

inductive Op : Type → Type where
  | resolveVariable (name : String) : Op (Option Variable)
  /-- `is_unset`, which looks at `members` only. -/
  | isUnset (name : String) : Op Bool
  | isLocalScope : Op Bool
  | setValue (name : String) (new : Value) (index : UInt32) : Op Unit
  | define (name : GlobalName) (init : Initial) (readonly : Bool) : Op Unit
  | defineLocal (name : String) (init : Initial) (readonly : Bool) : Op Unit
  | unset (name : String) : Op Unit
  | unsetIndex (name : String) (index : UInt32) : Op Unit
  | shift (number : UInt32) : Op Int
  /-- `define_function_arguments` of `local_members.back()`. -/
  | defineFunctionArguments (arguments : List String) : Op Unit
  | definePositionalArguments (arguments : List String) : Op Unit
  | hasFunction (name : String) : Op Bool
  | allFunctionNames : Op (List String)
  /-- The rest of `call`. -/
  | callFunction (name : String) : Op Unit
  | unsetFunction (name : String) : Op Unit
  | getStatus : Op Int
  | setStatus (status : Int) : Op Unit
  | getOption (name : Char) : Op Bool
  | setOption (name : Char) (value : Bool) : Op Unit
  | getAdditionalOption (name : String) : Op Bool
  | setAdditionalOption (name : String) (value : Bool) : Op Unit
  | additionalOptions : Op (List (String × Bool))
  | write (text : String) : Op Unit
  | writeError (text : String) : Op Unit
  /-- The calls of `getline` that `read_builtin::exec` makes, and what it returns. -/
  | readInput : Op (Option String × Int)
  /-- The text of the stream that `command_substitution` has set. -/
  | captured : Op String
  /-- A `bash_ast` that is constructed from a text, walked with `start` and
  destroyed. -/
  | interpretScript (rule : ParserRule) (source : String) : Op Unit
  /-- The same with the rules `all_expansions` and `string_expr`. -/
  | interpretWord (trim : Bool) (source : String) : Op String
  /-- The same with the rules `arithmetics`. -/
  | interpretArithmetics (source : String) : Op Int64
  /-- The constructor of a `bash_ast` that stays. -/
  | constructFile (path : String) : Op AstId
  | findCached (path : String) : Op (Option (Option AstId))
  | insertCached (path : String) (ast : Option AstId) : Op Unit
  /-- `interpret_with` of a `bash_ast` that stays. -/
  | interpret (a : AstId) : Op Unit
  | tick : Op Unit

/-- The objects with a destructor. -/
inductive Bracket where
  | localScope
  /-- The `current_streams` object and the stream of `command_substitution`. -/
  | captureOutput

/-- Walker rules and builtins. -/
abbrev Shell (α : Type) : Type 1 := Program Op Bracket Exn α

/-- The walker rules that start on a tree of their own. -/
structure Reentry where
  list : AstId → CommandList shell → Comp Exn Interpreter Unit
  compound : AstId → Compound shell → Comp Exn Interpreter Unit
  stringExpr : Word → Comp Exn Interpreter String
  arithmetics : ArithExpr → Comp Exn Interpreter Int64

/-! ### Variables -/

/-- An operation of the store. -/
def onStore {α : Type} (m : Comp Exn Store α) : Comp Exn Interpreter α :=
  zoom Interpreter.store (fun t s => { s with store := t }) m

/-- The level that `resolve_variable` finds a name at, or 0. -/
def Store.level (t : Store) (name : String) : Nat :=
  if name.isEmpty then 0 else t.bindings.level name

/-- An operation that writes a variable at the given level when it succeeds. -/
def writing {α : Type} (how : Write) (name : String) (level : Store → Nat) (m : Comp Exn Store α) :
    Comp Exn Interpreter α := do
  let s ← reads id
  let a ← onStore m
  update (Interpreter.record (.wrote how name (level s.store)))
  pure a

/-- `set_value` writes the entry that is found, or makes a global one. -/
def setHow (t : Store) (name : String) : Write :=
  if (t.resolveVariable name).isSome then .update else .define

/-- The positional parameters, counted from 1. -/
def positionalArgs (arguments : List String) : Std.ExtTreeMap UInt32 String :=
  (arguments.zipIdx 1).foldl (fun args p => args.insert (.ofNat p.2) p.1) ∅

/-- `define_function_arguments`, on `local_members.back()`. Its loop counts with an
`unsigned` and does not end when there are more arguments than that can count. It does not end
either when there are exactly `2 ^ 32 - 1`, a number that is left out here. -/
def defineFunctionArguments (arguments : List String) : Comp Exn Store Unit := do
  let t ← reads id
  match t.localMembers with
  | [] => throw .undefinedBehaviour
  | frame :: frames =>
    if 2 ^ 32 ≤ arguments.length then diverge
    else
      update fun t =>
        { t with
          localMembers :=
            frame.insert "*" (.new "*" (.array (positionalArgs arguments)) false) :: frames }

/-- `define_positional_arguments`. -/
def definePositionalArguments (arguments : List String) : Comp Exn Store Unit := do
  let t ← reads id
  if t.localMembers.length < 1 then define "*" (.array (positionalArgs arguments)) false
  else defineLocal "*" (.array (positionalArgs arguments)) false

/-- `variable::shift`: whether it succeeds, and the values after it. The loops
go over the indices from 1 to the number of elements, which is less than `2 ^ 32 - 1`: from
there on the loops of the source, which count with an `unsigned`, do not end, or the cast of
the number throws. -/
def shiftValues (number : UInt32) (value : Values) : Bool × Values :=
  let size := value.size
  if size < number.toNat then (false, value)
  else if number.toNat = size then (true, ∅)
  else
    let copied := (List.range' (number.toNat + 1) (size - number.toNat)).foldl
      (fun (v : Values) i => v.insert (.ofNat (i - number.toNat)) (v[UInt32.ofNat i]?.getD (.str "")))
      value
    (true, (List.range' (size - number.toNat + 1) number.toNat).foldl
      (fun (v : Values) i => v.erase (.ofNat i)) copied)

/-- `interpreter::shift` of a number that is not negative. Without positional
parameters the pointer is null; a readonly variable fails the assertion. -/
def shiftParameters (number : UInt32) : Comp Exn Store Int := do
  let t ← reads id
  match t.resolveVariable "*" with
  | none => throw .undefinedBehaviour
  | some v =>
    if v.readonly then throw .undefinedBehaviour
    else do
      update fun t => t.assign "*" { v with value := (shiftValues number v.value).2 }
      pure (if (shiftValues number v.value).1 then 0 else 1)

/-! ### Streams -/

/-- `std::getline`. -/
def getline (i : InputStream) : List Char × InputStream :=
  if i.eof || i.fail then ([], { i with fail := true })
  else
    match i.text.span (· != '\n') with
    | (line, []) => (line, { text := [], eof := true, fail := line.isEmpty })
    | (line, _ :: rest) => (line, { i with text := rest })

/-- The loop over lines that end in a backslash, for at most `fuel` passes:
the text, or `none` when `exec` returns without assigning it. -/
def joinLines : Nat → List Char → InputStream → Option (List Char) × InputStream
  | 0, input, i => (some input, i)
  | fuel + 1, input, i =>
    if input.getLast? = some '\\' then
      let input := input.dropLast
      let (line, i) := getline i
      if input.isEmpty then (none, i) else joinLines fuel (input ++ line) i
    else (some input, i)

/-- Every pass takes a character off the text, and every line that it adds comes
from the stream. -/
def readLines (i : InputStream) : Option (List Char) × InputStream :=
  let (input, i') := getline i
  if input.isEmpty then (none, i') else joinLines (i.text.length + 1) input i'

def Interpreter.writeTo (stream : Nat) (text : String) (s : Interpreter) : Interpreter :=
  { s with outputs := s.outputs.modify stream (· ++ text) }

/-! ### What an operation does -/

section Perform

variable (host : Host) (re : Reentry)

/-- The constructor of `bash_ast`. -/
def constructAst (rule : ParserRule) (script : String) : Comp Exn Interpreter AstId :=
  match host.parse rule script with
  | .error e => throw e
  | .ok t => do
    let s ← reads id
    update fun s => { s with asts := s.asts ++ [t] }
    pure s.asts.length

/-- `interpret_with`: `create_walker` pushes the object, and the deleter of the
walker pops it. -/
def interpretWith {α : Type} (a : AstId) (walk : Tree → Comp Exn Interpreter α) :
    Comp Exn Interpreter α :=
  bracket (fun s => ((), { s with astStack := a :: s.astStack }))
    (fun _ s => { s with astStack := s.astStack.tail }) do
      let s ← reads id
      match s.tree a with
      | some t => walk t
      | none => throw .undefinedBehaviour

/-- The walker rules on a tree. -/
def Reentry.walk (a : AstId) : {α : Type} → WalkerRule α → Tree → Comp Exn Interpreter α
  | _, .start, .script main _ => re.list a main
  | _, .stringExpr, .word w => re.stringExpr w
  | _, .arithmetics, .arithmetic e => re.arithmetics e
  | _, _, _ => throw .undefinedBehaviour

/-- The destructor of `bash_ast`. -/
def Interpreter.destroy (a : AstId) (s : Interpreter) : Interpreter :=
  { s.record (.ended a) with destroyed := a :: s.destroyed }

def interpretTemporary {α : Type} (rule : ParserRule) (script : String) (walk : WalkerRule α) :
    Comp Exn Interpreter α := do
  let a ← constructAst host rule script
  bracket (fun s => ((), s)) (fun _ => Interpreter.destroy a) (interpretWith a (re.walk a walk))

/-- `function::call` and `call_function`. -/
def Function.call (f : Function) : Comp Exn Interpreter Unit :=
  interpretWith f.ast fun
    | .script _ bodies =>
      match bodies[f.index]? with
      | some body => re.compound f.ast body
      | none => throw .undefinedBehaviour
    | _ => throw .undefinedBehaviour

/-- `call`, after the arguments have been installed. -/
def callFunction (name : String) : Comp Exn Interpreter Unit := do
  let s ← reads id
  match s.functions[name]? with
  | some f => do
    update (Interpreter.record (.called name f s.store))
    f.call re
  | none => throw (.error .runtime (name ++ " is not defined."))

def performOp : {α : Type} → Op α → Comp Exn Interpreter α
  | _, .resolveVariable name => reads fun s => s.store.resolveVariable name
  | _, .isUnset name => reads fun s => s.store.members[name]?.isNone
  | _, .isLocalScope => reads fun s => !s.store.localMembers.isEmpty
  | _, .setValue name new index => do
    let s ← reads id
    writing (setHow s.store name) name (·.level name) (Libbash.setValue name new index)
  | _, .define name init readonly =>
    writing .define name.text (fun _ => 0) (Libbash.define name.text init readonly)
  | _, .defineLocal name init readonly =>
    writing .define name (·.localMembers.length) (Libbash.defineLocal name init readonly)
  | _, .unset name =>
    writing .erase name (·.bindings.level name) (Libbash.unset name)
  | _, .unsetIndex name index => writing .update name (·.level name) (Libbash.unsetIndex name index)
  | _, .shift number => writing .update "*" (·.level "*") (shiftParameters number)
  | _, .defineFunctionArguments arguments =>
    writing .define "*" (·.localMembers.length) (Libbash.defineFunctionArguments arguments)
  | _, .definePositionalArguments arguments =>
    writing .define "*" (·.localMembers.length) (Libbash.definePositionalArguments arguments)
  | _, .hasFunction name => reads fun s => s.functions[name]?.isSome
  | _, .allFunctionNames => reads fun s => s.functions.keys
  | _, .callFunction name => Libbash.callFunction re name
  | _, .unsetFunction name =>
    update fun s => { s.record (.removed name) with functions := s.functions.erase name }
  | _, .getStatus => reads fun s => s.status
  | _, .setStatus status => update fun s => { s with status := status }
  | _, .getOption name => do
    match ← reads fun s => s.options.value[name]? with
    | some value => pure value
    | none => throw (.error .illegalArgument "Invalid bash option")
  | _, .setOption name value => do
    match ← reads fun s => s.options.value[name]? with
    | some _ => update fun s => { s with options := s.options.set name value }
    | none => throw (.error .illegalArgument (String.singleton name ++ " is not a valid bash option"))
  | _, .getAdditionalOption name => do
    match ← reads fun s => s.additionalOptions[name]? with
    | some value => pure value
    | none => throw (.error .illegalArgument "Invalid bash option")
  | _, .setAdditionalOption name value => do
    match ← reads fun s => s.additionalOptions[name]? with
    | some _ => update fun s => { s with additionalOptions := s.additionalOptions.insert name value }
    | none => throw (.error .illegalArgument (name ++ " is not a valid bash option"))
  | _, .additionalOptions => reads fun s => s.additionalOptions.toList
  | _, .write text => update fun s => s.writeTo s.streams.out text
  | _, .writeError text => update fun s => s.writeTo 1 text
  | _, .readInput => do
    let s ← reads id
    let out := readLines (s.inputs[s.streams.inp]?.getD { text := [], fail := true })
    update fun s => { s with inputs := s.inputs.set s.streams.inp out.2 }
    pure (out.1.map String.ofList, if out.2.eof then 1 else 0)
  | _, .captured => reads fun s => s.outputs[s.streams.out]?.getD ""
  | _, .interpretScript rule source =>
    interpretTemporary host re rule (readScript true source) .start
  | _, .interpretWord trim source =>
    interpretTemporary host re .allExpansions (readScript trim source) .stringExpr
  | _, .interpretArithmetics source =>
    interpretTemporary host re .arithmetics (readScript true source) .arithmetics
  | _, .constructFile path =>
    match host.readFile path with
    | none => throw (.error .parse (path ++ " can't be read"))
    | some source => constructAst host .start (readScript true source)
  | _, .findCached path => reads fun s => s.astCache[path]?
  | _, .insertCached path ast => update fun s => { s with astCache := s.astCache.insert path ast }
  | _, .interpret a => interpretWith a (re.walk a .start)
  | _, .tick => do
    match ← reads fun s => s.budget with
    | none => pure ()
    | some 0 => do
      update (Interpreter.record .interrupted)
      throw .interrupted
    | some (k + 1) => update fun s => { s with budget := some k }

/-- What the constructors of the objects do. -/
def acquire : Bracket → Interpreter → Interpreter
  | .localScope, s =>
    { s with store := { s.store with localMembers := ∅ :: s.store.localMembers } }
  | .captureOutput, s =>
    { s with
      outputs := s.outputs ++ [""]
      streams := { s.streams with out := s.outputs.length } }

/-- What their destructors do; the first state is the one the object was
constructed in. -/
def release : Bracket → Interpreter → Interpreter → Interpreter
  | .localScope, _, s =>
    { s with store := { s.store with localMembers := s.store.localMembers.tail } }
  | .captureOutput, s₀, s => { s with streams := s₀.streams }

/-- The operations, for given walker rules. -/
def handler : Handler Op Bracket Exn Interpreter where
  perform := performOp host re
  acquire := acquire
  release := release

@[simp] theorem handler_perform {α : Type} (o : Op α) :
    (handler host re).perform o = performOp host re o := rfl

end Perform

end Libbash
