import Libbash.Walker.Exec
import Libbash.Interp.Builtins

/-!
# Commands

The rules of `libbashWalker.g` for conditions, redirections, variable
definitions and simple commands, and the interpreter as a whole: `leafSem` is
what the rules below the command level do, and `reentry` ties them to the
execution of command trees. A rule that starts on a tree of its own takes one
off a bound, which is how deep `eval`, `source`, calls and substitutions nest.
-/

namespace Libbash

open Lib Lib.Comp Lib.Program

namespace Shell

/-! ## Conditions -/

section Conditions

variable (host : Host)

/-- A comparison of the values of two expressions. -/
def testArithmetic (test : Int64 → Int64 → Bool) (lhs rhs : String) : Shell Bool := do
  let l ← evalArithmetic lhs
  let r ← evalArithmetic rhs
  pure (test l r)

/-- A test of the host. -/
def ofExcept {α : Type} (e : Except Exn α) : Shell α :=
  match e with
  | .ok a => pure a
  | .error e => throw e

/-- The comparisons of `test_binary`. -/
def binaryOperator (op lhs rhs : String) : Shell Bool :=
  match op with
  | "nt" | "ot" | "ef" => ofExcept (host.testFiles op lhs rhs)
  | "eq" => testArithmetic (· == ·) lhs rhs
  | "ne" => testArithmetic (· != ·) lhs rhs
  | "lt" => testArithmetic (· < ·) lhs rhs
  | "le" => testArithmetic (· ≤ ·) lhs rhs
  | "gt" => testArithmetic (· > ·) lhs rhs
  | "ge" => testArithmetic (· ≥ ·) lhs rhs
  | _ => illegal ("Unrecognized operator " ++ op)

/-- `test_binary`. -/
def testBinary (op lhs rhs : String) : Shell Bool :=
  if op.length ≠ 2 then illegal ("Unrecognized operator " ++ op)
  else
    tryCatch (binaryOperator host op lhs rhs) fun
      | .badLexicalCast => pure false
      | e => throw e

/-- `test_unary`. -/
def testUnary (op : Char) (target : String) : Shell Bool :=
  match op with
  | 'z' => pure target.isEmpty
  | 'n' => pure (!target.isEmpty)
  | 'o' => unsupported "Shell option test is not supported"
  | _ => ofExcept (host.testUnary op target)

def compareStrings (op : Comparison) (l r : String) : Bool :=
  match op with
  | .equals => l == r
  | .notEquals => l != r
  | .lessThan => l < r
  | .greaterThan => r < l

/-- `common_condition`. -/
def commonCondition : CommonCondition → Shell Bool
  | .binary op left right => do
    let l ← stringExpr host left
    let r ← stringExpr host right
    testBinary host op l.value r.value
  | .unary op w => do
    let v ← stringExpr host w
    testUnary host op v.value
  | .compare op left right => do
    let l ← stringExpr host left
    let r ← stringExpr host right
    pure (compareStrings op l.value r.value)
  | .matchPattern negation left pattern => do
    let l ← stringExpr host left
    let regex ← bashPattern host none pattern
    pure (host.regexMatch false regex l.value != negation)
  | .string w => do
    let v ← stringExpr host w
    pure (!v.value.isEmpty)

/-- `keyword_condition`. -/
def keywordCondition : KeywordCondition → Shell Bool
  | .logicOr l r => do
    if ← keywordCondition l then pure true else keywordCondition r
  | .logicAnd l r => do
    if ← keywordCondition l then keywordCondition r else pure false
  | .negation l => do
    let l ← keywordCondition l
    pure (!l)
  | .matchRegularExpression left right => do
    let l ← stringExpr host left
    let r ← stringExpr host right
    let pattern ← perform (.interpretWord false r.value)
    ofExcept (host.compileMatch pattern l.value)
  | .common c => commonCondition host c

/-- `builtin_condition`, which evaluates both operands. -/
def builtinCondition : BuiltinCondition → Shell Bool
  | .logicOr l r => do
    let l ← builtinCondition l
    let r ← builtinCondition r
    pure (l || r)
  | .logicAnd l r => do
    let l ← builtinCondition l
    let r ← builtinCondition r
    pure (l && r)
  | .negation l => do
    let l ← builtinCondition l
    pure (!l)
  | .escaped greater l r => do
    let l ← stringExpr host l
    let r ← stringExpr host r
    pure (compareStrings (if greater then .greaterThan else .lessThan) l.value r.value)
  | .common c => commonCondition host c

/-- The status that `cond_expr` tests. -/
def condExpr : CondExpr → Shell Bool
  | .keyword c => keywordCondition host c
  | .builtin c => builtinCondition host c

end Conditions

/-! ## Variable definitions -/

section Definitions

variable (host : Host)

/-- The value of an optional `string_expr`. -/
def optionalWord : Option Word → Shell String
  | none => pure ""
  | some w => do
    let v ← stringExpr host w
    pure v.value

/-- The elements of `array_def_helper`, from an index on. -/
def arrayDefHelper (name : String) (index : UInt32) (values : Std.ExtTreeMap UInt32 String) :
    List ArrayElement → Shell (Std.ExtTreeMap UInt32 String)
  | [] => pure values
  | .next w :: es => do
    let v ← stringExpr host w
    arrayDefHelper name (index + 1) (values.insert index v.value) es
  | .at e w :: es => do
    let value ← arithmetics host e
    let index ← setIndex name value
    let v ← stringExpr host w
    arrayDefHelper name (index + 1) (values.insert index v.value) es

/-- The index an append starts with. -/
def appendIndex (name : String) : Shell UInt32 := do
  let last ← getMaxIndex name
  if last + 1 = 1 then do
    if ← isUnsetOrNull name 0 then pure 0 else pure 1
  else pure (last + 1)

def setElements (name : String) : List (UInt32 × String) → Shell Unit
  | [] => pure ()
  | (index, value) :: values => do
    perform (.setValue name (.str value) index)
    setElements name values

/-- `var_def`. -/
def varDef (isLocal : Bool) : VarDef → Shell Unit
  | .scalar n w => do
    let p ← nameRule host n
    let value ← optionalWord host w
    if isLocal then perform (.defineLocal p.1 (.scalar (.str value) p.2) false)
    else perform (.setValue p.1 (.str value) p.2)
  | .array name elements => do
    let values ← arrayDefHelper host name.text 0 ∅ elements
    if isLocal then perform (.defineLocal name.text (.array values) false)
    else perform (.define name.global (.array values) false)
  | .append name elements => do
    let index ← appendIndex name.text
    let values ← arrayDefHelper host name.text index ∅ elements
    if isLocal then unsupported "Appending array to local variable is not supported"
    else setElements name.text values.toList

def varDefs (isLocal : Bool) : List VarDef → Shell Unit
  | [] => pure ()
  | d :: ds => do
    varDef host isLocal d
    varDefs isLocal ds

end Definitions

/-! ## Simple commands -/

section Simple

variable (host : Host)

/-- What a word that has been evaluated adds to the arguments. -/
def argumentValues (split : Bool) (v : StringValue) : Shell (List String) :=
  if v.value.isEmpty then pure []
  else if v.quoted || !split then pure [v.value]
  else splitWord v.value

/-- `argument`. -/
def argument (split : Bool) (w : Word) : Shell (List String) := do
  let v ← stringExpr host w
  argumentValues split v

def arguments (split : Bool) (args : List String) : List Word → Shell (List String)
  | [] => pure args
  | w :: ws => do
    let values ← argument host split w
    arguments split (args ++ values) ws

/-- `call`. -/
def call (name : String) (args : List String) : Shell Unit := do
  perform (.defineFunctionArguments args)
  perform (.callFunction name)

/-- `execute_builtin`, when the name is one of a builtin. -/
def executeBuiltin (name : String) (args : List String) : Shell Unit :=
  match (builtins host).lookup name with
  | some exec => do
    let status ← exec args
    perform (.setStatus status)
  | none => do
    perform (.setStatus 1)
    unsupported (name ++ " is not supported yet")

/-- The commands that get no local scope. -/
def isExempt (name : String) : Bool :=
  name == "local" || name == "set" || name == "declare" || name == "eval"

/-- The `local_scope` object of `execute_command`. -/
def inScope (name : String) (body : Shell Unit) : Shell Unit :=
  if isExempt name then body else within .localScope body

/-- The command that a name stands for: a function before a builtin. -/
def dispatch (name : String) (args : List String) : Shell Unit := do
  if ← perform (.hasFunction name) then catchReturn (call name args)
  else executeBuiltin host name args

/-- The action of `BANG`. -/
def negateStatus (bang : Bool) : Shell Unit :=
  if bang then do
    let status ← perform .getStatus
    perform (.setStatus (if status = 0 then 1 else 0))
  else pure ()

/-- `execute_command`. -/
def executeCommand (name : String) (args : List String) (defs : List VarDef) (bang : Bool) :
    Shell Unit :=
  inScope name do
    varDefs host true defs
    dispatch host (if name.isEmpty then ":" else name) args
    negateStatus bang

/-- Whether `simple_command` splits the arguments of a command. -/
def splits (name : String) : Bool := name != "local" && name != "export" && name != "declare"

/-- `simple_command`. -/
def simpleCommand (name : Word) (args : List Word) (defs : List VarDef) (bang : Bool) :
    Shell Unit := do
  let v ← stringExpr host name
  let values ← arguments host (splits v.value) [] args
  executeCommand host v.value values defs bang

end Simple

/-! ## Redirections -/

/-- The stream that a redirection opens. -/
inductive Redirected where
  | input (i : InputStream)
  | output
  | nothing

section Redirections

variable (host : Host)

/-- What `new std::ifstream` opens. -/
def openInput (path : String) : InputStream :=
  match host.readFile path with
  | some text => { text := text.toList }
  | none => { text := [], fail := true }

def descriptorMessage (move : Bool) : String :=
  (if move then "FILE_DESCRIPTOR_MOVE" else "FILE_DESCRIPTOR") ++
    " redirection is not supported yet\n"

/-- The message for a digit in front of the operator. -/
def digitMessage (digit : Bool) : Shell Unit :=
  if digit then perform (.writeError "Redirection is not supported yet\n") else pure ()

/-- `redirect_destination_input` and `redirect_destination_output`. -/
def redirectDestination (openFile : String → Redirected) : RedirectDestination → Shell Redirected
  | .file w => do
    let v ← stringExpr host w
    pure (openFile v.value)
  | .descriptor move => do
    perform (.writeError (descriptorMessage move))
    pure .nothing

/-- `redirect`. -/
def redirect : Redirection → Shell Redirected
  | .input digit d => do
    let r ← redirectDestination host (fun path => .input (openInput host path)) d
    digitMessage digit
    pure r
  | .output digit d => do
    let r ← redirectDestination host (fun _ => .output) d
    digitMessage digit
    pure r
  | .hereString w => do
    let v ← stringExpr host w
    pure (.input { text := v.value.toList })

end Redirections

/-! ## Rules that the command rules call -/

section Leaves

variable (host : Host)

/-- The words of a `for`. -/
def forWord (w : Word) : Shell (List String) := do
  let v ← stringExpr host w
  if v.quoted then pure [v.value] else splitWord v.value

def positional : Shell (List String) := do
  let values ← resolveArray "*"
  pure (values.getD [])

def caseWord (w : Word) : Shell String := do
  let v ← stringExpr host w
  pure v.value

/-- `composite_pattern` and `match`. -/
def matchPattern (p : List PatternToken) (target : String) : Shell Bool := do
  let regex ← bashPattern host none p
  pure (host.regexMatch true regex target)

end Leaves

end Shell

/-! ## The interpreter -/

/-- `set_input_stream` and `set_output_stream`. -/
def Interpreter.redirected : Shell.Redirected → Interpreter → Interpreter
  | .input i, s =>
    { s with inputs := s.inputs ++ [i], streams := { s.streams with inp := s.inputs.length } }
  | .output, s =>
    { s with outputs := s.outputs ++ [""], streams := { s.streams with out := s.outputs.length } }
  | .nothing, s => s

section Interpreter

variable (host : Host)

/-- A step of the walk. -/
def walkStep {α : Type} (re : Reentry) (p : Shell α) : Comp Exn Interpreter α :=
  Program.run (handler host re) do
    perform .tick
    p

/-- `define_function`, which `function_definition` calls while it walks the tree
of `cur`; `insert` leaves an entry that is there. -/
def defineFunction (name : String) (index : Nat) (cur : AstId) : Comp Exn Interpreter Unit :=
  if !checkFunctionName name then throw (.error .parse ("illegal function name: " ++ name))
  else do
    let s ← reads id
    match s.astStack with
    | [] => throw .undefinedBehaviour
    | top :: _ => update (Interpreter.insertFunction name ⟨top, index⟩ cur)

/-- The alternatives of `command_atom` but for `compound_command`, while the tree
of `cur` is walked. -/
def simpleAtom (re : Reentry) (cur : AstId) : SimpleCommand → Comp Exn Interpreter Unit
  | .variableDefinitions isLocal defs => walkStep host re (Shell.varDefs host isLocal defs)
  | .functionDefinition name index => do
    walkStep host re (pure ())
    defineFunction name index cur
  | .simple name args defs bang => walkStep host re (Shell.simpleCommand host name args defs bang)

/-- The rules below the command level, while the tree of `cur` is walked. -/
def leafSem (re : Reentry) (cur : AstId) : LeafSem shell Interpreter where
  Streams := Libbash.Streams
  getStreams s := s.streams
  setStreams streams s := { s with streams := streams }
  getStatus s := s.status
  setStatus status s := { s with status := status }
  redirect r := do
    let redirected ← walkStep host re (Shell.redirect host r)
    update (Interpreter.redirected redirected)
  simple c := simpleAtom host re cur c
  cond c := walkStep host re (Shell.condExpr host c)
  arith e := walkStep host re (Shell.arithmetics host e)
  forWord w := walkStep host re (Shell.forWord host w)
  positional := walkStep host re Shell.positional
  setValue name value := walkStep host re (perform (.setValue name (.str value) 0))
  caseWord w := walkStep host re (Shell.caseWord host w)
  matchPattern p target := walkStep host re (Shell.matchPattern host p target)

/-- The rules on trees of their own, for loops of at most `n` passes and at most
so many trees inside each other. -/
def reentry (n : Nat) : Nat → Reentry
  | 0 =>
    { list := fun _ _ => diverge
      compound := fun _ _ => diverge
      stringExpr := fun _ => diverge
      arithmetics := fun _ => diverge }
  | d + 1 =>
    { list := fun cur c => execList (leafSem host (reentry n d) cur) n c
      compound := fun cur c => execCompound (leafSem host (reentry n d) cur) n c
      stringExpr := fun w => walkStep host (reentry n d) (Shell.caseWord host w)
      arithmetics := fun e => walkStep host (reentry n d) (Shell.arithmetics host e) }

/-- Run a program of the interpreter. -/
def runShell {α : Type} (n d : Nat) (p : Shell α) : Comp Exn Interpreter α :=
  Program.run (handler host (reentry host n d)) p

section RunShell

variable (n d : Nat) {α β : Type}

@[simp] theorem runShell_pure (a : α) : runShell host n d (pure a) = pure a := rfl

@[simp] theorem runShell_throw (e : Exn) : runShell host n d (throw e : Shell α) = throw e := rfl

@[simp] theorem runShell_perform (o : Op α) :
    runShell host n d (perform o) = performOp host (reentry host n d) o := rfl

@[simp] theorem runShell_bind (p : Shell α) (k : α → Shell β) :
    runShell host n d (p >>= k) = runShell host n d p >>= fun a => runShell host n d (k a) := rfl

@[simp] theorem runShell_tryCatch (p : Shell α) (k : Exn → Shell α) :
    runShell host n d (tryCatch p k) =
      tryCatch (runShell host n d p) fun e => runShell host n d (k e) := rfl

@[simp] theorem runShell_within (b : Bracket) (p : Shell α) :
    runShell host n d (within b p) =
      bracket (fun s => (s, acquire b s)) (release b) (runShell host n d p) := rfl

variable {host n d} in
/-- A builtin of the table runs, and its status is set. -/
theorem run_executeBuiltin {name : String} {args : List String} {exec : List String → Shell Int}
    (h : (Shell.builtins host).lookup name = some exec) :
    runShell host n d (Shell.executeBuiltin host name args) =
      runShell host n d (exec args) >>= fun status =>
        runShell host n d (perform (.setStatus status)) := by
  unfold Shell.executeBuiltin
  rw [h]
  rfl

end RunShell

/-- Handle `return_exception`. -/
def catchReturnException (m : Comp Exn Interpreter Unit) : Comp Exn Interpreter Unit :=
  tryCatch m fun
    | .returnException => pure ()
    | e => throw e

theorem run_catchReturn (h : Handler Op Bracket Exn Interpreter) (p : Shell Unit) :
    Program.run h (Shell.catchReturn p) = catchReturnException (Program.run h p) := by
  unfold Shell.catchReturn catchReturnException
  rw [run_tryCatch]
  congr 1
  funext e
  cases e <;> rfl

/-- A command that is a builtin. -/
def builtinCommand (host : Host) (n d : Nat) (name : String) (args : List String) :
    Comp Exn Interpreter Unit :=
  runShell host n d (Shell.inScope name (Shell.executeBuiltin host name args))

section Builtins

variable {host} {n d : Nat} {name : String} {args : List String} {s : Interpreter}

theorem dispatch_of_builtin (hf : s.functions[name]? = none) :
    runShell host n d (Shell.dispatch host name args) s =
      runShell host n d (Shell.executeBuiltin host name args) s := by
  unfold Shell.dispatch
  rw [runShell_bind, runShell_perform, performOp, reads_bind_apply, hf]
  rfl

/-- A command is the builtin when its name is no function. -/
theorem executeCommand_of_builtin (hname : name.isEmpty = false) (hf : s.functions[name]? = none) :
    runShell host n d (Shell.executeCommand host name args [] false) s =
      builtinCommand host n d name args s := by
  have hbody : runShell host n d (do
        Shell.varDefs host true []
        Shell.dispatch host (if name.isEmpty then ":" else name) args
        Shell.negateStatus false) = runShell host n d (Shell.dispatch host name args) := by
    rw [hname]
    exact bind_pure_unit (m := Comp Exn Interpreter)
  unfold Shell.executeCommand builtinCommand Shell.inScope
  by_cases hexempt : Shell.isExempt name = true
  · rw [if_pos hexempt, if_pos hexempt, hbody]
    exact dispatch_of_builtin hf
  · have hf' : (acquire .localScope s).functions[name]? = none := hf
    rw [if_neg hexempt, if_neg hexempt, runShell_within, runShell_within, hbody]
    unfold bracket
    dsimp only
    rw [dispatch_of_builtin hf']

end Builtins

end Interpreter

end Libbash
