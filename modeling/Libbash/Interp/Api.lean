import Libbash.Interp.Commands

/-!
# The library interface

The constructor of `interpreter`, and the functions `interpret` of
`libbash.cpp`: the variables that the caller passes are defined, the file is
interpreted, and the global variables and the names of the functions are
collected.
-/

namespace Libbash

open Lib Lib.Comp Lib.Program

/-! ## A new interpreter -/

/-- The additional options; `extquote` is the one that is set. -/
def initialAdditionalOptions : Std.ExtTreeMap String Bool :=
  .ofList <|
    ["autocd", "cdable_vars", "cdspell", "checkhash", "checkjobs", "checkwinsize", "cmdhist",
      "compat31", "compat32", "compat40", "dirspell", "dotglob", "execfail", "expand_aliases",
      "extdebug", "extglob", "extquote", "failglob", "force_fignore", "globstar", "gnu_errfmt",
      "histappend", "histreedit", "histverify", "hostcomplete", "huponexit",
      "interactive_comments", "lithist", "login_shell", "mailwarn", "no_empty_cmd_completion",
      "nocaseglob", "nocasematch", "nullglob", "progcomp", "promptvars", "restricted_shell",
      "shift_verbose", "sourcepath", "xpg_echo"].map fun name => (name, name == "extquote")

/-- The options; `h` and `B` are set. -/
def initialOptions : Options where
  value := .ofList (optionLetters.map fun c => (c, c == 'h' || c == 'B'))
  known c hc := by
    rw [Std.ExtTreeMap.isSome_getElem?_eq_contains, Std.ExtTreeMap.contains_ofList, List.map_map]
    rwa [List.contains_iff_mem, show Prod.fst ∘ (fun c => (c, c == 'h' || c == 'B')) = id from rfl,
      List.map_id]

/-- `get_options`. -/
def getOptions (options : Options) : String :=
  String.ofList ((options.value.toList.filter fun p => p.2).map (·.1))

/-- What `IFS` is defined as. -/
def initialIFS : String := " \t\n"

/-- The variables that the constructor of `interpreter` defines. -/
def initialMembers : Scope :=
  (((∅ : Scope).insert "IFS" (.new "IFS" (.scalar (.str initialIFS) 0) false)).insert "-"
    (.new "-" (.scalar (.str (getOptions initialOptions)) 0) false))

/-- An interpreter whose standard input holds `stdin`. Output 0 is the standard
output, and output 1 the standard error. -/
def Interpreter.initial (stdin : List Char) : Interpreter where
  store := { members := initialMembers, localMembers := [] }
  functions := ∅
  astStack := []
  streams := { out := 0, err := 1, inp := 0 }
  additionalOptions := initialAdditionalOptions
  options := initialOptions
  status := 0
  asts := []
  destroyed := []
  astCache := ∅
  outputs := ["", ""]
  inputs := [{ text := stdin }]
  log := []
  budget := none

/-! ## `interpret` -/

/-- The map that `interpret` takes and gives back. -/
abbrev VariableMap := Std.ExtTreeMap String (List String)

/-- What `interpret` gives back. -/
structure Interpretation where
  status : Int
  vars : VariableMap
  functions : List String

/-- The loop over the variables that the caller passes. An empty vector has no
element 0. -/
def defineInitial : List (String × List String) → Comp Exn Store Unit
  | [] => pure ()
  | (_, []) :: _ => throw .undefinedBehaviour
  | (name, value :: _) :: vars => do
    define name (.scalar (.str value) 0) false
    defineInitial vars

/-- The loop over the global variables, and what follows it. -/
def Interpreter.collect (s : Interpreter) : Interpretation where
  status := s.status
  vars := s.store.members.map fun _ v => v.getAllValues
  functions := s.functions.keys

section Interpret

variable (host : Host) (n d : Nat)

/-- Construct the tree of a file and walk it. -/
def interpretFile (path : String) : Comp Exn Interpreter Unit :=
  runShell host n d do
    let a ← perform (.constructFile path)
    perform (.interpret a)

/-- `internal::interpret`. -/
def internalInterpret (path : String) (vars : VariableMap) :
    Comp Exn Interpreter Interpretation := do
  onStore (defineInitial vars.toList)
  onStore (define "0" (.scalar (.str path) 0) true)
  interpretFile host n d path
  reads Interpreter.collect

/-- `libbash::interpret`, with a file that is interpreted first or without. -/
def interpret (targetPath : String) (preloadPath : Option String) (vars : VariableMap) :
    Comp Exn Interpreter Interpretation :=
  match preloadPath with
  | none => internalInterpret host n d targetPath vars
  | some path => do
    interpretFile host n d path
    internalInterpret host n d targetPath vars

/-- A state in which `interpret` leaves a new interpreter, by its end or by an
interruption. -/
def Reached (s : Interpreter) : Prop :=
  ∃ n d targetPath preloadPath vars stdin budget r,
    interpret host n d targetPath preloadPath vars
      { Interpreter.initial stdin with budget := budget } = some (r, s)

theorem exists_reached (targetPath : String) (preloadPath : Option String) (vars : VariableMap)
    (stdin : List Char)
    (h : (interpret host n d targetPath preloadPath vars (.initial stdin)).isSome = true) :
    ∃ s, Reached host s := by
  obtain ⟨⟨r, s⟩, hs⟩ := Option.isSome_iff_exists.mp h
  exact ⟨s, n, d, targetPath, preloadPath, vars, stdin, none, r, hs⟩

end Interpret

/-! ## Small trees, and hosts with finitely many texts -/

/-- A word that is a literal. -/
def Word.literal (text : String) : Word := .string [.part (.text text)]

/-- A variable reference without quotes. -/
def Word.unquoted (r : VarRef) : Word := .string [.part (.varRef r)]

/-- A variable reference in double quotes. -/
def Word.quoted (r : VarRef) : Word := .string [.part (.doubleQuoted [.varRef r])]

/-- A command whose words are literals. -/
def SimpleCommand.literals (name : String) (args : List String) : SimpleCommand :=
  .simple (.literal name) (args.map .literal) [] false

/-- Simple commands after each other, without redirections. -/
def CommandList.ofSimple (c : SimpleCommand) : List SimpleCommand → CommandList shell
  | [] => .last (.command (.simple [] c))
  | c' :: cs => .cons (.command (.simple [] c)) (ofSimple c' cs)

/-- An interpreter that walks the only tree there is. -/
def Interpreter.walking (t : Tree) : Interpreter :=
  { Interpreter.initial [] with asts := [t], astStack := [0] }

/-- A host that parses the given texts and has the given files; its libraries
answer every other request with an error. -/
def Host.ofTexts (texts : List ((ParserRule × String) × Tree)) (files : List (String × String)) :
    Host where
  parse rule text :=
    match texts.lookup (rule, text) with
    | some t => .ok t
    | none => .error (.error .parse (text ++ " cannot be fully parsed"))
  toInt32 text := .ofInt ((lexicalCastInt text).getD 0)
  readFile path := files.lookup path
  getenv _ := none
  testUnary op _ := .error (.error .unsupported (String.singleton op))
  testFiles op _ _ := .error (.error .unsupported op)
  regexMatch _ _ _ := false
  compileMatch pattern _ := .error (.error .unsupported pattern)
  replace _ _ _ value := value
  format text args :=
    if text.toList.contains '%' ∨ args ≠ [] then .error .formatError else .ok text

/-- A host with a file that holds the script of a tree. -/
def Host.ofScript (script : String) (t : Tree) : Host :=
  .ofTexts [((.start, script), t)] [("a.bash", script)]

end Libbash
