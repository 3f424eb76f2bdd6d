import Libbash.Walker.Truth
import Libbash.Interp.Reading
import Libbash.Interp.Expansions

/-!
# Statuses that nobody sets

Most constructs set no status of their own: `((e))` evaluates `e` and leaves the
status that is there, and so do the constructs whose body does not run. What they
leave is the status of an earlier command, or of the last command substitution.

* **`arithmeticCommands_iff`** — when the status after `((e))` and `let e` is that
  of the value, so that `if`, `while`, `until`, `&&` and `||` decide by it;
* **`idleConstructs_iff`** — when a construct that runs no command succeeds.
-/

namespace Libbash

open Lib Lib.Comp Lib.Program

section Shells

variable (host : Host) (n d : Nat) (cur : AstId)

/-- The rules below the command level of a shell. -/
abbrev shellSem : LeafSem shell Interpreter := leafSem host (reentry host n d) cur

variable {host n d cur}

theorem shellSem_statusKept {α : Type} {p : Shell α} (hp : p.Uses Op.BelowCommands) :
    Keeps StatusKept (walkStep host (reentry host n d) p) :=
  walkStep_statusKept (reentry_evolve host n d) (reentry_keepsStatus host n d) hp

theorem arith_statusKept (e : ArithExpr) : Keeps StatusKept ((shellSem host n d cur).arith e) :=
  shellSem_statusKept (below_of_inWords (Shell.arithmetics_inWords host e))

/-- The status before, or that of a command substitution. -/
structure StatusBefore (s s' : Interpreter) (status : Int) : Prop where
  before : ¬Substituted s s' → s.status = status
  substituted : Substituted s s' → s'.status = status

theorem StatusKept.status_iff {s s' : Interpreter} (h : StatusKept s s') (status : Int) :
    s'.status = status ↔ StatusBefore s s' status := by
  constructor
  · intro heq
    refine ⟨?_, fun _ => heq⟩
    intro hnot
    rcases h.status with hsub | hkept
    · exact absurd hsub hnot
    · exact hkept ▸ heq
  · intro hbefore
    by_cases hsub : Substituted s s'
    · exact hbefore.substituted hsub
    · rcases h.status with hsub' | hkept
      · exact absurd hsub' hsub
      · exact hkept.trans (hbefore.before hsub)

/-- A command without redirections gives its streams back. -/
theorem execCommand_compound {c : Compound shell} {s s' : Interpreter}
    (h : execCompound (shellSem host n d cur) n c s = some (.ok (), s')) :
    execCommand (shellSem host n d cur) n (.compound [] c) s =
      some (.ok (), { s' with streams := s.streams }) := by
  rw [execCommand, runRedirects, pure_bind]
  exact bracket_of_body h

theorem execCommand_simple {c : SimpleCommand} {s s' : Interpreter}
    (h : (shellSem host n d cur).simple c s = some (.ok (), s')) :
    execCommand (shellSem host n d cur) n (.simple [] c) s =
      some (.ok (), { s' with streams := s.streams }) := by
  rw [execCommand, runRedirects, pure_bind]
  exact bracket_of_body h

end Shells

/-! ## Arithmetic commands -/

/-- The status that stands for a value. -/
def valueStatus (v : Int64) : Int := if v ≠ 0 then 0 else 1

theorem truth_valueStatus (v : Int64) : truth (valueStatus v) = (v != 0) := by
  unfold truth valueStatus
  by_cases h : v = 0 <;> simp [h]

/-- `((e))`. -/
def arithCommand (e : ArithExpr) : Command shell := .compound [] (.arith e)

def arithCommandList (e : ArithExpr) : CommandList shell := .last (.command (arithCommand e))

inductive ArithmeticCommand where
  /-- `((e))`. -/
  | compound (e : ArithExpr)
  /-- `let`, with the arguments of the builtin. -/
  | letBuiltin (args : List String)

section ArithmeticCommands

variable (host : Host) (n d : Nat) (cur : AstId)

/-- The evaluation of the expression. -/
def ArithmeticCommand.value : ArithmeticCommand → Comp Exn Interpreter Int64
  | .compound e => (shellSem host n d cur).arith e
  | .letBuiltin args => runShell host n d (Shell.evalArithmetic (" ".intercalate args))

def ArithmeticCommand.exec : ArithmeticCommand → Comp Exn Interpreter Unit
  | .compound e => execCommand (shellSem host n d cur) n (arithCommand e)
  | .letBuiltin args => runShell host n d (Shell.executeBuiltin host "let" args)

/-- `((e))` that starts in `s` with the value `v` and ends in `t` decides by `v`
wherever it is a condition. -/
structure DecidesByValue (e : ArithExpr) (v : Int64) (s t : Interpreter) : Prop where
  ifTest : elifTest (shellSem host n d cur)
    (execList (shellSem host n d cur) n (arithCommandList e)) s = some (.ok (v != 0), t)
  whileTest : loopTest (shellSem host n d cur) false
    (execList (shellSem host n d cur) n (arithCommandList e)) s = some (.ok (v != 0), t)
  untilTest : loopTest (shellSem host n d cur) true
    (execList (shellSem host n d cur) n (arithCommandList e)) s = some (.ok (v == 0), t)
  logic : ∀ isAnd (right : Command shell), execLogic (shellSem host n d cur) n
    (.logic isAnd (.command (arithCommand e)) right) s =
      if (v != 0) == isAnd then execCommand (shellSem host n d cur) n right t
      else some (.ok (), t)
  /-- The condition of a C-style `for` is no command. -/
  cforTest : ∃ t', cforTest (shellSem host n d cur) (some e) s = some (.ok (v != 0), t')

/-- When the expression has a value, the command ends with the status of it, and
the tests of `((e))` agree. -/
def SetsValueStatus (c : ArithmeticCommand) (s : Interpreter) : Prop :=
  ∀ v s', c.value host n d cur s = some (.ok v, s') →
    ∃ t, c.exec host n d cur s = some (.ok (), t) ∧ t.status = valueStatus v ∧
      ∀ e, c = .compound e → DecidesByValue host n d cur e v s t

/-- `((e))` finds the status of the value in place: it has been there before, or
a command substitution in `e` has left it. `let` is right about values other
than zero. -/
def ValueStatusInPlace (c : ArithmeticCommand) (s : Interpreter) : Prop :=
  ∀ v s', c.value host n d cur s = some (.ok v, s') →
    match c with
    | .compound _ => StatusBefore s s' (valueStatus v)
    | .letBuiltin _ => v ≠ 0

end ArithmeticCommands

section ArithmeticCommands

variable {host : Host} {n d : Nat} {cur : AstId} {e : ArithExpr} {args : List String} {v : Int64}
  {s s' t : Interpreter}

theorem exec_compound (h : (shellSem host n d cur).arith e s = some (.ok v, s')) :
    execCommand (shellSem host n d cur) n (arithCommand e) s =
      some (.ok (), { s' with streams := s.streams }) := by
  apply execCommand_compound
  rw [execCompound, bind_of_ok h]
  rfl

theorem exec_let (h : runShell host n d (Shell.evalArithmetic (" ".intercalate args)) s =
    some (.ok v, s')) :
    runShell host n d (Shell.executeBuiltin host "let" args) s =
      some (.ok (), { s' with status := 0 }) := by
  show (runShell host n d (Shell.letBuiltin args) >>= fun status =>
    runShell host n d (perform (.setStatus status))) s = _
  have hlet : runShell host n d (Shell.letBuiltin args) s = some (.ok 0, s') := by
    rw [Shell.letBuiltin, runShell_bind, bind_of_ok h]
    rfl
  rw [bind_of_ok hlet]
  rfl

/-- With the status of its value, `((e))` is tested by its value everywhere. -/
theorem decidesByValue (h : (shellSem host n d cur).arith e s = some (.ok v, s'))
    (hexec : execCommand (shellSem host n d cur) n (arithCommand e) s = some (.ok (), t))
    (hstatus : t.status = valueStatus v) : DecidesByValue host n d cur e v s t := by
  have hlogic : execLogic (shellSem host n d cur) n (.command (arithCommand e)) s =
      some (.ok (), t) := by
    rw [execLogic, hexec]
  have hlist : execList (shellSem host n d cur) n (arithCommandList e) s = some (.ok (), t) := by
    rw [arithCommandList, execList, hlogic]
  have hget : (shellSem host n d cur).getStatus t = valueStatus v := hstatus
  have hzero : valueStatus v = 0 ∨ valueStatus v = 1 := by
    unfold valueStatus
    split_ifs
    · exact .inl rfl
    · exact .inr rfl
  refine ⟨?_, ?_, ?_, ?_, ?_⟩
  · rw [elifTest_of_ok hlist, hget, elifMatches_eq_truth, truth_valueStatus]
  · rw [loopTest_of_ok hlist, hget, (loopStops_while_iff _).mpr hzero, Bool.not_not,
      truth_valueStatus]
  · rw [loopTest_of_ok hlist, hget, loopStops_until, truth_valueStatus, bne, Bool.not_not]
  · intro isAnd right
    rw [execLogic_of_ok hlogic, hget, truth_valueStatus]
  · refine ⟨s', ?_⟩
    rw [cforTest, bind_of_ok h]
    rfl

/-- For every expression, all arguments of `let`, every previous status and every
state. -/
theorem arithmeticCommands_iff (host : Host) (n d : Nat) (cur : AstId) (c : ArithmeticCommand)
    (s : Interpreter) :
    SetsValueStatus host n d cur c s ↔ ValueStatusInPlace host n d cur c s := by
  cases c with
  | compound e =>
    have hiff : ∀ v s', (shellSem host n d cur).arith e s = some (.ok v, s') →
        (s'.status = valueStatus v ↔ StatusBefore s s' (valueStatus v)) :=
      fun v s' h => (arith_statusKept e s _ s' h).status_iff (valueStatus v)
    constructor
    · intro h v s' hvalue
      obtain ⟨t, hexec, hstatus, -⟩ := h v s' hvalue
      apply (hiff v s' hvalue).mp
      rw [ArithmeticCommand.exec, exec_compound hvalue] at hexec
      cases hexec
      exact hstatus
    · intro h v s' hvalue
      have hstatus : s'.status = valueStatus v := (hiff v s' hvalue).mpr (h v s' hvalue)
      refine ⟨_, exec_compound hvalue, hstatus, ?_⟩
      intro e' he'
      cases he'
      exact decidesByValue hvalue (exec_compound hvalue) hstatus
  | letBuiltin args =>
    constructor
    · intro h v s' hvalue
      obtain ⟨t, hexec, hstatus, -⟩ := h v s' hvalue
      rw [ArithmeticCommand.exec, exec_let hvalue] at hexec
      cases hexec
      show v ≠ 0
      intro hv
      rw [hv] at hstatus
      cases hstatus
    · intro h v s' hvalue
      refine ⟨_, exec_let hvalue, ?_, ?_⟩
      · exact (if_pos (h v s' hvalue)).symm
      · intro e' he'
        cases he'

end ArithmeticCommands

/-- `((0))` in a new interpreter leaves status 0. -/
theorem not_setsValueStatus_zero :
    ¬SetsValueStatus (.ofTexts [] []) 0 0 0 (.compound (.num "0")) (Interpreter.initial []) := by
  intro h
  have hvalue : (shellSem (.ofTexts [] []) 0 0 0).arith (.num "0") (Interpreter.initial []) =
      some (.ok 0, Interpreter.initial []) := rfl
  obtain ⟨t, hexec, hstatus, -⟩ := h 0 _ hvalue
  rw [ArithmeticCommand.exec, exec_compound hvalue] at hexec
  cases hexec
  cases hstatus

/-! ## Constructs whose body does not run -/

/-- The constructs that can run no command of their body, and assignments. -/
inductive Construct where
  | ifStatement (cond body : CommandList shell) (rest : ElseParts shell)
  | loop (negate : Bool) (cond body : CommandList shell)
  | cfor (init cond mod : Option ArithExpr) (body : CommandList shell)
  | forEach (name : String) (words : List Word) (body : CommandList shell)
  | caseOf (w : Word) (clauses : Clauses shell)
  | assignment (defs : List VarDef)

def Construct.command : Construct → Command shell
  | .ifStatement cond body rest => .compound [] (.ifStatement cond body rest)
  | .loop negate cond body => .compound [] (.loop negate cond body)
  | .cfor init cond mod body => .compound [] (.cfor init cond mod body)
  | .forEach name words body => .compound [] (.forEach name words body)
  | .caseOf w clauses => .compound [] (.caseOf w clauses)
  | .assignment defs => .simple [] (.variableDefinitions false defs)

section Idle

variable (host : Host) (n d : Nat) (cur : AstId)

/-- No condition of an `if` without `else` holds. -/
inductive NoMatch : CommandList shell → ElseParts shell → Interpreter → Interpreter → Prop
  | last {cond : CommandList shell} {s s' : Interpreter}
      (h : elifTest (shellSem host n d cur) (execList (shellSem host n d cur) n cond) s =
        some (.ok false, s')) : NoMatch cond .fi s s'
  | elif {cond cond' body : CommandList shell} {rest : ElseParts shell} {s s₁ s' : Interpreter}
      (h : elifTest (shellSem host n d cur) (execList (shellSem host n d cur) n cond) s =
        some (.ok false, s₁)) (hrest : NoMatch cond' rest s₁ s') :
      NoMatch cond (.elif cond' body rest) s s'

/-- No pattern of a `case` matches. -/
inductive NoClause (target : String) : Clauses shell → Interpreter → Interpreter → Prop
  | esac (s : Interpreter) : NoClause target .esac s s
  | empty {p : List PatternToken} {rest : Clauses shell} {s s₁ s' : Interpreter}
      (h : (shellSem host n d cur).matchPattern p target s = some (.ok false, s₁))
      (hrest : NoClause target rest s₁ s') : NoClause target (.empty p rest) s s'
  | commands {p : List PatternToken} {body : CommandList shell} {rest : Clauses shell}
      {s s₁ s' : Interpreter}
      (h : (shellSem host n d cur).matchPattern p target s = some (.ok false, s₁))
      (hrest : NoClause target rest s₁ s') : NoClause target (.commands p body rest) s s'

/-- The construct runs no command of its body and ends in `s'`. -/
inductive IdleRun : Construct → Interpreter → Interpreter → Prop
  | ifStatement {cond body : CommandList shell} {rest : ElseParts shell} {s s' : Interpreter}
      (h : NoMatch host n d cur cond rest s s') : IdleRun (.ifStatement cond body rest) s s'
  | loop {negate : Bool} {cond body : CommandList shell} {s s' : Interpreter}
      (h : loopTest (shellSem host n d cur) negate (execList (shellSem host n d cur) n cond) s =
        some (.ok false, s')) : IdleRun (.loop negate cond body) s s'
  | cfor {init cond mod : Option ArithExpr} {body : CommandList shell} {s s₁ s' : Interpreter}
      (hinit : runArith (shellSem host n d cur) init s = some (.ok (), s₁))
      (hcond : cforTest (shellSem host n d cur) cond s₁ = some (.ok false, s')) :
      IdleRun (.cfor init cond mod body) s s'
  /-- All words are expanded to nothing. -/
  | words {name : String} {words : List Word} {body : CommandList shell} {s s' : Interpreter}
      (hwords : words ≠ []) (h : splitWords (shellSem host n d cur) [] words s =
        some (.ok [], s')) : IdleRun (.forEach name words body) s { s' with status := 0 }
  /-- There are no words and no positional parameters. -/
  | positional {name : String} {body : CommandList shell} {s s' : Interpreter}
      (h : (shellSem host n d cur).positional s = some (.ok [], s')) :
      IdleRun (.forEach name [] body) s s'
  | caseOf {w : Word} {target : String} {clauses : Clauses shell} {s s₁ s' : Interpreter}
      (hword : (shellSem host n d cur).caseWord w s = some (.ok target, s₁))
      (h : NoClause host n d cur target clauses s₁ s') : IdleRun (.caseOf w clauses) s s'
  | assignment {defs : List VarDef} {s s' : Interpreter}
      (h : (shellSem host n d cur).simple (.variableDefinitions false defs) s = some (.ok (), s'))
      (hplain : ¬Substituted s s') : IdleRun (.assignment defs) s s'

/-- A construct that runs no command ends with status 0, so that what follows it
in an `&&` list runs. -/
def Succeeds (c : Construct) (s : Interpreter) : Prop :=
  ∀ s', IdleRun host n d cur c s s' →
    ∃ t, execCommand (shellSem host n d cur) n c.command s = some (.ok (), t) ∧ t.status = 0 ∧
      ∀ right : Command shell, execLogic (shellSem host n d cur) n
        (.logic true (.command c.command) right) s = execCommand (shellSem host n d cur) n right t

/-- Where status 0 comes from when nobody sets it, for an idle run from `s` to
`s'`. -/
def Construct.ZeroInPlace (s s' : Interpreter) : Construct → Prop
  -- the last condition has failed
  | .ifStatement _ _ _ => False
  -- `until` stops on status 0, and `while` on status 1
  | .loop negate _ _ => negate = true
  | .forEach _ words _ => words ≠ [] ∨ s.status = 0
  | .cfor _ _ _ _ | .caseOf _ _ => StatusBefore s s' 0
  | .assignment _ => s.status = 0

end Idle

section Idle

variable {host : Host} {n d : Nat} {cur : AstId} {s s₁ s' : Interpreter}

theorem elifTest_false {cond : CommandList shell}
    (h : elifTest (shellSem host n d cur) (execList (shellSem host n d cur) n cond) s =
      some (.ok false, s')) : s'.status ≠ 0 := by
  rcases bind_cases h with ⟨_, s₁, hcond, htest⟩ | ⟨e, -, he⟩
  · have hresult := Prod.mk.inj (Option.some.inj htest)
    rw [← hresult.2]
    intro hzero
    have hmatches : elifMatches s₁.status = false := Except.ok.inj hresult.1
    rw [hzero] at hmatches
    cases hmatches
  · cases he

/-- The conditions of an `if` are run one after the other. -/
theorem NoMatch.run {cond : CommandList shell} {rest : ElseParts shell}
    (h : NoMatch host n d cur cond rest s s') (body : CommandList shell) :
    execCompound (shellSem host n d cur) n (.ifStatement cond body rest) s =
      some (.ok (), s') := by
  induction h generalizing body with
  | last h =>
    rw [execCompound, bind_of_ok h]
    rfl
  | @elif cond cond' body' rest s s₁ s' h hrest ih =>
    rw [execCompound, bind_of_ok h]
    have htail := ih body'
    rw [execCompound] at htail
    show execElse _ n (.elif cond' body' rest) s₁ = _
    rw [execElse]
    exact htail

theorem NoMatch.status {cond : CommandList shell} {rest : ElseParts shell}
    (h : NoMatch host n d cur cond rest s s') : s'.status ≠ 0 := by
  induction h with
  | last h => exact elifTest_false h
  | elif h hrest ih => exact ih

theorem NoClause.run {target : String} {clauses : Clauses shell}
    (h : NoClause host n d cur target clauses s s') :
    execClauses (shellSem host n d cur) n target clauses s = some (.ok (), s') := by
  induction h with
  | esac s =>
    rw [execClauses]
    rfl
  | empty h hrest ih =>
    rw [execClauses, bind_of_ok h]
    exact ih
  | commands h hrest ih =>
    rw [execClauses, bind_of_ok h]
    exact ih

theorem NoClause.statusKept {target : String} {clauses : Clauses shell}
    (h : NoClause host n d cur target clauses s s') : StatusKept s s' := by
  have hpattern : ∀ {p s s₁ r},
      (shellSem host n d cur).matchPattern p target s = some (r, s₁) → StatusKept s s₁ :=
    fun {p s s₁ r} h => shellSem_statusKept (below_of_inWords (Shell.matchPattern_inWords host p target)) s r s₁ h
  induction h with
  | esac s => exact .refl s
  | empty h hrest ih => exact (hpattern h).trans ih
  | commands h hrest ih => exact (hpattern h).trans ih

theorem runArith_statusKept (e : Option ArithExpr) :
    Keeps StatusKept (runArith (shellSem host n d cur) e) := by
  cases e with
  | none => exact keeps_pure .refl _
  | some e =>
    exact keeps_bind (fun {a b c} => .trans) (arith_statusKept e) fun _ => keeps_pure .refl _

theorem cforTest_statusKept (e : Option ArithExpr) :
    Keeps StatusKept (cforTest (shellSem host n d cur) e) := by
  cases e with
  | none => exact keeps_pure .refl _
  | some e =>
    exact keeps_bind (fun {a b c} => .trans) (arith_statusKept e) fun _ => keeps_pure .refl _

/-- No tree is constructed for the positional parameters. -/
theorem positional_status {values : List String}
    (h : (shellSem host n d cur).positional s = some (.ok values, s')) : s'.status = s.status := by
  rcases bind_cases h with ⟨_, s₁, htick, hread⟩ | ⟨e, -, he⟩
  · have hstart : s₁.status = s.status := by
      have hbudget := @performOp_tick_ok host (reentry host n d) s s₁ htick
      rw [hbudget]
    rw [← hstart]
    have harray : runShell host n d (Shell.resolveArray "*" >>= fun values => pure (values.getD []))
        s₁ = some (.ok values, s') := hread
    rw [runShell_bind] at harray
    rcases bind_cases harray with ⟨array, s₂, hresolve, hpure⟩ | ⟨e, -, he⟩
    · cases hpure
      cases hv : s₁.store.resolveVariable "*" with
      | some v =>
        rw [run_resolveArray hv] at hresolve
        cases hresolve
        rfl
      | none =>
        rw [run_resolveArray_none hv] at hresolve
        split_ifs at hresolve
        · cases hresolve
        · cases hresolve
          rfl
    · cases he
  · cases he

/-- An idle run is what the command does, but for the streams. -/
theorem IdleRun.run {c : Construct} (h : IdleRun host (n + 1) d cur c s s') :
    execCommand (shellSem host (n + 1) d cur) (n + 1) c.command s =
      some (.ok (), { s' with streams := s.streams }) := by
  cases h with
  | ifStatement h => exact execCommand_compound (h.run _)
  | loop h =>
    apply execCommand_compound
    rw [execCompound, whileLoop, bind_of_ok h]
    rfl
  | cfor hinit hcond =>
    apply execCommand_compound
    rw [execCompound, bind_of_ok hinit, cforLoop, bind_of_ok hcond]
    rfl
  | @words name words body s s' hwords h =>
    apply execCommand_compound
    rw [execCompound, bind_of_ok h]
    have hempty : (([] : List String).isEmpty && !words.isEmpty) = true := by
      rw [List.isEmpty_nil, Bool.true_and, Bool.not_eq_true', List.isEmpty_eq_false_iff]
      exact hwords
    show (if _ then _ else _ : Comp Exn Interpreter Unit) s' = _
    rw [if_pos hempty]
    rfl
  | positional h =>
    apply execCommand_compound
    rw [execCompound, splitWords, pure_bind]
    show ((shellSem host (n + 1) d cur).positional >>= fun values => forLoop _ _ _ values) s = _
    rw [bind_of_ok h]
    rfl
  | caseOf hword h =>
    apply execCommand_compound
    rw [execCompound, bind_of_ok hword]
    exact h.run
  | assignment h hplain => exact execCommand_simple h

/-- The status that an idle run leaves, for each construct. -/
theorem IdleRun.status_iff {c : Construct} (h : IdleRun host n d cur c s s') :
    s'.status = 0 ↔ c.ZeroInPlace s s' := by
  cases h with
  | ifStatement h => exact iff_of_false h.status id
  | @loop negate cond body s s' h =>
    rcases bind_cases h with ⟨_, s₁, -, htest⟩ | ⟨e, -, he⟩
    · have hresult := Prod.mk.inj (Option.some.inj htest)
      have hstops : loopStops negate s₁.status = true := by
        have hfalse : (!loopStops negate s₁.status) = false := Except.ok.inj hresult.1
        rw [← Bool.not_not (loopStops negate s₁.status), hfalse]
        rfl
      have hstatus : s₁.status = if negate then 0 else 1 := beq_iff_eq.mp hstops
      rw [← hresult.2]
      show s₁.status = 0 ↔ negate = true
      rw [hstatus]
      cases negate <;> simp
    · cases he
  | cfor hinit hcond =>
    have hkept := (runArith_statusKept _ _ _ _ hinit).trans (cforTest_statusKept _ _ _ _ hcond)
    exact hkept.status_iff 0
  | words hwords h => exact iff_of_true rfl (.inl hwords)
  | positional h =>
    rw [positional_status h]
    constructor
    · exact .inr
    · rintro (hwords | hzero)
      · exact absurd rfl hwords
      · exact hzero
  | caseOf hword h =>
    have hkept := (shellSem_statusKept (below_of_inWords (Shell.caseWord_inWords host _)) _ _ _ hword).trans h.statusKept
    exact hkept.status_iff 0
  | assignment h hplain =>
    have hkept : StatusKept s s' := shellSem_statusKept (Shell.varDefs_below host false _) _ _ _ h
    rw [hkept.status_iff]
    constructor
    · exact fun hbefore => hbefore.before hplain
    · exact fun hzero => ⟨fun _ => hzero, fun hsub => absurd hsub hplain⟩

/-- What follows a construct that succeeds runs. -/
theorem execLogic_after {c : Command shell} {t : Interpreter}
    (h : execCommand (shellSem host n d cur) n c s = some (.ok (), t)) (hstatus : t.status = 0)
    (right : Command shell) :
    execLogic (shellSem host n d cur) n (.logic true (.command c) right) s =
      execCommand (shellSem host n d cur) n right t := by
  have hleft : execLogic (shellSem host n d cur) n (.command c) s = some (.ok (), t) := by
    rw [execLogic, h]
  have htruth : truth ((shellSem host n d cur).getStatus t) = true := beq_iff_eq.mpr hstatus
  rw [execLogic_of_ok hleft, htruth]
  rfl

end Idle

/-- For every construct, every previous status and every state, however the
constructs in its conditions are nested; the loops may make a pass. -/
theorem idleConstructs_iff (host : Host) (n d : Nat) (cur : AstId) (c : Construct)
    (s : Interpreter) :
    Succeeds host (n + 1) d cur c s ↔
      ∀ s', IdleRun host (n + 1) d cur c s s' → c.ZeroInPlace s s' := by
  constructor
  · intro h s' hidle
    obtain ⟨t, hexec, hstatus, -⟩ := h s' hidle
    rw [hidle.run] at hexec
    cases hexec
    exact hidle.status_iff.mp hstatus
  · intro h s' hidle
    have hstatus : s'.status = 0 := hidle.status_iff.mpr (h s' hidle)
    exact ⟨_, hidle.run, hstatus, execLogic_after hidle.run hstatus⟩

/-- `for ((;0;)); do :; done` after `false`. -/
theorem not_succeeds_cfor :
    let body : CommandList shell := .ofSimple (.literals ":" []) []
    ¬Succeeds (.ofTexts [] []) 1 0 0 (.cfor none (some (.num "0")) none body)
      { Interpreter.initial [] with status := 1 } := by
  intro body h
  have hidle : IdleRun (.ofTexts [] []) 1 0 0 (.cfor none (some (.num "0")) none body)
      { Interpreter.initial [] with status := 1 } { Interpreter.initial [] with status := 1 } :=
    .cfor rfl rfl
  obtain ⟨t, hexec, hstatus, -⟩ := h _ hidle
  rw [hidle.run] at hexec
  cases hexec
  cases hstatus

end Libbash
