import Libbash.Core.DynamicScope
import Libbash.Interp.ListVariables
import Libbash.Interp.Frames

/-!
# What commands write

A scalar assignment goes to the innermost binding of a name, an array assignment
to the global one: `var_def` calls `define` for it. What follows from that for
reading the array back (`arrayAssignment_iff`), and for readonly variables
(`readonlyKept`): the variable object is replaced by a new one.
-/

namespace Libbash

open Lib Lib.Comp Lib.Program

/-! ## Array assignment -/

/-- The values of words, one after the other. -/
def Shell.wordValues (host : Host) : List Word → Shell (List String)
  | [] => pure []
  | w :: ws => do
    let v ← Shell.stringExpr host w
    let vs ← Shell.wordValues host ws
    pure (v.value :: vs)

section Elements

variable (host : Host) (h : Handler Op Bracket Exn Interpreter) (name : String)

/-- The elements of `(v1 .. vk)` get consecutive indices. -/
theorem run_arrayDefHelper (ws : List Word) (k : Nat) (values : Std.ExtTreeMap UInt32 String) :
    Program.run h (Shell.arrayDefHelper host name (.ofNat k) values (ws.map .next)) =
      Program.run h (Shell.wordValues host ws) >>= fun vs =>
        pure (insertAll values (indexFrom k vs)) := by
  induction ws generalizing k values with
  | nil => rfl
  | cons w ws ih =>
    rw [List.map_cons, Shell.arrayDefHelper, Shell.wordValues]
    simp only [run_bind, run_pure, bind_assoc, pure_bind]
    congr 1
    funext v
    have hindex : UInt32.ofNat k + 1 = .ofNat (k + 1) := by
      rw [UInt32.ofNat_add]
      rfl
    rw [hindex, ih]
    rfl

end Elements

/-- A state after `name=(v1 .. vk)`, whose elements have left the state `s`: the
elements can be read back, and the binding that has been written is the one that
a scalar assignment writes. -/
structure AssignsArray (name : String) (values : List String) (s s' : Interpreter) : Prop where
  /-- `${name[@]}`. -/
  all : (s'.store.resolveVariable name).map Variable.getAllValues = some values
  /-- `${name[i]}`. -/
  element : ∀ i value, values[i]? = some value →
    (s'.store.resolveVariable name).map (Variable.getValueString · (.ofNat i)) = some value
  binding : ∃ how, s'.log = .wrote how name (s.store.level name) :: s.log
  others : ∀ x level, x ≠ name ∨ level ≠ s.store.level name →
    s'.store.valueAt x level = s.store.valueAt x level

theorem Identifier.nonempty (x : Identifier) : x.text.isEmpty = false := by
  cases hempty : x.text.isEmpty with
  | false => rfl
  | true =>
    have hname := x.isName
    rw [String.isEmpty_iff.mp hempty] at hname
    exact absurd hname (by decide)

section ArrayAssignment

variable {host : Host} {n d : Nat} {x : Identifier} {ws : List Word} {s s₁ : Interpreter}
  {values : List String}

/-- The state after the assignment of an array. -/
def Interpreter.defineArray (x : String) (values : List String) (s : Interpreter) : Interpreter :=
  Interpreter.record (.wrote .define x 0)
    { s with store := { s.store with
        members := s.store.members.insert x (.ofList x 0 values) } }

theorem run_arrayAssignment
    (h : runShell host n d (Shell.wordValues host ws) s = some (.ok values, s₁)) :
    runShell host n d (Shell.varDef host false (.array x (ws.map .next))) s =
      some (.ok (), s₁.defineArray x.text values) := by
  unfold runShell at h ⊢
  rw [Shell.varDef, run_bind]
  have hhelper := run_arrayDefHelper host (handler host (reentry host n d)) x.text ws 0 ∅
  rw [show (0 : UInt32) = .ofNat 0 from rfl, hhelper, bind_assoc, bind_of_ok h, pure_bind,
    if_neg Bool.false_ne_true, run_perform, handler_perform, performOp]
  exact writing_of_ok rfl

/-- For every stack of frames, name and list of elements. -/
theorem arrayAssignment_iff
    (h : runShell host n d (Shell.wordValues host ws) s = some (.ok values, s₁)) :
    ∃ s', runShell host n d (Shell.varDef host false (.array x (ws.map .next))) s =
        some (.ok (), s') ∧
      (AssignsArray x.text values s₁ s' ↔ s₁.store.IsGlobal x.text ∧ values.length ≤ 2 ^ 32) := by
  refine ⟨_, run_arrayAssignment h, ?_⟩
  constructor
  · intro hassigns
    obtain ⟨how, hlog⟩ := hassigns.binding
    have hlevel : s₁.store.level x.text = 0 := by
      injection (List.cons.inj hlog).1 with _ _ hlevel
      exact hlevel.symm
    have hglobal := (isGlobal_iff_level x.nonempty).mpr hlevel
    have hall := hassigns.all
    rw [show (s₁.defineArray x.text values).store.resolveVariable x.text = some _ from
      resolve_define x.nonempty hglobal _, Option.map_some, Option.some.injEq] at hall
    exact ⟨hglobal, hall ▸ length_getAllValues_le _⟩
  · rintro ⟨hglobal, hlen⟩
    have hlevel := (isGlobal_iff_level x.nonempty).mp hglobal
    have hresolve : (s₁.defineArray x.text values).store.resolveVariable x.text =
      some (.ofList x.text 0 values) := resolve_define x.nonempty hglobal _
    have hlen : 0 + values.length ≤ 2 ^ 32 := (Nat.zero_add _).symm ▸ hlen
    constructor
    · rw [hresolve, Option.map_some, getAllValues_ofList hlen]
    · intro i value hi
      have helement : (Variable.ofList x.text 0 values).getValueString (.ofNat (0 + i)) = value :=
        getValueString_ofList hlen hi
      rw [Nat.zero_add] at helement
      rw [hresolve, Option.map_some, helement]
    · exact ⟨.define, by rw [hlevel]; rfl⟩
    · intro y level hne
      rw [hlevel] at hne
      have hbindings := bindings_define s₁.store x.text (.ofList x.text 0 values)
      show Bindings.valueAt (Store.bindings { s₁.store with members := _ }) y level = _
      rw [hbindings]
      exact (Bindings.changesOnly_bindGlobal _ _ _).others y level hne

end ArrayAssignment

def identifierA : Identifier := ⟨"a", isIdentifier_a⟩

/-- `a=(1 2)`, in a new interpreter. -/
theorem arrayAssignment_iff_initial :
    ∃ s', runShell (.ofTexts [] []) 0 0
        (Shell.varDef (.ofTexts [] []) false
          (.array identifierA ([Word.literal "1", .literal "2"].map .next))) (.initial []) =
        some (.ok (), s') ∧
      (AssignsArray "a" ["1", "2"] (.initial []) s' ↔
        (Interpreter.initial []).store.IsGlobal "a" ∧ ["1", "2"].length ≤ 2 ^ 32) :=
  arrayAssignment_iff (x := identifierA) (s := .initial []) rfl

/-- In a function, after `local a=x`. -/
def localA : Interpreter :=
  { Interpreter.initial [] with
    store := { members := initialMembers
               localMembers := [(∅ : Scope).insert "a" (.new "a" (.scalar (.str "x") 0) false)] } }

/-- `a=(1 2)`, after `local a=x`. -/
theorem not_assignsArray_local :
    ∃ s', runShell (.ofTexts [] []) 0 0
        (Shell.varDef (.ofTexts [] []) false
          (.array identifierA ([Word.literal "1", .literal "2"].map .next))) localA =
        some (.ok (), s') ∧ ¬AssignsArray "a" ["1", "2"] localA s' := by
  have hvalues : runShell (.ofTexts [] []) 0 0
      (Shell.wordValues (.ofTexts [] []) [.literal "1", .literal "2"]) localA =
        some (.ok ["1", "2"], localA) := rfl
  refine ⟨_, run_arrayAssignment hvalues, fun h => ?_⟩
  obtain ⟨how, hlog⟩ := h.binding
  have hlevel : localA.store.level "a" = 1 := by decide +kernel
  rw [hlevel] at hlog
  cases (List.cons.inj hlog).1

/-! ## Writes -/

/-- A write of a command to a variable, other than the declaration of a local
one, with its operands evaluated. -/
inductive StoreWrite where
  | setValue (name : String) (new : Value) (index : UInt32)
  | defineArray (name : GlobalName) (values : Std.ExtTreeMap UInt32 String)
  | unset (name : String)
  | unsetIndex (name : String) (index : UInt32)

namespace StoreWrite

def name : StoreWrite → String
  | setValue name _ _ => name
  | defineArray name _ => name.text
  | unset name => name
  | unsetIndex name _ => name

def program : StoreWrite → Shell Unit
  | setValue name new index => perform (.setValue name new index)
  | defineArray name values => perform (.define name (.array values) false)
  | unset name => perform (.unset name)
  | unsetIndex name index => perform (.unsetIndex name index)

/-- The writes that look at the mark: all but the assignment of an array. The
removals refuse a name that starts with a digit before they look. -/
def Checks : StoreWrite → Prop
  | setValue .. => True
  | defineArray .. => False
  | unset name | unsetIndex name _ => (name.toList.head?.map Char.isDigit).getD false = false

end StoreWrite

/-- Writes one after the other. -/
def performWrites : List StoreWrite → Shell Unit
  | [] => pure ()
  | w :: ws => do
    w.program
    performWrites ws

/-- The commands that write variables without declaring local ones. -/
inductive WriteCommand where
  /-- `x=w` and `x[i]=w`. -/
  | assign (n : Name) (w : Option Word)
  /-- `x=(..)`. -/
  | assignArray (x : Identifier) (elements : List ArrayElement)
  /-- `x+=(..)`. -/
  | append (x : Identifier) (elements : List ArrayElement)
  /-- `x=l` in arithmetic. -/
  | arithmeticEquals (p : Primary) (l : ArithExpr)
  /-- `x+=l` and so on in arithmetic. -/
  | arithmeticAssign (op : Arith.AssignOp) (p : Primary) (l : ArithExpr)
  /-- `x++` and so on. -/
  | count (op : CountOp) (p : Primary)
  /-- A pass of `for x`. -/
  | forVariable (name value : String)
  /-- `read`. -/
  | read (args : List String)
  /-- `printf -v`. -/
  | printf (name format : String) (args : List String)
  /-- `${x:=w}` and `${x=w}`. -/
  | assignDefault (orNull : Bool) (n : ParameterName) (w : RawString)
  /-- `unset x` and `unset x[i]`. -/
  | unset (arg : String)

namespace Shell

/-- What `process` writes. -/
def processWrites : List String → List String → List StoreWrite
  | [], _ => []
  | name :: names, [] => .setValue name (.str "") 0 :: processWrites names []
  | [name], words => [.setValue name (.str (" ".intercalate words)) 0]
  | name :: names, word :: words => .setValue name (.str word) 0 :: processWrites names words

/-- Leave the value of a rule. -/
def discard {α : Type} (p : Shell α) : Shell Unit := do
  let _ ← p
  pure ()

end Shell

namespace WriteCommand

variable (host : Host)

/-- The command, as the rules and builtins execute it. -/
def program : WriteCommand → Shell Unit
  | assign n w => Shell.varDef host false (.scalar n w)
  | assignArray x elements => Shell.varDef host false (.array x elements)
  | append x elements => Shell.varDef host false (.append x elements)
  | arithmeticEquals p l => Shell.discard (Shell.arithmetics host (.equals p l))
  | arithmeticAssign op p l => Shell.discard (Shell.arithmetics host (.assign op p l))
  | count op p => Shell.discard (Shell.arithmetics host (.count op p))
  | forVariable name value => perform (.setValue name (.str value) 0)
  | read args => Shell.discard (Shell.readBuiltin args)
  | printf name format args => Shell.discard (Shell.printfBuiltin host ("-v" :: name :: format :: args))
  | assignDefault orNull n w => Shell.discard (Shell.varExpansion host (.assignDefault orNull n w))
  | unset arg => Shell.unsetVariables [arg]

/-- What the command does before it writes, and what it writes. -/
def operands : WriteCommand → Shell (List StoreWrite)
  | assign n w => do
    let p ← Shell.nameRule host n
    let value ← Shell.optionalWord host w
    pure [.setValue p.1 (.str value) p.2]
  | assignArray x elements => do
    let values ← Shell.arrayDefHelper host x.text 0 ∅ elements
    pure [.defineArray x.global values]
  | append x elements => do
    let index ← Shell.appendIndex x.text
    let values ← Shell.arrayDefHelper host x.text index ∅ elements
    pure (values.toList.map fun p => .setValue x.text (.str p.2) p.1)
  | arithmeticEquals p l => do
    let p ← Shell.primary host p
    let l ← Shell.arithmetics host l
    pure [.setValue p.1 (.num l) p.2]
  | arithmeticAssign op p l => do
    let p ← Shell.primary host p
    let l ← Shell.arithmetics host l
    let old ← Shell.resolveLong p.1 p.2
    let new ← Shell.binaryAct op.binary old l
    pure [.setValue p.1 (.num new) p.2]
  | count op p => do
    let p ← Shell.primary host p
    let value ← Shell.resolveString p.1 p.2
    if Arith.isNumber value then do
      let old ← Shell.resolveLong p.1 p.2
      pure [.setValue p.1 (.num (old + op.step)) p.2]
    else if value.isEmpty then pure []
    else do
      let _ ← Shell.evalArithmetic (op.text value)
      pure []
  | forVariable name value => pure [.setValue name (.str value) 0]
  | read args => do
    let input ← perform .readInput
    match input.1 with
    | none => pure []
    | some text => do
      let formatedInput ← Shell.escaped text
      pure (Shell.processWrites (if args.isEmpty then ["REPLY"] else args)
        (splitSpaces formatedInput))
  | printf name format args => do
    let text ← Shell.formatted host format args
    pure [.setValue name (.str text) 0]
  | assignDefault orNull n w => do
    let p ← Shell.varName host n
    let word ← Shell.rawString w
    let cond ← Shell.unsetTest orNull p.1 p.2
    if cond then pure [.setValue p.1 (.str word) p.2]
    else do
      let _ ← Shell.resolveString p.1 p.2
      pure []
  | unset arg =>
    match Shell.elementPattern arg with
    | some (base, digits) => do
      let index ← Shell.lexicalCastUnsigned digits
      pure [.unsetIndex base index]
    | none => pure [.unset arg]

end WriteCommand

section Commands

variable {host : Host} (h : Handler Op Bracket Exn Interpreter)

theorem run_discard {α : Type} (p : Shell α) :
    Program.run h (Shell.discard p) = Program.run h p >>= fun _ => pure () := rfl

theorem run_writes_singleton (w : StoreWrite) :
    Program.run h (performWrites [w]) = Program.run h w.program := by
  rw [performWrites, run_bind]
  exact bind_pure (Program.run h w.program)

theorem run_processWrites (names words : List String) :
    Program.run h (performWrites (Shell.processWrites names words)) =
      Program.run h (Shell.process names words) := by
  induction names generalizing words with
  | nil =>
    rw [Shell.processWrites, Shell.process]
    rfl
  | cons name names ih =>
    cases words with
    | nil =>
      rw [Shell.processWrites, Shell.process, performWrites, run_bind, run_bind, ih]
      rfl
    | cons word words =>
      cases names with
      | nil =>
        rw [Shell.processWrites, Shell.process, run_writes_singleton]
        · rfl
        · exact fun hnil => by cases hnil
        · exact fun hnil => by cases hnil
      | cons name' names =>
        rw [Shell.processWrites, Shell.process, performWrites, run_bind, run_bind, ih]
        · rfl
        · exact fun hnil => by cases hnil
        · exact fun hnil => by cases hnil

theorem run_setElements (name : String) (values : List (UInt32 × String)) :
    Program.run h (performWrites (values.map fun p => .setValue name (.str p.2) p.1)) =
      Program.run h (Shell.setElements name values) := by
  induction values with
  | nil => rfl
  | cons p values ih =>
    rw [List.map_cons, performWrites, Shell.setElements, run_bind, run_bind, ih]
    rfl

/-- Every command evaluates its operands and then performs its writes. -/
theorem run_writeCommand (c : WriteCommand) :
    Program.run h (c.program host) =
      Program.run h (c.operands host) >>= fun ws => Program.run h (performWrites ws) := by
  cases c with
  | assign n w =>
    rw [WriteCommand.program, WriteCommand.operands, Shell.varDef]
    simp only [run_bind, run_pure, bind_assoc, pure_bind, run_writes_singleton, StoreWrite.program]
    rfl
  | assignArray x elements =>
    rw [WriteCommand.program, WriteCommand.operands, Shell.varDef]
    simp only [run_bind, run_pure, bind_assoc, pure_bind, run_writes_singleton, StoreWrite.program]
    rfl
  | append x elements =>
    rw [WriteCommand.program, WriteCommand.operands, Shell.varDef]
    simp only [run_bind, run_pure, bind_assoc, pure_bind, run_setElements]
    rfl
  | arithmeticEquals p l =>
    rw [WriteCommand.program, WriteCommand.operands, run_discard, Shell.arithmetics]
    simp only [Shell.setNumber, run_bind, run_pure, bind_assoc, pure_bind, bind_pure_unit, run_writes_singleton,
      StoreWrite.program]
  | arithmeticAssign op p l =>
    rw [WriteCommand.program, WriteCommand.operands, run_discard, Shell.arithmetics]
    simp only [Shell.updateVariable, Shell.setNumber, run_bind, run_pure, bind_assoc, pure_bind, bind_pure_unit,
      run_writes_singleton, StoreWrite.program]
  | count op p =>
    rw [WriteCommand.program, WriteCommand.operands, run_discard, Shell.arithmetics]
    simp only [Shell.countVariable, Shell.setNumber, run_bind, bind_assoc]
    congr 1
    funext p
    congr 1
    funext value
    split_ifs
    · simp only [run_bind, run_pure, bind_assoc, pure_bind, bind_pure_unit, run_writes_singleton,
        StoreWrite.program]
    · rfl
    · simp only [run_bind, run_pure, bind_assoc, pure_bind]
      rfl
  | forVariable name value =>
    rw [WriteCommand.program, WriteCommand.operands, run_pure, pure_bind, run_writes_singleton,
      StoreWrite.program]
  | read args =>
    rw [WriteCommand.program, WriteCommand.operands, run_discard, Shell.readBuiltin]
    simp only [run_bind, bind_assoc]
    congr 1
    funext input
    cases input.1 with
    | none => rfl
    | some text =>
      simp only [run_bind, run_pure, bind_assoc, pure_bind, bind_pure_unit, run_processWrites]
  | printf name format args =>
    rw [WriteCommand.program, WriteCommand.operands, run_discard, Shell.printfBuiltin, if_pos rfl]
    simp only [run_bind, run_pure, bind_assoc, pure_bind, bind_pure_unit, run_writes_singleton,
      StoreWrite.program]
  | assignDefault orNull n w =>
    rw [WriteCommand.program, WriteCommand.operands, run_discard,
      Shell.varExpansion_assignDefault]
    simp only [Shell.assignExpansion, Shell.doAssignExpansion, Shell.setString, run_bind, bind_assoc]
    congr 1
    funext p
    congr 1
    funext word
    congr 1
    funext cond
    cases cond with
    | false =>
      simp only [Bool.false_eq_true, if_false, run_bind, run_pure, bind_assoc, pure_bind]
      rfl
    | true =>
      simp only [if_true, run_bind, run_pure, bind_assoc, pure_bind, bind_pure_unit, run_writes_singleton,
        StoreWrite.program]
  | unset arg =>
    rw [WriteCommand.program, WriteCommand.operands, Shell.unsetVariables]
    cases Shell.elementPattern arg with
    | none => rfl
    | some p =>
      simp only [run_bind, run_pure, bind_assoc, pure_bind]
      rfl

end Commands

/-! ## Readonly variables -/

section Readonly

variable {s : Interpreter} {v : Variable} {w : StoreWrite}

theorem setValue_refused {t : Store} {name : String} {new : Value} {index : UInt32}
    (hv : t.resolveVariable name = some v) (hro : v.readonly = true) :
    setValue name new index t = some (.error (.error .readonly (v.name ++ " is readonly variable")), t) := by
  have hset : Variable.setValue new index v =
      some (.error (.error .readonly (v.name ++ " is readonly variable")), v) := by
    unfold Variable.setValue
    rw [reads_bind_apply, id_eq, if_pos hro]
    rfl
  unfold setValue
  rw [reads_bind_apply]
  simp only [id_eq]
  rw [hv]
  show throughPointer name v _ t = _
  unfold throughPointer
  rw [hset]
  simp only [assign_self hv]

/-- The removals raise on a readonly binding. -/
theorem unset_refused {t : Store} (x : VarName) {op : StoreOp}
    (hop : op = .unset x ∨ ∃ index, op = .unsetIndex x index)
    (hv : t.resolveVariable x.text = some v) (hro : v.readonly = true) :
    op.exec t = some (.error (.error .readonly "unset a readonly variable"), t) := by
  rw [resolve_of_nonempty x.nonempty] at hv
  refine exec_of_spec ?_
  obtain rfl | ⟨index, rfl⟩ := hop
  · exact onInnermost_readonly hv hro
  · exact onInnermost_readonly hv hro

theorem storeWrite_refused (host : Host) (re : Reentry)
    (hv : s.store.resolveVariable w.name = some v) (hro : v.readonly = true)
    (hchecks : w.Checks) :
    ∃ what, Program.run (handler host re) w.program s = some (.error (.error .readonly what), s) := by
  cases w with
  | setValue name new index =>
    refine ⟨v.name ++ " is readonly variable", ?_⟩
    rw [StoreWrite.program, run_perform, handler_perform, performOp, reads_bind_apply]
    exact writing_of_error (setValue_refused hv hro)
  | defineArray name values => exact hchecks.elim
  | unset name =>
    let x : VarName := ⟨name, isEmpty_of_resolve hv, hchecks⟩
    refine ⟨"unset a readonly variable", ?_⟩
    rw [StoreWrite.program, run_perform, handler_perform, performOp]
    exact writing_of_error (unset_refused x (.inl rfl) hv hro)
  | unsetIndex name index =>
    let x : VarName := ⟨name, isEmpty_of_resolve hv, hchecks⟩
    refine ⟨"unset a readonly variable", ?_⟩
    rw [StoreWrite.program, run_perform, handler_perform, performOp]
    exact writing_of_error (unset_refused x (.inr ⟨index, rfl⟩) hv hro)

theorem performOp_define (host : Host) (re : Reentry) (name : GlobalName) (init : Initial) (readonly : Bool) (s : Interpreter) :
    performOp host re (.define name init readonly) s = some (.ok (),
      Interpreter.record (.wrote .define name.text 0) { s with
        store := { s.store with
          members := s.store.members.insert name.text (.new name.text init readonly) } }) := by
  rw [performOp]
  exact writing_of_ok rfl

theorem storeWrite_unchecked (host : Host) (re : Reentry) (s : Interpreter) (hchecks : ¬w.Checks) :
    (∃ s' e, Program.run (handler host re) w.program s = some (.ok (), s') ∧ s'.log = e :: s.log) ∨
      ∃ what, Program.run (handler host re) w.program s = some (.error (.error .runtime what), s) := by
  have hdigit : ∀ {name : String}, ¬(name.toList.head?.map Char.isDigit).getD false = false →
      ∀ t, checkUnsetPositional name t =
        some (.error (.error .runtime "unset: not a valid identifier"), t) := by
    intro name hname t
    unfold checkUnsetPositional
    rw [if_pos (by simpa using hname)]
    rfl
  cases w with
  | setValue name new index => exact absurd trivial hchecks
  | defineArray name values =>
    exact .inl ⟨_, _, performOp_define host re name (.array values) false s, rfl⟩
  | unset name =>
    refine .inr ⟨"unset: not a valid identifier", ?_⟩
    rw [StoreWrite.program, run_perform, handler_perform, performOp]
    refine writing_of_error (t := s.store) ?_
    exact bind_of_error (hdigit hchecks s.store) _
  | unsetIndex name index =>
    refine .inr ⟨"unset: not a valid identifier", ?_⟩
    rw [StoreWrite.program, run_perform, handler_perform, performOp]
    refine writing_of_error (t := s.store) ?_
    exact bind_of_error (hdigit hchecks s.store) _

theorem run_performWrites_append (h : Handler Op Bracket Exn Interpreter) (ws ws' : List StoreWrite) :
    Program.run h (performWrites (ws ++ ws')) =
      Program.run h (performWrites ws) >>= fun _ => Program.run h (performWrites ws') := by
  induction ws with
  | nil => rfl
  | cons w ws ih => rw [List.cons_append, performWrites, performWrites, run_bind, run_bind, ih, bind_assoc]

end Readonly

/-- A command that comes to write a variable whose visible binding is readonly
raises and leaves the state as it is. -/
def Refused (host : Host) (n d : Nat) (c : WriteCommand) (s s' : Interpreter) : Prop :=
  ∃ what, runShell host n d (c.program host) s = some (.error (.error .readonly what), s')

section Refused

variable {host : Host} {n d : Nat} {c : WriteCommand} {s s₁ s₂ : Interpreter} {v : Variable}
  {w : StoreWrite} {before after : List StoreWrite}

theorem refused_iff
    (hoperands : runShell host n d (c.operands host) s = some (.ok (before ++ w :: after), s₁))
    (hbefore : runShell host n d (performWrites before) s₁ = some (.ok (), s₂))
    (hv : s₂.store.resolveVariable w.name = some v) (hro : v.readonly = true) :
    Refused host n d c s s₂ ↔ w.Checks := by
  have hrun : runShell host n d (c.program host) s =
      runShell host n d (performWrites (w :: after)) s₂ := by
    unfold runShell at *
    rw [run_writeCommand, bind_of_ok hoperands, run_performWrites_append, bind_of_ok hbefore]
  have hlast : ∀ {r s₃}, Program.run (handler host (reentry host n d)) w.program s₂ = some (r, s₃) →
      runShell host n d (c.program host) s =
        (match r with
        | .ok _ => runShell host n d (performWrites after) s₃
        | .error e => some (.error e, s₃)) := by
    intro r s₃ hw
    rw [hrun, runShell, performWrites, run_bind]
    cases r with
    | ok u => exact bind_of_ok hw _
    | error e => exact bind_of_error hw _
  constructor
  · rintro ⟨what, hrefused⟩
    by_contra hchecks
    rcases storeWrite_unchecked host (reentry host n d) s₂ hchecks with
      ⟨s₃, e, hw, hlog⟩ | ⟨what', hw⟩
    · -- the write has been logged
      rw [hlast hw] at hrefused
      have hgrows := (runShell_evolves host n d 0 _ _ _ _ hrefused).framed
      obtain ⟨new, hframed⟩ := hgrows
      have hlength := congrArg List.length hframed.log
      rw [hlog, List.length_append, List.length_cons] at hlength
      omega
    · rw [hlast hw] at hrefused
      cases hrefused
  · intro hchecks
    obtain ⟨what, hw⟩ := storeWrite_refused host (reentry host n d) hv hro hchecks
    exact ⟨what, hlast hw⟩

end Refused

/-- An interpreter in which the host has made `a=1` readonly. -/
def readonlyA : Interpreter :=
  { Interpreter.initial [] with
    store := { members := initialMembers.insert "a" (.new "a" (.scalar (.str "1") 0) true)
               localMembers := [] } }

end Libbash
