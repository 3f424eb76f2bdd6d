import Libbash.Interp.Evolution

/-!
# Relations that runs keep

Most operations leave the variables as they are, and every other one makes at most one step of
the store. A relation that says nothing but what becomes of the variables is kept by all runs
when these steps keep it (`StepRelation.runTree`). The commands that a relation knows more about
are left to it: it is asked for every builtin, with the runs below it given.
-/

namespace Libbash

open Lib Lib.Comp Lib.Program

/-- A relation that does not look at anything but the variables. -/
structure RunRelation (R : Interpreter → Interpreter → Prop) : Prop where
  refl : ∀ s, R s s
  trans : ∀ {s s₁ s'}, R s s₁ → R s₁ s' → R s s'
  sameStore : ∀ {s s'}, s'.store = s.store → R s s'

/-- The operations that make a step of the store. -/
def Op.WritesStore {α : Type} : Op α → Prop
  | .setValue .. => True
  | .define .. => True
  | .defineLocal .. => True
  | .unset .. => True
  | .unsetIndex .. => True
  | .shift .. => True
  | .defineFunctionArguments .. => True
  | .definePositionalArguments .. => True
  | _ => False

/-- The rules that start on a tree of their own keep the relation. -/
structure Reentry.Keep (re : Reentry) (R : Interpreter → Interpreter → Prop) : Prop where
  list : ∀ a c, Keeps R (re.list a c)
  compound : ∀ a c, Keeps R (re.compound a c)
  stringExpr : ∀ w, Keeps R (re.stringExpr w)
  arithmetics : ∀ e, Keeps R (re.arithmetics e)

namespace RunRelation

variable {R : Interpreter → Interpreter → Prop} (h : RunRelation R) {host : Host} {re : Reentry}
  {α β : Type}

include h

/-! ## Combinators -/

theorem pure (a : α) : Keeps R (Pure.pure a : Comp Exn Interpreter α) := keeps_pure h.refl a

theorem throw (e : Exn) : Keeps R (MonadExcept.throw e : Comp Exn Interpreter α) :=
  keeps_throw h.refl e

theorem reads (f : Interpreter → α) : Keeps R (Comp.reads f : Comp Exn Interpreter α) :=
  keeps_reads h.refl f

theorem update {f : Interpreter → Interpreter} (hf : ∀ s, (f s).store = s.store) :
    Keeps R (Comp.update f : Comp Exn Interpreter Unit) :=
  keeps_update fun s => h.sameStore (hf s)

theorem bind {m : Comp Exn Interpreter α} {f : α → Comp Exn Interpreter β} (hm : Keeps R m)
    (hf : ∀ a, Keeps R (f a)) : Keeps R (m >>= f) :=
  keeps_bind (I := R) (fun h₁ h₂ => h.trans h₁ h₂) hm hf

/-! ## Trees of their own -/

theorem interpretWith {a : AstId} {walk : Tree → Comp Exn Interpreter α}
    (hwalk : ∀ t, Keeps R (walk t)) : Keeps R (Libbash.interpretWith a walk) := by
  intro s r s' hrun
  rcases interpretWith_cases hrun with ⟨-, rfl⟩ | ⟨t, s₁, -, hbody, rfl⟩
  · exact h.refl _
  · have hpush : R s { s with astStack := a :: s.astStack } := h.sameStore rfl
    exact h.trans (h.trans hpush (hwalk t _ _ _ hbody)) (h.sameStore rfl)

theorem walk (hre : re.Keep R) (a : AstId) (rule : WalkerRule α) (t : Tree) :
    Keeps R (re.walk a rule t) := by
  cases rule with
  | start =>
    cases t with
    | script main bodies => exact hre.list a main
    | word w => exact h.throw _
    | arithmetic e => exact h.throw _
  | stringExpr =>
    cases t with
    | script main bodies => exact h.throw _
    | word w => exact hre.stringExpr w
    | arithmetic e => exact h.throw _
  | arithmetics =>
    cases t with
    | script main bodies => exact h.throw _
    | word w => exact h.throw _
    | arithmetic e => exact hre.arithmetics e

theorem constructAst (rule : ParserRule) (script : String) :
    Keeps R (Libbash.constructAst host rule script) := by
  intro s r s' hrun
  rcases constructAst_cases hrun with ⟨t, -, rfl⟩ | ⟨e, -, rfl⟩
  · exact h.sameStore rfl
  · exact h.refl _

theorem interpretTemporary (hre : re.Keep R) (rule : ParserRule) (script : String)
    (walk : WalkerRule α) : Keeps R (Libbash.interpretTemporary host re rule script walk) := by
  refine h.bind (h.constructAst rule script) fun a s r s' hrun => ?_
  obtain ⟨s₁, hbody, rfl⟩ := bracket_cases hrun
  have hwalk := h.interpretWith (h.walk hre a walk) _ _ _ hbody
  exact h.trans hwalk (h.sameStore rfl)

theorem callFunction (hre : re.Keep R) (name : String) :
    Keeps R (Libbash.callFunction re name) := by
  refine h.bind (h.reads id) fun s => ?_
  split
  · rename_i f _
    refine h.bind (h.update fun _ => rfl) fun _ => h.interpretWith fun t => ?_
    cases t with
    | script main bodies =>
      simp only
      cases bodies[f.index]? with
      | none => exact h.throw _
      | some body => exact hre.compound _ body
    | word w => exact h.throw _
    | arithmetic e => exact h.throw _
  · exact h.throw _

/-! ## Operations -/

/-- Every operation, when those that write a variable keep the relation. -/
theorem performOp (hre : re.Keep R) (o : Op α)
    (hwrites : o.WritesStore → Keeps R (Libbash.performOp host re o)) :
    Keeps R (Libbash.performOp host re o) := by
  cases o with
  | resolveVariable name => exact h.reads _
  | isUnset name => exact h.reads _
  | isLocalScope => exact h.reads _
  | hasFunction name => exact h.reads _
  | allFunctionNames => exact h.reads _
  | callFunction name => exact h.callFunction hre name
  | unsetFunction name => exact h.update fun _ => rfl
  | getStatus => exact h.reads _
  | setStatus status => exact h.update fun _ => rfl
  | getOption name =>
    refine h.bind (h.reads _) fun value => ?_
    cases value with
    | none => exact h.throw _
    | some value => exact h.pure _
  | setOption name value =>
    refine h.bind (h.reads _) fun old => ?_
    cases old with
    | none => exact h.throw _
    | some old => exact h.update fun _ => rfl
  | getAdditionalOption name =>
    refine h.bind (h.reads _) fun value => ?_
    cases value with
    | none => exact h.throw _
    | some value => exact h.pure _
  | setAdditionalOption name value =>
    refine h.bind (h.reads _) fun old => ?_
    cases old with
    | none => exact h.throw _
    | some old => exact h.update fun _ => rfl
  | additionalOptions => exact h.reads _
  | write text => exact h.update fun _ => rfl
  | writeError text => exact h.update fun _ => rfl
  | readInput =>
    refine h.bind (h.reads _) fun s => ?_
    exact h.bind (h.update fun _ => rfl) fun _ => h.pure _
  | captured => exact h.reads _
  | interpretScript rule source => exact h.interpretTemporary hre _ _ _
  | interpretWord trim source => exact h.interpretTemporary hre _ _ _
  | interpretArithmetics source => exact h.interpretTemporary hre _ _ _
  | constructFile path =>
    rw [Libbash.performOp]
    cases host.readFile path with
    | none => exact h.throw _
    | some source => exact h.constructAst _ _
  | findCached path => exact h.reads _
  | insertCached path ast => exact h.update fun _ => rfl
  | interpret a => exact h.interpretWith (h.walk hre a _)
  | tick =>
    refine h.bind (h.reads _) fun budget => ?_
    cases budget with
    | none => exact h.pure _
    | some k =>
      cases k with
      | zero => exact h.bind (h.update fun _ => rfl) fun _ => h.throw _
      | succ k => exact h.update fun _ => rfl
  | _ => exact hwrites trivial

end RunRelation

/-! ## Steps of the store -/

/-- A relation that every step of the store keeps, and every frame that comes and goes. -/
structure StepRelation (R : Interpreter → Interpreter → Prop) : Prop extends RunRelation R where
  wrote : ∀ {how name level s s'}, StoreStep how name level s.store s'.store → R s s'
  scope : ∀ {s s'}, R (acquire .localScope s) s' → R s (release .localScope s s')

section Steps

variable {host : Host} {re : Reentry} {α β : Type} {s s' : Interpreter}

/-- An operation of the store makes a step or changes no variable. -/
theorem writing_step {how : Write} {name : String} {level : Store → Nat} {m : Comp Exn Store α}
    {r : Except Exn α}
    (hok : ∀ a t, m s.store = some (.ok a, t) → StoreStep how name (level s.store) s.store t)
    (herr : ∀ e t, m s.store = some (.error e, t) → t = s.store)
    (h : writing how name level m s = some (r, s')) :
    s'.store = s.store ∨ ∃ how name level, StoreStep how name level s.store s'.store := by
  have hstore := writing_store h
  cases r with
  | ok a => exact .inr ⟨how, name, _, hok a _ hstore⟩
  | error e => exact .inl (herr e _ hstore)

theorem performOp_step {o : Op α} {r : Except Exn α} (ho : o.WritesStore)
    (h : performOp host re o s = some (r, s')) :
    s'.store = s.store ∨ ∃ how name level, StoreStep how name level s.store s'.store := by
  cases o with
  | setValue name new index =>
    rw [performOp, reads_bind_apply] at h
    exact writing_step (fun _ _ h => storeStep_setValue new index h)
      (fun _ _ h => setValue_error h) h
  | define name init readonly =>
    rw [performOp] at h
    exact writing_step
      (fun _ _ h => storeStep_define init readonly (fun hstar => absurd hstar name.notPositional) h)
      (fun _ _ h => by cases h) h
  | defineLocal name init readonly =>
    rw [performOp] at h
    exact writing_step (fun _ _ h => storeStep_defineLocal init readonly h)
      (fun _ _ h => defineLocal_error h) h
  | unset name =>
    rw [performOp] at h
    exact writing_step (fun _ _ h => storeStep_unset h) (fun _ _ h => unset_error h) h
  | unsetIndex name index =>
    rw [performOp] at h
    exact writing_step (fun _ _ h => storeStep_unsetIndex index h)
      (fun _ _ h => unsetIndex_error h) h
  | shift number =>
    rw [performOp] at h
    exact writing_step (fun _ _ h => storeStep_shift number h)
      (fun _ _ h => shiftParameters_error h) h
  | defineFunctionArguments arguments =>
    rw [performOp] at h
    exact writing_step (fun _ _ h => storeStep_defineFunctionArguments arguments h)
      (fun _ _ h => defineFunctionArguments_error h) h
  | definePositionalArguments arguments =>
    rw [performOp] at h
    exact writing_step (fun _ _ h => storeStep_definePositionalArguments arguments h)
      (fun _ _ h => definePositionalArguments_error h) h
  | _ => exact absurd ho not_false

end Steps

namespace StepRelation

variable {R : Interpreter → Interpreter → Prop} (h : StepRelation R) {host : Host} {n d : Nat}
  {re : Reentry} {α : Type}

include h

theorem performOp (hre : re.Keep R) (o : Op α) : Keeps R (Libbash.performOp host re o) := by
  refine h.toRunRelation.performOp hre o fun ho s r s' hrun => ?_
  rcases performOp_step ho hrun with hstore | ⟨how, name, level, hstep⟩
  · exact h.sameStore hstore
  · exact h.wrote hstep

theorem within (br : Bracket) {s s' : Interpreter} (hbody : R (acquire br s) s') :
    R s (release br s s') := by
  cases br with
  | localScope => exact h.scope hbody
  | captureOutput =>
    have hcapture : R s (acquire .captureOutput s) := h.sameStore rfl
    exact h.trans (h.trans hcapture hbody) (h.sameStore rfl)

theorem run (hre : re.Keep R) (p : Shell α) : Keeps R (Program.run (handler host re) p) :=
  Program.run_keeps
    { refl := h.refl
      trans := fun _ _ _ h₁ h₂ => h.trans h₁ h₂
      perform := h.performOp hre
      within := fun br _ _ hbody => h.within br hbody } p

/-! ## Commands -/

section Commands

variable (hre : (Libbash.reentry host n d).Keep R)
  (hbuiltins : ∀ name exec, (Shell.builtins host).lookup name = some exec →
    ∀ args, Keeps R (Libbash.runShell host n d (exec args)))

include hre

theorem runShell (p : Shell α) : Keeps R (Libbash.runShell host n d p) := h.run hre p

theorem walkStep {p : Shell α} (hp : Keeps R (Libbash.runShell host n d p)) :
    Keeps R (Libbash.walkStep host (reentry host n d) p) := by
  have htick : Keeps R (Libbash.runShell host n d (perform .tick)) := h.runShell hre _
  exact h.bind htick fun _ => hp

include hbuiltins

/-- A function, a builtin, or an error. -/
theorem dispatch (name : String) (args : List String) :
    Keeps R (Libbash.runShell host n d (Shell.dispatch host name args)) := by
  have hfunction : Keeps R (Libbash.runShell host n d (perform (.hasFunction name))) :=
    h.runShell hre _
  refine h.bind hfunction fun isFunction => ?_
  cases isFunction with
  | true => exact h.runShell hre _
  | false =>
    show Keeps R (Libbash.runShell host n d (Shell.executeBuiltin host name args))
    unfold Shell.executeBuiltin
    split
    · rename_i exec hexec
      exact h.bind (hbuiltins name exec hexec args) fun _ => h.runShell hre _
    · exact h.runShell hre _

theorem executeCommand (name : String) (args : List String) (defs : List VarDef) (bang : Bool) :
    Keeps R (Libbash.runShell host n d (Shell.executeCommand host name args defs bang)) := by
  have hbody : Keeps R (Libbash.runShell host n d (do
      Shell.varDefs host true defs
      Shell.dispatch host (if name.isEmpty then ":" else name) args
      Shell.negateStatus bang)) := by
    refine h.bind (h.runShell hre _) fun _ => ?_
    exact h.bind (h.dispatch hre hbuiltins _ args) fun _ => h.runShell hre _
  unfold Shell.executeCommand Shell.inScope
  by_cases hexempt : Shell.isExempt name = true
  · rw [if_pos hexempt]
    exact hbody
  · rw [if_neg hexempt]
    intro s r s' hrun
    obtain ⟨s₁, hin, rfl⟩ := within_cases hrun
    exact h.within .localScope (hbody _ _ _ hin)

theorem simpleCommand (name : Word) (args : List Word) (defs : List VarDef) (bang : Bool) :
    Keeps R (Libbash.runShell host n d (Shell.simpleCommand host name args defs bang)) := by
  refine h.bind (h.runShell hre _) fun v => ?_
  exact h.bind (h.runShell hre _) fun values => h.executeCommand hre hbuiltins _ _ _ _

theorem simpleAtom (cur : AstId) (c : SimpleCommand) :
    Keeps R (Libbash.simpleAtom host (reentry host n d) cur c) := by
  cases c with
  | variableDefinitions isLocal defs => exact h.walkStep hre (h.runShell hre _)
  | functionDefinition name index =>
    refine h.bind (h.walkStep hre (h.runShell hre _)) fun _ => ?_
    unfold defineFunction
    split_ifs
    · exact h.throw _
    · refine h.bind (h.reads id) fun s => ?_
      split
      · exact h.throw _
      · exact h.update fun _ => rfl
  | simple name args defs bang =>
    exact h.walkStep hre (h.simpleCommand hre hbuiltins name args defs bang)

theorem leafSem (cur : AstId) : (Libbash.leafSem host (reentry host n d) cur).Respects R R where
  refl := h.refl
  trans _ _ _ h₁ h₂ := h.trans h₁ h₂
  weaken _ _ hR := hR
  transWeak _ _ _ h₁ h₂ := h.trans h₁ h₂
  restore _ _ hR := h.trans hR (h.sameStore rfl)
  setStatus _ _ := h.sameStore rfl
  redirect _ :=
    h.bind (h.walkStep hre (h.runShell hre _)) fun redirected =>
      h.update fun _ => by cases redirected <;> rfl
  simple c := h.simpleAtom hre hbuiltins cur c
  cond _ := h.walkStep hre (h.runShell hre _)
  arith _ := h.walkStep hre (h.runShell hre _)
  forWord _ := h.walkStep hre (h.runShell hre _)
  positional := h.walkStep hre (h.runShell hre _)
  setValue _ _ := h.walkStep hre (h.runShell hre _)
  caseWord _ := h.walkStep hre (h.runShell hre _)
  matchPattern _ _ := h.walkStep hre (h.runShell hre _)

end Commands

/-- The rules keep a relation that the builtins keep wherever the rules below them do. -/
theorem reentry
    (hbuiltins : ∀ n d, (Libbash.reentry host n d).Keep R →
      ∀ name exec, (Shell.builtins host).lookup name = some exec →
        ∀ args, Keeps R (Libbash.runShell host n d (exec args))) (n d : Nat) :
    (Libbash.reentry host n d).Keep R := by
  induction d with
  | zero => exact ⟨fun _ _ => keeps_diverge, fun _ _ => keeps_diverge, fun _ => keeps_diverge,
      fun _ => keeps_diverge⟩
  | succ d ih =>
    have hleaf := fun a => h.leafSem ih (hbuiltins n d ih) a
    exact ⟨fun a c => execList_keeps (hleaf a) n c, fun a c => execCompound_keeps (hleaf a) n c,
      fun _ => h.walkStep ih (h.runShell ih _), fun _ => h.walkStep ih (h.runShell ih _)⟩

/-- Every run of every tree keeps it. -/
theorem runTree
    (hbuiltins : ∀ n d, (Libbash.reentry host n d).Keep R →
      ∀ name exec, (Shell.builtins host).lookup name = some exec →
        ∀ args, Keeps R (Libbash.runShell host n d (exec args))) (n d : Nat) (cur : AstId)
    (F : Focus shell) : Keeps R (Libbash.runTree host n d cur F) :=
  have hre := h.reentry hbuiltins n d
  runTree_keeps (h.leafSem hre (hbuiltins n d hre) cur) F

end StepRelation

end Libbash
