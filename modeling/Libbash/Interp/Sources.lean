import Libbash.Lib.Nesting
import Libbash.Interp.Reading
import Libbash.Interp.Runs
import Libbash.Interp.ScriptNames

/-!
# The name of the script

`source` saves `$0`, defines it as the path of the script that it runs, and defines it again
when the script has ended or returned. This is a value that is saved by hand: nothing is
written back when the script is left by `break`, by `continue` or by an error. Every run of
the interpreter is a run of the machine of `Lib.Cell` for the binding of `$0`
(`runTree_reaches`), so that `restoresScriptName_iff` says what `$0` is in it.
-/

namespace Libbash

open Lib Lib.Comp Lib.Program

/-! ## The binding of `$0` -/

/-- The value of `$0` as `source` resolves it. -/
def Interpreter.scriptName (s : Interpreter) : String := (s.store.parameter "0" 0).getD ""

/-- The definition that `source` makes. -/
def scriptVariable (path : String) : Variable := .new "0" (.scalar (.str path) 0) true

/-- `$0` is the path of a script, and no local variable hides it. -/
structure Interpreter.RunsScript (path : String) (s : Interpreter) : Prop where
  isGlobal : s.store.IsGlobal "0"
  bound : s.store.valueAt "0" 0 = some (scriptVariable path)

/-- Steps without a definition of `$0`, but for an assignment when it is not set. -/
inductive SparesScriptName : Interpreter → Interpreter → Prop where
  | sameStore {s s' : Interpreter} (h : s'.store = s.store) : SparesScriptName s s'
  | pushFrame {s s' : Interpreter}
      (h : s'.store = { s.store with localMembers := ∅ :: s.store.localMembers }) :
      SparesScriptName s s'
  | popFrame {s s' : Interpreter}
      (h : s'.store = { s.store with localMembers := s.store.localMembers.tail }) :
      SparesScriptName s s'
  | wrote {how : Write} {name : String} {level : Nat} {s s' : Interpreter}
      (h : StoreStep how name level s.store s'.store) (hname : name ≠ "0") : SparesScriptName s s'
  | assigned {how : Write} {s s' : Interpreter}
      (h : StoreStep how "0" (s.store.level "0") s.store s'.store)
      (hhow : how = .define → s.store.resolveVariable "0" = none) : SparesScriptName s s'

/-- The step that `source` makes. -/
def DefinesScriptName (path : String) (s s' : Interpreter) : Prop :=
  s'.store = { s.store with members := s.store.members.insert "0" (scriptVariable path) }

section Binding

variable {path : String} {s s' : Interpreter}

theorem level_scriptName (h : s.store.IsGlobal "0") : s.store.level "0" = 0 :=
  (isGlobal_iff_level rfl).mp h

theorem resolve_scriptName (h : s.store.IsGlobal "0") :
    s.store.resolveVariable "0" = s.store.valueAt "0" 0 := by
  rw [resolve_of_nonempty rfl, ← Bindings.valueAt_level, ← level_of_nonempty rfl,
    level_scriptName h]

theorem scriptName_of_runsScript (h : s.RunsScript path) : s.scriptName = path := by
  have hresolve : s.store.resolveVariable "0" = some (scriptVariable path) := by
    rw [resolve_scriptName h.isGlobal, h.bound]
  have hvalue : (scriptVariable path).value[(0 : UInt32)]? = some (.str path) :=
    Std.ExtTreeMap.getElem?_insert_self
  unfold Interpreter.scriptName
  rw [parameter_of_resolve hresolve, hvalue]
  rfl

theorem SparesScriptName.isGlobal (h : SparesScriptName s s') (hs : s.store.IsGlobal "0") :
    s'.store.IsGlobal "0" := by
  cases h with
  | sameStore h => rwa [h]
  | pushFrame h =>
    rw [h]
    exact List.forall_mem_cons.mpr ⟨Std.ExtTreeMap.getElem?_empty, hs⟩
  | popFrame h =>
    rw [h]
    exact fun frame hframe => hs frame (List.mem_of_mem_tail hframe)
  | wrote h hname => exact isGlobal_of_only rfl h.only (fun heq => absurd heq hname) hs
  | assigned h hhow => exact isGlobal_of_only rfl h.only (fun _ => level_scriptName hs) hs

/-- A readonly variable is not assigned. -/
theorem SparesScriptName.runsScript (h : SparesScriptName s s') (hs : s.RunsScript path) :
    s'.RunsScript path := by
  refine ⟨h.isGlobal hs.isGlobal, ?_⟩
  have hvariable := hs.bound
  cases h with
  | sameStore h => rwa [h]
  | pushFrame h =>
    rw [Store.valueAt, valueAt_zero] at hvariable ⊢
    rwa [h]
  | popFrame h =>
    rw [Store.valueAt, valueAt_zero] at hvariable ⊢
    rwa [h]
  | wrote h hname =>
    rw [Store.valueAt, h.only.others "0" 0 (.inl (Ne.symm hname))]
    exact hvariable
  | assigned h hhow =>
    have hlevel := level_scriptName hs.isGlobal
    have hset : s.store.resolveVariable "0" ≠ none := by
      rw [resolve_scriptName hs.isGlobal, hvariable]
      exact Option.some_ne_none _
    have hkept := h.readonly (fun heq => hset (hhow heq)) (scriptVariable path)
    rw [hlevel] at hkept
    exact hkept hvariable rfl

theorem DefinesScriptName.runsScript (h : DefinesScriptName path s s')
    (hs : s.store.IsGlobal "0") : s'.RunsScript path := by
  refine ⟨?_, ?_⟩
  · rw [h]
    exact hs
  · rw [Store.valueAt, valueAt_zero, h]
    exact Std.ExtTreeMap.getElem?_insert_self

/-- What `source` runs between the definitions of `$0`. -/
def Shell.runSourced (path : String) : Shell Unit :=
  catchReturn do
    let a ← parseCached path
    perform (.interpret a)

/-- `$0`, as a value that is saved by hand. A script is left when its run raises an error that
is not a `return`. -/
def scriptCell (host : Host) : Cell String Interpreter where
  Tidy s := s.store.IsGlobal "0"
  Holds := Interpreter.RunsScript
  read := Interpreter.scriptName
  Quiet := SparesScriptName
  Write := DefinesScriptName
  Ends path s s' := ∃ n d, runShell host n d (Shell.runSourced path) s = some (.ok (), s')
  Left path s s' := ∃ n d e, runShell host n d (Shell.runSourced path) s = some (.error e, s')
  tidy_of_holds h := h.isGlobal
  read_of_holds := scriptName_of_runsScript
  quiet_tidy hs h := h.isGlobal hs
  quiet_holds hs h := h.runsScript hs
  write_holds hs h := h.runsScript hs

end Binding

/-! ## Operations -/

/-- However it ends, the computation is a run of the machine. -/
abbrev Sourcing (host : Host) {α : Type} (m : Comp Exn Interpreter α) : Prop :=
  Keeps (scriptCell host).Reach m

section Operations

variable {host : Host} {α β : Type} {s s' : Interpreter}

theorem reach_of_sameStore (h : s'.store = s.store) : (scriptCell host).Reach s s' :=
  Cell.reach_of_quiet (.sameStore h)

theorem sourcing_pure (a : α) : Sourcing host (pure a) := keeps_pure Cell.Reach.refl a

theorem sourcing_throw (e : Exn) : Sourcing host (throw e : Comp Exn Interpreter α) :=
  keeps_throw Cell.Reach.refl e

theorem sourcing_reads (f : Interpreter → α) : Sourcing host (reads f) :=
  keeps_reads Cell.Reach.refl f

theorem sourcing_update {f : Interpreter → Interpreter} (hf : ∀ s, (f s).store = s.store) :
    Sourcing host (update f) := keeps_update fun s => reach_of_sameStore (hf s)

theorem sourcing_bind {m : Comp Exn Interpreter α} {f : α → Comp Exn Interpreter β}
    (hm : Sourcing host m) (hf : ∀ a, Sourcing host (f a)) : Sourcing host (m >>= f) :=
  keeps_bind (fun h h' => h.trans h') hm hf

theorem reach_of_storeStep {how : Write} {name : String} {level : Nat}
    (h : StoreStep how name level s.store s'.store)
    (hlevel : name = "0" → level = s.store.level "0")
    (hhow : name = "0" → how = .define → s.store.resolveVariable "0" = none) :
    (scriptCell host).Reach s s' := by
  by_cases hname : name = "0"
  · subst hname
    rw [hlevel rfl] at h
    exact Cell.reach_of_quiet (.assigned h (hhow rfl))
  · exact Cell.reach_of_quiet (.wrote h hname)

/-- An operation of the store either succeeds with a step or changes nothing. -/
theorem writing_reach {how : Write} {name : String} {level : Store → Nat} {m : Comp Exn Store α}
    {r : Except Exn α}
    (hok : ∀ a t, m s.store = some (.ok a, t) → StoreStep how name (level s.store) s.store t)
    (herr : ∀ e t, m s.store = some (.error e, t) → t = s.store)
    (hlevel : name = "0" → level s.store = s.store.level "0")
    (hhow : name = "0" → how = .define → s.store.resolveVariable "0" = none)
    (h : writing how name level m s = some (r, s')) : (scriptCell host).Reach s s' := by
  have hstore := writing_store h
  cases r with
  | ok a => exact reach_of_storeStep (hok a _ hstore) hlevel hhow
  | error e => exact reach_of_sameStore (herr e _ hstore)

theorem setHow_define {t : Store} {name : String} (h : setHow t name = .define) :
    t.resolveVariable name = none := by
  unfold setHow at h
  cases hv : t.resolveVariable name with
  | none => rfl
  | some v =>
    rw [hv] at h
    cases h

end Operations

/-! ## Trees of their own -/

/-- The rules that start on a tree of their own are runs of the machine. -/
structure Reentry.Sources (host : Host) (re : Reentry) : Prop where
  list : ∀ a c, Sourcing host (re.list a c)
  compound : ∀ a c, Sourcing host (re.compound a c)
  stringExpr : ∀ w, Sourcing host (re.stringExpr w)
  arithmetics : ∀ e, Sourcing host (re.arithmetics e)

section Reentry

variable {host : Host} {re : Reentry} (hre : re.Sources host) {α : Type}

theorem runRelation_reach : RunRelation (scriptCell host).Reach where
  refl := .refl
  trans h h' := h.trans h'
  sameStore h := reach_of_sameStore h

include hre in
theorem keep_reach : re.Keep (scriptCell host).Reach :=
  ⟨hre.list, hre.compound, hre.stringExpr, hre.arithmetics⟩

include hre in
/-- Every operation but a definition of `$0`. -/
theorem performOp_sourcing {o : Op α} (ho : o.SparesScriptName) :
    Sourcing host (performOp host re o) := by
  refine runRelation_reach.performOp (keep_reach hre) o fun hwrites => ?_
  -- Each of these makes one step of the store; the others leave it as it is.
  cases o with
  | setValue name new index =>
    intro s r s' hrun
    rw [performOp, reads_bind_apply] at hrun
    refine writing_reach (fun _ _ h => storeStep_setValue new index h)
      (fun _ _ h => setValue_error h) (fun hname => ?_) (fun hname hhow => ?_) hrun
    · rw [hname]
    · rw [← hname]
      exact setHow_define hhow
  | define name init readonly =>
    intro s r s' hrun
    rw [performOp] at hrun
    exact writing_reach
      (fun _ _ h => storeStep_define init readonly (fun hstar => absurd hstar name.notPositional) h)
      (fun _ _ h => by cases h) (fun hname => absurd hname ho) (fun hname => absurd hname ho) hrun
  | defineLocal name init readonly =>
    intro s r s' hrun
    rw [performOp] at hrun
    exact writing_reach (fun _ _ h => storeStep_defineLocal init readonly h)
      (fun _ _ h => defineLocal_error h) (fun hname => absurd hname ho)
      (fun hname => absurd hname ho) hrun
  | unset name =>
    intro s r s' hrun
    rw [performOp] at hrun
    refine writing_reach (fun _ _ h => storeStep_unset h) (fun _ _ h => unset_error h)
      (fun hname => ?_) (fun _ hhow => by cases hhow) hrun
    rw [hname]
    exact (level_of_nonempty rfl).symm
  | unsetIndex name index =>
    intro s r s' hrun
    rw [performOp] at hrun
    refine writing_reach (fun _ _ h => storeStep_unsetIndex index h)
      (fun _ _ h => unsetIndex_error h) (fun hname => ?_) (fun _ hhow => by cases hhow) hrun
    rw [hname]
  | shift number =>
    intro s r s' hrun
    rw [performOp] at hrun
    exact writing_reach (fun _ _ h => storeStep_shift number h)
      (fun _ _ h => shiftParameters_error h) (fun hname => absurd hname (by decide))
      (fun hname => absurd hname (by decide)) hrun
  | defineFunctionArguments arguments =>
    intro s r s' hrun
    rw [performOp] at hrun
    exact writing_reach (fun _ _ h => storeStep_defineFunctionArguments arguments h)
      (fun _ _ h => defineFunctionArguments_error h) (fun hname => absurd hname (by decide))
      (fun hname => absurd hname (by decide)) hrun
  | definePositionalArguments arguments =>
    intro s r s' hrun
    rw [performOp] at hrun
    exact writing_reach (fun _ _ h => storeStep_definePositionalArguments arguments h)
      (fun _ _ h => definePositionalArguments_error h) (fun hname => absurd hname (by decide))
      (fun hname => absurd hname (by decide)) hrun
  | _ => exact absurd hwrites not_false

theorem within_reach (br : Bracket) (s s' : Interpreter)
    (h : (scriptCell host).Reach (acquire br s) s') :
    (scriptCell host).Reach s (release br s s') := by
  cases br with
  | localScope =>
    have hpush : (scriptCell host).Reach s (acquire .localScope s) :=
      Cell.reach_of_quiet (.pushFrame rfl)
    exact (hpush.trans h).trans (Cell.reach_of_quiet (.popFrame rfl))
  | captureOutput =>
    have hcapture : (scriptCell host).Reach s (acquire .captureOutput s) := reach_of_sameStore rfl
    exact (hcapture.trans h).trans (reach_of_sameStore rfl)

include hre in
theorem sourcing_of_spares {p : Shell α} (hp : p.Uses Op.SparesScriptName) :
    Sourcing host (Program.run (handler host re) p) :=
  hp.run_keeps Cell.Reach.refl (fun _ _ _ h h' => h.trans h')
    (fun _ ho => performOp_sourcing hre ho) within_reach

end Reentry

/-! ## Rules and builtins -/

section Rules

variable {host : Host} {n d : Nat} (hre : (reentry host n d).Sources host) {α β : Type}

/-- A program of the interpreter, at the bounds at hand. -/
abbrev Shell.Sourcing (host : Host) (n d : Nat) (p : Shell α) : Prop :=
  Libbash.Sourcing host (runShell host n d p)

theorem bind_sourcing {p : Shell α} {k : α → Shell β} (hp : p.Sourcing host n d)
    (hk : ∀ a, (k a).Sourcing host n d) : (p >>= k).Sourcing host n d :=
  sourcing_bind hp hk

include hre in
theorem spares_sourcing {p : Shell α} (hp : p.Uses Op.SparesScriptName) :
    p.Sourcing host n d := sourcing_of_spares hre hp

/-- `nameRule` returns the name that it has been given. -/
theorem nameRule_sourcing (hre : (reentry host n d).Sources host) {k : String × UInt32 → Shell β}
    (hk : ∀ (x : Identifier) (index : UInt32), (k (x.text, index)).Sourcing host n d)
    (name : Name) : (Shell.nameRule host name >>= k).Sourcing host n d := by
  cases name with
  | base x => exact hk x 0
  | element x e =>
    unfold Shell.Sourcing
    simp only [Shell.nameRule, runShell_bind, runShell_pure, bind_assoc, pure_bind]
    refine sourcing_bind (spares_sourcing hre ?_) fun value => ?_
    · exact spares_of_inWords (Shell.arithmetics_inWords host e)
    · refine sourcing_bind (spares_sourcing hre ?_) fun index => hk x index
      exact spares_of_inWords (Shell.setIndex_inWords _ _)

include hre in
theorem varDef_sourcing (isLocal : Bool) (v : VarDef) :
    (Shell.varDef host isLocal v).Sourcing host n d := by
  have hspares {γ : Type} {p : Shell γ} (hp : p.Uses Op.InWords) : p.Sourcing host n d :=
    spares_sourcing hre (spares_of_inWords hp)
  cases v with
  | scalar name w =>
    refine nameRule_sourcing hre (fun x index => ?_) name
    refine bind_sourcing (hspares (Shell.optionalWord_inWords host w)) fun value => ?_
    cases isLocal with
    | true => exact spares_sourcing hre (uses_perform x.ne_scriptName)
    | false => exact spares_sourcing hre (uses_perform trivial)
  | array name elements =>
    refine bind_sourcing (hspares (Shell.arrayDefHelper_inWords host _ elements _ _)) fun _ => ?_
    cases isLocal with
    | true => exact spares_sourcing hre (uses_perform name.ne_scriptName)
    | false => exact spares_sourcing hre (uses_perform name.ne_scriptName)
  | append name elements =>
    refine bind_sourcing (hspares (Shell.appendIndex_inWords _)) fun index => ?_
    refine bind_sourcing (hspares (Shell.arrayDefHelper_inWords host _ elements _ _)) fun _ => ?_
    cases isLocal with
    | true => exact spares_sourcing hre (uses_throw _)
    | false => exact hspares (Shell.setElements_inWords _ _)

include hre in
theorem varDefs_sourcing (isLocal : Bool) (defs : List VarDef) :
    (Shell.varDefs host isLocal defs).Sourcing host n d := by
  induction defs with
  | nil => exact sourcing_pure ()
  | cons v defs ih => exact bind_sourcing (varDef_sourcing hre isLocal v) fun _ => ih

/-! ### `source` -/

theorem defineScriptName {path : String} {s s' : Interpreter} {r : Except Exn Unit}
    (h : runShell host n d (perform (.define Shell.scriptName (.scalar (.str path) 0) true)) s =
      some (r, s')) : r = .ok () ∧ DefinesScriptName path s s' := by
  rw [runShell_perform, performOp] at h
  have hstore := Option.some.inj (writing_store h)
  exact ⟨(congrArg Prod.fst hstore).symm, (congrArg Prod.snd hstore).symm⟩

/-- What `source` saves is the value of `$0`. -/
theorem resolve_originalPath {s s' : Interpreter} {r : Except Exn String}
    (h : runShell host n d (Shell.resolveString "0" 0) s = some (r, s')) :
    s' = s ∧ ∀ path, r = .ok path → path = s.scriptName := by
  rw [run_resolveString] at h
  cases hunbound : s.nounset && !(s.store.parameter "0" 0).isSome with
  | true =>
    rw [hunbound, if_pos rfl] at h
    cases h
    exact ⟨rfl, nofun⟩
  | false =>
    rw [hunbound, if_neg Bool.false_ne_true] at h
    cases h
    exact ⟨rfl, fun path hpath => (Except.ok.inj hpath).symm⟩

include hre in
theorem runSourced_sourcing (path : String) :
    (Shell.runSourced path).Sourcing host n d := by
  refine spares_sourcing hre (Shell.catchReturn_spares ?_)
  exact uses_bind (Shell.parseCached_spares path) fun a => uses_perform trivial

include hre in
/-- A script is finished when it has ended or returned, and is left in every other way. -/
theorem sourceBuiltin_sourcing (args : List String) :
    (Shell.sourceBuiltin args).Sourcing host n d := by
  cases args with
  | nil => exact sourcing_throw _
  | cons path args =>
    intro s r s' hrun
    rcases bind_cases hrun with ⟨originalPath, s₁, hresolve, hrest⟩ | ⟨e, hresolve, -⟩
    · obtain ⟨rfl, hpath⟩ := resolve_originalPath hresolve
      obtain rfl := hpath _ rfl
      rcases bind_cases hrest with ⟨⟨⟩, s₂, hdefine, hrest⟩ | ⟨e, hdefine, -⟩
      · obtain ⟨-, henter⟩ := defineScriptName hdefine
        rcases bind_cases hrest with ⟨⟨⟩, s₃, hbody, hrest⟩ | ⟨e, hbody, -⟩
        · have hreach := runSourced_sourcing hre path _ _ _ hbody
          rcases bind_cases hrest with ⟨⟨⟩, s₄, hrestore, hstatus⟩ | ⟨e, hrestore, -⟩
          · cases hstatus
            exact Cell.reach_of_finished henter hreach ⟨n, d, hbody⟩ (defineScriptName hrestore).2
          · cases (defineScriptName hrestore).1
        · have hreach := runSourced_sourcing hre path _ _ _ hbody
          exact Cell.reach_of_left henter hreach ⟨n, d, e, hbody⟩
      · cases (defineScriptName hdefine).1
    · obtain ⟨rfl, -⟩ := resolve_originalPath hresolve
      exact .refl _

/-! ### `inherit` -/

include hre in
theorem inheritEclass_sourcing (eclassdir eclass : String) :
    (Shell.inheritEclass eclassdir eclass).Sourcing host n d := by
  have hspares {γ : Type} {p : Shell γ} (hp : p.Uses Op.SparesScriptName) :
      p.Sourcing host n d := spares_sourcing hre hp
  refine bind_sourcing (hspares (uses_perform trivial)) fun _ => ?_
  refine bind_sourcing (hspares (Shell.resolveString_spares _ _)) fun depth => ?_
  refine bind_sourcing (hspares (uses_perform ?_)) fun _ => ?_
  · show "__export_funcs_var" ≠ "0"
    decide
  refine bind_sourcing (hspares Shell.unsetExported_spares) fun _ => ?_
  refine bind_sourcing (hspares (Shell.backupGlobals_spares _)) fun backup => ?_
  refine bind_sourcing (sourceBuiltin_sourcing hre _) fun _ => ?_
  refine bind_sourcing (hspares (Shell.appendGlobals_spares _)) fun _ => ?_
  refine bind_sourcing (hspares (Shell.restoreGlobals_spares _)) fun _ => ?_
  refine bind_sourcing (hspares Shell.exportFunctions_spares) fun _ => ?_
  refine bind_sourcing (hspares Shell.unsetExported_spares) fun _ => ?_
  refine hspares (uses_bind (Shell.hasq_spares _ _) fun _ => uses_ite (uses_pure _) ?_)
  exact uses_bind (Shell.resolveString_spares _ _) fun _ => uses_perform trivial

include hre in
theorem inheritEclasses_sourcing (eclassdir : String) (eclasses : List String) :
    (Shell.inheritEclasses eclassdir eclasses).Sourcing host n d := by
  induction eclasses with
  | nil => exact sourcing_pure ()
  | cons eclass eclasses ih =>
    exact bind_sourcing (inheritEclass_sourcing hre eclassdir eclass) fun _ => ih

include hre in
theorem inheritBuiltin_sourcing (args : List String) :
    (Shell.inheritBuiltin host args).Sourcing host n d := by
  have hspares {γ : Type} {p : Shell γ} (hp : p.Uses Op.SparesScriptName) :
      p.Sourcing host n d := spares_sourcing hre hp
  have hlong : ∀ name, (Shell.resolveLong name 0).Sourcing host n d := fun name =>
    hspares (spares_of_inWords (Shell.resolveLong_inWords name 0))
  refine bind_sourcing (hlong _) fun depth => ?_
  refine bind_sourcing (hspares (uses_perform trivial)) fun _ => ?_
  refine bind_sourcing (hspares (Shell.resolveString_spares _ _)) fun peclass => ?_
  refine bind_sourcing (hspares (Shell.resolveString_spares _ _)) fun _ => ?_
  refine bind_sourcing (inheritEclasses_sourcing hre _ args) fun _ => ?_
  refine bind_sourcing (hlong _) fun depth => ?_
  refine bind_sourcing (hspares (uses_perform trivial)) fun _ => ?_
  refine bind_sourcing (hlong _) fun depth => hspares (uses_ite ?_ ?_)
  · exact uses_bind (uses_perform trivial) fun _ => uses_pure _
  · refine uses_bind (uses_perform trivial) fun _ => ?_
    exact uses_bind (uses_perform trivial) fun _ => uses_pure _

/-! ### Commands -/

include hre in
/-- Every builtin. -/
theorem builtins_sourcing {name : String} {exec : List String → Shell Int}
    (h : (Shell.builtins host).lookup name = some exec) (args : List String) :
    (exec args).Sourcing host n d := by
  have hspares {p : Shell Int} (hp : p.Uses Op.SparesScriptName) : p.Sourcing host n d :=
    spares_sourcing hre hp
  have hall : ∀ entry ∈ Shell.builtins host, (entry.2 args).Sourcing host n d := by
    unfold Shell.builtins
    simp only [List.forall_mem_cons]
    exact ⟨hspares (Shell.loopControlBuiltin_spares _ _ _ _),
      hspares (Shell.loopControlBuiltin_spares _ _ _ _), hspares (Shell.echoBuiltin_spares _),
      hspares (Shell.evalBuiltin_spares _), hspares (Shell.exportBuiltin_spares _),
      hspares (Shell.localBuiltin_spares _), hspares (Shell.declareBuiltin_spares _),
      sourceBuiltin_sourcing hre _, hspares (Shell.shiftBuiltin_spares _),
      hspares (Shell.shoptBuiltin_spares _), inheritBuiltin_sourcing hre _,
      hspares (uses_pure _), hspares (uses_pure _), hspares (uses_pure _),
      hspares (Shell.returnBuiltin_spares _), hspares (Shell.printfBuiltin_spares _ _),
      hspares (Shell.letBuiltin_spares _), hspares (Shell.unsetBuiltin_spares _),
      hspares (Shell.readBuiltin_spares _), hspares (Shell.setBuiltin_spares _),
      List.forall_mem_nil _⟩
  obtain ⟨before, after, htable, -⟩ := List.lookup_eq_some_iff.mp h
  exact hall (name, exec) (htable ▸ List.mem_append_right _ List.mem_cons_self)

include hre in
theorem dispatch_sourcing (name : String) (args : List String) :
    (Shell.dispatch host name args).Sourcing host n d := by
  refine bind_sourcing (spares_sourcing hre (uses_perform trivial)) fun isFunction => ?_
  cases isFunction with
  | true => exact spares_sourcing hre (Shell.catchReturn_spares (Shell.call_spares name args))
  | false =>
    show (Shell.executeBuiltin host name args).Sourcing host n d
    unfold Shell.executeBuiltin
    split
    · rename_i exec hexec
      refine bind_sourcing (builtins_sourcing hre hexec args) fun status => ?_
      exact spares_sourcing hre (uses_perform trivial)
    · exact spares_sourcing hre (uses_bind (uses_perform trivial) fun _ => uses_throw _)

include hre in
theorem executeCommand_sourcing (name : String) (args : List String) (defs : List VarDef)
    (bang : Bool) : (Shell.executeCommand host name args defs bang).Sourcing host n d := by
  have hbody : Shell.Sourcing host n d (do
      Shell.varDefs host true defs
      Shell.dispatch host (if name.isEmpty then ":" else name) args
      Shell.negateStatus bang) := by
    refine bind_sourcing (varDefs_sourcing hre true defs) fun _ => ?_
    refine bind_sourcing (dispatch_sourcing hre _ args) fun _ => ?_
    exact spares_sourcing hre (Shell.negateStatus_spares bang)
  unfold Shell.executeCommand Shell.inScope
  by_cases hexempt : Shell.isExempt name = true
  · rw [if_pos hexempt]
    exact hbody
  · rw [if_neg hexempt]
    intro s r s' hrun
    obtain ⟨s₁, hin, rfl⟩ := within_cases hrun
    exact within_reach .localScope s s₁ (hbody _ _ _ hin)

include hre in
theorem simpleCommand_sourcing (name : Word) (args : List Word) (defs : List VarDef)
    (bang : Bool) : (Shell.simpleCommand host name args defs bang).Sourcing host n d := by
  refine bind_sourcing (spares_sourcing hre (Shell.stringExpr_spares name)) fun v => ?_
  refine bind_sourcing (spares_sourcing hre (Shell.arguments_spares _ _ args)) fun values => ?_
  exact executeCommand_sourcing hre _ _ _ _

/-! ## Command trees -/

include hre in
theorem walkStep_sourcing {p : Shell α} (hp : p.Sourcing host n d) :
    Sourcing host (walkStep host (reentry host n d) p) :=
  sourcing_bind (spares_sourcing hre (uses_perform trivial)) fun _ => hp

include hre in
theorem walkStep_spares {p : Shell α} (hp : p.Uses Op.SparesScriptName) :
    Sourcing host (walkStep host (reentry host n d) p) :=
  walkStep_sourcing hre (spares_sourcing hre hp)

theorem defineFunction_sourcing (name : String) (index : Nat) (cur : AstId) :
    Sourcing host (defineFunction name index cur) := by
  unfold defineFunction
  split_ifs
  · exact sourcing_throw _
  · refine sourcing_bind (sourcing_reads id) fun s => ?_
    split
    · exact sourcing_throw _
    · exact sourcing_update fun _ => rfl

include hre in
theorem simpleAtom_sourcing (cur : AstId) (c : SimpleCommand) :
    Sourcing host (simpleAtom host (reentry host n d) cur c) := by
  cases c with
  | variableDefinitions isLocal defs =>
    exact walkStep_sourcing hre (varDefs_sourcing hre isLocal defs)
  | functionDefinition name index =>
    exact sourcing_bind (walkStep_spares hre (uses_pure ())) fun _ => defineFunction_sourcing _ _ _
  | simple name args defs bang =>
    exact walkStep_sourcing hre (simpleCommand_sourcing hre name args defs bang)

include hre in
theorem leafSem_sourcing (cur : AstId) :
    (leafSem host (reentry host n d) cur).Respects (scriptCell host).Reach
      (scriptCell host).Reach where
  refl := .refl
  trans _ _ _ h h' := h.trans h'
  weaken _ _ h := h
  transWeak _ _ _ h h' := h.trans h'
  restore _ _ h := h.trans (reach_of_sameStore rfl)
  setStatus _ _ := reach_of_sameStore rfl
  redirect _ :=
    sourcing_bind (walkStep_spares hre (Shell.redirect_spares _)) fun redirected =>
      sourcing_update fun _ => by cases redirected <;> rfl
  simple c := simpleAtom_sourcing hre cur c
  cond c := walkStep_spares hre (Shell.condExpr_spares c)
  arith e := walkStep_spares hre (spares_of_inWords (Shell.arithmetics_inWords host e))
  forWord w := walkStep_spares hre (spares_of_inWords (Shell.forWord_inWords host w))
  positional := walkStep_spares hre Shell.positional_spares
  setValue _ _ := walkStep_spares hre (uses_perform trivial)
  caseWord w := walkStep_spares hre (spares_of_inWords (Shell.caseWord_inWords host w))
  matchPattern p target :=
    walkStep_spares hre (spares_of_inWords (Shell.matchPattern_inWords host p target))

end Rules

theorem reentry_sources (host : Host) (n d : Nat) : (reentry host n d).Sources host := by
  induction d with
  | zero => exact ⟨fun _ _ => keeps_diverge, fun _ _ => keeps_diverge, fun _ => keeps_diverge,
      fun _ => keeps_diverge⟩
  | succ d ih =>
    exact ⟨fun a c => execList_keeps (leafSem_sourcing ih a) n c,
      fun a c => execCompound_keeps (leafSem_sourcing ih a) n c,
      fun w => walkStep_spares ih (spares_of_inWords (Shell.caseWord_inWords host w)),
      fun e => walkStep_spares ih (spares_of_inWords (Shell.arithmetics_inWords host e))⟩

theorem runTree_sourcing (host : Host) (n d : Nat) (cur : AstId) (F : Focus shell) :
    Sourcing host (runTree host n d cur F) :=
  runTree_keeps (leafSem_sourcing (reentry_sources host n d) cur) F

/-! ## What `$0` is in a run -/

/-- The moments of a run after the first one: the scripts that are being sourced, the
innermost first, and the interpreter. -/
structure SourceRun (host : Host) (s s' : Interpreter) (run : List (Scoped String Interpreter)) :
    Prop where
  steps : (([], s) :: run).IsChain ((scriptCell host).Step fun _ => True)
  last : (([], s) :: run).getLast (List.cons_ne_nil _ _) = ([], s')

/-- While a script is sourced `$0` is its path, outside of all of them it is the path of the
script that has been running, and after each of them it is what it was before, also where
nothing survives the error that has left it and the run ends there. -/
def RestoresScriptName (host : Host) (running : Option String) (s : Interpreter)
    (run : List (Scoped String Interpreter)) : Prop :=
  (scriptCell host).Restores running (([], s) :: run)

/-- A script that is left by an error has the path that `$0` was before. -/
def LeavesOwnName (host : Host) (s : Interpreter) (run : List (Scoped String Interpreter)) :
    Prop :=
  (([], s) :: run).IsChain ((scriptCell host).Step fun script => script.value = script.saved)

/-- An interpreter that runs the script `a`. -/
def runningA : Interpreter :=
  { Interpreter.initial [] with
    store := { members := initialMembers.insert "0" (scriptVariable "a"), localMembers := [] } }

theorem runningA_runsScript : runningA.RunsScript "a" := by
  refine ⟨List.forall_mem_nil _, ?_⟩
  rw [Store.valueAt, valueAt_zero]
  exact Std.ExtTreeMap.getElem?_insert_self

/-- A host with a script `b` that is one command. -/
def Host.ofCommand (c : SimpleCommand) : Host :=
  .ofTexts [((.start, readScript true "b"), .script (.ofSimple c []) [])] [("b", "b")]

/-- `for i in 1; do source b; done` -/
def sourcingLoop : Focus shell :=
  .compound (.forEach "i" [.literal "1"] (.ofSimple (.literals "source" ["b"]) []))

/-- In every run `$0` is right throughout just when the scripts that are left by an error have
the path that `$0` was before: a script that has ended or returned does no harm. -/
theorem restoresScriptName_iff {host : Host} {n d : Nat} {cur : AstId} {F : Focus shell}
    {s s' : Interpreter} {r : Except Exn Unit} {running : Option String}
    (hglobal : s.store.IsGlobal "0") (hrunning : ∀ path ∈ running, s.RunsScript path)
    (h : runTree host n d cur F s = some (r, s')) :
    s'.store.IsGlobal "0" ∧ (∃ run, SourceRun host s s' run) ∧
      ∀ run, SourceRun host s s' run →
        (RestoresScriptName host running s run ↔ LeavesOwnName host s run) := by
  have hreach := runTree_sourcing host n d cur F s r s' h
  obtain ⟨run, hsteps, hlast⟩ := hreach.exists_run []
  have hsettled : (scriptCell host).Settled running ([], s) := ⟨hglobal, hrunning, trivial⟩
  refine ⟨hreach.tidy hglobal, ⟨run, hsteps, hlast⟩, fun run hrun => ?_⟩
  exact Cell.restores_iff hrun.steps hsettled

theorem restoresScriptName_iff_return :
    ∃ r s', runTree (.ofCommand (.literals "return" [])) 2 3 0 sourcingLoop runningA =
        some (r, s') ∧ s'.store.IsGlobal "0" ∧
      (∃ run, SourceRun (.ofCommand (.literals "return" [])) runningA s' run) ∧
      ∀ run, SourceRun (.ofCommand (.literals "return" [])) runningA s' run →
        (RestoresScriptName (.ofCommand (.literals "return" [])) (some "a") runningA run ↔
          LeavesOwnName (.ofCommand (.literals "return" [])) runningA run) := by
  have hends : (runTree (.ofCommand (.literals "return" [])) 2 3 0 sourcingLoop runningA).isSome =
      true := by decide +kernel
  obtain ⟨⟨r, s'⟩, hrun⟩ := Option.isSome_iff_exists.mp hends
  refine ⟨r, s', hrun, ?_⟩
  refine restoresScriptName_iff runningA_runsScript.isGlobal (fun path hpath => ?_) hrun
  cases hpath
  exact runningA_runsScript

/-- The script leaves the loop around its `source`, and `$0` is its path ever after. -/
theorem not_restoresScriptName_break :
    ∃ s' run, runTree (.ofCommand (.literals "break" [])) 2 3 0 sourcingLoop runningA =
        some (.ok (), s') ∧
      SourceRun (.ofCommand (.literals "break" [])) runningA s' run ∧
      ¬RestoresScriptName (.ofCommand (.literals "break" [])) (some "a") runningA run := by
  let out := runTree (.ofCommand (.literals "break" [])) 2 3 0 sourcingLoop runningA
  have hcode : out.map (fun out => (out.1.toOption, out.2.scriptName)) = some (some (), "b") := by
    decide +kernel
  obtain ⟨⟨r, s'⟩, hrun, hvalue⟩ := Option.map_eq_some_iff.mp hcode
  obtain ⟨hok, hname⟩ := Prod.ext_iff.mp hvalue
  have hr : r = .ok () := by
    cases r with
    | ok u => rfl
    | error e => cases hok
  subst hr
  obtain ⟨run, hsteps, hlast⟩ := (runTree_sourcing _ _ _ _ _ _ _ _ hrun).exists_run []
  refine ⟨s', run, hrun, ⟨hsteps, hlast⟩, fun h => ?_⟩
  have hmem := List.getLast_mem (List.cons_ne_nil (([], runningA) : Scoped String Interpreter) run)
  rw [hlast] at hmem
  have hrestored : s'.scriptName = "a" := h.running _ hmem "a" rfl
  exact absurd (hrestored.symm.trans hname) (by decide)

end Libbash
