import Libbash.Interp.Runs

/-!
# Runs with calls of `inherit`

A call of `inherit` sources its eclasses, which are commands like any others and call it again.
`InheritRun` takes a run apart at these calls: what `inherit` itself does is a run of the parts
of its `exec`, and of everything else only the steps of the store are left. The happenings of a
run are what the theorems about the variables of `inherit` speak of. Every run of a command tree
and every call can be taken apart in this way (`runTree_inherits`, `inheritBuiltin_inherits`).
-/

namespace Libbash

open Lib Lib.Comp Lib.Program

/-! ## The parts of `exec` -/

namespace Shell

/-- Up to the loop over the eclasses: the value of `PECLASS`. -/
def enterInherit : Shell String := do
  let depth ← resolveLong "ECLASS_DEPTH" 0
  perform (.setValue "ECLASS_DEPTH" (.num (depth + 1)) 0)
  let peclass ← resolveString "ECLASS" 0
  let _ ← resolveString "__export_funcs_var" 0
  pure peclass

/-- Up to `source`: the values of the variables that are backed up. -/
def enterEclass (eclass : String) : Shell (List String) := do
  perform (.setValue "ECLASS" (.str eclass) 0)
  let depth ← resolveString "ECLASS_DEPTH" 0
  perform (.define exportFuncsVar (.scalar (.str ("__export_functions_" ++ depth)) 0) false)
  unsetExported
  backupGlobals inheritedGlobals

/-- The calls of `append_global` and `restore_global`. -/
def collectGlobals (backup : List String) : Shell Unit := do
  appendGlobals inheritedGlobals
  restoreGlobals (inheritedGlobals.zip backup)

/-- After the functions have been exported. -/
def recordEclass (eclass : String) : Shell Unit := do
  unsetExported
  if ← hasq eclass "INHERITED" then pure ()
  else do
    let inherited ← resolveString "INHERITED" 0
    perform (.setValue "INHERITED" (.str (inherited ++ " " ++ eclass)) 0)

/-- After the loop. -/
def leaveInherit (peclass : String) : Shell Int := do
  let depth ← resolveLong "ECLASS_DEPTH" 0
  perform (.setValue "ECLASS_DEPTH" (.num (depth - 1)) 0)
  let depth ← resolveLong "ECLASS_DEPTH" 0
  if 0 < depth then do
    perform (.setValue "ECLASS" (.str peclass) 0)
    pure 0
  else do
    perform (.unset "ECLASS")
    perform (.unset "__export_funcs_var")
    pure 0

end Shell

section Parts

variable {host : Host} {n d : Nat}

theorem run_inheritBuiltin (eclasses : List String) :
    runShell host n d (Shell.inheritBuiltin host eclasses) =
      runShell host n d Shell.enterInherit >>= fun peclass =>
        runShell host n d (Shell.inheritEclasses (Shell.eclassDirectory host) eclasses) >>= fun _ =>
          runShell host n d (Shell.leaveInherit peclass) := by
  unfold Shell.inheritBuiltin Shell.enterInherit Shell.leaveInherit
  simp only [runShell_bind, runShell_pure, bind_assoc, pure_bind]

theorem run_inheritEclass (eclassdir eclass : String) :
    runShell host n d (Shell.inheritEclass eclassdir eclass) =
      runShell host n d (Shell.enterEclass eclass) >>= fun backup =>
        runShell host n d (Shell.sourceBuiltin [eclassdir ++ eclass ++ ".eclass"]) >>= fun _ =>
          runShell host n d (Shell.collectGlobals backup) >>= fun _ =>
            runShell host n d Shell.exportFunctions >>= fun _ =>
              runShell host n d (Shell.recordEclass eclass) := by
  unfold Shell.inheritEclass Shell.enterEclass Shell.collectGlobals Shell.recordEclass
  simp only [runShell_bind, bind_assoc]

end Parts

/-! ## Happenings -/

/-- What happens in a run, as far as `inherit` is concerned. -/
inductive Happening where
  /-- Something other than `inherit` writes a variable, at a level; while functions are exported
  or at another time. -/
  | wrote (exporting : Bool) (name : String) (level : Nat)
  /-- The commands of an eclass have come to their end. -/
  | ended (eclass : String) (atEnd : Interpreter)
  /-- `inherit` is done with an eclass. -/
  | completed (eclass : String)
  /-- A call of `inherit` has returned. -/
  | returned (eclasses : List String) (before after : Interpreter)
  /-- A call of `inherit` has raised an error. -/
  | raised

/-- The same, while functions are exported. -/
def Happening.exported : Happening → Happening
  | wrote _ name level => wrote true name level
  | happening => happening

/-- What a part of a run is a part of: commands, one call of `inherit`, or the rest of the loop
over its eclasses. -/
inductive Stage where
  | commands
  | call (eclasses : List String)
  | eclasses (rest : List String)

/-- A part of a run, with what happens in it. -/
inductive InheritRun (host : Host) : Stage → List Happening → Interpreter → Interpreter → Prop where
  | refl (s : Interpreter) : InheritRun host .commands [] s s
  | trans {l l' : List Happening} {s s₁ s' : Interpreter} (h : InheritRun host .commands l s s₁)
      (h' : InheritRun host .commands l' s₁ s') : InheritRun host .commands (l ++ l') s s'
  | sameStore {s s' : Interpreter} (h : s'.store = s.store) : InheritRun host .commands [] s s'
  | wrote {how : Write} {name : String} {level : Nat} {s s' : Interpreter}
      (h : StoreStep how name level s.store s'.store) :
      InheritRun host .commands [.wrote false name level] s s'
  | scope {l : List Happening} {s s' : Interpreter}
      (h : InheritRun host .commands l (acquire .localScope s) s') :
      InheritRun host .commands l s (release .localScope s s')
  | called {eclasses : List String} {l : List Happening} {s s' : Interpreter}
      (h : InheritRun host (.call eclasses) l s s') :
      InheritRun host .commands (l ++ [.returned eclasses s s']) s s'
  | raised {n d : Nat} {eclasses : List String} {e : Exn} {s s' : Interpreter}
      (h : runShell host n d (Shell.inheritBuiltin host eclasses) s = some (.error e, s')) :
      InheritRun host .commands [.raised] s s'
  | call {n d : Nat} {eclasses : List String} {peclass : String} {status : Int}
      {l : List Happening} {s s₁ s₂ s' : Interpreter}
      (henter : runShell host n d Shell.enterInherit s = some (.ok peclass, s₁))
      (h : InheritRun host (.eclasses eclasses) l s₁ s₂)
      (hleave : runShell host n d (Shell.leaveInherit peclass) s₂ = some (.ok status, s')) :
      InheritRun host (.call eclasses) l s s'
  | done (s : Interpreter) : InheritRun host (.eclasses []) [] s s
  | eclass {n d : Nat} {eclass : String} {rest backup : List String} {status : Int}
      {l l' l'' : List Happening} {s s₁ s₂ s₃ s₄ s₅ s' : Interpreter}
      (henter : runShell host n d (Shell.enterEclass eclass) s = some (.ok backup, s₁))
      (hsource : runShell host n d
        (Shell.sourceBuiltin [Shell.eclassDirectory host ++ eclass ++ ".eclass"]) s₁ =
          some (.ok status, s₂))
      (h : InheritRun host .commands l s₁ s₂)
      (hcollect : runShell host n d (Shell.collectGlobals backup) s₂ = some (.ok (), s₃))
      (hexport : InheritRun host .commands l' s₃ s₄)
      (hrecord : runShell host n d (Shell.recordEclass eclass) s₄ = some (.ok (), s₅))
      (hrest : InheritRun host (.eclasses rest) l'' s₅ s') :
      InheritRun host (.eclasses (eclass :: rest))
        (l ++ .ended eclass s₂ :: (l'.map Happening.exported ++ .completed eclass :: l'')) s s'

/-! ## Every run -/

/-- The run can be taken apart. -/
def Inherits (host : Host) (s s' : Interpreter) : Prop := ∃ l, InheritRun host .commands l s s'

section Runs

variable {host : Host} {n d : Nat} {s s' : Interpreter}

theorem stepRelation_inherits (host : Host) : StepRelation (Inherits host) where
  refl s := ⟨[], .refl s⟩
  trans := by
    rintro s s₁ s' ⟨l, h⟩ ⟨l', h'⟩
    exact ⟨l ++ l', .trans h h'⟩
  sameStore h := ⟨[], .sameStore h⟩
  wrote h := ⟨_, .wrote h⟩
  scope := by
    rintro s s' ⟨l, h⟩
    exact ⟨l, .scope h⟩

section Call

variable (hre : (reentry host n d).Keep (Inherits host))

include hre

/-- The loop over the eclasses, when it comes to its end. -/
theorem inheritEclasses_inherits {eclasses : List String}
    (hrun : runShell host n d (Shell.inheritEclasses (Shell.eclassDirectory host) eclasses) s =
      some (.ok (), s')) : ∃ l, InheritRun host (.eclasses eclasses) l s s' := by
  induction eclasses generalizing s with
  | nil =>
    cases hrun
    exact ⟨[], .done _⟩
  | cons eclass rest ih =>
    rw [Shell.inheritEclasses, runShell_bind, run_inheritEclass] at hrun
    obtain ⟨⟨⟩, s₅, hfirst, hrest⟩ := bind_ok hrun
    obtain ⟨backup, s₁, henter, hfirst⟩ := bind_ok hfirst
    obtain ⟨status, s₂, hsource, hfirst⟩ := bind_ok hfirst
    obtain ⟨⟨⟩, s₃, hcollect, hfirst⟩ := bind_ok hfirst
    obtain ⟨⟨⟩, s₄, hexport, hrecord⟩ := bind_ok hfirst
    -- The commands of the eclass, and those that export functions, are taken apart below it.
    obtain ⟨l, hl⟩ := (stepRelation_inherits host).runShell hre _ _ _ _ hsource
    obtain ⟨l', hl'⟩ := (stepRelation_inherits host).runShell hre _ _ _ _ hexport
    obtain ⟨l'', hl''⟩ := ih hrest
    exact ⟨_, .eclass henter hsource hl hcollect hl' hrecord hl''⟩

/-- A call that returns. -/
theorem inheritBuiltin_call {eclasses : List String} {status : Int}
    (hrun : runShell host n d (Shell.inheritBuiltin host eclasses) s = some (.ok status, s')) :
    ∃ l, InheritRun host (.call eclasses) l s s' := by
  rw [run_inheritBuiltin] at hrun
  obtain ⟨peclass, s₁, henter, hrun⟩ := bind_ok hrun
  obtain ⟨⟨⟩, s₂, hloop, hleave⟩ := bind_ok hrun
  obtain ⟨l, hl⟩ := inheritEclasses_inherits hre hloop
  exact ⟨l, .call henter hl hleave⟩

theorem builtins_inherits {name : String} {exec : List String → Shell Int}
    (h : (Shell.builtins host).lookup name = some exec) (args : List String) :
    Keeps (Inherits host) (runShell host n d (exec args)) := by
  by_cases hname : name = "inherit"
  · subst hname
    obtain rfl : Shell.inheritBuiltin host = exec := Option.some.inj h
    intro s r s' hrun
    cases r with
    | ok status =>
      obtain ⟨l, hl⟩ := inheritBuiltin_call hre hrun
      exact ⟨_, .called hl⟩
    | error e => exact ⟨_, .raised hrun⟩
  · exact (stepRelation_inherits host).runShell hre _

end Call

theorem reentry_inherits (host : Host) (n d : Nat) : (reentry host n d).Keep (Inherits host) :=
  (stepRelation_inherits host).reentry
    (fun _ _ hre _ _ hlookup args => builtins_inherits hre hlookup args) n d

/-- Every run of a command tree, however it ends. -/
theorem runTree_inherits (host : Host) (n d : Nat) (cur : AstId) (F : Focus shell) :
    Keeps (Inherits host) (runTree host n d cur F) :=
  (stepRelation_inherits host).runTree
    (fun _ _ hre _ _ hlookup args => builtins_inherits hre hlookup args) n d cur F

/-- Every call that returns. -/
theorem inheritBuiltin_inherits {eclasses : List String} {status : Int}
    (h : runShell host n d (Shell.inheritBuiltin host eclasses) s = some (.ok status, s')) :
    ∃ l, InheritRun host (.call eclasses) l s s' :=
  inheritBuiltin_call (reentry_inherits host n d) h

end Runs

end Libbash
