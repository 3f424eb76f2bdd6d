import Libbash.Interp.Inherit

/-!
# Runs that are replayed

`InheritRun` says that a run can be taken apart. An `Outline` names the writes of the commands and
the calls of `inherit` in one, and `Outline.follow` computes from it what happens: it runs the
parts of `inherit`, and compares what the outline of an eclass leaves in the store with what
sourcing the eclass leaves there. An outline that can be followed is a run (`inheritRun_of_follow`).
-/

namespace Libbash

open Lib Lib.Comp Lib.Program

/-- What is done in a part of a run: variables are set or defined, `inherit` is called, and, in
its loop, one eclass is read with its commands and those that export functions. -/
inductive Outline where
  | done
  | set (name : String) (new : Value) (rest : Outline)
  | define (name : String) (init : Initial) (readonly : Bool) (rest : Outline)
  | call (eclasses : List String) (loop rest : Outline)
  | eclass (commands exported rest : Outline)

section Follow

variable {σ α : Type} {host : Host} {n d : Nat}

/-- The value and the state, when a computation ends without an error. -/
def okOf : Option (Except Exn α × σ) → Option (α × σ)
  | some (.ok a, s) => some (a, s)
  | _ => none

theorem eq_of_okOf {out : Option (Except Exn α × σ)} {a : α} {s : σ}
    (h : okOf out = some (a, s)) : out = some (.ok a, s) := by
  unfold okOf at h
  split at h
  · cases h
    rfl
  · cases h

/-- A call of `inherit` whose loop over the eclasses is given. -/
def callWith (host : Host) (n d : Nat)
    (loop : Interpreter → Option (List Happening × Interpreter)) (s : Interpreter) :
    Option (List Happening × Interpreter) := do
  let (peclass, s₁) ← okOf (runShell host n d Shell.enterInherit s)
  let (l, s₂) ← loop s₁
  let (_, s') ← okOf (runShell host n d (Shell.leaveInherit peclass) s₂)
  some (l, s')

/-- What happens in the part, and the state after it; `none` when the outline does not fit. -/
def Outline.follow (host : Host) (n d : Nat) :
    Outline → Stage → Interpreter → Option (List Happening × Interpreter)
  | .done, .commands, s => some ([], s)
  | .done, .eclasses [], s => some ([], s)
  | .set name new rest, .commands, s => do
    let (_, t) ← okOf (setValue name new 0 s.store)
    let (l, s') ← rest.follow host n d .commands { s with store := t }
    some (.wrote false name (s.store.level name) :: l, s')
  | .define name init readonly rest, .commands, s => do
    guard (name ≠ "*")
    let (_, t) ← okOf (Libbash.define name init readonly s.store)
    let (l, s') ← rest.follow host n d .commands { s with store := t }
    some (.wrote false name 0 :: l, s')
  | .call eclasses loop rest, .commands, s => do
    let (l, s₁) ← callWith host n d (loop.follow host n d (.eclasses eclasses)) s
    let (l', s') ← rest.follow host n d .commands s₁
    some (l ++ .returned eclasses s s₁ :: l', s')
  | .eclass commands exported rest, .eclasses (name :: names), s => do
    let path := Shell.eclassDirectory host ++ name ++ ".eclass"
    let (backup, s₁) ← okOf (runShell host n d (Shell.enterEclass name) s)
    let (_, s₂) ← okOf (runShell host n d (Shell.sourceBuiltin [path]) s₁)
    let (l, atEnd) ← commands.follow host n d .commands s₁
    guard (atEnd.store = s₂.store)
    let (_, s₃) ← okOf (runShell host n d (Shell.collectGlobals backup) s₂)
    let (_, s₄) ← okOf (runShell host n d Shell.exportFunctions s₃)
    let (l', atEnd') ← exported.follow host n d .commands s₃
    guard (atEnd'.store = s₄.store)
    let (_, s₅) ← okOf (runShell host n d (Shell.recordEclass name) s₄)
    let (l'', s') ← rest.follow host n d (.eclasses names) s₅
    some (l ++ .ended name s₂ :: (l'.map Happening.exported ++ .completed name :: l''), s')
  | _, _, _ => none

theorem callWith_eq_some {loop : Interpreter → Option (List Happening × Interpreter)}
    {l : List Happening} {s s' : Interpreter} (h : callWith host n d loop s = some (l, s')) :
    ∃ peclass s₁ s₂ status, runShell host n d Shell.enterInherit s = some (.ok peclass, s₁) ∧
      loop s₁ = some (l, s₂) ∧
        runShell host n d (Shell.leaveInherit peclass) s₂ = some (.ok status, s') := by
  simp only [callWith, Option.bind_eq_bind, Option.bind_eq_some_iff] at h
  obtain ⟨⟨peclass, s₁⟩, henter, ⟨l, s₂⟩, hloop, ⟨status, s₃⟩, hleave, heq⟩ := h
  cases heq
  exact ⟨peclass, s₁, s₂, status, eq_of_okOf henter, hloop, eq_of_okOf hleave⟩

theorem InheritRun.andSameStore {l : List Happening} {s s₁ s' : Interpreter}
    (h : InheritRun host .commands l s s₁) (hstore : s₁.store = s'.store) :
    InheritRun host .commands l s s' := by
  have hrun := h.trans (.sameStore hstore.symm)
  rwa [List.append_nil] at hrun

/-- What a call does for one eclass, and the outlines of the commands in it. -/
theorem eclass_of_follow {commands exported rest : Outline} {eclass : String}
    {eclasses : List String} {l : List Happening} {s s' : Interpreter}
    (h : (Outline.eclass commands exported rest).follow host n d (.eclasses (eclass :: eclasses)) s =
      some (l, s')) :
    ∃ backup status l₁ l₂ l₃ s₁ s₂ s₃ s₄ s₅ atEnd atEnd',
      runShell host n d (Shell.enterEclass eclass) s = some (.ok backup, s₁) ∧
      runShell host n d
        (Shell.sourceBuiltin [Shell.eclassDirectory host ++ eclass ++ ".eclass"]) s₁ =
          some (.ok status, s₂) ∧
      (commands.follow host n d .commands s₁ = some (l₁, atEnd) ∧ atEnd.store = s₂.store) ∧
      runShell host n d (Shell.collectGlobals backup) s₂ = some (.ok (), s₃) ∧
      runShell host n d Shell.exportFunctions s₃ = some (.ok (), s₄) ∧
      (exported.follow host n d .commands s₃ = some (l₂, atEnd') ∧ atEnd'.store = s₄.store) ∧
      runShell host n d (Shell.recordEclass eclass) s₄ = some (.ok (), s₅) ∧
      rest.follow host n d (.eclasses eclasses) s₅ = some (l₃, s') ∧
      l = l₁ ++ .ended eclass s₂ :: (l₂.map Happening.exported ++ .completed eclass :: l₃) := by
  simp only [Outline.follow, Option.bind_eq_bind, Option.bind_eq_some_iff] at h
  obtain ⟨⟨backup, s₁⟩, henter, ⟨status, s₂⟩, hsource, ⟨l₁, atEnd⟩, hcommands, ⟨⟩, hsame,
    ⟨⟨⟩, s₃⟩, hcollect, ⟨⟨⟩, s₄⟩, hdefine, ⟨l₂, atEnd'⟩, hexport, ⟨⟩, hsame', ⟨⟨⟩, s₅⟩, hrecord,
    ⟨l₃, s₆⟩, hrest, heq⟩ := h
  cases heq
  have hstore := (Option.guard_eq_some' _).mp hsame
  have hstore' := (Option.guard_eq_some' _).mp hsame'
  exact ⟨backup, status, l₁, l₂, l₃, s₁, s₂, s₃, s₄, s₅, atEnd, atEnd', eq_of_okOf henter,
    eq_of_okOf hsource, ⟨hcommands, hstore⟩, eq_of_okOf hcollect, eq_of_okOf hdefine,
    ⟨hexport, hstore'⟩, eq_of_okOf hrecord, hrest, rfl⟩

/-- An outline that can be followed is a run. -/
theorem inheritRun_of_follow {outline : Outline} {stage : Stage} {l : List Happening}
    {s s' : Interpreter} (h : outline.follow host n d stage s = some (l, s')) :
    InheritRun host stage l s s' := by
  induction outline generalizing stage l s s' with
  | done =>
    cases stage with
    | commands =>
      cases h
      exact .refl s
    | call eclasses => cases h
    | eclasses rest =>
      cases rest with
      | nil =>
        cases h
        exact .done s
      | cons eclass rest => cases h
  | set name new rest ih =>
    cases stage with
    | commands =>
      simp only [Outline.follow, Option.bind_eq_bind, Option.bind_eq_some_iff] at h
      obtain ⟨⟨⟨⟩, t⟩, hset, ⟨l', s₁⟩, hrest, heq⟩ := h
      cases heq
      have hwrote : InheritRun host .commands [.wrote false name (s.store.level name)] s
          { s with store := t } := .wrote (storeStep_setValue new 0 (eq_of_okOf hset))
      exact hwrote.trans (ih hrest)
    | call eclasses => cases h
    | eclasses rest => cases h
  | define name init readonly rest ih =>
    cases stage with
    | commands =>
      simp only [Outline.follow, Option.bind_eq_bind, Option.bind_eq_some_iff] at h
      obtain ⟨⟨⟩, hname, ⟨⟨⟩, t⟩, hdefine, ⟨l', s₁⟩, hrest, heq⟩ := h
      cases heq
      have hne := (Option.guard_eq_some' _).mp hname
      have hwrote : InheritRun host .commands [.wrote false name 0] s { s with store := t } :=
        .wrote (storeStep_define init readonly (fun hstar => absurd hstar hne) (eq_of_okOf hdefine))
      exact hwrote.trans (ih hrest)
    | call eclasses => cases h
    | eclasses rest => cases h
  | call eclasses loop rest ihloop ih =>
    cases stage with
    | commands =>
      simp only [Outline.follow, Option.bind_eq_bind, Option.bind_eq_some_iff] at h
      obtain ⟨⟨l₁, s₁⟩, hcall, ⟨l₂, s₂⟩, hrest, heq⟩ := h
      cases heq
      obtain ⟨peclass, s₃, s₄, status, henter, hloop, hleave⟩ := callWith_eq_some hcall
      have hcalled := InheritRun.called (.call henter (ihloop hloop) hleave)
      have hrun := hcalled.trans (ih hrest)
      rwa [List.append_assoc] at hrun
    | call eclasses => cases h
    | eclasses rest => cases h
  | eclass commands exported rest ih ihexport ihrest =>
    cases stage with
    | commands => cases h
    | call eclasses => cases h
    | eclasses eclasses =>
      cases eclasses with
      | nil => cases h
      | cons eclass eclasses =>
        obtain ⟨backup, status, l₁, l₂, l₃, s₁, s₂, s₃, s₄, s₅, atEnd, atEnd', henter, hsource,
          ⟨hcommands, hsame⟩, hcollect, -, ⟨hexport, hsame'⟩, hrecord, hrest, rfl⟩ :=
            eclass_of_follow h
        exact .eclass henter hsource ((ih hcommands).andSameStore hsame) hcollect
          ((ihexport hexport).andSameStore hsame') hrecord (ihrest hrest)

/-- The loop that has been followed is the one of `exec`. -/
theorem inheritEclasses_of_follow {outline : Outline} {eclasses : List String}
    {l : List Happening} {s s' : Interpreter}
    (h : outline.follow host n d (.eclasses eclasses) s = some (l, s')) :
    runShell host n d (Shell.inheritEclasses (Shell.eclassDirectory host) eclasses) s =
      some (.ok (), s') := by
  induction eclasses generalizing outline l s with
  | nil =>
    cases outline <;> cases h
    rfl
  | cons eclass eclasses ih =>
    cases outline with
    | eclass commands exported rest =>
      obtain ⟨backup, status, _, _, _, s₁, s₂, s₃, s₄, s₅, _, _, henter, hsource, -, hcollect,
        hexport, -, hrecord, hrest, -⟩ := eclass_of_follow h
      have hfirst : runShell host n d
          (Shell.inheritEclass (Shell.eclassDirectory host) eclass) s = some (.ok (), s₅) := by
        rw [run_inheritEclass, bind_of_ok henter, bind_of_ok hsource, bind_of_ok hcollect,
          bind_of_ok hexport]
        exact hrecord
      rw [Shell.inheritEclasses, runShell_bind, bind_of_ok hfirst]
      exact ih hrest
    | done => cases h
    | set name new rest => cases h
    | define name init readonly rest => cases h
    | call eclasses loop rest => cases h

/-- A call that has been followed is a call that returns. -/
theorem inheritBuiltin_of_callWith {loop : Outline} {eclasses : List String}
    {l : List Happening} {s s' : Interpreter}
    (h : callWith host n d (loop.follow host n d (.eclasses eclasses)) s = some (l, s')) :
    InheritRun host (.call eclasses) l s s' ∧
      ∃ status, runShell host n d (Shell.inheritBuiltin host eclasses) s =
        some (.ok status, s') := by
  obtain ⟨peclass, s₁, s₂, status, henter, hloop, hleave⟩ := callWith_eq_some h
  refine ⟨.call henter (inheritRun_of_follow hloop) hleave, status, ?_⟩
  rw [run_inheritBuiltin, bind_of_ok henter, bind_of_ok (inheritEclasses_of_follow hloop)]
  exact hleave

end Follow

/-! ## Calls in an eclass -/

theorem isIdentifier_IUSE : isIdentifier "IUSE" = true := by decide

/-- An assignment to `IUSE`. -/
def setIUSE (value : String) : SimpleCommand :=
  .variableDefinitions false [.scalar (.base ⟨"IUSE", isIdentifier_IUSE⟩) (some (.literal value))]

/-- Three eclasses that set `IUSE`; the first one inherits the last one. -/
def nestedHost : Host :=
  .ofTexts
    [((.start, readScript true "a"),
        .script (.ofSimple (setIUSE "x") [.literals "inherit" ["c"]]) []),
      ((.start, readScript true "b"), .script (.ofSimple (setIUSE "z") []) []),
      ((.start, readScript true "c"), .script (.ofSimple (setIUSE "y") []) [])]
    [("/usr/portage/eclass/a.eclass", "a"), ("/usr/portage/eclass/b.eclass", "b"),
      ("/usr/portage/eclass/c.eclass", "c")]

/-- `inherit a b` -/
def inheritAB : Focus shell := .list (.ofSimple (.literals "inherit" ["a", "b"]) [])

/-- `source` of an eclass, from a script of the given name. -/
def sourced (script eclass value : String) (others : Outline → Outline) : Outline :=
  .define "0" (.scalar (.str ("/usr/portage/eclass/" ++ eclass ++ ".eclass")) 0) true
    (.set "IUSE" (.str value)
      (others (.define "0" (.scalar (.str script) 0) true .done)))

def nestedLoop : Outline :=
  .eclass (sourced "" "a" "x" fun rest =>
      .call ["c"] (.eclass (sourced "/usr/portage/eclass/a.eclass" "c" "y" id) .done .done) rest)
    .done (.eclass (sourced "" "b" "z" id) .done .done)

theorem isGlobal_initial (stdin : List Char) (x : String) :
    (Interpreter.initial stdin).store.IsGlobal x := List.forall_mem_nil _

/-- The call, with what happens in it. -/
def nestedCall : Option (List Happening × Interpreter) :=
  callWith nestedHost 1 4 (nestedLoop.follow nestedHost 1 4 (.eclasses ["a", "b"])) (.initial [])

/-- The command, with what happens in it. -/
def nestedRun : Option (List Happening × Interpreter) := do
  let outline := Outline.call ["a", "b"] nestedLoop .done
  let (l, atEnd) ← outline.follow nestedHost 1 4 .commands (.initial [])
  let (_, s') ← runTree nestedHost 1 4 0 inheritAB (.initial [])
  guard (atEnd.store = s'.store)
  some (l, s')

theorem of_nestedCall {P : List Happening × Interpreter → Prop} [DecidablePred P]
    (h : nestedCall.any (fun out => decide (P out)) = true) :
    ∃ l s' status, runShell nestedHost 1 4 (Shell.inheritBuiltin nestedHost ["a", "b"])
        (.initial []) = some (.ok status, s') ∧
      InheritRun nestedHost (.call ["a", "b"]) l (.initial []) s' ∧ P (l, s') := by
  obtain ⟨⟨l, s'⟩, hcall, hP⟩ := (Option.any_eq_true _ _).mp h
  obtain ⟨hrun, status, hreturns⟩ := inheritBuiltin_of_callWith hcall
  exact ⟨l, s', status, hreturns, hrun, of_decide_eq_true hP⟩

theorem of_nestedRun {P : List Happening × Interpreter → Prop} [DecidablePred P]
    (h : nestedRun.any (fun out => decide (P out)) = true) :
    ∃ l s' r, runTree nestedHost 1 4 0 inheritAB (.initial []) = some (r, s') ∧
      InheritRun nestedHost .commands l (.initial []) s' ∧ P (l, s') := by
  obtain ⟨⟨l, s'⟩, hall, hP⟩ := (Option.any_eq_true _ _).mp h
  simp only [nestedRun, Option.bind_eq_bind, Option.bind_eq_some_iff] at hall
  obtain ⟨⟨l, atEnd⟩, hfollow, ⟨r, s₁⟩, hrun, ⟨⟩, hsame, heq⟩ := hall
  cases heq
  have hstore := (Option.guard_eq_some' _).mp hsame
  exact ⟨l, s₁, r, hrun, (inheritRun_of_follow hfollow).andSameStore hstore, of_decide_eq_true hP⟩

end Libbash
