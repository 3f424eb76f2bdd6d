import Libbash.Interp.Replays

/-!
# The variables that eclasses add to

While an eclass is read, the five variables of `inheritedGlobals` are its own: `inherit` puts
the values of the caller away before and back afterwards, and appends what the eclass has left
to the variables with the prefix `E_`. `inheritBuiltin_collects` says what these are after a
call, with any nesting of further calls: every value that an eclass has left has come in once,
in the order in which the eclasses have ended.
-/

namespace Libbash

open Lib Lib.Comp Lib.Program

/-- The interpreter at the end of the commands of an eclass. -/
def Happening.ended? : Happening → Option Interpreter
  | .ended _ atEnd => some atEnd
  | _ => none

/-- Where the commands of the eclasses have ended, in order. -/
def endings (l : List Happening) : List Interpreter := l.filterMap Happening.ended?

/-- A text with everything that the eclasses have left in a variable. -/
def collecting (x text : String) (l : List Happening) : String :=
  (endings l).foldl (fun text atEnd => text ++ atEnd.contribution x) text

/-- The variables that nothing but `inherit` writes. -/
def collectNames : List String :=
  "__export_funcs_var" :: Shell.inheritedGlobals.map collected

/-- Commands write the five variables as global ones, and not while functions are exported, and
the others not at all; no call raises an error. -/
def Happening.Assigns : Happening → Prop
  | .wrote exporting name level =>
    name ∉ collectNames ∧ (name ∈ Shell.inheritedGlobals → level = 0 ∧ exporting = false)
  | .raised => False
  | _ => True

instance : DecidablePred Happening.Assigns
  | .wrote exporting name level =>
    inferInstanceAs (Decidable (name ∉ collectNames ∧
      (name ∈ Shell.inheritedGlobals → level = 0 ∧ exporting = false)))
  | .raised => .isFalse id
  | .ended _ _ | .completed _ | .returned _ _ _ => .isTrue trivial

/-- None of the five variables is written. -/
def Happening.SparesGlobals : Happening → Prop
  | .wrote _ name _ => name ∉ Shell.inheritedGlobals
  | _ => True

theorem Happening.Assigns.of_exported {happening : Happening} (h : happening.exported.Assigns) :
    happening.Assigns ∧ happening.SparesGlobals := by
  cases happening with
  | wrote exporting name level =>
    have hnot : name ∉ Shell.inheritedGlobals := fun hname => by
      have hexporting : true = false := (h.2 hname).2
      cases hexporting
    exact ⟨⟨h.1, fun hname => absurd hname hnot⟩, hnot⟩
  | raised => exact h.elim
  | ended eclass s => exact ⟨trivial, trivial⟩
  | completed eclass => exact ⟨trivial, trivial⟩
  | returned eclasses before after => exact ⟨trivial, trivial⟩

@[simp] theorem endings_append (l l' : List Happening) :
    endings (l ++ l') = endings l ++ endings l' := List.filterMap_append

@[simp] theorem endings_exported (l : List Happening) :
    endings (l.map Happening.exported) = endings l := by
  unfold endings
  rw [List.filterMap_map]
  refine List.filterMap_congr fun happening _ => ?_
  cases happening <;> rfl

theorem collecting_append (x text : String) (l l' : List Happening) :
    collecting x text (l ++ l') = collecting x (collecting x text l) l' := by
  unfold collecting
  rw [endings_append, List.foldl_append]

theorem collecting_ended (x text eclass : String) (s : Interpreter) (l : List Happening) :
    collecting x text (.ended eclass s :: l) = collecting x (text ++ s.contribution x) l := rfl

theorem collecting_exported (x text : String) (l : List Happening) :
    collecting x text (l.map Happening.exported) = collecting x text l := by
  unfold collecting
  rw [endings_exported]

theorem collecting_completed (x text eclass : String) (l : List Happening) :
    collecting x text (.completed eclass :: l) = collecting x text l := rfl

/-! ## Parts of a run -/

/-- The names that `inherit` uses for the five variables. -/
def Interpreter.GlobalEclassNames (s : Interpreter) : Prop :=
  (∀ x ∈ Shell.inheritedGlobals, s.store.IsGlobal x) ∧ ∀ x ∈ collectNames, s.store.IsGlobal x

/-- The five variables have the values that they had. -/
def SameGlobals (s s' : Interpreter) : Prop := ∀ x ∈ Shell.inheritedGlobals, s'.value x = s.value x

/-- What has been left has been collected. -/
structure Collects (l : List Happening) (s s' : Interpreter) : Prop where
  isGlobal : s'.GlobalEclassNames
  exporting : s.Exporting → s'.Exporting
  collected : ∀ x ∈ Shell.inheritedGlobals,
    s'.value (collected x) = collecting x (s.value (collected x)) l

theorem collectNames_nonempty : ∀ x ∈ collectNames, x.isEmpty = false := by decide +kernel

section Parts

variable {host : Host} {n d : Nat} {l l' : List Happening} {eclass peclass : String}
  {backup : List String} {status : Int} {s s₁ s' : Interpreter}

theorem SameGlobals.trans (h : SameGlobals s s₁) (h' : SameGlobals s₁ s') : SameGlobals s s' :=
  fun x hx => (h' x hx).trans (h x hx)

theorem Collects.trans (h : Collects l s s₁) (h' : Collects l' s₁ s') : Collects (l ++ l') s s' where
  isGlobal := h'.isGlobal
  exporting hs := h'.exporting (h.exporting hs)
  collected x hx := by rw [h'.collected x hx, h.collected x hx, collecting_append]

theorem collected_mem_collectNames {x : String} (hx : x ∈ Shell.inheritedGlobals) :
    collected x ∈ collectNames := List.mem_cons_of_mem _ (List.mem_map_of_mem hx)

/-- Nothing is collected where the variables for it stay what they are. -/
theorem collects_of_keeps (hs : s.GlobalEclassNames) (hglobal : s'.GlobalEclassNames)
    (hexp : s.Exporting → s'.Exporting)
    (h : ∀ x ∈ Shell.inheritedGlobals, KeepsGlobal (collected x) s s') : Collects [] s s' where
  isGlobal := hglobal
  exporting := hexp
  collected x hx := (h x hx).value (collected_nonempty x) (hs.2 _ (collected_mem_collectNames hx))

/-- Steps that keep every variable of `inherit`. -/
theorem collects_of_keepsAll (hs : s.GlobalEclassNames) (h : ∀ x, KeepsGlobal x s s') :
    Collects [] s s' ∧ SameGlobals s s' :=
  ⟨collects_of_keeps hs ⟨fun x hx => (h x (hs.1 x hx)).1, fun x hx => (h x (hs.2 x hx)).1⟩
      (fun hexp => hexp.of_keeps (h _)) fun _ _ => h _,
    fun x hx => (h x).value (inheritedGlobals_nonempty x hx) (hs.1 x hx)⟩

/-- A part of `inherit`, by the variables that it may change. -/
theorem collects_of_changesAmong {P : String → Prop} (hs : s.GlobalEclassNames)
    (h : ChangesAmong P s s') (hexp : s.Exporting → s'.Exporting)
    (hP : ∀ x ∈ Shell.inheritedGlobals, ¬P (collected x)) : Collects [] s s' :=
  collects_of_keeps hs
    ⟨fun x hx => h.isGlobal x (inheritedGlobals_nonempty x hx) (hs.1 x hx),
      fun x hx => h.isGlobal x (collectNames_nonempty x hx) (hs.2 x hx)⟩
    hexp fun x hx => h.keeps _ (collected_nonempty x) (hP x hx)

theorem sameGlobals_of_changesAmong {P : String → Prop} (hs : s.GlobalEclassNames)
    (h : ChangesAmong P s s') (hP : ∀ x ∈ Shell.inheritedGlobals, ¬P x) : SameGlobals s s' :=
  fun x hx => h.value (inheritedGlobals_nonempty x hx) (hP x hx) (hs.1 x hx)

/-- A step of the commands of an eclass. -/
theorem collects_of_step {how : Write} {name : String} {level : Nat} (hs : s.GlobalEclassNames)
    (h : StoreStep how name level s.store s'.store)
    (hname : (Happening.wrote false name level).Assigns) :
    Collects [] s s' ∧ (name ∉ Shell.inheritedGlobals → SameGlobals s s') := by
  have hne : ∀ x ∈ collectNames, x ≠ name := by
    rintro x hx rfl
    exact hname.1 hx
  refine ⟨collects_of_keeps hs ⟨fun x hx => ?_, fun x hx => ?_⟩ (fun hexp => ?_) fun x hx => ?_,
    fun hnot x hx => ?_⟩
  · refine isGlobal_of_only (inheritedGlobals_nonempty x hx) h.only (fun heq => ?_) (hs.1 x hx)
    exact (hname.2 (heq ▸ hx)).1
  · exact (keepsGlobal_of_step (collectNames_nonempty x hx) h (hne x hx) (hs.2 x hx)).1
  · exact hexp.of_keeps (keepsGlobal_of_step rfl h (hne _ List.mem_cons_self))
  · exact keepsGlobal_of_step (collected_nonempty x) h (hne _ (collected_mem_collectNames hx))
  · have hx' : x ≠ name := fun heq => hnot (heq ▸ hx)
    exact (keepsGlobal_of_step (inheritedGlobals_nonempty x hx) h hx').value
      (inheritedGlobals_nonempty x hx) (hs.1 x hx)

theorem enterInherit_collects (hs : s.GlobalEclassNames)
    (h : runShell host n d Shell.enterInherit s = some (.ok peclass, s')) :
    Collects [] s s' ∧ SameGlobals s s' := by
  have hchanges : ChangesAmong (· = "ECLASS_DEPTH") s s' :=
    (enterInherit_ok h).1.changesAmong rfl
  exact ⟨collects_of_changesAmong hs hchanges (fun hexp => hexp.enterInherit h) (by decide +kernel),
    sameGlobals_of_changesAmong hs hchanges (by decide +kernel)⟩

theorem leaveInherit_collects (hs : s.GlobalEclassNames)
    (h : runShell host n d (Shell.leaveInherit peclass) s = some (.ok status, s')) :
    Collects [] s s' ∧ SameGlobals s s' := by
  have hchanges := (leaveInherit_ok h).1
  exact ⟨collects_of_changesAmong hs hchanges (fun hexp => hexp.leaveInherit h) (by decide +kernel),
    sameGlobals_of_changesAmong hs hchanges (by decide +kernel)⟩

/-- The values of the caller have been put away. -/
theorem enterEclass_collects (hs : s.GlobalEclassNames)
    (h : runShell host n d (Shell.enterEclass eclass) s = some (.ok backup, s')) :
    Collects [] s s' ∧ s'.Exporting ∧ backup = Shell.inheritedGlobals.map s.value := by
  obtain ⟨depth, -, hafter⟩ := enterEclass_ok h
  have hvar := hs.2 "__export_funcs_var" List.mem_cons_self
  obtain ⟨hchanges, -, hbackup⟩ := hafter hvar
  have hexp : s'.Exporting := .enterEclass hvar h
  refine ⟨collects_of_changesAmong hs hchanges (fun _ => hexp) ?_, hexp, (hbackup hs.1).1⟩
  rintro x hx (hmem | heq)
  · have hnot : ∀ x ∈ Shell.inheritedGlobals,
        collected x ∉ "ECLASS" :: "__export_funcs_var" :: Shell.inheritedGlobals := by
      decide +kernel
    exact hnot x hx hmem
  · have hbegin : ∀ x ∈ Shell.inheritedGlobals,
        "__export_functions_".toList.isPrefixOf (collected x).toList = false := by decide +kernel
    exact exportName_ne depth (hbegin x hx) heq.symm

/-- The values of the eclass are added, and those of the caller put back. -/
theorem collectGlobals_collects (eclass : String) {caller : Interpreter} (hs : s.GlobalEclassNames)
    (h : runShell host n d (Shell.collectGlobals backup) s = some (.ok (), s'))
    (hbackup : backup = Shell.inheritedGlobals.map caller.value) :
    Collects [.ended eclass s] s s' ∧ SameGlobals caller s' := by
  obtain ⟨hchanges, hvalues⟩ := collectGlobals_ok h
  obtain ⟨hcollected, hrestored⟩ := hvalues fun x hx =>
    ⟨hs.1 x hx, hs.2 _ (collected_mem_collectNames hx)⟩
  refine ⟨⟨⟨fun x hx => ?_, fun x hx => ?_⟩, fun hexp => hexp.collectGlobals h, hcollected⟩, ?_⟩
  · exact hchanges.isGlobal x (inheritedGlobals_nonempty x hx) (hs.1 x hx)
  · exact hchanges.isGlobal x (collectNames_nonempty x hx) (hs.2 x hx)
  · have hsame := hrestored (by rw [hbackup, List.length_map])
    rw [hbackup] at hsame
    exact fun x hx => List.map_inj_left.mp hsame x hx

theorem recordEclass_collects (hs : s.GlobalEclassNames) (hexp : s.Exporting)
    (h : runShell host n d (Shell.recordEclass eclass) s = some (.ok (), s')) :
    Collects [] s s' ∧ SameGlobals s s' := by
  have hchanges := (recordEclass_ok h).1
  refine ⟨collects_of_changesAmong hs hchanges (fun hexp => hexp.recordEclass h) ?_,
    sameGlobals_of_changesAmong hs hchanges ?_⟩
  · have hnot : ∀ x ∈ Shell.inheritedGlobals, collected x ≠ "INHERITED" ∧
        "__export_functions_".toList.isPrefixOf (collected x).toList = false := by decide +kernel
    rintro x hx (heq | heq)
    · exact (hnot x hx).1 heq
    · exact hexp.ne (collected_nonempty x) (hnot x hx).2 heq.symm
  · have hnot : ∀ x ∈ Shell.inheritedGlobals, x ≠ "INHERITED" ∧
        "__export_functions_".toList.isPrefixOf x.toList = false := by decide +kernel
    rintro x hx (heq | heq)
    · exact (hnot x hx).1 heq
    · exact hexp.ne (inheritedGlobals_nonempty x hx) (hnot x hx).2 heq.symm

end Parts

/-! ## Every call -/

section Runs

variable {host : Host} {n d : Nat} {stage : Stage} {l : List Happening} {s s' : Interpreter}

/-- What becomes of the five variables themselves. -/
def Stage.RestoresGlobals (l : List Happening) (s s' : Interpreter) : Stage → Prop
  | .commands => (∀ a ∈ l, a.SparesGlobals) → SameGlobals s s'
  | _ => SameGlobals s s'

theorem InheritRun.collects (h : InheritRun host stage l s s') (hl : ∀ a ∈ l, a.Assigns)
    (hs : s.GlobalEclassNames) : Collects l s s' ∧ stage.RestoresGlobals l s s' := by
  induction h with
  | refl s =>
    obtain ⟨hcollects, hsame⟩ := collects_of_keepsAll hs fun x => .refl x s
    exact ⟨hcollects, fun _ => hsame⟩
  | trans _ _ ih ih' =>
    rw [List.forall_mem_append] at hl
    obtain ⟨hfirst, hsame⟩ := ih hl.1 hs
    obtain ⟨hsecond, hsame'⟩ := ih' hl.2 hfirst.isGlobal
    refine ⟨hfirst.trans hsecond, fun hspares => ?_⟩
    rw [List.forall_mem_append] at hspares
    exact (hsame hspares.1).trans (hsame' hspares.2)
  | sameStore h =>
    obtain ⟨hcollects, hsame⟩ := collects_of_keepsAll hs fun _ => keepsGlobal_of_sameStore h
    exact ⟨hcollects, fun _ => hsame⟩
  | wrote h =>
    obtain ⟨hcollects, hsame⟩ := collects_of_step hs h (hl _ List.mem_cons_self)
    exact ⟨⟨hcollects.isGlobal, hcollects.exporting, hcollects.collected⟩,
      fun hspares => hsame (hspares _ List.mem_cons_self)⟩
  | scope h ih =>
    rename_i l s s'
    obtain ⟨hpush, hpushed⟩ := collects_of_keepsAll hs fun x => keepsGlobal_push x s
    obtain ⟨hinside, hsame⟩ := ih hl hpush.isGlobal
    obtain ⟨hpop, hpopped⟩ :=
      collects_of_keepsAll hinside.isGlobal fun x => keepsGlobal_pop x s s'
    have hall := (hpush.trans hinside).trans hpop
    rw [List.nil_append, List.append_nil] at hall
    exact ⟨hall, fun hspares => (hpushed.trans (hsame hspares)).trans hpopped⟩
  | called h ih =>
    rw [List.forall_mem_append] at hl
    obtain ⟨hcall, hsame⟩ := ih hl.1 hs
    refine ⟨⟨hcall.isGlobal, hcall.exporting, fun x hx => ?_⟩, fun _ => hsame⟩
    rw [collecting_append]
    exact hcall.collected x hx
  | raised h => exact (hl _ List.mem_cons_self).elim
  | call henter h hleave ih =>
    obtain ⟨hentered, hsame⟩ := enterInherit_collects hs henter
    obtain ⟨hinside, hsame'⟩ := ih hl hentered.isGlobal
    obtain ⟨hleft, hsame''⟩ := leaveInherit_collects hinside.isGlobal hleave
    have hall := (hentered.trans hinside).trans hleft
    rw [List.nil_append, List.append_nil] at hall
    exact ⟨hall, (hsame.trans hsame').trans hsame''⟩
  | done s =>
    obtain ⟨hcollects, hsame⟩ := collects_of_keepsAll hs fun x => .refl x s
    exact ⟨hcollects, hsame⟩
  | eclass henter hsource h hcollect hexport hrecord hrest ih ihexport ihrest =>
    rename_i eclass rest backup status l l' l'' s s₁ s₂ s₃ s₄ s₅ s'
    simp only [List.forall_mem_append, List.forall_mem_cons, List.forall_mem_map] at hl
    obtain ⟨hcommands, -, hexports, -, hothers⟩ := hl
    obtain ⟨hentered, hexp, hbackup⟩ := enterEclass_collects hs henter
    obtain ⟨hsourced, -⟩ := ih hcommands hentered.isGlobal
    obtain ⟨hcollected, hback⟩ :=
      collectGlobals_collects eclass hsourced.isGlobal hcollect hbackup
    obtain ⟨hdefined, hsame⟩ := ihexport (fun a ha => (hexports a ha).of_exported.1)
      hcollected.isGlobal
    obtain ⟨hdone, hsame'⟩ := recordEclass_collects hdefined.isGlobal
      (hdefined.exporting (hcollected.exporting (hsourced.exporting hexp))) hrecord
    obtain ⟨hlater, hsame''⟩ := ihrest hothers hdone.isGlobal
    have hall := ((hentered.trans hsourced).trans hcollected).trans
      ((hdefined.trans hdone).trans hlater)
    refine ⟨⟨hall.isGlobal, hall.exporting, fun x hx => ?_⟩, ?_⟩
    · rw [hall.collected x hx]
      simp [collecting_append, collecting_ended, collecting_completed, collecting_exported]
    · have hexported := hsame fun a ha => (hexports a ha).of_exported.2
      exact ((hback.trans hexported).trans hsame').trans hsame''

/-- A call that returns leaves the five variables of the caller as they were, and has added what
its eclasses, and those that they have inherited, have left in theirs. -/
theorem inheritBuiltin_collects {eclasses : List String} {status : Int}
    (hs : s.GlobalEclassNames)
    (h : runShell host n d (Shell.inheritBuiltin host eclasses) s = some (.ok status, s')) :
    (∃ l, InheritRun host (.call eclasses) l s s') ∧
      ∀ l, InheritRun host (.call eclasses) l s s' → (∀ a ∈ l, a.Assigns) →
        ∀ x ∈ Shell.inheritedGlobals, s'.value x = s.value x ∧
          s'.value (collected x) = collecting x (s.value (collected x)) l := by
  refine ⟨inheritBuiltin_inherits h, fun l hrun hl x hx => ?_⟩
  obtain ⟨hcollects, hsame⟩ := hrun.collects hl hs
  exact ⟨hsame x hx, hcollects.collected x hx⟩

theorem inheritBuiltin_collects_nested :
    ∃ l s' status, runShell nestedHost 1 4 (Shell.inheritBuiltin nestedHost ["a", "b"])
        (.initial []) = some (.ok status, s') ∧
      InheritRun nestedHost (.call ["a", "b"]) l (.initial []) s' ∧
        collecting "IUSE" "" l = " y x z" ∧
          s'.value "IUSE" = "" ∧ s'.value (collected "IUSE") = " y x z" := by
  obtain ⟨l, s', status, hrun, hsteps, hl, hcollecting⟩ := of_nestedCall
    (P := fun out => (∀ a ∈ out.1, a.Assigns) ∧ collecting "IUSE" "" out.1 = " y x z")
    (by decide +kernel)
  have hglobal : (Interpreter.initial []).GlobalEclassNames :=
    ⟨fun x _ => isGlobal_initial [] x, fun x _ => isGlobal_initial [] x⟩
  obtain ⟨hvalue, hcollected⟩ := (inheritBuiltin_collects hglobal hrun).2 l hsteps hl "IUSE"
    (by decide)
  have hbefore : (Interpreter.initial []).value "IUSE" = "" ∧
      (Interpreter.initial []).value (collected "IUSE") = "" := by decide +kernel
  rw [hbefore.1] at hvalue
  rw [hbefore.2, hcollecting] at hcollected
  exact ⟨l, s', status, hrun, hsteps, hcollecting, hvalue, hcollected⟩

end Runs

end Libbash
