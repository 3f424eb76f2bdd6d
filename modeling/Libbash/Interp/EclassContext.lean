import Libbash.Interp.Replays

/-!
# The variables of the eclass that is being read

`inherit` counts in `ECLASS_DEPTH` how many of its calls have begun, and names the eclass in
`ECLASS` and the variable for its functions in `__export_funcs_var`. A call that returns puts
the first two back for the eclass that made it; the third one it leaves on a deeper level, as
soon as it has read an eclass (`KeepsContext`). This holds for every call in every run
(`runTree_keepsContext`).
-/

namespace Libbash

open Lib Lib.Comp Lib.Program

/-- The names of the variables, which nothing but `inherit` writes. -/
def contextNames : List String := ["ECLASS_DEPTH", "ECLASS", "__export_funcs_var"]

/-- The variable for the functions of the eclasses of a depth. -/
def exportNameAt (depth : Int64) : String := exportName (toString depth.toInt)

/-- A variable for the functions of eclasses that are deeper than that. -/
def DeeperName (depth : Int64) (name : String) : Prop :=
  ∃ deeper, depth < deeper ∧ name = exportNameAt deeper

/-- What a call leaves of the variables of the eclass that made it. -/
structure KeepsContext (eclasses : List String) (before after : Interpreter) : Prop where
  depth : after.AtDepth before.eclassDepth
  eclass : 0 < before.eclassDepth → after.value "ECLASS" = before.value "ECLASS"
  unread : 0 < before.eclassDepth → eclasses = [] →
    after.value "__export_funcs_var" = before.value "__export_funcs_var"
  read : 0 < before.eclassDepth → eclasses ≠ [] →
    DeeperName before.eclassDepth (after.value "__export_funcs_var")
  outside : ¬0 < before.eclassDepth →
    after.store.resolveVariable "ECLASS" = none ∧
      after.store.resolveVariable "__export_funcs_var" = none

/-- The depth can be counted. -/
def Happening.Counted : Happening → Prop
  | .returned _ before _ => before.eclassDepth < before.eclassDepth + 1
  | _ => True

instance : DecidablePred Happening.Counted
  | .returned _ before _ =>
    inferInstanceAs (Decidable (before.eclassDepth < before.eclassDepth + 1))
  | .wrote _ _ _ | .raised | .ended _ _ | .completed _ => .isTrue trivial

/-- The call has kept the context. -/
def Happening.InContext : Happening → Prop
  | .returned eclasses before after => KeepsContext eclasses before after
  | _ => True

@[simp] theorem counted_exported {happening : Happening} :
    happening.exported.Counted ↔ happening.Counted := by
  cases happening <;> rfl

@[simp] theorem inContext_exported {happening : Happening} :
    happening.exported.InContext ↔ happening.InContext := by
  cases happening <;> rfl

/-! ## Parts of a run -/

/-- The variables are global. -/
def Interpreter.GlobalContext (s : Interpreter) : Prop := ∀ x ∈ contextNames, s.store.IsGlobal x

section Parts

variable {host : Host} {n d : Nat} {depth deeper : Int64} {eclass peclass name : String}
  {backup : List String} {status : Int} {s s₁ s' : Interpreter}

theorem DeeperName.trans (h : depth < deeper) (h' : DeeperName deeper name) :
    DeeperName depth name := by
  obtain ⟨deepest, hlt, hname⟩ := h'
  exact ⟨deepest, Int64.lt_trans h hlt, hname⟩

theorem contextNames_nonempty : ∀ x ∈ contextNames, x.isEmpty = false := by decide

/-- The depth stays the same, and the variables global. -/
structure SameDepth (s s' : Interpreter) : Prop where
  isGlobal : s'.GlobalContext
  depth : s'.eclassDepth = s.eclassDepth
  atDepth : ∀ depth, s.AtDepth depth → s'.AtDepth depth
  exporting : s.Exporting → s'.Exporting

/-- Commands keep the context of the eclass that they belong to. -/
structure InContext (s s' : Interpreter) : Prop extends SameDepth s s' where
  eclass : 0 < s.eclassDepth → s'.value "ECLASS" = s.value "ECLASS"
  exportVar : 0 < s.eclassDepth →
    s'.value "__export_funcs_var" = s.value "__export_funcs_var" ∨
      DeeperName s.eclassDepth (s'.value "__export_funcs_var")

/-- The eclasses of a call have been read. -/
structure ReadsEclasses (eclasses : List String) (s s' : Interpreter) : Prop
    extends SameDepth s s' where
  unread : eclasses = [] → s'.value "__export_funcs_var" = s.value "__export_funcs_var"
  read : ∀ depth, s.AtDepth depth → 0 < depth → eclasses ≠ [] →
    s'.value "__export_funcs_var" = exportNameAt depth ∨
      DeeperName depth (s'.value "__export_funcs_var")

theorem SameDepth.trans (h : SameDepth s s₁) (h' : SameDepth s₁ s') : SameDepth s s' where
  isGlobal := h'.isGlobal
  depth := h'.depth.trans h.depth
  atDepth depth hs := h'.atDepth depth (h.atDepth depth hs)
  exporting hs := h'.exporting (h.exporting hs)

theorem sameDepth_of_keeps (hs : s.GlobalContext) (hkeeps : KeepsGlobal "ECLASS_DEPTH" s s')
    (h : s'.GlobalContext) (hexp : s.Exporting → s'.Exporting) : SameDepth s s' where
  isGlobal := h
  depth := hkeeps.eclassDepth (hs "ECLASS_DEPTH" (by decide))
  atDepth _ hdepth := hkeeps.atDepth (hs "ECLASS_DEPTH" (by decide)) hdepth
  exporting := hexp

theorem InContext.trans (h : InContext s s₁) (h' : InContext s₁ s') : InContext s s' where
  toSameDepth := h.toSameDepth.trans h'.toSameDepth
  eclass hs := (h'.eclass (by rwa [h.depth])).trans (h.eclass hs)
  exportVar hs := by
    have hs₁ : 0 < s₁.eclassDepth := by rwa [h.depth]
    rcases h'.exportVar hs₁ with hsame | hdeeper
    · rw [hsame]
      exact h.exportVar hs
    · right
      rwa [h.depth] at hdeeper

theorem inContext_of_keeps (hs : s.GlobalContext) (h : ∀ x ∈ contextNames, KeepsGlobal x s s') :
    InContext s s' where
  toSameDepth := sameDepth_of_keeps hs (h "ECLASS_DEPTH" (by decide))
    (fun x hx => (h x hx (hs x hx)).1) fun hexp => hexp.of_keeps (h "__export_funcs_var" (by decide))
  eclass _ := (h "ECLASS" (by decide)).value rfl (hs "ECLASS" (by decide))
  exportVar _ := .inl
    ((h "__export_funcs_var" (by decide)).value rfl (hs "__export_funcs_var" (by decide)))

/-- Where the calls are, the context is kept. -/
theorem KeepsContext.inContext {eclasses : List String} (h : KeepsContext eclasses s s')
    (hglobal : s'.GlobalContext) (hexp : s.Exporting → s'.Exporting) : InContext s s' where
  isGlobal := hglobal
  depth := h.depth.eclassDepth
  atDepth depth hdepth := hdepth.eclassDepth ▸ h.depth
  exporting := hexp
  eclass := h.eclass
  exportVar hs := by
    by_cases hnil : eclasses = []
    · exact .inl (h.unread hs hnil)
    · exact .inr (h.read hs hnil)

/-- From here on the variable is the one of the call. -/
theorem enterEclass_context (hs : s.GlobalContext)
    (henter : runShell host n d (Shell.enterEclass eclass) s = some (.ok backup, s₁)) :
    SameDepth s s₁ ∧ s₁.Exporting ∧
      ∀ depth, s.AtDepth depth → s₁.value "__export_funcs_var" = exportNameAt depth := by
  have hvar := hs "__export_funcs_var" (by decide)
  have hdepth := hs "ECLASS_DEPTH" (by decide)
  obtain ⟨text, htext, hafter⟩ := enterEclass_ok henter
  obtain ⟨hchanges, hname, -⟩ := hafter hvar
  have hkeeps : KeepsGlobal "ECLASS_DEPTH" s s₁ := hchanges.keeps _ rfl (by
    rintro (hmem | heq)
    · exact absurd hmem (by decide)
    · exact exportName_ne text (by decide) heq.symm)
  have hexp : s₁.Exporting := .enterEclass hvar henter
  refine ⟨sameDepth_of_keeps hs hkeeps (fun x hx => ?_) fun _ => hexp, hexp, fun depth hat => ?_⟩
  · exact hchanges.isGlobal x (contextNames_nonempty x hx) (hs x hx)
  · rw [hname, htext hdepth, hat.value]
    rfl

/-- What has been done with an eclass leaves its context alone. -/
theorem recordEclass_context (hs : s.GlobalContext) (hexp : s.Exporting)
    (h : runShell host n d (Shell.recordEclass eclass) s = some (.ok (), s')) : InContext s s' := by
  refine inContext_of_keeps hs fun x hx => ?_
  refine (recordEclass_ok h).1.keeps x (contextNames_nonempty x hx) ?_
  rintro (rfl | hname)
  · exact absurd hx (by decide)
  · have hbegin : ∀ x ∈ contextNames,
        "__export_functions_".toList.isPrefixOf x.toList = false := by decide
    exact hexp.ne (contextNames_nonempty x hx) (hbegin x hx) hname.symm

theorem collectGlobals_context (hs : s.GlobalContext)
    (h : runShell host n d (Shell.collectGlobals backup) s = some (.ok (), s')) :
    InContext s s' := by
  have hnot : ∀ x ∈ contextNames,
      ¬(x ∈ Shell.inheritedGlobals ∨ x ∈ Shell.inheritedGlobals.map collected) := by
    decide +kernel
  exact inContext_of_keeps hs fun x hx =>
    (collectGlobals_ok h).1.keeps x (contextNames_nonempty x hx) (hnot x hx)

/-- A call, when its loop over the eclasses keeps the depth. -/
theorem call_keepsContext {eclasses : List String} {s₂ : Interpreter} (hs : s.GlobalContext)
    (hcounted : s.eclassDepth < s.eclassDepth + 1)
    (henter : runShell host n d Shell.enterInherit s = some (.ok peclass, s₁))
    (h : ReadsEclasses eclasses s₁ s₂)
    (hleave : runShell host n d (Shell.leaveInherit peclass) s₂ = some (.ok status, s')) :
    KeepsContext eclasses s s' ∧ InContext s s' := by
  obtain ⟨hwrites, hat, hpeclass⟩ := enterInherit_ok henter
  obtain ⟨hchanges, hback, hinside, houtside⟩ := leaveInherit_ok hleave
  have hkeeps : ∀ x ∈ contextNames, x ≠ "ECLASS_DEPTH" → KeepsGlobal x s s₁ := fun x hx =>
    hwrites.keeps (contextNames_nonempty x hx)
  have hs₁ : s₁.GlobalContext := by
    intro x hx
    by_cases hname : x = "ECLASS_DEPTH"
    · subst hname
      exact hwrites.isGlobal rfl (hs _ hx)
    · exact (hkeeps x hx hname (hs x hx)).1
  have hdepth : s₂.eclassDepth - 1 = s.eclassDepth := by
    rw [h.depth, hat.eclassDepth, Int64.add_sub_cancel]
  have hat' : s'.AtDepth s.eclassDepth := hdepth ▸ hback (h.isGlobal _ (by decide))
  have hentered : s₁.value "ECLASS" = s.value "ECLASS" :=
    (hkeeps "ECLASS" (by decide) (by decide)).value rfl (hs _ (by decide))
  have hvar : s₁.value "__export_funcs_var" = s.value "__export_funcs_var" :=
    (hkeeps "__export_funcs_var" (by decide) (by decide)).value rfl (hs _ (by decide))
  rw [hdepth] at hinside houtside
  have hlast : 0 < s.eclassDepth →
      s'.value "__export_funcs_var" = s₂.value "__export_funcs_var" := fun hpositive =>
    (hinside hpositive).2.value rfl (by decide) (h.isGlobal _ (by decide))
  have hcontext : KeepsContext eclasses s s' := by
    refine ⟨hat', fun hpositive => ?_, fun hpositive hnil => ?_,
      fun hpositive hne => ?_, fun hnot => ?_⟩
    · rw [(hinside hpositive).1, hpeclass, hentered]
    · rw [hlast hpositive, h.unread hnil, hvar]
    · rw [hlast hpositive]
      have hmore : 0 < s.eclassDepth + 1 := Int64.lt_trans hpositive hcounted
      rcases h.read _ hat hmore hne with hname | hdeeper
      · exact ⟨_, hcounted, hname⟩
      · exact hdeeper.trans hcounted
    · obtain ⟨heclass, hexport⟩ := houtside hnot
      exact ⟨heclass (h.isGlobal _ (by decide)), hexport (h.isGlobal _ (by decide))⟩
  refine ⟨hcontext, hcontext.inContext (fun x hx => ?_) fun hexp => ?_⟩
  · exact hchanges.isGlobal x (contextNames_nonempty x hx) (h.isGlobal x hx)
  · exact (h.exporting (hexp.enterInherit henter)).leaveInherit hleave

end Parts

/-! ## Every run -/

section Runs

variable {host : Host} {n d : Nat} {cur : AstId} {F : Focus shell} {stage : Stage}
  {l : List Happening} {s s' : Interpreter}

/-- What a part of a run keeps. -/
def Stage.Keeps : Stage → Interpreter → Interpreter → Prop
  | .commands => InContext
  | .call names => fun s s' =>
    s.eclassDepth < s.eclassDepth + 1 → KeepsContext names s s' ∧ InContext s s'
  | .eclasses rest => ReadsEclasses rest

/-- Every call in a part of a run keeps the context, and so the part does. -/
theorem InheritRun.keepsContext (h : InheritRun host stage l s s')
    (hl : ∀ a ∈ l, a.Spares (· ∈ contextNames)) (hcounted : ∀ a ∈ l, a.Counted)
    (hs : s.GlobalContext) : stage.Keeps s s' ∧ ∀ a ∈ l, a.InContext := by
  induction h with
  | refl s => exact ⟨inContext_of_keeps hs fun x _ => .refl x s, List.forall_mem_nil _⟩
  | trans _ _ ih ih' =>
    rw [List.forall_mem_append] at hl hcounted ⊢
    obtain ⟨hfirst, hlabels⟩ := ih hl.1 hcounted.1 hs
    obtain ⟨hsecond, hlabels'⟩ := ih' hl.2 hcounted.2 hfirst.isGlobal
    exact ⟨hfirst.trans hsecond, hlabels, hlabels'⟩
  | sameStore h =>
    exact ⟨inContext_of_keeps hs fun x _ => keepsGlobal_of_sameStore h, List.forall_mem_nil _⟩
  | wrote h =>
    have hname := hl _ List.mem_cons_self
    refine ⟨inContext_of_keeps hs fun x hx => keepsGlobal_of_step (contextNames_nonempty x hx) h ?_,
      List.forall_mem_singleton.mpr trivial⟩
    rintro rfl
    exact hname hx
  | scope h ih =>
    rename_i l s s'
    have hpush : InContext s (acquire .localScope s) :=
      inContext_of_keeps hs fun x _ => keepsGlobal_push x s
    obtain ⟨hinside, hlabels⟩ := ih hl hcounted hpush.isGlobal
    have hpop : InContext s' (release .localScope s s') :=
      inContext_of_keeps hinside.isGlobal fun x _ => keepsGlobal_pop x s s'
    exact ⟨(hpush.trans hinside).trans hpop, hlabels⟩
  | called h ih =>
    rw [List.forall_mem_append] at hl hcounted ⊢
    obtain ⟨hcall, hlabels⟩ := ih hl.1 hcounted.1 hs
    obtain ⟨hkeeps, hcontext⟩ := hcall (hcounted.2 _ List.mem_cons_self)
    exact ⟨hcontext, hlabels, List.forall_mem_singleton.mpr hkeeps⟩
  | raised h => exact (hl _ List.mem_cons_self).elim
  | call henter h hleave ih =>
    have hs₁ : Interpreter.GlobalContext _ := fun x hx => by
      by_cases hname : x = "ECLASS_DEPTH"
      · subst hname
        exact (enterInherit_ok henter).1.isGlobal rfl (hs _ hx)
      · exact ((enterInherit_ok henter).1.keeps (contextNames_nonempty x hx) hname (hs x hx)).1
    obtain ⟨hloop, hlabels⟩ := ih hl hcounted hs₁
    exact ⟨fun hless => call_keepsContext hs hless henter hloop hleave, hlabels⟩
  | done s =>
    have hsame : InContext s s := inContext_of_keeps hs fun x _ => .refl x s
    exact ⟨⟨hsame.toSameDepth, fun _ => rfl, fun _ _ _ hne => absurd rfl hne⟩,
      List.forall_mem_nil _⟩
  | eclass henter hsource h hcollect hexport hrecord hrest ih ihexport ihrest =>
    rename_i eclass rest backup status l l' l'' s s₁ s₂ s₃ s₄ s₅ s'
    simp only [List.forall_mem_append, List.forall_mem_cons, List.forall_mem_map,
      spares_exported, counted_exported, inContext_exported] at hl hcounted ⊢
    obtain ⟨hentered, hexp, hname⟩ := enterEclass_context hs henter
    obtain ⟨hsourced, hlabels⟩ := ih hl.1 hcounted.1 hentered.isGlobal
    have hcollected := collectGlobals_context hsourced.isGlobal hcollect
    obtain ⟨hdefined, hlabels'⟩ := ihexport hl.2.2.1 hcounted.2.2.1 hcollected.isGlobal
    have hdone := recordEclass_context hdefined.isGlobal
      (hdefined.exporting (hcollected.exporting (hsourced.exporting hexp))) hrecord
    have hinside := ((hsourced.trans hcollected).trans hdefined).trans hdone
    obtain ⟨hlater, hlabels''⟩ := ihrest hl.2.2.2.2 hcounted.2.2.2.2 hinside.isGlobal
    refine ⟨⟨hentered.trans (hinside.toSameDepth.trans hlater.toSameDepth), fun hnil => ?_,
      fun depth hat hpositive _ => ?_⟩, hlabels, trivial, hlabels', trivial, hlabels''⟩
    · cases hnil
    · -- The variable is the one of the call when the eclass is done with, unless a call of the
      -- eclass has left a deeper one; and so it is after the eclasses that follow.
      have hat₁ := hentered.atDepth depth hat
      have hat₅ := hinside.atDepth depth hat₁
      have hexportVar := hinside.exportVar (hat₁.eclassDepth.symm ▸ hpositive)
      rw [hat₁.eclassDepth, hname depth hat] at hexportVar
      cases rest with
      | nil => rwa [hlater.unread rfl]
      | cons next rest => exact hlater.read depth hat₅ hpositive (List.cons_ne_nil _ _)

/-- The calls that return, in order, with the depth at which each is made. -/
def inheritCalls (l : List Happening) : List (List String × Int64) :=
  l.filterMap fun
    | .returned eclasses before _ => some (eclasses, before.eclassDepth)
    | _ => none

end Runs

end Libbash
