import Libbash.Interp.GlobalVariables
import Libbash.Interp.InheritRuns

/-!
# What `inherit` does to global variables

One lemma for each part of `exec`: the variables that it may change at all (`ChangesAmong`), and
the values of those that the rest of `exec` depends on.
-/

namespace Libbash

open Lib Lib.Comp Lib.Program

/-- Variables of the given names only may change, and none of them becomes a local one. -/
structure ChangesAmong (P : String → Prop) (s s' : Interpreter) : Prop where
  keeps : ∀ x, x.isEmpty = false → ¬P x → KeepsGlobal x s s'
  isGlobal : ∀ x, x.isEmpty = false → s.store.IsGlobal x → s'.store.IsGlobal x

section ChangesAmong

variable {P Q : String → Prop} {x name : String} {s s₁ s' : Interpreter}

theorem ChangesAmong.refl (P : String → Prop) (s : Interpreter) : ChangesAmong P s s :=
  ⟨fun x _ _ => .refl x s, fun _ _ hs => hs⟩

theorem ChangesAmong.trans (h : ChangesAmong P s s₁) (h' : ChangesAmong P s₁ s') :
    ChangesAmong P s s' where
  keeps x hx hP := (h.keeps x hx hP).trans (h'.keeps x hx hP)
  isGlobal x hx hs := h'.isGlobal x hx (h.isGlobal x hx hs)

theorem ChangesAmong.mono (h : ChangesAmong P s s') (hPQ : ∀ x, P x → Q x) :
    ChangesAmong Q s s' where
  keeps x hx hQ := h.keeps x hx fun hP => hQ (hPQ x hP)
  isGlobal := h.isGlobal

theorem ChangesAmong.value (h : ChangesAmong P s s') (hx : x.isEmpty = false) (hP : ¬P x)
    (hs : s.store.IsGlobal x) : s'.value x = s.value x := (h.keeps x hx hP).value hx hs

theorem WritesVariable.changesAmong (h : WritesVariable name s s') (hname : P name) :
    ChangesAmong P s s' where
  keeps x hx hP := h.keeps hx fun heq => hP (heq ▸ hname)
  isGlobal x hx hs := by
    by_cases heq : x = name
    · subst heq
      exact h.isGlobal hx hs
    · exact (h.keeps hx heq hs).1

end ChangesAmong

/-! ## The depth -/

/-- `resolve<long>("ECLASS_DEPTH")`, without the error of an unset variable. -/
def Interpreter.eclassDepth (s : Interpreter) : Int64 :=
  ((s.store.resolveVariable "ECLASS_DEPTH").map fun v => v.getValueLong 0).getD 0

/-- The value is a number that `inherit` has written. -/
def Interpreter.AtDepth (depth : Int64) (s : Interpreter) : Prop :=
  ∃ v, s.store.resolveVariable "ECLASS_DEPTH" = some v ∧ v.value[(0 : UInt32)]? = some (.num depth)

section Depth

variable {host : Host} {n d : Nat} {depth : Int64} {s s' : Interpreter}

theorem Interpreter.AtDepth.eclassDepth (h : s.AtDepth depth) : s.eclassDepth = depth := by
  obtain ⟨v, hv, hvalue⟩ := h
  rw [Interpreter.eclassDepth, hv, Option.map_some, Variable.getValueLong, hvalue]
  rfl

theorem Interpreter.AtDepth.value (h : s.AtDepth depth) :
    s.value "ECLASS_DEPTH" = toString depth.toInt := by
  obtain ⟨v, hv, hvalue⟩ := h
  rw [Interpreter.value, parameter_of_resolve hv, hvalue]
  rfl

theorem KeepsGlobal.atDepth (h : KeepsGlobal "ECLASS_DEPTH" s s')
    (hs : s.store.IsGlobal "ECLASS_DEPTH") (hdepth : s.AtDepth depth) : s'.AtDepth depth := by
  obtain ⟨v, hv, hvalue⟩ := hdepth
  exact ⟨v, (h.resolve rfl hs).trans hv, hvalue⟩

theorem KeepsGlobal.eclassDepth (h : KeepsGlobal "ECLASS_DEPTH" s s')
    (hs : s.store.IsGlobal "ECLASS_DEPTH") : s'.eclassDepth = s.eclassDepth := by
  unfold Interpreter.eclassDepth
  rw [h.resolve rfl hs]

end Depth

theorem value_of_resolve_none {s : Interpreter} {x : String}
    (h : s.store.resolveVariable x = none) : s.value x = "" := by
  rw [Interpreter.value, Store.parameter, h]
  rfl

theorem value_of_unset {s : Interpreter} {x : String} (hx : x.isEmpty = false)
    (hs : s.store.IsGlobal x) (h : s.store.members[x]? = none) : s.value x = "" := by
  apply value_of_resolve_none
  rw [resolve_global hx hs, h]

/-! ## A call -/

section Call

variable {host : Host} {n d : Nat} {peclass : String} {status : Int} {s s' : Interpreter}

theorem enterInherit_ok
    (h : runShell host n d Shell.enterInherit s = some (.ok peclass, s')) :
    WritesVariable "ECLASS_DEPTH" s s' ∧ s'.AtDepth (s.eclassDepth + 1) ∧
      peclass = s'.value "ECLASS" := by
  obtain ⟨depth, s₁, hdepth, h⟩ := bind_ok h
  obtain ⟨rfl, rfl⟩ := resolve_ok hdepth
  obtain ⟨⟨⟩, s₂, hset, h⟩ := bind_ok h
  obtain ⟨hwrites, hat⟩ := setValue_ok hset rfl
  obtain ⟨peclass', s₃, hpeclass, h⟩ := bind_ok h
  obtain ⟨rfl, rfl⟩ := resolveString_ok hpeclass
  obtain ⟨previous, s₄, hprevious, h⟩ := bind_ok h
  obtain ⟨rfl, -⟩ := resolveString_ok hprevious
  cases h
  exact ⟨hwrites, hat, rfl⟩

/-- The variables of the enclosing eclass: `ECLASS` is set again, and nothing is done for the
other one. -/
theorem leaveInherit_ok
    (h : runShell host n d (Shell.leaveInherit peclass) s = some (.ok status, s')) :
    ChangesAmong (· ∈ ["ECLASS_DEPTH", "ECLASS", "__export_funcs_var"]) s s' ∧
      (s.store.IsGlobal "ECLASS_DEPTH" → s'.AtDepth (s.eclassDepth - 1)) ∧
      (0 < s.eclassDepth - 1 → s'.value "ECLASS" = peclass ∧
        ChangesAmong (· ∈ ["ECLASS_DEPTH", "ECLASS"]) s s') ∧
      (¬0 < s.eclassDepth - 1 →
        (s.store.IsGlobal "ECLASS" → s'.store.resolveVariable "ECLASS" = none) ∧
        (s.store.IsGlobal "__export_funcs_var" →
          s'.store.resolveVariable "__export_funcs_var" = none)) := by
  obtain ⟨depth, s₁, hdepth, h⟩ := bind_ok h
  obtain ⟨rfl, rfl⟩ := resolve_ok hdepth
  obtain ⟨⟨⟩, s₂, hset, h⟩ := bind_ok h
  obtain ⟨hwrites, hat⟩ := setValue_ok hset rfl
  have hat₂ : s₂.AtDepth (s₁.eclassDepth - 1) := hat
  obtain ⟨depth, s₃, hdepth, h⟩ := bind_ok h
  obtain ⟨rfl, hdepth⟩ := resolve_ok hdepth
  obtain rfl : depth = s₁.eclassDepth - 1 := hdepth.trans hat₂.eclassDepth
  dsimp only at h
  by_cases hpositive : 0 < s₁.eclassDepth - 1
  · rw [if_pos hpositive] at h
    obtain ⟨⟨⟩, s₄, hrestore, h⟩ := bind_ok h
    obtain ⟨hrestores, v, hv, hvalue⟩ := setValue_ok hrestore rfl
    cases h
    have hchanges : ChangesAmong (· ∈ ["ECLASS_DEPTH", "ECLASS"]) s₁ s' :=
      (hwrites.changesAmong (by decide)).trans (hrestores.changesAmong (by decide))
    have hvalueOf : s'.value "ECLASS" = peclass := by
      rw [Interpreter.value, parameter_of_resolve hv, hvalue]
      rfl
    refine ⟨hchanges.mono (by grind), fun hs => ?_, fun _ => ⟨hvalueOf, hchanges⟩,
      fun hnot => absurd hpositive hnot⟩
    exact (hrestores.keeps rfl (by decide)).atDepth (hwrites.isGlobal rfl hs) hat₂
  · rw [if_neg hpositive] at h
    obtain ⟨⟨⟩, s₄, hfirst, h⟩ := bind_ok h
    obtain ⟨heclass, hunset⟩ := unset_ok hfirst
    obtain ⟨⟨⟩, s₅, hsecond, h⟩ := bind_ok h
    obtain ⟨hexport, hnone⟩ := unset_ok hsecond
    cases h
    have hchanges : ChangesAmong (· ∈ ["ECLASS_DEPTH", "ECLASS", "__export_funcs_var"]) s₁ s' :=
      ((hwrites.changesAmong (by decide)).trans (heclass.changesAmong (by decide))).trans
        (hexport.changesAmong (by decide))
    refine ⟨hchanges, fun hs => ?_, fun h => absurd h hpositive, fun _ => ⟨fun hs => ?_, fun hs => ?_⟩⟩
    · have hs₂ := hwrites.isGlobal rfl hs
      have hs₄ := (heclass.keeps (x := "ECLASS_DEPTH") rfl (by decide) hs₂).1
      exact (hexport.keeps rfl (by decide)).atDepth hs₄
        ((heclass.keeps rfl (by decide)).atDepth hs₂ hat₂)
    · have hs₂ := (hwrites.keeps (x := "ECLASS") rfl (by decide) hs).1
      have hs₄ := heclass.isGlobal rfl hs₂
      rw [(hexport.keeps rfl (by decide)).resolve rfl hs₄, resolve_global rfl hs₄]
      exact hunset hs₂
    · have hs₂ := (hwrites.keeps (x := "__export_funcs_var") rfl (by decide) hs).1
      have hs₄ := (heclass.keeps (x := "__export_funcs_var") rfl (by decide) hs₂).1
      rw [resolve_global rfl (hexport.isGlobal rfl hs₄)]
      exact hnone hs₄

end Call

/-! ## The loops over the five variables -/

/-- What an eclass adds to the variable of which it has left a value. -/
def Interpreter.contribution (s : Interpreter) (x : String) : String :=
  if s.value x = "" then "" else " " ++ s.value x

/-- The variable that collects the values of another one. -/
def collected (x : String) : String := "E_" ++ x

section Loops

variable {host : Host} {n d : Nat} {names backup : List String} {s s' : Interpreter}

theorem collected_nonempty (x : String) : (collected x).isEmpty = false := by
  rw [String.isEmpty_eq_false_iff]
  intro h
  have hlist := congrArg String.toList h
  rw [collected, String.toList_append] at hlist
  cases hlist

theorem collected_injective : Function.Injective collected := by
  intro x y h
  have hlist := congrArg String.toList h
  rw [collected, collected, String.toList_append, String.toList_append] at hlist
  exact String.toList_inj.mp (List.append_cancel_left hlist)

theorem value_of_set {x : String} {v : Variable} {new : Value}
    (hv : s.store.resolveVariable x = some v) (hvalue : v.value[(0 : UInt32)]? = some new) :
    s.value x = new.toStr := by
  rw [Interpreter.value, parameter_of_resolve hv, hvalue]
  rfl

theorem backupGlobals_ok (hnames : ∀ x ∈ names, x.isEmpty = false)
    (h : runShell host n d (Shell.backupGlobals names) s = some (.ok backup, s')) :
    ChangesAmong (· ∈ names) s s' ∧
      (names.Nodup → (∀ x ∈ names, s.store.IsGlobal x) →
        backup = names.map s.value ∧ ∀ x ∈ names, s'.value x = "") := by
  induction names generalizing s backup with
  | nil =>
    cases h
    exact ⟨.refl _ _, fun _ _ => ⟨rfl, fun _ hx => absurd hx List.not_mem_nil⟩⟩
  | cons name names ih =>
    obtain ⟨value, s₁, hfirst, h⟩ := bind_ok h
    obtain ⟨values, s₂, hrest, h⟩ := bind_ok h
    cases h
    obtain ⟨text, s₃, hresolve, hfirst⟩ := bind_ok hfirst
    obtain ⟨rfl, rfl⟩ := resolveString_ok hresolve
    obtain ⟨⟨⟩, s₄, hunset, hfirst⟩ := bind_ok hfirst
    cases hfirst
    obtain ⟨hwrites, hnone⟩ := unset_ok hunset
    obtain ⟨hname, hnames⟩ := List.forall_mem_cons.mp hnames
    obtain ⟨hchanges, hvalues⟩ := ih hnames hrest
    refine ⟨(hwrites.changesAmong List.mem_cons_self).trans
      (hchanges.mono fun _ hx => List.mem_cons_of_mem _ hx), fun hnodup hglobal => ?_⟩
    obtain ⟨hnot, hnodup⟩ := List.nodup_cons.mp hnodup
    obtain ⟨hs, hglobal⟩ := List.forall_mem_cons.mp hglobal
    have hne : ∀ x ∈ names, x ≠ name := fun x hx heq => hnot (heq ▸ hx)
    obtain ⟨rfl, hempty⟩ := hvalues hnodup fun x hx =>
      (hwrites.keeps (hnames x hx) (hne x hx) (hglobal x hx)).1
    refine ⟨?_, List.forall_mem_cons.mpr ⟨?_, hempty⟩⟩
    · rw [List.map_cons]
      congr 1
      exact List.map_congr_left fun x hx =>
        (hwrites.keeps (hnames x hx) (hne x hx)).value (hnames x hx) (hglobal x hx)
    · have hs₁ := hwrites.isGlobal hname hs
      rw [hchanges.value hname hnot hs₁]
      exact value_of_unset hname hs₁ (hnone hs)

theorem isUnsetOrNull_ok {x : String} {b : Bool}
    (h : runShell host n d (Shell.isUnsetOrNull x 0) s = some (.ok b, s')) :
    s' = s ∧ b = (s.value x == "") := by
  cases h
  refine ⟨rfl, ?_⟩
  dsimp only
  unfold Interpreter.value Store.parameter
  cases s.store.resolveVariable x with
  | none => rfl
  | some v =>
    rw [Option.map_some, Option.getD_some, Variable.isNull, getValueString_eq, Option.bind_some]

theorem appendGlobal_ok {x : String}
    (h : runShell host n d (Shell.appendGlobal x) s = some (.ok (), s')) :
    ChangesAmong (· = collected x) s s' ∧
      s'.value (collected x) = s.value (collected x) ++ s.contribution x := by
  obtain ⟨b, s₁, htest, h⟩ := bind_ok h
  obtain ⟨rfl, rfl⟩ := isUnsetOrNull_ok htest
  dsimp only at h
  unfold Interpreter.contribution
  by_cases hempty : s₁.value x = ""
  · rw [if_pos (beq_iff_eq.mpr hempty)] at h
    cases h
    rw [if_pos hempty, String.append_empty]
    exact ⟨.refl _ _, rfl⟩
  · rw [if_neg (by rwa [beq_iff_eq])] at h
    obtain ⟨old, s₂, hold, h⟩ := bind_ok h
    obtain ⟨rfl, rfl⟩ := resolveString_ok hold
    obtain ⟨value, s₃, hvalue, h⟩ := bind_ok h
    obtain ⟨rfl, rfl⟩ := resolveString_ok hvalue
    obtain ⟨hwrites, v, hv, hset⟩ := setValue_ok h (collected_nonempty x)
    refine ⟨hwrites.changesAmong rfl, ?_⟩
    rw [if_neg hempty, ← String.append_assoc]
    exact value_of_set hv hset

/-- The values are added to those that have been collected. -/
theorem appendGlobals_ok (hapart : ∀ x ∈ names, ∀ y ∈ names, x ≠ collected y)
    (hnames : ∀ x ∈ names, x.isEmpty = false)
    (h : runShell host n d (Shell.appendGlobals names) s = some (.ok (), s')) :
    ChangesAmong (· ∈ names.map collected) s s' ∧
      (names.Nodup → (∀ x ∈ names, s.store.IsGlobal x ∧ s.store.IsGlobal (collected x)) →
        ∀ x ∈ names, s'.value (collected x) = s.value (collected x) ++ s.contribution x) := by
  induction names generalizing s with
  | nil =>
    cases h
    exact ⟨.refl _ _, fun _ _ _ hx => absurd hx List.not_mem_nil⟩
  | cons name names ih =>
    obtain ⟨⟨⟩, s₁, hfirst, hrest⟩ := bind_ok h
    obtain ⟨hchanges, hvalue⟩ := appendGlobal_ok hfirst
    obtain ⟨hname, hnames⟩ := List.forall_mem_cons.mp hnames
    obtain ⟨hlater, hvalues⟩ := ih
      (fun x hx y hy => hapart x (List.mem_cons_of_mem _ hx) y (List.mem_cons_of_mem _ hy))
      hnames hrest
    refine ⟨(hchanges.mono ?_).trans (hlater.mono fun _ hx => List.mem_cons_of_mem _ hx),
      fun hnodup hglobal => ?_⟩
    · rintro x rfl
      exact List.mem_cons_self
    obtain ⟨hnot, hnodup⟩ := List.nodup_cons.mp hnodup
    obtain ⟨⟨-, hs⟩, hglobal⟩ := List.forall_mem_cons.mp hglobal
    refine List.forall_mem_cons.mpr ⟨?_, fun x hx => ?_⟩
    · have hcollected : collected name ∉ names.map collected := fun hmem =>
        hnot ((List.mem_map_of_injective collected_injective).mp hmem)
      rw [hlater.value (collected_nonempty name) hcollected
        (hchanges.isGlobal _ (collected_nonempty name) hs), hvalue]
    · obtain ⟨hsx, hsc⟩ := hglobal x hx
      have hne : collected x ≠ collected name := fun heq =>
        hnot (collected_injective heq ▸ hx)
      have hxne : x ≠ collected name := hapart x (List.mem_cons_of_mem _ hx) name List.mem_cons_self
      rw [hvalues hnodup (fun y hy => ⟨hchanges.isGlobal y (hnames y hy) (hglobal y hy).1,
          hchanges.isGlobal _ (collected_nonempty y) (hglobal y hy).2⟩) x hx,
        hchanges.value (collected_nonempty x) hne hsc]
      unfold Interpreter.contribution
      rw [hchanges.value (hnames x hx) hxne hsx]

theorem restoreGlobals_ok {pairs : List (String × String)}
    (hnames : ∀ p ∈ pairs, p.1.isEmpty = false)
    (h : runShell host n d (Shell.restoreGlobals pairs) s = some (.ok (), s')) :
    ChangesAmong (· ∈ pairs.map Prod.fst) s s' ∧
      ((pairs.map Prod.fst).Nodup → (∀ p ∈ pairs, s.store.IsGlobal p.1) →
        ∀ p ∈ pairs, s'.value p.1 = p.2) := by
  induction pairs generalizing s with
  | nil =>
    cases h
    exact ⟨.refl _ _, fun _ _ _ hp => absurd hp List.not_mem_nil⟩
  | cons pair pairs ih =>
    obtain ⟨name, value⟩ := pair
    obtain ⟨⟨⟩, s₁, hfirst, hrest⟩ := bind_ok h
    obtain ⟨hname, hnames⟩ := List.forall_mem_cons.mp hnames
    obtain ⟨hlater, hvalues⟩ := ih hnames hrest
    have hstep : WritesVariable name s s₁ ∧ (s.store.IsGlobal name → s₁.value name = value) := by
      unfold Shell.restoreGlobal at hfirst
      by_cases hempty : value ≠ ""
      · rw [if_pos hempty] at hfirst
        obtain ⟨hwrites, v, hv, hset⟩ := setValue_ok hfirst hname
        exact ⟨hwrites, fun _ => value_of_set hv hset⟩
      · rw [if_neg hempty] at hfirst
        obtain ⟨hwrites, hnone⟩ := unset_ok hfirst
        refine ⟨hwrites, fun hs => ?_⟩
        rw [value_of_unset hname (hwrites.isGlobal hname hs) (hnone hs), not_not.mp hempty]
    obtain ⟨hwrites, hvalue⟩ := hstep
    refine ⟨(hwrites.changesAmong List.mem_cons_self).trans
      (hlater.mono fun _ hx => List.mem_cons_of_mem _ hx), fun hnodup hglobal => ?_⟩
    obtain ⟨hnot, hnodup⟩ := List.nodup_cons.mp hnodup
    obtain ⟨hs, hglobal⟩ := List.forall_mem_cons.mp hglobal
    refine List.forall_mem_cons.mpr ⟨?_, hvalues hnodup fun p hp => ?_⟩
    · rw [hlater.value hname hnot (hwrites.isGlobal hname hs)]
      exact hvalue hs
    · have hne : p.1 ≠ name := by
        rintro rfl
        exact hnot (show p.1 ∈ pairs.map Prod.fst from List.mem_map_of_mem hp)
      exact (hwrites.keeps (hnames p hp) hne (hglobal p hp)).1

end Loops

/-! ## An eclass -/

/-- The variable that lists what the eclasses of a depth export. -/
def exportName (depth : String) : String := "__export_functions_" ++ depth

/-- What becomes of `INHERITED` when `inherit` is done with an eclass. -/
def recorded (inherited eclass : String) : String :=
  if Shell.hasSubstring eclass.toList inherited.toList then inherited
  else inherited ++ " " ++ eclass

section Eclass

variable {host : Host} {n d : Nat} {eclass : String} {backup : List String} {s s' : Interpreter}

theorem exportName_ne {x : String} (depth : String)
    (h : "__export_functions_".toList.isPrefixOf x.toList = false) : exportName depth ≠ x := by
  intro heq
  have hbegin := List.isPrefixOf_iff_prefix.mpr
    (List.prefix_append "__export_functions_".toList depth.toList)
  rw [← String.toList_append, show "__export_functions_" ++ depth = x from heq, h] at hbegin
  cases hbegin

theorem inheritedGlobals_nonempty : ∀ x ∈ Shell.inheritedGlobals, x.isEmpty = false := by
  decide +kernel

theorem inheritedGlobals_nodup : Shell.inheritedGlobals.Nodup := by decide

theorem inheritedGlobals_ne_collected :
    ∀ x ∈ Shell.inheritedGlobals, ∀ y ∈ Shell.inheritedGlobals, x ≠ collected y := by
  decide +kernel

theorem exportName_ne_inherited (depth : String) :
    ∀ x ∈ Shell.inheritedGlobals, x ≠ exportName depth := by
  have hbegin : ∀ x ∈ Shell.inheritedGlobals,
      "__export_functions_".toList.isPrefixOf x.toList = false := by decide
  exact fun x hx => (exportName_ne depth (hbegin x hx)).symm

theorem unsetExported_ok (h : runShell host n d Shell.unsetExported s = some (.ok (), s')) :
    WritesVariable (s.value "__export_funcs_var") s s' := by
  obtain ⟨var, s₁, hvar, h⟩ := bind_ok h
  obtain ⟨rfl, rfl⟩ := resolveString_ok hvar
  exact (unset_ok h).1

/-- The variables of the loop are set, and those of the caller are put away. -/
theorem enterEclass_ok
    (h : runShell host n d (Shell.enterEclass eclass) s = some (.ok backup, s')) :
    ∃ depth, (s.store.IsGlobal "ECLASS_DEPTH" → depth = s.value "ECLASS_DEPTH") ∧
      (s.store.IsGlobal "__export_funcs_var" →
        ChangesAmong (fun x => x ∈ "ECLASS" :: "__export_funcs_var" :: Shell.inheritedGlobals ∨
          x = exportName depth) s s' ∧
        s'.value "__export_funcs_var" = exportName depth ∧
        ((∀ x ∈ Shell.inheritedGlobals, s.store.IsGlobal x) →
          backup = Shell.inheritedGlobals.map s.value ∧
            ∀ x ∈ Shell.inheritedGlobals, s'.value x = "")) := by
  obtain ⟨⟨⟩, s₁, hset, h⟩ := bind_ok h
  have hecl := (setValue_ok hset rfl).1
  obtain ⟨depth, s₂, hdepth, h⟩ := bind_ok h
  obtain ⟨rfl, rfl⟩ := resolveString_ok hdepth
  obtain ⟨⟨⟩, s₃, hdefine, h⟩ := bind_ok h
  obtain ⟨hvar, hdefined⟩ := define_ok hdefine
  obtain ⟨⟨⟩, s₄, hunset, hbackup⟩ := bind_ok h
  have hexported := unsetExported_ok hunset
  obtain ⟨hbackups, hvalues⟩ := backupGlobals_ok inheritedGlobals_nonempty hbackup
  refine ⟨s₂.value "ECLASS_DEPTH", fun hs => (hecl.keeps rfl (by decide)).value rfl hs,
    fun hs => ?_⟩
  let mayChange (x : String) : Prop :=
    x ∈ "ECLASS" :: "__export_funcs_var" :: Shell.inheritedGlobals ∨
      x = exportName (s₂.value "ECLASS_DEPTH")
  -- The variable that is unset is the one that has just been named.
  have hs₃ : s₃.store.IsGlobal "__export_funcs_var" :=
    hvar.isGlobal rfl (hecl.keeps rfl (by decide) hs).1
  have hname : s₃.value "__export_funcs_var" = exportName (s₂.value "ECLASS_DEPTH") :=
    value_of_set ((resolve_global rfl hs₃).trans hdefined) Std.ExtTreeMap.getElem?_insert_self
  rw [hname] at hexported
  have hbefore : ChangesAmong mayChange s s₄ :=
    ((hecl.changesAmong (.inl List.mem_cons_self)).trans
      (hvar.changesAmong (.inl (List.mem_cons_of_mem _ List.mem_cons_self)))).trans
        (hexported.changesAmong (.inr rfl))
  have hafter : ChangesAmong mayChange s₄ s' := hbackups.mono fun x hx =>
    .inl (List.mem_cons_of_mem _ (List.mem_cons_of_mem _ hx))
  have hkept : ¬"__export_funcs_var" = exportName (s₂.value "ECLASS_DEPTH") :=
    (exportName_ne _ (by decide)).symm
  refine ⟨hbefore.trans hafter, ?_, fun hglobal => ?_⟩
  · have hs₄ := (hexported.keeps rfl hkept hs₃).1
    rw [hbackups.value rfl (by decide) hs₄, (hexported.keeps rfl hkept).value rfl hs₃, hname]
  · have hfive : ∀ x ∈ Shell.inheritedGlobals, KeepsGlobal x s s₄ := by
      intro x hx
      have hx' := inheritedGlobals_nonempty x hx
      have hecl' : x ≠ "ECLASS" := by rintro rfl; exact absurd hx (by decide)
      have hvar' : x ≠ "__export_funcs_var" := by rintro rfl; exact absurd hx (by decide)
      exact ((hecl.keeps hx' hecl').trans (hvar.keeps hx' hvar')).trans
        (hexported.keeps hx' (exportName_ne_inherited _ x hx))
    obtain ⟨rfl, hempty⟩ := hvalues inheritedGlobals_nodup fun x hx => (hfive x hx (hglobal x hx)).1
    exact ⟨List.map_congr_left fun x hx =>
      (hfive x hx).value (inheritedGlobals_nonempty x hx) (hglobal x hx), hempty⟩

/-- What has been collected, and the values that have been put away. -/
theorem collectGlobals_ok
    (h : runShell host n d (Shell.collectGlobals backup) s = some (.ok (), s')) :
    ChangesAmong (fun x => x ∈ Shell.inheritedGlobals ∨ x ∈ Shell.inheritedGlobals.map collected)
      s s' ∧
      ((∀ x ∈ Shell.inheritedGlobals, s.store.IsGlobal x ∧ s.store.IsGlobal (collected x)) →
        (∀ x ∈ Shell.inheritedGlobals,
          s'.value (collected x) = s.value (collected x) ++ s.contribution x) ∧
        (backup.length = Shell.inheritedGlobals.length →
          Shell.inheritedGlobals.map s'.value = backup)) := by
  obtain ⟨⟨⟩, s₁, happend, hrestore⟩ := bind_ok h
  obtain ⟨hcollects, hcollected⟩ :=
    appendGlobals_ok inheritedGlobals_ne_collected inheritedGlobals_nonempty happend
  have hkeys : ∀ x ∈ (Shell.inheritedGlobals.zip backup).map Prod.fst,
      x ∈ Shell.inheritedGlobals := by
    intro x hx
    obtain ⟨⟨y, value⟩, hmem, rfl⟩ := List.mem_map.mp hx
    exact (List.of_mem_zip hmem).1
  obtain ⟨hrestores, hrestored⟩ := restoreGlobals_ok
    (fun p hp => inheritedGlobals_nonempty _ (hkeys _ (List.mem_map_of_mem hp))) hrestore
  refine ⟨(hcollects.mono fun _ => .inr).trans (hrestores.mono fun x hx => .inl (hkeys x hx)),
    fun hglobal => ⟨fun x hx => ?_, fun hlength => ?_⟩⟩
  · have hnot : collected x ∉ (Shell.inheritedGlobals.zip backup).map Prod.fst := fun hmem =>
      inheritedGlobals_ne_collected _ (hkeys _ hmem) x hx rfl
    rw [hrestores.value (collected_nonempty x) hnot
      (hcollects.isGlobal _ (collected_nonempty x) (hglobal x hx).2)]
    exact hcollected inheritedGlobals_nodup hglobal x hx
  · have hfst : (Shell.inheritedGlobals.zip backup).map Prod.fst = Shell.inheritedGlobals :=
      List.map_fst_zip (Nat.le_of_eq hlength.symm)
    have hsnd : (Shell.inheritedGlobals.zip backup).map Prod.snd = backup :=
      List.map_snd_zip (Nat.le_of_eq hlength)
    have hvalues := hrestored (hfst.symm ▸ inheritedGlobals_nodup) fun p hp => by
      have hx := hkeys _ (List.mem_map_of_mem hp)
      exact hcollects.isGlobal _ (inheritedGlobals_nonempty _ hx) (hglobal _ hx).1
    calc Shell.inheritedGlobals.map s'.value
        = ((Shell.inheritedGlobals.zip backup).map Prod.fst).map s'.value := by rw [hfst]
      _ = (Shell.inheritedGlobals.zip backup).map fun p => s'.value p.1 := List.map_map
      _ = (Shell.inheritedGlobals.zip backup).map Prod.snd := List.map_congr_left hvalues
      _ = backup := hsnd

theorem recordEclass_ok
    (h : runShell host n d (Shell.recordEclass eclass) s = some (.ok (), s')) :
    ChangesAmong (fun x => x = "INHERITED" ∨ x = s.value "__export_funcs_var") s s' ∧
      (s.store.IsGlobal "INHERITED" → s.value "__export_funcs_var" ≠ "INHERITED" →
        s'.value "INHERITED" = recorded (s.value "INHERITED") eclass) := by
  obtain ⟨⟨⟩, s₁, hunset, h⟩ := bind_ok h
  have hexported := unsetExported_ok hunset
  obtain ⟨b, s₂, htest, h⟩ := bind_ok h
  obtain ⟨target, s₃, htarget, htest⟩ := bind_ok htest
  obtain ⟨rfl, rfl⟩ := resolveString_ok htarget
  cases htest
  dsimp only at h
  have hname : ∀ x, x = s.value "__export_funcs_var" → x = "INHERITED" ∨
      x = s.value "__export_funcs_var" := fun _ => .inr
  unfold recorded
  split_ifs at h with hmember
  · cases h
    refine ⟨(hexported.changesAmong (hname _ rfl)), fun hs hne => ?_⟩
    have hsame := (hexported.keeps rfl (Ne.symm hne)).value rfl hs
    rw [← hsame, if_pos hmember]
  · obtain ⟨inherited, s₄, hinherited, h⟩ := bind_ok h
    obtain ⟨rfl, rfl⟩ := resolveString_ok hinherited
    obtain ⟨hwrites, v, hv, hset⟩ := setValue_ok h rfl
    refine ⟨(hexported.changesAmong (hname _ rfl)).trans (hwrites.changesAmong (.inl rfl)),
      fun hs hne => ?_⟩
    have hsame := (hexported.keeps rfl (Ne.symm hne)).value rfl hs
    rw [← hsame, if_neg hmember]
    exact value_of_set hv hset

end Eclass

/-! ## The variable that names the export variable -/

/-- `__export_funcs_var` is global, and unset or what `inherit` has set it to. -/
structure Interpreter.Exporting (s : Interpreter) : Prop where
  isGlobal : s.store.IsGlobal "__export_funcs_var"
  names : s.value "__export_funcs_var" = "" ∨
    ∃ depth, s.value "__export_funcs_var" = exportName depth

/-- Nothing but `inherit` writes these variables, and no call of it raises an error. -/
def Happening.Spares (P : String → Prop) : Happening → Prop
  | .wrote _ name _ => ¬P name
  | .raised => False
  | _ => True

instance (P : String → Prop) [DecidablePred P] : DecidablePred (Happening.Spares P)
  | .wrote _ name _ => inferInstanceAs (Decidable ¬P name)
  | .raised => .isFalse id
  | .ended _ _ | .completed _ | .returned _ _ _ => .isTrue trivial

section Exporting

variable {host : Host} {n d : Nat} {eclass peclass : String} {backup : List String} {status : Int}
  {P Q : String → Prop} {s s' : Interpreter}

theorem Happening.Spares.mono {happening : Happening} (h : happening.Spares Q)
    (hPQ : ∀ x, P x → Q x) : happening.Spares P := by
  cases happening with
  | wrote exporting name level => exact fun hname => h (hPQ name hname)
  | raised => exact h
  | ended eclass s => trivial
  | completed eclass => trivial
  | returned eclasses before after => trivial

@[simp] theorem spares_exported {happening : Happening} :
    happening.exported.Spares P ↔ happening.Spares P := by
  cases happening <;> rfl

namespace Interpreter.Exporting

/-- The export variable is no variable of another name. -/
theorem ne (h : s.Exporting) {x : String} (hx : x.isEmpty = false)
    (hbegin : "__export_functions_".toList.isPrefixOf x.toList = false) :
    s.value "__export_funcs_var" ≠ x := by
  rcases h.names with hempty | ⟨depth, hname⟩
  · rw [hempty]
    rintro rfl
    cases hx
  · rw [hname]
    exact exportName_ne depth hbegin

theorem of_keeps (h : s.Exporting) (hkeeps : KeepsGlobal "__export_funcs_var" s s') :
    s'.Exporting := by
  refine ⟨(hkeeps h.isGlobal).1, ?_⟩
  rw [hkeeps.value rfl h.isGlobal]
  exact h.names

theorem enterInherit (hs : s.Exporting)
    (h : runShell host n d Shell.enterInherit s = some (.ok peclass, s')) : s'.Exporting :=
  hs.of_keeps ((enterInherit_ok h).1.keeps rfl (by decide))

theorem leaveInherit (hs : s.Exporting)
    (h : runShell host n d (Shell.leaveInherit peclass) s = some (.ok status, s')) :
    s'.Exporting := by
  obtain ⟨hchanges, -, hinside, houtside⟩ := leaveInherit_ok h
  by_cases hdepth : 0 < s.eclassDepth - 1
  · exact hs.of_keeps ((hinside hdepth).2.keeps _ rfl (by decide))
  · have hunset := (houtside hdepth).2 hs.isGlobal
    exact ⟨hchanges.isGlobal _ rfl hs.isGlobal, .inl (value_of_resolve_none hunset)⟩

theorem enterEclass (hs : s.store.IsGlobal "__export_funcs_var")
    (h : runShell host n d (Shell.enterEclass eclass) s = some (.ok backup, s')) :
    s'.Exporting := by
  obtain ⟨depth, -, hafter⟩ := enterEclass_ok h
  obtain ⟨hchanges, hname, -⟩ := hafter hs
  exact ⟨hchanges.isGlobal _ rfl hs, .inr ⟨depth, hname⟩⟩

theorem collectGlobals (hs : s.Exporting)
    (h : runShell host n d (Shell.collectGlobals backup) s = some (.ok (), s')) :
    s'.Exporting :=
  hs.of_keeps ((collectGlobals_ok h).1.keeps _ rfl (by decide +kernel))

theorem recordEclass (hs : s.Exporting)
    (h : runShell host n d (Shell.recordEclass eclass) s = some (.ok (), s')) : s'.Exporting := by
  refine hs.of_keeps ((recordEclass_ok h).1.keeps _ rfl ?_)
  rintro (hname | hname)
  · exact absurd hname (by decide)
  · exact hs.ne rfl (by decide) hname.symm

end Interpreter.Exporting

end Exporting

end Libbash
