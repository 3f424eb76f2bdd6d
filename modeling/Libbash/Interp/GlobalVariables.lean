import Libbash.Interp.Reads

/-!
# Global variables

A name that no frame binds means its entry in `members`. A step of the store that writes another
name leaves that entry as it is (`KeepsGlobal`), and so do the frames that come and go; what the
operations do to the entry of the name itself is said by `setValue_ok`, `unset_ok` and
`define_ok`.
-/

namespace Libbash

open Lib Lib.Comp Lib.Program

section Resolve

variable {host : Host} {n d : Nat} {x name : String} {index : UInt32} {s s' : Interpreter}

theorem resolve_global {t : Store} (hx : x.isEmpty = false) (h : t.IsGlobal x) :
    t.resolveVariable x = t.members[x]? := by
  unfold Store.resolveVariable
  rw [hx, if_neg Bool.false_ne_true, resolveLocal_eq_none_iff.mpr h]

/-- What is resolved when no error is raised. -/
theorem resolve_ok {α : Type} {get : Variable → UInt32 → α} {default a : α}
    (h : runShell host n d (Shell.resolve get default name index) s = some (.ok a, s')) :
    s' = s ∧ a = ((s.store.resolveVariable name).map fun v => get v index).getD default := by
  have hresolve : performOp host (reentry host n d) (.resolveVariable name) s =
      some (.ok (s.store.resolveVariable name), s) := by
    rw [performOp, reads_apply]
  rw [Shell.resolve, runShell_bind, runShell_perform, bind_of_ok hresolve] at h
  cases hv : s.store.resolveVariable name with
  | none =>
    rw [hv] at h
    have hvalid : (runShell host n d (Shell.isValid none name) >>= fun _ => pure default) s =
        if s.nounset then some (.error (.error .unsupported (name ++ ": unbound variable")), s)
        else some (.ok default, s) := bind_isValid_none fun _ => pure default
    cases hu : s.nounset with
    | true =>
      rw [hu, if_pos rfl] at hvalid
      cases h.symm.trans hvalid
    | false =>
      rw [hu, if_neg Bool.false_ne_true] at hvalid
      cases h.symm.trans hvalid
      exact ⟨rfl, rfl⟩
  | some v =>
    rw [hv] at h
    simp only [runShell_bind, runShell_perform] at h
    rw [bind_of_ok performOp_getOption_u] at h
    cases hunset : s.nounset && v.isUnset index with
    | true =>
      rw [hunset] at h
      cases h
    | false =>
      rw [hunset] at h
      cases h
      exact ⟨rfl, rfl⟩

theorem resolveString_ok {text : String}
    (h : runShell host n d (Shell.resolveString name 0) s = some (.ok text, s')) :
    s' = s ∧ text = s.value name := by
  obtain ⟨rfl, rfl⟩ := resolve_ok h
  refine ⟨rfl, ?_⟩
  unfold Interpreter.value Store.parameter
  cases s'.store.resolveVariable name with
  | none => rfl
  | some v => exact getValueString_eq v 0

end Resolve

/-! ## Other names -/

/-- A global variable stays what it is. -/
def KeepsGlobal (x : String) (s s' : Interpreter) : Prop :=
  s.store.IsGlobal x → s'.store.IsGlobal x ∧ s'.store.members[x]? = s.store.members[x]?

section Keeps

variable {x name : String} {s s₁ s' : Interpreter}

theorem KeepsGlobal.refl (x : String) (s : Interpreter) : KeepsGlobal x s s := fun h => ⟨h, rfl⟩

theorem KeepsGlobal.trans (h : KeepsGlobal x s s₁) (h' : KeepsGlobal x s₁ s') :
    KeepsGlobal x s s' := by
  intro hs
  obtain ⟨hs₁, heq⟩ := h hs
  obtain ⟨hs', heq'⟩ := h' hs₁
  exact ⟨hs', heq'.trans heq⟩

theorem keepsGlobal_of_sameStore (h : s'.store = s.store) : KeepsGlobal x s s' := by
  intro hs
  rw [h]
  exact ⟨hs, rfl⟩

theorem keepsGlobal_push (x : String) (s : Interpreter) :
    KeepsGlobal x s (acquire .localScope s) := fun hs =>
  ⟨List.forall_mem_cons.mpr ⟨Std.ExtTreeMap.getElem?_empty, hs⟩, rfl⟩

theorem keepsGlobal_pop (x : String) (s s' : Interpreter) :
    KeepsGlobal x s' (release .localScope s s') := fun hs =>
  ⟨fun frame hframe => hs frame (List.mem_of_mem_tail hframe), rfl⟩

theorem keepsGlobal_of_step {how : Write} {level : Nat} (hx : x.isEmpty = false)
    (h : StoreStep how name level s.store s'.store) (hne : x ≠ name) : KeepsGlobal x s s' := by
  intro hs
  refine ⟨isGlobal_of_only hx h.only (fun heq => absurd heq.symm hne) hs, ?_⟩
  rw [← valueAt_zero, ← valueAt_zero]
  exact h.only.others x 0 (.inl hne)

theorem KeepsGlobal.resolve (h : KeepsGlobal x s s') (hx : x.isEmpty = false)
    (hs : s.store.IsGlobal x) : s'.store.resolveVariable x = s.store.resolveVariable x := by
  obtain ⟨hs', heq⟩ := h hs
  rw [resolve_global hx hs', resolve_global hx hs, heq]

theorem KeepsGlobal.value (h : KeepsGlobal x s s') (hx : x.isEmpty = false)
    (hs : s.store.IsGlobal x) : s'.value x = s.value x := by
  unfold Interpreter.value Store.parameter
  rw [h.resolve hx hs]

end Keeps

/-! ## The operations -/

/-- One step that writes the variable, on the global level when no frame binds it. -/
def WritesVariable (name : String) (s s' : Interpreter) : Prop :=
  ∃ how level, StoreStep how name level s.store s'.store ∧ (s.store.IsGlobal name → level = 0)

section Operations

variable {host : Host} {n d : Nat} {x name : String} {s s' : Interpreter}

theorem WritesVariable.keeps (h : WritesVariable name s s') (hx : x.isEmpty = false)
    (hne : x ≠ name) : KeepsGlobal x s s' := by
  obtain ⟨how, level, hstep, -⟩ := h
  exact keepsGlobal_of_step hx hstep hne

theorem WritesVariable.isGlobal (h : WritesVariable name s s') (hname : name.isEmpty = false)
    (hs : s.store.IsGlobal name) : s'.store.IsGlobal name := by
  obtain ⟨how, level, hstep, hlevel⟩ := h
  exact isGlobal_of_only hname hstep.only (fun _ => hlevel hs) hs

theorem setValue_ok {new : Value}
    (h : runShell host n d (perform (.setValue name new 0)) s = some (.ok (), s'))
    (hname : name.isEmpty = false) :
    WritesVariable name s s' ∧
      ∃ v, s'.store.resolveVariable name = some v ∧ v.value[(0 : UInt32)]? = some new := by
  rw [runShell_perform, performOp, reads_bind_apply] at h
  have hstore := writing_store h
  have hstep := storeStep_setValue new 0 hstore
  refine ⟨⟨_, _, hstep, fun hs => (isGlobal_iff_level hname).mp hs⟩, ?_⟩
  cases hv : s.store.resolveVariable name with
  | none =>
    unfold Libbash.setValue at hstore
    rw [reads_bind_apply] at hstore
    simp only [id_eq, hv] at hstore
    have hglobal : s.store.IsGlobal name :=
      (isGlobal_iff_level hname).mpr (level_of_resolve_none hv)
    have hdefined : _ = s'.store := congrArg Prod.snd (Option.some.inj hstore)
    rw [← hdefined]
    exact ⟨_, resolve_define hname hglobal _, Std.ExtTreeMap.getElem?_insert_self⟩
  | some v =>
    rw [Arith.setValue_run hv] at hstore
    split_ifs at hstore with hro
    · cases hstore
    · have hassigned : _ = s'.store := congrArg Prod.snd (Option.some.inj hstore)
      rw [← hassigned]
      exact ⟨_, Arith.resolveVariable_assign hv _, Std.ExtTreeMap.getElem?_insert_self⟩

theorem frameBindings_of_isGlobal {t : Store} (h : t.IsGlobal name) :
    frameBindings name t.localMembers = [] := by
  have hlocal := resolveLocal_eq_none_iff.mpr h
  rw [resolveLocal_eq, Option.map_eq_none_iff] at hlocal
  exact List.head?_eq_none_iff.mp hlocal

/-- The removal of a global variable. -/
theorem unset_global {t t' : Store} (hglobal : t.IsGlobal name)
    (h : Libbash.unset name t = some (.ok (), t')) :
    t.bindings.level name = 0 ∧ t'.members[name]? = none := by
  have hb := frameBindings_of_isGlobal hglobal
  have hn := noneOf_unsetter name t.localMembers
  rw [hb] at hn
  simp only at hn
  constructor
  · unfold Bindings.level
    rw [stack_bindings, hb, List.nil_append]
    cases hg : globalBinding name t.members with
    | nil => rfl
    | cons e rest => exact globalBinding_level (e := e) (hg ▸ List.mem_cons_self)
  · unfold Libbash.unset at h
    rcases bind_cases h with ⟨⟨⟩, t₁, hcheck, hrest⟩ | ⟨e, -, he⟩
    · obtain rfl := checkUnsetPositional_ok hcheck
      rcases bind_cases hrest with ⟨none, t₂, hframes, hmembers⟩ | ⟨e, -, he⟩
      · simp only [zoom, hn] at hframes
        cases hframes
        rw [if_pos rfl] at hmembers
        rcases bind_cases hmembers with ⟨r, t₃, herase, hend⟩ | ⟨e, -, he⟩
        · cases hend
          simp only [zoom, unsetter_eq] at herase
          cases hm : t₁.members[name]? with
          | none =>
            simp only [hm] at herase
            cases herase
            exact hm
          | some v =>
            simp only [hm] at herase
            split_ifs at herase
            · cases herase
            · cases herase
              exact Std.ExtTreeMap.getElem?_erase_self
        · cases he
      · cases he
    · cases he

theorem unset_ok (h : runShell host n d (perform (.unset name)) s = some (.ok (), s')) :
    WritesVariable name s s' ∧
      (s.store.IsGlobal name → s'.store.members[name]? = none) := by
  rw [runShell_perform, performOp] at h
  have hstore := writing_store h
  exact ⟨⟨_, _, storeStep_unset hstore, fun hs => (unset_global hs hstore).1⟩,
    fun hs => (unset_global hs hstore).2⟩

theorem define_ok {name : GlobalName} {init : Initial} {readonly : Bool}
    (h : runShell host n d (perform (.define name init readonly)) s = some (.ok (), s')) :
    WritesVariable name.text s s' ∧
      s'.store.members[name.text]? = some (.new name.text init readonly) := by
  rw [runShell_perform, performOp] at h
  have hstore := writing_store h
  have hstep := storeStep_define init readonly (fun hstar => absurd hstar name.notPositional) hstore
  refine ⟨⟨_, _, hstep, fun _ => rfl⟩, ?_⟩
  have hdefined : _ = s'.store := congrArg Prod.snd (Option.some.inj hstore)
  rw [← hdefined]
  exact Std.ExtTreeMap.getElem?_insert_self

end Operations

end Libbash
