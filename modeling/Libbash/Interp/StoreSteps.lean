import Libbash.Interp.State

/-!
# What the operations write

Every operation of the store that succeeds changes one name at one level
(`StoreStep`): the level of the innermost binding for an update or a removal,
the global level or the top frame for a definition. Only a definition writes a
readonly variable, and nothing writes the positional parameters below the
innermost ones.
-/

namespace Libbash

open Lib Lib.Comp

/-- The depth and the value of a binding, read off the store. -/
abbrev Store.valueAt (t : Store) (name : String) (level : Nat) : Option Variable :=
  t.bindings.valueAt name level

structure StoreStep (how : Write) (name : String) (level : Nat) (t t' : Store) : Prop where
  only : Bindings.ChangesOnly t.bindings t'.bindings name level
  level_le : level ≤ t.localMembers.length
  readonly : how ≠ .define → ∀ v, t.valueAt name level = some v → v.readonly = true →
    t'.valueAt name level = some v
  kept : how ≠ .erase → ∀ v, t.valueAt name level = some v → ∃ v', t'.valueAt name level = some v'
  positional : name = "*" → t.bindings.level "*" ≤ level

section Steps

variable {t t' : Store} {name : String}

theorem StoreStep.depth {how : Write} {level : Nat} (h : StoreStep how name level t t') :
    t'.localMembers.length = t.localMembers.length := h.only.depth

theorem resolve_of_nonempty (h : name.isEmpty = false) :
    t.resolveVariable name = t.bindings.resolve name := resolveVariable_eq t h

/-- An empty frame hides nothing. -/
theorem resolveVariable_push (t : Store) (x : String) :
    Store.resolveVariable { t with localMembers := ∅ :: t.localMembers } x = t.resolveVariable x := by
  unfold Store.resolveVariable
  rw [resolveLocal, Std.ExtTreeMap.getElem?_empty]

theorem level_of_nonempty (h : name.isEmpty = false) : t.level name = t.bindings.level name := by
  unfold Store.level
  rw [h]
  rfl

theorem bindings_level_of_resolve_none (h : t.bindings.resolve name = none) :
    t.bindings.level name = 0 := by
  unfold Bindings.level
  rw [(Bindings.resolve_eq_none _ _).mp h]
  rfl

theorem level_of_resolve_none (h : t.resolveVariable name = none) : t.level name = 0 := by
  unfold Store.level
  cases hname : name.isEmpty with
  | true => rfl
  | false =>
    rw [resolve_of_nonempty hname] at h
    exact bindings_level_of_resolve_none h

/-- A variable is found at its level. -/
theorem valueAt_of_resolve {v : Variable} (h : t.resolveVariable name = some v) :
    t.valueAt name (t.level name) = some v := by
  have hname := isEmpty_of_resolve h
  rw [level_of_nonempty hname, Store.valueAt, Bindings.valueAt_level, ← resolve_of_nonempty hname, h]

theorem level_le_length (name : String) : t.level name ≤ t.localMembers.length := by
  unfold Store.level
  split_ifs
  · exact Nat.zero_le _
  · exact Bindings.level_le _ _

/-- The value of a name at level 0 is its entry in `members`. -/
theorem valueAt_zero (t : Store) (x : String) : t.bindings.valueAt x 0 = t.members[x]? := by
  have hframes : (frameBindings x t.localMembers).find? (fun e => e.1 = 0) = none := by
    refine List.find?_eq_none.mpr fun e he => ?_
    have hlevel := (frameBindings_levels he).1
    simp only [decide_eq_true_eq]
    omega
  unfold Bindings.valueAt
  rw [stack_bindings, List.find?_append, hframes, Option.none_or]
  unfold globalBinding
  cases t.members[x]? with
  | none => rfl
  | some v => rfl

/-- No active frame binds a name. -/
def Store.IsGlobal (t : Store) (name : String) : Prop := ∀ frame ∈ t.localMembers, frame[name]? = none

theorem resolveLocal_eq_none_iff {name : String} {frames : List Scope} :
    resolveLocal name frames = none ↔ ∀ frame ∈ frames, frame[name]? = none := by
  induction frames with
  | nil => simp [resolveLocal]
  | cons frame frames ih =>
    rw [List.forall_mem_cons, resolveLocal]
    cases hframe : frame[name]? with
    | none => simp [ih]
    | some v => simp

theorem isGlobal_iff_level {t : Store} {name : String} (hname : name.isEmpty = false) :
    t.IsGlobal name ↔ t.level name = 0 := by
  rw [level_of_nonempty hname, Store.IsGlobal, ← resolveLocal_eq_none_iff, resolveLocal_eq,
    Bindings.level, stack_bindings]
  cases hb : frameBindings name t.localMembers with
  | nil =>
    rw [List.nil_append]
    cases hg : globalBinding name t.members with
    | nil => simp
    | cons e rest =>
      have hlevel := globalBinding_level (e := e) (hg ▸ List.mem_cons_self)
      simp [hlevel]
  | cons e rest =>
    have hlevels := frameBindings_levels (e := e) (hb ▸ List.mem_cons_self)
    simp
    omega

theorem isGlobal_iff_valueAt {t : Store} {name : String} (hname : name.isEmpty = false) :
    t.IsGlobal name ↔ ∀ level, 0 < level → t.valueAt name level = none := by
  rw [isGlobal_iff_level hname, level_of_nonempty hname]
  constructor
  · intro h level hlevel
    exact Bindings.valueAt_of_level_lt _ _ (h ▸ hlevel)
  · intro h
    by_contra hne
    have hnone : t.bindings.resolve name = none := by
      rw [← Bindings.valueAt_level]
      exact h _ (Nat.pos_of_ne_zero hne)
    exact hne (bindings_level_of_resolve_none hnone)

/-- A step on another name, or on the global level. -/
theorem isGlobal_of_only {x : String} {level : Nat} (hx : x.isEmpty = false)
    (h : Bindings.ChangesOnly t.bindings t'.bindings name level) (hname : name = x → level = 0)
    (ht : t.IsGlobal x) : t'.IsGlobal x := by
  rw [isGlobal_iff_valueAt hx] at ht ⊢
  intro m hm
  have hother : x ≠ name ∨ m ≠ level := by
    by_cases hsame : name = x
    · exact .inr (by rw [hname hsame]; exact Nat.pos_iff_ne_zero.mp hm)
    · exact .inl (Ne.symm hsame)
  rw [Store.valueAt, h.others x m hother]
  exact ht m hm

/-- `define` makes the binding that the name means when no frame binds it. -/
theorem resolve_define {t : Store} {name : String} (hname : name.isEmpty = false)
    (h : t.IsGlobal name) (v : Variable) :
    ({ t with members := t.members.insert name v } : Store).resolveVariable name = some v := by
  unfold Store.resolveVariable
  rw [hname, if_neg Bool.false_ne_true, resolveLocal_eq_none_iff.mpr h,
    Std.ExtTreeMap.getElem?_insert_self]

/-- A step that writes the variable which a name means. -/
theorem storeStep_assign {how : Write} {v : Variable} (h : t.resolveVariable name = some v)
    (hro : v.readonly = false) (v' : Variable) :
    StoreStep how name (t.level name) t (t.assign name v') := by
  have hname := isEmpty_of_resolve h
  have hres : t.bindings.resolve name ≠ none := by
    rw [← resolve_of_nonempty hname, h]
    exact Option.some_ne_none v
  have hbindings := bindings_assign t name v' hres
  refine ⟨?_, level_le_length name, ?_, ?_, ?_⟩
  · rw [hbindings, level_of_nonempty hname]
    exact Bindings.changesOnly_replace _ _ _
  · intro _ w hw hwro
    rw [valueAt_of_resolve h] at hw
    cases hw
    rw [hro] at hwro
    cases hwro
  · intro _ w _
    refine ⟨v', ?_⟩
    rw [Store.valueAt, hbindings, level_of_nonempty hname]
    exact Bindings.valueAt_replace _ _ _ hres
  · intro hstar
    refine Nat.le_of_eq ?_
    rw [level_of_nonempty hname, hstar]

theorem storeStep_define (init : Initial) (readonly : Bool)
    (hlevel : name = "*" → t.bindings.level "*" = 0)
    (h : Libbash.define name init readonly t = some (.ok (), t')) :
    StoreStep .define name 0 t t' := by
  cases h
  have hbindings := bindings_define t name (.new name init readonly)
  refine ⟨?_, Nat.zero_le _, fun hne => absurd rfl hne, ?_, fun hstar => Nat.le_of_eq (hlevel hstar)⟩
  · rw [hbindings]
    exact Bindings.changesOnly_bindGlobal _ _ _
  · intro _ v _
    refine ⟨.new name init readonly, ?_⟩
    rw [Store.valueAt, hbindings]
    exact Bindings.valueAt_bindGlobal _ _ _

/-- A step that makes a binding in the top frame. -/
theorem storeStep_top {frame : Scope} {frames : List Scope}
    (hs : t.localMembers = frame :: frames) (v : Variable) :
    StoreStep .define name t.localMembers.length t
      { t with localMembers := frame.insert name v :: frames } := by
  have hbindings := bindings_defineLocal hs name v
  refine ⟨?_, Nat.le_refl _, fun hne => absurd rfl hne, ?_, fun _ => Bindings.level_le _ _⟩
  · rw [hbindings]
    exact Bindings.changesOnly_bindLocal _ _ _
  · intro _ w _
    refine ⟨v, ?_⟩
    rw [Store.valueAt, hbindings]
    exact Bindings.valueAt_bindLocal _ _ _

theorem defineLocal_nil (hs : t.localMembers = []) (init : Initial) (readonly : Bool) :
    Libbash.defineLocal name init readonly t =
      some (.error (.error .runtime "Define local variables outside function scope"), t) := by
  unfold Libbash.defineLocal
  rw [reads_bind_apply, id, hs]
  rfl

theorem defineLocal_cons {frame : Scope} {frames : List Scope}
    (hs : t.localMembers = frame :: frames) (init : Initial) (readonly : Bool) :
    Libbash.defineLocal name init readonly t =
      some (.ok (),
        { t with localMembers := frame.insert name (.new name init readonly) :: frames }) := by
  unfold Libbash.defineLocal
  rw [reads_bind_apply, id, hs]
  rfl

theorem storeStep_defineLocal (init : Initial) (readonly : Bool)
    (h : Libbash.defineLocal name init readonly t = some (.ok (), t')) :
    StoreStep .define name t.localMembers.length t t' := by
  cases hs : t.localMembers with
  | nil =>
    rw [defineLocal_nil hs] at h
    cases h
  | cons frame frames =>
    rw [defineLocal_cons hs] at h
    cases h
    rw [← hs]
    exact storeStep_top hs _

theorem storeStep_defineFunctionArguments (arguments : List String)
    (h : defineFunctionArguments arguments t = some (.ok (), t')) :
    StoreStep .define "*" t.localMembers.length t t' := by
  unfold defineFunctionArguments at h
  rw [reads_bind_apply] at h
  cases hs : t.localMembers with
  | nil =>
    simp only [id_eq, hs] at h
    cases h
  | cons frame frames =>
    simp only [id_eq, hs] at h
    split_ifs at h
    · cases h
    · cases h
      rw [← hs]
      exact storeStep_top hs _

theorem storeStep_definePositionalArguments (arguments : List String)
    (h : definePositionalArguments arguments t = some (.ok (), t')) :
    StoreStep .define "*" t.localMembers.length t t' := by
  unfold definePositionalArguments at h
  rw [reads_bind_apply] at h
  simp only [id_eq] at h
  split_ifs at h with hlen
  · have hzero : t.localMembers.length = 0 := Nat.lt_one_iff.mp hlen
    rw [hzero]
    have hdepth : t.bindings.level "*" ≤ t.localMembers.length := Bindings.level_le _ _
    exact storeStep_define _ _ (fun _ => by omega) h
  · exact storeStep_defineLocal _ _ h

theorem storeStep_setValue (new : Value) (index : UInt32)
    (h : Libbash.setValue name new index t = some (.ok (), t')) :
    StoreStep (setHow t name) name (t.level name) t t' := by
  unfold Libbash.setValue at h
  rw [reads_bind_apply] at h
  unfold setHow
  cases hr : t.resolveVariable name with
  | none =>
    simp only [id_eq, hr] at h
    rw [level_of_resolve_none hr]
    refine storeStep_define _ _ (fun hstar => ?_) h
    subst hstar
    exact bindings_level_of_resolve_none (by rw [← resolve_of_nonempty rfl, hr])
  | some v =>
    simp only [id_eq, hr, throughPointer, Variable.setValue, reads_bind_apply] at h
    split_ifs at h with hro
    · cases h
    · cases h
      exact storeStep_assign hr (by simpa using hro) _

theorem checkUnsetPositional_ok (h : checkUnsetPositional name t = some (.ok (), t')) :
    t' = t := by
  unfold checkUnsetPositional at h
  split_ifs at h <;> cases h
  rfl

theorem storeStep_unsetIndex (index : UInt32)
    (h : Libbash.unsetIndex name index t = some (.ok (), t')) :
    StoreStep .update name (t.level name) t t' := by
  unfold Libbash.unsetIndex at h
  rcases bind_cases h with ⟨⟨⟩, t₁, hcheck, hrest⟩ | ⟨e, -, he⟩
  · obtain rfl := checkUnsetPositional_ok hcheck
    clear h
    rw [reads_bind_apply] at hrest
    cases hr : t₁.resolveVariable name with
    | none =>
      -- nothing is found and nothing is written
      simp only [id_eq, hr] at hrest
      cases hrest
      refine ⟨Bindings.changesOnly_refl _ _ _, level_le_length name, fun _ v hv _ => hv,
        fun _ v hv => ⟨v, hv⟩, fun hstar => ?_⟩
      subst hstar
      exact Nat.le_of_eq (level_of_nonempty rfl).symm
    | some v =>
      simp only [id_eq, hr] at hrest
      split_ifs at hrest with hro
      · cases hrest
      · simp only [throughPointer, Variable.unsetValue, reads_bind_apply, id_eq, if_neg hro]
          at hrest
        cases hrest
        exact storeStep_assign hr (by simpa using hro) _
  · cases he

theorem storeStep_shift {result : Int} (number : UInt32)
    (h : shiftParameters number t = some (.ok result, t')) :
    StoreStep .update "*" (t.level "*") t t' := by
  unfold shiftParameters at h
  rw [reads_bind_apply] at h
  cases hr : t.resolveVariable "*" with
  | none =>
    simp only [id_eq, hr] at h
    cases h
  | some v =>
    simp only [id_eq, hr] at h
    by_cases hro : v.readonly = true
    · rw [if_pos hro] at h
      cases h
    · rw [if_neg hro, update_bind_apply] at h
      cases h
      exact storeStep_assign hr (by simpa using hro) _

/-- A removal of the innermost binding, which is not readonly. -/
theorem storeStep_uncover {v : Variable} (hv : t.bindings.resolve name = some v)
    (hro : v.readonly = false) (h : t'.bindings = t.bindings.uncover name) :
    StoreStep .erase name (t.bindings.level name) t t' := by
  refine ⟨?_, Bindings.level_le _ _, ?_, fun hne => absurd rfl hne, fun hstar => ?_⟩
  · rw [h]
    exact Bindings.changesOnly_uncover _ _
  · intro _ w hw hwro
    rw [Store.valueAt, Bindings.valueAt_level, hv] at hw
    cases hw
    rw [hro] at hwro
    cases hwro
  · subst hstar
    exact Nat.le_refl _

/-- The removal of a global variable that no frame binds. -/
theorem storeStep_unsetGlobal {r : Bool} (hb : frameBindings name t.localMembers = [])
    (h : zoom Store.members (fun scope t => { t with members := scope }) (unsetter name) t =
      some (.ok r, t')) :
    StoreStep .erase name (t.bindings.level name) t t' := by
  have hres : t.bindings.resolve name = t.members[name]? := by
    unfold Bindings.resolve
    rw [stack_bindings, hb, globalBinding]
    cases t.members[name]? <;> rfl
  simp only [zoom, unsetter_eq] at h
  cases hm : t.members[name]? with
  | none =>
    simp only [hm] at h
    cases h
    refine ⟨Bindings.changesOnly_refl _ _ _, Bindings.level_le _ _, fun _ v hv _ => hv,
      fun hne => absurd rfl hne, fun hstar => ?_⟩
    subst hstar
    exact Nat.le_refl _
  | some v =>
    simp only [hm] at h
    by_cases hro : v.readonly = true
    · rw [if_pos hro] at h
      cases h
    · rw [if_neg hro] at h
      cases h
      exact storeStep_uncover (hres.trans hm) (by simpa using hro) (bindings_eraseGlobal hb)

/-- The removal of the innermost local binding. -/
theorem storeStep_unsetLocal {e : Nat × Variable} {rest : List (Nat × Variable)} {none : Bool}
    (hb : frameBindings name t.localMembers = e :: rest)
    (h : zoom Store.localMembers (fun frames t => { t with localMembers := frames })
      (noneOf (unsetter name)) t = some (.ok none, t')) :
    none = false ∧ StoreStep .erase name (t.bindings.level name) t t' := by
  have hn := noneOf_unsetter name t.localMembers
  have hres : t.bindings.resolve name = some e.2 := by
    unfold Bindings.resolve
    rw [stack_bindings, hb]
    rfl
  rw [hb] at hn
  simp only [zoom] at h
  simp only at hn
  by_cases hro : e.2.readonly = true
  · rw [if_pos hro] at hn
    simp only [hn] at h
    cases h
  · rw [if_neg hro] at hn
    obtain ⟨frames, hrun, hlen, hself, hother⟩ := hn
    simp only [hrun] at h
    cases h
    refine ⟨rfl, storeStep_uncover hres (by simpa using hro) ?_⟩
    refine bindings_eq_withStack hlen ?_ fun y hy => ?_
    · rw [stack_bindings, stack_bindings, hself, hb]
      rfl
    · rw [stack_bindings, stack_bindings, hother y hy]

theorem storeStep_unset (h : Libbash.unset name t = some (.ok (), t')) :
    StoreStep .erase name (t.bindings.level name) t t' := by
  unfold Libbash.unset at h
  rcases bind_cases h with ⟨⟨⟩, t₁, hcheck, hrest⟩ | ⟨e, -, he⟩
  · obtain rfl := checkUnsetPositional_ok hcheck
    rcases bind_cases hrest with ⟨none, t₂, hframes, hmembers⟩ | ⟨e, -, he⟩
    · cases hb : frameBindings name t₁.localMembers with
      | nil =>
        have hn := noneOf_unsetter name t₁.localMembers
        rw [hb] at hn
        simp only at hn
        simp only [zoom, hn] at hframes
        cases hframes
        rw [if_pos rfl] at hmembers
        rcases bind_cases hmembers with ⟨r, t₃, hglobal, hend⟩ | ⟨e, -, he⟩
        · cases hend
          exact storeStep_unsetGlobal hb hglobal
        · cases he
      | cons e rest =>
        obtain ⟨rfl, hstep⟩ := storeStep_unsetLocal hb hframes
        cases hmembers
        exact hstep
    · cases he
  · cases he

/-! ## Operations that raise -/

/-- Writing back what is there changes nothing. -/
theorem assign_self {v : Variable} (h : t.resolveVariable name = some v) : t.assign name v = t := by
  have hname := isEmpty_of_resolve h
  rw [resolve_of_nonempty hname] at h
  refine bindings_injective ?_
  rw [bindings_assign t name v (by rw [h]; exact Option.some_ne_none v), Bindings.replace_self _ _ h]

/-- A write is refused for a readonly variable only, and then nothing changes. -/
theorem setValue_error_cases {name : String} {new : Value} {index : UInt32} {e : Exn}
    (h : Libbash.setValue name new index t = some (.error e, t')) :
    (∃ what, e = .error .readonly what) ∧ t' = t := by
  unfold Libbash.setValue at h
  rw [reads_bind_apply] at h
  cases hr : t.resolveVariable name with
  | none =>
    simp only [id_eq, hr] at h
    cases h
  | some v =>
    simp only [id_eq, hr, throughPointer, Variable.setValue, reads_bind_apply] at h
    split_ifs at h with hro
    · cases h
      exact ⟨⟨_, rfl⟩, assign_self hr⟩
    · cases h

theorem setValue_error {new : Value} {index : UInt32} {e : Exn}
    (h : Libbash.setValue name new index t = some (.error e, t')) : t' = t :=
  (setValue_error_cases h).2

theorem defineLocal_error {init : Initial} {readonly : Bool} {e : Exn}
    (h : Libbash.defineLocal name init readonly t = some (.error e, t')) : t' = t := by
  cases hs : t.localMembers with
  | nil =>
    rw [defineLocal_nil hs] at h
    cases h
    rfl
  | cons frame frames =>
    rw [defineLocal_cons hs] at h
    cases h

theorem defineFunctionArguments_error {arguments : List String} {e : Exn}
    (h : defineFunctionArguments arguments t = some (.error e, t')) : t' = t := by
  unfold defineFunctionArguments at h
  rw [reads_bind_apply] at h
  cases hs : t.localMembers with
  | nil =>
    simp only [id_eq, hs] at h
    cases h
    rfl
  | cons frame frames =>
    simp only [id_eq, hs] at h
    split_ifs at h <;> cases h

theorem definePositionalArguments_error {arguments : List String} {e : Exn}
    (h : definePositionalArguments arguments t = some (.error e, t')) : t' = t := by
  unfold definePositionalArguments at h
  rw [reads_bind_apply] at h
  simp only [id_eq] at h
  split_ifs at h with hlen
  · cases h
  · exact defineLocal_error h

theorem checkUnsetPositional_error {e : Exn}
    (h : checkUnsetPositional name t = some (.error e, t')) : t' = t := by
  unfold checkUnsetPositional at h
  split_ifs at h <;> cases h
  rfl

theorem unsetIndex_error {index : UInt32} {e : Exn}
    (h : Libbash.unsetIndex name index t = some (.error e, t')) : t' = t := by
  unfold Libbash.unsetIndex at h
  rcases bind_cases h with ⟨⟨⟩, t₁, hcheck, hrest⟩ | ⟨e, hcheck, -⟩
  · obtain rfl := checkUnsetPositional_ok hcheck
    clear h
    rw [reads_bind_apply] at hrest
    cases hr : t₁.resolveVariable name with
    | none =>
      simp only [id_eq, hr] at hrest
      cases hrest
    | some v =>
      simp only [id_eq, hr] at hrest
      split_ifs at hrest with hro
      · cases hrest
        rfl
      · simp only [throughPointer, Variable.unsetValue, reads_bind_apply, id_eq, if_neg hro]
          at hrest
        cases hrest
  · exact checkUnsetPositional_error hcheck

theorem shiftParameters_error {number : UInt32} {e : Exn}
    (h : shiftParameters number t = some (.error e, t')) : t' = t := by
  unfold shiftParameters at h
  rw [reads_bind_apply] at h
  cases hr : t.resolveVariable "*" with
  | none =>
    simp only [id_eq, hr] at h
    cases h
    rfl
  | some v =>
    simp only [id_eq, hr] at h
    by_cases hro : v.readonly = true
    · rw [if_pos hro] at h
      cases h
      rfl
    · rw [if_neg hro, update_bind_apply] at h
      cases h

theorem unsetGlobal_error {e : Exn}
    (h : zoom Store.members (fun scope t => { t with members := scope }) (unsetter name) t =
      some (.error e, t')) : t' = t := by
  simp only [zoom, unsetter_eq] at h
  cases hm : t.members[name]? with
  | none =>
    simp only [hm] at h
    cases h
  | some v =>
    simp only [hm] at h
    split_ifs at h <;> cases h
    rfl

theorem unset_error {e : Exn} (h : Libbash.unset name t = some (.error e, t')) : t' = t := by
  unfold Libbash.unset at h
  rcases bind_cases h with ⟨⟨⟩, t₁, hcheck, hrest⟩ | ⟨e, hcheck, -⟩
  · obtain rfl := checkUnsetPositional_ok hcheck
    -- The frames are asked from the top; the globals only when none of them has the name.
    have hn := noneOf_unsetter name t₁.localMembers
    cases hb : frameBindings name t₁.localMembers with
    | nil =>
      rw [hb] at hn
      simp only at hn
      have hframes : zoom Store.localMembers (fun frames t => { t with localMembers := frames })
          (noneOf (unsetter name)) t₁ = some (.ok true, t₁) := by simp only [zoom, hn]
      rw [bind_of_ok hframes, if_pos rfl] at hrest
      rcases bind_cases hrest with ⟨r, t₃, -, hend⟩ | ⟨e, hglobal, -⟩
      · cases hend
      · exact unsetGlobal_error hglobal
    | cons e rest =>
      rw [hb] at hn
      simp only at hn
      by_cases hro : e.2.readonly = true
      · rw [if_pos hro] at hn
        have hframes : zoom Store.localMembers
            (fun frames t => { t with localMembers := frames }) (noneOf (unsetter name)) t₁ =
              some (.error (.error .readonly "unset a readonly variable"), t₁) := by
          simp only [zoom, hn]
        rw [bind_of_error hframes] at hrest
        cases hrest
        rfl
      · rw [if_neg hro] at hn
        obtain ⟨frames, hrun, -⟩ := hn
        have hframes : zoom Store.localMembers
            (fun frames t => { t with localMembers := frames }) (noneOf (unsetter name)) t₁ =
              some (.ok false, { t₁ with localMembers := frames }) := by
          simp only [zoom, hrun]
        rw [bind_of_ok hframes] at hrest
        cases hrest
  · exact checkUnsetPositional_error hcheck

end Steps

/-! ## Operations of the interpreter -/

section Writing

variable {α : Type} {how : Write} {name : String} {level : Store → Nat} {m : Comp Exn Store α}
  {s : Interpreter} {t : Store}

theorem writing_of_ok {a : α} (h : m s.store = some (.ok a, t)) :
    writing how name level m s = some (.ok a,
      Interpreter.record (.wrote how name (level s.store)) { s with store := t }) := by
  have hzoom : onStore m s = some (.ok a, { s with store := t }) := by
    unfold onStore zoom
    rw [h]
  unfold writing
  rw [reads_bind_apply, bind_of_ok hzoom]
  rfl

theorem writing_of_error {e : Exn} (h : m s.store = some (.error e, t)) :
    writing how name level m s = some (.error e, { s with store := t }) := by
  have hzoom : onStore m s = some (.error e, { s with store := t }) := by
    unfold onStore zoom
    rw [h]
  unfold writing
  rw [reads_bind_apply, bind_of_error hzoom]

theorem writing_of_none (h : m s.store = none) : writing how name level m s = none := by
  have hzoom : onStore m s = none := by
    unfold onStore zoom
    rw [h]
  unfold writing
  rw [reads_bind_apply, bind_of_none hzoom]

end Writing

/-! ## Bindings that shadow others -/

/-- The frame at a depth binds the name, and no frame above it does. -/
structure Shadows (x : String) (depth : Nat) (t : Store) : Prop where
  depth_le : depth ≤ t.localMembers.length
  own : ∃ v, t.valueAt x depth = some v
  above : ∀ level, depth < level → t.valueAt x level = none

section Shadows

variable {t : Store} {x : String} {depth : Nat}

theorem Shadows.level (h : Shadows x depth t) (hx : x.isEmpty = false) : t.level x = depth := by
  obtain ⟨v, hv⟩ := h.own
  rw [level_of_nonempty hx]
  refine Nat.le_antisymm (Nat.le_of_not_lt fun hlt => ?_) (Bindings.level_le_of_valueAt _ _ hv)
  have hnone : t.bindings.resolve x = none := by
    rw [← Bindings.valueAt_level]
    exact h.above _ hlt
  rw [bindings_level_of_resolve_none hnone] at hlt
  cases hlt

/-- The name means the binding that shadows the others. -/
theorem Shadows.resolve (h : Shadows x depth t) (hx : x.isEmpty = false) :
    t.resolveVariable x = t.valueAt x depth := by
  obtain ⟨v, hv⟩ := h.own
  rw [resolve_of_nonempty hx, hv]
  refine Bindings.resolve_eq_some_of_valueAt _ _ hv fun level w hw => Nat.le_of_not_lt fun hlt => ?_
  exact nomatch (h.above level hlt).symm.trans hw

end Shadows

end Libbash
