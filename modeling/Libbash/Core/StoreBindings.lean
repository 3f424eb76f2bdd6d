import Libbash.Core.Store
import Libbash.Lib.Bindings

/-!
# The store as one stack of bindings per name

`Store.bindings` reads the vector of frame maps and the global map as the
abstract `Bindings`, and loses nothing (`bindings_injective`). The other lemmas
say what the parts of the store's operations do to these stacks: entries added,
changed through a pointer and erased, frames pushed and popped.
-/

namespace Libbash

open Lib Lib.Comp

/-! ## The store as bindings -/

/-- The bindings of a name in the frames, the innermost first. -/
def frameBindings (name : String) : List Scope → List (Nat × Variable)
  | [] => []
  | frame :: frames =>
    match frame[name]? with
    | some v => (frames.length + 1, v) :: frameBindings name frames
    | none => frameBindings name frames

theorem frameBindings_some {name : String} {frame : Scope} {v : Variable}
    (h : frame[name]? = some v) (frames : List Scope) :
    frameBindings name (frame :: frames) =
      (frames.length + 1, v) :: frameBindings name frames := by
  rw [frameBindings, h]

theorem frameBindings_none {name : String} {frame : Scope} (h : frame[name]? = none)
    (frames : List Scope) : frameBindings name (frame :: frames) = frameBindings name frames := by
  rw [frameBindings, h]

/-- The global binding of a name. -/
def globalBinding (name : String) (scope : Scope) : List (Nat × Variable) :=
  match scope[name]? with
  | some v => [(0, v)]
  | none => []

theorem frameBindings_levels {name : String} {frames : List Scope} {e : Nat × Variable}
    (h : e ∈ frameBindings name frames) : 0 < e.1 ∧ e.1 ≤ frames.length := by
  induction frames with
  | nil => exact absurd h List.not_mem_nil
  | cons frame frames ih =>
    unfold frameBindings at h
    cases hf : frame[name]? with
    | none =>
      rw [hf] at h
      have := ih h
      simp only [List.length_cons]
      omega
    | some v =>
      rw [hf] at h
      rcases List.mem_cons.mp h with rfl | h
      · simp
      · have := ih h
        simp only [List.length_cons]
        omega

theorem frameBindings_falling (name : String) (frames : List Scope) :
    (frameBindings name frames).Pairwise fun a b => b.1 < a.1 := by
  induction frames with
  | nil => exact List.Pairwise.nil
  | cons frame frames ih =>
    unfold frameBindings
    cases frame[name]? with
    | none => exact ih
    | some v =>
      refine List.pairwise_cons.mpr ⟨fun e he => ?_, ih⟩
      have := frameBindings_levels he
      simp only
      omega

theorem globalBinding_level {name : String} {scope : Scope} {e : Nat × Variable}
    (h : e ∈ globalBinding name scope) : e.1 = 0 := by
  unfold globalBinding at h
  cases hs : scope[name]? with
  | none => rw [hs] at h; exact absurd h List.not_mem_nil
  | some v => rw [hs] at h; rw [List.mem_singleton.mp h]

/-- A store as one stack of bindings per name. -/
def Store.bindings (s : Store) : Bindings String Variable where
  depth := s.localMembers.length
  stack name := frameBindings name s.localMembers ++ globalBinding name s.members
  falling name := by
    refine List.pairwise_append.mpr ⟨frameBindings_falling _ _, ?_, fun e he e' he' => ?_⟩
    · unfold globalBinding
      cases s.members[name]? with
      | none => exact List.Pairwise.nil
      | some v => exact List.pairwise_singleton _ _
    · rw [globalBinding_level he']
      exact (frameBindings_levels he).1
  bounded name e he := by
    rcases List.mem_append.mp he with he | he
    · exact (frameBindings_levels he).2
    · rw [globalBinding_level he]
      exact Nat.zero_le _

theorem stack_bindings (s : Store) (name : String) :
    s.bindings.stack name = frameBindings name s.localMembers ++ globalBinding name s.members :=
  rfl

/-- A change of one name and of nothing else. -/
theorem bindings_eq_withStack {s t : Store} {name : String} {l : List (Nat × Variable)} {hf hb}
    (hdepth : t.localMembers.length = s.localMembers.length)
    (hself : t.bindings.stack name = l)
    (hother : ∀ y, y ≠ name → t.bindings.stack y = s.bindings.stack y) :
    t.bindings = s.bindings.withStack name l hf hb := by
  refine Bindings.ext hdepth (funext fun y => ?_)
  by_cases hy : y = name
  · subst hy
    rw [hself, Bindings.stack_withStack_self]
  · rw [hother y hy, Bindings.stack_withStack_ne _ _ hy]

theorem globalBinding_insert_self (name : String) (v : Variable) (scope : Scope) :
    globalBinding name (scope.insert name v) = [(0, v)] := by
  simp [globalBinding]

theorem globalBinding_insert_ne {name y : String} (v : Variable) (scope : Scope) (h : y ≠ name) :
    globalBinding y (scope.insert name v) = globalBinding y scope := by
  simp [globalBinding, Std.ExtTreeMap.getElem?_insert, Ne.symm h]

/-! ## Resolution -/

theorem resolveLocal_eq (name : String) (frames : List Scope) :
    resolveLocal name frames = (frameBindings name frames).head?.map Prod.snd := by
  induction frames with
  | nil => rfl
  | cons frame frames ih =>
    unfold resolveLocal frameBindings
    cases frame[name]? with
    | none => exact ih
    | some v => rfl

theorem resolveVariable_eq (s : Store) {name : String} (hname : name.isEmpty = false) :
    s.resolveVariable name = s.bindings.resolve name := by
  unfold Store.resolveVariable Bindings.resolve
  rw [resolveLocal_eq, stack_bindings, hname]
  cases frameBindings name s.localMembers with
  | nil =>
    unfold globalBinding
    cases s.members[name]? <;> rfl
  | cons e rest => rfl

theorem isEmpty_of_resolve {s : Store} {name : String} {v : Variable}
    (h : s.resolveVariable name = some v) : name.isEmpty = false := by
  cases hname : name.isEmpty with
  | false => rfl
  | true =>
    unfold Store.resolveVariable at h
    rw [hname, if_pos rfl] at h
    cases h

/-! ## Changes through a pointer -/

theorem assignLocal_none {name : String} {v : Variable} {frames : List Scope} :
    assignLocal name v frames = none ↔ frameBindings name frames = [] := by
  induction frames with
  | nil => simp [assignLocal, frameBindings]
  | cons frame frames ih =>
    unfold assignLocal frameBindings
    cases frame[name]? with
    | none => simp [ih]
    | some v => simp

theorem assignLocal_some {name : String} {v : Variable} {frames frames' : List Scope}
    (h : assignLocal name v frames = some frames') :
    frames'.length = frames.length ∧
      frameBindings name frames' = Bindings.replaceHead v (frameBindings name frames) ∧
      ∀ y, y ≠ name → frameBindings y frames' = frameBindings y frames := by
  induction frames generalizing frames' with
  | nil => cases h
  | cons frame frames ih =>
    unfold assignLocal at h
    cases hf : frame[name]? with
    | none =>
      rw [hf] at h
      obtain ⟨fs, hfs, rfl⟩ := Option.map_eq_some_iff.mp h
      obtain ⟨hlen, hself, hother⟩ := ih hfs
      refine ⟨by simp [hlen], ?_, fun y hy => ?_⟩
      · simp only [frameBindings, hf, hself]
      · simp only [frameBindings, hother y hy, hlen]
    | some old =>
      rw [hf] at h
      cases h
      refine ⟨rfl, ?_, fun y hy => ?_⟩
      · simp [frameBindings, hf, Bindings.replaceHead]
      · simp [frameBindings, Std.ExtTreeMap.getElem?_insert, Ne.symm hy]

theorem bindings_assign (s : Store) (name : String) (v : Variable)
    (h : s.bindings.resolve name ≠ none) :
    (s.assign name v).bindings = s.bindings.replace name v := by
  unfold Store.assign
  cases ha : assignLocal name v s.localMembers with
  | some frames =>
    obtain ⟨hlen, hself, hother⟩ := assignLocal_some ha
    have hne : frameBindings name s.localMembers ≠ [] := fun h => by
      rw [assignLocal_none.mpr h] at ha
      cases ha
    refine bindings_eq_withStack hlen ?_ fun y hy => ?_
    · simp only [stack_bindings, hself]
      obtain ⟨e, rest, he⟩ := List.exists_cons_of_ne_nil hne
      rw [he]
      rfl
    · simp only [stack_bindings, hother y hy]
  | none =>
    have hnil := assignLocal_none.mp ha
    refine bindings_eq_withStack rfl ?_ fun y hy => ?_
    · unfold Bindings.resolve at h
      simp only [stack_bindings, hnil, List.nil_append, globalBinding_insert_self] at h ⊢
      unfold globalBinding at h ⊢
      cases hm : s.members[name]? with
      | none => simp [hm] at h
      | some old => rfl
    · simp only [stack_bindings, globalBinding_insert_ne _ _ hy]

/-! ## Definitions and frames -/

theorem filter_frameBindings {p : Nat × Variable → Bool} {name : String} {frames : List Scope}
    (h : ∀ e, 0 < e.1 → e.1 ≤ frames.length → p e = true) :
    (frameBindings name frames).filter p = frameBindings name frames :=
  List.filter_eq_self.mpr fun e he => h e (frameBindings_levels he).1 (frameBindings_levels he).2

theorem filter_globalBinding {p : Nat × Variable → Bool} {name : String} {scope : Scope}
    (keep : Bool) (h : ∀ e, e.1 = 0 → p e = keep) :
    (globalBinding name scope).filter p = if keep then globalBinding name scope else [] := by
  cases keep with
  | true => exact List.filter_eq_self.mpr fun e he => h e (globalBinding_level he)
  | false =>
    refine List.filter_eq_nil_iff.mpr fun e he => ?_
    rw [h e (globalBinding_level he)]
    exact Bool.false_ne_true

theorem bindings_define (s : Store) (name : String) (v : Variable) :
    ({ s with members := s.members.insert name v } : Store).bindings =
      s.bindings.bindGlobal name v := by
  refine bindings_eq_withStack rfl ?_ fun y hy => ?_
  · rw [stack_bindings, stack_bindings, List.filter_append, globalBinding_insert_self,
      filter_frameBindings fun e he _ => by simpa using he,
      filter_globalBinding false fun e he => by simp [he]]
    simp
  · rw [stack_bindings, stack_bindings, globalBinding_insert_ne _ _ hy]

theorem bindings_defineLocal {s : Store} {frame : Scope} {frames : List Scope}
    (hs : s.localMembers = frame :: frames) (name : String) (v : Variable) :
    ({ s with localMembers := frame.insert name v :: frames } : Store).bindings =
      s.bindings.bindLocal name v := by
  have hdepth : s.bindings.depth = frames.length + 1 := congrArg List.length hs
  have hbelow : ∀ e : Nat × Variable, e.1 ≤ frames.length →
      decide (e.1 < frames.length + 1) = true := fun e he => by simpa using Nat.lt_succ_of_le he
  refine bindings_eq_withStack (by rw [hs]; rfl) ?_ fun y hy => ?_
  · rw [stack_bindings, stack_bindings, hdepth, List.filter_append,
      filter_globalBinding true fun e he => hbelow e (by omega)]
    have hframe : (frameBindings name s.localMembers).filter
        (fun e => decide (e.1 < frames.length + 1)) = frameBindings name frames := by
      rw [hs, frameBindings]
      cases frame[name]? with
      | none => exact filter_frameBindings fun e _ he => hbelow e he
      | some old =>
        rw [List.filter_cons_of_neg (by simp)]
        exact filter_frameBindings fun e _ he => hbelow e he
    rw [hframe]
    simp [frameBindings]
  · simp [stack_bindings, hs, frameBindings, Std.ExtTreeMap.getElem?_insert, Ne.symm hy]

theorem bindings_push (s : Store) :
    ({ s with localMembers := ∅ :: s.localMembers } : Store).bindings = s.bindings.push := by
  refine Bindings.ext rfl (funext fun y => ?_)
  simp [stack_bindings, frameBindings, Bindings.push]

theorem bindings_pop {s : Store} {frame : Scope} {frames : List Scope}
    (hs : s.localMembers = frame :: frames) :
    ({ s with localMembers := frames } : Store).bindings = s.bindings.pop := by
  have hdepth : s.bindings.depth - 1 = frames.length := by
    show s.localMembers.length - 1 = _
    rw [hs]
    rfl
  refine Bindings.ext hdepth.symm (funext fun y => ?_)
  unfold Bindings.pop
  simp only [stack_bindings, hdepth, List.filter_append]
  rw [filter_globalBinding true fun e he => by simp [he]]
  congr 1
  rw [hs, frameBindings]
  cases frame[y]? with
  | none => exact (filter_frameBindings fun e _ he => by simpa using he).symm
  | some old =>
    rw [List.filter_cons_of_neg (by simp)]
    exact (filter_frameBindings fun e _ he => by simpa using he).symm

/-! ## unset -/

theorem bindings_eraseGlobal {s : Store} {name : String}
    (h : frameBindings name s.localMembers = []) :
    ({ s with members := s.members.erase name } : Store).bindings = s.bindings.uncover name := by
  refine bindings_eq_withStack rfl ?_ fun y hy => ?_
  · rw [stack_bindings, stack_bindings, h]
    unfold globalBinding
    cases s.members[name]? <;> simp
  · simp [stack_bindings, globalBinding, Std.ExtTreeMap.getElem?_erase, Ne.symm hy]

theorem unsetter_eq (name : String) (frame : Scope) :
    unsetter name frame = match frame[name]? with
      | some v =>
        if v.readonly then some (.error (.error .readonly "unset a readonly variable"), frame)
        else some (.ok true, frame.erase name)
      | none => some (.ok false, frame) := by
  unfold unsetter
  simp only [reads_bind_apply, id_eq]
  cases frame[name]? with
  | none => rfl
  | some v =>
    simp only
    split_ifs <;> rfl

/-- `none_of` over the frames: nothing is removed when no frame binds the name,
and otherwise its innermost binding is, unless it is readonly. -/
theorem noneOf_unsetter (name : String) (frames : List Scope) :
    match frameBindings name frames with
    | [] => noneOf (unsetter name) frames = some (.ok true, frames)
    | (_, v) :: rest =>
      if v.readonly then
        noneOf (unsetter name) frames =
          some (.error (.error .readonly "unset a readonly variable"), frames)
      else
        ∃ frames', noneOf (unsetter name) frames = some (.ok false, frames') ∧
          frames'.length = frames.length ∧ frameBindings name frames' = rest ∧
          ∀ y, y ≠ name → frameBindings y frames' = frameBindings y frames := by
  induction frames with
  | nil => rfl
  | cons frame frames ih =>
    cases hf : frame[name]? with
    | some v =>
      rw [frameBindings_some hf]
      simp only
      split_ifs with hro
      · simp only [noneOf, unsetter_eq, hf, if_pos hro]
      · refine ⟨frame.erase name :: frames, ?_, rfl, ?_, fun y hy => ?_⟩
        · simp only [noneOf, unsetter_eq, hf, if_neg hro]
        · exact frameBindings_none (by simp) frames
        · simp [frameBindings, Std.ExtTreeMap.getElem?_erase, Ne.symm hy]
    | none =>
      have hstep : unsetter name frame = some (.ok false, frame) := by rw [unsetter_eq, hf]
      rw [frameBindings_none hf]
      simp only [noneOf, hstep]
      cases hb : frameBindings name frames with
      | nil =>
        rw [hb] at ih
        simp only [ih]
      | cons e rest =>
        rw [hb] at ih
        simp only at ih ⊢
        split_ifs at ih ⊢ with hro
        · simp only [ih]
        · obtain ⟨fs, hrun, hlen, hself, hother⟩ := ih
          refine ⟨frame :: fs, by simp only [hrun], by simp [hlen], ?_, fun y hy => ?_⟩
          · rw [frameBindings_none hf, hself]
          · simp only [frameBindings, hother y hy, hlen]

/-! ## The bindings determine the store -/

theorem frameBindings_injective {frames frames' : List Scope}
    (hlen : frames.length = frames'.length)
    (h : ∀ name, frameBindings name frames = frameBindings name frames') : frames = frames' := by
  induction frames generalizing frames' with
  | nil => exact (List.length_eq_zero_iff.mp hlen.symm).symm
  | cons frame frames ih =>
    cases frames' with
    | nil => cases hlen
    | cons frame' frames' =>
      have hlen' : frames.length = frames'.length := Nat.succ.inj hlen
      have htop : ∀ name, frame[name]? = frame'[name]? ∧
          frameBindings name frames = frameBindings name frames' := by
        intro name
        have hname := h name
        cases hf : frame[name]? with
        | some v =>
          cases hf' : frame'[name]? with
          | some v' =>
            rw [frameBindings_some hf, frameBindings_some hf'] at hname
            simp only [List.cons.injEq, Prod.mk.injEq] at hname
            exact ⟨by rw [hname.1.2], hname.2⟩
          | none =>
            -- the top binding would be one of a lower level
            rw [frameBindings_some hf, frameBindings_none hf'] at hname
            have hmem : (frames.length + 1, v) ∈ frameBindings name frames' :=
              hname ▸ List.mem_cons_self
            have := (frameBindings_levels hmem).2
            simp only at this
            omega
        | none =>
          cases hf' : frame'[name]? with
          | some v' =>
            rw [frameBindings_none hf, frameBindings_some hf'] at hname
            have hmem : (frames'.length + 1, v') ∈ frameBindings name frames :=
              hname.symm ▸ List.mem_cons_self
            have := (frameBindings_levels hmem).2
            simp only at this
            omega
          | none =>
            rw [frameBindings_none hf, frameBindings_none hf'] at hname
            exact ⟨rfl, hname⟩
      have hframe : frame = frame' := Std.ExtTreeMap.ext_getElem? fun {name} => (htop name).1
      rw [hframe, ih hlen' fun name => (htop name).2]

theorem globalBinding_injective {scope scope' : Scope}
    (h : ∀ name, globalBinding name scope = globalBinding name scope') : scope = scope' := by
  refine Std.ExtTreeMap.ext_getElem? fun {name} => ?_
  have hname := h name
  unfold globalBinding at hname
  cases hs : scope[name]? <;> cases hs' : scope'[name]? <;> simp_all

theorem bindings_injective {s t : Store} (h : s.bindings = t.bindings) : s = t := by
  have hstack : ∀ name, frameBindings name s.localMembers ++ globalBinding name s.members =
      frameBindings name t.localMembers ++ globalBinding name t.members :=
    fun name => congrFun (congrArg Bindings.stack h) name
  have hfilter : ∀ (u : Store) name, (frameBindings name u.localMembers ++
      globalBinding name u.members).filter (fun e => 0 < e.1) =
        frameBindings name u.localMembers := by
    intro u name
    rw [List.filter_append, filter_frameBindings fun e he _ => by simpa using he,
      filter_globalBinding false fun e he => by simp [he]]
    simp
  have hframes : ∀ name, frameBindings name s.localMembers = frameBindings name t.localMembers :=
    fun name => by rw [← hfilter s name, hstack, hfilter t name]
  have hglobal : ∀ name, globalBinding name s.members = globalBinding name t.members := by
    intro name
    have := hstack name
    rwa [hframes name, List.append_cancel_left_eq] at this
  have hlocal : s.localMembers = t.localMembers :=
    frameBindings_injective (congrArg Bindings.depth h) hframes
  have hmembers : s.members = t.members := globalBinding_injective hglobal
  cases s
  cases t
  simp only at hlocal hmembers
  rw [hlocal, hmembers]

end Libbash
