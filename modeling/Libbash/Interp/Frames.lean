import Libbash.Interp.Evolution

/-!
# What a run leaves of the variables before it

A run logs what it writes. `FramedBy` says what follows from the log for the
variables that there were before the run, at every level of the frame stack: one
that is not written is as before, a readonly one is only changed by a
definition, and as long as a frame keeps its positional parameters those of the
frames below it are out of reach.
-/

namespace Libbash

open Lib Lib.Comp

/-- A new frame hides nothing. -/
theorem valueAt_acquire (s : Interpreter) (x : String) (level : Nat) :
    (acquire .localScope s).store.valueAt x level = s.store.valueAt x level := by
  show Bindings.valueAt (Store.bindings _) x level = _
  rw [acquire, bindings_push, Bindings.valueAt_push]

/-- The end of a frame keeps what is below it. -/
theorem valueAt_release {s s' : Interpreter} {level : Nat}
    (h : level < s'.store.localMembers.length) (x : String) :
    (release .localScope s s').store.valueAt x level = s'.store.valueAt x level := by
  cases hs : s'.store.localMembers with
  | nil =>
    rw [hs] at h
    cases h
  | cons frame frames =>
    show Bindings.valueAt (Store.bindings { s'.store with localMembers := _ }) x level = _
    rw [hs, List.tail_cons, bindings_pop hs]
    refine Bindings.valueAt_pop _ _ ?_
    show level ≤ s'.store.localMembers.length - 1
    omega

/-- What holds of a run whose events are `new`. -/
structure FramedBy (new : List Event) (s s' : Interpreter) : Prop where
  log : s'.log = new ++ s.log
  depth : s'.store.localMembers.length = s.store.localMembers.length
  unwritten : ∀ x level, level ≤ s.store.localMembers.length →
    (∀ how, Event.wrote how x level ∉ new) → s'.store.valueAt x level = s.store.valueAt x level
  readonly : ∀ x level v, s.store.valueAt x level = some v → v.readonly = true →
    Event.wrote .define x level ∉ new → s'.store.valueAt x level = some v
  /-- A frame that has positional parameters, and does not lose them, shields
  those below it. -/
  shielded : ∀ level v, s.store.valueAt "*" level = some v → Event.wrote .erase "*" level ∉ new →
    (∃ v', s'.store.valueAt "*" level = some v') ∧
      ∀ how below, below < level → Event.wrote how "*" below ∉ new

namespace FramedBy

variable {new new' : List Event} {s s₁ s' : Interpreter}

/-- The store is the same, and nothing has been written. -/
theorem of_store (hlog : s'.log = new ++ s.log) (hstore : s'.store = s.store)
    (hnew : ∀ how x level, Event.wrote how x level ∉ new) : FramedBy new s s' where
  log := hlog
  depth := by rw [hstore]
  unwritten x level _ _ := by rw [hstore]
  readonly x level v hv _ _ := by rw [hstore, hv]
  shielded level v hv _ := ⟨⟨v, by rw [hstore, hv]⟩, fun how below _ => hnew how "*" below⟩

theorem refl (s : Interpreter) : FramedBy [] s s :=
  of_store rfl rfl fun _ _ _ => List.not_mem_nil

theorem trans (h : FramedBy new s s₁) (h' : FramedBy new' s₁ s') : FramedBy (new' ++ new) s s' where
  log := by rw [h'.log, h.log, List.append_assoc]
  depth := h'.depth.trans h.depth
  unwritten x level hle hnone := by
    have hnone' := fun how hmem => hnone how (List.mem_append_left _ hmem)
    have hnone := fun how hmem => hnone how (List.mem_append_right _ hmem)
    rw [h'.unwritten x level (h.depth ▸ hle) hnone', h.unwritten x level hle hnone]
  readonly x level v hv hro hdefine := by
    have hv₁ := h.readonly x level v hv hro fun hmem => hdefine (List.mem_append_right _ hmem)
    exact h'.readonly x level v hv₁ hro fun hmem => hdefine (List.mem_append_left _ hmem)
  shielded level v hv herase := by
    obtain ⟨⟨v₁, hv₁⟩, hbelow⟩ :=
      h.shielded level v hv fun hmem => herase (List.mem_append_right _ hmem)
    obtain ⟨hv', hbelow'⟩ :=
      h'.shielded level v₁ hv₁ fun hmem => herase (List.mem_append_left _ hmem)
    refine ⟨hv', fun how below hlt hmem => ?_⟩
    rcases List.mem_append.mp hmem with hmem | hmem
    · exact hbelow' how below hlt hmem
    · exact hbelow how below hlt hmem

/-- One operation of the store. -/
theorem of_storeStep {how : Write} {name : String} {level : Nat} {t : Store}
    (h : StoreStep how name level s.store t) :
    FramedBy [.wrote how name level] s
      (Interpreter.record (.wrote how name level) { s with store := t }) where
  log := rfl
  depth := h.depth
  unwritten x l hle hnone := by
    refine h.only.others x l ?_
    by_contra hboth
    obtain ⟨rfl, rfl⟩ := not_or.mp hboth |>.imp not_not.mp not_not.mp
    exact hnone how (List.mem_singleton_self _)
  readonly x l v hv hro hdefine := by
    by_cases hat : x = name ∧ l = level
    · obtain ⟨rfl, rfl⟩ := hat
      refine h.readonly ?_ v hv hro
      rintro rfl
      exact hdefine (List.mem_singleton_self _)
    · exact (h.only.others x l (not_and_or.mp hat)).trans hv
  shielded l v hv herase := by
    have hl : l ≤ s.store.bindings.level "*" := Bindings.level_le_of_valueAt _ _ hv
    constructor
    · by_cases hat : "*" = name ∧ l = level
      · obtain ⟨rfl, rfl⟩ := hat
        refine h.kept ?_ v hv
        rintro rfl
        exact herase (List.mem_singleton_self _)
      · exact ⟨v, (h.only.others "*" l (not_and_or.mp hat)).trans hv⟩
    · intro how' below hlt hmem
      cases List.mem_singleton.mp hmem
      have := h.positional rfl
      omega

theorem scope (h : FramedBy new (acquire .localScope s) s') :
    FramedBy new s (release .localScope s s') := by
  have hdepth : s'.store.localMembers.length = s.store.localMembers.length + 1 := h.depth
  have hpush := valueAt_acquire s
  have hpop : ∀ x level, level ≤ s.store.localMembers.length →
      (release .localScope s s').store.valueAt x level = s'.store.valueAt x level :=
    fun x level hle => valueAt_release (by omega) x
  constructor
  · exact h.log
  · show (List.tail _).length = _
    rw [List.length_tail, hdepth, Nat.add_sub_cancel]
  · intro x level hle hnone
    rw [hpop x level hle, h.unwritten x level (Nat.le_succ_of_le hle) hnone, hpush]
  · intro x level v hv hro hdefine
    have hle := Nat.le_trans (Bindings.level_le_of_valueAt _ _ hv) (Bindings.level_le _ _)
    rw [hpop x level hle]
    exact h.readonly x level v ((hpush x level).trans hv) hro hdefine
  · intro level v hv herase
    have hle := Nat.le_trans (Bindings.level_le_of_valueAt _ _ hv) (Bindings.level_le _ _)
    rw [hpop "*" level hle]
    exact h.shielded level v ((hpush "*" level).trans hv) herase

end FramedBy

/-- Every run. -/
theorem Evolves.framed {b : Bool} {cur : AstId} {s s' : Interpreter} (h : Evolves b cur s s') :
    ∃ new, FramedBy new s s' := by
  have hone : ∀ {e : Event}, (∀ how x level, e ≠ .wrote how x level) →
      ∀ how x level, Event.wrote how x level ∉ [e] :=
    fun he how x level hmem => he how x level (List.mem_singleton.mp hmem).symm
  -- The events of the steps together are those of the run.
  induction h with
  | refl s => exact ⟨[], .refl s⟩
  | trans _ _ ih₁ ih₂ =>
    obtain ⟨new₁, h₁⟩ := ih₁
    obtain ⟨new₂, h₂⟩ := ih₂
    exact ⟨new₂ ++ new₁, h₁.trans h₂⟩
  | loosen _ ih => exact ih
  | other h => exact ⟨[], .of_store h.log h.store fun _ _ _ => List.not_mem_nil⟩
  | wrote h => exact ⟨_, .of_storeStep h⟩
  | defined name index h =>
    exact ⟨[.defined _ _ _], .of_store rfl rfl (hone fun _ _ _ => by simp)⟩
  | removed s name => exact ⟨[.removed _], .of_store rfl rfl (hone fun _ _ _ => by simp)⟩
  | called h => exact ⟨[.called _ _ _], .of_store rfl rfl (hone fun _ _ _ => by simp)⟩
  | interrupted s => exact ⟨[.interrupted], .of_store rfl rfl (hone fun _ _ _ => by simp)⟩
  | constructed s t => exact ⟨[], .of_store rfl rfl fun _ _ _ => List.not_mem_nil⟩
  | redirected s streams outputs inputs =>
    exact ⟨[], .of_store rfl rfl fun _ _ _ => List.not_mem_nil⟩
  | restored _ ih =>
    obtain ⟨new, h⟩ := ih
    exact ⟨new, ⟨h.log, h.depth, h.unwritten, h.readonly, h.shielded⟩⟩
  | scope _ ih =>
    obtain ⟨new, h⟩ := ih
    exact ⟨new, h.scope⟩
  | interpret ht _ ih =>
    obtain ⟨new, h⟩ := ih
    exact ⟨new, ⟨h.log, h.depth, h.unwritten, h.readonly, h.shielded⟩⟩
  | @temporary b cur s s' t _ ih =>
    obtain ⟨new, h⟩ := ih
    have hend : FramedBy [.ended s.asts.length] s' (s'.destroy s.asts.length) :=
      .of_store rfl rfl (hone fun _ _ _ => by simp)
    have hbody : FramedBy new s s' := ⟨h.log, h.depth, h.unwritten, h.readonly, h.shielded⟩
    exact ⟨_, hbody.trans hend⟩

/-- The events of a run between two states. -/
def Interpreter.since (s s' : Interpreter) : List Event := s'.log.take (s'.log.length - s.log.length)

theorem since_eq {s s' : Interpreter} {new : List Event} (h : s'.log = new ++ s.log) :
    s.since s' = new := by
  unfold Interpreter.since
  rw [h, List.length_append, Nat.add_sub_cancel, List.take_left]

end Libbash
