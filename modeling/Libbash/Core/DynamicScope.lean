import Libbash.Core.StoreBindings

/-!
# The variable store implements dynamic scoping

`StoreOp.spec` says what each operation does to the stacks of bindings. Every
operation of the interpreter does just that (`exec_spec`), and so does every
sequence of operations, whatever the store it starts from
(`store_implements_dynamic_scoping`).
-/

namespace Libbash

open Lib Lib.Comp

/-! ## Operations -/

/-- A name that all operations accept. -/
structure VarName where
  text : String
  nonempty : text.isEmpty = false
  nodigit : (text.toList.head?.map Char.isDigit).getD false = false

inductive StoreOp where
  | push
  | pop
  | define (x : VarName) (init : Initial) (readonly : Bool)
  | defineLocal (x : VarName) (init : Initial) (readonly : Bool)
  | setValue (x : VarName) (new : Value) (index : UInt32)
  | unset (x : VarName)
  | unsetIndex (x : VarName) (index : UInt32)

namespace StoreOp

def exec : StoreOp → Comp Exn Store Unit
  | .push => pushScope
  | .pop => popScope
  | .define x init readonly => Libbash.define x.text init readonly
  | .defineLocal x init readonly => Libbash.defineLocal x.text init readonly
  | .setValue x new index => Libbash.setValue x.text new index
  | .unset x => Libbash.unset x.text
  | .unsetIndex x index => Libbash.unsetIndex x.text index

/-- Act on the innermost binding of a name, which must not be readonly; without
one, do `missing`. -/
def onInnermost (name : String) (missing : Comp Exn (Bindings String Variable) Unit)
    (what : Variable → String)
    (change : Variable → Bindings String Variable → Bindings String Variable) :
    Comp Exn (Bindings String Variable) Unit := do
  match ← reads fun b => b.resolve name with
  | none => missing
  | some v => if v.readonly then throw (.error .readonly (what v)) else update (change v)

/-- What dynamic scoping makes of each operation. -/
def spec : StoreOp → Comp Exn (Bindings String Variable) Unit
  | .push => update Bindings.push
  | .pop => do
    let b ← reads id
    if b.depth = 0 then throw .undefinedBehaviour else update Bindings.pop
  | .define x init readonly =>
    update fun b => b.bindGlobal x.text (.new x.text init readonly)
  | .defineLocal x init readonly => do
    let b ← reads id
    if b.depth = 0 then throw (.error .runtime "Define local variables outside function scope")
    else update fun b => b.bindLocal x.text (.new x.text init readonly)
  | .setValue x new index =>
    onInnermost x.text
      (update fun b => b.bindGlobal x.text (.new x.text (.scalar new index) false))
      (fun v => v.name ++ " is readonly variable")
      fun v b => b.replace x.text { v with value := v.value.insert index new }
  | .unset x =>
    onInnermost x.text (pure ()) (fun _ => "unset a readonly variable") fun _ b =>
      b.uncover x.text
  | .unsetIndex x index =>
    onInnermost x.text (pure ()) (fun _ => "unset a readonly variable") fun v b =>
      b.replace x.text { v with value := v.value.erase index }

/-- The name an operation is about. -/
def name? : StoreOp → Option String
  | .push | .pop => none
  | .define x _ _ | .defineLocal x _ _ | .setValue x _ _ | .unset x | .unsetIndex x _ =>
    some x.text

end StoreOp

/-! ## Each operation does what dynamic scoping says -/

section Correct

variable (s : Store) (x : VarName)

theorem resolve_text : s.resolveVariable x.text = s.bindings.resolve x.text :=
  resolveVariable_eq s x.nonempty

theorem checkUnsetPositional_text : checkUnsetPositional x.text = pure () := by
  unfold checkUnsetPositional
  rw [x.nodigit]
  rfl

theorem setValue_spec (new : Value) (index : UInt32) :
    ((StoreOp.setValue x new index).exec s).map (Prod.map id Store.bindings) =
      (StoreOp.setValue x new index).spec s.bindings := by
  simp only [StoreOp.exec, StoreOp.spec, StoreOp.onInnermost, Libbash.setValue, reads_bind_apply,
    id_eq, resolve_text]
  cases hr : s.bindings.resolve x.text with
  | none =>
    simp only [Libbash.define, update_apply, Option.map_some, Prod.map_apply, id_eq]
    rw [bindings_define]
  | some v =>
    have hassign := fun v' => bindings_assign s x.text v' (by rw [hr]; exact Option.some_ne_none v)
    simp only [throughPointer, Variable.setValue, reads_bind_apply, id_eq]
    split_ifs with hro
    · simp only [throw_apply, Option.map_some, Prod.map_apply, id_eq, hassign,
        Bindings.replace_self _ _ hr]
    · simp only [update_apply, Option.map_some, Prod.map_apply, id_eq, hassign]

/-- A computation over a part of which only the effect counts. -/
theorem zoom_bind_unit {T : Type} {get : Store → T} {set : T → Store → Store}
    {m : Comp Exn T Bool} :
    (zoom get set m >>= fun _ => (pure () : Comp Exn Store Unit)) s =
      (zoom get set m s).map fun out => (out.1.map fun _ => (), out.2) := by
  rcases h : zoom get set m s with _ | ⟨e | b, t⟩
  · rw [bind_of_none h]
    rfl
  · rw [bind_of_error h]
    rfl
  · rw [bind_of_ok h]
    rfl

theorem unset_spec :
    ((StoreOp.unset x).exec s).map (Prod.map id Store.bindings) =
      (StoreOp.unset x).spec s.bindings := by
  simp only [StoreOp.exec, StoreOp.spec, StoreOp.onInnermost, Libbash.unset,
    checkUnsetPositional_text, pure_bind, reads_bind_apply]
  have hframes := noneOf_unsetter x.text s.localMembers
  cases hb : frameBindings x.text s.localMembers with
  | nil =>
    -- no frame binds the name: the global entry is looked at
    rw [hb] at hframes
    have hres : s.bindings.resolve x.text = s.members[x.text]? := by
      unfold Bindings.resolve
      rw [stack_bindings, hb, globalBinding]
      cases s.members[x.text]? <;> rfl
    have hzoom : zoom Store.localMembers (fun frames s => { s with localMembers := frames })
        (noneOf (unsetter x.text)) s = some (.ok true, s) := by
      simp only [zoom, hframes]
    rw [bind_of_ok hzoom, hres]
    simp only [if_true, zoom_bind_unit, zoom, unsetter_eq]
    cases hm : s.members[x.text]? with
    | none => rfl
    | some v =>
      simp only
      split_ifs with hro
      · rfl
      · simp only [Option.map_some, Prod.map_apply, id_eq, update_apply]
        rw [bindings_eraseGlobal hb]
        rfl
  | cons e rest =>
    rw [hb] at hframes
    have hres : s.bindings.resolve x.text = some e.2 := by
      unfold Bindings.resolve
      rw [stack_bindings, hb]
      rfl
    rw [hres]
    simp only at hframes ⊢
    split_ifs at hframes ⊢ with hro
    · have hzoom : zoom Store.localMembers (fun frames s => { s with localMembers := frames })
          (noneOf (unsetter x.text)) s =
            some (.error (.error .readonly "unset a readonly variable"), s) := by
        simp only [zoom, hframes]
      rw [bind_of_error hzoom]
      rfl
    · obtain ⟨frames, hrun, hlen, hself, hother⟩ := hframes
      have hzoom : zoom Store.localMembers (fun frames s => { s with localMembers := frames })
          (noneOf (unsetter x.text)) s = some (.ok false, { s with localMembers := frames }) := by
        simp only [zoom, hrun]
      rw [bind_of_ok hzoom]
      simp only [Bool.false_eq_true, if_false, pure_apply, update_apply, Option.map_some,
        Prod.map_apply, id_eq]
      congr 2
      refine bindings_eq_withStack hlen ?_ fun y hy => ?_
      · rw [stack_bindings, stack_bindings, hself, hb]
        rfl
      · rw [stack_bindings, stack_bindings, hother y hy]

theorem unsetIndex_spec (index : UInt32) :
    ((StoreOp.unsetIndex x index).exec s).map (Prod.map id Store.bindings) =
      (StoreOp.unsetIndex x index).spec s.bindings := by
  simp only [StoreOp.exec, StoreOp.spec, StoreOp.onInnermost, Libbash.unsetIndex,
    checkUnsetPositional_text, pure_bind, reads_bind_apply, id_eq, resolve_text]
  cases hr : s.bindings.resolve x.text with
  | none => rfl
  | some v =>
    have hassign := fun v' => bindings_assign s x.text v' (by rw [hr]; exact Option.some_ne_none v)
    simp only
    split_ifs with hro
    · rfl
    · simp only [throughPointer, Variable.unsetValue, reads_bind_apply, id_eq, if_neg hro,
        update_apply, Option.map_some, Prod.map_apply, hassign]

/-- One operation, on any store. -/
theorem exec_spec (op : StoreOp) :
    (op.exec s).map (Prod.map id Store.bindings) = op.spec s.bindings := by
  cases op with
  | push =>
    simp only [StoreOp.exec, StoreOp.spec, pushScope, update_apply, Option.map_some,
      Prod.map_apply, id_eq, bindings_push]
  | pop =>
    simp only [StoreOp.exec, StoreOp.spec, popScope, reads_bind_apply, id_eq]
    cases hs : s.localMembers with
    | nil =>
      rw [if_pos (show s.bindings.depth = 0 from congrArg List.length hs)]
      rfl
    | cons frame frames =>
      have hdepth : s.bindings.depth ≠ 0 := by
        rw [show s.bindings.depth = frames.length + 1 from congrArg List.length hs]
        exact Nat.succ_ne_zero _
      rw [if_neg hdepth]
      simp only [update_apply, Option.map_some, Prod.map_apply, id_eq, bindings_pop hs]
  | define y init readonly =>
    simp only [StoreOp.exec, StoreOp.spec, Libbash.define, update_apply, Option.map_some,
      Prod.map_apply, id_eq, bindings_define]
  | defineLocal y init readonly =>
    simp only [StoreOp.exec, StoreOp.spec, Libbash.defineLocal, reads_bind_apply, id_eq]
    cases hs : s.localMembers with
    | nil =>
      rw [if_pos (show s.bindings.depth = 0 from congrArg List.length hs)]
      rfl
    | cons frame frames =>
      have hdepth : s.bindings.depth ≠ 0 := by
        rw [show s.bindings.depth = frames.length + 1 from congrArg List.length hs]
        exact Nat.succ_ne_zero _
      rw [if_neg hdepth]
      simp only [update_apply, Option.map_some, Prod.map_apply, id_eq, bindings_defineLocal hs]
  | setValue y new index => exact setValue_spec s y new index
  | unset y => exact unset_spec s y
  | unsetIndex y index => exact unsetIndex_spec s y index

end Correct

/-! ## Every sequence of operations -/

section Runs

variable {b b' : Bindings String Variable} {op : StoreOp}

/-- What `onInnermost` comes to. -/
theorem onInnermost_cases {name : String} {missing : Comp Exn (Bindings String Variable) Unit}
    {what : Variable → String}
    {change : Variable → Bindings String Variable → Bindings String Variable}
    {r : Except Exn Unit} (h : StoreOp.onInnermost name missing what change b = some (r, b')) :
    (b.resolve name = none ∧ missing b = some (r, b')) ∨
      (∃ v, r = .error (.error .readonly (what v)) ∧ b' = b) ∨
        ∃ v, b.resolve name = some v ∧ r = .ok () ∧ b' = change v b := by
  unfold StoreOp.onInnermost at h
  rw [reads_bind_apply] at h
  cases hr : b.resolve name with
  | none => rw [hr] at h; exact .inl ⟨rfl, h⟩
  | some v =>
    rw [hr] at h
    simp only at h
    split_ifs at h
    · cases h
      exact .inr (.inl ⟨v, rfl, rfl⟩)
    · cases h
      exact .inr (.inr ⟨v, rfl, rfl, rfl⟩)

/-- An operation that raises changes nothing. -/
theorem spec_error {e : Exn} (h : op.spec b = some (.error e, b')) : b' = b := by
  cases op with
  | push => cases h
  | define y init readonly => cases h
  | pop =>
    simp only [StoreOp.spec, reads_bind_apply, id_eq] at h
    split_ifs at h <;> cases h
    rfl
  | defineLocal y init readonly =>
    simp only [StoreOp.spec, reads_bind_apply, id_eq] at h
    split_ifs at h <;> cases h
    rfl
  | setValue y new index =>
    rcases onInnermost_cases h with ⟨-, h⟩ | ⟨v, -, rfl⟩ | ⟨v, -, hr, -⟩
    · cases h
    · rfl
    · cases hr
  | unset y =>
    rcases onInnermost_cases h with ⟨-, h⟩ | ⟨v, -, rfl⟩ | ⟨v, -, hr, -⟩
    · cases h
    · rfl
    · cases hr
  | unsetIndex y index =>
    rcases onInnermost_cases h with ⟨-, h⟩ | ⟨v, -, rfl⟩ | ⟨v, -, hr, -⟩
    · cases h
    · rfl
    · cases hr

/-- Names an operation is not about keep their bindings, but for those that a
pop removes: the ones made in the top frame. -/
theorem spec_frame {r : Except Exn Unit} (h : op.spec b = some (r, b')) (y : String)
    (hy : op.name? ≠ some y) : b'.stack y = b.stack y ∨
      op = .pop ∧ b'.stack y = (b.stack y).filter fun e => e.1 ≤ b.depth - 1 := by
  have hne : ∀ x : VarName, some x.text ≠ some y → y ≠ x.text := fun x hx hy => hx (by rw [hy])
  cases op with
  -- An operation has one name, and only the end of a scope changes the others.
  | push => cases h; exact .inl rfl
  | define x init readonly =>
    cases h
    exact .inl (Bindings.stack_withStack_ne _ _ (hne x hy))
  | pop =>
    simp only [StoreOp.spec, reads_bind_apply, id_eq] at h
    split_ifs at h <;> cases h
    · exact .inl rfl
    · exact .inr ⟨rfl, rfl⟩
  | defineLocal x init readonly =>
    simp only [StoreOp.spec, reads_bind_apply, id_eq] at h
    split_ifs at h <;> cases h
    · exact .inl rfl
    · exact .inl (Bindings.stack_withStack_ne _ _ (hne x hy))
  | setValue x new index =>
    rcases onInnermost_cases h with ⟨-, h⟩ | ⟨v, -, rfl⟩ | ⟨v, -, -, rfl⟩
    · cases h
      exact .inl (Bindings.stack_withStack_ne _ _ (hne x hy))
    · exact .inl rfl
    · exact .inl (Bindings.stack_withStack_ne _ _ (hne x hy))
  | unset x =>
    rcases onInnermost_cases h with ⟨-, h⟩ | ⟨v, -, rfl⟩ | ⟨v, -, -, rfl⟩
    · cases h
      exact .inl rfl
    · exact .inl rfl
    · exact .inl (Bindings.stack_withStack_ne _ _ (hne x hy))
  | unsetIndex x index =>
    rcases onInnermost_cases h with ⟨-, h⟩ | ⟨v, -, rfl⟩ | ⟨v, -, -, rfl⟩
    · cases h
      exact .inl rfl
    · exact .inl rfl
    · exact .inl (Bindings.stack_withStack_ne _ _ (hne x hy))

theorem exec_cases {s t : Store} {r : Except Exn Unit} (h : op.exec s = some (r, t)) :
    op.spec s.bindings = some (r, t.bindings) := by
  rw [← exec_spec s op, h]
  rfl

/-- A readonly innermost binding makes an operation on it raise. -/
theorem onInnermost_readonly {name : String}
    {missing : Comp Exn (Bindings String Variable) Unit} {what : Variable → String}
    {change : Variable → Bindings String Variable → Bindings String Variable} {v : Variable}
    (hv : b.resolve name = some v) (hro : v.readonly = true) :
    StoreOp.onInnermost name missing what change b =
      some (.error (.error .readonly (what v)), b) := by
  unfold StoreOp.onInnermost
  rw [reads_bind_apply, hv]
  simp only [if_pos hro, throw_apply]

theorem exec_of_spec {s : Store} {r : Except Exn Unit} (h : op.spec s.bindings = some (r, s.bindings)) :
    op.exec s = some (r, s) := by
  have hmap := exec_spec s op
  rw [h] at hmap
  obtain ⟨⟨r', t⟩, hrun, hout⟩ := Option.map_eq_some_iff.mp hmap
  simp only [Prod.map_apply, id_eq, Prod.mk.injEq] at hout
  rw [hrun, hout.1, bindings_injective hout.2]

/-- What dynamic scoping promises of a store. -/
structure ScopedAt (t : Store) : Prop where
  /-- `resolve_variable` gives the innermost binding. -/
  resolves : ∀ x : VarName, t.resolveVariable x.text = t.bindings.resolve x.text
  /-- `unset` uncovers the next outer binding. -/
  uncovers : ∀ (x : VarName) u, (StoreOp.unset x).exec t = some (.ok (), u) →
    u.resolveVariable x.text = (t.bindings.stack x.text).tail.head?.map Prod.snd
  /-- A readonly innermost binding refuses every change and removal. -/
  refuses : ∀ (x : VarName) v, t.resolveVariable x.text = some v → v.readonly = true →
    (∀ new index, ∃ what,
      (StoreOp.setValue x new index).exec t = some (.error (.error .readonly what), t)) ∧
    (∃ what, (StoreOp.unset x).exec t = some (.error (.error .readonly what), t)) ∧
    ∀ index, ∃ what,
      (StoreOp.unsetIndex x index).exec t = some (.error (.error .readonly what), t)
  /-- An operation that raises leaves the store as it was. -/
  unchanged : ∀ (op : StoreOp) e u, op.exec t = some (.error e, u) → u = t
  /-- Other names keep their bindings; a pop removes those of the top frame. -/
  others : ∀ (op : StoreOp) r u y, op.exec t = some (r, u) → op.name? ≠ some y →
    u.bindings.stack y = t.bindings.stack y ∨
      op = .pop ∧ u.bindings.stack y =
        (t.bindings.stack y).filter fun e => e.1 ≤ t.bindings.depth - 1

theorem unset_uncovers {s t : Store} {x : VarName}
    (h : (StoreOp.unset x).exec s = some (.ok (), t)) :
    t.resolveVariable x.text = (s.bindings.stack x.text).tail.head?.map Prod.snd := by
  rw [resolve_text]
  rcases onInnermost_cases (exec_cases h) with ⟨hr, hspec⟩ | ⟨v, hr, -⟩ | ⟨v, -, -, hspec⟩
  · have hb : s.bindings = t.bindings := (Prod.mk.inj (Option.some.inj hspec)).2
    rw [← hb, hr, (Bindings.resolve_eq_none _ _).mp hr]
    rfl
  · cases hr
  · rw [hspec, Bindings.resolve_uncover]

theorem scopedAt (t : Store) : ScopedAt t where
  resolves := resolve_text t
  uncovers _ _ h := unset_uncovers h
  refuses x v hv hro := by
    rw [resolve_text] at hv
    exact ⟨fun _ _ => ⟨_, exec_of_spec (onInnermost_readonly hv hro)⟩,
      ⟨_, exec_of_spec (onInnermost_readonly hv hro)⟩,
      fun _ => ⟨_, exec_of_spec (onInnermost_readonly hv hro)⟩⟩
  unchanged _ _ _ h := bindings_injective (spec_error (exec_cases h))
  others _ _ _ y h hy := spec_frame (exec_cases h) y hy

/-- Any sequence of operations, starting from any store: the store behaves as
one stack of bindings per name, on which each operation does what
`StoreOp.spec` says, and is scoped in every state reached. -/
theorem store_implements_dynamic_scoping (ops : List StoreOp) (s : Store) :
    (observe StoreOp.exec ops s).map (Prod.map id Store.bindings) =
      observe StoreOp.spec ops s.bindings ∧
    ∀ rs t, observe StoreOp.exec ops s = some (rs, t) → ScopedAt t :=
  ⟨observe_map (fun op s => exec_spec s op) ops s, fun _ t _ => scopedAt t⟩

end Runs

end Libbash
