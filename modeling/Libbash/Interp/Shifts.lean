import Mathlib.Algebra.GroupWithZero.Nat
import Libbash.Arith.Elements
import Libbash.Interp.Positional

/-!
# `shift`

`variable::shift` copies the elements down in the map that it reads and erases the
tail. `shiftValues_drop`: what is left of a dense list is the list without its first
elements. A sequence of shifts takes a prefix off, as long as the sum of the counts
that were accepted (`shifts_drop`).
-/

namespace Libbash

open Lib Lib.Comp Lib.Program

/-! ## The values of a list -/

/-- `variable::shift` on the elements of a list. -/
theorem shiftValues_drop {m : Values} {l : List Value} (h : HoldsList m l) (number : UInt32) :
    (l.length < number.toNat → shiftValues number m = (false, m)) ∧
      (number.toNat ≤ l.length → (shiftValues number m).1 = true ∧
        HoldsList (shiftValues number m).2 (l.drop number.toNat)) := by
  unfold shiftValues
  rw [h.size]
  refine ⟨fun hlt => if_pos hlt, fun hle => ?_⟩
  by_cases hall : number.toNat = l.length
  · dsimp only
    rw [if_neg (by omega), if_pos hall, hall, List.drop_length]
    exact ⟨rfl, HoldsList.empty⟩
  · dsimp only
    rw [if_neg (by omega), if_neg hall]
    exact ⟨rfl, h.drop (.str "") hle⟩

/-! ## The list of a store -/

/-- A change through a pointer that has been used before. -/
theorem assign_assign {t : Store} {x : String} {v : Variable} (h : t.resolveVariable x = some v)
    (v' v'' : Variable) : (t.assign x v').assign x v'' = t.assign x v'' := by
  have hname := isEmpty_of_resolve h
  have hagain := Arith.resolveVariable_assign h v'
  rw [resolve_of_nonempty hname] at h hagain
  have hsome : t.bindings.resolve x ≠ none := by
    rw [h]
    exact Option.some_ne_none v
  have hsome' : (t.assign x v').bindings.resolve x ≠ none := by
    rw [hagain]
    exact Option.some_ne_none v'
  refine bindings_injective ?_
  rw [bindings_assign _ _ _ hsome', bindings_assign _ _ _ hsome, bindings_assign _ _ _ hsome,
    Bindings.replace_replace]

/-- The list that a call or `set --` makes. -/
theorem holdsList_positionalVariable {args : List String} (h : args.length < 2 ^ 32) :
    HoldsList (positionalVariable args).value (args.map .str) :=
  (HoldsList.insertAll h).map Value.str

/-- The positional parameters of a state are the elements of a list in the variable `v`,
which may be written. -/
structure Interpreter.HasParameters (s : Interpreter) (v : Variable) (l : List Value) : Prop where
  visible : s.store.resolveVariable "*" = some v
  writable : v.readonly = false
  holds : HoldsList v.value l

/-- The state in which the list in `v` has other elements. -/
def Interpreter.withParameters (s : Interpreter) (v : Variable) (m : Values) : Interpreter :=
  { s with store := s.store.assign "*" { v with value := m } }

/-- The state `s'` is `s` but for the elements of the list in `v`, which are those of `l`,
and for the history. -/
def Interpreter.Leaves (s : Interpreter) (v : Variable) (l : List Value) (s' : Interpreter) : Prop :=
  ∃ m log, s' = { s.withParameters v m with log := log } ∧
    s'.HasParameters { v with value := m } l

section Shift

variable {host : Host} {n d : Nat} {s : Interpreter} {v : Variable} {l : List Value}

theorem Interpreter.HasParameters.withParameters (h : s.HasParameters v l) {m : Values}
    {l' : List Value} (hm : HoldsList m l') :
    (s.withParameters v m).HasParameters { v with value := m } l' where
  visible := Arith.resolveVariable_assign h.visible _
  writable := h.writable
  holds := hm

/-- The history is no part of what a shift changes. -/
theorem withParameters_withParameters (h : s.HasParameters v l) (m m' : Values)
    (log : List Event) :
    ({ s.withParameters v m with log := log }).withParameters { v with value := m } m' =
      { s.withParameters v m' with log := log } := by
  unfold Interpreter.withParameters
  simp only [assign_assign h.visible]

/-- A shift by a number that the list has elements for. -/
theorem run_shiftBy_of_le (h : s.HasParameters v l) {k : Int32} (hk : 0 ≤ k.toInt)
    (hle : k.toInt ≤ l.length) :
    ∃ m log, HoldsList m (l.drop k.toInt.toNat) ∧
      runShell host n d (Shell.shiftBy k.toInt) s =
        some (.ok 0, { s.withParameters v m with log := log }) := by
  have hbound := k.toInt_lt
  have hnat : (UInt32.ofNat k.toInt.toNat).toNat = k.toInt.toNat :=
    UInt32.toNat_ofNat_of_lt' (show k.toInt.toNat < 2 ^ 32 by omega)
  obtain ⟨htrue, hdrop⟩ := (shiftValues_drop h.holds (.ofNat k.toInt.toNat)).2 (by omega)
  rw [hnat] at hdrop
  have hshift : shiftParameters (.ofNat k.toInt.toNat) s.store =
      some (.ok 0, s.store.assign "*"
        { v with value := (shiftValues (.ofNat k.toInt.toNat) v.value).2 }) := by
    unfold shiftParameters
    rw [reads_bind_apply]
    simp only [id_eq, h.visible]
    rw [if_neg (by rw [h.writable]; decide), update_bind_apply, htrue]
    rfl
  refine ⟨_, .wrote .update "*" (s.store.level "*") :: s.log, hdrop, ?_⟩
  rw [Shell.shiftBy, if_neg (by omega), runShell_perform, performOp, writing_of_ok hshift]
  rfl

/-- A shift by a negative number or by more than there is. -/
theorem run_shiftBy_refused (h : s.HasParameters v l) {k : Int32}
    (hk : k.toInt < 0 ∨ l.length < k.toInt) :
    ∃ log, runShell host n d (Shell.shiftBy k.toInt) s = some (.ok 1, { s with log := log }) := by
  by_cases hneg : k.toInt < 0
  · refine ⟨s.log, ?_⟩
    rw [Shell.shiftBy, if_pos hneg]
    rfl
  · have hbound := k.toInt_lt
    have hnat : (UInt32.ofNat k.toInt.toNat).toNat = k.toInt.toNat :=
      UInt32.toNat_ofNat_of_lt' (show k.toInt.toNat < 2 ^ 32 by omega)
    have hlt : v.getArrayLength < (UInt32.ofNat k.toInt.toNat).toNat := by
      rw [Variable.getArrayLength, h.holds.size, hnat]
      omega
    refine ⟨.wrote .update "*" (s.store.level "*") :: s.log, ?_⟩
    rw [Shell.shiftBy, if_neg hneg, runShell_perform, performOp,
      writing_of_ok (shiftParameters_refused h.visible h.writable hlt)]
    rfl

/-- What a shift leaves, whether it succeeds or not. -/
theorem run_shiftBy (h : s.HasParameters v l) (k : Int32) :
    ∃ status m log, HoldsList m (l.drop (if status = 0 then k.toInt.toNat else 0)) ∧
      runShell host n d (Shell.shiftBy k.toInt) s =
        some (.ok status, { s.withParameters v m with log := log }) := by
  by_cases hk : 0 ≤ k.toInt ∧ k.toInt ≤ l.length
  · obtain ⟨m, log, hm, hrun⟩ := run_shiftBy_of_le h hk.1 hk.2
    exact ⟨0, m, log, hm, hrun⟩
  · obtain ⟨log, hrun⟩ := @run_shiftBy_refused host n d s v l h k (by omega)
    refine ⟨1, v.value, log, h.holds, hrun.trans ?_⟩
    have hself : s.withParameters v v.value = s := by
      unfold Interpreter.withParameters
      rw [assign_self h.visible]
    rw [hself]

/-! ## Sequences of shifts -/

/-- Shifts one after the other, with their results. -/
def Shell.shiftAll : List Int32 → Shell (List Int)
  | [] => pure []
  | k :: ks => do
    let status ← Shell.shiftBy k.toInt
    let statuses ← shiftAll ks
    pure (status :: statuses)

/-- The sum of the counts that were accepted. -/
def acceptedSum (ks : List Int32) (statuses : List Int) : Nat :=
  ((ks.zip statuses).map fun p => if p.2 = 0 then p.1.toInt.toNat else 0).sum

theorem run_shiftAll (h : s.HasParameters v l) (ks : List Int32) :
    ∃ statuses m log, HoldsList m (l.drop (acceptedSum ks statuses)) ∧
      runShell host n d (Shell.shiftAll ks) s =
        some (.ok statuses, { s.withParameters v m with log := log }) := by
  induction ks generalizing s v l with
  | nil =>
    refine ⟨[], v.value, s.log, h.holds, ?_⟩
    unfold Interpreter.withParameters
    rw [assign_self h.visible]
    rfl
  | cons k ks ih =>
    obtain ⟨status, m, log, hm, hstep⟩ := @run_shiftBy host n d s v l h k
    have hnext : ({ s.withParameters v m with log := log } : Interpreter).HasParameters
        { v with value := m } (l.drop (if status = 0 then k.toInt.toNat else 0)) :=
      ⟨(h.withParameters hm).visible, h.writable, hm⟩
    obtain ⟨statuses, m', log', hm', hrest⟩ := ih hnext
    refine ⟨status :: statuses, m', log', ?_, ?_⟩
    · rw [List.drop_drop] at hm'
      exact hm'
    · rw [Shell.shiftAll, runShell_bind, bind_of_ok hstep, runShell_bind, bind_of_ok hrest,
        runShell_pure, pure_apply]
      rw [withParameters_withParameters h]

/-- Two shifts that the list has elements for are one by the sum. -/
theorem run_shiftBy_add (h : s.HasParameters v l) {a b c : Int32} (ha : 0 ≤ a.toInt)
    (hb : 0 ≤ b.toInt) (hc : c.toInt = a.toInt + b.toInt) (hle : c.toInt ≤ l.length) :
    ∃ m log log',
      runShell host n d (do let _ ← Shell.shiftBy a.toInt; Shell.shiftBy b.toInt) s =
        some (.ok 0, { s.withParameters v m with log := log }) ∧
      runShell host n d (Shell.shiftBy c.toInt) s =
        some (.ok 0, { s.withParameters v m with log := log' }) := by
  obtain ⟨m, log, hm, hfirst⟩ := @run_shiftBy_of_le host n d s v l h a ha (by omega)
  have hnext : ({ s.withParameters v m with log := log } : Interpreter).HasParameters
      { v with value := m } (l.drop a.toInt.toNat) :=
    ⟨(h.withParameters hm).visible, h.writable, hm⟩
  obtain ⟨m', log', hm', hsecond⟩ := @run_shiftBy_of_le host n d _ _ _ hnext b hb (by
    rw [List.length_drop]
    omega)
  obtain ⟨m'', log'', hm'', hsum⟩ := @run_shiftBy_of_le host n d s v l h c (by omega) hle
  have hcount : c.toInt.toNat = a.toInt.toNat + b.toInt.toNat := by omega
  rw [List.drop_drop, ← hcount] at hm'
  obtain rfl : m' = m'' := hm'.unique hm''
  refine ⟨m', log', log'', ?_, hsum⟩
  rw [runShell_bind, bind_of_ok hfirst, hsecond, withParameters_withParameters h]

theorem Interpreter.HasParameters.leaves (h : s.HasParameters v l) {m : Values}
    {l' : List Value} (hm : HoldsList m l') (log : List Event) :
    s.Leaves v l' { s.withParameters v m with log := log } :=
  ⟨m, log, rfl, (h.withParameters hm).visible, h.writable, hm⟩

/-- On a dense list that may be written, a shift by `k` from 0 to the number of elements
returns 0 and leaves the elements behind the first `k` as a dense list, and any other
shift returns 1 and changes nothing; so a sequence of shifts takes off as many elements as
its successful shifts count, and two shifts are one by their sum. -/
theorem shifts_drop (h : s.HasParameters v l) :
    (∀ k : Int32, 0 ≤ k.toInt → k.toInt ≤ l.length →
      ∃ s', runShell host n d (Shell.shiftBy k.toInt) s = some (.ok 0, s') ∧
        s.Leaves v (l.drop k.toInt.toNat) s') ∧
    (∀ k : Int32, k.toInt < 0 ∨ l.length < k.toInt →
      ∃ log, runShell host n d (Shell.shiftBy k.toInt) s = some (.ok 1, { s with log := log })) ∧
    (∀ ks : List Int32, ∃ statuses s',
      runShell host n d (Shell.shiftAll ks) s = some (.ok statuses, s') ∧
        s.Leaves v (l.drop (acceptedSum ks statuses)) s') ∧
    ∀ a b c : Int32, 0 ≤ a.toInt → 0 ≤ b.toInt → c.toInt = a.toInt + b.toInt →
      c.toInt ≤ l.length →
      ∃ s' log,
        runShell host n d (do let _ ← Shell.shiftBy a.toInt; Shell.shiftBy b.toInt) s =
          some (.ok 0, s') ∧
        runShell host n d (Shell.shiftBy c.toInt) s = some (.ok 0, { s' with log := log }) := by
  refine ⟨fun k hk hle => ?_, fun k => run_shiftBy_refused h, fun ks => ?_,
    fun a b c ha hb hc hle => ?_⟩
  · obtain ⟨m, log, hm, hrun⟩ := @run_shiftBy_of_le host n d s v l h k hk hle
    exact ⟨_, hrun, h.leaves hm log⟩
  · obtain ⟨statuses, m, log, hm, hrun⟩ := @run_shiftAll host n d s v l h ks
    exact ⟨statuses, _, hrun, h.leaves hm log⟩
  · obtain ⟨m, log, log', hboth, hsum⟩ := @run_shiftBy_add host n d s v l h a b c ha hb hc hle
    exact ⟨_, log', hboth, hsum⟩

end Shift

/-- Three positional parameters at the top level. -/
def threeParameters : Interpreter :=
  { Interpreter.initial [] with
    store := {
      members := (∅ : Scope).insert "*" (positionalVariable ["a", "b", "c"])
      localMembers := [] } }

theorem shifts_drop_threeParameters :
    ∃ s', runShell (.ofTexts [] []) 0 0 (Shell.shiftBy (2 : Int32).toInt) threeParameters =
        some (.ok 0, s') ∧
      threeParameters.Leaves (positionalVariable ["a", "b", "c"]) [.str "c"] s' := by
  have h : threeParameters.HasParameters (positionalVariable ["a", "b", "c"])
      [.str "a", .str "b", .str "c"] :=
    { visible := by
        show ((∅ : Scope).insert "*" (positionalVariable ["a", "b", "c"]))["*"]? = _
        exact Std.ExtTreeMap.getElem?_insert_self
      writable := rfl
      holds := holdsList_positionalVariable (by decide) }
  exact (shifts_drop h).1 2 (by decide) (by decide)

end Libbash
