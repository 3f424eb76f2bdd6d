import Libbash.Interp.Reading

/-!
# Programs that only look variables up

Such a program raises when something that it looks up is not there and the option
`u` is on, and ends otherwise; it changes nothing. `Checks` says on which
condition it raises, with a rule for each combinator, and the functions of the
interpreter that read variables get one lemma each.
-/

namespace Libbash

open Lib Lib.Comp Lib.Program

/-! ## Programs that check -/

/-- The run ends with an `unsupported_exception`. -/
def RaisesUnsupported {α : Type} (out : Option (Except Exn α × Interpreter)) : Prop :=
  ∃ what t, out = some (.error (.error .unsupported what), t)

/-- The program raises when `P` holds, ends otherwise, and changes nothing. -/
structure Checks (host : Host) (n d : Nat) (s : Interpreter) {α : Type} (p : Shell α) (P : Prop) :
    Prop where
  raises : P → ∃ what, runShell host n d p s = some (.error (.error .unsupported what), s)
  ends : ¬P → ∃ a, runShell host n d p s = some (.ok a, s)

/-- The variable is not there. -/
def Interpreter.Missing (s : Interpreter) (name : String) : Prop :=
  s.store.resolveVariable name = none

/-- The variable or the element is not there. -/
def Interpreter.Absent (s : Interpreter) (name : String) (index : UInt32) : Prop :=
  s.store.parameter name index = none

theorem Interpreter.Missing.absent {s : Interpreter} {name : String} (h : s.Missing name)
    (index : UInt32) : s.Absent name index := by
  unfold Absent Store.parameter
  rw [h, Option.bind_none]

section Checks

variable {host : Host} {n d : Nat} {s : Interpreter} {α β : Type} {p : Shell α} {P Q : Prop}

theorem Checks.raises_iff (h : Checks host n d s p P) :
    RaisesUnsupported (runShell host n d p s) ↔ P := by
  constructor
  · rintro ⟨what, t, hrun⟩
    by_contra hP
    obtain ⟨a, ha⟩ := h.ends hP
    rw [ha] at hrun
    cases hrun
  · intro hP
    obtain ⟨what, hrun⟩ := h.raises hP
    exact ⟨what, s, hrun⟩

theorem Checks.congr (h : Checks host n d s p P) (hiff : P ↔ Q) : Checks host n d s p Q :=
  ⟨fun hQ => h.raises (hiff.mpr hQ), fun hQ => h.ends fun hP => hQ (hiff.mp hP)⟩

theorem checks_pure (a : α) : Checks host n d s (pure a) False :=
  ⟨False.elim, fun _ => ⟨a, rfl⟩⟩

theorem checks_bind {k : α → Shell β} (hp : Checks host n d s p P)
    (hk : ∀ a, runShell host n d p s = some (.ok a, s) → Checks host n d s (k a) Q) :
    Checks host n d s (p >>= k) (P ∨ Q) := by
  by_cases hP : P
  · obtain ⟨what, hrun⟩ := hp.raises hP
    refine ⟨fun _ => ⟨what, ?_⟩, fun hnot => absurd (.inl hP) hnot⟩
    rw [runShell_bind]
    exact bind_of_error hrun _
  · obtain ⟨a, hrun⟩ := hp.ends hP
    have hrest := hk a hrun
    have hbind : runShell host n d (p >>= k) s = runShell host n d (k a) s := by
      rw [runShell_bind]
      exact bind_of_ok hrun _
    constructor
    · rintro (h | hQ)
      · exact absurd h hP
      · rw [hbind]
        exact hrest.raises hQ
    · intro hnot
      rw [hbind]
      exact hrest.ends fun hQ => hnot (.inr hQ)

/-- A program that goes on without a check. -/
theorem checks_andThen {k : α → Shell β} (hp : Checks host n d s p P)
    (hk : ∀ a, Checks host n d s (k a) False) : Checks host n d s (p >>= k) P :=
  (checks_bind hp fun a _ => hk a).congr (or_iff_left id)

theorem checks_resolveString (name : String) (index : UInt32) :
    Checks host n d s (Shell.resolveString name index) (s.nounset = true ∧ s.Absent name index) := by
  have hsome : (s.nounset && !(s.store.parameter name index).isSome) = true ↔
      s.nounset = true ∧ s.Absent name index := by
    unfold Interpreter.Absent
    rw [Bool.and_eq_true, Bool.not_eq_true', Option.isSome_eq_false_iff, Option.isNone_iff_eq_none]
  constructor
  · intro h
    rw [run_resolveString, if_pos (hsome.mpr h)]
    exact ⟨_, rfl⟩
  · intro h
    rw [run_resolveString, if_neg fun hraise => h (hsome.mp hraise)]
    exact ⟨_, rfl⟩

theorem checks_isValid (var : Option Variable) (name : String) :
    Checks host n d s (Shell.isValid var name) (s.nounset = true ∧ var = none) := by
  cases var with
  | some v =>
    refine ⟨fun h => ?_, fun _ => ⟨true, rfl⟩⟩
    cases h.2
  | none =>
    constructor
    · intro h
      rw [run_isValid_none, if_pos h.1]
      exact ⟨_, rfl⟩
    · intro h
      rw [run_isValid_none, if_neg fun hu => h ⟨hu, rfl⟩]
      exact ⟨_, rfl⟩

/-- The functions that look a variable up, check it and read it. -/
theorem checks_reading (name : String) (k : Option Variable → α) :
    Checks host n d s
      (do
        let var ← perform (.resolveVariable name)
        let _ ← Shell.isValid var name
        pure (k var)) (s.nounset = true ∧ s.Missing name) := by
  have hlookup : Checks host n d s (perform (.resolveVariable name)) False :=
    ⟨False.elim, fun _ => ⟨s.store.resolveVariable name, rfl⟩⟩
  refine (checks_bind hlookup fun var hvar => ?_).congr (Iff.of_eq (false_or _))
  obtain rfl : s.store.resolveVariable name = var := by
    rw [runShell_perform, performOp, reads_apply] at hvar
    exact Except.ok.inj (Prod.mk.inj (Option.some.inj hvar)).1
  exact checks_andThen (checks_isValid _ name) fun _ => checks_pure _

theorem checks_joiner :
    Checks host n d s Shell.joiner (s.nounset = true ∧ s.Absent "IFS" 0) :=
  checks_andThen (checks_resolveString "IFS" 0) fun _ => checks_pure _

theorem checks_resolveArray (name : String) :
    Checks host n d s (Shell.resolveArray name) (s.nounset = true ∧ s.Missing name) :=
  checks_reading name _

end Checks

/-! ## The functions that read variables -/

namespace Shell

/-- The names under which the positional parameters are. -/
def isPositional (name : String) : Bool := name == "*" || name == "@"

/-- `get_subarray` puts `$0` in front of the positional parameters. -/
def takesScript (name : String) (offset : Int64) : Bool :=
  isPositional name && offset.toInt == 0

/-- `get_subarray` finds an element at the offset, and joins. -/
def InRange (s : Interpreter) (name : String) (offset : Int64) : Prop :=
  takesScript name offset = true ∨ ∃ v, s.store.resolveVariable name = some v ∧
    (getRealOffset (if isPositional name && 0 < offset.toInt then offset.toInt - 1
      else offset.toInt) v.getAllValues.length).isSome = true

end Shell

section Checks

variable {host : Host} {n d : Nat} {s : Interpreter} {α β : Type}

/-- Two checks after each other. -/
theorem checks_seq {p : Shell α} {k : α → Shell β} {P Q : Prop}
    (hp : Checks host n d s p (s.nounset = true ∧ P))
    (hk : ∀ a, runShell host n d p s = some (.ok a, s) →
      Checks host n d s (k a) (s.nounset = true ∧ Q)) :
    Checks host n d s (p >>= k) (s.nounset = true ∧ (P ∨ Q)) :=
  (checks_bind hp hk).congr and_or_left.symm

theorem checks_getAllElementsIFSJoined (name : String) :
    Checks host n d s (Shell.getAllElementsIFSJoined name)
      (s.nounset = true ∧ (s.Absent "IFS" 0 ∨ s.Missing name)) := by
  refine checks_seq checks_joiner fun delim _ => ?_
  exact checks_andThen (checks_resolveArray name) fun _ => checks_pure _

theorem checks_replaceAll (name : String) (replacer : String → String) :
    Checks host n d s (Shell.replaceExpansion name none replacer)
      (s.nounset = true ∧ (s.Missing name ∨ s.Absent "IFS" 0)) := by
  refine checks_seq (checks_resolveArray name) fun array _ => ?_
  exact checks_andThen checks_joiner fun _ => checks_pure _

theorem checks_getSubstring (name : String) (offset : Int) (length : Option Nat) (index : UInt32) :
    Checks host n d s (Shell.getSubstring name offset length index)
      (s.nounset = true ∧ s.Absent name index) := by
  refine checks_andThen (checks_resolveString name index) fun value => ?_
  cases Shell.getRealOffset offset value.length with
  | none => exact checks_pure _
  | some start => exact checks_pure _

/-- `a+=(..)`; the test for a null value makes no check. -/
theorem checks_appendIndex (name : String) :
    Checks host n d s (Shell.appendIndex name) (s.nounset = true ∧ s.Missing name) := by
  refine checks_andThen (checks_reading name _) fun last => ?_
  show Checks host n d s (if last + 1 = 1 then _ else pure (last + 1)) False
  split_ifs
  · have htest : Checks host n d s (Shell.isUnsetOrNull name 0) False :=
      ⟨False.elim, fun _ => ⟨_, rfl⟩⟩
    refine checks_andThen htest fun null => ?_
    cases null with
    | true => exact checks_pure _
    | false => exact checks_pure _
  · exact checks_pure _

/-- The test of `${p-w}` and the like. -/
theorem checks_unsetTest (orNull : Bool) (name : String) (index : UInt32) :
    ∃ cond, runShell host n d (Shell.unsetTest orNull name index) s = some (.ok cond, s) ∧
      (cond = false → (orNull = false ∧ s.store.members[name]?.isSome = true) ∨
        ¬s.Absent name index) ∧
      (orNull = false → s.store.members[name]?.isSome = true → cond = false) := by
  cases orNull with
  | false =>
    refine ⟨_, rfl, fun hcond => .inl ⟨rfl, ?_⟩, fun _ hm => ?_⟩
    · exact Option.isNone_eq_false_iff.mp hcond
    · exact Option.isNone_eq_false_iff.mpr hm
  | true =>
    refine ⟨_, rfl, fun hcond => .inr fun habsent => ?_, fun h => by cases h⟩
    have hnull : ((s.store.resolveVariable name).map fun v => v.isNull index).getD true = false :=
      hcond
    cases hv : s.store.resolveVariable name with
    | none =>
      rw [hv] at hnull
      cases hnull
    | some v =>
      rw [Interpreter.Absent, parameter_of_resolve hv] at habsent
      rw [hv, Option.map_some, Option.getD_some, Variable.isNull, getValueString_eq, habsent]
        at hnull
      cases hnull

/-- The elements that `get_subarray` joins, and the offset. -/
theorem checks_subarrayRest (name : String) (length : Option Nat) (start : List String × Int) :
    Checks host n d s
      (do
        match ← Shell.resolveArray name with
        | none => pure ""
        | some values =>
          let array := start.1 ++ values
          match Shell.getRealOffset start.2 array.length with
          | none => pure ""
          | some from' => do
            let delim ← Shell.joiner
            pure (delim.intercalate ((array.drop from').take (length.getD array.length))))
      (s.nounset = true ∧ (s.Missing name ∨ (∃ v, s.store.resolveVariable name = some v ∧
        (Shell.getRealOffset start.2 (start.1 ++ v.getAllValues).length).isSome = true) ∧
          s.Absent "IFS" 0)) := by
  refine checks_seq (checks_resolveArray name) fun array harray => ?_
  cases hv : s.store.resolveVariable name with
  | none =>
    rw [run_resolveArray_none hv] at harray
    split_ifs at harray
    · cases harray
    · cases harray
      refine (checks_pure _).congr ⟨False.elim, ?_⟩
      rintro ⟨-, ⟨v, hv', -⟩, -⟩
      cases hv'
  | some v =>
    rw [run_resolveArray hv] at harray
    cases harray
    show Checks host n d s (match Shell.getRealOffset start.2 (start.1 ++ v.getAllValues).length with
      | none => pure ""
      | some from' => _) _
    cases hreal : Shell.getRealOffset start.2 (start.1 ++ v.getAllValues).length with
    | none =>
      refine (checks_pure _).congr ⟨False.elim, ?_⟩
      rintro ⟨-, ⟨v', hv', hsome⟩, -⟩
      cases hv'
      rw [hreal] at hsome
      cases hsome
    | some from' =>
      refine (checks_andThen checks_joiner fun _ => checks_pure _).congr ?_
      constructor
      · exact fun h => ⟨h.1, ⟨v, rfl, by rw [hreal]; rfl⟩, h.2⟩
      · exact fun h => ⟨h.1, h.2.2⟩

theorem subarrayStart_script {name : String} {offset : Int64}
    (h : Shell.takesScript name offset = true) :
    Shell.subarrayStart name offset.toInt = (do
      let script ← Shell.resolveString "0" 0
      pure ([script], 0)) := by
  obtain ⟨hname, hoffset⟩ := (Bool.and_eq_true _ _).mp h
  have hzero : offset.toInt = 0 := beq_iff_eq.mp hoffset
  unfold Shell.isPositional at hname
  unfold Shell.subarrayStart
  rw [if_pos hname, if_neg (by omega), if_pos hzero, hzero]

theorem subarrayStart_plain {name : String} {offset : Int64}
    (h : Shell.takesScript name offset = false) :
    Shell.subarrayStart name offset.toInt =
      pure ([], if Shell.isPositional name && 0 < offset.toInt then offset.toInt - 1
        else offset.toInt) := by
  unfold Shell.takesScript Shell.isPositional at h
  unfold Shell.subarrayStart Shell.isPositional
  cases hname : name == "*" || name == "@" with
  | false => rfl
  | true =>
    rw [hname, Bool.true_and, beq_eq_false_iff_ne] at h
    by_cases hpos : 0 < offset.toInt
    · simp [hpos]
    · simp [hpos, h]

/-- `$0` in front makes every list long enough. -/
theorem getRealOffset_script (script : String) (values : List String) :
    (Shell.getRealOffset 0 ([script] ++ values).length).isSome = true := by
  have hneg : ¬((0 : Int) < 0 ∨ (([script] ++ values).length : Int) ≤ 0) := by
    rw [List.singleton_append, List.length_cons]
    omega
  show (if (0 : Int) < 0 ∨ (([script] ++ values).length : Int) ≤ 0 then none
    else some (0 : Int).toNat : Option Nat).isSome = true
  rw [if_neg hneg]
  rfl

/-- `get_subarray`. -/
theorem checks_getSubarray (name : String) (offset : Int64) (length : Option Nat) :
    Checks host n d s (Shell.getSubarray name offset.toInt length)
      (s.nounset = true ∧ (Shell.takesScript name offset = true ∧ s.Absent "0" 0 ∨
        s.Missing name ∨ Shell.InRange s name offset ∧ s.Absent "IFS" 0)) := by
  unfold Shell.getSubarray
  cases htakes : Shell.takesScript name offset with
  | true =>
    have hscript : Checks host n d s
        (do
          let script ← Shell.resolveString "0" 0
          pure ([script], (0 : Int))) (s.nounset = true ∧ true = true ∧ s.Absent "0" 0) :=
      (checks_andThen (checks_resolveString "0" 0) fun _ => checks_pure _).congr (by simp)
    rw [subarrayStart_script htakes]
    refine checks_seq hscript fun start hrun => ?_
    obtain ⟨script, rfl⟩ : ∃ script : String, start = ([script], 0) := by
      rw [runShell_bind] at hrun
      rcases bind_cases hrun with ⟨script, t, -, hpure⟩ | ⟨e, -, he⟩
      · cases hpure
        exact ⟨script, rfl⟩
      · cases he
    refine (checks_subarrayRest name length ([script], 0)).congr (and_congr_right fun _ => ?_)
    constructor
    · rintro (hmissing | ⟨-, hifs⟩)
      · exact .inl hmissing
      · exact .inr ⟨.inl htakes, hifs⟩
    · rintro (hmissing | ⟨-, hifs⟩)
      · exact .inl hmissing
      · cases hv : s.store.resolveVariable name with
        | none => exact .inl hv
        | some v => exact .inr ⟨⟨v, rfl, getRealOffset_script script _⟩, hifs⟩
  | false =>
    rw [subarrayStart_plain htakes]
    show Checks host n d s (pure _ >>= fun start => _) _
    refine (checks_bind (checks_pure _) fun start hrun => ?_).congr (Iff.of_eq (false_or _))
    cases hrun
    refine (checks_subarrayRest name length ([], _)).congr (and_congr_right fun _ => ?_)
    have hrange : Shell.InRange s name offset ↔ ∃ v, s.store.resolveVariable name = some v ∧
        (Shell.getRealOffset (if Shell.isPositional name && 0 < offset.toInt
          then offset.toInt - 1 else offset.toInt) v.getAllValues.length).isSome = true := by
      unfold Shell.InRange
      rw [htakes]
      simp
    rw [hrange]
    simp

end Checks

end Libbash
