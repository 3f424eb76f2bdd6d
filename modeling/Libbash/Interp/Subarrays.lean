import Libbash.Interp.ListVariables
import Libbash.Interp.Substrings

/-!
# Slices of arrays and of the positional parameters

A slot is a variable with an index that has a value. `Wanted` slots are what a
slice means: for an array by index, for the positional parameters by position in
the list `$0`, `$1`, .. . `get_subarray` counts positions in both cases, and in
the list without `$0` when the offset is negative, so it starts at a place of
its own. The two slices are the same for all values exactly when the places
are, which depends on the indices, the offset and the length only.
-/

namespace Libbash

open Lib Lib.Comp Lib.Program

/-! ## Slots -/

/-- What `array_name` names: the positional parameters, or an array. -/
inductive SliceName where
  | positional
  | array (libbashName : Identifier)

def SliceName.text : SliceName → String
  | positional => "*"
  | array libbashName => libbashName.text

/-- The indices that a variable has, in their order. -/
def Store.indices (t : Store) (name : String) : List UInt32 :=
  ((t.resolveVariable name).map fun v => v.value.keys).getD []

/-- A variable and an index. -/
abbrev Slot := String × UInt32

/-- The slots of an array, or `$0`, `$1`, .. . -/
def Store.slots (t : Store) : SliceName → List Slot
  | .positional => ("0", 0) :: (t.indices "*").map (Prod.mk "*")
  | .array libbashName => (t.indices libbashName.text).map (Prod.mk libbashName.text)

/-- The text of slots, joined. -/
def Interpreter.joined (s : Interpreter) (slots : List Slot) : String :=
  s.delimiter.intercalate (slots.map fun slot => s.valueOf slot.1 slot.2)

/-! ## The slice that is meant -/

/-- One past the largest index. -/
def onePast (indices : List UInt32) : Nat := (indices.getLast?.map (·.toNat + 1)).getD 0

/-- The index that an offset stands for. -/
def startIndex (indices : List UInt32) (offset : Int) : Int := position (onePast indices) offset

/-- The first `n` indices that are at least the start, or all; an offset that
reaches back before the index 0 selects none. -/
def selectIndices (indices : List UInt32) (offset : Int) (n : Option Nat) : List UInt32 :=
  if startIndex indices offset < 0 then []
  else upTo n (indices.filter fun i => startIndex indices offset ≤ i.toNat)

/-- The slots of a slice. -/
def Store.wanted (t : Store) (a : SliceName) (offset : Int) (n : Option Nat) : List Slot :=
  match a with
  | .positional => upTo n (sliceFrom (t.slots .positional) offset)
  | .array libbashName =>
    (selectIndices (t.indices libbashName.text) offset n).map (Prod.mk libbashName.text)

/-- `do_subarray_expansion` gives the joined text of the slice. -/
def SliceExact (host : Host) (n d : Nat) (s : Interpreter) (a : SliceName) (offset : Int64)
    (length : Option Nat) : Prop :=
  runShell host n d (Shell.getSubarray a.text offset.toInt length) s =
    some (.ok (s.joined (s.store.wanted a offset.toInt length)), s)

/-! ## Where the slices start -/

/-- How many elements there are below the start. -/
def belowStart (indices : List UInt32) (offset : Int) : Nat :=
  indices.countP fun i => i.toNat < (startIndex indices offset).toNat

/-- The place of the slice that is meant, in the list of the slots. -/
def Store.wantedPlace (t : Store) (a : SliceName) (offset : Int) : Option Nat :=
  match a with
  | .positional => place (t.slots .positional).length offset
  | .array libbashName =>
    let indices := t.indices libbashName.text
    if 0 ≤ startIndex indices offset ∧ belowStart indices offset < indices.length then
      some (belowStart indices offset)
    else none

/-- The place at which `get_subarray` starts. -/
def Store.takenPlace (t : Store) (a : SliceName) (offset : Int) : Option Nat :=
  match a with
  | .positional =>
    if t.resolveVariable "*" = none then none
    else if offset = 0 then some 0
    else
      (place (t.indices "*").length (if 0 < offset then offset - 1 else offset)).map (· + 1)
  | .array libbashName => place (t.indices libbashName.text).length offset

section Slots

variable {t : Store} {name : String}

theorem indices_of_resolve {v : Variable} (h : t.resolveVariable name = some v) :
    t.indices name = v.value.keys := by
  unfold Store.indices
  rw [h]
  rfl

theorem indices_of_none (h : t.resolveVariable name = none) : t.indices name = [] := by
  unfold Store.indices
  rw [h]
  rfl

/-- Indices come in their order. -/
theorem indices_increasing (t : Store) (name : String) :
    (t.indices name).Pairwise fun i j => i.toNat < j.toNat := by
  cases hv : t.resolveVariable name with
  | none =>
    rw [indices_of_none hv]
    exact List.Pairwise.nil
  | some v =>
    rw [indices_of_resolve hv]
    refine (Std.ExtTreeMap.ordered_keys (t := v.value)).imp fun h => ?_
    exact UInt32.lt_iff_toNat_lt.mp (Std.compare_eq_lt.mp h)

theorem slots_nodup (t : Store) (a : SliceName) : (t.slots a).Nodup := by
  have hmap : ∀ name : String, ((t.indices name).map (Prod.mk name)).Nodup := by
    intro name
    have hnodup : (t.indices name).Nodup :=
      (indices_increasing t name).imp fun h heq => absurd (congrArg UInt32.toNat heq) (Nat.ne_of_lt h)
    exact hnodup.map fun i j hij => (Prod.mk.inj hij).2
  cases a with
  | array libbashName => exact hmap libbashName.text
  | positional =>
    refine List.nodup_cons.mpr ⟨fun hmem => ?_, hmap "*"⟩
    obtain ⟨i, -, heq⟩ := List.mem_map.mp hmem
    exact absurd (Prod.mk.inj heq).1 (by decide)

theorem length_slots_positional (t : Store) :
    (t.slots .positional).length = (t.indices "*").length + 1 := by
  rw [Store.slots, List.length_cons, List.length_map]

/-- A slice that is meant is the part of the slots from its place on. -/
theorem wanted_eq (t : Store) (a : SliceName) (offset : Int) (n : Option Nat) :
    t.wanted a offset n = upTo n (fromPlace (t.slots a) (t.wantedPlace a offset)) := by
  cases a with
  | positional => rw [Store.wanted, sliceFrom_eq, Store.wantedPlace]
  | array libbashName =>
    rw [Store.wanted, Store.wantedPlace, Store.slots, ← map_fromPlace, ← map_upTo]
    congr 1
    generalize hindices : t.indices libbashName.text = indices
    have hincreasing : indices.Pairwise fun i j => i.toNat < j.toNat := by
      rw [← hindices]
      exact indices_increasing t _
    unfold selectIndices
    by_cases hneg : startIndex indices offset < 0
    · have hout : ¬(0 ≤ startIndex indices offset ∧
          belowStart indices offset < indices.length) := by omega
      rw [if_pos hneg, if_neg hout, fromPlace, upTo_nil]
    · have hfilter : (indices.filter fun i => startIndex indices offset ≤ i.toNat) =
          indices.drop (belowStart indices offset) := by
        rw [belowStart, ← filter_le_eq_drop UInt32.toNat _ hincreasing]
        congr 1
        funext i
        rw [decide_eq_decide]
        omega
      rw [if_neg hneg, hfilter]
      by_cases hbelow : belowStart indices offset < indices.length
      · rw [if_pos ⟨by omega, hbelow⟩]
        rfl
      · rw [if_neg fun h => hbelow h.2, fromPlace, List.drop_eq_nil_of_le (Nat.not_lt.mp hbelow)]

theorem wantedPlace_lt {a : SliceName} {offset : Int} {k : Nat}
    (h : t.wantedPlace a offset = some k) : k < (t.slots a).length := by
  cases a with
  | positional => exact place_lt h
  | array libbashName =>
    unfold Store.wantedPlace at h
    simp only [Option.ite_none_right_eq_some, Option.some.injEq] at h
    obtain ⟨⟨-, hlt⟩, rfl⟩ := h
    rwa [Store.slots, List.length_map]

theorem takenPlace_lt {a : SliceName} {offset : Int} {k : Nat}
    (h : t.takenPlace a offset = some k) : k < (t.slots a).length := by
  cases a with
  | positional =>
    rw [length_slots_positional]
    unfold Store.takenPlace at h
    split_ifs at h
    · cases h
      omega
    · obtain ⟨j, hj, rfl⟩ := Option.map_eq_some_iff.mp h
      have := place_lt hj
      omega
    · obtain ⟨j, hj, rfl⟩ := Option.map_eq_some_iff.mp h
      have := place_lt hj
      omega
  | array libbashName =>
    rw [Store.slots, List.length_map]
    exact place_lt h

end Slots

/-! ## What `get_subarray` does -/

/-- `get_subarray`, after its start. -/
def Shell.subarrayRest (name : String) (length : Option Nat) (start : List String × Int) :
    Shell String := do
  match ← Shell.resolveArray name with
  | none => pure ""
  | some values =>
    let array := start.1 ++ values
    match Shell.getRealOffset start.2 array.length with
    | none => pure ""
    | some from' => do
      let delim ← Shell.joiner
      pure (delim.intercalate ((array.drop from').take (length.getD array.length)))

/-- The expansion raises: under the option `u` it looks up something that is not
set. -/
def Interpreter.RaisesSlice (s : Interpreter) (a : SliceName) (offset : Int64) : Prop :=
  s.nounset = true ∧ (Shell.takesScript a.text offset = true ∧ s.Absent "0" 0 ∨
    s.Missing a.text ∨ Shell.InRange s a.text offset ∧ s.Absent "IFS" 0)

section Taken

variable {host : Host} {n d : Nat} {s : Interpreter}

theorem bound_of_not_absent {name : String} {index : UInt32}
    (h : ¬(s.nounset = true ∧ s.Absent name index)) : s.Bound name index := by
  intro hu
  by_contra habsent
  exact h ⟨hu, Option.not_isSome_iff_eq_none.mp habsent⟩

theorem upTo_drop (xs : List String) (k : Nat) (length : Option Nat) :
    (xs.drop k).take (length.getD xs.length) = upTo length (xs.drop k) := by
  cases length with
  | none => exact List.take_of_length_le (by rw [List.length_drop]; exact Nat.sub_le _ _)
  | some m => rfl

theorem run_subarrayRest {name : String} {length : Option Nat} {start : List String × Int}
    {v : Variable} (hv : s.store.resolveVariable name = some v)
    (hifs : InList (start.1 ++ v.getAllValues).length start.2 → s.Bound "IFS" 0) :
    runShell host n d (Shell.subarrayRest name length start) s =
      some (.ok (s.delimiter.intercalate (upTo length (fromPlace (start.1 ++ v.getAllValues)
        (place (start.1 ++ v.getAllValues).length start.2)))), s) := by
  rw [Shell.subarrayRest, runShell_bind, bind_of_ok (run_resolveArray hv)]
  simp only [getRealOffset_eq]
  unfold place
  by_cases hin : InList (start.1 ++ v.getAllValues).length start.2
  · rw [if_pos hin]
    show runShell host n d (Shell.joiner >>= _) s = _
    rw [runShell_bind, bind_of_ok (run_joiner_of_bound (hifs hin)), upTo_drop]
    rfl
  · rw [if_neg hin, fromPlace, upTo_nil]
    rfl

theorem run_subarrayRest_missing {name : String} {length : Option Nat}
    {start : List String × Int} (hv : s.store.resolveVariable name = none)
    (hu : s.nounset = false) :
    runShell host n d (Shell.subarrayRest name length start) s = some (.ok "", s) := by
  have harray : runShell host n d (Shell.resolveArray name) s = some (.ok none, s) := by
    rw [run_resolveArray_none hv, hu, if_neg Bool.false_ne_true]
  rw [Shell.subarrayRest, runShell_bind, bind_of_ok harray]
  rfl

/-- The values of an array are the values at its indices. -/
theorem getAllValues_eq {name : String} {v : Variable}
    (hv : s.store.resolveVariable name = some v) :
    v.getAllValues = (s.store.indices name).map (s.valueOf name) := by
  rw [indices_of_resolve hv, ← Std.ExtTreeMap.map_fst_toList_eq_keys, List.map_map]
  refine List.map_congr_left fun e he => ?_
  have hget : v.value[e.1]? = some e.2 := Std.ExtTreeMap.mem_toList_iff_getElem?_eq_some.mp he
  show e.2.toStr = s.valueOf name e.1
  rw [Interpreter.valueOf, parameter_of_resolve hv, hget]
  rfl

theorem length_getAllValues {name : String} {v : Variable}
    (hv : s.store.resolveVariable name = some v) :
    v.getAllValues.length = (s.store.indices name).length := by
  rw [getAllValues_eq hv, List.length_map]

theorem values_of_slots {name : String} {v : Variable}
    (hv : s.store.resolveVariable name = some v) :
    ((s.store.indices name).map (Prod.mk name)).map (fun slot => s.valueOf slot.1 slot.2) =
      v.getAllValues := by
  rw [List.map_map, getAllValues_eq hv]
  rfl

theorem joined_fromPlace (slots : List Slot) (length : Option Nat) (p : Option Nat) :
    s.joined (upTo length (fromPlace slots p)) =
      s.delimiter.intercalate (upTo length
        (fromPlace (slots.map fun slot => s.valueOf slot.1 slot.2) p)) := by
  rw [Interpreter.joined, map_upTo, map_fromPlace]

theorem fromPlace_cons {α : Type} (x : α) (xs : List α) (p : Option Nat) :
    fromPlace (x :: xs) (p.map (· + 1)) = fromPlace xs p := by
  cases p <;> rfl

theorem text_ne_star (libbashName : Identifier) :
    Shell.isPositional libbashName.text = false := by
  have hstar : libbashName.text ≠ "*" := libbashName.global.notPositional
  have hat : libbashName.text ≠ "@" := fun h => absurd libbashName.isName (by rw [h]; decide)
  simp [Shell.isPositional, hstar, hat]

theorem takenPlace_of_missing {t : Store} {a : SliceName} (h : t.resolveVariable a.text = none)
    (offset : Int) : t.takenPlace a offset = none := by
  cases hp : t.takenPlace a offset with
  | none => rfl
  | some k =>
    cases a with
    | positional =>
      have hnone : t.resolveVariable "*" = none := h
      rw [Store.takenPlace, if_pos hnone] at hp
      cases hp
    | array libbashName =>
      have hempty : t.indices libbashName.text = [] := indices_of_none h
      have hlt := takenPlace_lt hp
      rw [Store.slots, hempty] at hlt
      cases hlt

/-- Without `$0` in front, the slots from the place on are elements of the array. -/
theorem slots_from_taken (a : SliceName) {offset : Int64} {v : Variable}
    (htakes : Shell.takesScript a.text offset = false)
    (hv : s.store.resolveVariable a.text = some v) :
    fromPlace ((s.store.slots a).map fun slot => s.valueOf slot.1 slot.2)
        (s.store.takenPlace a offset.toInt) =
      fromPlace v.getAllValues (place v.getAllValues.length
        (if Shell.isPositional a.text && 0 < offset.toInt then offset.toInt - 1
          else offset.toInt)) := by
  cases a with
  | array libbashName =>
    change s.store.resolveVariable libbashName.text = some v at hv
    rw [SliceName.text, text_ne_star, Store.slots, values_of_slots hv, Store.takenPlace,
      length_getAllValues hv]
    rfl
  | positional =>
    have hzero : offset.toInt ≠ 0 := by
      intro h0
      rw [Shell.takesScript, h0] at htakes
      cases htakes
    change s.store.resolveVariable "*" = some v at hv
    have hset : s.store.resolveVariable "*" ≠ none := hv ▸ Option.some_ne_none v
    have hpos : Shell.isPositional SliceName.positional.text = true := rfl
    rw [Store.takenPlace, if_neg hset, if_neg hzero, Store.slots, List.map_cons,
      fromPlace_cons, values_of_slots hv, hpos, Bool.true_and, length_getAllValues hv]
    simp only [decide_eq_true_eq]

/-- Where it raises nothing, `get_subarray` joins the slots from its place on. -/
theorem run_getSubarray_taken (a : SliceName) (offset : Int64) (length : Option Nat)
    (hraise : ¬s.RaisesSlice a offset) :
    runShell host n d (Shell.getSubarray a.text offset.toInt length) s =
      some (.ok (s.joined (upTo length (fromPlace (s.store.slots a)
        (s.store.takenPlace a offset.toInt)))), s) := by
  have hrest : Shell.getSubarray a.text offset.toInt length =
      Shell.subarrayStart a.text offset.toInt >>= Shell.subarrayRest a.text length := rfl
  unfold Interpreter.RaisesSlice at hraise
  rw [hrest, joined_fromPlace]
  cases htakes : Shell.takesScript a.text offset with
  | true =>
    -- The offset 0 of the positional parameters, where `$0` comes first.
    obtain ⟨hname, hzero⟩ := (Bool.and_eq_true _ _).mp htakes
    have hoffset : offset.toInt = 0 := beq_iff_eq.mp hzero
    obtain rfl : a = .positional := by
      cases a with
      | positional => rfl
      | array libbashName =>
        rw [SliceName.text, text_ne_star] at hname
        cases hname
    have hscript : s.Bound "0" 0 := bound_of_not_absent fun h => hraise ⟨h.1, .inl ⟨htakes, h.2⟩⟩
    have hvalue : runShell host n d (Shell.resolveString "0" 0) s =
        some (.ok (s.valueOf "0" 0), s) := run_resolveString_of_bound hscript
    have hstart : runShell host n d (Shell.subarrayStart SliceName.positional.text offset.toInt) s =
        some (.ok ([s.valueOf "0" 0], 0), s) := by
      rw [subarrayStart_script htakes, runShell_bind, bind_of_ok hvalue]
      rfl
    rw [runShell_bind, bind_of_ok hstart, Store.takenPlace, hoffset]
    show runShell host n d (Shell.subarrayRest "*" length ([s.valueOf "0" 0], 0)) s = _
    cases hv : s.store.resolveVariable "*" with
    | none =>
      have hu : s.nounset = false := by
        by_contra hu
        exact hraise ⟨Bool.not_eq_false _ |>.mp hu, .inr (.inl hv)⟩
      rw [run_subarrayRest_missing hv hu, if_pos rfl, fromPlace, upTo_nil]
      rfl
    | some v =>
      have hifs : s.Bound "IFS" 0 :=
        bound_of_not_absent fun h => hraise ⟨h.1, .inr (.inr ⟨.inl htakes, h.2⟩)⟩
      have hplace : place ([s.valueOf "0" 0] ++ v.getAllValues).length 0 = some 0 :=
        (place_natCast _ 0).trans (if_pos (Nat.succ_pos _))
      rw [run_subarrayRest hv fun _ => hifs, hplace, if_neg (Option.some_ne_none v), if_pos rfl,
        Store.slots, List.map_cons, values_of_slots hv]
      rfl
  | false =>
    -- Any other slice begins in the array itself.
    generalize hoff : (if Shell.isPositional a.text && 0 < offset.toInt then offset.toInt - 1
      else offset.toInt) = off
    rw [subarrayStart_plain htakes, hoff]
    show runShell host n d (Shell.subarrayRest a.text length ([], off)) s = _
    cases hv : s.store.resolveVariable a.text with
    | none =>
      have hu : s.nounset = false := by
        by_contra hu
        exact hraise ⟨Bool.not_eq_false _ |>.mp hu, .inr (.inl hv)⟩
      rw [run_subarrayRest_missing hv hu, takenPlace_of_missing hv, fromPlace, upTo_nil]
      rfl
    | some v =>
      have hifs : InList v.getAllValues.length off → s.Bound "IFS" 0 := by
        intro hin
        refine bound_of_not_absent fun h => hraise ⟨h.1, .inr (.inr ⟨.inr ⟨v, hv, ?_⟩, h.2⟩)⟩
        rw [hoff, getRealOffset_eq, if_pos hin]
        rfl
      have hrun := @run_subarrayRest host n d s a.text length ([], off) v hv hifs
      rw [hrun, slots_from_taken a htakes hv, hoff]
      rfl

end Taken

/-! ## States of one shape -/

/-- The same variables are set, at the same indices, and the option `u` is the
same. -/
structure SameShape (s s' : Interpreter) : Prop where
  nounset : s'.nounset = s.nounset
  keys : ∀ name, (s'.store.resolveVariable name).map (fun v => v.value.keys) =
    (s.store.resolveVariable name).map fun v => v.value.keys

namespace SameShape

variable {s s' : Interpreter}

theorem missing (h : SameShape s s') (name : String) :
    s'.store.resolveVariable name = none ↔ s.store.resolveVariable name = none := by
  rw [← Option.map_eq_none_iff, h.keys, Option.map_eq_none_iff]

theorem indices (h : SameShape s s') (name : String) :
    s'.store.indices name = s.store.indices name := by
  unfold Store.indices
  rw [h.keys]

theorem slots (h : SameShape s s') (a : SliceName) : s'.store.slots a = s.store.slots a := by
  cases a with
  | positional => rw [Store.slots, Store.slots, h.indices]
  | array libbashName => rw [Store.slots, Store.slots, h.indices]

theorem wanted (h : SameShape s s') (a : SliceName) (offset : Int) (n : Option Nat) :
    s'.store.wanted a offset n = s.store.wanted a offset n := by
  cases a with
  | positional => rw [Store.wanted, Store.wanted, h.slots]
  | array libbashName => rw [Store.wanted, Store.wanted, h.indices]

theorem takenPlace (h : SameShape s s') (a : SliceName) (offset : Int) :
    s'.store.takenPlace a offset = s.store.takenPlace a offset := by
  cases a with
  | positional => simp only [Store.takenPlace, h.missing, h.indices]
  | array libbashName => rw [Store.takenPlace, Store.takenPlace, h.indices]

end SameShape

section Absent

variable {s : Interpreter} {name : String} {index : UInt32}

theorem not_absent_iff : ¬s.Absent name index ↔ index ∈ s.store.indices name := by
  unfold Interpreter.Absent
  cases hv : s.store.resolveVariable name with
  | none => simp [Store.parameter, hv, indices_of_none hv]
  | some v =>
    rw [parameter_of_resolve hv, indices_of_resolve hv, Std.ExtTreeMap.mem_keys,
      Std.ExtTreeMap.mem_iff_isSome_getElem?, Option.map_eq_none_iff, ← ne_eq,
      Option.isSome_iff_ne_none]

theorem SameShape.absent {s' : Interpreter} (h : SameShape s s') :
    s'.Absent name index ↔ s.Absent name index := by
  rw [← not_iff_not, not_absent_iff, not_absent_iff, h.indices]

theorem SameShape.raisesSlice {s' : Interpreter} (h : SameShape s s') (a : SliceName)
    (offset : Int64) : s'.RaisesSlice a offset ↔ s.RaisesSlice a offset := by
  have hrange : ∀ {s : Interpreter}, Shell.InRange s a.text offset ↔
      Shell.takesScript a.text offset = true ∨ s.store.resolveVariable a.text ≠ none ∧
        (Shell.getRealOffset (if Shell.isPositional a.text && 0 < offset.toInt
          then offset.toInt - 1 else offset.toInt) (s.store.indices a.text).length).isSome = true := by
    intro s
    refine or_congr_right ⟨?_, ?_⟩
    · rintro ⟨v, hv, hsome⟩
      rw [length_getAllValues hv] at hsome
      exact ⟨hv ▸ Option.some_ne_none v, hsome⟩
    · rintro ⟨hset, hsome⟩
      obtain ⟨v, hv⟩ := Option.ne_none_iff_exists'.mp hset
      exact ⟨v, hv, by rwa [length_getAllValues hv]⟩
  unfold Interpreter.RaisesSlice Interpreter.Missing
  rw [h.nounset, h.absent, h.absent, h.missing, hrange, hrange, ne_eq, h.missing, h.indices]

end Absent

/-- Replace the values of a scope. -/
def Scope.relabel (f : Slot → Value) (scope : Scope) : Scope :=
  scope.map fun name v => { v with value := v.value.map fun i _ => f (name, i) }

/-- Give every slot a value. -/
def Interpreter.relabel (f : Slot → Value) (s : Interpreter) : Interpreter :=
  { s with
    store :=
      { members := s.store.members.relabel f
        localMembers := s.store.localMembers.map (Scope.relabel f) } }

section Relabel

variable {f : Slot → Value} {s : Interpreter}

theorem resolveVariable_relabel (f : Slot → Value) (s : Interpreter) (name : String) :
    (s.relabel f).store.resolveVariable name = (s.store.resolveVariable name).map fun v =>
      { v with value := v.value.map fun i _ => f (name, i) } := by
  have hscope : ∀ scope : Scope, (scope.relabel f)[name]? = scope[name]?.map fun v =>
      { v with value := v.value.map fun i _ => f (name, i) } := fun scope =>
    Std.ExtTreeMap.getElem?_map
  have hlocal : ∀ frames : List Scope, resolveLocal name (frames.map (Scope.relabel f)) =
      (resolveLocal name frames).map fun v =>
        { v with value := v.value.map fun i _ => f (name, i) } := by
    intro frames
    induction frames with
    | nil => rfl
    | cons frame frames ih =>
      rw [List.map_cons, resolveLocal, resolveLocal, hscope]
      cases frame[name]? with
      | none => exact ih
      | some v => rfl
  have hframes : (s.relabel f).store.localMembers = s.store.localMembers.map (Scope.relabel f) := rfl
  have hglobal : (s.relabel f).store.members = s.store.members.relabel f := rfl
  rw [Store.resolveVariable, hframes, hglobal, hlocal, hscope, Store.resolveVariable]
  by_cases hempty : name.isEmpty = true
  · rw [if_pos hempty, if_pos hempty]
    rfl
  · rw [if_neg hempty, if_neg hempty]
    cases resolveLocal name s.store.localMembers with
    | none => rfl
    | some v => rfl

theorem sameShape_relabel (f : Slot → Value) (s : Interpreter) : SameShape s (s.relabel f) where
  nounset := rfl
  keys name := by
    rw [resolveVariable_relabel, Option.map_map]
    cases s.store.resolveVariable name with
    | none => rfl
    | some v => exact congrArg some Std.ExtTreeMap.keys_map

instance {name : String} {index : UInt32} : Decidable (s.Absent name index) :=
  inferInstanceAs (Decidable (_ = none))

theorem parameter_relabel (name : String) (index : UInt32) :
    (s.relabel f).store.parameter name index =
      (s.store.parameter name index).map fun _ => (f (name, index)).toStr := by
  unfold Store.parameter
  rw [resolveVariable_relabel]
  cases s.store.resolveVariable name with
  | none => rfl
  | some v =>
    simp only [Option.map_some, Option.bind_some, Std.ExtTreeMap.getElem?_map, Option.map_map]
    rfl

theorem valueOf_relabel (name : String) (index : UInt32) :
    (s.relabel f).valueOf name index =
      if s.Absent name index then "" else (f (name, index)).toStr := by
  unfold Interpreter.valueOf
  rw [parameter_relabel]
  by_cases h : s.Absent name index
  · rw [if_pos h, h]
    rfl
  · rw [if_neg h]
    obtain ⟨value, hvalue⟩ := Option.ne_none_iff_exists'.mp h
    rw [hvalue]
    rfl

end Relabel

/-! ## Exactness -/

/-- The place that `get_subarray` counts for the offset is the right one. For an
array that is the number of the elements below the start; when there is no
element from the start on, the place has to be outside the list. -/
def Store.Aligned (t : Store) (a : SliceName) (offset : Int) : Prop :=
  match a with
  | .positional =>
    offset ≠ -((t.indices "*").length + 1) ∧ (t.resolveVariable "*" = none → offset ≠ 0)
  | .array libbashName =>
    let indices := t.indices libbashName.text
    if 0 ≤ startIndex indices offset ∧ belowStart indices offset < indices.length then
      position indices.length offset = belowStart indices offset
    else ¬InList indices.length offset

/-- With `$0` in front every place is one further on. -/
theorem place_succ (length : Nat) {offset : Int} (h : offset ≠ 0)
    (hscript : offset ≠ -(length + 1)) :
    (place length (if 0 < offset then offset - 1 else offset)).map (· + 1) =
      place (length + 1) offset := by
  refine Option.ext fun k => ?_
  rw [Option.map_eq_some_iff, place_eq_some_iff]
  simp only [place_eq_some_iff]
  constructor
  · rintro ⟨j, ⟨hlt, hpos⟩, rfl⟩
    unfold position at hpos ⊢
    split_ifs at hpos ⊢ <;> omega
  · rintro ⟨hlt, hpos⟩
    refine ⟨k - 1, ?_⟩
    unfold position at hpos ⊢
    split_ifs at hpos ⊢ <;> omega

/-- The offset that reaches back to `$0`: there is no such place without it. -/
theorem place_script (length : Nat) :
    place length (-(length + 1)) = none ∧ place (length + 1) (-(length + 1)) = some 0 := by
  rw [place_eq_none_iff, place_eq_some_iff]
  unfold InList position
  split_ifs <;> omega

theorem aligned_iff (t : Store) (a : SliceName) (offset : Int) :
    t.takenPlace a offset = t.wantedPlace a offset ↔ t.Aligned a offset := by
  cases a with
  | array libbashName =>
    simp only [Store.takenPlace, Store.wantedPlace, Store.Aligned]
    split_ifs with h
    · rw [place_eq_some_iff, and_iff_right h.2]
    · exact place_eq_none_iff
  | positional =>
    simp only [Store.takenPlace, Store.wantedPlace, Store.Aligned, length_slots_positional]
    cases hv : t.resolveVariable "*" with
    | none =>
      rw [if_pos rfl, indices_of_none hv, eq_comm, place_eq_none_iff]
      unfold InList position
      simp only [List.length_nil, eq_self, true_implies]
      split_ifs
      · omega
      · omega
    | some v =>
      rw [if_neg (Option.some_ne_none v)]
      simp only [reduceCtorEq, false_implies, and_true]
      by_cases hzero : offset = 0
      · subst hzero
        rw [if_pos rfl, eq_comm, place_eq_some_iff, position_nonneg (Int.le_refl 0)]
        refine ⟨fun _ => ?_, fun _ => ⟨Nat.succ_pos _, rfl⟩⟩
        exact Int.ne_of_gt (Int.neg_neg_of_pos (Int.natCast_succ_pos _))
      · rw [if_neg hzero]
        constructor
        · rintro heq rfl
          obtain ⟨hnone, hsome⟩ := place_script (t.indices "*").length
          have hneg : ¬0 < -(((t.indices "*").length : Int) + 1) := by omega
          rw [if_neg hneg, hnone, hsome] at heq
          cases heq
        · exact place_succ _ hzero

/-- The places of the positional parameters differ only when the slice starts with
`$0` and nothing is taken. -/
theorem positional_places {t : Store} {offset : Int} (h : ¬t.Aligned .positional offset) :
    t.takenPlace .positional offset = none ∧ t.wantedPlace .positional offset = some 0 := by
  simp only [Store.takenPlace, Store.wantedPlace, length_slots_positional]
  obtain ⟨hnone, hsome⟩ := place_script (t.indices "*").length
  by_cases hscript : offset = -((t.indices "*").length + 1)
  · subst hscript
    have hneg : ¬0 < -(((t.indices "*").length : Int) + 1) := by omega
    have hzero : -(((t.indices "*").length : Int) + 1) ≠ 0 := by omega
    rw [if_neg hneg, if_neg hzero, hnone]
    exact ⟨by split_ifs <;> rfl, hsome⟩
  · obtain ⟨hmissing, rfl⟩ : t.resolveVariable "*" = none ∧ offset = 0 := by
      by_contra hboth
      exact h ⟨hscript, fun hv h0 => hboth ⟨hv, h0⟩⟩
    rw [if_pos hmissing, indices_of_none hmissing]
    exact ⟨rfl, rfl⟩

/-- The slices have the same text, whatever the values are: nothing is taken, or
the places are the same, or the slice is `$0` alone, which is not set. -/
def Interpreter.SliceAgrees (s : Interpreter) (a : SliceName) (offset : Int)
    (length : Option Nat) : Prop :=
  length = some 0 ∨ s.store.Aligned a offset ∨
    (s.store.wanted a offset length = [("0", 0)] ∧ s.Absent "0" 0)

section Exact

variable {s : Interpreter}

theorem mem_intercalate {sep : String} {c : Char} (hsep : c ∉ sep.toList) (parts : List String) :
    c ∈ (sep.intercalate parts).toList ↔ ∃ part ∈ parts, c ∈ part.toList := by
  induction parts with
  | nil => simp
  | cons part parts ih =>
    cases parts with
    | nil => simp
    | cons part' parts =>
      rw [String.intercalate_cons_cons, String.toList_append, String.toList_append,
        List.mem_append, List.mem_append, ih]
      simp only [List.mem_cons, exists_eq_or_imp, hsep, or_false]

/-- A slot that is set and that only one of two lists has, makes their texts
different for some values. -/
theorem joined_ne {xs ys : List Slot} {x : Slot} (hx : x ∈ xs) (hy : x ∉ ys)
    (hset : ¬s.Absent x.1 x.2) :
    ∃ s', SameShape s s' ∧ s'.joined xs ≠ s'.joined ys := by
  refine ⟨s.relabel fun slot => if slot = x then .str "ab" else .str "", sameShape_relabel _ s, ?_⟩
  have hvalue : ∀ slot : Slot, 'b' ∈ ((s.relabel fun slot =>
      if slot = x then .str "ab" else .str "").valueOf slot.1 slot.2).toList ↔ slot = x := by
    intro slot
    rw [valueOf_relabel]
    by_cases heq : slot = x
    · subst heq
      rw [if_neg hset, if_pos rfl]
      simp [Value.toStr]
    · rw [if_neg heq]
      split_ifs <;> simp [Value.toStr, heq]
  -- the delimiter is empty or the first character of the text "ab"
  have hdelim : 'b' ∉ (s.relabel fun slot =>
      if slot = x then .str "ab" else .str "").delimiter.toList := by
    show 'b' ∉ (String.ofList (((s.relabel fun slot => if slot = x then .str "ab"
      else .str "").valueOf "IFS" 0).toList.take 1)).toList
    rw [valueOf_relabel, String.toList_ofList]
    split_ifs <;> simp [Value.toStr]
  intro hjoined
  have hmem := mem_intercalate hdelim (xs.map fun slot =>
    (s.relabel fun slot => if slot = x then .str "ab" else .str "").valueOf slot.1 slot.2)
  rw [← Interpreter.joined, hjoined, Interpreter.joined, mem_intercalate hdelim] at hmem
  obtain ⟨part, hpart, hb⟩ := hmem.mpr ⟨_, List.mem_map_of_mem hx, (hvalue x).mpr rfl⟩
  obtain ⟨slot, hslot, rfl⟩ := List.mem_map.mp hpart
  rw [(hvalue slot).mp hb] at hslot
  exact hy hslot

/-- Every slot but `$0` is set. -/
theorem slot_set {a : SliceName} {x : Slot} (hx : x ∈ s.store.slots a) (hne : x ≠ ("0", 0)) :
    ¬s.Absent x.1 x.2 := by
  rw [not_absent_iff]
  cases a with
  | positional =>
    rcases List.mem_cons.mp hx with rfl | hmem
    · exact absurd rfl hne
    · obtain ⟨i, hi, rfl⟩ := List.mem_map.mp hmem
      exact hi
  | array libbashName =>
    obtain ⟨i, hi, rfl⟩ := List.mem_map.mp hx
    exact hi

/-- Slices that do not agree differ for some values. -/
theorem exists_difference {a : SliceName} {offset : Int} {length : Option Nat}
    (h : ¬s.SliceAgrees a offset length) :
    ∃ s', SameShape s s' ∧
      s'.joined (upTo length (fromPlace (s.store.slots a) (s.store.takenPlace a offset))) ≠
        s'.joined (s.store.wanted a offset length) := by
  obtain ⟨hlength, hplaces, hscript⟩ : length ≠ some 0 ∧ ¬s.store.Aligned a offset ∧
      ¬(s.store.wanted a offset length = [("0", 0)] ∧ s.Absent "0" 0) := by
    unfold Interpreter.SliceAgrees at h
    rwa [not_or, not_or] at h
  rw [wanted_eq] at hscript ⊢
  obtain ⟨x, hx⟩ := exists_separating (slots_nodup s.store a) (fun _ => takenPlace_lt)
    (fun _ => wantedPlace_lt) hlength (mt (aligned_iff s.store a offset).mp hplaces)
  by_cases hset : s.Absent x.1 x.2
  · -- the slot is `$0`, and the slice goes on after it
    obtain rfl : a = .positional := by
      cases a with
      | positional => rfl
      | array libbashName =>
        have hmem : x ∈ s.store.slots (.array libbashName) := by
          rcases hx with ⟨hx, -⟩ | ⟨hx, -⟩
          · exact fromPlace_subset _ _ (upTo_subset _ _ hx)
          · exact fromPlace_subset _ _ (upTo_subset _ _ hx)
        obtain ⟨i, hi, rfl⟩ := List.mem_map.mp hmem
        exact absurd hset (not_absent_iff.mpr hi)
    obtain ⟨htaken, hwanted⟩ := positional_places hplaces
    have hx0 : x = ("0", 0) := by
      by_contra hne
      rcases hx with ⟨hx, -⟩ | ⟨hx, -⟩
      · exact slot_set (fromPlace_subset _ _ (upTo_subset _ _ hx)) hne hset
      · exact slot_set (fromPlace_subset _ _ (upTo_subset _ _ hx)) hne hset
    have hslice : upTo length (fromPlace (s.store.slots .positional) (some 0)) =
        ("0", 0) :: upTo (length.map (· - 1)) ((s.store.indices "*").map (Prod.mk "*")) :=
      upTo_cons hlength _ _
    rw [hx0] at hset
    rw [htaken, hwanted, fromPlace, upTo_nil, hslice]
    rw [hwanted, hslice] at hscript
    cases htail : upTo (length.map (· - 1)) ((s.store.indices "*").map (Prod.mk "*")) with
    | nil => exact absurd ⟨by rw [htail], hset⟩ hscript
    | cons y ys =>
      have hy : y ∈ (s.store.indices "*").map (Prod.mk "*") := by
        refine upTo_subset (length.map (· - 1)) _ ?_
        rw [htail]
        exact List.mem_cons_self
      obtain ⟨i, hi, rfl⟩ := List.mem_map.mp hy
      obtain ⟨s', hshape, hne⟩ := joined_ne
        (List.mem_cons_of_mem ("0", 0) (List.mem_cons_self (a := ("*", i)) (l := ys)))
        List.not_mem_nil (not_absent_iff.mpr hi)
      exact ⟨s', hshape, hne.symm⟩
  -- A slot that is set and that only one of the slices has.
  · rcases hx with ⟨hx, hx'⟩ | ⟨hx, hx'⟩
    · exact joined_ne hx hx' hset
    · obtain ⟨s', hshape, hne⟩ := joined_ne hx hx' hset
      exact ⟨s', hshape, hne.symm⟩

/-- Slices that agree have the same text for all values. -/
theorem joined_eq {a : SliceName} {offset : Int} {length : Option Nat}
    (h : s.SliceAgrees a offset length) {s' : Interpreter} (hshape : SameShape s s') :
    s'.joined (upTo length (fromPlace (s.store.slots a) (s.store.takenPlace a offset))) =
      s'.joined (s.store.wanted a offset length) := by
  by_cases halign : s.store.Aligned a offset
  · rw [wanted_eq, (aligned_iff s.store a offset).mpr halign]
  · rw [wanted_eq]
    rcases h with hzero | halign' | ⟨hscript, habsent⟩
    · have htake : ∀ xs : List Slot, upTo length xs = [] := by
        intro xs
        rw [hzero, upTo, List.take_zero]
      rw [htake, htake]
    · exact absurd halign' halign
    · obtain rfl : a = .positional := by
        cases a with
        | positional => rfl
        | array libbashName =>
          have hmem : (("0", 0) : Slot) ∈ s.store.slots (.array libbashName) := by
            have hfirst : (("0", 0) : Slot) ∈ s.store.wanted (.array libbashName) offset length := by
              rw [hscript]
              exact List.mem_cons_self
            rw [wanted_eq] at hfirst
            exact fromPlace_subset _ _ (upTo_subset _ _ hfirst)
          obtain ⟨i, hi, heq⟩ := List.mem_map.mp hmem
          rw [← (Prod.mk.inj heq).1, ← (Prod.mk.inj heq).2] at habsent
          exact absurd habsent (not_absent_iff.mpr hi)
      obtain ⟨htaken, -⟩ := positional_places halign
      have hempty : s'.valueOf "0" 0 = "" := by
        rw [Interpreter.valueOf, hshape.absent.mpr habsent]
        rfl
      rw [← wanted_eq, hscript, htaken, fromPlace, upTo_nil]
      show s'.delimiter.intercalate [] = s'.delimiter.intercalate [s'.valueOf "0" 0]
      rw [String.intercalate_singleton, hempty, String.intercalate_nil]

/-- The run of a slice that raises. -/
theorem not_exact_of_raises {host : Host} {n d : Nat} {a : SliceName} {offset : Int64}
    {length : Option Nat} (h : s.RaisesSlice a offset) :
    ¬SliceExact host n d s a offset length := by
  intro hexact
  have hchecks : Checks host n d s (Shell.getSubarray a.text offset.toInt length) _ :=
    checks_getSubarray a.text offset length
  obtain ⟨what, hrun⟩ := hchecks.raises h
  rw [SliceExact, hrun] at hexact
  cases hexact

/-- Slices are exact, whatever the values of the elements are, exactly when nothing
that they look up is missing under the option `u` and the slices agree. -/
theorem slices_exact_iff (host : Host) (n d : Nat) (s : Interpreter) (a : SliceName)
    (offset : Int64) (length : Option Nat) :
    (∀ s', SameShape s s' → SliceExact host n d s' a offset length) ↔
      ¬s.RaisesSlice a offset ∧ s.SliceAgrees a offset.toInt length := by
  have hrun : ∀ {s'}, SameShape s s' → ¬s.RaisesSlice a offset →
      (SliceExact host n d s' a offset length ↔
        s'.joined (upTo length (fromPlace (s.store.slots a) (s.store.takenPlace a offset.toInt))) =
          s'.joined (s.store.wanted a offset.toInt length)) := by
    intro s' hshape hraise
    have htaken := @run_getSubarray_taken host n d s' a offset length
      (mt (hshape.raisesSlice a offset).mp hraise)
    rw [SliceExact, htaken, hshape.slots, hshape.takenPlace, hshape.wanted, Option.some.injEq,
      Prod.mk.injEq, and_iff_left rfl, Except.ok.injEq]
  constructor
  · intro hexact
    have hraise : ¬s.RaisesSlice a offset := fun h =>
      not_exact_of_raises h (hexact s ⟨rfl, fun _ => rfl⟩)
    refine ⟨hraise, ?_⟩
    by_contra hagrees
    obtain ⟨s', hshape, hne⟩ := exists_difference hagrees
    exact hne ((hrun hshape hraise).mp (hexact s' hshape))
  · rintro ⟨hraise, hagrees⟩ s' hshape
    exact (hrun hshape hraise).mpr (joined_eq hagrees hshape)

end Exact

/-- An array whose indices are 0, 1, .. is sliced as is meant. -/
theorem aligned_of_dense {t : Store} {libbashName : Identifier} {size : Nat}
    (h : (t.indices libbashName.text).map UInt32.toNat = List.range size) (offset : Int) :
    t.Aligned (.array libbashName) offset := by
  have hlength : (t.indices libbashName.text).length = size := by
    rw [← List.length_map UInt32.toNat, h, List.length_range]
  have hpast : onePast (t.indices libbashName.text) = size := by
    have hlast := congrArg List.getLast? h
    rw [List.getLast?_map, List.getLast?_range] at hlast
    unfold onePast
    cases hl : (t.indices libbashName.text).getLast? with
    | none =>
      rw [hl] at hlast
      split_ifs at hlast with hsize
      · exact hsize.symm
      · cases hlast
    | some i =>
      rw [hl] at hlast
      split_ifs at hlast with hsize
      · cases hlast
      · have hi : i.toNat = size - 1 := Option.some.inj hlast
        show i.toNat + 1 = size
        omega
  have hbelow : belowStart (t.indices libbashName.text) offset =
      min (position size offset).toNat size := by
    rw [belowStart, startIndex, hpast]
    have hcount := List.countP_map (p := fun k => decide (k < (position size offset).toNat))
      (f := UInt32.toNat) (l := t.indices libbashName.text)
    rw [h, countP_lt_range] at hcount
    exact hcount.symm
  simp only [Store.Aligned]
  rw [hbelow, hlength, startIndex, hpast]
  unfold InList
  split_ifs with hin <;> omega

/-- The array `a` of `a[0]=x a[5]=y`. -/
def sparseArray : Interpreter :=
  { Interpreter.initial [] with
    store :=
      { members := initialMembers.insert "a"
          (.new "a" (.array (((∅ : Std.ExtTreeMap UInt32 String).insert 0 "x").insert 5 "y")) false)
        localMembers := [] } }

/-- `${a[@]:5:1}` is not the element with the index 5. -/
theorem sparseArray_not_exact :
    ¬SliceExact (.ofTexts [] []) 0 0 sparseArray (.array ⟨"a", by decide⟩) 5 (some 1) := by
  intro hexact
  have hrun : runShell (.ofTexts [] []) 0 0 (Shell.getSubarray "a" 5 (some 1)) sparseArray =
      some (.ok "", sparseArray) := rfl
  have hwanted : sparseArray.joined (sparseArray.store.wanted (.array ⟨"a", by decide⟩) 5 (some 1)) =
      "y" := by decide
  have heq := hrun.symm.trans hexact
  rw [Option.some.injEq, Prod.mk.injEq, Except.ok.injEq] at heq
  exact absurd (heq.1.trans hwanted) (by decide)

end Libbash
