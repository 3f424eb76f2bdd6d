import Libbash.Lib.Writes
import Libbash.Arith.Elements
import Libbash.Interp.Assignments
import Libbash.Interp.Narrowing

/-!
# Appending to an array

`a+=(..)` reconstructs where to go on from the largest index of `a`, which is 0
also for an array without elements; it starts at 0 again when element 0 is null.
`append_iff` says when the elements are put where the next indices are.
-/

namespace Libbash

open Lib Lib.Comp Lib.Program

/-! ## The elements of a list -/

/-- The elements of `(..)`: the value of a subscript, if there is one, and the text. -/
def Shell.elements (host : Host) (name : String) :
    List ArrayElement → Shell (List (Option Int64 × String))
  | [] => pure []
  | .next w :: es => do
    let v ← Shell.stringExpr host w
    let rest ← Shell.elements host name es
    pure ((none, v.value) :: rest)
  | .at e w :: es => do
    let value ← Shell.arithmetics host e
    let _ ← Shell.setIndex name value
    let v ← Shell.stringExpr host w
    let rest ← Shell.elements host name es
    pure ((some value, v.value) :: rest)

/-- Where elements stand, from an index on. -/
def placed (next : Int) : List (Option Int64 × String) → List (Int × String)
  | [] => []
  | (none, text) :: es => (next, text) :: placed (next + 1) es
  | (some index, text) :: es => (index.toInt, text) :: placed (index.toInt + 1) es

/-- The elements before the first subscript. -/
def unsubscripted (es : List (Option Int64 × String)) : List String :=
  (es.takeWhile fun e => e.1.isNone).map Prod.snd

/-- The elements from the first subscript on. -/
def fromSubscript (es : List (Option Int64 × String)) : List (Option Int64 × String) :=
  es.dropWhile fun e => e.1.isNone

theorem placed_eq_append (next : Int) (es : List (Option Int64 × String)) :
    placed next es = consecutive next (unsubscripted es) ++ placed 0 (fromSubscript es) := by
  induction es generalizing next with
  | nil => rfl
  | cons e es ih =>
    obtain ⟨index, text⟩ := e
    cases index with
    | none =>
      show (next, text) :: placed (next + 1) es = _
      rw [ih]
      rfl
    | some index => rfl

section Indices

theorem toNat_ofInt (i : Int) : ((UInt32.ofInt i).toNat : Int) = i % 2 ^ 32 := by
  have hpos : 0 ≤ i % 2 ^ 32 := Int.emod_nonneg i (by decide)
  simp only [UInt32.ofInt, Nat.reducePow, Nat.cast_ofNat, UInt32.toNat_ofNat', Int.natCast_emod]
  omega

/-- A subscript is the low 32 bits of its value. -/
theorem toUInt32_toInt32 (v : Int64) : v.toInt32.toUInt32 = .ofInt v.toInt := by
  refine UInt32.toNat_inj.mp (Int.ofNat_inj.mp ?_)
  have hlow := Int64.toInt_toInt32 v
  have hbits := BitVec.toInt_eq_toNat_bmod v.toInt32.toBitVec
  rw [Int32.toInt_toBitVec, Int32.toNat_toBitVec, hlow, Int.bmod_def, Int.bmod_def] at hbits
  have hlt := v.toInt32.toUInt32.toNat_lt
  rw [toNat_ofInt]
  omega

/-- The indices that the loop of `array_def_helper` counts. -/
def written (next : Int) (es : List (Option Int64 × String)) : List (UInt32 × String) :=
  (placed next es).map fun p => (.ofInt p.1, p.2)

theorem run_arrayDefHelper_elements (host : Host) (n d : Nat) (name : String)
    (es : List ArrayElement) (next : Int) (values : Std.ExtTreeMap UInt32 String) :
    runShell host n d (Shell.arrayDefHelper host name (.ofInt next) values es) =
      runShell host n d (Shell.elements host name es) >>= fun E =>
        pure (insertAll values (written next E)) := by
  induction es generalizing next values with
  | nil => rfl
  | cons e es ih =>
    cases e with
    | next w =>
      rw [Shell.arrayDefHelper, Shell.elements]
      simp only [runShell_bind, runShell_pure, bind_assoc, pure_bind]
      congr 1
      funext v
      rw [← UInt32.ofInt_one, ← UInt32.ofInt_add, ih]
      rfl
    | «at» e w =>
      rw [Shell.arrayDefHelper, Shell.elements]
      simp only [runShell_bind, runShell_pure, bind_assoc, pure_bind]
      congr 1
      funext value
      funext s
      have hindex := run_setIndex host n d name value s
      unfold indexOutcome at hindex
      split_ifs at hindex with hneg
      · rw [bind_of_error hindex, bind_of_error hindex]
      · rw [bind_of_ok hindex, bind_of_ok hindex]
        apply congrFun
        congr 1
        funext v
        rw [toUInt32_toInt32, ← UInt32.ofInt_one, ← UInt32.ofInt_add, ih]
        rfl

end Indices

/-! ## What an append does -/

namespace Store

/-- The elements of the visible variable. -/
def values (t : Store) (x : String) : Values := ((t.resolveVariable x).map (·.value)).getD ∅

/-- What an element holds; there are 2^32 of them. -/
def elementAt (t : Store) (x : String) (i : Int) : Option Value :=
  if 0 ≤ i ∧ i < 2 ^ 32 then (t.values x)[UInt32.ofInt i]? else none

def count (t : Store) (x : String) : Nat := (t.values x).size

/-- One above the largest index. -/
def nextIndex (t : Store) (x : String) : Int :=
  match (t.values x).maxKey? with
  | none => 0
  | some i => i.toNat + 1

end Store

/-- The elements of the list are there, the others are as before, and the count has
grown by the number of new ones. -/
structure Appends (x : String) (l : List (Int × String)) (t t' : Store) : Prop where
  elements : ∀ i, t'.elementAt x i =
    writeAll (t.elementAt x) (l.map fun p => (p.1, .str p.2)) i
  count : t'.count x = t.count x + newKeys (t.elementAt x) (l.map fun p => (p.1, .str p.2))

/-- The index that an append starts with: `index` in `var_def`. -/
def Store.appendStart (t : Store) (x : String) : Int :=
  if t.nextIndex x = 1 ∧ Arith.textAt t x 0 = "" then 0 else t.nextIndex x

section Views

variable {t : Store} {x : String}

theorem elementAt_toNat (t : Store) (x : String) (k : UInt32) :
    t.elementAt x k.toNat = (t.values x)[k]? := by
  have hlt := k.toNat_lt
  have hkey : UInt32.ofInt k.toNat = k := by
    refine UInt32.toNat_inj.mp (Int.ofNat_inj.mp ?_)
    rw [toNat_ofInt]
    omega
  rw [Store.elementAt, if_pos (by omega), hkey]

/-- Writing the elements of a map of indices. -/
theorem appends_of_values {t' : Store} {l : List (UInt32 × String)}
    (h : t'.values x = insertAll (t.values x) (l.map fun p => (p.1, .str p.2))) :
    Appends x (l.map fun p => (p.1.toNat, p.2)) t t' := by
  have hinj : Function.Injective fun k : UInt32 => (k.toNat : Int) :=
    fun a b hab => UInt32.toNat_inj.mp (Int.ofNat_inj.mp hab)
  have hview (k : UInt32) : t.elementAt x k.toNat = (t.values x)[k]? := elementAt_toNat t x k
  have hlist : (l.map fun p => ((p.1.toNat : Int), p.2)).map (fun p => (p.1, Value.str p.2)) =
      (l.map fun p => (p.1, Value.str p.2)).map fun p => ((p.1.toNat : Int), p.2) := by
    rw [List.map_map, List.map_map]
    rfl
  constructor
  · intro i
    rw [hlist]
    by_cases hi : 0 ≤ i ∧ i < 2 ^ 32
    · have hkey : i = (UInt32.ofInt i).toNat := by
        rw [toNat_ofInt]
        omega
      rw [hkey, writeAll_renamed hinj hview, elementAt_toNat, h, getElem?_insertAll_eq_writeAll]
    · rw [writeAll_of_notMem]
      · rw [Store.elementAt, if_neg hi, Store.elementAt, if_neg hi]
      · intro hmem
        obtain ⟨p, hp, rfl⟩ := List.mem_map.mp hmem
        obtain ⟨q, -, rfl⟩ := List.mem_map.mp hp
        have hlt := q.1.toNat_lt
        exact hi (by dsimp only; omega)
  · rw [hlist, newKeys_renamed hinj hview, Store.count, h, size_insertAll_writes]
    rfl

/-- Two lists that write the same are the same append. -/
theorem appends_congr_iff {t' : Store} {l l' : List (Int × String)} (h : Appends x l t t') :
    Appends x l' t t' ↔
      ∀ i, writeAll (t.elementAt x) (l.map fun p => (p.1, .str p.2)) i =
        writeAll (t.elementAt x) (l'.map fun p => (p.1, .str p.2)) i := by
  constructor
  · intro h' i
    rw [← h.elements, h'.elements]
  · intro hsame
    exact ⟨fun i => (h.elements i).trans (hsame i), h.count.trans
      (congrArg _ (newKeys_congr hsame))⟩

end Views

/-! ## Running an append -/

section Run

variable {host : Host} {n d : Nat} {x : Identifier} {s t : Interpreter}

theorem maxIndex_of_nextIndex (t : Store) (name : String) :
    ((t.resolveVariable name).map Variable.getMaxIndex).getD 0 + 1 =
      if (t.values name).maxKey? = none then 1 else .ofInt (t.nextIndex name) := by
  have hmax : ((t.resolveVariable name).map Variable.getMaxIndex).getD 0 =
      (t.values name).maxKey?.getD 0 := by
    unfold Store.values
    cases t.resolveVariable name with
    | none => rw [Option.map_none, Option.map_none, Option.getD_none, Option.getD_none,
        Std.ExtTreeMap.maxKey?_empty, Option.getD_none]
    | some v =>
      rw [Option.map_some, Option.map_some, Option.getD_some, Option.getD_some,
        Std.ExtTreeMap.maxKey?_eq_getLast?_keys, ← Std.ExtTreeMap.map_fst_toList_eq_keys,
        List.getLast?_map]
      rfl
  rw [hmax]
  unfold Store.nextIndex
  cases (t.values name).maxKey? with
  | none => rfl
  | some i =>
    rw [Option.getD_some, if_neg (Option.some_ne_none i)]
    show i + 1 = UInt32.ofInt (i.toNat + 1)
    refine UInt32.toNat_inj.mp (Int.ofNat_inj.mp ?_)
    rw [toNat_ofInt, UInt32.toNat_add]
    push_cast
    rfl

theorem run_getMaxIndex (host : Host) (n d : Nat) (name : String) (s : Interpreter) :
    (∃ e, runShell host n d (Shell.getMaxIndex name) s = some (.error e, s)) ∨
      runShell host n d (Shell.getMaxIndex name) s =
        some (.ok (((s.store.resolveVariable name).map Variable.getMaxIndex).getD 0), s) := by
  have hlookup : runShell host n d (perform (.resolveVariable name)) s =
      some (.ok (s.store.resolveVariable name), s) := rfl
  unfold Shell.getMaxIndex
  rw [runShell_bind, bind_of_ok hlookup, runShell_bind]
  cases s.store.resolveVariable name with
  | some v => exact .inr rfl
  | none =>
    by_cases hu : s.nounset = true
    · exact .inl ⟨_, bind_of_error (by rw [run_isValid_none, if_pos hu]) _⟩
    · refine .inr ?_
      rw [bind_of_ok (by rw [run_isValid_none, if_neg hu])]
      rfl

theorem isNull_eq_textAt (t : Store) (name : String) :
    ((t.resolveVariable name).map fun v => v.isNull 0).getD true =
      (Arith.textAt t name 0 == "") := by
  unfold Arith.textAt
  cases t.resolveVariable name with
  | none => rfl
  | some v => rfl

theorem textAt_eq_values (t : Store) (name : String) (index : UInt32) :
    Arith.textAt t name index = ((t.values name)[index]?.map Value.toStr).getD "" := by
  unfold Arith.textAt Store.values
  cases t.resolveVariable name with
  | none => rw [Option.map_none, Option.getD_none, Std.ExtTreeMap.getElem?_empty]; rfl
  | some v => exact getValueString_eq v index

/-- The start of an append, or the error of an unbound variable. -/
theorem run_appendIndex (host : Host) (n d : Nat) (name : String) (s : Interpreter) :
    (∃ e, runShell host n d (Shell.appendIndex name) s = some (.error e, s)) ∨
      runShell host n d (Shell.appendIndex name) s =
        some (.ok (.ofInt (s.store.appendStart name)), s) := by
  unfold Shell.appendIndex
  rw [runShell_bind]
  rcases run_getMaxIndex host n d name s with ⟨e, herr⟩ | hok
  · exact .inl ⟨e, bind_of_error herr _⟩
  · right
    have htest : runShell host n d (Shell.isUnsetOrNull name 0) s =
        some (.ok (Arith.textAt s.store name 0 == ""), s) := by
      rw [← isNull_eq_textAt]
      rfl
    rw [bind_of_ok hok, maxIndex_of_nextIndex]
    unfold Store.appendStart
    cases hmax : (s.store.values name).maxKey? with
    | none =>
      have hnext : s.store.nextIndex name = 0 := by
        unfold Store.nextIndex
        rw [hmax]
      have hnull : Arith.textAt s.store name 0 = "" := by
        have hempty := Std.ExtTreeMap.maxKey?_eq_none_iff.mp hmax
        rw [textAt_eq_values, hempty]
        rfl
      rw [hnext, if_pos rfl, if_pos rfl, runShell_bind, bind_of_ok htest, hnull,
        if_neg (show ¬((0 : Int) = 1 ∧ "" = "") by decide)]
      rfl
    | some i =>
      have hnext : s.store.nextIndex name = i.toNat + 1 := by
        unfold Store.nextIndex
        rw [hmax]
      have hone : UInt32.ofInt (s.store.nextIndex name) = 1 ↔ s.store.nextIndex name = 1 := by
        have hlt := i.toNat_lt
        rw [← UInt32.toNat_inj, ← Int.ofNat_inj, toNat_ofInt, hnext]
        show ((i.toNat : Int) + 1) % 2 ^ 32 = 1 ↔ _
        omega
      rw [if_neg (Option.some_ne_none i)]
      by_cases hstart : s.store.nextIndex name = 1
      · rw [if_pos (hone.mpr hstart), runShell_bind, bind_of_ok htest]
        by_cases hnull : Arith.textAt s.store name 0 = ""
        · rw [hnull, hstart, if_pos (show (1 : Int) = 1 ∧ "" = "" by decide)]
          rfl
        · rw [beq_false_of_ne hnull, if_neg Bool.false_ne_true, hstart, if_neg fun h => hnull h.2]
          rfl
      · rw [if_neg fun h => hstart (hone.mp h), if_neg fun h => hstart h.1]
        rfl

theorem values_of_resolve {t : Store} {name : String} {v : Variable}
    (h : t.resolveVariable name = some v) : t.values name = v.value := by
  unfold Store.values
  rw [h]
  rfl

/-- A value that is written to an element of a name. -/
theorem values_setValue {new : Value} {index : UInt32}
    {u : Store} {t : Store} {r : Unit} (h : Libbash.setValue x.text new index u = some (.ok r, t)) :
    t.values x.text = (u.values x.text).insert index new := by
  cases hu : u.resolveVariable x.text with
  | some v =>
    rw [Arith.setValue_run hu] at h
    split_ifs at h
    · cases h
    · cases h
      rw [values_of_resolve hu]
      exact values_of_resolve (Arith.resolveVariable_assign hu _)
  | none =>
    rw [Arith.setValue_define hu] at h
    cases h
    rw [values_of_resolve (Arith.resolveVariable_define x.nonempty hu _)]
    unfold Store.values
    rw [hu]
    rfl

/-- The loop of `var_def`. -/
theorem values_setElements {l : List (UInt32 × String)}
    (h : runShell host n d (Shell.setElements x.text l) s = some (.ok (), t)) :
    t.store.values x.text =
      insertAll (s.store.values x.text) (l.map fun p => (p.1, .str p.2)) := by
  induction l generalizing s with
  | nil =>
    cases h
    rfl
  | cons p l ih =>
    rw [Shell.setElements, runShell_bind] at h
    rcases bind_cases h with ⟨u, s', hset, hrest⟩ | ⟨e, -, he⟩
    · rw [runShell_perform, performOp, reads_bind_apply] at hset
      have hvalue := values_setValue (writing_store hset)
      rw [ih hrest, hvalue]
      rfl
    · cases he

/-- For every element: what is appended goes to the indices modulo 2^32. -/
theorem appends_wrapped {es : List ArrayElement}
    (h : runShell host n d (Shell.varDef host false (.append x es)) s = some (.ok (), t)) :
    ∃ E s₁, runShell host n d (Shell.elements host x.text es) s = some (.ok E, s₁) ∧
      Appends x.text
        ((placed (s.store.appendStart x.text) E).map fun p => (p.1 % 2 ^ 32, p.2))
        s₁.store t.store := by
  rw [Shell.varDef, runShell_bind] at h
  rcases run_appendIndex host n d x.text s with ⟨e, herr⟩ | hindex
  · rw [bind_of_error herr] at h
    cases h
  · rw [bind_of_ok hindex, runShell_bind, run_arrayDefHelper_elements, bind_assoc] at h
    rcases bind_cases h with ⟨E, s₁, helements, hrest⟩ | ⟨e, -, he⟩
    · rw [pure_bind, if_neg Bool.false_ne_true] at hrest
      have hvalues := values_setElements hrest
      rw [insertAll_toList_map] at hvalues
      refine ⟨E, s₁, helements, ?_⟩
      have hindices : (placed (s.store.appendStart x.text) E).map (fun p => (p.1 % 2 ^ 32, p.2)) =
          (written (s.store.appendStart x.text) E).map fun p => ((p.1.toNat : Int), p.2) := by
        unfold written
        rw [List.map_map]
        exact List.map_congr_left fun p _ => by rw [Function.comp_apply, toNat_ofInt]
      rw [hindices]
      exact appends_of_values hvalues
    · cases he

end Run

/-! ## Appending at the next index -/

/-- What is appended has indices, and no array with one null element is written
over: a list that goes to 0 and not to 1 leaves the same elements. -/
structure AppendsWell (x : String) (E : List (Option Int64 × String)) (s s₁ : Store) : Prop where
  inRange : ∀ p ∈ placed (s.nextIndex x) E, 0 ≤ p.1 ∧ p.1 < 2 ^ 32
  single : s.nextIndex x = 1 → Arith.textAt s x 0 = "" →
    SameShifted (s₁.elementAt x) ((unsubscripted E).map .str)
      ((placed 0 (fromSubscript E)).map Prod.fst)

section Exact

variable {host : Host} {n d : Nat} {x : Identifier} {es : List ArrayElement} {s t : Interpreter}

theorem map_emod_of_inRange {l : List (Int × String)} (h : ∀ p ∈ l, 0 ≤ p.1 ∧ p.1 < 2 ^ 32) :
    l.map (fun p => (p.1 % 2 ^ 32, p.2)) = l := by
  refine (List.map_congr_left fun p hp => ?_).trans (List.map_id l)
  obtain ⟨hlow, hhigh⟩ := h p hp
  rw [Int.emod_eq_of_lt hlow hhigh]
  rfl

/-- An element that has been appended has an index. -/
theorem inRange_of_appends {x : String} {l : List (Int × String)} {t t' : Store}
    (h : Appends x l t t') : ∀ p ∈ l, 0 ≤ p.1 ∧ p.1 < 2 ^ 32 := by
  intro p hp
  by_contra hout
  have hkey : p.1 ∈ (l.map fun p => (p.1, Value.str p.2)).map Prod.fst := by
    rw [List.map_map]
    exact List.mem_map_of_mem hp
  have hsome := (writeAll_eq_of_mem (f := t.elementAt x) (g := t.elementAt x) hkey).2
  rw [← h.elements, Store.elementAt, if_neg hout] at hsome
  cases hsome

theorem map_placed (k : Int) (E : List (Option Int64 × String)) :
    (placed k E).map (fun p => (p.1, Value.str p.2)) =
      consecutive k ((unsubscripted E).map .str) ++
        (placed 0 (fromSubscript E)).map fun p => (p.1, .str p.2) := by
  rw [placed_eq_append, List.map_append, map_consecutive]

/-- What fits from 1 on fits from 0 on. -/
theorem inRange_zero {E : List (Option Int64 × String)}
    (h : ∀ p ∈ placed 1 E, 0 ≤ p.1 ∧ p.1 < 2 ^ 32) : ∀ p ∈ placed 0 E, 0 ≤ p.1 ∧ p.1 < 2 ^ 32 := by
  rw [placed_eq_append] at h
  rw [placed_eq_append]
  intro p hp
  rcases List.mem_append.mp hp with hfirst | hlast
  · have hkey := (mem_keys_consecutive 0 p.1 _).mp (List.mem_map_of_mem hfirst)
    have hnext : p.1 + 1 ∈ (consecutive 1 (unsubscripted E)).map Prod.fst := by
      rw [mem_keys_consecutive]
      omega
    obtain ⟨q, hq, hkeyq⟩ := List.mem_map.mp hnext
    have hbound := h q (List.mem_append_left _ hq)
    omega
  · exact h p (List.mem_append_right _ hlast)

/-- Indices that fit are not changed; the only other thing is an append that starts
at 0 in the place of 1. -/
theorem appends_iff_single {x : String} {E : List (Option Int64 × String)} {s s₁ t : Store}
    (h : Appends x ((placed (s.appendStart x) E).map fun p => (p.1 % 2 ^ 32, p.2)) s₁ t)
    (hrange : ∀ p ∈ placed (s.nextIndex x) E, 0 ≤ p.1 ∧ p.1 < 2 ^ 32) :
    Appends x (placed (s.nextIndex x) E) s₁ t ↔ AppendsWell x E s s₁ := by
  unfold Store.appendStart at h
  by_cases hstart : s.nextIndex x = 1 ∧ Arith.textAt s x 0 = ""
  · obtain ⟨hone, hnull⟩ := hstart
    rw [if_pos ⟨hone, hnull⟩] at h
    rw [hone] at hrange ⊢
    rw [map_emod_of_inRange (inRange_zero hrange)] at h
    rw [appends_congr_iff h, map_placed 0 E, map_placed 1 E, ← sameShifted_iff, List.map_map]
    constructor
    · intro hsame
      exact ⟨hone.symm ▸ hrange, fun _ _ => hsame⟩
    · intro hwell
      exact hwell.single hone hnull
  · rw [if_neg hstart, map_emod_of_inRange hrange] at h
    constructor
    · intro _
      exact ⟨hrange, fun hone hnull => absurd ⟨hone, hnull⟩ hstart⟩
    · intro _
      exact h

/-- For every run of `x+=(..)` that completes. -/
theorem append_iff
    (h : runShell host n d (Shell.varDef host false (.append x es)) s = some (.ok (), t)) :
    ∃ E s₁, runShell host n d (Shell.elements host x.text es) s = some (.ok E, s₁) ∧
      (Appends x.text (placed (s.store.nextIndex x.text) E) s₁.store t.store ↔
        AppendsWell x.text E s.store s₁.store) := by
  obtain ⟨E, s₁, helements, happends⟩ := appends_wrapped h
  refine ⟨E, s₁, helements, ?_⟩
  constructor
  · intro hspec
    exact (appends_iff_single happends (inRange_of_appends hspec)).mp hspec
  · intro hwell
    exact (appends_iff_single happends hwell.inRange).mpr hwell

end Exact

/-- An interpreter in which `a` is the array of the texts. -/
def withArrayA (values : List String) : Interpreter :=
  { Interpreter.initial [] with
    store := { members := initialMembers.insert "a" (.ofList "a" 0 values), localMembers := [] } }

/-- `a+=(x)`, after `a=(1 2)`. -/
theorem append_iff_two :
    ∃ t, runShell (.ofTexts [] []) 0 0
        (Shell.varDef (.ofTexts [] []) false (.append identifierA [.next (.literal "x")]))
        (withArrayA ["1", "2"]) = some (.ok (), t) ∧
      ∃ E s₁, runShell (.ofTexts [] []) 0 0
          (Shell.elements (.ofTexts [] []) "a" [.next (.literal "x")]) (withArrayA ["1", "2"]) =
            some (.ok E, s₁) ∧
        (Appends "a" (placed ((withArrayA ["1", "2"]).store.nextIndex "a") E) s₁.store t.store ↔
          AppendsWell "a" E (withArrayA ["1", "2"]).store s₁.store) :=
  ⟨_, rfl, append_iff (x := identifierA) rfl⟩

/-- `a+=(x)`, after `a=("")`: the null element is written over. -/
theorem not_appends_null :
    ∃ t, runShell (.ofTexts [] []) 0 0
        (Shell.varDef (.ofTexts [] []) false (.append identifierA [.next (.literal "x")]))
        (withArrayA [""]) = some (.ok (), t) ∧
      runShell (.ofTexts [] []) 0 0
          (Shell.elements (.ofTexts [] []) "a" [.next (.literal "x")]) (withArrayA [""]) =
            some (.ok [(none, "x")], withArrayA [""]) ∧
      ¬Appends "a" (placed ((withArrayA [""]).store.nextIndex "a") [(none, "x")])
        (withArrayA [""]).store t.store := by
  have hrun : ∃ t, runShell (.ofTexts [] []) 0 0
      (Shell.varDef (.ofTexts [] []) false (.append identifierA [.next (.literal "x")]))
      (withArrayA [""]) = some (.ok (), t) := ⟨_, rfl⟩
  obtain ⟨t, hrun⟩ := hrun
  refine ⟨t, hrun, rfl, fun h => ?_⟩
  obtain ⟨E, s₁, helements, happends⟩ := appends_wrapped hrun
  have hE : some (Except.ok [(none, "x")], withArrayA [""]) = some (Except.ok E, s₁) := helements
  cases hE
  have hwell := (appends_iff_single happends (inRange_of_appends h)).mp h
  have hnext : (withArrayA [""]).store.nextIndex "a" = 1 := by
    unfold Store.nextIndex
    rw [Std.ExtTreeMap.maxKey?_eq_getLast?_keys]
    decide +kernel
  have hsame : some ((withArrayA [""]).store.elementAt "a" 0) = some (some (.str "x")) :=
    hwell.single hnext (by decide +kernel) 0 (by decide)
  have hbefore : (withArrayA [""]).store.elementAt "a" 0 = some (.str "") := by decide +kernel
  rw [hbefore] at hsame
  exact absurd hsame (by decide)

end Libbash
