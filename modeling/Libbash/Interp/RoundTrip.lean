import Libbash.Interp.Frames
import Libbash.Lib.SortedMap

/-!
# The map of variables

`interpret` defines a variable for every entry of the map that it is given, and
when the script has ended it fills the map with the global variables. The loop
over the entries takes the first element of each and nothing else, so an entry
comes back as it was exactly when it has one element (`roundTrips_iff`).
-/

namespace Libbash

open Lib Lib.Comp Lib.Program

/-! ## The entries as variables -/

/-- What the first element of an entry is defined as. -/
def initialVariable (name value : String) : Variable := .new name (.scalar (.str value) 0) false

theorem getAllValues_initialVariable (name value : String) :
    (initialVariable name value).getAllValues = [value] := by
  have hlist : (insertAll (∅ : Values) [(0, .str value)]).toList = [(0, .str value)] :=
    toList_insertAll (List.pairwise_singleton _ _)
  show ((insertAll (∅ : Values) [(0, .str value)]).toList.map fun p => p.2.toStr) = [value]
  rw [hlist]
  rfl

section DefineInitial

variable {vars : List (String × List String)} {t t' : Store} {x : String}

theorem defineInitial_cons (name value : String) (values : List String)
    (vars : List (String × List String)) (t : Store) :
    defineInitial ((name, value :: values) :: vars) t =
      defineInitial vars { t with members := t.members.insert name (initialVariable name value) } :=
  rfl

/-- Without an empty vector the loop comes to its end. -/
theorem defineInitial_ok (h : ∀ p ∈ vars, p.2 ≠ []) (t : Store) :
    ∃ t', defineInitial vars t = some (.ok (), t') := by
  induction vars generalizing t with
  | nil => exact ⟨t, rfl⟩
  | cons p vars ih =>
    obtain ⟨name, values⟩ := p
    cases values with
    | nil => exact absurd rfl (h _ List.mem_cons_self)
    | cons value values =>
      rw [defineInitial_cons]
      exact ih (fun p hp => h p (List.mem_cons_of_mem _ hp)) _

/-- The first empty vector is read past its end. -/
theorem defineInitial_outOfBounds (h : ∃ p ∈ vars, p.2 = []) (t : Store) :
    ∃ t', defineInitial vars t = some (.error .undefinedBehaviour, t') := by
  induction vars generalizing t with
  | nil =>
    obtain ⟨p, hp, -⟩ := h
    exact absurd hp List.not_mem_nil
  | cons p vars ih =>
    obtain ⟨name, values⟩ := p
    cases values with
    | nil => exact ⟨t, rfl⟩
    | cons value values =>
      rw [defineInitial_cons]
      refine ih ?_ _
      obtain ⟨q, hq, hempty⟩ := h
      rcases List.mem_cons.mp hq with rfl | hq
      · cases hempty
      · exact ⟨q, hq, hempty⟩

theorem defineInitial_unchanged (h : defineInitial vars t = some (.ok (), t'))
    (hx : ∀ p ∈ vars, p.1 ≠ x) : t'.members[x]? = t.members[x]? := by
  induction vars generalizing t with
  | nil =>
    cases h
    rfl
  | cons p vars ih =>
    obtain ⟨name, values⟩ := p
    cases values with
    | nil => cases h
    | cons value values =>
      rw [defineInitial_cons] at h
      rw [ih h fun p hp => hx p (List.mem_cons_of_mem _ hp), Std.ExtTreeMap.getElem?_insert, if_neg]
      rw [Std.LawfulEqCmp.compare_eq_iff_eq]
      exact hx _ List.mem_cons_self

/-- An entry of the map is defined by its first element. -/
theorem defineInitial_defines (h : defineInitial vars t = some (.ok (), t'))
    (hnames : vars.Pairwise fun p q => p.1 ≠ q.1) {value : String} {values : List String}
    (hx : (x, value :: values) ∈ vars) : t'.members[x]? = some (initialVariable x value) := by
  induction vars generalizing t with
  | nil => exact absurd hx List.not_mem_nil
  | cons p vars ih =>
    obtain ⟨hp, hrest⟩ := List.pairwise_cons.mp hnames
    rcases List.mem_cons.mp hx with rfl | hmem
    · rw [defineInitial_cons] at h
      rw [defineInitial_unchanged h fun q hq => (hp q hq).symm,
        Std.ExtTreeMap.getElem?_insert_self]
    · obtain ⟨name, values⟩ := p
      cases values with
      | nil => cases h
      | cons value values =>
        rw [defineInitial_cons] at h
        exact ih h hrest hmem

end DefineInitial

/-! ## A run -/

/-- No step of the run has written the global variable of this name. -/
def Untouched (x : String) (s : Interpreter) : Prop := ∀ how, Event.wrote how x 0 ∉ s.log

theorem onStore_of_ok {α : Type} {m : Comp Exn Store α} {s : Interpreter} {t : Store} {a : α}
    (h : m s.store = some (.ok a, t)) : onStore m s = some (.ok a, { s with store := t }) := by
  unfold onStore zoom
  rw [h]

theorem Evolves.untouched {b : Bool} {cur : AstId} {s s' : Interpreter} {x : String}
    (h : Evolves b cur s s') (hx : Untouched x s') : s'.store.members[x]? = s.store.members[x]? := by
  obtain ⟨new, hnew⟩ := h.framed
  have hnone : ∀ how, Event.wrote how x 0 ∉ new := by
    intro how hmem
    refine hx how ?_
    rw [hnew.log]
    exact List.mem_append_left _ hmem
  have hvalue := hnew.unwritten x 0 (Nat.zero_le _) hnone
  rwa [Store.valueAt, Store.valueAt, valueAt_zero, valueAt_zero] at hvalue

section Run

variable {host : Host} {n d : Nat} {vars : VariableMap} {x value : String} {values : List String}
  {s s' : Interpreter} {out : Interpretation}

/-- What comes back for a variable that the script leaves alone. -/
theorem internalInterpret_untouched {path : String}
    (hrun : internalInterpret host n d path vars s = some (.ok out, s')) (hzero : x ≠ "0")
    (hx : vars[x]? = some (value :: values)) (huntouched : Untouched x s') :
    out.vars[x]? = some [value] := by
  unfold internalInterpret at hrun
  rcases bind_cases hrun with ⟨⟨⟩, s₁, hvars, hrun⟩ | ⟨e, -, he⟩
  · rcases bind_cases hrun with ⟨⟨⟩, s₂, hpath, hrun⟩ | ⟨e, -, he⟩
    · rcases bind_cases hrun with ⟨⟨⟩, _, hfile, hrun⟩ | ⟨e, -, he⟩
      · cases hrun
        obtain ⟨t₁, ht₁, rfl⟩ := onStore_cases hvars
        obtain ⟨t₂, ht₂, rfl⟩ := onStore_cases hpath
        cases ht₂
        have hdefined : t₁.members[x]? = some (initialVariable x value) := by
          refine defineInitial_defines ht₁ ?_ (Std.ExtTreeMap.mem_toList_iff_getElem?_eq_some.mpr hx)
          refine Std.ExtTreeMap.distinct_keys_toList.imp fun {p q} hne heq => hne ?_
          rw [heq]
          exact Std.ReflCmp.compare_self
        have hfile := (runShell_evolves host n d 0 _ _ _ _ hfile).untouched huntouched
        -- the path is defined under another name
        have hpath : s'.store.members[x]? = some (initialVariable x value) := by
          rw [hfile, ← hdefined]
          show (t₁.members.insert "0" _)[x]? = _
          rw [Std.ExtTreeMap.getElem?_insert, if_neg]
          rw [Std.LawfulEqCmp.compare_eq_iff_eq]
          exact hzero.symm
        show (s'.store.members.map fun _ v => v.getAllValues)[x]? = _
        rw [Std.ExtTreeMap.getElem?_map, hpath, Option.map_some, getAllValues_initialVariable]
      · cases he
    · cases he
  · cases he

theorem interpret_untouched {targetPath : String} {preloadPath : Option String}
    (hrun : interpret host n d targetPath preloadPath vars s = some (.ok out, s')) (hzero : x ≠ "0")
    (hx : vars[x]? = some (value :: values)) (huntouched : Untouched x s') :
    out.vars[x]? = some [value] := by
  cases preloadPath with
  | none => exact internalInterpret_untouched hrun hzero hx huntouched
  | some path =>
    rcases bind_cases hrun with ⟨⟨⟩, s₁, -, hrun⟩ | ⟨e, -, he⟩
    · exact internalInterpret_untouched hrun hzero hx huntouched
    · cases he

end Run

/-! ## The round trip -/

/-- The names that a caller may not pass. -/
def reservedNames : List String := ["0", "*", "IFS", "-"]

/-- Every entry is read inside its vector, and comes back as it was from every
script that leaves its variable alone. -/
structure RoundTrips (vars : VariableMap) : Prop where
  inBounds : ∀ t t', defineInitial vars.toList t ≠ some (.error .undefinedBehaviour, t')
  returned : ∀ host n d targetPath preloadPath stdin out s',
    interpret host n d targetPath preloadPath vars (.initial stdin) = some (.ok out, s') →
      ∀ x values, vars[x]? = some values → Untouched x s' → out.vars[x]? = some values

/-- The script `:`. -/
def colonScript : Tree := .script (.ofSimple (.literals ":" []) []) []

theorem interpretFile_colonScript (t : Store) :
    ∃ s, interpretFile (.ofScript ":" colonScript) 1 1 "a.bash"
      { Interpreter.initial [] with store := t } = some (.ok (), s) ∧ s.log = [] :=
  ⟨_, rfl, rfl⟩

section RoundTrips

variable {vars : VariableMap} {x : String} {values : List String}

theorem mem_toList_vars : vars[x]? = some values ↔ (x, values) ∈ vars.toList :=
  Std.ExtTreeMap.mem_toList_iff_getElem?_eq_some.symm

theorem ne_zero_of_mem (hnames : ∀ x ∈ vars, x ∉ reservedNames) (hx : vars[x]? = some values) :
    x ≠ "0" := by
  rintro rfl
  have hmem : "0" ∈ vars := by
    rw [Std.ExtTreeMap.mem_iff_isSome_getElem?, hx]
    rfl
  exact hnames "0" hmem (by decide)

theorem nonempty_of_roundTrips (h : RoundTrips vars) : ∀ p ∈ vars.toList, p.2 ≠ [] := by
  intro p hp hempty
  obtain ⟨t, ht⟩ := defineInitial_outOfBounds ⟨p, hp, hempty⟩ (Interpreter.initial []).store
  exact h.inBounds _ _ ht

/-- The script `:` runs with every map that has no empty vector, and touches
nothing. -/
theorem interpret_colonScript (h : ∀ p ∈ vars.toList, p.2 ≠ []) :
    ∃ out s, interpret (.ofScript ":" colonScript) 1 1 "a.bash" none vars (.initial []) =
      some (.ok out, s) ∧ s.log = [] := by
  obtain ⟨t, ht⟩ := defineInitial_ok h (Interpreter.initial []).store
  obtain ⟨s, hs, hlog⟩ := interpretFile_colonScript
    { t with members := t.members.insert "0" (.new "0" (.scalar (.str "a.bash") 0) true) }
  refine ⟨s.collect, s, ?_, hlog⟩
  show internalInterpret _ 1 1 "a.bash" vars _ = _
  unfold internalInterpret
  rw [bind_of_ok (onStore_of_ok ht), bind_of_ok (onStore_of_ok rfl), bind_of_ok hs]
  rfl

theorem single_of_roundTrips (hnames : ∀ x ∈ vars, x ∉ reservedNames) (h : RoundTrips vars)
    (hx : vars[x]? = some values) : values.length = 1 := by
  cases values with
  | nil => exact absurd rfl (nonempty_of_roundTrips h _ (mem_toList_vars.mp hx))
  | cons value rest =>
    obtain ⟨out, s, hrun, hlog⟩ := interpret_colonScript (nonempty_of_roundTrips h)
    have huntouched : Untouched x s := by
      intro how hmem
      rw [hlog] at hmem
      exact absurd hmem List.not_mem_nil
    have hback := h.returned _ _ _ _ _ _ _ _ hrun x _ hx huntouched
    rw [interpret_untouched hrun (ne_zero_of_mem hnames hx) hx huntouched, Option.some.injEq] at hback
    rw [← hback]
    rfl

theorem roundTrips_of_single (hnames : ∀ x ∈ vars, x ∉ reservedNames)
    (h : ∀ (x : String) (values : List String), vars[x]? = some values → values.length = 1) :
    RoundTrips vars := by
  constructor
  · intro t t' hrun
    have hnonempty : ∀ p ∈ vars.toList, p.2 ≠ [] := by
      intro p hp hempty
      have hlength := h p.1 p.2 (mem_toList_vars.mpr hp)
      rw [hempty] at hlength
      cases hlength
    obtain ⟨t₁, ht₁⟩ := defineInitial_ok hnonempty t
    rw [ht₁] at hrun
    cases hrun
  · intro host n d targetPath preloadPath stdin out s' hrun x values hx huntouched
    obtain ⟨value, rfl⟩ := List.length_eq_one_iff.mp (h x values hx)
    exact interpret_untouched hrun (ne_zero_of_mem hnames hx) hx huntouched

end RoundTrips

/-- For every map, of whatever length its vectors are. -/
theorem roundTrips_iff (vars : VariableMap) (hnames : ∀ x ∈ vars, x ∉ reservedNames) :
    RoundTrips vars ↔ ∀ (x : String) (values : List String),
      vars[x]? = some values → values.length = 1 := by
  constructor
  · intro h x values hx
    exact single_of_roundTrips hnames h hx
  · exact roundTrips_of_single hnames

theorem roundTrips_iff_xA :
    (∀ x ∈ ((∅ : VariableMap).insert "x" ["a"]), x ∉ reservedNames) ∧
      (RoundTrips ((∅ : VariableMap).insert "x" ["a"]) ↔ ∀ (x : String) (values : List String),
        ((∅ : VariableMap).insert "x" ["a"])[x]? = some values → values.length = 1) := by
  have hnames : ∀ x ∈ ((∅ : VariableMap).insert "x" ["a"]), x ∉ reservedNames := by
    intro x hx
    rw [Std.ExtTreeMap.mem_insert, Std.LawfulEqCmp.compare_eq_iff_eq] at hx
    rcases hx with rfl | hx
    · decide
    · exact absurd hx Std.ExtTreeMap.not_mem_empty
  exact ⟨hnames, roundTrips_iff _ hnames⟩

/-- The map that comes back has only `a` for `x`, and nothing was written in between. -/
def returnsOne : Except Exn Interpretation × Interpreter → Bool
  | (.ok out, s) => out.vars["x"]? == some ["a"] && s.log.isEmpty
  | (.error _, _) => false

/-- A vector of two elements. -/
theorem not_roundTrips_xAB : ¬RoundTrips ((∅ : VariableMap).insert "x" ["a", "b"]) := by
  intro h
  let vars : VariableMap := (∅ : VariableMap).insert "x" ["a", "b"]
  let run := interpret (.ofScript ":" colonScript) 1 1 "a.bash" none vars (.initial [])
  have hrun : run.map returnsOne = some true := by decide +kernel
  obtain ⟨⟨r, s⟩, hs, hreturned⟩ := Option.map_eq_some_iff.mp hrun
  cases r with
  | error e => cases hreturned
  | ok out =>
    obtain ⟨hout, hlog⟩ := (Bool.and_eq_true _ _).mp hreturned
    have huntouched : Untouched "x" s := by
      intro how hmem
      rw [List.isEmpty_iff.mp hlog] at hmem
      exact absurd hmem List.not_mem_nil
    have hback := h.returned _ _ _ _ _ _ _ _ hs "x" ["a", "b"]
      Std.ExtTreeMap.getElem?_insert_self huntouched
    rw [eq_of_beq hout] at hback
    cases hback

end Libbash
