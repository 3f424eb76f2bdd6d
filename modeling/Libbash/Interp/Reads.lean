import Libbash.Arith.Elements
import Libbash.Interp.Assignments
import Libbash.Interp.Reading

/-!
# `process`

`read` divides a line at every single space and gives a piece to each variable; the
last one that gets any gets all that are left, and the others become empty. What the
variables get is `share`; joined with spaces it is the line (`process_distributes`).
-/

namespace Libbash

open Lib Lib.Comp Lib.Program

/-! ## Pieces -/

theorem splitAt_eq_splitOnP (p : Char → Bool) (cs : List Char) :
    splitAt p cs = cs.splitOnP p := by
  induction cs with
  | nil => rfl
  | cons c cs ih =>
    rw [splitAt, List.splitOnP_cons_eq_if_modifyHead, ih]
    cases hp : p c with
    | true => rfl
    | false =>
      cases hsplit : cs.splitOnP p with
      | nil => exact absurd hsplit (List.splitOnP_ne_nil p cs)
      | cons token tokens => rfl

theorem splitSpaces_ne_nil (text : String) : splitSpaces text ≠ [] := by
  unfold splitSpaces
  rw [splitAt_eq_splitOnP]
  exact fun h => List.splitOnP_ne_nil _ _ (List.map_eq_nil_iff.mp h)

/-- The pieces with a space between two of them are the text. -/
theorem intercalate_splitSpaces (text : String) : " ".intercalate (splitSpaces text) = text := by
  rw [← String.toList_inj, String.toList_intercalate]
  unfold splitSpaces
  rw [List.map_map, splitAt_eq_splitOnP]
  have hid : String.toList ∘ String.ofList = id := funext fun _ => String.toList_ofList
  rw [hid, List.map_id]
  exact List.intercalate_splitOn ' '

theorem notMem_splitAt {p : Char → Bool} {cs piece : List Char} (h : piece ∈ splitAt p cs) :
    ∀ c ∈ piece, p c = false := by
  induction cs generalizing piece with
  | nil =>
    rw [splitAt, List.mem_singleton] at h
    rw [h]
    exact fun c hc => absurd hc List.not_mem_nil
  | cons c cs ih =>
    rw [splitAt] at h
    cases hp : p c with
    | true =>
      rw [if_pos hp] at h
      rcases List.mem_cons.mp h with rfl | hin
      · exact fun c hc => absurd hc List.not_mem_nil
      · exact ih hin
    | false =>
      rw [if_neg (by rw [hp]; decide)] at h
      cases hsplit : splitAt p cs with
      | nil =>
        rw [hsplit, List.mem_singleton] at h
        rw [h]
        exact fun d hd => by rw [List.mem_singleton.mp hd, hp]
      | cons token tokens =>
        rw [hsplit] at h
        rcases List.mem_cons.mp h with rfl | hin
        · have htoken := ih (hsplit ▸ List.mem_cons_self)
          exact List.forall_mem_cons.mpr ⟨hp, htoken⟩
        · exact ih (hsplit ▸ List.mem_cons_of_mem _ hin)

/-- No piece has a space. -/
theorem space_notMem_splitSpaces {text piece : String} (h : piece ∈ splitSpaces text) :
    ' ' ∉ piece.toList := by
  obtain ⟨cs, hcs, rfl⟩ := List.mem_map.mp h
  rw [String.toList_ofList]
  intro hmem
  have hspace := notMem_splitAt hcs ' ' hmem
  exact absurd hspace (by decide)

/-! ## Shares -/

/-- What the variable number `i` of `n` gets of the words, both counted from 0. -/
def share (n : Nat) (words : List String) (i : Nat) : String :=
  if i + 1 < min n words.length then words.getD i ""
  else if i + 1 = min n words.length then " ".intercalate (words.drop i)
  else ""

theorem share_nil (n i : Nat) : share n [] i = "" := by
  unfold share
  rw [if_neg (by simp), if_neg (by simp)]

theorem share_one (words : List String) (h : words ≠ []) :
    share 1 words 0 = " ".intercalate words := by
  have hlen := List.length_pos_iff.mpr h
  unfold share
  rw [if_neg (by omega), if_pos (by omega), List.drop_zero]

theorem share_head (n : Nat) (word : String) (words : List String) :
    share (n + 2) (word :: words) 0 = word := by
  unfold share
  cases words with
  | nil =>
    rw [if_neg (by simp), if_pos (by simp)]
    simp
  | cons word' words => rw [if_pos (by simp)]; rfl

theorem share_tail (n : Nat) (word : String) (words : List String) (i : Nat) :
    share (n + 1) (word :: words) (i + 1) = share n words i := by
  unfold share
  rw [List.length_cons, Nat.succ_min_succ]
  have hlt : i + 1 + 1 < min n words.length + 1 ↔ i + 1 < min n words.length := by omega
  have heq : i + 1 + 1 = min n words.length + 1 ↔ i + 1 = min n words.length := by omega
  simp only [Nat.succ_eq_add_one, hlt, heq, List.getD_cons_succ, List.drop_succ_cons]

/-- The shares of the variables that get any words, joined again. -/
theorem intercalate_shares {n : Nat} {words : List String} (hn : 0 < n) (hwords : words ≠ []) :
    " ".intercalate ((List.range (min n words.length)).map (share n words)) =
      " ".intercalate words := by
  induction n generalizing words with
  | zero => exact absurd hn (Nat.lt_irrefl 0)
  | succ n ih =>
    obtain ⟨word, words, rfl⟩ := List.exists_cons_of_ne_nil hwords
    cases n with
    | zero =>
      have hmin : min (0 + 1) (word :: words).length = 1 := by simp
      rw [hmin]
      show " ".intercalate [share 1 (word :: words) 0] = _
      rw [share_one _ hwords, String.intercalate_singleton]
    | succ n =>
      rw [List.length_cons, Nat.succ_min_succ, List.range_succ_eq_map, List.map_cons, List.map_map,
        share_head]
      have hshift : share (n + 1 + 1) (word :: words) ∘ Nat.succ = share (n + 1) words :=
        funext fun i => share_tail (n + 1) word words i
      rw [hshift]
      by_cases hnil : words = []
      · rw [hnil]
        rfl
      · have hpos : 0 < min (n + 1) words.length := by
          have := List.length_pos_iff.mpr hnil
          omega
        have hne : (List.range (min (n + 1) words.length)).map (share (n + 1) words) ≠ [] := by
          intro h
          rw [List.map_eq_nil_iff, List.range_eq_nil] at h
          omega
        rw [String.intercalate_cons_of_ne_nil hne, String.intercalate_cons_of_ne_nil hnil,
          ih (Nat.succ_pos n) hnil]

/-- Every variable with what it gets. -/
def assignments (names words : List String) : List StoreWrite :=
  names.mapIdx fun i name => .setValue name (.str (share names.length words i)) 0

theorem assignments_cons (name : String) (names : List String) (word : String)
    (words : List String) :
    assignments (name :: names) (word :: words) =
      .setValue name (.str (share (names.length + 1) (word :: words) 0)) 0 ::
        assignments names words := by
  unfold assignments
  rw [List.mapIdx_cons]
  congr 2
  funext i name'
  rw [List.length_cons, share_tail]

theorem assignments_nil (name : String) (names : List String) :
    assignments (name :: names) [] = .setValue name (.str "") 0 :: assignments names [] := by
  unfold assignments
  rw [List.mapIdx_cons]
  simp only [share_nil]

/-- What `process` writes are the shares. -/
theorem processWrites_eq (names words : List String) :
    Shell.processWrites names words = assignments names words := by
  fun_induction Shell.processWrites names words with
  | case1 words => rfl
  | case2 name names ih => rw [assignments_nil, ih]
  | case3 name words hwords =>
    rw [← share_one words hwords]
    rfl
  | case4 name names word words hnames ih =>
    obtain ⟨name', names, rfl⟩ := List.exists_cons_of_ne_nil hnames
    rw [assignments_cons, List.length_cons, share_head, ih]

/-! ## The assignments of a line -/

/-- A name whose variable can be written, or be made. -/
structure Store.Assignable (t : Store) (name : String) : Prop where
  nonempty : name.isEmpty = false
  writable : ∀ v, t.resolveVariable name = some v → v.readonly = false

theorem resolveVariable_congr {t t' : Store} {y : String}
    (h : t'.bindings.stack y = t.bindings.stack y) :
    t'.resolveVariable y = t.resolveVariable y := by
  cases hy : y.isEmpty with
  | true =>
    unfold Store.resolveVariable
    rw [hy]
    rfl
  | false =>
    rw [resolve_of_nonempty hy, resolve_of_nonempty hy]
    unfold Bindings.resolve
    rw [h]

theorem Store.Assignable.congr {t t' : Store} {name : String} (h : t.Assignable name)
    (hstack : t'.bindings.stack name = t.bindings.stack name) : t'.Assignable name where
  nonempty := h.nonempty
  writable v hv := h.writable v ((resolveVariable_congr hstack).symm.trans hv)

/-- `set_value` gives the variable its value and leaves the others as they are. -/
theorem setValue_assignable {t : Store} {name : String} (h : t.Assignable name) (text : String) :
    ∃ t', Libbash.setValue name (.str text) 0 t = some (.ok (), t') ∧
      t'.parameter name 0 = some text ∧
      ∀ y, y ≠ name → t'.bindings.stack y = t.bindings.stack y := by
  cases hv : t.resolveVariable name with
  | some v =>
    have hset := Arith.setValue_run hv (.str text) 0
    rw [if_neg (by rw [h.writable v hv]; decide)] at hset
    refine ⟨_, hset, ?_, fun y hy => ?_⟩
    · rw [Store.parameter, Arith.resolveVariable_assign hv, Option.bind_some,
        Std.ExtTreeMap.getElem?_insert_self]
      rfl
    · have hsome : t.bindings.resolve name ≠ none := by
        rw [← resolve_of_nonempty h.nonempty, hv]
        exact Option.some_ne_none v
      rw [bindings_assign t name _ hsome, Bindings.replace, Bindings.stack_withStack_ne _ _ hy]
  | none =>
    refine ⟨_, Arith.setValue_define hv (.str text) 0, ?_, fun y hy => ?_⟩
    · have hglobal : t.IsGlobal name := by
        refine resolveLocal_eq_none_iff.mp ?_
        unfold Store.resolveVariable at hv
        rw [h.nonempty, if_neg Bool.false_ne_true] at hv
        cases hlocal : resolveLocal name t.localMembers with
        | none => rfl
        | some v =>
          rw [hlocal] at hv
          cases hv
      rw [Store.parameter, resolve_define h.nonempty hglobal, Option.bind_some]
      show ((∅ : Values).insert 0 (.str text))[(0 : UInt32)]?.map Value.toStr = _
      rw [Std.ExtTreeMap.getElem?_insert_self]
      rfl
    · rw [bindings_define, Bindings.bindGlobal, Bindings.stack_withStack_ne _ _ hy]

section Process

variable {host : Host} {n d : Nat} {names : List String} {s : Interpreter}

/-- Assignments to distinct variables one after the other. -/
theorem run_setValues {pairs : List (String × String)} (hnodup : (pairs.map Prod.fst).Nodup)
    (hnames : ∀ p ∈ pairs, s.store.Assignable p.1) :
    ∃ t log, runShell host n d
        (performWrites (pairs.map fun p => .setValue p.1 (.str p.2) 0)) s =
          some (.ok (), { s with store := t, log := log }) ∧
      (∀ p ∈ pairs, t.parameter p.1 0 = some p.2) ∧
      ∀ y, y ∉ pairs.map Prod.fst → t.bindings.stack y = s.store.bindings.stack y := by
  induction pairs generalizing s with
  | nil => exact ⟨s.store, s.log, rfl, fun _ h => absurd h List.not_mem_nil, fun _ _ => rfl⟩
  | cons p pairs ih =>
    rw [List.map_cons, List.nodup_cons] at hnodup
    rw [List.forall_mem_cons] at hnames
    obtain ⟨t, hset, hvalue, hothers⟩ := setValue_assignable hnames.1 p.2
    have hstep : runShell host n d (StoreWrite.setValue p.1 (.str p.2) 0).program s =
        some (.ok (), Interpreter.record (.wrote (setHow s.store p.1) p.1 (s.store.level p.1))
          { s with store := t }) := by
      rw [StoreWrite.program, runShell_perform, performOp, reads_bind_apply]
      exact writing_of_ok hset
    have hne : ∀ q ∈ pairs, q.1 ≠ p.1 := fun q hq heq =>
      hnodup.1 (heq ▸ List.mem_map_of_mem hq)
    have hlater : ∀ q ∈ pairs, t.Assignable q.1 := fun q hq =>
      (hnames.2 q hq).congr (hothers q.1 (hne q hq))
    obtain ⟨t', log, hrest, hvalues, hothers'⟩ := @ih (Interpreter.record
      (.wrote (setHow s.store p.1) p.1 (s.store.level p.1)) { s with store := t }) hnodup.2 hlater
    refine ⟨t', log, ?_, ?_, fun y hy => ?_⟩
    · rw [List.map_cons, performWrites, runShell_bind, bind_of_ok hstep, hrest]
      rfl
    · have hkept := resolveVariable_congr (hothers' p.1 hnodup.1)
      refine List.forall_mem_cons.mpr ⟨?_, hvalues⟩
      rw [Store.parameter, hkept]
      exact hvalue
    · rw [List.map_cons, List.mem_cons, not_or] at hy
      rw [hothers' y hy.2]
      exact hothers y hy.1

/-- `process` gives every variable its share and changes no other. -/
theorem run_process (words : List String) (hnodup : names.Nodup)
    (hnames : ∀ name ∈ names, s.store.Assignable name) :
    ∃ t log, runShell host n d (Shell.process names words) s =
        some (.ok (), { s with store := t, log := log }) ∧
      (∀ i (hi : i < names.length), t.parameter names[i] 0 = some (share names.length words i)) ∧
      ∀ y, y ∉ names → t.bindings.stack y = s.store.bindings.stack y := by
  have hwrites : runShell host n d (performWrites (assignments names words)) =
      runShell host n d (Shell.process names words) := by
    rw [← processWrites_eq]
    exact run_processWrites _ names words
  let pairs := names.mapIdx fun i name => (name, share names.length words i)
  have hfst : pairs.map Prod.fst = names := by
    apply List.ext_getElem?
    intro i
    rw [List.getElem?_map, List.getElem?_mapIdx, Option.map_map]
    exact Option.map_id'
  have hpairs : assignments names words = pairs.map fun p => .setValue p.1 (.str p.2) 0 := by
    apply List.ext_getElem?
    intro i
    rw [assignments, List.getElem?_map, List.getElem?_mapIdx, List.getElem?_mapIdx, Option.map_map]
    rfl
  have hmem : ∀ p ∈ pairs, s.store.Assignable p.1 := fun p hp =>
    hnames p.1 (hfst ▸ List.mem_map_of_mem hp)
  obtain ⟨t, log, hrun, hvalues, hothers⟩ :=
    @run_setValues host n d s pairs (by rw [hfst]; exact hnodup) hmem
  rw [← hpairs, hwrites] at hrun
  rw [hfst] at hothers
  exact ⟨t, log, hrun, fun i hi => hvalues _ (List.mem_mapIdx.mpr ⟨i, hi, rfl⟩), hothers⟩

/-- The value of a variable. -/
def Interpreter.value (s : Interpreter) (name : String) : String :=
  (s.store.parameter name 0).getD ""

/-- The pieces of a line have no space and are the line when they are joined, every
variable gets its share of them, the variables that get any are the line when they are
joined, and no other variable changes. -/
theorem process_distributes (host : Host) (n d : Nat) (s : Interpreter) (line : String)
    (names : List String) (hne : names ≠ []) (hnodup : names.Nodup)
    (hnames : ∀ name ∈ names, s.store.Assignable name) :
    ((∀ piece ∈ splitSpaces line, ' ' ∉ piece.toList) ∧
      " ".intercalate (splitSpaces line) = line) ∧
    ∃ s', runShell host n d (Shell.process names (splitSpaces line)) s = some (.ok (), s') ∧
      (∀ i (hi : i < names.length),
        s'.store.parameter names[i] 0 = some (share names.length (splitSpaces line) i)) ∧
      " ".intercalate
        ((names.take (min names.length (splitSpaces line).length)).map s'.value) = line ∧
      (∀ y, y ∉ names → s'.store.bindings.stack y = s.store.bindings.stack y) ∧
      s' = { s with store := s'.store, log := s'.log } := by
  obtain ⟨t, log, hrun, hvalues, hothers⟩ :=
    @run_process host n d names s (splitSpaces line) hnodup hnames
  refine ⟨⟨fun piece => space_notMem_splitSpaces, intercalate_splitSpaces line⟩, _, hrun, hvalues,
    ?_, hothers, rfl⟩
  have hshares : (names.take (min names.length (splitSpaces line).length)).map
      ({ s with store := t, log := log } : Interpreter).value =
      (List.range (min names.length (splitSpaces line).length)).map
        (share names.length (splitSpaces line)) := by
    apply List.ext_getElem
    · simp
    · intro i hi _
      rw [List.length_map, List.length_take] at hi
      have hlt : i < names.length := by omega
      simp only [List.getElem_map, List.getElem_take, List.getElem_range, Interpreter.value]
      rw [hvalues i hlt]
      rfl
  rw [hshares, intercalate_shares (List.length_pos_iff.mpr hne) (splitSpaces_ne_nil line),
    intercalate_splitSpaces]

end Process

/-- In a new interpreter every variable but the initial ones can be made. -/
theorem assignable_initial {name : String} (hname : name.isEmpty = false)
    (hunset : ((Interpreter.initial []).store.resolveVariable name).isNone = true) :
    (Interpreter.initial []).store.Assignable name where
  nonempty := hname
  writable v hv := by
    rw [hv] at hunset
    cases hunset

theorem process_distributes_twoNames :
    ∃ s', runShell (.ofTexts [] []) 0 0 (Shell.process ["x", "y"] (splitSpaces "a  b "))
        (.initial []) = some (.ok (), s') ∧
      s'.store.parameter "x" 0 = some "a" ∧ s'.store.parameter "y" 0 = some " b " := by
  have hsound : ∀ name ∈ ["x", "y"], name.isEmpty = false ∧
      ((Interpreter.initial []).store.resolveVariable name).isNone = true := by decide +kernel
  have hnames : ∀ name ∈ ["x", "y"], (Interpreter.initial []).store.Assignable name :=
    fun name hname => assignable_initial (hsound name hname).1 (hsound name hname).2
  obtain ⟨-, s', hrun, hvalues, -⟩ := process_distributes (.ofTexts [] []) 0 0 (.initial []) "a  b "
    ["x", "y"] (by decide) (by decide) hnames
  have hx : share 2 (splitSpaces "a  b ") 0 = "a" := by decide +kernel
  have hy : share 2 (splitSpaces "a  b ") 1 = " b " := by decide +kernel
  exact ⟨s', hrun, hx ▸ hvalues 0 (by decide), hy ▸ hvalues 1 (by decide)⟩

end Libbash
