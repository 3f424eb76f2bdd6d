import Libbash.Core.DynamicScope
import Libbash.Lib.DenseMap
import Libbash.Interp.Calls

/-!
# Positional parameters stay a dense list

The positional parameters are an array with the name `*`, in the frame of the
function or global, and commands that take names of variables can name it too.
`HoldsLists` is the invariant over all frames: every list has the keys from 1 to
its size. What keeps it is said for each command (`Safe`); in a run of such
commands the list is dense in every state, and `shift` refuses a number that is
too large (`parametersKept_of_safe`).
-/

namespace Libbash

open Lib Lib.Comp Lib.Program

/-! ## Lists -/

/-- `get_array_length` keys, which are the numbers from 1 on. -/
def Variable.Dense (v : Variable) : Prop := KeysUpTo v.value v.getArrayLength

/-- A list of positional parameters. -/
structure Variable.IsList (v : Variable) : Prop where
  writable : v.readonly = false
  keys : ∃ size, size < 2 ^ 32 ∧ KeysUpTo v.value size

theorem Variable.IsList.dense {v : Variable} (h : v.IsList) : v.Dense := by
  obtain ⟨size, hsize, hkeys⟩ := h.keys
  rw [Variable.Dense, Variable.getArrayLength, hkeys.size hsize]
  exact hkeys

theorem isList_positionalVariable {args : List String} (h : args.length < 2 ^ 32) :
    (positionalVariable args).IsList where
  writable := rfl
  keys := by
    refine ⟨args.length, h, fun k => ?_⟩
    show k ∈ Std.ExtTreeMap.map _ _ ↔ _
    rw [Std.ExtTreeMap.mem_map]
    exact keysUpTo_insertAll h k

/-- Removing an index that is no key, or the last one. -/
theorem Variable.IsList.erase {v : Variable} (h : v.IsList) (index : UInt32)
    (hindex : 1 ≤ index.toNat → index.toNat ≤ v.getArrayLength → index.toNat = v.getArrayLength) :
    ({ v with value := v.value.erase index } : Variable).IsList where
  writable := h.writable
  keys := by
    obtain ⟨size, hsize, hkeys⟩ := h.keys
    rw [Variable.getArrayLength, hkeys.size hsize] at hindex
    by_cases hin : 1 ≤ index.toNat ∧ index.toNat ≤ size
    · exact ⟨size - 1, by omega, hkeys.erase_last (hindex hin.1 hin.2)⟩
    · exact ⟨size, hsize, hkeys.erase_of_not hin⟩

/-- `variable::shift` moves the elements down and removes the last ones. -/
theorem Variable.IsList.shift {v : Variable} (h : v.IsList) (number : UInt32) :
    ({ v with value := (shiftValues number v.value).2 } : Variable).IsList where
  writable := h.writable
  keys := by
    obtain ⟨size, hsize, hkeys⟩ := h.keys
    have hcount : v.value.size = size := hkeys.size hsize
    unfold shiftValues
    rw [hcount]
    dsimp only
    by_cases htoo : size < number.toNat
    · rw [if_pos htoo]
      exact ⟨size, hsize, hkeys⟩
    by_cases hall : number.toNat = size
    · rw [if_neg htoo, if_pos hall]
      exact ⟨0, by omega, keysUpTo_empty⟩
    rw [if_neg htoo, if_neg hall]
    refine ⟨size - number.toNat, by omega, ?_⟩
    have hcopied := hkeys.foldl_insert (l := List.range' (number.toNat + 1) (size - number.toNat))
      (fun i => .ofNat (i - number.toNat)) (fun m i => m[UInt32.ofNat i]?.getD (.str "")) (by
        intro i hi
        rw [List.mem_range'_1] at hi
        have hnat : (UInt32.ofNat (i - number.toNat)).toNat = i - number.toNat :=
          UInt32.toNat_ofNat_of_lt' (show i - number.toNat < 2 ^ 32 by omega)
        omega)
    have herased := hcopied.foldl_erase hsize (Nat.sub_le size number.toNat)
    rwa [Nat.sub_sub_self (Nat.le_of_not_lt htoo)] at herased

/-! ## Every frame -/

/-- Every binding of the name `*` is a list. -/
def Store.HoldsLists (t : Store) : Prop :=
  ∀ level v, t.valueAt "*" level = some v → v.IsList

/-- The name of the positional parameters, for the operations of the store. -/
def starName : VarName := ⟨"*", by decide, by decide⟩

namespace Store.HoldsLists

variable {t t' : Store}

/-- What the stack of bindings says. -/
theorem iff_stack : t.HoldsLists ↔ ∀ e ∈ t.bindings.stack "*", e.2.IsList := by
  constructor
  · intro h e he
    exact h e.1 e.2 ((Bindings.mem_stack_iff _ _ _).mp he)
  · intro h level v hv
    exact h (level, v) ((Bindings.mem_stack_iff _ _ _).mpr hv)

theorem visible (h : t.HoldsLists) {v : Variable} (hv : t.resolveVariable "*" = some v) :
    v.IsList := h _ v (valueAt_of_resolve hv)

/-- A change of another name. -/
theorem of_only (h : t.HoldsLists) {name : String} {level : Nat}
    (honly : Bindings.ChangesOnly t.bindings t'.bindings name level) (hname : name ≠ "*") :
    t'.HoldsLists := by
  intro l v hv
  rw [Store.valueAt, honly.others "*" l (.inl (Ne.symm hname))] at hv
  exact h l v hv

theorem push (h : t.HoldsLists) :
    Store.HoldsLists { t with localMembers := ∅ :: t.localMembers } := by
  intro l v hv
  rw [Store.valueAt, bindings_push, Bindings.valueAt_push] at hv
  exact h l v hv

theorem pop (h : t.HoldsLists) :
    Store.HoldsLists { t with localMembers := t.localMembers.tail } := by
  cases hframes : t.localMembers with
  | nil =>
    rw [List.tail_nil, ← hframes]
    exact h
  | cons frame frames =>
    rw [iff_stack] at h ⊢
    rw [List.tail_cons, bindings_pop hframes]
    intro e he
    exact h e (List.mem_filter.mp he).1

/-- A new list in the top frame. -/
theorem bindLocal (h : t.HoldsLists) {v : Variable} (hv : v.IsList) {frame : Scope}
    {frames : List Scope} (hframes : t.localMembers = frame :: frames) :
    Store.HoldsLists { t with localMembers := frame.insert "*" v :: frames } := by
  rw [iff_stack] at h ⊢
  rw [bindings_defineLocal hframes]
  intro e he
  rw [Bindings.bindLocal, Bindings.stack_withStack_self] at he
  rcases List.mem_cons.mp he with rfl | he
  · exact hv
  · exact h e (List.mem_filter.mp he).1

/-- A new global list. -/
theorem bindGlobal (h : t.HoldsLists) {v : Variable} (hv : v.IsList) :
    Store.HoldsLists { t with members := t.members.insert "*" v } := by
  rw [iff_stack] at h ⊢
  rw [bindings_define]
  intro e he
  rw [Bindings.bindGlobal, Bindings.stack_withStack_self] at he
  rcases List.mem_append.mp he with he | he
  · exact h e (List.mem_filter.mp he).1
  · rw [List.mem_singleton.mp he]
    exact hv

/-- Another value of the visible list. -/
theorem replace (h : t.HoldsLists) {v : Variable} (hv : v.IsList)
    (ht' : t'.bindings = t.bindings.replace "*" v) : t'.HoldsLists := by
  rw [iff_stack] at h ⊢
  rw [ht', Bindings.replace, Bindings.stack_withStack_self]
  intro e he
  cases hstack : t.bindings.stack "*" with
  | nil =>
    rw [hstack] at he
    cases he
  | cons e' rest =>
    rw [hstack] at he
    rcases List.mem_cons.mp he with rfl | he
    · exact hv
    · refine h e ?_
      rw [hstack]
      exact List.mem_cons_of_mem e' he

theorem assign (h : t.HoldsLists) {v v' : Variable} (hv : t.resolveVariable "*" = some v)
    (hv' : v'.IsList) : (t.assign "*" v').HoldsLists := by
  have hresolve : t.bindings.resolve "*" ≠ none := by
    rw [← resolve_of_nonempty (show "*".isEmpty = false by decide), hv]
    exact Option.some_ne_none v
  exact h.replace hv' (bindings_assign t "*" v' hresolve)

/-- The innermost list is removed. -/
theorem uncover (h : t.HoldsLists) (ht' : t'.bindings = t.bindings.uncover "*") :
    t'.HoldsLists := by
  rw [iff_stack] at h ⊢
  rw [ht', Bindings.uncover, Bindings.stack_withStack_self]
  intro e he
  exact h e (List.mem_of_mem_tail he)

end Store.HoldsLists

/-! ## Operations -/

/-- Removing an element of the visible list leaves no hole: there is no list, the
index is none of its keys, or it is the last one. -/
def Store.LeavesNoHole (t : Store) (index : UInt32) : Prop :=
  ∀ v, t.resolveVariable "*" = some v → 1 ≤ index.toNat → index.toNat ≤ v.getArrayLength →
    index.toNat = v.getArrayLength

namespace Store.HoldsLists

variable {t t' : Store} {name : String} {r : Except Exn Unit}

theorem setValue (h : t.HoldsLists) (hname : name ≠ "*") {new : Value} {index : UInt32}
    (hrun : Libbash.setValue name new index t = some (r, t')) : t'.HoldsLists := by
  cases r with
  | error e =>
    rw [setValue_error hrun]
    exact h
  | ok u => exact h.of_only (storeStep_setValue new index hrun).only hname

theorem unset (h : t.HoldsLists) (hrun : Libbash.unset name t = some (r, t')) :
    t'.HoldsLists := by
  cases r with
  | error e =>
    rw [unset_error hrun]
    exact h
  | ok u =>
    by_cases hname : name = "*"
    · subst hname
      have hexec : (StoreOp.unset starName).exec t = some (.ok u, t') := hrun
      rcases onInnermost_cases (exec_cases hexec) with
        ⟨-, hspec⟩ | ⟨v, hr, -⟩ | ⟨v, -, -, hspec⟩
      · rw [← bindings_injective (Prod.mk.inj (Option.some.inj hspec)).2]
        exact h
      · cases hr
      · exact h.uncover hspec
    · exact h.of_only (storeStep_unset hrun).only hname

theorem unsetIndex (h : t.HoldsLists) {index : UInt32} (hindex : name = "*" → t.LeavesNoHole index)
    (hrun : Libbash.unsetIndex name index t = some (r, t')) : t'.HoldsLists := by
  cases r with
  | error e =>
    rw [unsetIndex_error hrun]
    exact h
  | ok u =>
    by_cases hname : name = "*"
    · subst hname
      have hexec : (StoreOp.unsetIndex starName index).exec t = some (.ok u, t') := hrun
      rcases onInnermost_cases (exec_cases hexec) with
        ⟨-, hspec⟩ | ⟨v, hr, -⟩ | ⟨v, hv, -, hspec⟩
      · rw [← bindings_injective (Prod.mk.inj (Option.some.inj hspec)).2]
        exact h
      · cases hr
      · have hvisible : t.resolveVariable "*" = some v := (resolve_text t starName).trans hv
        exact h.replace ((h.visible hvisible).erase index (hindex rfl v hvisible)) hspec
    · exact h.of_only (storeStep_unsetIndex index hrun).only hname

theorem shiftParameters (h : t.HoldsLists) {number : UInt32} {r : Except Exn Int}
    (hrun : Libbash.shiftParameters number t = some (r, t')) : t'.HoldsLists := by
  unfold Libbash.shiftParameters at hrun
  rw [reads_bind_apply] at hrun
  cases hv : t.resolveVariable "*" with
  | none =>
    simp only [id_eq, hv] at hrun
    cases hrun
    exact h
  | some v =>
    simp only [id_eq, hv] at hrun
    by_cases hro : v.readonly = true
    · rw [if_pos hro] at hrun
      cases hrun
      exact h
    · rw [if_neg hro, update_bind_apply] at hrun
      cases hrun
      exact h.assign hv ((h.visible hv).shift number)

theorem definePositionalArguments (h : t.HoldsLists) {args : List String}
    (hlen : args.length < 2 ^ 32)
    (hrun : Libbash.definePositionalArguments args t = some (r, t')) : t'.HoldsLists := by
  unfold Libbash.definePositionalArguments at hrun
  rw [reads_bind_apply] at hrun
  simp only [id_eq] at hrun
  split_ifs at hrun with hempty
  · rw [define, update_apply, new_positionalArgs] at hrun
    cases hrun
    exact h.bindGlobal (isList_positionalVariable hlen)
  · rw [defineLocal, reads_bind_apply] at hrun
    cases hframes : t.localMembers with
    | nil =>
      rw [hframes] at hempty
      exact absurd Nat.zero_lt_one hempty
    | cons frame frames =>
      simp only [id_eq, hframes, update_apply, new_positionalArgs] at hrun
      cases hrun
      exact h.bindLocal (isList_positionalVariable hlen) hframes

theorem defineFunctionArguments (h : t.HoldsLists) {args : List String}
    (hrun : Libbash.defineFunctionArguments args t = some (r, t')) : t'.HoldsLists := by
  cases hframes : t.localMembers with
  | nil =>
    rw [defineFunctionArguments_nil hframes] at hrun
    cases hrun
    exact h
  | cons frame frames =>
    rw [defineFunctionArguments_cons hframes] at hrun
    by_cases hlen : 2 ^ 32 ≤ args.length
    · rw [if_pos hlen] at hrun
      cases hrun
    · rw [if_neg hlen] at hrun
      cases hrun
      exact h.bindLocal (isList_positionalVariable (Nat.lt_of_not_le hlen)) hframes

end Store.HoldsLists

/-! ## Names -/

/-- The visible variable is readonly, so that `set_value` raises. -/
def Store.refuses (t : Store) (name : String) : Bool := (t.resolveVariable name).any (·.readonly)

/-- The names that are set when all of these are to be set, one after the other. -/
def Store.assigned (t : Store) (names : List String) : List String :=
  names.takeWhile fun name => !t.refuses name

/-- What `unset` does with one of its names. -/
def unsetName (name : String) : Comp Exn Store Unit :=
  match Shell.elementPattern name with
  | some (base, digits) =>
    match magnitude (2 ^ 32 - 1) digits.toList with
    | some index => unsetIndex base (.ofNat index)
    | none => throw .badLexicalCast
  | none => unset name

/-- Only an element of the list can leave a hole. -/
def Store.SafeName (t : Store) (name : String) : Prop :=
  ∀ digits index, Shell.elementPattern name = some ("*", digits) →
    magnitude (2 ^ 32 - 1) digits.toList = some index → t.LeavesNoHole (.ofNat index)

/-- Every name is safe in the state in which `unset` comes to it. -/
def Store.SafeNames : List String → Store → Prop
  | [], _ => True
  | name :: names, t =>
    t.SafeName name ∧ ∀ t', unsetName name t = some (.ok (), t') → SafeNames names t'

section Names

variable {t t' : Store} {name : String}

/-- Setting a variable makes none readonly. -/
theorem setValue_refuses {new : Value} {index : UInt32}
    (hrun : setValue name new index t = some (.ok (), t')) (x : String) :
    t.refuses name = false ∧ t'.refuses x = t.refuses x := by
  -- The variable that is written is none of the readonly ones, and stays so.
  have hself : t.refuses name = false ∧ t'.refuses name = false := by
    have hset := hrun
    unfold setValue at hset
    rw [reads_bind_apply] at hset
    unfold Store.refuses
    cases hr : t.resolveVariable name with
    | none =>
      simp only [id_eq, hr] at hset
      cases hset
      refine ⟨rfl, ?_⟩
      unfold Store.resolveVariable at hr ⊢
      split_ifs at hr ⊢
      · rfl
      · cases hlocal : resolveLocal name t.localMembers with
        | none =>
          rw [Std.ExtTreeMap.getElem?_insert_self]
          rfl
        | some v =>
          rw [hlocal] at hr
          cases hr
    | some v =>
      simp only [id_eq, hr, throughPointer, Variable.setValue, reads_bind_apply] at hset
      split_ifs at hset with hro
      · cases hset
      · cases hset
        have hname := isEmpty_of_resolve hr
        have hresolve : t.bindings.resolve name ≠ none := by
          rw [← resolve_of_nonempty hname, hr]
          exact Option.some_ne_none v
        rw [resolve_of_nonempty hname, bindings_assign t name _ hresolve,
          Bindings.resolve_replace _ _ hresolve]
        exact ⟨by simpa using hro, by simpa using hro⟩
  refine ⟨hself.1, ?_⟩
  by_cases hx : x = name
  · rw [hx, hself.1, hself.2]
  cases hempty : x.isEmpty with
  | true =>
    unfold Store.refuses Store.resolveVariable
    rw [hempty, if_pos rfl, if_pos rfl]
  | false =>
    have honly := (storeStep_setValue new index hrun).only
    unfold Store.refuses
    rw [resolve_congr hempty fun level => honly.others x level (.inl hx)]

theorem assigned_cons {new : Value} {index : UInt32}
    (hrun : setValue name new index t = some (.ok (), t')) (names : List String) :
    t.assigned (name :: names) = name :: t'.assigned names := by
  have hrefuses : t'.refuses = t.refuses := funext fun x => (setValue_refuses hrun x).2
  have hself := (setValue_refuses hrun name).1
  unfold Store.assigned
  rw [List.takeWhile_cons_of_pos (by rw [hself]; rfl), hrefuses]

theorem Store.HoldsLists.unsetName (h : t.HoldsLists) (hsafe : t.SafeName name)
    {r : Except Exn Unit} (hrun : Libbash.unsetName name t = some (r, t')) : t'.HoldsLists := by
  unfold Libbash.unsetName at hrun
  cases hpattern : Shell.elementPattern name with
  | none =>
    rw [hpattern] at hrun
    exact h.unset hrun
  | some parts =>
    obtain ⟨base, digits⟩ := parts
    simp only [hpattern] at hrun
    cases hindex : magnitude (2 ^ 32 - 1) digits.toList with
    | none =>
      rw [hindex] at hrun
      cases hrun
      exact h
    | some index =>
      rw [hindex] at hrun
      refine h.unsetIndex (fun hbase => ?_) hrun
      subst hbase
      exact hsafe digits index hpattern hindex

end Names

/-! ## Builtins -/

section Builtins

variable {host : Host} {n d : Nat} {s s' : Interpreter}

/-- `set_value` with the first of the names to be set. -/
theorem run_setValue_holdsLists {name : String} {names : List String}
    {new : Value} {index : UInt32} {r : Except Exn Unit} (h : s.store.HoldsLists)
    (hnames : "*" ∉ s.store.assigned (name :: names))
    (hrun : runShell host n d (perform (.setValue name new index)) s = some (r, s')) :
    s'.store.HoldsLists ∧ (r = .ok () → "*" ∉ s'.store.assigned names) := by
  rw [runShell_perform, performOp, reads_bind_apply] at hrun
  have hset := writing_store hrun
  cases r with
  | error e =>
    rw [setValue_error hset]
    exact ⟨h, fun hok => by cases hok⟩
  | ok u =>
    rw [assigned_cons hset, List.mem_cons, not_or] at hnames
    exact ⟨h.setValue (Ne.symm hnames.1) hset, fun _ => hnames.2⟩

/-- `process` sets its names until one of them is readonly. -/
theorem process_holdsLists {names words : List String} {r : Except Exn Unit}
    (h : s.store.HoldsLists) (hnames : "*" ∉ s.store.assigned names)
    (hrun : runShell host n d (Shell.process names words) s = some (r, s')) :
    s'.store.HoldsLists := by
  fun_induction Shell.process names words generalizing s with
  | case1 words =>
    cases hrun
    exact h
  | case2 name names ih =>
    rcases bind_cases hrun with ⟨⟨⟩, s₁, hset, hrest⟩ | ⟨e, hset, -⟩
    · obtain ⟨h₁, hnames₁⟩ := run_setValue_holdsLists h hnames hset
      exact ih h₁ (hnames₁ rfl) hrest
    · exact (run_setValue_holdsLists h hnames hset).1
  | case3 name words hwords => exact (run_setValue_holdsLists h hnames hrun).1
  | case4 name names word words hlast ih =>
    rcases bind_cases hrun with ⟨⟨⟩, s₁, hset, hrest⟩ | ⟨e, hset, -⟩
    · obtain ⟨h₁, hnames₁⟩ := run_setValue_holdsLists h hnames hset
      exact ih h₁ (hnames₁ rfl) hrest
    · exact (run_setValue_holdsLists h hnames hset).1

/-- `unset` goes on with the next name when one has been removed. -/
theorem unsetVariables_cases {name : String} {names : List String} {r : Except Exn Unit}
    (hrun : runShell host n d (Shell.unsetVariables (name :: names)) s = some (r, s')) :
    (∃ s₁, unsetName name s.store = some (.ok (), s₁.store) ∧
      runShell host n d (Shell.unsetVariables names) s₁ = some (r, s')) ∨
    ∃ e, unsetName name s.store = some (.error e, s'.store) := by
  unfold Shell.unsetVariables at hrun
  unfold unsetName
  cases hpattern : Shell.elementPattern name with
  | none =>
    simp only [hpattern, runShell_bind, runShell_perform, performOp] at hrun
    dsimp only
    rcases bind_cases hrun with ⟨⟨⟩, s₁, hname, hrest⟩ | ⟨e, hname, -⟩
    · exact .inl ⟨s₁, writing_store hname, hrest⟩
    · exact .inr ⟨e, writing_store hname⟩
  | some parts =>
    obtain ⟨base, digits⟩ := parts
    simp only [hpattern, Shell.lexicalCastUnsigned] at hrun
    dsimp only
    cases hindex : magnitude (2 ^ 32 - 1) digits.toList with
    | none =>
      simp only [hindex] at hrun
      cases hrun
      exact .inr ⟨_, rfl⟩
    | some index =>
      simp only [hindex, runShell_bind, runShell_pure, pure_bind, runShell_perform, performOp] at hrun
      dsimp only
      rcases bind_cases hrun with ⟨⟨⟩, s₁, hname, hrest⟩ | ⟨e, hname, -⟩
      · exact .inl ⟨s₁, writing_store hname, hrest⟩
      · exact .inr ⟨e, writing_store hname⟩

theorem unsetVariables_holdsLists {names : List String} {r : Except Exn Unit}
    (h : s.store.HoldsLists) (hnames : Store.SafeNames names s.store)
    (hrun : runShell host n d (Shell.unsetVariables names) s = some (r, s')) :
    s'.store.HoldsLists := by
  induction names generalizing s with
  | nil =>
    cases hrun
    exact h
  | cons name names ih =>
    rcases unsetVariables_cases hrun with ⟨s₁, hname, hrest⟩ | ⟨e, hname⟩
    · exact ih (h.unsetName hnames.1 hname) (hnames.2 s₁.store hname) hrest
    · exact h.unsetName hnames.1 hname

theorem unsetFunctions_store {names : List String} {r : Except Exn Unit}
    (hrun : runShell host n d (Shell.unsetFunctions names) s = some (r, s')) :
    s'.store = s.store := by
  induction names generalizing s with
  | nil =>
    cases hrun
    rfl
  | cons name names ih => exact ih (s := { s.record _ with functions := _ }) hrun

end Builtins

/-! ## Commands -/

/-- The state in which the body of a command runs. -/
def Interpreter.enter (name : String) (s : Interpreter) : Interpreter :=
  if Shell.isExempt name then s else acquire .localScope s

/-- The state after a command whose body has ended. -/
def Interpreter.leave (name : String) (s : Interpreter) : Interpreter :=
  if Shell.isExempt name then s else release .localScope s s

/-- What a run consists of. A call ends where the body of the function starts, and
the return is from a function of that name. -/
inductive PositionalCommand where
  | call (function : String) (args : List String)
  | ret (function : String)
  /-- `set --` -/
  | set (args : List String)
  | shift (args : List String)
  | unset (args : List String)
  | read (args : List String)

def PositionalCommand.exec (host : Host) (n d : Nat) :
    PositionalCommand → Comp Exn Interpreter Unit
  | .call function args => do
    update (Interpreter.enter function)
    performOp host (reentry host n d) (.defineFunctionArguments args)
  | .ret function => update (Interpreter.leave function)
  | .set args => builtinCommand host n d "set" ("--" :: args)
  | .shift args => builtinCommand host n d "shift" args
  | .unset args => builtinCommand host n d "unset" args
  | .read args => builtinCommand host n d "read" args

section Commands

variable {host : Host} {n d : Nat} {name function : String} {args : List String} {bang : Bool}
  {s s' : Interpreter} {r : Except Exn Unit}

theorem inScope_cases {body : Shell Unit}
    (hrun : runShell host n d (Shell.inScope name body) s = some (r, s')) :
    ∃ s₁, runShell host n d body (s.enter name) = some (r, s₁) ∧ s' = s₁.leave name := by
  unfold Shell.inScope at hrun
  unfold Interpreter.enter Interpreter.leave
  by_cases hexempt : Shell.isExempt name = true
  · rw [if_pos hexempt] at hrun ⊢
    exact ⟨s', hrun, (if_pos hexempt).symm⟩
  · rw [if_neg hexempt] at hrun ⊢
    obtain ⟨s₁, hbody, rfl⟩ := within_cases hrun
    exact ⟨s₁, hbody, (if_neg hexempt).symm⟩

/-- A command that is a function is the call, the body and the return. -/
theorem executeCommand_of_call {f : Function} (hname : checkFunctionName function = true)
    (hf : s.functions[function]? = some f)
    (hrun : runShell host n d (Shell.executeCommand host function args [] bang) s = some (r, s')) :
    (∃ s₁ s₂, (PositionalCommand.call function args).exec host n d s = some (.ok (), s₁) ∧
      callRest host n d f bang (s₁.record (.called function f s₁.store)) = some (r, s₂) ∧
      (PositionalCommand.ret function).exec host n d s₂ = some (.ok (), s')) ∨
    ∃ e, (PositionalCommand.call function args).exec host n d s = some (.error e, s') := by
  rw [executeCommand_of_function hname] at hrun
  obtain ⟨s₂, hbody, rfl⟩ := inScope_cases hrun
  have hf' : (s.enter function).functions[function]? = some f := by
    unfold Interpreter.enter
    split_ifs <;> exact hf
  rw [PositionalCommand.exec, update_bind_apply]
  cases hframes : (s.enter function).store.localMembers with
  | nil =>
    -- only a command without a frame of its own can find none
    have henter : s.enter function = s ∧ ∀ s₁ : Interpreter, s₁.leave function = s₁ := by
      unfold Interpreter.enter Interpreter.leave at *
      split_ifs at * with hexempt
      · exact ⟨rfl, fun _ => rfl⟩
      · cases hframes
    rw [functionCommand_nil hf' hframes] at hbody
    cases hbody
    refine .inr ⟨.undefinedBehaviour, ?_⟩
    rw [henter.2, performOp]
    exact writing_of_error (defineFunctionArguments_nil hframes)
  | cons frame frames =>
    by_cases hlen : args.length < 2 ^ 32
    · rw [functionCommand_cons hf' hframes hlen] at hbody
      have hargs := @defineFunctionArguments_cons args _ _ _ hframes
      rw [if_neg (Nat.not_le.mpr hlen)] at hargs
      rw [performOp]
      refine .inl ⟨_, s₂, writing_of_ok hargs, ?_, rfl⟩
      rw [hframes]
      exact hbody
    · rw [functionCommand_diverges hf' hframes (Nat.le_of_not_lt hlen)] at hbody
      cases hbody

end Commands

/-! ## Runs -/

/-- The number that `shift` finds in its arguments. -/
def shiftNumber : List String → Option Int
  | [] => some 1
  | [arg] => lexicalCastInt arg
  | _ => none

/-- The arguments that `unset` takes for variables. -/
def unsetNames : List String → List String
  | [] => []
  | arg :: args => if arg = "-f" then [] else if arg = "-v" then args else arg :: args

/-- The names that `read` sets. -/
def readNames (args : List String) : List String := if args.isEmpty then ["REPLY"] else args

/-- `read` finds a text that it splits into words. -/
def Interpreter.ReadsText (s : Interpreter) : Prop :=
  ∃ text, (readLines (s.inputs[s.streams.inp]?.getD { text := [], fail := true })).1 = some text ∧
    (transformEscapes false (String.ofList text)).2 = false

/-- `$#` -/
def Interpreter.parameterCount (s : Interpreter) : Nat :=
  ((s.store.resolveVariable "*").map Variable.getArrayLength).getD 0

/-- The commands that the list survives: `set` with as many arguments as an index
can count, `shift` of a list, `unset` of what leaves no hole, and `read` of other
names. -/
def PositionalCommand.Safe (s : Interpreter) : PositionalCommand → Prop
  | .call _ _ => True
  | .ret _ => True
  | .set args => args.length < 2 ^ 32
  | .shift args =>
    ∀ number, shiftNumber args = some number → 0 ≤ number →
      (s.store.resolveVariable "*").isSome = true
  | .unset args => Store.SafeNames (unsetNames args) (s.enter "unset").store
  | .read args => (s.enter "read").ReadsText → "*" ∉ (s.enter "read").store.assigned (readNames args)

/-- The states of the runs that start with a new interpreter and whose commands
satisfy `P` in the state before them, however a command ends. -/
inductive Reachable (host : Host) (n d : Nat) (P : Interpreter → PositionalCommand → Prop) :
    Interpreter → Prop
  | initial (stdin : List Char) : Reachable host n d P (.initial stdin)
  | step {s s' : Interpreter} {c : PositionalCommand} {r : Except Exn Unit}
      (hs : Reachable host n d P s) (hc : P s c) (hrun : c.exec host n d s = some (r, s')) :
      Reachable host n d P s'

/-- The visible list is dense, and `shift` by too much fails and changes nothing. -/
structure ParametersKept (host : Host) (n d : Nat) (P : Interpreter → PositionalCommand → Prop)
    (s : Interpreter) : Prop where
  dense : ∀ v, s.store.resolveVariable "*" = some v → v.Dense
  refused : ∀ args number, P s (.shift args) → shiftNumber args = some number →
    (s.parameterCount : Int) < number →
      ∃ log, (PositionalCommand.shift args).exec host n d s =
        some (.ok (), { s with status := 1, log := log })

section Runs

variable {host : Host} {n d : Nat} {name : String} {args : List String} {s s' : Interpreter}
  {r : Except Exn Unit} {c : PositionalCommand}

theorem enter_holdsLists (h : s.store.HoldsLists) (name : String) :
    (s.enter name).store.HoldsLists := by
  unfold Interpreter.enter
  split_ifs
  · exact h
  · exact h.push

theorem leave_holdsLists (h : s.store.HoldsLists) (name : String) :
    (s.leave name).store.HoldsLists := by
  unfold Interpreter.leave
  split_ifs
  · exact h
  · exact h.pop

/-- A builtin keeps the lists when its `exec` does. -/
theorem builtinCommand_holdsLists {exec : List String → Shell Int}
    (hexec : (Shell.builtins host).lookup name = some exec)
    (hkeeps : ∀ r s₁, runShell host n d (exec args) (s.enter name) = some (r, s₁) →
      s₁.store.HoldsLists)
    (hrun : builtinCommand host n d name args s = some (r, s')) : s'.store.HoldsLists := by
  obtain ⟨s₁, hbody, rfl⟩ := inScope_cases hrun
  refine leave_holdsLists ?_ name
  rw [run_executeBuiltin hexec] at hbody
  rcases bind_cases hbody with ⟨status, s₂, hrest, hstatus⟩ | ⟨e, hrest, -⟩
  · have h₂ := hkeeps _ s₂ hrest
    cases hstatus
    exact h₂
  · exact hkeeps _ s₁ hrest

theorem setBuiltin_holdsLists (h : s.store.HoldsLists) (hlen : args.length < 2 ^ 32)
    {r : Except Exn Int}
    (hrun : runShell host n d (Shell.setBuiltin ("--" :: args)) s = some (r, s')) :
    s'.store.HoldsLists := by
  have hset : Shell.setBuiltin ("--" :: args) = (do
      perform (.definePositionalArguments args)
      pure 0) := rfl
  rw [hset, runShell_bind, runShell_perform, performOp] at hrun
  rcases bind_cases hrun with ⟨⟨⟩, s₁, hdefine, hend⟩ | ⟨e, hdefine, -⟩
  · cases hend
    exact h.definePositionalArguments hlen (writing_store hdefine)
  · exact h.definePositionalArguments hlen (writing_store hdefine)

theorem shiftBy_holdsLists (h : s.store.HoldsLists) {number : Int} {r : Except Exn Int}
    (hrun : runShell host n d (Shell.shiftBy number) s = some (r, s')) : s'.store.HoldsLists := by
  unfold Shell.shiftBy at hrun
  by_cases hneg : number < 0
  · rw [if_pos hneg] at hrun
    cases hrun
    exact h
  · rw [if_neg hneg, runShell_perform, performOp] at hrun
    exact h.shiftParameters (writing_store hrun)

/-- `shift` without a number raises. -/
theorem run_shiftBuiltin (args : List String) (s : Interpreter) :
    (∃ number, shiftNumber args = some number ∧
      runShell host n d (Shell.shiftBuiltin args) s =
        runShell host n d (Shell.shiftBy number) s) ∨
    shiftNumber args = none ∧
      ∃ e, runShell host n d (Shell.shiftBuiltin args) s = some (.error e, s) := by
  match args with
  | [] => exact .inl ⟨1, rfl, rfl⟩
  | [arg] =>
    cases hnumber : lexicalCastInt arg with
    | none =>
      refine .inr ⟨hnumber, .badLexicalCast, ?_⟩
      rw [Shell.shiftBuiltin, Shell.castInt, hnumber]
      rfl
    | some number =>
      refine .inl ⟨number, hnumber, ?_⟩
      rw [Shell.shiftBuiltin, Shell.castInt, hnumber]
      rfl
  | _ :: _ :: _ => exact .inr ⟨rfl, _, rfl⟩

theorem shiftBuiltin_holdsLists (h : s.store.HoldsLists) {r : Except Exn Int}
    (hrun : runShell host n d (Shell.shiftBuiltin args) s = some (r, s')) :
    s'.store.HoldsLists := by
  rcases @run_shiftBuiltin host n d args s with ⟨number, -, hshift⟩ | ⟨-, e, herr⟩
  · rw [hshift] at hrun
    exact shiftBy_holdsLists h hrun
  · rw [herr] at hrun
    cases hrun
    exact h

theorem unsetBuiltin_holdsLists (h : s.store.HoldsLists)
    (hnames : Store.SafeNames (unsetNames args) s.store) {r : Except Exn Int}
    (hrun : runShell host n d (Shell.unsetBuiltin args) s = some (r, s')) :
    s'.store.HoldsLists := by
  cases args with
  | nil =>
    cases hrun
    exact h
  | cons arg args =>
    rw [unsetNames] at hnames
    rw [Shell.unsetBuiltin] at hrun
    by_cases hf : arg = "-f"
    · rw [if_pos hf, runShell_bind] at hrun
      rcases bind_cases hrun with ⟨⟨⟩, s₁, hbody, hend⟩ | ⟨e, hbody, -⟩
      · cases hend
        rw [unsetFunctions_store hbody]
        exact h
      · rw [unsetFunctions_store hbody]
        exact h
    · rw [if_neg hf, runShell_bind] at hrun
      rw [if_neg hf] at hnames
      rcases bind_cases hrun with ⟨⟨⟩, s₁, hbody, hend⟩ | ⟨e, hbody, -⟩
      · cases hend
        exact unsetVariables_holdsLists h hnames hbody
      · exact unsetVariables_holdsLists h hnames hbody

theorem readBuiltin_holdsLists (h : s.store.HoldsLists)
    (hnames : s.ReadsText → "*" ∉ s.store.assigned (readNames args)) {r : Except Exn Int}
    (hrun : runShell host n d (Shell.readBuiltin args) s = some (r, s')) :
    s'.store.HoldsLists := by
  let out := readLines (s.inputs[s.streams.inp]?.getD { text := [], fail := true })
  let s₁ : Interpreter := { s with inputs := s.inputs.set s.streams.inp out.2 }
  have hinput : runShell host n d (perform .readInput) s =
      some (.ok (out.1.map String.ofList, if out.2.eof then 1 else 0), s₁) := by
    rw [runShell_perform, performOp]
    rfl
  rw [Shell.readBuiltin, runShell_bind, bind_of_ok hinput] at hrun
  cases htext : out.1 with
  | none =>
    simp only [htext, Option.map_none] at hrun
    rw [← (Prod.mk.inj (Option.some.inj hrun)).2]
    exact h
  | some text =>
    simp only [htext, Option.map_some, Shell.escaped] at hrun
    by_cases hsuppress : (transformEscapes false (String.ofList text)).2 = true
    · rw [if_pos hsuppress] at hrun
      rw [← (Prod.mk.inj (Option.some.inj hrun)).2]
      exact h
    · rw [if_neg hsuppress, runShell_bind, runShell_pure, pure_bind, runShell_bind] at hrun
      have hreads : s.ReadsText := ⟨text, htext, Bool.eq_false_of_not_eq_true hsuppress⟩
      have h₁ : s₁.store.HoldsLists := h
      have hnames₁ : "*" ∉ s₁.store.assigned (readNames args) := hnames hreads
      rcases bind_cases hrun with ⟨⟨⟩, s₂, hprocess, hend⟩ | ⟨e, hprocess, -⟩
      · have h₂ := process_holdsLists h₁ hnames₁ hprocess
        cases hend
        exact h₂
      · exact process_holdsLists h₁ hnames₁ hprocess

/-- Every command keeps the lists when it is safe. -/
theorem exec_holdsLists (h : s.store.HoldsLists) (hsafe : c.Safe s)
    (hrun : c.exec host n d s = some (r, s')) : s'.store.HoldsLists := by
  cases c with
  | call function args =>
    rw [PositionalCommand.exec, update_bind_apply, performOp] at hrun
    exact (enter_holdsLists h function).defineFunctionArguments (writing_store hrun)
  | ret function =>
    cases hrun
    exact leave_holdsLists h function
  | set args =>
    have hset : (Shell.builtins host).lookup "set" = some Shell.setBuiltin := rfl
    exact builtinCommand_holdsLists hset
      (fun _ _ hbody => setBuiltin_holdsLists (enter_holdsLists h _) hsafe hbody) hrun
  | shift args =>
    have hshift : (Shell.builtins host).lookup "shift" = some Shell.shiftBuiltin := rfl
    exact builtinCommand_holdsLists hshift
      (fun _ _ hbody => shiftBuiltin_holdsLists (enter_holdsLists h _) hbody) hrun
  | unset args =>
    have hunset : (Shell.builtins host).lookup "unset" = some Shell.unsetBuiltin := rfl
    exact builtinCommand_holdsLists hunset
      (fun _ _ hbody => unsetBuiltin_holdsLists (enter_holdsLists h _) hsafe hbody) hrun
  | read args =>
    have hread : (Shell.builtins host).lookup "read" = some Shell.readBuiltin := rfl
    exact builtinCommand_holdsLists hread
      (fun _ _ hbody => readBuiltin_holdsLists (enter_holdsLists h _) hsafe hbody) hrun

theorem initial_holdsLists (stdin : List Char) : (Interpreter.initial stdin).store.HoldsLists := by
  rw [Store.HoldsLists.iff_stack]
  have hempty : (Interpreter.initial stdin).store.bindings.stack "*" = [] := by
    rw [stack_bindings]
    rfl
  intro e he
  rw [hempty] at he
  cases he

theorem lexicalCastInt_lt {text : String} {number : Int} (h : lexicalCastInt text = some number) :
    number < 2 ^ 31 := by
  have hbound : ∀ {limit ds n}, magnitude limit ds = some n → n ≤ limit := by
    intro limit ds n hn
    unfold magnitude at hn
    split_ifs at hn with hdigits
    cases hn
    exact hdigits.2.2
  unfold lexicalCastInt at h
  split at h
  · obtain ⟨n, hn, rfl⟩ := Option.map_eq_some_iff.mp h
    obtain ⟨m, -, hm⟩ := Option.bind_eq_some_iff.mp hn
    have hcast : (m : Int) = n := Option.some.inj hm
    omega
  · obtain ⟨n, hn, rfl⟩ := Option.map_eq_some_iff.mp h
    have := hbound hn
    show (n : Int) < _
    omega
  · obtain ⟨n, hn, rfl⟩ := Option.map_eq_some_iff.mp h
    have := hbound hn
    show (n : Int) < _
    omega

theorem shiftNumber_lt {number : Int} (h : shiftNumber args = some number) : number < 2 ^ 31 := by
  match args with
  | [] =>
    cases h
    decide
  | [arg] => exact lexicalCastInt_lt h
  | _ :: _ :: _ => cases h

/-- `variable::shift` by more than there is. -/
theorem shiftParameters_refused {t : Store} {v : Variable} {number : UInt32}
    (hv : t.resolveVariable "*" = some v) (hro : v.readonly = false)
    (hlt : v.getArrayLength < number.toNat) :
    shiftParameters number t = some (.ok 1, t) := by
  have hvalues : shiftValues number v.value = (false, v.value) := by
    unfold shiftValues
    exact if_pos hlt
  unfold shiftParameters
  rw [reads_bind_apply]
  simp only [id_eq, hv]
  rw [if_neg (by rw [hro]; decide), update_bind_apply, hvalues, pure_apply, assign_self hv]
  rfl

theorem shift_refused (h : s.store.HoldsLists) {number : Int}
    (hsafe : (PositionalCommand.shift args).Safe s) (hnumber : shiftNumber args = some number)
    (hlt : (s.parameterCount : Int) < number) :
    ∃ log, (PositionalCommand.shift args).exec host n d s =
      some (.ok (), { s with status := 1, log := log }) := by
  obtain ⟨v, hv⟩ := Option.isSome_iff_exists.mp (hsafe number hnumber (by omega))
  rw [Interpreter.parameterCount, hv, Option.map_some, Option.getD_some] at hlt
  have hnat : (UInt32.ofNat number.toNat).toNat = number.toNat := by
    have := shiftNumber_lt hnumber
    exact UInt32.toNat_ofNat_of_lt' (show number.toNat < 2 ^ 32 by omega)
  have hpush : (acquire .localScope s).store.resolveVariable "*" = some v :=
    (resolveVariable_push s.store "*").trans hv
  have hcount : v.getArrayLength < (UInt32.ofNat number.toNat).toNat := by
    rw [hnat]
    omega
  have hshift := shiftParameters_refused hpush (h.visible hv).writable hcount
  have hbuiltin : runShell host n d (Shell.shiftBuiltin args) (acquire .localScope s) =
      some (.ok 1, Interpreter.record (.wrote .update "*" ((acquire .localScope s).store.level "*"))
        (acquire .localScope s)) := by
    rcases @run_shiftBuiltin host n d args (acquire .localScope s) with
      ⟨number', hnumber', hrun⟩ | ⟨hnone, -⟩
    · obtain rfl : number' = number := Option.some.inj (hnumber'.symm.trans hnumber)
      rw [hrun, Shell.shiftBy, if_neg (by omega), runShell_perform, performOp]
      exact writing_of_ok hshift
    · rw [hnumber] at hnone
      cases hnone
  have hbody : runShell host n d (Shell.executeBuiltin host "shift" args) (acquire .localScope s) =
      some (.ok (), { acquire .localScope s with
        status := 1
        log := .wrote .update "*" ((acquire .localScope s).store.level "*") :: s.log }) := by
    have hlookup : (Shell.builtins host).lookup "shift" = some Shell.shiftBuiltin := rfl
    rw [run_executeBuiltin hlookup, bind_of_ok hbuiltin]
    rfl
  refine ⟨.wrote .update "*" ((acquire .localScope s).store.level "*") :: s.log, ?_⟩
  rw [PositionalCommand.exec, builtinCommand, Shell.inScope, if_neg (by decide), runShell_within]
  exact @bracket_of_body _ _ _ _ (fun s => (s, acquire .localScope s)) _ _ _ _ _ hbody

/-- In every run of commands that the list survives, it is dense in every state,
and a `shift` by too much fails and changes nothing. -/
theorem parametersKept_of_safe (host : Host) (n d : Nat) (s : Interpreter)
    (h : Reachable host n d (fun s c => c.Safe s) s) :
    ParametersKept host n d (fun s c => c.Safe s) s := by
  have hlists : s.store.HoldsLists := by
    induction h with
    | initial stdin => exact initial_holdsLists stdin
    | step hs hsafe hrun ih => exact exec_holdsLists ih hsafe hrun
  exact ⟨fun v hv => (hlists.visible hv).dense,
    fun args number hsafe hnumber hlt => shift_refused hlists hsafe hnumber hlt⟩

end Runs

theorem parametersKept_afterSet :
    ∃ s, Reachable (.ofTexts [] []) 0 0 (fun s c => c.Safe s) s ∧ s.parameterCount = 3 ∧
      ParametersKept (.ofTexts [] []) 0 0 (fun s c => c.Safe s) s := by
  have hrun : ((PositionalCommand.set ["a", "b", "c"]).exec (.ofTexts [] []) 0 0 (.initial [])).map
      (fun out => out.2.parameterCount) = some 3 := by decide +kernel
  obtain ⟨⟨r, s⟩, hset, hcount⟩ := Option.map_eq_some_iff.mp hrun
  have hsafe : (PositionalCommand.set ["a", "b", "c"]).Safe (.initial []) :=
    show ["a", "b", "c"].length < 2 ^ 32 by decide
  have hreachable := Reachable.step (P := fun s c => c.Safe s) (.initial []) hsafe hset
  exact ⟨s, hreachable, hcount, parametersKept_of_safe _ 0 0 s hreachable⟩

/-- After `set -- a b c` and `unset '*[2]'` there are two elements, and one of them
is the third. -/
theorem not_parametersKept_unsetElement :
    ¬∀ s, Reachable (.ofTexts [] []) 0 0 (fun _ _ => True) s →
      ParametersKept (.ofTexts [] []) 0 0 (fun _ _ => True) s := by
  intro h
  have hrun : (((PositionalCommand.set ["a", "b", "c"]).exec (.ofTexts [] []) 0 0 (.initial [])).bind
      fun out => ((PositionalCommand.unset ["*[2]"]).exec (.ofTexts [] []) 0 0 out.2).map
        fun out => (out.2.store.resolveVariable "*").map
          fun v => (v.value.contains 3, v.getArrayLength)) = some (some (true, 2)) := by
    decide +kernel
  obtain ⟨⟨r₁, s₁⟩, hset, hrest⟩ := Option.bind_eq_some_iff.mp hrun
  obtain ⟨⟨r₂, s₂⟩, hunset, hvisible⟩ := Option.map_eq_some_iff.mp hrest
  obtain ⟨v, hv, hvalues⟩ := Option.map_eq_some_iff.mp hvisible
  obtain ⟨hthird, hsize⟩ := Prod.mk.inj hvalues
  have hdense := (h s₂ (.step (.step (.initial []) trivial hset) trivial hunset)).dense v hv
  rw [Variable.Dense, hsize] at hdense
  exact absurd ((hdense 3).mp hthird).2 (by decide)

end Libbash
