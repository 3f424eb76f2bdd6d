import Libbash.Interp.Narrowing
import Libbash.Interp.Splitting
import Libbash.Parser.Declarations

/-!
# Indirect expansion

`${!p}` should do with the parameter whose name is the value of `$p` what `${p}` does
with `p`. The code takes the value for the name of a variable as it is: the number of a
positional parameter and the subscript of an element are not taken apart, and a number
`p` is looked up as such a variable itself. `followsValue_iff` says between which
parameters that is no difference.
-/

namespace Libbash

open Lib Lib.Comp Lib.Program

/-! ## Parameters and operators -/

/-- The parameter `p` of `${!p}`. -/
inductive Pointer where
  | name (x : Identifier)
  | element (x : Identifier) (index : ArithExpr)
  | num (digits : Literal)
  | pound

/-- `${p}`. -/
def Pointer.reference : Pointer → VarRef
  | .name x => .var (.name (.base x))
  | .element x index => .var (.name (.element x index))
  | .num digits => .var (.num digits.text)
  | .pound => .pound

/-- `BANG variable_name_for_bang`, which has no alternative for an element: after the name
a bracket is read only around `*` and `@`. -/
def Pointer.variableName : Pointer → Option ParameterName
  | .name x => some (.indirectName (.base x))
  | .element _ _ => none
  | .num digits => some (.indirectNum digits.text)
  | .pound => some .indirectPound

/-- The parameter whose name is the value of `$p`. A subscript is a numeral; a value whose
subscript would have to be evaluated is not among these. -/
inductive Target where
  | name (x : Identifier)
  | element (x : Identifier) (index : Literal)
  | num (digits : Literal)
  | minus
  /-- `x[@]`, or `x[*]` when `star` is set. -/
  | elements (x : Identifier) (star : Bool)
  /-- `@`, or `*` when `star` is set. -/
  | positionals (star : Bool)
  | pound
  | qmark

/-- The name. -/
def Target.text : Target → String
  | .name x => x.text
  | .element x index => x.text ++ ("[" ++ index.text ++ "]")
  | .num digits => digits.text
  | .minus => "-"
  | .elements x star => x.text ++ (if star then "[*]" else "[@]")
  | .positionals star => if star then "*" else "@"
  | .pound => "#"
  | .qmark => "?"

/-- What an expansion does with its parameter. -/
inductive Operator where
  | plain
  | useDefault (orNull : Bool) (w : RawString)
  | assignDefault (orNull : Bool) (w : RawString)
  | useAlternate (orNull : Bool) (w : RawString)
  | substring (offset : ArithExpr)
  | substringLength (offset length : ArithExpr)
  /-- The substitutions and the removals. -/
  | replace (kind : ReplaceKind) (pattern : List PatternToken) (w : Option RawString)

/-- The operator on a parameter. -/
def Operator.on (n : ParameterName) : Operator → VarRef
  | .plain => .var n
  | .useDefault orNull w => .expansion (.useDefault orNull n w)
  | .assignDefault orNull w => .expansion (.assignDefault orNull n w)
  | .useAlternate orNull w => .expansion (.useAlternate orNull n w)
  | .substring offset => .expansion (.substring n offset)
  | .substringLength offset length => .expansion (.substringLength n offset length)
  | .replace kind pattern w => .expansion (.replace kind (.var n) pattern w)

/-- The operator on all elements of an array; the walker has no default operators for it. -/
def Operator.onArray (a : ArrayName) : Operator → Option VarRef
  | .plain => some (.array a)
  | .useDefault _ _ | .assignDefault _ _ | .useAlternate _ _ => none
  | .substring offset => some (.expansion (.subarray a offset))
  | .substringLength offset length => some (.expansion (.subarrayLength a offset length))
  | .replace kind pattern w => some (.expansion (.replace kind (.array a) pattern w))

/-- The operator on the parameter, where the walker has it. -/
def Target.apply (op : Operator) : Target → Option VarRef
  | .name x => some (op.on (.name (.base x)))
  | .element x index => some (op.on (.name (.element x (.parts [.num index.text]))))
  | .num digits => some (op.on (.num digits.text))
  | .minus => some (op.on .minus)
  | .elements x _ => op.onArray (.array (.base x))
  | .positionals star => op.onArray (if star then .times else .at)
  | .pound => match op with
    | .plain => some .pound
    | _ => none
  | .qmark => match op with
    | .plain => some .qmark
    | _ => none

/-- `$p` expands to the text. -/
def HasValue (host : Host) (n d : Nat) (p : Pointer) (text : String) (s : Interpreter) : Prop :=
  ∃ s', runShell host n d (Shell.varRef host p.reference) s = some (.ok text, s')

/-- Wherever `$p` expands to the name of `q`, `${!p}` does what `${q}` does, alone and with
every operator. -/
def FollowsValue (host : Host) (p : Pointer) (q : Target) : Prop :=
  ∃ name, p.variableName = some name ∧
    ∀ n d s, HasValue host n d p q.text s → ∀ op r, q.apply op = some r →
      runShell host n d (Shell.varRef host (op.on name)) s =
        runShell host n d (Shell.varRef host r) s

/-- Names that stand for a variable as they are. -/
def Target.IsPlain : Target → Prop
  | .name _ | .minus => True
  | .num digits => digits.text = "0"
  | _ => False

/-- The value of a variable whose name is plain; and `$#`, when there is no argument. -/
def Pointer.Direct (q : Target) : Pointer → Prop
  | .name _ => q.IsPlain
  | .element _ _ => False
  | .num digits => digits.text = "0" ∧ q.IsPlain
  | .pound => q.text = "0"

/-! ## The same parameter -/

section Direct

variable {host : Host} {n d : Nat} {s : Interpreter}

/-- An operator looks at its parameter only through the name and the index. -/
theorem run_on_congr {m m' : ParameterName}
    (h : runShell host n d (Shell.varName host m) s =
      runShell host n d (Shell.varName host m') s) (op : Operator) :
    runShell host n d (Shell.varRef host (op.on m)) s =
      runShell host n d (Shell.varRef host (op.on m')) s := by
  -- Every operator begins with the name and the index.
  have hbind : ∀ {β : Type} (k : String × UInt32 → Comp Exn Interpreter β),
      (runShell host n d (Shell.varName host m) >>= k) s =
        (runShell host n d (Shell.varName host m') >>= k) s :=
    fun k => bind_congr_at h fun _ _ _ => rfl
  cases op with
  | plain =>
    simp only [Operator.on, Shell.varRef, runShell_bind]
    exact hbind _
  | useDefault orNull w =>
    simp only [Operator.on, Shell.varRef, Shell.varExpansion, runShell_bind]
    exact hbind _
  | assignDefault orNull w =>
    simp only [Operator.on, Shell.varRef, Shell.varExpansion, runShell_bind]
    exact hbind _
  | useAlternate orNull w =>
    simp only [Operator.on, Shell.varRef, Shell.varExpansion, runShell_bind]
    exact hbind _
  | substring offset =>
    simp only [Operator.on, Shell.varRef, Shell.varExpansion, runShell_bind]
    exact hbind _
  | substringLength offset length =>
    simp only [Operator.on, Shell.varRef, Shell.varExpansion, runShell_bind]
    exact hbind _
  | replace kind pattern w =>
    cases w with
    | none =>
      simp only [Operator.on, Shell.varRef, Shell.varExpansion, Shell.varOrArrayName,
        runShell_bind, bind_assoc]
      exact hbind _
    | some w =>
      simp only [Operator.on, Shell.varRef, Shell.varExpansion, Shell.varOrArrayName,
        runShell_bind, bind_assoc]
      exact hbind _

/-- A plain name is its own variable. -/
theorem run_varName_plain (host : Host) (n d : Nat) {q : Target} (h : q.IsPlain) :
    ∃ m, (∀ op, q.apply op = some (op.on m)) ∧
      ∀ s, runShell host n d (Shell.varName host m) s = some (.ok (q.text, 0), s) := by
  cases q with
  | name x =>
    refine ⟨.name (.base x), fun op => rfl, ?_⟩
    intro s
    rw [Shell.varName, Shell.nameRule]
    rfl
  | num digits =>
    refine ⟨.num digits.text, fun op => rfl, ?_⟩
    intro s
    have hzero : digits.text = "0" := h
    have hcast : magnitude (2 ^ 32 - 1) "0".toList = some 0 := by decide +kernel
    rw [Target.text, Shell.varName, hzero, Shell.lexicalCastUnsigned, hcast]
    rfl
  | minus =>
    refine ⟨.minus, fun op => rfl, ?_⟩
    intro s
    rw [Shell.varName]
    rfl
  | element => exact h.elim
  | elements => exact h.elim
  | positionals => exact h.elim
  | pound => exact h.elim
  | qmark => exact h.elim

theorem run_varRef_base (x : Identifier) :
    runShell host n d (Shell.varRef host (.var (.name (.base x)))) s =
      runShell host n d (Shell.resolveString x.text 0) s := by
  rw [Shell.varRef, Shell.varName, Shell.nameRule]
  rfl

/-- The number of a positional parameter. -/
theorem run_varName_num (digits : String) {k : Nat}
    (h : magnitude (2 ^ 32 - 1) digits.toList = some k) :
    runShell host n d (Shell.varName host (.num digits)) s =
      some (.ok (Shell.numberedName (.ofNat k)), s) := by
  rw [Shell.varName, Shell.lexicalCastUnsigned, h]
  rfl

theorem run_varName_num_error (digits : String)
    (h : magnitude (2 ^ 32 - 1) digits.toList = none) :
    runShell host n d (Shell.varName host (.num digits)) s = some (.error .badLexicalCast, s) := by
  rw [Shell.varName, Shell.lexicalCastUnsigned, h]
  rfl

theorem eq_of_run_resolveString {name : String} {index : UInt32} {r : Except Exn String}
    {s' : Interpreter}
    (h : runShell host n d (Shell.resolveString name index) s = some (r, s')) : s' = s := by
  rw [run_resolveString] at h
  split_ifs at h <;>
    (cases h
     rfl)

theorem run_getArrayLength (host : Host) (n d : Nat) {name : String} {v : Variable}
    (h : s.store.resolveVariable name = some v) :
    runShell host n d (Shell.getArrayLength name) s = some (.ok v.getArrayLength, s) := by
  have hresolve : performOp host (reentry host n d) (.resolveVariable name) s =
      some (.ok (some v), s) := by
    rw [performOp, reads_apply, h]
  rw [Shell.getArrayLength, runShell_bind, runShell_perform, bind_of_ok hresolve]
  rfl

theorem run_getArrayLength_none (host : Host) (n d : Nat) {name : String}
    (h : s.store.resolveVariable name = none) :
    runShell host n d (Shell.getArrayLength name) s =
      if s.nounset then some (.error (.error .unsupported (name ++ ": unbound variable")), s)
      else some (.ok 0, s) := by
  have hresolve : performOp host (reentry host n d) (.resolveVariable name) s =
      some (.ok none, s) := by
    rw [performOp, reads_apply, h]
  rw [Shell.getArrayLength, runShell_bind, runShell_perform, bind_of_ok hresolve]
  exact bind_isValid_none _

/-- The number of arguments is the length of the list, if it is known at all. -/
theorem run_pound {text : String} (h : HasValue host n d .pound text s) :
    ∃ size, runShell host n d (Shell.getArrayLength "*") s = some (.ok size, s) ∧
      toString size = text := by
  obtain ⟨s', hrun⟩ := h
  rw [Pointer.reference, Shell.varRef, runShell_bind] at hrun
  cases hv : s.store.resolveVariable "*" with
  | some v =>
    rw [bind_of_ok (run_getArrayLength host n d hv)] at hrun
    cases hrun
    exact ⟨v.getArrayLength, run_getArrayLength host n d hv, rfl⟩
  | none =>
    have hnone := run_getArrayLength_none host n d hv
    by_cases hu : s.nounset = true
    · rw [if_pos hu] at hnone
      rw [bind_of_error hnone] at hrun
      cases hrun
    · rw [if_neg hu] at hnone
      rw [bind_of_ok hnone] at hrun
      cases hrun
      exact ⟨0, hnone, rfl⟩

theorem toList_toString_nat (m : Nat) : (toString m).toList = Nat.toDigits 10 m :=
  toList_toString_natCast m

theorem eq_zero_of_toString {m : Nat} (h : toString m = "0") : m = 0 := by
  have hdigits : Nat.toDigits 10 m = Nat.toDigits 10 0 := by
    rw [← toList_toString_nat, h]
    rfl
  rw [← Nat.ofDigitChars_ten_toDigits (n := m), hdigits, Nat.ofDigitChars_ten_toDigits]

/-- What `$p` expands to, as a variable of its own. -/
theorem run_varName_of_direct {p : Pointer} {q : Target} (h : p.Direct q)
    (hvalue : HasValue host n d p q.text s) :
    ∃ name, p.variableName = some name ∧
      runShell host n d (Shell.varName host name) s = some (.ok (q.text, 0), s) := by
  cases p with
  | name x =>
    obtain ⟨s', hrun⟩ := hvalue
    rw [Pointer.reference, run_varRef_base] at hrun
    obtain rfl := eq_of_run_resolveString hrun
    refine ⟨.indirectName (.base x), rfl, ?_⟩
    rw [Shell.varName, Shell.nameRule, runShell_bind]
    show (runShell host n d (Shell.resolveString x.text 0) >>= _) s' = _
    rw [bind_of_ok hrun]
    rfl
  | element x index => exact h.elim
  | num digits =>
    obtain ⟨hzero, -⟩ := h
    obtain ⟨s', hrun⟩ := hvalue
    have hcast : magnitude (2 ^ 32 - 1) "0".toList = some 0 := by decide +kernel
    rw [Pointer.reference, hzero, Shell.varRef, runShell_bind,
      bind_of_ok (run_varName_num "0" hcast)] at hrun
    obtain rfl := eq_of_run_resolveString hrun
    refine ⟨.indirectNum digits.text, rfl, ?_⟩
    rw [Shell.varName, hzero, runShell_bind]
    exact bind_of_ok hrun _
  | pound =>
    obtain ⟨size, hsize, htext⟩ := run_pound hvalue
    have hzero : size = 0 := eq_zero_of_toString (htext.trans h)
    subst hzero
    refine ⟨.indirectPound, rfl, ?_⟩
    rw [Shell.varName, runShell_bind, bind_of_ok hsize, show q.text = "0" from h]
    rfl

/-! ## The names -/

theorem Target.text_ne_empty (q : Target) : q.text ≠ "" := by
  have happend : ∀ {a b : String}, b ≠ "" → a ++ b ≠ "" := by
    intro a b hb heq
    exact hb (String.append_eq_empty_iff.mp heq).2
  cases q with
  | name x =>
    intro heq
    obtain ⟨c, cs, hx, -⟩ := x.chars
    rw [show x.text = "" from heq] at hx
    cases hx
  | element x index =>
    apply happend
    intro heq
    exact absurd (String.append_eq_empty_iff.mp heq).2 (by decide)
  | num digits =>
    intro heq
    apply digits.nonempty
    have := congrArg String.toList (show digits.text = "" from heq)
    rwa [Literal.text, String.toList_ofList] at this
  | minus => exact (by decide : "-" ≠ "")
  | elements x star =>
    apply happend
    cases star <;> decide
  | positionals star => cases star <;> decide
  | pound => exact (by decide : "#" ≠ "")
  | qmark => exact (by decide : "?" ≠ "")

/-- A name that begins with a digit is a number. -/
theorem eq_num_of_isDigit {q : Target} {c : Char} {cs : List Char} (h : q.text.toList = c :: cs)
    (hc : c.isDigit = true) : ∃ digits, q = .num digits := by
  have hname : ∀ (x : Identifier) (rest : String), (x.text ++ rest).toList ≠ c :: cs := by
    intro x rest heq
    obtain ⟨a, as, hx, hstart, -⟩ := x.chars
    rw [String.toList_append, hx] at heq
    cases heq
    exact not_isDigit_of_nameStart hstart hc
  cases q with
  | name x =>
    refine absurd ?_ (hname x "")
    rwa [String.append_empty]
  | element x index => exact absurd h (hname x _)
  | num digits => exact ⟨digits, rfl⟩
  | minus =>
    cases h
    cases hc
  | elements x star => exact absurd h (hname x _)
  | positionals star =>
    cases star <;>
      (cases h
       cases hc)
  | pound =>
    cases h
    cases hc
  | qmark =>
    cases h
    cases hc

theorem notMem_identifier (x : Identifier) {c : Char} (hstart : (c.isAlpha || c == '_') = false)
    (hc : isNameChar c = false) : c ∉ x.text.toList := by
  obtain ⟨a, as, hx, ha, has⟩ := x.chars
  rw [hx, List.mem_cons]
  rintro (rfl | hmem)
  · rw [hstart] at ha
    cases ha
  · rw [has c hmem] at hc
    cases hc

/-- The name of a variable is no number. -/
theorem text_ne_literal (x : Identifier) (digits : Literal) : x.text ≠ digits.text := by
  intro heq
  obtain ⟨c, cs, hx, hstart, -⟩ := x.chars
  have hmem : c ∈ digits.digits := by
    have hlist := congrArg String.toList heq
    rw [Literal.text, String.toList_ofList, hx] at hlist
    rw [← hlist]
    exact List.mem_cons_self
  exact not_isDigit_of_nameStart hstart (digits.areDigits c hmem)

/-- A name that is one of a variable is plain. -/
theorem isPlain_of_text_eq {q : Target} {x : Identifier} (h : q.text = x.text) : q.IsPlain := by
  have hother : ∀ c : Char, (c.isAlpha || c == '_') = false → isNameChar c = false →
      c ∉ q.text.toList := by
    intro c hstart hc
    rw [h]
    exact notMem_identifier x hstart hc
  cases q with
  | name y => trivial
  | minus => trivial
  | element y index =>
    refine absurd ?_ (hother '[' rfl rfl)
    simp [Target.text]
  | num digits => exact absurd h.symm (text_ne_literal x digits)
  | elements y star =>
    refine absurd ?_ (hother '[' rfl rfl)
    cases star <;> simp [Target.text]
  | positionals star =>
    cases star with
    | true => exact absurd List.mem_cons_self (hother '*' rfl rfl)
    | false => exact absurd List.mem_cons_self (hother '@' rfl rfl)
  | pound => exact absurd List.mem_cons_self (hother '#' rfl rfl)
  | qmark => exact absurd List.mem_cons_self (hother '?' rfl rfl)

theorem isPlain_of_text_eq_zero {q : Target} (h : q.text = "0") : q.IsPlain := by
  obtain ⟨digits, rfl⟩ := eq_num_of_isDigit (show q.text.toList = '0' :: [] by rw [h]; rfl) rfl
  exact h

end Direct

/-! ## States with some elements -/

/-- Give an element of a variable a value. -/
def putElement (m : Scope) (name : String) (index : UInt32) (text : String) : Scope :=
  m.insert name
    ⟨name, (((m[name]?).map Variable.value).getD ∅).insert index (.str text), false⟩

/-- A shell in which two elements are set: that of the pointer, and one more. -/
def Interpreter.holding (pointer : String × UInt32) (text : String) (place : String × UInt32) :
    Interpreter :=
  { Interpreter.initial [] with
    store := ⟨putElement (putElement ∅ place.1 place.2 "A") pointer.1 pointer.2 text, []⟩ }

section Holding

variable {m : Scope} {name key text : String} {index i : UInt32}

/-- The element of a scope. -/
def scopeElement (m : Scope) (name : String) (index : UInt32) : Option String :=
  m[name]?.bind fun v => v.value[index]?.map Value.toStr

theorem scopeElement_put (m : Scope) (name text key : String) (index i : UInt32) :
    scopeElement (putElement m name index text) key i =
      if key = name ∧ i = index then some text else scopeElement m key i := by
  unfold scopeElement putElement
  rw [Std.ExtTreeMap.getElem?_insert]
  by_cases hkey : key = name
  · subst hkey
    rw [if_pos (by simp), Option.bind_some, Std.ExtTreeMap.getElem?_insert]
    by_cases hi : i = index
    · subst hi
      rw [if_pos (by simp), if_pos ⟨rfl, rfl⟩]
      rfl
    · rw [if_neg (by simpa using fun h => hi h.symm), if_neg fun h => hi h.2]
      cases m[key]? with
      | none => rfl
      | some v => rfl
  · rw [if_neg (by simpa using fun h => hkey h.symm), if_neg fun h => hkey h.1]

variable {pointer place : String × UInt32}

theorem parameter_holding (hkey : key ≠ "") :
    (Interpreter.holding pointer text place).store.parameter key i =
      if (key, i) = pointer then some text
      else if (key, i) = place then some "A" else none := by
  have hresolve : (Interpreter.holding pointer text place).store.parameter key i =
      scopeElement (putElement (putElement ∅ place.1 place.2 "A") pointer.1 pointer.2 text)
        key i := by
    unfold Store.parameter Store.resolveVariable
    rw [if_neg (by simpa using hkey)]
    rfl
  have hempty : scopeElement ∅ key i = none := rfl
  rw [hresolve, scopeElement_put, scopeElement_put, hempty]
  simp only [Prod.ext_iff]

theorem nounset_holding : (Interpreter.holding pointer text place).nounset = false := by
  have hinitial : (Interpreter.initial []).nounset = false := by decide +kernel
  exact hinitial

end Holding

/-! ## Where the parameter differs -/

section Differs

variable {host : Host} {n d : Nat} {s : Interpreter} {text : String}

/-- A number is not another kind of name. -/
theorem Literal.text_ne (digits : Literal) {c : Char} (cs : List Char) (hc : c.isDigit = false) :
    digits.text ≠ String.ofList (c :: cs) := by
  intro heq
  have hlist : digits.digits = c :: cs := by
    have := congrArg String.toList heq
    rwa [Literal.text, String.toList_ofList, String.toList_ofList] at this
  have := digits.areDigits c (by rw [hlist]; exact List.mem_cons_self)
  rw [hc] at this
  cases this

theorem intercalate_ne_empty (sep : String) {elements : List String} (hmem : text ∈ elements)
    (htext : text ≠ "") : sep.intercalate elements ≠ "" := by
  intro hempty
  have hlists := congrArg String.toList hempty
  rw [String.toList_intercalate] at hlists
  have hnil : ∀ (l : List (List Char)), sep.toList.intercalate l = [] → ∀ e ∈ l, e = [] := by
    intro l
    induction l with
    | nil => simp
    | cons e es ih =>
      intro hall
      cases es with
      | nil =>
        rw [List.intercalate_singleton] at hall
        intro x hx
        rw [List.mem_singleton.mp hx, hall]
      | cons e' es =>
        rw [List.intercalate_cons_cons] at hall
        obtain ⟨hfirst, hrest⟩ := List.append_eq_nil_iff.mp hall
        intro x hx
        rcases List.mem_cons.mp hx with rfl | hx
        · exact (List.append_eq_nil_iff.mp hfirst).1
        · exact ih hrest x hx
  apply htext
  apply String.toList_eq_nil_iff.mp
  exact hnil _ hlists _ (List.mem_map_of_mem hmem)

/-- A set element of an array is a part of the join. -/
theorem run_array (host : Host) (n d : Nat) {name : String} {index : UInt32}
    (hu : s.nounset = false)
    (hset : s.store.parameter name index = some text) (htext : text ≠ "") :
    ∃ joined, joined ≠ "" ∧
      runShell host n d (Shell.getAllElementsIFSJoined name) s = some (.ok joined, s) := by
  have hbound : s.Bound "IFS" 0 := by
    intro hset
    rw [hu] at hset
    cases hset
  cases hv : s.store.resolveVariable name with
  | none =>
    rw [Store.parameter, hv] at hset
    cases hset
  | some v =>
    rw [parameter_of_resolve hv] at hset
    obtain ⟨value, hvalue, rfl⟩ := Option.map_eq_some_iff.mp hset
    have hlists : s.Lists name v.getAllValues := by
      unfold Interpreter.Lists
      rw [hv]
    refine ⟨_, ?_, run_getAllElements host n d hbound hlists⟩
    apply intercalate_ne_empty _ _ htext
    exact List.mem_map.mpr
      ⟨(index, value), Std.ExtTreeMap.mem_toList_iff_getElem?_eq_some.mpr hvalue, rfl⟩

theorem run_toString_ne {m : Shell Nat} {size : Nat}
    (h : runShell host n d m s = some (.ok size, s)) (s' : Interpreter) :
    (runShell host n d m >>= fun size => runShell host n d (pure (toString size))) s ≠
      some (.ok "", s') := by
  rw [bind_of_ok h]
  intro heq
  have htext : toString size = "" := Except.ok.inj (Prod.mk.inj (Option.some.inj heq)).1
  exact toString_ne_empty (size : Int) htext

theorem numberedName_cases (index : UInt32) : Shell.numberedName index = ("0", 0) ∨
    ∃ i, i ≠ 0 ∧ Shell.numberedName index = ("*", i) := by
  by_cases hzero : index = 0
  · left
    rw [hzero]
    rfl
  · exact .inr ⟨_, hzero, by rw [Shell.numberedName, if_pos hzero]⟩

theorem star_ne_literal (i : UInt32) (digits : Literal) :
    ("*", i) ≠ (digits.text, (0 : UInt32)) := by
  intro heq
  exact digits.text_ne (c := '*') [] rfl (Prod.mk.inj heq).1.symm

/-- An element that makes the parameter something, for `${q}` and not for a name that is
looked up as it is. -/
structure Makes (host : Host) (n d : Nat) (q : Target) (place : String × UInt32) : Prop where
  plain : place = (q.text, 0) → q.IsPlain
  number : ∀ digits : Literal, digits.text ≠ "0" → place ≠ (digits.text, 0)
  named : place.1 ≠ ""
  ne_empty : ∀ s text, s.nounset = false → s.store.parameter place.1 place.2 = some text →
    text ≠ "" → ∃ r, q.apply .plain = some r ∧
      ∀ s', runShell host n d (Shell.varRef host r) s ≠ some (.ok "", s')

section Makes

variable {q : Target} {r : VarRef} {place : String × UInt32}

/-- The elements of a variable. -/
theorem makes_identifier (x : Identifier) (i : UInt32) (hr : q.apply .plain = some r)
    (hplain : i = 0 → q.IsPlain ∨ q.text ≠ x.text)
    (h : ∀ s text, s.nounset = false → s.store.parameter x.text i = some text → text ≠ "" →
      ∀ s', runShell host n d (Shell.varRef host r) s ≠ some (.ok "", s')) :
    Makes host n d q (x.text, i) where
  plain := by
    intro heq
    obtain ⟨hname, hi⟩ := Prod.mk.inj heq
    rcases hplain hi with hq | hne
    · exact hq
    · exact absurd hname.symm hne
  number := by
    intro digits _ heq
    exact text_ne_literal x digits (Prod.mk.inj heq).1
  named := (Target.name x).text_ne_empty
  ne_empty := fun s text hu hset htext => ⟨r, hr, h s text hu hset htext⟩

/-- The first argument, which no name stands for as it is. -/
theorem makes_star (hr : q.apply .plain = some r)
    (h : ∀ s text, s.nounset = false → s.store.parameter "*" 1 = some text → text ≠ "" →
      ∀ s', runShell host n d (Shell.varRef host r) s ≠ some (.ok "", s')) :
    Makes host n d q ("*", 1) where
  plain := by
    intro heq
    exact absurd (Prod.mk.inj heq).2 (by decide)
  number := fun digits _ => star_ne_literal 1 digits
  named := (by decide : "*" ≠ "")
  ne_empty := fun s text hu hset htext => ⟨r, hr, h s text hu hset htext⟩

/-- What an element is that is read. -/
theorem run_ne_of_resolve {m : Shell String} {name : String} {i : UInt32}
    (hrun : runShell host n d m s = runShell host n d (Shell.resolveString name i) s)
    (hset : s.store.parameter name i = some text) (htext : text ≠ "") (s' : Interpreter) :
    runShell host n d m s ≠ some (.ok "", s') := by
  rw [hrun, run_resolveString_of_set hset]
  intro heq
  cases heq
  exact htext rfl

/-- The join of an array that has the element. -/
theorem run_ne_of_array {m : Shell String} {name : String} {i : UInt32}
    (hrun : runShell host n d m s = runShell host n d (Shell.getAllElementsIFSJoined name) s)
    (hu : s.nounset = false) (hset : s.store.parameter name i = some text) (htext : text ≠ "")
    (s' : Interpreter) : runShell host n d m s ≠ some (.ok "", s') := by
  obtain ⟨joined, hjoined, hjoin⟩ := run_array host n d hu hset htext
  rw [hrun, hjoin]
  intro heq
  cases heq
  exact hjoined rfl

theorem run_ne_of_error {m : Shell String} {e : Exn}
    (hrun : runShell host n d m s = some (.error e, s)) (s' : Interpreter) :
    runShell host n d m s ≠ some (.ok "", s') := by
  rw [hrun]
  intro heq
  cases heq

/-- An element is read where its subscript allows it. -/
theorem exists_place_element (host : Host) (n d : Nat) (x : Identifier) (index : Literal) :
    ∃ place, Makes host n d (.element x index) place := by
  have hvalue : ∀ s, runShell host n d (Shell.arithmetics host (.parts [.num index.text])) s =
      some (.ok (host.toInt32 index.text).toInt64, s) := by
    intro s
    rw [Shell.arithmetics, Shell.arithmeticParts, Shell.arithmetics]
    rfl
  have hrun : ∀ s, runShell host n d (Shell.varRef host
      (Operator.plain.on (.name (.element x (.parts [.num index.text]))))) s =
        (runShell host n d (Shell.nameRule host (.element x (.parts [.num index.text]))) >>=
          fun p => runShell host n d (Shell.resolveString p.1 p.2)) s := by
    intro s
    rw [Operator.on, Shell.varRef, Shell.varName]
    rfl
  cases houtcome : indexOutcome x.text (host.toInt32 index.text).toInt64 with
  | error e =>
    refine ⟨_, makes_star rfl ?_⟩
    intro s text hu hset htext
    apply run_ne_of_error
    have helement := run_element x (hvalue s)
    rw [houtcome] at helement
    rw [hrun, bind_of_error helement]
  | ok i =>
    refine ⟨_, makes_identifier x i rfl ?_ ?_⟩
    · intro _
      by_cases heq : (Target.element x index).text = x.text
      · exact .inl (isPlain_of_text_eq heq)
      · exact .inr heq
    · intro s text hu hset htext
      refine run_ne_of_resolve ?_ hset htext
      have helement := run_element x (hvalue s)
      rw [houtcome] at helement
      rw [hrun, bind_of_ok helement]

/-- A positional parameter is read where its number is one of the type. -/
theorem exists_place_num (host : Host) (n d : Nat) (digits : Literal) :
    ∃ place, Makes host n d (.num digits) place := by
  cases hcast : magnitude (2 ^ 32 - 1) digits.text.toList with
  | none =>
    refine ⟨_, makes_star rfl ?_⟩
    intro s text hu hset htext
    apply run_ne_of_error
    rw [Operator.on, Shell.varRef, runShell_bind,
      bind_of_error (run_varName_num_error digits.text hcast)]
  | some k =>
    have hread : ∀ s text, s.store.parameter (Shell.numberedName (.ofNat k)).1
        (Shell.numberedName (.ofNat k)).2 = some text → text ≠ "" →
          ∀ s', runShell host n d (Shell.varRef host (Operator.plain.on (.num digits.text))) s ≠
            some (.ok "", s') := by
      intro s text hset htext
      refine run_ne_of_resolve ?_ hset htext
      rw [Operator.on, Shell.varRef, runShell_bind, bind_of_ok (run_varName_num digits.text hcast)]
    refine ⟨Shell.numberedName (.ofNat k), ?_⟩
    rcases numberedName_cases (.ofNat k) with hzero | ⟨i, hi, hstarred⟩
    · -- `$0` is the variable of this name
      rw [hzero] at hread ⊢
      refine ⟨fun heq => (Prod.mk.inj heq).1.symm, ?_, by decide, ?_⟩
      · intro digits' hdigits heq
        exact hdigits (Prod.mk.inj heq).1.symm
      · intro s text hu hset htext
        exact ⟨_, rfl, hread s text hset htext⟩
    · rw [hstarred] at hread ⊢
      refine ⟨fun heq => absurd (Prod.mk.inj heq).2 hi, fun digits' _ => star_ne_literal i digits',
        (by decide : "*" ≠ ""), ?_⟩
      intro s text hu hset htext
      exact ⟨_, rfl, hread s text hset htext⟩

/-- There is an element that makes the parameter, or it is never empty. -/
theorem exists_place (host : Host) (n d : Nat) (q : Target) : ∃ place, Makes host n d q place := by
  -- A variable or an array has an element of its own; for the parameters that no element makes,
  -- the first argument will do.
  cases q with
  | name x =>
    refine ⟨_, makes_identifier x 0 rfl (fun _ => .inl trivial) ?_⟩
    intro s text hu hset htext
    exact run_ne_of_resolve (run_varRef_base x) hset htext
  | element x index => exact exists_place_element host n d x index
  | num digits => exact exists_place_num host n d digits
  | minus =>
    refine ⟨("-", 0), fun _ => trivial, ?_, (by decide : "-" ≠ ""), ?_⟩
    · intro digits _ heq
      exact digits.text_ne (c := '-') [] rfl (Prod.mk.inj heq).1.symm
    · intro s text hu hset htext
      refine ⟨_, rfl, run_ne_of_resolve ?_ hset htext⟩
      rw [Operator.on, Shell.varRef, Shell.varName]
      rfl
  | elements x star =>
    refine ⟨_, makes_identifier x 0 rfl ?_ ?_⟩
    · intro _
      by_cases heq : (Target.elements x star).text = x.text
      · exact .inl (isPlain_of_text_eq heq)
      · exact .inr heq
    · intro s text hu hset htext
      refine run_ne_of_array ?_ hu hset htext
      rw [Shell.varRef, Shell.arrayName, Shell.nameRule]
      rfl
  | positionals star =>
    refine ⟨_, makes_star rfl ?_⟩
    intro s text hu hset htext
    refine run_ne_of_array ?_ hu hset htext
    cases star with
    | true =>
      rw [if_pos rfl, Shell.varRef, Shell.arrayName]
      rfl
    | false =>
      rw [if_neg Bool.false_ne_true, Shell.varRef, Shell.arrayName]
      rfl
  | pound =>
    refine ⟨_, makes_star rfl ?_⟩
    intro s text hu hset htext
    cases hv : s.store.resolveVariable "*" with
    | none =>
      rw [Store.parameter, hv] at hset
      cases hset
    | some v =>
      rw [Shell.varRef, runShell_bind]
      exact run_toString_ne (run_getArrayLength host n d hv)
  | qmark =>
    refine ⟨_, makes_star rfl ?_⟩
    intro s text hu hset htext s' heq
    have htext : toString s.status = "" := by
      rw [Shell.varRef, runShell_bind, runShell_perform, performOp, reads_bind_apply] at heq
      exact Except.ok.inj (Prod.mk.inj (Option.some.inj heq)).1
    exact toString_ne_empty s.status htext

end Makes

theorem run_resolveString_of_unset {name : String} {i : UInt32} (hu : s.nounset = false)
    (h : s.store.parameter name i = none) :
    runShell host n d (Shell.resolveString name i) s = some (.ok "", s) := by
  have hbound : s.Bound name i := by
    intro hset
    rw [hu] at hset
    cases hset
  rw [run_resolveString_of_bound hbound, h]
  rfl

theorem parameter_empty (t : Store) (i : UInt32) : t.parameter "" i = none := rfl

/-- When the code reads nothing where the parameter is something, it does not follow. -/
theorem not_followsValue_of_place {p : Pointer} {q : Target} {place : String × UInt32}
    (pointer : String × UInt32) (name : ParameterName) (hplace : Makes host n d q place)
    (hname : p.variableName = some name)
    (hvalue : HasValue host n d p q.text (.holding pointer q.text place))
    (hcode : runShell host n d (Shell.varRef host (.var name)) (.holding pointer q.text place) =
      some (.ok "", .holding pointer q.text place)) : ¬FollowsValue host p q := by
  rintro ⟨name', hname', hall⟩
  obtain rfl : name' = name := Option.some.inj (hname'.symm.trans hname)
  have hset : ∃ text, text ≠ "" ∧
      (Interpreter.holding pointer q.text place).store.parameter place.1 place.2 = some text := by
    rw [parameter_holding hplace.named]
    by_cases hpointer : (place.1, place.2) = pointer
    · rw [if_pos hpointer]
      exact ⟨_, q.text_ne_empty, rfl⟩
    · rw [if_neg hpointer, if_pos rfl]
      exact ⟨"A", by decide, rfl⟩
  obtain ⟨text, htext, hset⟩ := hset
  obtain ⟨r, hr, hne⟩ := hplace.ne_empty _ text nounset_holding hset htext
  have hsame := hall n d _ hvalue .plain r hr
  rw [Operator.on, hcode] at hsame
  exact hne _ hsame.symm

/-- The value of a variable that is not plain is looked up as a variable. -/
theorem not_followsValue_name {x : Identifier} {q : Target} (h : ¬q.IsPlain) :
    ¬FollowsValue host (.name x) q := by
  obtain ⟨place, hplace⟩ := exists_place host 0 0 q
  have hx : x.text ≠ "" := (Target.name x).text_ne_empty
  have hvalue : (Interpreter.holding (x.text, 0) q.text place).store.parameter x.text 0 =
      some q.text := by
    rw [parameter_holding hx, if_pos rfl]
  have hnone : (Interpreter.holding (x.text, 0) q.text place).store.parameter q.text 0 = none := by
    rw [parameter_holding q.text_ne_empty, if_neg, if_neg]
    · exact fun heq => h (hplace.plain heq.symm)
    · exact fun heq => h (isPlain_of_text_eq (Prod.mk.inj heq).1)
  apply not_followsValue_of_place (x.text, 0) (.indirectName (.base x)) hplace rfl
  · refine ⟨.holding (x.text, 0) q.text place, ?_⟩
    rw [Pointer.reference, run_varRef_base]
    exact run_resolveString_of_set hvalue
  · rw [Shell.varRef, Shell.varName, Shell.nameRule, runShell_bind, runShell_bind]
    show ((runShell host 0 0 (Shell.resolveString x.text 0) >>= _) >>= _) _ = _
    rw [bind_of_ok (bind_of_ok (run_resolveString_of_set hvalue) _)]
    exact run_resolveString_of_unset nounset_holding hnone

/-- A number is looked up as a variable of that name. -/
theorem not_followsValue_num {digits : Literal} {q : Target} {k : Nat}
    (hcast : magnitude (2 ^ 32 - 1) digits.text.toList = some k)
    (h : ¬(digits.text = "0" ∧ q.IsPlain)) : ¬FollowsValue host (.num digits) q := by
  obtain ⟨place, hplace⟩ := exists_place host 0 0 q
  have hpointer : (Shell.numberedName (.ofNat k)).1 ≠ "" := by
    rcases numberedName_cases (.ofNat k) with hzero | ⟨i, -, hstarred⟩
    · rw [hzero]
      decide
    · rw [hstarred]
      exact (by decide : "*" ≠ "")
  have hvalue : (Interpreter.holding (Shell.numberedName (.ofNat k)) q.text place).store.parameter
      (Shell.numberedName (.ofNat k)).1 (Shell.numberedName (.ofNat k)).2 = some q.text := by
    rw [parameter_holding hpointer, if_pos rfl]
  apply not_followsValue_of_place (Shell.numberedName (.ofNat k)) (.indirectNum digits.text) hplace
    rfl
  · refine ⟨.holding (Shell.numberedName (.ofNat k)) q.text place, ?_⟩
    rw [Pointer.reference, Shell.varRef, runShell_bind, bind_of_ok (run_varName_num _ hcast)]
    exact run_resolveString_of_set hvalue
  · rw [Shell.varRef, Shell.varName, runShell_bind, runShell_bind]
    by_cases hzero : digits.text = "0"
    -- The value of the pointer names nothing that is set, so the code reads an empty text.
    · -- `$0` is a variable of its own, and its value is taken for another one
      have hk : k = 0 := by
        rw [hzero, (by decide +kernel : magnitude (2 ^ 32 - 1) "0".toList = some 0)] at hcast
        exact (Option.some.inj hcast).symm
      subst hk
      have hnone : (Interpreter.holding (Shell.numberedName (.ofNat 0)) q.text place).store.parameter
          q.text 0 = none := by
        rw [parameter_holding q.text_ne_empty, if_neg, if_neg]
        · exact fun heq => h ⟨hzero, hplace.plain heq.symm⟩
        · exact fun heq => h ⟨hzero, isPlain_of_text_eq_zero (Prod.mk.inj heq).1⟩
      rw [hzero]
      rw [bind_of_ok (bind_of_ok (run_resolveString_of_set hvalue) _)]
      exact run_resolveString_of_unset nounset_holding hnone
    · have hnone : (Interpreter.holding (Shell.numberedName (.ofNat k)) q.text place).store.parameter
          digits.text 0 = none := by
        have hdigits : digits.text ≠ "" := (Target.num digits).text_ne_empty
        rw [parameter_holding hdigits, if_neg, if_neg]
        · exact fun heq => hplace.number digits hzero heq.symm
        · intro heq
          rcases numberedName_cases (.ofNat k) with hfirst | ⟨i, -, hstarred⟩
          · rw [hfirst] at heq
            exact hzero (Prod.mk.inj heq).1
          · rw [hstarred] at heq
            exact star_ne_literal i digits heq.symm
      rw [bind_of_ok (bind_of_ok (run_resolveString_of_unset nounset_holding hnone) _)]
      exact run_resolveString_of_unset nounset_holding (parameter_empty _ 0)

/-- A shell with so many arguments. -/
def Interpreter.withArguments (m : Nat) : Interpreter :=
  { Interpreter.initial [] with
    store := ⟨(∅ : Scope).insert "*" (.ofList "*" 1 (List.replicate m "A")), []⟩ }

theorem resolve_withArguments (m : Nat) : (Interpreter.withArguments m).store.resolveVariable "*" =
    some (.ofList "*" 1 (List.replicate m "A")) := by
  show ((∅ : Scope).insert "*" _)["*"]? = _
  rw [Std.ExtTreeMap.getElem?_insert_self]

theorem nounset_withArguments (m : Nat) : (Interpreter.withArguments m).nounset = false := by
  have hinitial : (Interpreter.initial []).nounset = false := by decide +kernel
  exact hinitial

theorem parameter_withArguments_zero {m : Nat} (hm : m < 2 ^ 32) :
    (Interpreter.withArguments m).store.parameter "*" 0 = none := by
  have hlen : 1 + (List.replicate m "A").length ≤ 2 ^ 32 := by
    rw [List.length_replicate]
    omega
  rw [parameter_of_resolve (resolve_withArguments m), Option.map_eq_none_iff]
  show (Std.ExtTreeMap.map _ _)[(0 : UInt32)]? = none
  rw [Std.ExtTreeMap.getElem?_map, Option.map_eq_none_iff]
  by_contra hsome
  obtain ⟨value, hvalue⟩ := Option.ne_none_iff_exists'.mp hsome
  have hmem := (getElem?_insertAll_iff (increasingKeys_indexFrom hlen) _ _).mp hvalue
  exact absurd (lt_of_mem_indexFrom Nat.zero_lt_one hlen hmem) (Nat.lt_irrefl 0)

theorem parameter_withArguments_last {m : Nat} (hm : m < 2 ^ 32) (hpos : m ≠ 0) :
    (Interpreter.withArguments m).store.parameter "*" (.ofNat m) = some "A" := by
  have hlen : 1 + (List.replicate m "A").length ≤ 2 ^ 32 := by
    rw [List.length_replicate]
    omega
  have hlast : (List.replicate m "A")[m - 1]? = some "A" :=
    List.getElem?_replicate_of_lt (by omega)
  have hindex : UInt32.ofNat m = .ofNat (1 + (m - 1)) := by
    congr 1
    omega
  rw [parameter_of_resolve (resolve_withArguments m), hindex, value_ofList hlen hlast]
  rfl

/-- `${!#}` reads the element 0 of the arguments. -/
theorem not_followsValue_pound {q : Target} {m : Nat} (hm : m ≠ 0) (htext : toString m = q.text)
    (hvalue : HasValue host n d .pound q.text s)
    (hsize : runShell host n d (Shell.getArrayLength "*") s = some (.ok m, s)) :
    ¬FollowsValue host .pound q := by
  have hdigits : q.text.toList = Nat.toDigits 10 m := by rw [← htext, toList_toString_nat]
  obtain ⟨digits, rfl⟩ : ∃ digits, q = .num digits := by
    cases hlist : Nat.toDigits 10 m with
    | nil => exact absurd hlist Nat.toDigits_ne_nil
    | cons c cs => exact eq_num_of_isDigit (hdigits.trans hlist) (toDigits_eq_cons hlist)
  have hindirect : ∀ {n d s}, runShell host n d (Shell.getArrayLength "*") s = some (.ok m, s) →
      runShell host n d (Shell.varRef host (.var .indirectPound)) s =
        runShell host n d (Shell.resolveString "*" 0) s := by
    intro n d s hsize
    rw [Shell.varRef, Shell.varName, runShell_bind, runShell_bind, bind_of_ok (bind_of_ok hsize _),
      if_pos hm]
  rintro ⟨name, hname, hall⟩
  cases hname
  by_cases hbound : m < 2 ^ 32
  · -- the last argument is set, and the element 0 is not
    have hcast : magnitude (2 ^ 32 - 1) digits.text.toList = some m := by
      rw [show digits.text.toList = Nat.toDigits 10 m from hdigits]
      exact magnitude_toDigits (by omega)
    have hlen : 1 + (List.replicate m "A").length ≤ 2 ^ 32 := by
      rw [List.length_replicate]
      omega
    have hlength := run_getArrayLength host 0 0 (resolve_withArguments m)
    rw [getArrayLength_ofList hlen, List.length_replicate] at hlength
    have hpound : HasValue host 0 0 .pound (Target.num digits).text (.withArguments m) := by
      refine ⟨.withArguments m, ?_⟩
      rw [Pointer.reference, Shell.varRef, runShell_bind, bind_of_ok hlength, ← htext]
      rfl
    have hindex : UInt32.ofNat m ≠ 0 := by
      intro hzero
      have hnat := congrArg UInt32.toNat hzero
      rw [UInt32.toNat_ofNat_of_lt' (by simp only [UInt32.size]; omega)] at hnat
      exact hm hnat
    have hsame := hall 0 0 (.withArguments m) hpound .plain _ rfl
    rw [Operator.on, hindirect hlength,
      run_resolveString_of_unset (nounset_withArguments m) (parameter_withArguments_zero hbound),
      Operator.on, Shell.varRef, runShell_bind, bind_of_ok (run_varName_num _ hcast),
      Shell.numberedName, if_pos hindex,
      run_resolveString_of_set (parameter_withArguments_last hbound hm)] at hsame
    exact absurd (Except.ok.inj (Prod.mk.inj (Option.some.inj hsame)).1) (by decide)
  · -- there is no index for the last argument
    have hcast : magnitude (2 ^ 32 - 1) digits.text.toList = none := by
      rw [show digits.text.toList = Nat.toDigits 10 m from hdigits]
      apply if_neg
      rw [Nat.ofDigitChars_ten_toDigits]
      omega
    have hsame := hall n d s hvalue .plain _ rfl
    rw [Operator.on, hindirect hsize, Operator.on, Shell.varRef, runShell_bind,
      bind_of_error (run_varName_num_error _ hcast), run_resolveString] at hsame
    split_ifs at hsame <;> cases hsame

end Differs

/-- `${!p}` follows the parameter that the value of `$p` names exactly when this name is the
one of a variable and `p` is one, or there is no argument and `p` is `#`. -/
theorem followsValue_iff (host : Host) (p : Pointer) (q : Target)
    (h : ∃ n d s, HasValue host n d p q.text s) : FollowsValue host p q ↔ p.Direct q := by
  constructor
  -- Where `p` and `q` are not direct, some state has the parameter and not the variable.
  · intro hfollows
    obtain ⟨n, d, s, hvalue⟩ := h
    by_contra hnot
    cases p with
    | name x => exact not_followsValue_name hnot hfollows
    | element x index =>
      obtain ⟨name, hname, -⟩ := hfollows
      cases hname
    | num digits =>
      cases hcast : magnitude (2 ^ 32 - 1) digits.text.toList with
      | none =>
        obtain ⟨s', hrun⟩ := hvalue
        rw [Pointer.reference, Shell.varRef, runShell_bind,
          bind_of_error (run_varName_num_error digits.text hcast)] at hrun
        cases hrun
      | some k => exact not_followsValue_num hcast hnot hfollows
    | pound =>
      obtain ⟨m, hsize, htext⟩ := run_pound hvalue
      refine not_followsValue_pound ?_ htext hvalue hsize hfollows
      rintro rfl
      exact hnot htext.symm
  · intro hdirect
    have hplain : q.IsPlain := by
      cases p with
      | name x => exact hdirect
      | element x index => exact hdirect.elim
      | num digits => exact hdirect.2
      | pound => exact isPlain_of_text_eq_zero hdirect
    have hname : ∃ name, p.variableName = some name := by
      cases p with
      | name x => exact ⟨_, rfl⟩
      | element x index => exact hdirect.elim
      | num digits => exact ⟨_, rfl⟩
      | pound => exact ⟨_, rfl⟩
    obtain ⟨name, hname⟩ := hname
    refine ⟨name, hname, ?_⟩
    intro n d s hvalue op r hr
    obtain ⟨m, happly, hm⟩ := run_varName_plain host n d hplain
    obtain ⟨name', hname', hrun⟩ := run_varName_of_direct hdirect hvalue
    obtain rfl : name' = name := Option.some.inj (hname'.symm.trans hname)
    obtain rfl : r = op.on m := Option.some.inj (hr.symm.trans (happly op))
    exact run_on_congr (hrun.trans (hm s).symm) op

def pointedX : Identifier := ⟨"x", isIdentifier_x⟩

def pointerV : Identifier := ⟨"variable", by decide⟩

/-- `variable=x`, and `x` is set. -/
theorem followsValue_pointerV : FollowsValue (.ofTexts [] []) (.name pointerV) (.name pointedX) := by
  have hvalue : HasValue (.ofTexts [] []) 0 0 (.name pointerV) (Target.name pointedX).text
      (.holding ("variable", 0) "x" ("x", 0)) := by
    refine ⟨.holding ("variable", 0) "x" ("x", 0), ?_⟩
    rw [Pointer.reference, run_varRef_base]
    exact run_resolveString_of_set (by decide +kernel)
  exact (followsValue_iff (.ofTexts [] []) (.name pointerV) (.name pointedX)
    ⟨0, 0, _, hvalue⟩).mpr trivial

/-- The number of the first argument. -/
def numberOne : Literal := .ofNat 1

/-- The first argument is `x`, and `x` is `A`. -/
def namedByArgument : Interpreter := .holding ("*", 1) "x" ("x", 0)

/-- `${!1}` is empty, though `$1` is `x` and `$x` is `A`. -/
theorem not_followsValue_numberOne :
    (runShell (.ofTexts [] []) 0 0 (Shell.varRef (.ofTexts [] [])
        (Operator.plain.on (.indirectNum numberOne.text))) namedByArgument).map
      (fun out => out.1.toOption) = some (some "") ∧
    (runShell (.ofTexts [] []) 0 0 (Shell.varRef (.ofTexts [] [])
        (Operator.plain.on (.name (.base pointedX)))) namedByArgument).map
      (fun out => out.1.toOption) = some (some "A") ∧
    ¬FollowsValue (.ofTexts [] []) (.num numberOne) (.name pointedX) := by
  refine ⟨by decide +kernel, by decide +kernel, ?_⟩
  have hcast : magnitude (2 ^ 32 - 1) numberOne.text.toList = some 1 := by decide +kernel
  apply not_followsValue_num hcast
  rintro ⟨hzero, -⟩
  exact absurd hzero (by decide +kernel)

end Libbash
