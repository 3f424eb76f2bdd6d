import Libbash.Interp.Checks
import Libbash.Interp.Evolution

/-!
# The option `u`

The test for unset parameters sits in `is_valid` and `resolve`, so every lookup
of the interpreter makes it: those of the expansions, with their own idea of what
has to be set, and those that the interpreter makes for itself.

* **`Lookup`** — what is left of an expansion when its operands have been
  evaluated, what it names, and what the code looks at instead;
* **`followsNounset_iff`** — for every expansion and every internal lookup: when
  it raises exactly for a parameter that is unset.
-/

namespace Libbash

open Lib Lib.Comp Lib.Program

/-! ## Lookups -/

/-- What an expansion or the interpreter itself looks up, with its operands
evaluated. -/
inductive Lookup : Type → Type where
  /-- `$x`, `${x[i]}`, `$1` and `$-`. -/
  | value (name : String) (index : UInt32) : Lookup String
  /-- `$@`, `$*`, `${a[@]}` and `${a[*]}`. -/
  | elements (name : String) : Lookup String
  /-- `$#`. -/
  | count : Lookup String
  /-- `$?`. -/
  | status : Lookup String
  /-- `$!`. -/
  | lastJob : Lookup String
  /-- `${p-w}` and `${p:-w}`. -/
  | useDefault (orNull : Bool) (name : String) (index : UInt32) (word : String) : Lookup String
  /-- `${p=w}` and `${p:=w}`. -/
  | assignDefault (orNull : Bool) (name : String) (index : UInt32) (word : String) : Lookup String
  /-- `${p+w}` and `${p:+w}`. -/
  | useAlternate (orNull : Bool) (name : String) (index : UInt32) (word : String) : Lookup String
  /-- `${a[@]:o:l}` and `${@:o:l}`. -/
  | subarray (name : String) (offset : Int64) (length : Option Int64) : Lookup String
  /-- `${p:o:l}`. -/
  | substring (name : String) (index : UInt32) (offset : Int64) (length : Option Int64) :
      Lookup String
  /-- `${#p}`. -/
  | lengthOf (name : String) (index : UInt32) : Lookup String
  /-- `${#a[@]}`. -/
  | arraySize (name : String) : Lookup String
  /-- `${p/m/w}`; the index is that of `var_or_array_name`. -/
  | replace (name : String) (index : UInt32) (replacer : String → String) : Lookup String
  /-- `${a[@]/m/w}` and `${@/m/w}`. -/
  | replaceAll (name : String) (replacer : String → String) : Lookup String
  /-- A name that is no reference. -/
  | named (p : String × UInt32) : Lookup (String × UInt32)
  /-- The name in `${!1}`. -/
  | indirectNum (digits : String) : Lookup (String × UInt32)
  /-- The name in `${!x}`. -/
  | indirectName (name : String) : Lookup (String × UInt32)
  /-- The name in `${!#}`. -/
  | indirectPound : Lookup (String × UInt32)
  /-- `a+=(..)`. -/
  | append (name : String) : Lookup UInt32
  /-- Word splitting. -/
  | splitting (word : String) : Lookup (List String)
  /-- The text that joins the elements of an array. -/
  | joining : Lookup String
  /-- A `for` without words. -/
  | positionals : Lookup (List String)
  /-- What a builtin looks up for itself: `0` in `source`, and the variables that
  `inherit` keeps. -/
  | internal (name : String) : Lookup String

namespace Lookup

/-- The check of an optional length. -/
def checkLength : Option Int64 → Shell (Option Nat)
  | none => pure none
  | some length => do
    let size ← Shell.checkLength length
    pure (some size)

/-- What the code does. -/
def action : {α : Type} → Lookup α → Shell α
  | _, .value name index => Shell.resolveString name index
  | _, .elements name => Shell.getAllElementsIFSJoined name
  | _, .count => do
    let size ← Shell.getArrayLength "*"
    pure (toString size)
  | _, .status => do
    let status ← perform .getStatus
    pure (toString status)
  | _, .lastJob => do
    perform (.writeError "$! has not been implemented yet\n")
    pure ""
  | _, .useDefault orNull name index word => Shell.defaultExpansion orNull (name, index) word
  | _, .assignDefault orNull name index word => Shell.assignExpansion orNull (name, index) word
  | _, .useAlternate orNull name index word => Shell.alternateExpansion orNull (name, index) word
  | _, .subarray name offset length => do
    let size ← checkLength length
    Shell.getSubarray name offset.toInt size
  | _, .substring name index offset length => do
    let size ← checkLength length
    Shell.getSubstring name offset.toInt size index
  | _, .lengthOf name index => do
    let size ← Shell.getLength name index
    pure (toString size)
  | _, .arraySize name => do
    let size ← Shell.getArrayLength name
    pure (toString size)
  | _, .replace name index replacer =>
    Shell.replaceExpansion name (if index.toInt32 < 0 then none else some index) replacer
  | _, .replaceAll name replacer => Shell.replaceExpansion name none replacer
  | _, .named p => pure p
  | _, .indirectNum digits => do
    let name ← Shell.resolveString digits 0
    pure (name, 0)
  | _, .indirectName name => do
    let text ← Shell.resolveString name 0
    pure (text, 0)
  | _, .indirectPound => do
    let index ← Shell.getArrayLength "*"
    pure (if index ≠ 0 then "*" else "0", 0)
  | _, .append name => Shell.appendIndex name
  | _, .splitting word => Shell.splitWord word
  | _, .joining => Shell.joiner
  | _, .positionals => Shell.positional
  | _, .internal name => Shell.resolveString name 0

/-- The positional parameter that a text of digits names. -/
def numbered (digits : String) : String × UInt32 :=
  Shell.numberedName (.ofNat ((magnitude (2 ^ 32 - 1) digits.toList).getD 0))

/-- What the lookup names is unset, and it is not exempt. -/
def Unset (s : Interpreter) : {α : Type} → Lookup α → Prop
  | _, .value name index | _, .substring name index _ _ | _, .lengthOf name index
  | _, .replace name index _ => s.Absent name index
  | _, .elements name | _, .subarray name _ _ | _, .replaceAll name _ =>
    Shell.isPositional name = false ∧ s.Missing name
  | _, .arraySize name => s.Missing name
  | _, .indirectName name => s.Absent name 0
  | _, .indirectNum digits => s.Absent (numbered digits).1 (numbered digits).2
  | _, _ => False

/-- The length is not negative. -/
def ValidLength (length : Option Int64) : Prop := ∀ l ∈ length, ¬l.toInt32 < 0

/-- What the code looks at in place of what the lookup names. -/
def Looked (s : Interpreter) : {α : Type} → Lookup α → Prop
  | _, .value name index => s.Absent name index
  | _, .elements name => s.Absent "IFS" 0 ∨ s.Missing name
  | _, .count | _, .indirectPound | _, .positionals => s.Missing "*"
  | _, .status | _, .lastJob | _, .named _ => False
  | _, .useDefault orNull name index _ | _, .assignDefault orNull name index _ =>
    orNull = false ∧ s.store.members[name]?.isSome ∧ s.Absent name index
  | _, .useAlternate _ _ _ _ => False
  | _, .subarray name offset length =>
    ValidLength length ∧
      (Shell.takesScript name offset = true ∧ s.Absent "0" 0 ∨ s.Missing name ∨
        Shell.InRange s name offset ∧ s.Absent "IFS" 0)
  | _, .substring name index _ length => ValidLength length ∧ s.Absent name index
  | _, .lengthOf name _ => s.Missing name
  | _, .arraySize name => s.Missing name
  | _, .replace name index _ =>
    if index.toInt32 < 0 then s.Missing name ∨ s.Absent "IFS" 0 else s.Absent name index
  | _, .replaceAll name _ => s.Missing name ∨ s.Absent "IFS" 0
  | _, .indirectNum digits => s.Absent digits 0
  | _, .indirectName name => s.Absent name 0
  | _, .append name => s.Missing name
  | _, .splitting _ | _, .joining => s.Absent "IFS" 0
  | _, .internal name => s.Absent name 0

/-- Where the code looks at the right thing. -/
def Sound (s : Interpreter) : {α : Type} → Lookup α → Prop
  | _, .elements name | _, .replaceAll name _ =>
    if Shell.isPositional name then ¬s.Missing name ∧ ¬s.Absent "IFS" 0
    else s.Missing name ∨ ¬s.Absent "IFS" 0
  | _, .count | _, .indirectPound | _, .positionals => ¬s.Missing "*"
  | _, .useDefault orNull name index _ | _, .assignDefault orNull name index _ =>
    orNull = true ∨ s.store.members[name]? = none ∨ ¬s.Absent name index
  | _, .subarray name offset length =>
    if Shell.isPositional name then
      ValidLength length → ¬s.Missing name ∧ (Shell.takesScript name offset = true → ¬s.Absent "0" 0) ∧
        (Shell.InRange s name offset → ¬s.Absent "IFS" 0)
    else
      (s.Missing name → ValidLength length) ∧
        (¬s.Missing name → ValidLength length → Shell.InRange s name offset → ¬s.Absent "IFS" 0)
  | _, .substring name index _ length => ValidLength length ∨ ¬s.Absent name index
  | _, .lengthOf name index => s.Absent name index → s.Missing name
  | _, .replace name index _ =>
    index.toInt32 < 0 → (s.Missing name ∨ s.Absent "IFS" 0 ↔ s.Absent name index)
  | _, .indirectNum digits =>
    s.Absent digits 0 ↔ s.Absent (numbered digits).1 (numbered digits).2
  | _, .append name => ¬s.Missing name
  | _, .splitting _ | _, .joining => ¬s.Absent "IFS" 0
  | _, .internal name => ¬s.Absent name 0
  | _, .value _ _ | _, .status | _, .lastJob | _, .useAlternate _ _ _ _ | _, .arraySize _
  | _, .named _ | _, .indirectName _ => True

/-- The code looks at what the lookup names. -/
theorem sound_iff (s : Interpreter) {α : Type} (l : Lookup α) :
    (l.Looked s ↔ l.Unset s) ↔ l.Sound s := by
  cases l with
  -- Only for arrays, lengths and the default operators is another thing looked at than the one
  -- that is to be set.
  | value name index => exact iff_true_intro Iff.rfl
  | elements name =>
    cases hname : Shell.isPositional name <;> simp [Looked, Unset, Sound, hname] <;> tauto
  | useDefault orNull name index word =>
    cases orNull <;> cases hm : s.store.members[name]? <;> simp [Looked, Unset, Sound, hm]
  | assignDefault orNull name index word =>
    cases orNull <;> cases hm : s.store.members[name]? <;> simp [Looked, Unset, Sound, hm]
  | subarray name offset length =>
    cases hname : Shell.isPositional name with
    | true =>
      simp only [Looked, Unset, Sound, hname, if_pos, Bool.true_eq_false, false_and, iff_false]
      tauto
    | false =>
      have htakes : Shell.takesScript name offset = false := by
        rw [Shell.takesScript, hname, Bool.false_and]
      by_cases hmissing : s.Missing name
      · simp [Looked, Unset, Sound, hname, htakes, hmissing]
      · simp [Looked, Unset, Sound, hname, htakes, hmissing]
  | substring name index offset length =>
    simp only [Looked, Unset, Sound]
    tauto
  | lengthOf name index =>
    have habsent : s.Missing name → s.Absent name index := fun h => h.absent index
    exact ⟨Iff.mpr, fun h => ⟨habsent, h⟩⟩
  | replace name index replacer =>
    by_cases hindex : index.toInt32 < 0 <;> simp [Looked, Unset, Sound, hindex]
  | replaceAll name replacer =>
    cases hname : Shell.isPositional name <;> simp [Looked, Unset, Sound, hname]
    tauto
  | arraySize name => exact iff_true_intro Iff.rfl
  | indirectName name => exact iff_true_intro Iff.rfl
  | indirectNum digits => exact Iff.rfl
  | status => exact iff_true_intro Iff.rfl
  | lastJob => exact iff_true_intro Iff.rfl
  | useAlternate orNull name index word => exact iff_true_intro Iff.rfl
  | named p => exact iff_true_intro Iff.rfl
  | count => exact Iff.of_eq (iff_false _)
  | indirectPound => exact Iff.of_eq (iff_false _)
  | positionals => exact Iff.of_eq (iff_false _)
  | append name => exact Iff.of_eq (iff_false _)
  | splitting word => exact Iff.of_eq (iff_false _)
  | joining => exact Iff.of_eq (iff_false _)
  | internal name => exact Iff.of_eq (iff_false _)

end Lookup

namespace Lookup

section Raises

variable {host : Host} {n d : Nat} {s : Interpreter} {α : Type}

/-- A run that ends raises nothing. -/
theorem not_raises_of_ok {out : Option (Except Exn α × Interpreter)} {a : α} {t : Interpreter}
    (h : out = some (.ok a, t)) : ¬RaisesUnsupported out := by
  rintro ⟨what, t', hout⟩
  rw [h] at hout
  cases hout

/-- The length is checked first. -/
theorem raises_checkLength {k : Option Nat → Shell α} {length : Option Int64} {P : Prop}
    (hk : ∀ size, Checks host n d s (k size) (s.nounset = true ∧ P)) :
    RaisesUnsupported (runShell host n d (checkLength length >>= k) s) ↔
      s.nounset = true ∧ ValidLength length ∧ P := by
  have hvalid : ∀ size, runShell host n d (checkLength length) s = some (.ok size, s) →
      ValidLength length →
        (RaisesUnsupported (runShell host n d (checkLength length >>= k) s) ↔
          s.nounset = true ∧ ValidLength length ∧ P) := by
    intro size hrun hlength
    rw [runShell_bind, bind_of_ok hrun, (hk size).raises_iff, and_iff_right hlength]
  cases length with
  | none =>
    apply hvalid none rfl
    intro l hl
    cases hl
  | some l =>
    by_cases hl : l.toInt32 < 0
    · have hrun : runShell host n d (checkLength (some l)) s = some (.error (.error .illegalArgument
          "length of substring expression should be greater or equal to zero"), s) := by
        show (runShell host n d (Shell.checkLength l) >>= _) s = _
        rw [Shell.checkLength, if_pos hl]
        rfl
      rw [runShell_bind, bind_of_error hrun]
      constructor
      · rintro ⟨what, t, hout⟩
        cases hout
      · exact fun h => absurd hl (h.2.1 l rfl)
    · apply hvalid (some l.toInt32.toInt.toNat)
      · show (runShell host n d (Shell.checkLength l) >>= _) s = _
        rw [Shell.checkLength, if_neg hl]
        rfl
      · intro l' hl'
        cases hl'
        exact hl

/-- After a test, the parameter is resolved or not. -/
theorem raises_unsetTest {orNull : Bool} {name : String} {index : UInt32}
    {k : Bool → Shell String}
    (htrue : ¬RaisesUnsupported (runShell host n d (k true) s))
    (hfalse : k false = Shell.resolveString name index) :
    RaisesUnsupported (runShell host n d (Shell.unsetTest orNull name index >>= k) s) ↔
      s.nounset = true ∧ orNull = false ∧ s.store.members[name]?.isSome = true ∧
        s.Absent name index := by
  obtain ⟨cond, hrun, hset, hmember⟩ := @checks_unsetTest host n d s orNull name index
  rw [runShell_bind, bind_of_ok hrun]
  cases cond with
  | true =>
    refine iff_of_false htrue ?_
    rintro ⟨-, hnull, hm, -⟩
    cases hmember hnull hm
  | false =>
    rw [hfalse, (checks_resolveString name index).raises_iff]
    constructor
    · rintro ⟨hu, habsent⟩
      rcases hset rfl with ⟨hnull, hm⟩ | hpresent
      · exact ⟨hu, hnull, hm, habsent⟩
      · exact absurd habsent hpresent
    · rintro ⟨hu, -, -, habsent⟩
      exact ⟨hu, habsent⟩

theorem not_raises_setString (name value : String) (index : UInt32) :
    ¬RaisesUnsupported (runShell host n d (Shell.setString name value index) s) := by
  rintro ⟨what, t, hrun⟩
  rw [Shell.setString, runShell_bind, runShell_perform] at hrun
  rcases bind_cases hrun with ⟨_, s₁, -, hpure⟩ | ⟨e, hwrite, he⟩
  · cases hpure
  · cases he
    rw [performOp, reads_bind_apply] at hwrite
    unfold writing at hwrite
    rw [reads_bind_apply] at hwrite
    rcases bind_cases hwrite with ⟨_, s₃, -, hlog⟩ | ⟨e, hset, he⟩
    · cases hlog
    · cases he
      obtain ⟨t', hset, -⟩ := onStore_cases hset
      obtain ⟨⟨what', hreadonly⟩, -⟩ := setValue_error_cases hset
      cases hreadonly

/-- What a lookup raises on. -/
theorem raises_iff (l : Lookup α) :
    RaisesUnsupported (runShell host n d l.action s) ↔ s.nounset = true ∧ l.Looked s := by
  cases l with
  | value name index => exact (checks_resolveString name index).raises_iff
  | elements name => exact (checks_getAllElementsIFSJoined name).raises_iff
  | count =>
    exact (checks_andThen (checks_reading "*" _) fun _ => checks_pure _).raises_iff
  | status => exact iff_of_false (not_raises_of_ok rfl) And.right
  | lastJob => exact iff_of_false (not_raises_of_ok rfl) And.right
  | useDefault orNull name index word =>
    exact raises_unsetTest (not_raises_of_ok rfl) rfl
  | assignDefault orNull name index word =>
    exact raises_unsetTest (not_raises_setString name word index) rfl
  | useAlternate orNull name index word =>
    obtain ⟨cond, hrun, -⟩ := @checks_unsetTest host n d s orNull name index
    have hends : runShell host n d (useAlternate orNull name index word).action s =
        some (.ok (if cond then "" else word), s) := by
      show (runShell host n d (Shell.unsetTest orNull name index) >>= _) s = _
      rw [bind_of_ok hrun]
      rfl
    exact iff_of_false (not_raises_of_ok hends) And.right
  | subarray name offset length =>
    exact raises_checkLength fun size => checks_getSubarray name offset size
  | substring name index offset length =>
    exact raises_checkLength fun size => checks_getSubstring name _ size index
  | lengthOf name index =>
    exact (checks_andThen (checks_reading name _) fun _ => checks_pure _).raises_iff
  | arraySize name =>
    exact (checks_andThen (checks_reading name _) fun _ => checks_pure _).raises_iff
  | replace name index replacer =>
    by_cases hindex : index.toInt32 < 0
    · simp only [action, Looked, if_pos hindex]
      exact (checks_replaceAll name replacer).raises_iff
    · simp only [action, Looked, if_neg hindex]
      exact (checks_andThen (checks_resolveString name index) fun _ => checks_pure _).raises_iff
  | replaceAll name replacer => exact (checks_replaceAll name replacer).raises_iff
  | named p => exact iff_of_false (not_raises_of_ok rfl) And.right
  | indirectNum digits =>
    exact (checks_andThen (checks_resolveString digits 0) fun _ => checks_pure _).raises_iff
  | indirectName name =>
    exact (checks_andThen (checks_resolveString name 0) fun _ => checks_pure _).raises_iff
  | indirectPound =>
    exact (checks_andThen (checks_reading "*" _) fun _ => checks_pure _).raises_iff
  | append name => exact (checks_appendIndex name).raises_iff
  | splitting word =>
    exact (checks_andThen (checks_resolveString "IFS" 0) fun _ => checks_pure _).raises_iff
  | joining => exact checks_joiner.raises_iff
  | positionals =>
    exact (checks_andThen (checks_resolveArray "*") fun _ => checks_pure _).raises_iff
  | internal name => exact (checks_resolveString name 0).raises_iff

end Raises

end Lookup

/-! ## Expansions -/

section Sites

variable (host : Host)

/-- `var_name`, up to the name it looks up. -/
def ParameterName.lookup : ParameterName → Shell (Lookup (String × UInt32))
  | .num digits => do
    let index ← Shell.lexicalCastUnsigned digits
    pure (.named (Shell.numberedName index))
  | .name n => do
    let p ← Shell.nameRule host n
    pure (.named p)
  | .indirectNum digits => pure (.indirectNum digits)
  | .indirectName n => do
    let p ← Shell.nameRule host n
    pure (.indirectName p.1)
  | .indirectPound => pure .indirectPound
  | .minus => pure (.named ("-", 0))

/-- `var_expansion`, up to the lookup. -/
def VarExpansion.lookup : VarExpansion → Shell (Lookup String)
  | .useDefault orNull n w => do
    let p ← Shell.varName host n
    let word ← Shell.rawString w
    pure (.useDefault orNull p.1 p.2 word)
  | .assignDefault orNull n w => do
    let p ← Shell.varName host n
    let word ← Shell.rawString w
    pure (.assignDefault orNull p.1 p.2 word)
  | .useAlternate orNull n w => do
    let p ← Shell.varName host n
    let word ← Shell.rawString w
    pure (.useAlternate orNull p.1 p.2 word)
  | .subarray n offset => do
    let name ← Shell.arrayName host n
    let offset ← Shell.arithmetics host offset
    pure (.subarray name offset none)
  | .subarrayLength n offset size => do
    let name ← Shell.arrayName host n
    let offset ← Shell.arithmetics host offset
    let size ← Shell.arithmetics host size
    pure (.subarray name offset (some size))
  | .substring n offset => do
    let p ← Shell.varName host n
    let offset ← Shell.arithmetics host offset
    pure (.substring p.1 p.2 offset none)
  | .substringLength n offset size => do
    let p ← Shell.varName host n
    let offset ← Shell.arithmetics host offset
    let size ← Shell.arithmetics host size
    pure (.substring p.1 p.2 offset (some size))
  | .length n => do
    let p ← Shell.varName host n
    pure (.lengthOf p.1 p.2)
  | .arraySize libbashName => pure (.arraySize libbashName.text)
  | .replace kind (.var n) pattern w => do
    let p ← Shell.varName host n
    let regex ← Shell.bashPattern host none pattern
    let word ← replacement w
    pure (.replace p.1 p.2 (host.replace kind regex word))
  | .replace kind (.array n) pattern w => do
    let name ← Shell.arrayName host n
    let regex ← Shell.bashPattern host none pattern
    let word ← replacement w
    pure (.replaceAll name (host.replace kind regex word))
where
  /-- The text that replaces a match. -/
  replacement : Option RawString → Shell String
    | none => pure ""
    | some w => Shell.rawString w

/-- `var_ref`, up to the lookup. -/
def VarRef.lookup : VarRef → Shell (Lookup String)
  | .var n => do
    let p ← Shell.varName host n
    pure (.value p.1 p.2)
  | .array n => do
    let name ← Shell.arrayName host n
    pure (.elements name)
  | .pound => pure .count
  | .qmark => pure .status
  | .bang => pure .lastJob
  | .expansion e => e.lookup host

/-- The places where a parameter is expanded, and those where the interpreter
looks one up for itself. -/
inductive Site : Type → Type where
  | varRef (r : VarRef) : Site String
  /-- The name of a parameter, which may be indirect. -/
  | varName (n : ParameterName) : Site (String × UInt32)
  | appendIndex (name : String) : Site UInt32
  | splitWord (word : String) : Site (List String)
  | joiner : Site String
  | positional : Site (List String)
  | internal (name : String) : Site String

/-- What runs at the place. -/
def Site.program : {α : Type} → Site α → Shell α
  | _, .varRef r => Shell.varRef host r
  | _, .varName n => Shell.varName host n
  | _, .appendIndex name => Shell.appendIndex name
  | _, .splitWord word => Shell.splitWord word
  | _, .joiner => Shell.joiner
  | _, .positional => Shell.positional
  | _, .internal name => Shell.resolveString name 0

/-- The operands. -/
def Site.lookup : {α : Type} → Site α → Shell (Lookup α)
  | _, .varRef r => r.lookup host
  | _, .varName n => n.lookup host
  | _, .appendIndex name => pure (.append name)
  | _, .splitWord word => pure (.splitting word)
  | _, .joiner => pure .joining
  | _, .positional => pure .positionals
  | _, .internal name => pure (.internal name)

end Sites

section Sites

variable {host : Host} {n d : Nat} {α β γ : Type}

theorem run_varName (p : ParameterName) :
    runShell host n d (Shell.varName host p) =
      runShell host n d (p.lookup host >>= Lookup.action) := by
  cases p with
  | num digits =>
    rw [Shell.varName, ParameterName.lookup]
    simp only [runShell_bind, bind_assoc]
    rfl
  | name n =>
    rw [Shell.varName, ParameterName.lookup]
    simp only [runShell_bind, bind_assoc]
    exact (bind_pure _).symm
  | indirectNum digits =>
    rw [Shell.varName, ParameterName.lookup]
    rfl
  | indirectName n =>
    rw [Shell.varName, ParameterName.lookup]
    simp only [runShell_bind, bind_assoc]
    rfl
  | indirectPound =>
    rw [Shell.varName, ParameterName.lookup]
    rfl
  | minus =>
    rw [Shell.varName, ParameterName.lookup]
    rfl

theorem run_varExpansion (e : VarExpansion) :
    runShell host n d (Shell.varExpansion host e) =
      runShell host n d (e.lookup host >>= Lookup.action) := by
  cases e with
  | useDefault orNull n w =>
    rw [Shell.varExpansion, VarExpansion.lookup]
    simp only [runShell_bind, bind_assoc]
    rfl
  | assignDefault orNull n w =>
    rw [Shell.varExpansion, VarExpansion.lookup]
    simp only [runShell_bind, bind_assoc]
    rfl
  | useAlternate orNull n w =>
    rw [Shell.varExpansion, VarExpansion.lookup]
    simp only [runShell_bind, bind_assoc]
    rfl
  | subarray n offset =>
    rw [Shell.varExpansion, VarExpansion.lookup]
    simp only [runShell_bind, bind_assoc]
    rfl
  | subarrayLength n offset size =>
    rw [Shell.varExpansion, VarExpansion.lookup]
    simp only [runShell_bind, runShell_pure, bind_assoc, pure_bind, Lookup.action,
      Lookup.checkLength]
  | substring n offset =>
    rw [Shell.varExpansion, VarExpansion.lookup]
    simp only [runShell_bind, bind_assoc]
    rfl
  | substringLength n offset size =>
    rw [Shell.varExpansion, VarExpansion.lookup]
    simp only [runShell_bind, runShell_pure, bind_assoc, pure_bind, Lookup.action,
      Lookup.checkLength]
  | length n =>
    rw [Shell.varExpansion, VarExpansion.lookup]
    simp only [runShell_bind, bind_assoc]
    rfl
  | arraySize libbashName =>
    rw [Shell.varExpansion, VarExpansion.lookup]
    rfl
  | replace kind n pattern w =>
    cases n with
    | var n =>
      cases w with
      | none =>
        rw [Shell.varExpansion, VarExpansion.lookup, Shell.varOrArrayName]
        simp only [runShell_bind, bind_assoc]
        rfl
      | some w =>
        rw [Shell.varExpansion, VarExpansion.lookup, Shell.varOrArrayName]
        simp only [runShell_bind, bind_assoc]
        rfl
    | array n =>
      cases w with
      | none =>
        rw [Shell.varExpansion, VarExpansion.lookup, Shell.varOrArrayName]
        simp only [runShell_bind, bind_assoc]
        rfl
      | some w =>
        rw [Shell.varExpansion, VarExpansion.lookup, Shell.varOrArrayName]
        simp only [runShell_bind, bind_assoc]
        rfl

theorem run_varRef (r : VarRef) :
    runShell host n d (Shell.varRef host r) =
      runShell host n d (r.lookup host >>= Lookup.action) := by
  cases r with
  | var p =>
    rw [Shell.varRef, VarRef.lookup]
    simp only [runShell_bind, bind_assoc]
    rfl
  | array a =>
    rw [Shell.varRef, VarRef.lookup]
    simp only [runShell_bind, bind_assoc]
    rfl
  | pound =>
    rw [Shell.varRef, VarRef.lookup]
    rfl
  | qmark =>
    rw [Shell.varRef, VarRef.lookup]
    rfl
  | bang =>
    rw [Shell.varRef, VarRef.lookup]
    rfl
  | expansion e =>
    rw [Shell.varRef]
    exact run_varExpansion e

/-- Every place evaluates its operands and then makes its lookup. -/
theorem run_program (site : Site α) :
    runShell host n d (site.program host) =
      runShell host n d (site.lookup host >>= Lookup.action) := by
  cases site with
  | varRef r => exact run_varRef r
  | varName p => exact run_varName p
  | appendIndex name => rfl
  | splitWord word => rfl
  | joiner => rfl
  | positional => rfl
  | internal name => rfl

end Sites

/-! ## The property -/

section Nounset

variable (host : Host) (n d : Nat) {α : Type}

/-- When the operands have been evaluated, the place raises exactly if the option
`u` is on and what it names is unset. -/
def FollowsNounset (site : Site α) (s : Interpreter) : Prop :=
  ∀ l t, runShell host n d (site.lookup host) s = some (.ok l, t) →
    (RaisesUnsupported (runShell host n d (site.program host) s) ↔
      t.nounset = true ∧ l.Unset t)

/-- For every place, every lookup that its operands lead to, and every state. -/
theorem followsNounset_iff (site : Site α) (s : Interpreter) :
    FollowsNounset host n d site s ↔
      ∀ l t, runShell host n d (site.lookup host) s = some (.ok l, t) →
        t.nounset = true → l.Sound t := by
  refine forall_congr' fun l => forall_congr' fun t => imp_congr_right fun hoperands => ?_
  have hraises : RaisesUnsupported (runShell host n d (site.program host) s) ↔
      t.nounset = true ∧ l.Looked t := by
    rw [run_program, runShell_bind, bind_of_ok hoperands]
    exact l.raises_iff
  rw [hraises, and_congr_right_iff]
  exact imp_congr_right fun _ => l.sound_iff t

end Nounset

/-- A new interpreter after `set -u`. -/
def nounsetInterpreter : Interpreter :=
  { Interpreter.initial [] with options := initialOptions.set 'u' true }

/-- `set -u; echo $#`. -/
theorem not_followsNounset_pound :
    ¬FollowsNounset (.ofTexts [] []) 0 0 (.varRef .pound) nounsetInterpreter := by
  intro h
  have hmissing : nounsetInterpreter.store.resolveVariable "*" = none := by decide +kernel
  have hnounset : nounsetInterpreter.nounset = true := by decide +kernel
  have hraises : RaisesUnsupported (runShell (.ofTexts [] []) 0 0
      ((Site.varRef .pound).program (.ofTexts [] [])) nounsetInterpreter) := by
    have hcount : RaisesUnsupported (runShell (.ofTexts [] []) 0 0 Lookup.count.action
        nounsetInterpreter) := (Lookup.raises_iff .count).mpr ⟨hnounset, hmissing⟩
    rw [run_program]
    exact hcount
  obtain ⟨-, hunset⟩ := (h .count nounsetInterpreter rfl).mp hraises
  exact hunset

end Libbash
