import Libbash.Interp.Functions

/-!
# Expansions and the status

The rules below the command level run no command of the tree they belong to: the
only way in which they start one is a command substitution, which constructs a
script. So the status that is there before words are expanded, an expression is
evaluated or variables are defined is there afterwards, unless a script has been
constructed in between.

* **`BelowCommands`** — the operations that no rule of a command performs on its
  own behalf, and the mutual induction over the rules that says so;
* **`StatusKept`** — what every program of such operations keeps.
-/

namespace Libbash

open Lib Lib.Comp Lib.Program

/-- None of them sets the status or walks a tree that has been there. -/
def Op.BelowCommands : {α : Type} → Op α → Prop
  | _, .resolveVariable _ | _, .isUnset _ | _, .setValue _ _ _ | _, .define _ _ _
  | _, .defineLocal _ _ _ | _, .getStatus | _, .getOption _ | _, .getAdditionalOption _
  | _, .writeError _ | _, .captured | _, .interpretScript _ _ | _, .interpretWord _ _
  | _, .interpretArithmetics _ | _, .tick => True
  | _, _ => False

/-- Those of the rules for words, which define no variables. -/
def Op.InWords : {α : Type} → Op α → Prop
  | _, .resolveVariable _ | _, .isUnset _ | _, .setValue _ _ _ | _, .getStatus | _, .getOption _
  | _, .getAdditionalOption _ | _, .writeError _ | _, .captured | _, .interpretScript _ _
  | _, .interpretWord _ _ | _, .interpretArithmetics _ | _, .tick => True
  | _, _ => False

theorem below_of_inWords {α : Type} {p : Shell α} (hp : p.Uses Op.InWords) :
    p.Uses Op.BelowCommands :=
  hp.mono fun o ho => by cases o <;> first | exact trivial | exact ho.elim

/-! ## The rules -/

namespace Shell

section Reading

theorem isValid_inWords (var : Option Variable) (name : String) :
    (isValid var name).Uses Op.InWords := by
  cases var with
  | some v => exact uses_pure _
  | none =>
    refine uses_bind (uses_perform trivial) fun on => ?_
    exact uses_ite (uses_throw _) (uses_pure _)

theorem resolve_inWords {α : Type} (get : Variable → UInt32 → α) (default : α) (name : String)
    (index : UInt32) : (resolve get default name index).Uses Op.InWords := by
  refine uses_bind (uses_perform trivial) fun var => ?_
  cases var with
  | none => exact uses_bind (isValid_inWords _ _) fun _ => uses_pure _
  | some v =>
    refine uses_bind (uses_perform trivial) fun on => ?_
    exact uses_ite (uses_throw _) (uses_pure _)

theorem resolveString_inWords (name : String) (index : UInt32) :
    (resolveString name index).Uses Op.InWords := resolve_inWords _ _ _ _

theorem resolveLong_inWords (name : String) (index : UInt32) :
    (resolveLong name index).Uses Op.InWords := resolve_inWords _ _ _ _

/-- The functions that look a variable up, check it and read it. -/
theorem reading_inWords {α : Type} (name : String) (k : Option Variable → α) :
    (do
      let var ← perform (.resolveVariable name)
      let _ ← isValid var name
      pure (k var) : Shell α).Uses Op.InWords :=
  uses_bind (uses_perform trivial) fun var =>
    uses_bind (isValid_inWords var name) fun _ => uses_pure _

theorem resolveArray_inWords (name : String) : (resolveArray name).Uses Op.InWords :=
  reading_inWords name _

theorem getArrayLength_inWords (name : String) : (getArrayLength name).Uses Op.InWords :=
  reading_inWords name _

theorem getLength_inWords (name : String) (index : UInt32) :
    (getLength name index).Uses Op.InWords := reading_inWords name _

theorem getMaxIndex_inWords (name : String) : (getMaxIndex name).Uses Op.InWords :=
  reading_inWords name _

theorem joiner_inWords : joiner.Uses Op.InWords :=
  uses_bind (resolveString_inWords _ _) fun _ => uses_pure _

theorem getAllElementsIFSJoined_inWords (name : String) :
    (getAllElementsIFSJoined name).Uses Op.InWords :=
  uses_bind joiner_inWords fun _ => uses_bind (resolveArray_inWords name) fun _ => uses_pure _

theorem splitWord_inWords (word : String) : (splitWord word).Uses Op.InWords :=
  uses_bind (resolveString_inWords _ _) fun _ => uses_pure _

theorem unsetTest_inWords (orNull : Bool) (name : String) (index : UInt32) :
    (unsetTest orNull name index).Uses Op.InWords := by
  refine uses_ite ?_ (uses_perform trivial)
  exact uses_bind (uses_perform trivial) fun _ => uses_pure _

end Reading

section Parts

theorem rawString_inWords (w : RawString) : (rawString w).Uses Op.InWords := by
  cases w with
  | none => exact uses_pure _
  | some text => exact uses_perform trivial

theorem commandSubstitution_inWords (subscript : String) :
    (commandSubstitution subscript).Uses Op.InWords := by
  refine uses_within (uses_bind (uses_perform trivial) fun _ => ?_)
  exact uses_bind (uses_perform trivial) fun _ => uses_pure _

theorem setIndex_inWords (name : String) (value : Int64) :
    (setIndex name value).Uses Op.InWords := uses_ite (uses_throw _) (uses_pure _)

theorem lexicalCastUnsigned_inWords (digits : String) :
    (lexicalCastUnsigned digits).Uses Op.InWords := by
  unfold lexicalCastUnsigned
  split
  · exact uses_pure _
  · exact uses_throw _

theorem setString_inWords (name value : String) (index : UInt32) :
    (setString name value index).Uses Op.InWords :=
  uses_bind (uses_perform trivial) fun _ => uses_pure _

theorem setNumber_inWords (name : String) (value : Int64) (index : UInt32) :
    (setNumber name value index).Uses Op.InWords :=
  uses_bind (uses_perform trivial) fun _ => uses_pure _

theorem defaultExpansion_inWords (orNull : Bool) (p : String × UInt32) (word : String) :
    (defaultExpansion orNull p word).Uses Op.InWords :=
  uses_bind (unsetTest_inWords orNull _ _) fun _ =>
    uses_ite (uses_pure _) (resolveString_inWords _ _)

theorem assignExpansion_inWords (orNull : Bool) (p : String × UInt32) (word : String) :
    (assignExpansion orNull p word).Uses Op.InWords :=
  uses_bind (unsetTest_inWords orNull _ _) fun _ =>
    uses_ite (setString_inWords _ _ _) (resolveString_inWords _ _)

theorem alternateExpansion_inWords (orNull : Bool) (p : String × UInt32) (word : String) :
    (alternateExpansion orNull p word).Uses Op.InWords :=
  uses_bind (unsetTest_inWords orNull _ _) fun _ => uses_pure _

theorem getSubstring_inWords (name : String) (offset : Int) (length : Option Nat) (index : UInt32) :
    (getSubstring name offset length index).Uses Op.InWords := by
  refine uses_bind (resolveString_inWords _ _) fun value => ?_
  split
  · exact uses_pure _
  · exact uses_pure _

theorem subarrayStart_inWords (name : String) (offset : Int) :
    (subarrayStart name offset).Uses Op.InWords := by
  unfold subarrayStart
  split_ifs
  · exact uses_pure _
  · exact uses_bind (resolveString_inWords _ _) fun _ => uses_pure _
  · exact uses_pure _
  · exact uses_pure _

theorem getSubarray_inWords (name : String) (offset : Int) (length : Option Nat) :
    (getSubarray name offset length).Uses Op.InWords := by
  refine uses_bind (subarrayStart_inWords name offset) fun start => ?_
  refine uses_bind (resolveArray_inWords name) fun values => ?_
  cases values with
  | none => exact uses_pure _
  | some values =>
    dsimp only
    cases getRealOffset start.2 (start.1 ++ values).length with
    | none => exact uses_pure _
    | some from' => exact uses_bind joiner_inWords fun _ => uses_pure _

theorem checkLength_inWords (length : Int64) : (checkLength length).Uses Op.InWords :=
  uses_ite (uses_throw _) (uses_pure _)

theorem replaceExpansion_inWords (name : String) (index : Option UInt32)
    (replacer : String → String) : (replaceExpansion name index replacer).Uses Op.InWords := by
  cases index with
  | some index => exact uses_bind (resolveString_inWords _ _) fun _ => uses_pure _
  | none =>
    exact uses_bind (resolveArray_inWords _) fun _ => uses_bind joiner_inWords fun _ => uses_pure _

theorem primaryValue_inWords (p : String × UInt32) : (primaryValue p).Uses Op.InWords :=
  uses_bind (resolveString_inWords _ _) fun _ => uses_ite (uses_pure _) (uses_perform trivial)

theorem countVariable_inWords (op : CountOp) (p : String × UInt32) :
    (countVariable op p).Uses Op.InWords := by
  refine uses_bind (resolveString_inWords _ _) fun value => ?_
  refine uses_ite ?_ (uses_ite (uses_pure _) (uses_perform trivial))
  exact uses_bind (resolveLong_inWords _ _) fun _ =>
    uses_bind (setNumber_inWords _ _ _) fun _ => uses_pure _

theorem binaryAct_inWords (op : Arith.BinaryOp) (l r : Int64) :
    (binaryAct op l r).Uses Op.InWords := by
  unfold binaryAct
  split
  · exact uses_pure _
  · exact uses_throw _

theorem updateVariable_inWords (op : Arith.AssignOp) (p : String × UInt32) (l : Int64) :
    (updateVariable op p l).Uses Op.InWords :=
  uses_bind (resolveLong_inWords _ _) fun _ =>
    uses_bind (binaryAct_inWords _ _ _) fun _ => setNumber_inWords _ _ _

theorem castLong_inWords (text : String) : (castLong text).Uses Op.InWords := by
  unfold castLong
  split
  · exact uses_pure _
  · exact uses_throw _

theorem checkExtended_inWords (kind : ExtendedMatch) :
    (checkExtended kind).Uses Op.InWords :=
  uses_bind (uses_perform trivial) fun _ =>
    uses_ite (uses_ite (uses_throw _) (uses_pure _)) (uses_throw _)

theorem finish_inWords (s : StringState) : s.finish.Uses Op.InWords :=
  uses_ite (uses_throw _) (uses_pure _)

theorem bracket_inWords (host : Host) (text : String) :
    (host.bracket text).Uses Op.InWords := by
  unfold Host.bracket
  split
  · exact uses_pure _
  · exact uses_throw _

end Parts

section Rules

variable (host : Host)

mutual

theorem stringExpr_inWords (w : Word) : (stringExpr host w).Uses Op.InWords := by
  cases w with
  | string parts =>
    rw [stringExpr]
    exact uses_bind (wordParts_inWords {} parts) fun s => finish_inWords s

theorem wordParts_inWords (s : StringState) (ps : List WordPart) :
    (wordParts host s ps).Uses Op.InWords := by
  cases ps with
  | nil =>
    rw [wordParts]
    exact uses_pure _
  | cons p ps =>
    cases p with
    | part p =>
      rw [wordParts]
      exact uses_bind (stringPart_inWords p) fun _ => wordParts_inWords _ ps
    | brace elements =>
      rw [wordParts]
      exact uses_bind (braceExpansion_inWords elements) fun _ => wordParts_inWords _ ps

theorem braceExpansion_inWords (ws : List Word) :
    (braceExpansion host ws).Uses Op.InWords := by
  cases ws with
  | nil =>
    rw [braceExpansion]
    exact uses_pure _
  | cons w ws =>
    rw [braceExpansion]
    exact uses_bind (stringExpr_inWords w) fun _ =>
      uses_bind (braceExpansion_inWords ws) fun _ => uses_pure _

theorem stringPart_inWords (p : StringPart) : (stringPart host p).Uses Op.InWords := by
  cases p with
  | doubleQuoted parts =>
    rw [stringPart]
    exact quotedParts_inWords _ parts
  | singleQuoted text =>
    rw [stringPart]
    exact uses_pure _
  | arith e =>
    rw [stringPart]
    exact uses_bind (arithmetics_inWords e) fun _ => uses_pure _
  | varRef r =>
    rw [stringPart]
    exact uses_bind (varRef_inWords r) fun _ => uses_pure _
  | commandSub subscript =>
    rw [stringPart]
    exact uses_bind (commandSubstitution_inWords subscript) fun _ => uses_pure _
  | ansiC text =>
    rw [stringPart]
    exact uses_ite (uses_throw _) (uses_pure _)
  | escaped text =>
    rw [stringPart]
    exact uses_pure _
  | text text =>
    rw [stringPart]
    exact uses_pure _

theorem quotedParts_inWords (v : PartValue) (ps : List QuotedPart) :
    (quotedParts host v ps).Uses Op.InWords := by
  cases ps with
  | nil =>
    rw [quotedParts]
    exact uses_pure _
  | cons p ps =>
    rw [quotedParts]
    exact uses_bind (doubleQuotedString_inWords p) fun _ => quotedParts_inWords _ ps

theorem doubleQuotedString_inWords (p : QuotedPart) :
    (doubleQuotedString host p).Uses Op.InWords := by
  cases p with
  | varRef r =>
    rw [doubleQuotedString]
    exact varRef_inWords r
  | arith e =>
    rw [doubleQuotedString]
    exact uses_bind (arithmetics_inWords e) fun _ => uses_pure _
  | commandSub subscript =>
    rw [doubleQuotedString]
    exact commandSubstitution_inWords subscript
  | text text =>
    rw [doubleQuotedString]
    exact uses_pure _

theorem varRef_inWords (r : VarRef) : (varRef host r).Uses Op.InWords := by
  cases r with
  | var n =>
    rw [varRef]
    exact uses_bind (varName_inWords n) fun _ => resolveString_inWords _ _
  | array n =>
    rw [varRef]
    exact uses_bind (arrayName_inWords n) fun _ => getAllElementsIFSJoined_inWords _
  | pound =>
    rw [varRef]
    exact uses_bind (getArrayLength_inWords _) fun _ => uses_pure _
  | qmark =>
    rw [varRef]
    exact uses_bind (uses_perform trivial) fun _ => uses_pure _
  | bang =>
    rw [varRef]
    exact uses_bind (uses_perform trivial) fun _ => uses_pure _
  | expansion e =>
    rw [varRef]
    exact varExpansion_inWords e

theorem varName_inWords (n : ParameterName) : (varName host n).Uses Op.InWords := by
  cases n with
  | num digits =>
    rw [varName]
    exact uses_bind (lexicalCastUnsigned_inWords digits) fun _ => uses_pure _
  | name n =>
    rw [varName]
    exact nameRule_inWords n
  | indirectNum digits =>
    rw [varName]
    exact uses_bind (resolveString_inWords _ _) fun _ => uses_pure _
  | indirectName n =>
    rw [varName]
    exact uses_bind (nameRule_inWords n) fun _ =>
      uses_bind (resolveString_inWords _ _) fun _ => uses_pure _
  | indirectPound =>
    rw [varName]
    exact uses_bind (getArrayLength_inWords _) fun _ => uses_pure _
  | minus =>
    rw [varName]
    exact uses_pure _

theorem nameRule_inWords (n : Name) : (nameRule host n).Uses Op.InWords := by
  cases n with
  | base libbashName =>
    rw [nameRule]
    exact uses_pure _
  | element libbashName e =>
    rw [nameRule]
    exact uses_bind (arithmetics_inWords e) fun _ =>
      uses_bind (setIndex_inWords _ _) fun _ => uses_pure _

theorem arrayName_inWords (n : ArrayName) : (arrayName host n).Uses Op.InWords := by
  cases n with
  | array n =>
    rw [arrayName]
    exact uses_bind (nameRule_inWords n) fun _ => uses_pure _
  | times =>
    rw [arrayName]
    exact uses_pure _
  | «at» =>
    rw [arrayName]
    exact uses_pure _

theorem varOrArrayName_inWords (n : VarOrArrayName) :
    (varOrArrayName host n).Uses Op.InWords := by
  cases n with
  | array n =>
    rw [varOrArrayName]
    exact uses_bind (arrayName_inWords n) fun _ => uses_pure _
  | var n =>
    rw [varOrArrayName]
    exact uses_bind (varName_inWords n) fun _ => uses_pure _

theorem varExpansion_inWords (e : VarExpansion) : (varExpansion host e).Uses Op.InWords := by
  cases e with
  | useDefault orNull n w =>
    rw [varExpansion]
    exact uses_bind (varName_inWords n) fun _ =>
      uses_bind (rawString_inWords w) fun _ => defaultExpansion_inWords _ _ _
  | assignDefault orNull n w =>
    rw [varExpansion]
    exact uses_bind (varName_inWords n) fun _ =>
      uses_bind (rawString_inWords w) fun _ => assignExpansion_inWords _ _ _
  | useAlternate orNull n w =>
    rw [varExpansion]
    exact uses_bind (varName_inWords n) fun _ =>
      uses_bind (rawString_inWords w) fun _ => alternateExpansion_inWords _ _ _
  | subarray n offset =>
    rw [varExpansion]
    exact uses_bind (arrayName_inWords n) fun _ =>
      uses_bind (arithmetics_inWords offset) fun _ => getSubarray_inWords _ _ _
  | subarrayLength n offset length =>
    rw [varExpansion]
    refine uses_bind (arrayName_inWords n) fun _ => ?_
    refine uses_bind (arithmetics_inWords offset) fun _ => ?_
    exact uses_bind (arithmetics_inWords length) fun _ =>
      uses_bind (checkLength_inWords _) fun _ => getSubarray_inWords _ _ _
  | substring n offset =>
    rw [varExpansion]
    exact uses_bind (varName_inWords n) fun _ =>
      uses_bind (arithmetics_inWords offset) fun _ => getSubstring_inWords _ _ _ _
  | substringLength n offset length =>
    rw [varExpansion]
    refine uses_bind (varName_inWords n) fun _ => uses_bind (arithmetics_inWords offset) fun _ => ?_
    exact uses_bind (arithmetics_inWords length) fun _ =>
      uses_bind (checkLength_inWords _) fun _ => getSubstring_inWords _ _ _ _
  | length n =>
    rw [varExpansion]
    exact uses_bind (varName_inWords n) fun _ =>
      uses_bind (getLength_inWords _ _) fun _ => uses_pure _
  | arraySize libbashName =>
    rw [varExpansion]
    exact uses_bind (getArrayLength_inWords _) fun _ => uses_pure _
  | replace kind n pattern w =>
    cases w with
    | none =>
      rw [varExpansion]
      exact uses_bind (varOrArrayName_inWords n) fun _ =>
        uses_bind (bashPattern_inWords none pattern) fun _ => replaceExpansion_inWords _ _ _
    | some w =>
      rw [varExpansion]
      refine uses_bind (varOrArrayName_inWords n) fun _ => ?_
      exact uses_bind (bashPattern_inWords none pattern) fun _ =>
        uses_bind (rawString_inWords w) fun _ => replaceExpansion_inWords _ _ _

theorem bashPattern_inWords (inside : Option String) (ts : List PatternToken) :
    (bashPattern host inside ts).Uses Op.InWords := by
  cases ts with
  | nil =>
    rw [bashPattern]
    exact uses_pure _
  | cons t ts =>
    cases t with
    | matchAll =>
      rw [bashPattern]
      exact uses_bind (bashPattern_inWords inside ts) fun _ => uses_pure _
    | matchOne =>
      rw [bashPattern]
      exact uses_bind (bashPattern_inWords inside ts) fun _ => uses_pure _
    | openBracket negation =>
      rw [bashPattern]
      exact bashPattern_inWords _ ts
    | characterClass name =>
      rw [bashPattern]
      exact bashPattern_inWords _ ts
    | closeBracket =>
      rw [bashPattern]
      exact uses_bind (bracket_inWords host _) fun _ =>
        uses_bind (bashPattern_inWords none ts) fun _ => uses_pure _
    | openExtended kind =>
      rw [bashPattern]
      exact uses_bind (bashPattern_inWords inside ts) fun _ => uses_pure _
    | closeExtended kind =>
      rw [bashPattern]
      exact uses_bind (checkExtended_inWords kind) fun _ =>
        uses_bind (bashPattern_inWords inside ts) fun _ => uses_pure _
    | branch =>
      rw [bashPattern]
      exact uses_bind (bashPattern_inWords inside ts) fun _ => uses_pure _
    | part p =>
      rw [bashPattern]
      refine uses_bind (stringPart_inWords p) fun v => ?_
      cases inside with
      | some text => exact bashPattern_inWords _ ts
      | none => exact uses_bind (bashPattern_inWords none ts) fun _ => uses_pure _

theorem arithmetics_inWords (e : ArithExpr) : (arithmetics host e).Uses Op.InWords := by
  cases e with
  | parts ps =>
    rw [arithmetics]
    exact arithmeticParts_inWords 0 ps
  | missing =>
    rw [arithmetics]
    exact uses_throw _
  | num text =>
    rw [arithmetics]
    exact uses_pure _
  | unary op l =>
    rw [arithmetics]
    exact uses_bind (arithmetics_inWords l) fun _ => uses_pure _
  | binary op l r =>
    rw [arithmetics]
    exact uses_bind (arithmetics_inWords l) fun _ =>
      uses_bind (arithmetics_inWords r) fun _ => binaryAct_inWords _ _ _
  | logic op l r =>
    rw [arithmetics]
    refine uses_bind (arithmetics_inWords l) fun _ => uses_ite ?_ ?_
    · exact uses_ite (uses_pure _) (uses_throw _)
    · exact uses_bind (arithmetics_inWords r) fun _ => uses_pure _
  | condition cnd l r =>
    rw [arithmetics]
    refine uses_bind (arithmetics_inWords cnd) fun _ => ?_
    refine uses_bind (arithmetics_inWords l) fun _ => ?_
    exact uses_bind (arithmetics_inWords r) fun _ => uses_pure _
  | primary p =>
    rw [arithmetics]
    exact uses_bind (primary_inWords p) fun _ => primaryValue_inWords _
  | count op p =>
    rw [arithmetics]
    exact uses_bind (primary_inWords p) fun _ => countVariable_inWords _ _
  | equals p l =>
    rw [arithmetics]
    exact uses_bind (primary_inWords p) fun _ =>
      uses_bind (arithmetics_inWords l) fun _ => setNumber_inWords _ _ _
  | assign op p l =>
    rw [arithmetics]
    exact uses_bind (primary_inWords p) fun _ =>
      uses_bind (arithmetics_inWords l) fun _ => updateVariable_inWords _ _ _
  | expression l =>
    rw [arithmetics]
    exact arithmetics_inWords l
  | expansion e =>
    rw [arithmetics]
    exact uses_bind (varExpansion_inWords e) fun _ => castLong_inWords _

theorem arithmeticParts_inWords (value : Int64) (es : List ArithExpr) :
    (arithmeticParts host value es).Uses Op.InWords := by
  cases es with
  | nil =>
    rw [arithmeticParts]
    exact uses_pure _
  | cons e es =>
    rw [arithmeticParts]
    exact uses_bind (arithmetics_inWords e) fun _ => arithmeticParts_inWords _ es

theorem primary_inWords (p : Primary) : (primary host p).Uses Op.InWords := by
  cases p with
  | name n =>
    rw [primary]
    exact nameRule_inWords n
  | varRef r =>
    rw [primary]
    exact uses_bind (varRef_inWords r) fun _ => uses_pure _

end

/-- The rules of `var_def`. -/
theorem optionalWord_inWords (w : Option Word) : (optionalWord host w).Uses Op.InWords := by
  cases w with
  | none => exact uses_pure _
  | some w => exact uses_bind (stringExpr_inWords host w) fun _ => uses_pure _

theorem arrayDefHelper_inWords (name : String) (es : List ArrayElement) (index : UInt32)
    (values : Std.ExtTreeMap UInt32 String) :
    (arrayDefHelper host name index values es).Uses Op.InWords := by
  induction es generalizing index values with
  | nil => exact uses_pure _
  | cons e es ih =>
    cases e with
    | next w => exact uses_bind (stringExpr_inWords host w) fun _ => ih _ _
    | «at» e w =>
      refine uses_bind (arithmetics_inWords host e) fun _ => ?_
      refine uses_bind (setIndex_inWords _ _) fun _ => ?_
      exact uses_bind (stringExpr_inWords host w) fun _ => ih _ _

theorem appendIndex_inWords (name : String) : (appendIndex name).Uses Op.InWords := by
  refine uses_bind (getMaxIndex_inWords name) fun last => uses_ite ?_ (uses_pure _)
  refine uses_bind (uses_bind (uses_perform trivial) fun _ => uses_pure _) fun null => ?_
  exact uses_ite (uses_pure _) (uses_pure _)

theorem setElements_inWords (name : String) (values : List (UInt32 × String)) :
    (setElements name values).Uses Op.InWords := by
  induction values with
  | nil => exact uses_pure _
  | cons value values ih => exact uses_bind (uses_perform trivial) fun _ => ih

theorem varDef_below (isLocal : Bool) (v : VarDef) :
    (varDef host isLocal v).Uses Op.BelowCommands := by
  cases v with
  | scalar n w =>
    refine uses_bind (below_of_inWords (nameRule_inWords host n)) fun p =>
      uses_bind (below_of_inWords (optionalWord_inWords host w)) fun _ => ?_
    exact uses_ite (uses_perform trivial) (uses_perform trivial)
  | array name elements =>
    refine uses_bind (below_of_inWords (arrayDefHelper_inWords host _ elements _ _)) fun _ => ?_
    exact uses_ite (uses_perform trivial) (uses_perform trivial)
  | append name elements =>
    refine uses_bind (below_of_inWords (appendIndex_inWords _)) fun index => ?_
    refine uses_bind (below_of_inWords (arrayDefHelper_inWords host _ elements _ _)) fun _ => ?_
    exact uses_ite (uses_throw _) (below_of_inWords (setElements_inWords _ _))

theorem varDefs_below (isLocal : Bool) (defs : List VarDef) :
    (varDefs host isLocal defs).Uses Op.BelowCommands := by
  induction defs with
  | nil => exact uses_pure _
  | cons v defs ih => exact uses_bind (varDef_below host isLocal v) fun _ => ih

theorem forWord_inWords (w : Word) : (forWord host w).Uses Op.InWords :=
  uses_bind (stringExpr_inWords host w) fun _ => uses_ite (uses_pure _) (splitWord_inWords _)

theorem caseWord_inWords (w : Word) : (caseWord host w).Uses Op.InWords :=
  uses_bind (stringExpr_inWords host w) fun _ => uses_pure _

theorem matchPattern_inWords (p : List PatternToken) (target : String) :
    (matchPattern host p target).Uses Op.InWords :=
  uses_bind (bashPattern_inWords host none p) fun _ => uses_pure _

end Rules

end Shell

/-! ## The status -/

/-- Between the states a script has been constructed, as a command substitution
does. -/
def Substituted (s s' : Interpreter) : Prop :=
  ∃ i main bodies, s.asts.length ≤ i ∧ s'.asts[i]? = some (.script main bodies)

/-- What programs below the command level keep. -/
structure StatusKept (s s' : Interpreter) : Prop where
  grows : s.asts <+: s'.asts
  status : Substituted s s' ∨ s'.status = s.status

theorem getElem?_of_prefix {α : Type} {xs ys : List α} (h : xs <+: ys) {i : Nat} {a : α}
    (ha : xs[i]? = some a) : ys[i]? = some a := by
  obtain ⟨hlt, rfl⟩ := List.getElem?_eq_some_iff.mp ha
  exact List.prefix_iff_getElem?.mp h i hlt

namespace StatusKept

variable {s s₁ s₂ s' : Interpreter}

theorem refl (s : Interpreter) : StatusKept s s := ⟨List.prefix_rfl, .inr rfl⟩

theorem trans (h₁ : StatusKept s s₁) (h₂ : StatusKept s₁ s₂) : StatusKept s s₂ where
  grows := h₁.grows.trans h₂.grows
  status := by
    rcases h₁.status with ⟨i, main, bodies, hi, hscript⟩ | hkept₁
    · exact .inl ⟨i, main, bodies, hi, getElem?_of_prefix h₂.grows hscript⟩
    · rcases h₂.status with ⟨i, main, bodies, hi, hscript⟩ | hkept₂
      · exact .inl ⟨i, main, bodies, Nat.le_trans h₁.grows.length_le hi, hscript⟩
      · exact .inr (hkept₂.trans hkept₁)

/-- A change of anything but the objects and the status. -/
theorem of_eq (hasts : s'.asts = s.asts) (hstatus : s'.status = s.status) : StatusKept s s' :=
  ⟨hasts ▸ List.prefix_rfl, .inr hstatus⟩

end StatusKept

section Status

variable {host : Host} {re : Reentry} {α : Type}

theorem writing_statusKept {how : Write} {name : String} {level : Store → Nat}
    {m : Comp Exn Store α} : Keeps StatusKept (writing how name level m) := by
  intro s r s' hrun
  unfold writing at hrun
  rw [reads_bind_apply] at hrun
  rcases bind_cases hrun with ⟨a, s₁, hm, hrest⟩ | ⟨e, hm, -⟩
  · obtain ⟨t, -, rfl⟩ := onStore_cases hm
    cases hrest
    exact .of_eq rfl rfl
  · obtain ⟨t, -, rfl⟩ := onStore_cases hm
    exact .of_eq rfl rfl

/-- The rules on words and expressions keep the status. -/
structure Reentry.KeepsStatus (re : Reentry) : Prop where
  stringExpr : ∀ w, Keeps StatusKept (re.stringExpr w)
  arithmetics : ∀ e, Keeps StatusKept (re.arithmetics e)

/-- Walking a tree that is no script. -/
theorem walk_statusKept (hre : re.KeepsStatus) (a : AstId) (rule : WalkerRule α) {t : Tree}
    (ht : ∀ main bodies, t ≠ .script main bodies) : Keeps StatusKept (re.walk a rule t) := by
  cases t with
  | script main bodies => exact absurd rfl (ht main bodies)
  | word w =>
    cases rule with
    | start => exact keeps_throw .refl _
    | stringExpr => exact hre.stringExpr w
    | arithmetics => exact keeps_throw .refl _
  | arithmetic e =>
    cases rule with
    | start => exact keeps_throw .refl _
    | stringExpr => exact keeps_throw .refl _
    | arithmetics => exact hre.arithmetics e

theorem tree_eq_some {s : Interpreter} {a : AstId} {t : Tree} (h : s.tree a = some t) :
    s.asts[a]? = some t := by
  unfold Interpreter.tree at h
  split_ifs at h
  exact h

/-- A tree that is a script is one that has been constructed; another one keeps
the status. -/
theorem interpretTemporary_statusKept (hevolve : re.Evolve) (hre : re.KeepsStatus)
    (rule : ParserRule) (script : String) (walk : WalkerRule α) :
    Keeps StatusKept (interpretTemporary host re rule script walk) := by
  intro s r s' hrun
  rcases bind_cases hrun with ⟨a, s₁, hnew, hrest⟩ | ⟨e, hnew, -⟩
  · rcases constructAst_cases hnew with ⟨t, ha, rfl⟩ | ⟨e, he, -⟩
    · cases ha
      obtain ⟨s₂, hbody, rfl⟩ := bracket_cases hrest
      have hevolves : Evolves false 0 { s with asts := s.asts ++ [t] } s₂ :=
        interpretWith_evolves (walk_evolves hevolve _ walk) _ _ _ hbody
      have hgrows := hevolves.grows.asts
      have hconstructed : s₂.asts[s.asts.length]? = some t :=
        getElem?_of_prefix hgrows List.getElem?_concat_length
      refine ⟨(List.prefix_append _ _).trans hgrows, ?_⟩
      by_cases ht : ∃ main bodies, t = .script main bodies
      · obtain ⟨main, bodies, rfl⟩ := ht
        exact .inl ⟨_, main, bodies, le_rfl, hconstructed⟩
      · rcases interpretWith_cases hbody with ⟨-, rfl⟩ | ⟨t', s₃, ht', hwalk, rfl⟩
        · exact .inr rfl
        · have hsame : t' = t := by
            have htree := tree_eq_some ht'
            rw [List.getElem?_concat_length] at htree
            exact (Option.some.inj htree).symm
          have hkept := walk_statusKept hre _ walk
            (fun main bodies h => ht ⟨main, bodies, hsame ▸ h⟩) _ _ _ hwalk
          rcases hkept.status with ⟨i, main, bodies, hi, hscript⟩ | hstatus
          · have hle : s.asts.length ≤ i := Nat.le_trans (by simp) hi
            exact .inl ⟨i, main, bodies, hle, hscript⟩
          · exact .inr hstatus
    · cases he
  · rcases constructAst_cases hnew with ⟨t, ha, -⟩ | ⟨e, -, rfl⟩
    · cases ha
    · exact .refl _

theorem performOp_statusKept (hevolve : re.Evolve) (hre : re.KeepsStatus) (o : Op α)
    (ho : o.BelowCommands) : Keeps StatusKept (performOp host re o) := by
  cases o with
  | resolveVariable name => exact keeps_reads .refl _
  | isUnset name => exact keeps_reads .refl _
  | setValue name new index =>
    intro s r s' hrun
    rw [performOp, reads_bind_apply] at hrun
    exact writing_statusKept _ _ _ hrun
  | define name init readonly =>
    rw [performOp]
    exact writing_statusKept
  | defineLocal name init readonly =>
    rw [performOp]
    exact writing_statusKept
  | getStatus => exact keeps_reads .refl _
  | getOption name =>
    refine keeps_bind (fun {a b c} => .trans) (keeps_reads .refl _) fun value => ?_
    cases value with
    | none => exact keeps_throw .refl _
    | some value => exact keeps_pure .refl _
  | getAdditionalOption name =>
    refine keeps_bind (fun {a b c} => .trans) (keeps_reads .refl _) fun value => ?_
    cases value with
    | none => exact keeps_throw .refl _
    | some value => exact keeps_pure .refl _
  | writeError text => exact keeps_update fun s => .of_eq rfl rfl
  | captured => exact keeps_reads .refl _
  | interpretScript rule source => exact interpretTemporary_statusKept hevolve hre _ _ _
  | interpretWord trim source => exact interpretTemporary_statusKept hevolve hre _ _ _
  | interpretArithmetics source => exact interpretTemporary_statusKept hevolve hre _ _ _
  | tick =>
    refine keeps_bind (fun {a b c} => .trans) (keeps_reads .refl _) fun budget => ?_
    cases budget with
    | none => exact keeps_pure .refl _
    | some k =>
      cases k with
      | zero =>
        exact keeps_bind (fun {a b c} => .trans) (keeps_update fun s => .of_eq rfl rfl) fun _ =>
          keeps_throw .refl _
      | succ k => exact keeps_update fun s => .of_eq rfl rfl
  | _ => exact False.elim ho

/-- Neither bracket touches the status. -/
theorem run_statusKept (hevolve : re.Evolve) (hre : re.KeepsStatus) {p : Shell α}
    (hp : p.Uses Op.BelowCommands) : Keeps StatusKept (Program.run (handler host re) p) := by
  refine hp.run_keeps .refl (fun _ _ _ => .trans) (fun o ho => ?_) fun b s s' h => ?_
  · exact performOp_statusKept hevolve hre o ho
  · cases b with
    | localScope => exact ⟨h.grows, h.status⟩
    | captureOutput => exact ⟨h.grows, h.status⟩

theorem walkStep_statusKept (hevolve : re.Evolve) (hre : re.KeepsStatus) {p : Shell α}
    (hp : p.Uses Op.BelowCommands) : Keeps StatusKept (walkStep host re p) :=
  run_statusKept hevolve hre (uses_bind (uses_perform trivial) fun _ => hp)

theorem reentry_keepsStatus (host : Host) (n d : Nat) : (reentry host n d).KeepsStatus := by
  induction d with
  | zero => exact ⟨fun _ => keeps_diverge, fun _ => keeps_diverge⟩
  | succ d ih =>
    have hevolve := reentry_evolve host n d
    exact ⟨fun w =>
        walkStep_statusKept hevolve ih (below_of_inWords (Shell.caseWord_inWords host w)),
      fun e => walkStep_statusKept hevolve ih (below_of_inWords (Shell.arithmetics_inWords host e))⟩

end Status

end Libbash
