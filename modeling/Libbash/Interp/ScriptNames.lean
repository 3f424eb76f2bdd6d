import Libbash.Interp.Expansions

/-!
# Who defines the name of the script

`$0` is the variable `0`. It is readonly, so that only a definition can change it, and no rule
and no builtin defines a variable of that name but `source`: what they define are names that
the lexer has read, and one that `inherit` keeps for itself.
-/

namespace Libbash

open Lib Lib.Comp Lib.Program

/-- The operation defines no variable under the name of the script. -/
def Op.SparesScriptName : {α : Type} → Op α → Prop
  | _, .define name _ _ => name.text ≠ "0"
  | _, .defineLocal name _ _ => name ≠ "0"
  | _, _ => True

theorem spares_of_inWords {α : Type} {p : Shell α} (hp : p.Uses Op.InWords) :
    p.Uses Op.SparesScriptName :=
  hp.mono fun o ho => by cases o <;> first | exact trivial | exact ho.elim

/-- A name that the lexer has read is not the one of the script. -/
theorem Identifier.ne_scriptName (x : Identifier) : x.text ≠ "0" := fun h =>
  absurd x.isName (by rw [h]; decide)

namespace Shell

/-! ## Builtins -/

section Control

theorem loopControlBuiltin_spares (kind : LoopControl) (builtin : String) (error : ErrorKind)
    (args : List String) :
    (loopControlBuiltin kind builtin error args).Uses Op.SparesScriptName := by
  have hthrow : ∀ nth, (throwLoopControl kind builtin nth).Uses Op.SparesScriptName :=
    fun nth => uses_ite (uses_throw _) (uses_throw _)
  unfold loopControlBuiltin
  split
  · exact hthrow 1
  · split
    · exact hthrow _
    · exact uses_throw _
  · exact uses_throw _

theorem castInt_spares (text : String) : (castInt text).Uses Op.SparesScriptName := by
  unfold castInt
  split
  · exact uses_pure _
  · exact uses_throw _

theorem returnBuiltin_spares (args : List String) :
    (returnBuiltin args).Uses Op.SparesScriptName := by
  unfold returnBuiltin
  split
  · exact uses_throw _
  · exact uses_bind (castInt_spares _) fun _ => uses_bind (uses_perform trivial) fun _ =>
      uses_throw _
  · exact uses_throw _

theorem evalBuiltin_spares (args : List String) : (evalBuiltin args).Uses Op.SparesScriptName :=
  uses_bind (uses_perform trivial) fun _ => uses_perform trivial

theorem parseCached_spares (path : String) : (parseCached path).Uses Op.SparesScriptName := by
  refine uses_bind (uses_perform trivial) fun found => ?_
  match found with
  | none =>
    refine uses_bind (uses_perform trivial) fun _ => uses_bind (uses_perform trivial) fun a => ?_
    exact uses_bind (uses_perform trivial) fun _ => uses_pure _
  | some none => exact uses_throw _
  | some (some a) => exact uses_pure _

end Control

section Declarations

theorem defineVariables_spares (isLocal : Bool) (script : String) :
    (defineVariables isLocal script).Uses Op.SparesScriptName := uses_perform trivial

theorem exportBuiltin_spares (args : List String) :
    (exportBuiltin args).Uses Op.SparesScriptName :=
  uses_bind (defineVariables_spares _ _) fun _ => uses_pure _

theorem localBuiltin_spares (args : List String) :
    (localBuiltin args).Uses Op.SparesScriptName :=
  uses_bind (defineVariables_spares _ _) fun _ => uses_pure _

theorem printFunctions_spares (result : Int) (names : List String) :
    (printFunctions result names).Uses Op.SparesScriptName := by
  induction names generalizing result with
  | nil => exact uses_pure _
  | cons name names ih =>
    refine uses_bind (uses_perform trivial) fun _ => uses_ite ?_ (ih 1)
    exact uses_bind (uses_perform trivial) fun _ => ih result

theorem printAllFunctions_spares (names : List String) :
    (printAllFunctions names).Uses Op.SparesScriptName := by
  induction names with
  | nil => exact uses_pure _
  | cons name names ih => exact uses_bind (uses_perform trivial) fun _ => ih

theorem printVariables_spares (result : Int) (names : List String) :
    (printVariables result names).Uses Op.SparesScriptName := by
  induction names generalizing result with
  | nil => exact uses_pure _
  | cons name names ih =>
    refine uses_bind (uses_perform trivial) fun _ => uses_ite ?_ ?_
    · exact uses_bind (uses_perform trivial) fun _ => ih 1
    · refine uses_bind (spares_of_inWords (resolveString_inWords _ _)) fun _ => ?_
      exact uses_bind (uses_perform trivial) fun _ => ih result

theorem declareVariables_spares (skipped : Nat) (optionGlobal : Bool) (args : List String) :
    (declareVariables skipped optionGlobal args).Uses Op.SparesScriptName :=
  uses_bind (uses_perform trivial) fun _ =>
    uses_bind (defineVariables_spares _ _) fun _ => uses_pure _

theorem declareOption_spares (sign letter : Char) (option : String) (tokens args : List String) :
    (declareOption sign letter option tokens args).Uses Op.SparesScriptName := by
  unfold declareOption
  split
  · refine uses_ite (uses_pure _) (uses_ite ?_ (printFunctions_spares _ _))
    exact uses_bind (uses_perform trivial) fun _ => printAllFunctions_spares _
  · exact uses_ite (uses_throw _) (printVariables_spares _ _)
  · exact declareVariables_spares _ _ _
  · exact declareVariables_spares _ _ _
  · exact declareVariables_spares _ _ _
  all_goals exact uses_throw _

theorem declareBuiltin_spares (args : List String) :
    (declareBuiltin args).Uses Op.SparesScriptName := by
  unfold declareBuiltin
  split
  · exact uses_throw _
  · dsimp only
    split
    · refine uses_ite (uses_ite (uses_throw _) ?_) (declareVariables_spares _ _ _)
      exact declareOption_spares _ _ _ _ _
    · exact declareVariables_spares _ _ _

end Declarations

section Parameters

theorem setBuiltin_spares (args : List String) : (setBuiltin args).Uses Op.SparesScriptName := by
  have hletter : ∀ (sign letter : Char) (arg : String) (args : List String),
      (setLetter sign letter arg args).Uses Op.SparesScriptName := by
    intro sign letter arg args
    refine uses_ite (uses_ite (uses_throw _) ?_)
      (uses_ite ?_ (uses_ite (uses_throw _) (uses_throw _)))
    · exact uses_bind (uses_perform trivial) fun _ => uses_pure _
    · exact uses_bind (uses_perform trivial) fun _ => uses_pure _
  unfold setBuiltin
  split
  · exact uses_throw _
  · split
    · exact uses_throw _
    · exact uses_ite (uses_throw _) (hletter _ _ _ _)

theorem unsetFunctions_spares (names : List String) :
    (unsetFunctions names).Uses Op.SparesScriptName := by
  induction names with
  | nil => exact uses_pure _
  | cons name names ih => exact uses_bind (uses_perform trivial) fun _ => ih

theorem unsetVariables_spares (names : List String) :
    (unsetVariables names).Uses Op.SparesScriptName := by
  induction names with
  | nil => exact uses_pure _
  | cons name names ih =>
    unfold unsetVariables
    split
    · refine uses_bind (spares_of_inWords (lexicalCastUnsigned_inWords _)) fun _ => ?_
      exact uses_bind (uses_perform trivial) fun _ => ih
    · exact uses_bind (uses_perform trivial) fun _ => ih

theorem unsetBuiltin_spares (args : List String) :
    (unsetBuiltin args).Uses Op.SparesScriptName := by
  cases args with
  | nil => exact uses_pure _
  | cons arg args =>
    refine uses_ite (c := arg = "-f") ?_ ?_
    · exact uses_bind (unsetFunctions_spares _) fun _ => uses_pure _
    · exact uses_bind (unsetVariables_spares _) fun _ => uses_pure _

theorem shiftBuiltin_spares (args : List String) :
    (shiftBuiltin args).Uses Op.SparesScriptName := by
  have hshift : ∀ number, (shiftBy number).Uses Op.SparesScriptName := fun number =>
    uses_ite (uses_pure _) (uses_perform trivial)
  unfold shiftBuiltin
  split
  · exact hshift 1
  · exact uses_bind (castInt_spares _) hshift
  · exact uses_throw _

theorem letBuiltin_spares (args : List String) : (letBuiltin args).Uses Op.SparesScriptName :=
  uses_bind (uses_perform trivial) fun _ => uses_pure _

theorem setAdditionalOptions_spares (value : Bool) (names : List String) :
    (setAdditionalOptions value names).Uses Op.SparesScriptName := by
  induction names with
  | nil => exact uses_pure _
  | cons name names ih => exact uses_bind (uses_perform trivial) fun _ => ih

theorem printOptions_spares (options : List (String × Bool)) :
    (printOptions options).Uses Op.SparesScriptName := by
  induction options with
  | nil => exact uses_pure _
  | cons option options ih => exact uses_bind (uses_perform trivial) fun _ => ih

theorem shoptBuiltin_spares (args : List String) :
    (shoptBuiltin args).Uses Op.SparesScriptName := by
  unfold shoptBuiltin
  split
  · exact uses_throw _
  · split
    · exact uses_bind (setAdditionalOptions_spares _ _) fun _ => uses_pure _
    · exact uses_bind (setAdditionalOptions_spares _ _) fun _ => uses_pure _
    · refine uses_bind (uses_perform trivial) fun _ => ?_
      exact uses_bind (printOptions_spares _) fun _ => uses_pure _
    all_goals exact uses_throw _

end Parameters

section Streams

theorem echoBuiltin_spares (args : List String) :
    (echoBuiltin args).Uses Op.SparesScriptName := by
  have hnewline : ∀ o, (echoNewline o).Uses Op.SparesScriptName := fun o =>
    uses_ite (uses_pure _) (uses_perform trivial)
  have hescaped : ∀ args, (echoEscaped args).Uses Op.SparesScriptName := by
    intro args
    induction args with
    | nil => exact uses_pure _
    | cons arg args ih =>
      exact uses_bind (uses_perform trivial) fun _ => uses_ite (uses_pure _) ih
  have harguments : ∀ o args, (echoArguments o args).Uses Op.SparesScriptName := by
    intro o args
    refine uses_ite ?_ (uses_bind (uses_perform trivial) fun _ => hnewline o)
    exact uses_bind (hescaped args) fun _ => uses_ite (hnewline o) (uses_pure _)
  have hloop : ∀ o args, (echoLoop o args).Uses Op.SparesScriptName := by
    intro o args
    induction args generalizing o with
    | nil => exact uses_pure _
    | cons arg args ih =>
      unfold echoLoop
      split
      · exact ih _
      · exact harguments _ _
  cases args with
  | nil => exact uses_bind (uses_perform trivial) fun _ => uses_pure _
  | cons arg args => exact uses_bind (hloop _ _) fun _ => uses_pure _

theorem escaped_spares (text : String) : (escaped text).Uses Op.SparesScriptName :=
  uses_ite (uses_throw _) (uses_pure _)

theorem printfBuiltin_spares (host : Host) (args : List String) :
    (printfBuiltin host args).Uses Op.SparesScriptName := by
  have hformatted : ∀ format args, (formatted host format args).Uses Op.SparesScriptName := by
    intro format args
    refine uses_bind (escaped_spares _) fun text => ?_
    split
    · exact uses_pure _
    · exact uses_throw _
  unfold printfBuiltin
  split
  · exact uses_throw _
  · refine uses_ite ?_ ?_
    · split
      · refine uses_bind (hformatted _ _) fun _ => ?_
        exact uses_bind (uses_perform trivial) fun _ => uses_pure _
      · exact uses_throw _
    · refine uses_bind (hformatted _ _) fun _ => uses_ite (uses_throw _) ?_
      exact uses_bind (uses_perform trivial) fun _ => uses_pure _

theorem process_spares (names words : List String) :
    (process names words).Uses Op.SparesScriptName := by
  induction names generalizing words with
  | nil => exact uses_pure _
  | cons name names ih =>
    cases words with
    | nil => exact uses_bind (uses_perform trivial) fun _ => ih []
    | cons word words =>
      cases names with
      | nil => exact uses_perform trivial
      | cons name' names => exact uses_bind (uses_perform trivial) fun _ => ih words

theorem readBuiltin_spares (args : List String) :
    (readBuiltin args).Uses Op.SparesScriptName := by
  refine uses_bind (uses_perform trivial) fun input => ?_
  split
  · exact uses_pure _
  · refine uses_bind (escaped_spares _) fun _ => ?_
    exact uses_bind (process_spares _ _) fun _ => uses_pure _

end Streams

section Inherit

theorem resolveString_spares (name : String) (index : UInt32) :
    (resolveString name index).Uses Op.SparesScriptName :=
  spares_of_inWords (resolveString_inWords name index)

theorem appendGlobals_spares (names : List String) :
    (appendGlobals names).Uses Op.SparesScriptName := by
  induction names with
  | nil => exact uses_pure _
  | cons name names ih =>
    refine uses_bind (uses_bind (spares_of_inWords (unsetTest_inWords true name 0)) fun _ => ?_)
      fun _ => ih
    refine uses_ite (uses_pure _) (uses_bind (resolveString_spares _ _) fun _ => ?_)
    exact uses_bind (resolveString_spares _ _) fun _ => uses_perform trivial

theorem restoreGlobals_spares (values : List (String × String)) :
    (restoreGlobals values).Uses Op.SparesScriptName := by
  induction values with
  | nil => exact uses_pure _
  | cons value values ih =>
    exact uses_bind (uses_ite (uses_perform trivial) (uses_perform trivial)) fun _ => ih

theorem backupGlobals_spares (names : List String) :
    (backupGlobals names).Uses Op.SparesScriptName := by
  induction names with
  | nil => exact uses_pure _
  | cons name names ih =>
    refine uses_bind (uses_bind (resolveString_spares _ _) fun _ => ?_) fun _ => ?_
    · exact uses_bind (uses_perform trivial) fun _ => uses_pure _
    · exact uses_bind ih fun _ => uses_pure _

theorem unsetExported_spares : unsetExported.Uses Op.SparesScriptName :=
  uses_bind (resolveString_spares _ _) fun _ => uses_perform trivial

theorem defineExported_spares (names : List String) :
    (defineExported names).Uses Op.SparesScriptName := by
  induction names with
  | nil => exact uses_pure _
  | cons name names ih =>
    refine uses_bind (resolveString_spares _ _) fun _ => ?_
    exact uses_bind (evalBuiltin_spares _) fun _ => ih

theorem exportFunctions_spares : exportFunctions.Uses Op.SparesScriptName := by
  refine uses_bind (resolveString_spares _ _) fun _ => uses_bind (uses_perform trivial) fun _ => ?_
  refine uses_ite (uses_pure _) (uses_bind (resolveString_spares _ _) fun _ => ?_)
  exact uses_bind (resolveString_spares _ _) fun _ => defineExported_spares _

theorem hasq_spares (value name : String) : (hasq value name).Uses Op.SparesScriptName :=
  uses_bind (resolveString_spares _ _) fun _ => uses_pure _

end Inherit

/-! ## Conditions and commands -/

section Conditions

variable {host : Host}

theorem ofExcept_spares {α : Type} (e : Except Exn α) : (ofExcept e).Uses Op.SparesScriptName := by
  cases e with
  | ok a => exact uses_pure _
  | error e => exact uses_throw _

theorem binaryOperator_spares (op lhs rhs : String) :
    (binaryOperator host op lhs rhs).Uses Op.SparesScriptName := by
  have htest : ∀ test, (testArithmetic test lhs rhs).Uses Op.SparesScriptName := fun test =>
    uses_bind (uses_perform trivial) fun _ => uses_bind (uses_perform trivial) fun _ => uses_pure _
  unfold binaryOperator
  split
  · exact ofExcept_spares _
  · exact ofExcept_spares _
  · exact ofExcept_spares _
  · exact htest _
  · exact htest _
  · exact htest _
  · exact htest _
  · exact htest _
  · exact htest _
  · exact uses_throw _

theorem testBinary_spares (op lhs rhs : String) :
    (testBinary host op lhs rhs).Uses Op.SparesScriptName := by
  refine uses_ite (uses_throw _) ⟨binaryOperator_spares _ _ _, fun e => ?_⟩
  cases e with
  | badLexicalCast => exact uses_pure _
  | _ => exact uses_throw _

theorem testUnary_spares (op : Char) (target : String) :
    (testUnary host op target).Uses Op.SparesScriptName := by
  unfold testUnary
  split
  · exact uses_pure _
  · exact uses_pure _
  · exact uses_throw _
  · exact ofExcept_spares _

theorem stringExpr_spares (w : Word) : (stringExpr host w).Uses Op.SparesScriptName :=
  spares_of_inWords (stringExpr_inWords host w)

theorem bashPattern_spares (inside : Option String) (p : List PatternToken) :
    (bashPattern host inside p).Uses Op.SparesScriptName :=
  spares_of_inWords (bashPattern_inWords host inside p)

theorem commonCondition_spares (c : CommonCondition) :
    (commonCondition host c).Uses Op.SparesScriptName := by
  cases c with
  | binary op left right =>
    exact uses_bind (stringExpr_spares _) fun _ => uses_bind (stringExpr_spares _) fun _ =>
      testBinary_spares _ _ _
  | unary op w => exact uses_bind (stringExpr_spares _) fun _ => testUnary_spares _ _
  | compare op left right =>
    exact uses_bind (stringExpr_spares _) fun _ => uses_bind (stringExpr_spares _) fun _ =>
      uses_pure _
  | matchPattern negation left pattern =>
    exact uses_bind (stringExpr_spares _) fun _ => uses_bind (bashPattern_spares _ _) fun _ =>
      uses_pure _
  | string w => exact uses_bind (stringExpr_spares _) fun _ => uses_pure _

theorem keywordCondition_spares (c : KeywordCondition) :
    (keywordCondition host c).Uses Op.SparesScriptName := by
  induction c with
  | logicOr l r ihl ihr => exact uses_bind ihl fun _ => uses_ite (uses_pure _) ihr
  | logicAnd l r ihl ihr => exact uses_bind ihl fun _ => uses_ite ihr (uses_pure _)
  | negation l ih => exact uses_bind ih fun _ => uses_pure _
  | matchRegularExpression left right =>
    refine uses_bind (stringExpr_spares _) fun _ => uses_bind (stringExpr_spares _) fun _ => ?_
    exact uses_bind (uses_perform trivial) fun _ => ofExcept_spares _
  | common c => exact commonCondition_spares c

theorem builtinCondition_spares (c : BuiltinCondition) :
    (builtinCondition host c).Uses Op.SparesScriptName := by
  induction c with
  | logicOr l r ihl ihr => exact uses_bind ihl fun _ => uses_bind ihr fun _ => uses_pure _
  | logicAnd l r ihl ihr => exact uses_bind ihl fun _ => uses_bind ihr fun _ => uses_pure _
  | negation l ih => exact uses_bind ih fun _ => uses_pure _
  | escaped greater l r =>
    exact uses_bind (stringExpr_spares _) fun _ => uses_bind (stringExpr_spares _) fun _ =>
      uses_pure _
  | common c => exact commonCondition_spares c

theorem condExpr_spares (c : CondExpr) : (condExpr host c).Uses Op.SparesScriptName := by
  cases c with
  | keyword c => exact keywordCondition_spares c
  | builtin c => exact builtinCondition_spares c

end Conditions

section Commands

variable {host : Host}

theorem redirect_spares (r : Redirection) : (redirect host r).Uses Op.SparesScriptName := by
  have hdestination : ∀ openFile d,
      (redirectDestination host openFile d).Uses Op.SparesScriptName := by
    intro openFile d
    cases d with
    | file w => exact uses_bind (stringExpr_spares _) fun _ => uses_pure _
    | descriptor move => exact uses_bind (uses_perform trivial) fun _ => uses_pure _
  have hdigit : ∀ digit, (digitMessage digit).Uses Op.SparesScriptName := fun digit =>
    uses_ite (uses_perform trivial) (uses_pure _)
  cases r with
  | input digit d =>
    exact uses_bind (hdestination _ _) fun _ => uses_bind (hdigit _) fun _ => uses_pure _
  | output digit d =>
    exact uses_bind (hdestination _ _) fun _ => uses_bind (hdigit _) fun _ => uses_pure _
  | hereString w => exact uses_bind (stringExpr_spares _) fun _ => uses_pure _

theorem splitWord_spares (word : String) : (splitWord word).Uses Op.SparesScriptName :=
  spares_of_inWords (splitWord_inWords word)

theorem positional_spares : positional.Uses Op.SparesScriptName :=
  uses_bind (spares_of_inWords (resolveArray_inWords _)) fun _ => uses_pure _

theorem arguments_spares (split : Bool) (args : List String) (ws : List Word) :
    (arguments host split args ws).Uses Op.SparesScriptName := by
  induction ws generalizing args with
  | nil => exact uses_pure _
  | cons w ws ih =>
    refine uses_bind (uses_bind (stringExpr_spares _) fun v => ?_) fun _ => ih _
    exact uses_ite (uses_pure _) (uses_ite (uses_pure _) (splitWord_spares _))

theorem call_spares (name : String) (args : List String) :
    (call name args).Uses Op.SparesScriptName :=
  uses_bind (uses_perform trivial) fun _ => uses_perform trivial

theorem negateStatus_spares (bang : Bool) : (negateStatus bang).Uses Op.SparesScriptName :=
  uses_ite (uses_bind (uses_perform trivial) fun _ => uses_perform trivial) (uses_pure _)

theorem catchReturn_spares {p : Shell Unit} (hp : p.Uses Op.SparesScriptName) :
    (catchReturn p).Uses Op.SparesScriptName := by
  refine ⟨hp, fun e => ?_⟩
  cases e with
  | returnException => exact uses_pure _
  | _ => exact uses_throw _

end Commands

end Shell

end Libbash
