import Libbash.Interp.Reads
import Libbash.Interp.Forwarding
import Libbash.Parser.Quotes

/-!
# Single quotes preserve text

The script `x='s'` gives `x` what `erase_all` has left of `s`: escaped line ends are taken
out of the whole script, before it is known what stands in quotes. `singleQuotes_iff` says
for which texts nothing is lost.
-/

namespace Libbash

open Lib Lib.Comp Lib.Program

section Run

variable {host : Host} {n d : Nat} {s : Interpreter}

theorem run_stringExpr_singleQuoted (text : String) :
    runShell host n d (Shell.stringExpr host (.string [.part (.singleQuoted text)])) =
      pure ⟨text, true⟩ := by
  simp only [Shell.stringExpr, Shell.wordParts, Shell.stringPart, runShell_bind, runShell_pure,
    pure_bind]
  show pure (⟨" ".intercalate ["" ++ text], true⟩ : StringValue) = _
  rw [String.intercalate_singleton, String.empty_append]

/-- The value of a word in single quotes is assigned as it is. -/
theorem run_varDefs_singleQuoted (x : Identifier) (text : String) :
    runShell host n d (Shell.varDefs host false
        [.scalar (.base x) (some (.string [.part (.singleQuoted text)]))]) =
      runShell host n d (perform (.setValue x.text (.str text) 0)) := by
  have hword : runShell host n d
      (Shell.optionalWord host (some (.string [.part (.singleQuoted text)]))) = pure text := by
    rw [Shell.optionalWord, runShell_bind, run_stringExpr_singleQuoted]
    rfl
  rw [Shell.varDefs, Shell.varDefs, Shell.varDef, Shell.nameRule]
  simp only [runShell_bind, runShell_pure, pure_bind, hword]
  exact bind_pure_unit (m := Comp Exn Interpreter)

/-- The tree of the assignment is walked. -/
theorem list_assignment {a : AstId} {text : String} {x : Identifier}
    (hbudget : s.budget ≠ some 0) (hx : s.store.Assignable x.text) :
    ∃ s', (reentry host n (d + 1)).list a (.ofSimple (.variableDefinitions false
        [.scalar (.base x) (some (.string [.part (.singleQuoted text)]))]) []) s =
          some (.ok (), s') ∧ s'.store.parameter x.text 0 = some text := by
  obtain ⟨t, hset, hvalue, -⟩ := setValue_assignable hx text
  have hdefs : runShell host n d (Shell.varDefs host false
      [.scalar (.base x) (some (.string [.part (.singleQuoted text)]))])
      { s with budget := s.budget.map (· - 1) } =
        some (.ok (), Interpreter.record (.wrote (setHow s.store x.text) x.text
          (s.store.level x.text)) { s with store := t, budget := s.budget.map (· - 1) }) := by
    rw [run_varDefs_singleQuoted, runShell_perform, performOp, reads_bind_apply]
    exact writing_of_ok hset
  exact ⟨_, list_variableDefinitions hbudget hdefs, hvalue⟩

/-- A script that holds the assignment gives `x` what is left of the text. -/
theorem interpretFile_assignment {path : String} {text : List Char} (hquote : '\'' ∉ text)
    (hfile : host.readFile path = some (.ofList (assignmentScript text)))
    (hlive : s.asts.length ∉ s.destroyed) (hbudget : s.budget ≠ some 0)
    (hx : s.store.Assignable "x") :
    ∃ s', interpretFile host.quoting n (d + 1) path s = some (.ok (), s') ∧
      s'.store.parameter "x" 0 = some (.ofList (eraseContinuations text)) := by
  have hquote' : '\'' ∉ eraseContinuations text := fun hmem =>
    hquote ((eraseContinuations_sublist text).subset hmem)
  have hparse := parse_assignment host hquote'
  have hnew : runShell host.quoting n (d + 1) (perform (.constructFile path)) s =
      some (.ok s.asts.length,
        { s with asts := s.asts ++ [assignmentOf (eraseContinuations text)] }) := by
    rw [runShell_perform, performOp, show host.quoting.readFile path = _ from hfile]
    dsimp only
    rw [readScript_assignment, constructAst, hparse]
    rfl
  let s₁ : Interpreter :=
    { s with
      asts := s.asts ++ [assignmentOf (eraseContinuations text)]
      astStack := s.asts.length :: s.astStack }
  have htree : s₁.tree s.asts.length = some (assignmentOf (eraseContinuations text)) := by
    rw [Interpreter.tree, if_neg hlive]
    exact List.getElem?_concat_length
  obtain ⟨s₂, hlist, hvalue⟩ := @list_assignment host.quoting n d s₁ s.asts.length
    (.ofList (eraseContinuations text)) ⟨"x", by decide⟩ hbudget hx
  refine ⟨{ s₂ with astStack := s₂.astStack.tail }, ?_, hvalue⟩
  unfold interpretFile
  rw [runShell_bind, bind_of_ok hnew]
  exact interpretWith_of_body htree hlist

/-- The script `x='s'` of a file sets `x` to `s` just when no backslash of `s` stands
directly before a line end. -/
theorem singleQuotes_iff (host : Host) (n d : Nat) (path : String) (s : Interpreter)
    (text : List Char) (hquote : '\'' ∉ text)
    (hfile : host.readFile path = some (.ofList (assignmentScript text)))
    (hlive : s.asts.length ∉ s.destroyed) (hbudget : s.budget ≠ some 0)
    (hx : s.store.Assignable "x") :
    (∃ s', interpretFile host.quoting n (d + 1) path s = some (.ok (), s') ∧
      s'.store.parameter "x" 0 = some (.ofList text)) ↔ NoContinuation text := by
  obtain ⟨s₁, hrun, hvalue⟩ :=
    @interpretFile_assignment host n d s path text hquote hfile hlive hbudget hx
  rw [← eraseContinuations_eq_self_iff]
  constructor
  · rintro ⟨s', hrun', htext⟩
    rw [hrun] at hrun'
    obtain rfl := (Prod.mk.inj (Option.some.inj hrun')).2
    exact String.ofList_injective (Option.some.inj (hvalue.symm.trans htext))
  · intro hsame
    rw [hsame] at hvalue
    exact ⟨s₁, hrun, hvalue⟩

end Run

theorem singleQuotes_iff_specialCharacters :
    ∃ s', interpretFile (Host.ofTexts [] [("a.bash", .ofList (assignmentScript
        [' ', '$', 'a', '"', '#', '\\', '\\', ' ', '\n']))]).quoting 0 1 "a.bash" (.initial []) =
          some (.ok (), s') ∧
      s'.store.parameter "x" 0 = some (.ofList [' ', '$', 'a', '"', '#', '\\', '\\', ' ', '\n']) :=
  (singleQuotes_iff (.ofTexts [] [("a.bash", .ofList (assignmentScript
    [' ', '$', 'a', '"', '#', '\\', '\\', ' ', '\n']))]) 0 0 "a.bash" (.initial [])
    [' ', '$', 'a', '"', '#', '\\', '\\', ' ', '\n'] (by decide) rfl List.not_mem_nil nofun
    (assignable_initial (by decide) (by decide +kernel))).mpr
      ((eraseContinuations_eq_self_iff _).mp (by decide))

/-- The quoted line end goes with its backslash. -/
theorem singleQuotes_escapedLineEnd :
    ¬∃ s', interpretFile (Host.ofTexts [] [("a.bash", .ofList (assignmentScript
        ['a', '\\', '\n', 'b']))]).quoting 0 1 "a.bash" (.initial []) = some (.ok (), s') ∧
      s'.store.parameter "x" 0 = some (.ofList ['a', '\\', '\n', 'b']) := by
  obtain ⟨s₁, hrun, hvalue⟩ := @interpretFile_assignment
    (.ofTexts [] [("a.bash", .ofList (assignmentScript ['a', '\\', '\n', 'b']))]) 0 0 (.initial [])
    "a.bash" ['a', '\\', '\n', 'b'] (by decide) rfl List.not_mem_nil nofun
    (assignable_initial (by decide) (by decide +kernel))
  rintro ⟨s', hrun', htext⟩
  rw [hrun] at hrun'
  obtain rfl := (Prod.mk.inj (Option.some.inj hrun')).2
  rw [hvalue] at htext
  have hlost := String.ofList_injective (Option.some.inj htext)
  exact absurd hlost (by decide)

end Libbash
