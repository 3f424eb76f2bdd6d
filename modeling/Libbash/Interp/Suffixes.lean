import Libbash.Interp.Regexes

/-!
# Removing a suffix

`${x%p}` matches the whole value, with a greedy part before the pattern;
`${x%%p}` replaces the first match that ends where the value ends. Both find the suffix
that they should (`suffixRemoval_extremal`), whatever the order of the alternatives in
the pattern.
-/

namespace Libbash

open Lib Lib.Comp Lib.Program

section Expansion

variable {host : Host} {compile : String → Regex Char} {n d : Nat} {s s₁ s₂ : Interpreter}
  {x : VarOrArrayName} {name : String} {index : Option UInt32} {p : PatternTree} {E : Glob}

/-- An expansion that replaces matches of a pattern. -/
theorem run_replace (kind : ReplaceKind)
    (hx : runShell host n d (Shell.varOrArrayName host x) s = some (.ok (name, index), s₁))
    (hp : runShell host n d (Shell.glob host p) s₁ = some (.ok E, s₂)) :
    runShell host n d (Shell.varExpansion host (.replace kind x p.tokens none)) s =
      runShell host n d (Shell.replaceExpansion name index (host.replace kind E.tokens "")) s₂ := by
  rw [Shell.varExpansion, runShell_bind, bind_of_ok hx, runShell_bind,
    bind_of_ok (bashPattern_of_glob hp)]

open Occurrence in
/-- For every pattern, in every state: `${x%p}` and `${x%%p}` take the shortest and the
longest suffix from every value that they are applied to. -/
theorem suffixRemoval_extremal (hhost : Backtracks host compile)
    (hx : runShell host n d (Shell.varOrArrayName host x) s = some (.ok (name, index), s₁))
    (hp : runShell host n d (Shell.glob host p) s₁ = some (.ok E, s₂)) (hplain : E.Plain compile) :
    ∃ shortest longest : String → String,
      runShell host n d (Shell.varExpansion host (.replace .lazyRemoveAtEnd x p.tokens none)) s =
        runShell host n d (Shell.replaceExpansion name index shortest) s₂ ∧
      runShell host n d (Shell.varExpansion host (.replace .replaceAtEnd x p.tokens none)) s =
        runShell host n d (Shell.replaceExpansion name index longest) s₂ ∧
      ∀ v : String,
        ReplacesBest (IsSuffix (E.lang (compiledWords compile)) v.toList) Shorter [] v.toList
          (shortest v).toList ∧
        ReplacesBest (IsSuffix (E.lang (compiledWords compile)) v.toList) Longer [] v.toList
          (longest v).toList := by
  refine ⟨_, _, run_replace .lazyRemoveAtEnd hx hp, run_replace .replaceAtEnd hx hp, fun v => ?_⟩
  rw [hhost.replace _ _ _ _ hplain, hhost.replace _ _ _ _ hplain]
  constructor
  · have hshort := Regex.replacesBest_untilSuffix (hplain.regex false) v.toList
    rw [glob_lang] at hshort
    rw [← toList_lazyRemoveAtEnd] at hshort
    exact hshort
  · have hlong := Regex.replacesBest_suffix (hplain.regex true) [] v.toList (.inl rfl)
    rw [glob_lang] at hlong
    rw [ReplaceKind.replacer, toList_replaceAll]
    exact hlong

end Expansion

/-- `a`. -/
def nameA : VarOrArrayName := .var (.name (.base ⟨"a", isIdentifier_a⟩))

/-- `b*`. -/
def patternB : PatternTree := ⟨.basic (.part (.text "b")), [.basic .matchAll]⟩

/-- No bracket expression stands for any character. -/
def noCharacters (_ : String) : Regex Char := .set fun _ => false

open Occurrence in
/-- `${a%b*}` and `${a%%b*}`. -/
theorem suffixRemoval_extremal_b :
    ∃ shortest longest : String → String,
      runShell ((Host.ofTexts [] []).backtracking noCharacters) 0 0
          (Shell.varExpansion ((Host.ofTexts [] []).backtracking noCharacters)
            (.replace .lazyRemoveAtEnd nameA patternB.tokens none)) (.initial []) =
        runShell ((Host.ofTexts [] []).backtracking noCharacters) 0 0
          (Shell.replaceExpansion "a" (some 0) shortest) (.initial []) ∧
      runShell ((Host.ofTexts [] []).backtracking noCharacters) 0 0
          (Shell.varExpansion ((Host.ofTexts [] []).backtracking noCharacters)
            (.replace .replaceAtEnd nameA patternB.tokens none)) (.initial []) =
        runShell ((Host.ofTexts [] []).backtracking noCharacters) 0 0
          (Shell.replaceExpansion "a" (some 0) longest) (.initial []) ∧
      ∀ v : String,
        ReplacesBest (IsSuffix (Glob.lang (compiledWords noCharacters)
          ⟨.basic (.part ⟨"b", false⟩), [.basic .matchAll]⟩) v.toList) Shorter [] v.toList
          (shortest v).toList ∧
        ReplacesBest (IsSuffix (Glob.lang (compiledWords noCharacters)
          ⟨.basic (.part ⟨"b", false⟩), [.basic .matchAll]⟩) v.toList) Longer [] v.toList
          (longest v).toList :=
  suffixRemoval_extremal (backtracks_backtracking _ _) rfl rfl nofun

end Libbash
