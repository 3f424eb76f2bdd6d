import Libbash.Interp.Suffixes
import Libbash.Lib.Choices

/-!
# Removing a prefix

`${x#p}` and `${x##p}` replace the first match at the beginning of the value, and go on
after it when it is empty. Whether that is the shortest prefix, or the longest one,
depends on the order in which the matcher tries the alternatives of the pattern and the
numbers of their repetitions (`prefixRemoval_iff`).
-/

namespace Libbash

open Lib Lib.Comp Lib.Program

/-- Whenever the matcher has a choice, what it tries first, if the rest of the pattern
can match after it, leads at least as far as what it would try next; not farther, when
the pattern is lazy. A match that takes nothing does not count. -/
def Glob.ChoosesWell (compile : String → Regex Char) (greedy : Bool) (E : Glob) (v : List Char) :
    Prop :=
  Regex.ChoosesWell (Regex.notNull v.length) (Regex.Extreme greedy) v.length
    (E.regex compile greedy) (fun t => [t]) ⟨v, []⟩

section Simple

variable {compile : String → Regex Char} {E : Glob}

theorem basic_isWildcard {b : Piece} (h : ∀ a ∈ b.brackets, ∃ p, compile a.text = .set p)
    (greedy : Bool) : (b.regex compile greedy).IsWildcard greedy := by
  cases b with
  | matchAll => exact .inl rfl
  | matchOne => exact .inr ⟨1, rfl⟩
  | bracket b =>
    obtain ⟨p, hp⟩ := h b (List.mem_singleton_self b)
    refine .inr ⟨1, ?_⟩
    rw [BasicPattern.regex, hp]
    rfl
  | part t => exact .inr ⟨_, rfl⟩

theorem Glob.Simple.isWildcard (h : E.Simple) (hsets : E.Sets compile) (greedy : Bool) :
    ∀ i ∈ E.first :: E.others, (i.regex compile greedy).IsWildcard greedy := by
  intro i hi
  have hbrackets (a : CharacterSet) (ha : a ∈ i.brackets) : ∃ p, compile a.text = .set p :=
    hsets a (List.mem_flatMap.mpr ⟨i, hi, ha⟩)
  obtain ⟨b, rfl⟩ := h i hi
  exact basic_isWildcard hbrackets greedy

/-- Without an extended pattern all choices are made well. -/
theorem Glob.Simple.choosesWell (h : E.Simple) (hsets : E.Sets compile) (greedy : Bool)
    (v : List Char) : E.ChoosesWell compile greedy v := by
  refine (Regex.choosesWell_iff_firstIsBest greedy _ v).mpr ?_
  refine Regex.firstIsBest_wildcards (PatternItem.regex compile greedy) E.first E.others
    (h.isWildcard hsets greedy) (p := fun i => decide (i < v.length)) ?_ v.length ⟨v, []⟩
  intro i j hij hj
  exact decide_eq_true (Nat.lt_of_le_of_lt hij (of_decide_eq_true hj))

end Simple

section Expansion

variable {host : Host} {compile : String → Regex Char} {n d : Nat} {s s₁ s₂ : Interpreter}
  {x : VarOrArrayName} {name : String} {index : Option UInt32} {p : PatternTree} {E : Glob}

open Occurrence in
/-- For every pattern, in every state: `${x##p}` removes the longest prefix of a value
when the choices are made well, and `${x#p}` the shortest one when they are and,
besides, the pattern does not match the empty prefix and another one. -/
theorem prefixRemoval_iff (hhost : Backtracks host compile)
    (hx : runShell host n d (Shell.varOrArrayName host x) s = some (.ok (name, index), s₁))
    (hp : runShell host n d (Shell.glob host p) s₁ = some (.ok E, s₂)) (hplain : E.Plain compile) :
    ∃ shortest longest : String → String,
      runShell host n d (Shell.varExpansion host (.replace .lazyRemoveAtStart x p.tokens none)) s =
        runShell host n d (Shell.replaceExpansion name index shortest) s₂ ∧
      runShell host n d (Shell.varExpansion host (.replace .replaceAtStart x p.tokens none)) s =
        runShell host n d (Shell.replaceExpansion name index longest) s₂ ∧
      ∀ v : String,
        (ReplacesBest (IsPrefix (E.lang (compiledWords compile)) v.toList) Shorter [] v.toList
            (shortest v).toList ↔
          ([] ∈ E.lang (compiledWords compile) →
            ∀ u, u <+: v.toList → u ∈ E.lang (compiledWords compile) → u = []) ∧
            E.ChoosesWell compile false v.toList) ∧
        (ReplacesBest (IsPrefix (E.lang (compiledWords compile)) v.toList) Longer [] v.toList
            (longest v).toList ↔ E.ChoosesWell compile true v.toList) ∧
        (E.Simple → E.Sets compile →
          E.ChoosesWell compile false v.toList ∧ E.ChoosesWell compile true v.toList) := by
  refine ⟨_, _, run_replace .lazyRemoveAtStart hx hp, run_replace .replaceAtStart hx hp,
    fun v => ⟨?_, ?_, fun h hsets => ⟨h.choosesWell hsets false _, h.choosesWell hsets true _⟩⟩⟩
  · have hshort := Regex.replacesBest_shortest_iff (hplain.regex false) v.toList
    rw [glob_lang] at hshort
    rw [hhost.replace _ _ _ _ hplain, ReplaceKind.replacer, toList_replaceAll]
    exact hshort
  · have hlong := Regex.replacesBest_longest_iff (hplain.regex true) v.toList
    rw [glob_lang] at hlong
    rw [hhost.replace _ _ _ _ hplain, ReplaceKind.replacer, toList_replaceAll]
    exact hlong

end Expansion

/-- `@(a|ab)`. -/
def patternAlternatives : PatternTree :=
  ⟨.extended .exactlyOne ⟨⟨.part (.text "a"), []⟩, [⟨.part (.text "ab"), []⟩]⟩, []⟩

/-- What `@(a|ab)` stands for. -/
def globAlternatives : Glob :=
  ⟨.extended .exactlyOne ⟨⟨.part ⟨"a", false⟩, []⟩, [⟨.part ⟨"ab", false⟩, []⟩]⟩, []⟩

/-- `a` is the text, and extended patterns are on. -/
def extendedA (value : String) : Interpreter :=
  { Interpreter.initial [] with
    store := ⟨(∅ : Scope).insert "a" (.new "a" (.scalar (.str value) 0) false), []⟩
    additionalOptions := initialAdditionalOptions.insert "extglob" true }

open Occurrence in
/-- `${a#@(a|ab)}` and `${a##@(a|ab)}`. -/
theorem prefixRemoval_iff_alternatives :
    ∃ shortest longest : String → String,
      runShell ((Host.ofTexts [] []).backtracking noCharacters) 0 0
          (Shell.varExpansion ((Host.ofTexts [] []).backtracking noCharacters)
            (.replace .lazyRemoveAtStart nameA patternAlternatives.tokens none)) (extendedA "abc") =
        runShell ((Host.ofTexts [] []).backtracking noCharacters) 0 0
          (Shell.replaceExpansion "a" (some 0) shortest) (extendedA "abc") ∧
      runShell ((Host.ofTexts [] []).backtracking noCharacters) 0 0
          (Shell.varExpansion ((Host.ofTexts [] []).backtracking noCharacters)
            (.replace .replaceAtStart nameA patternAlternatives.tokens none)) (extendedA "abc") =
        runShell ((Host.ofTexts [] []).backtracking noCharacters) 0 0
          (Shell.replaceExpansion "a" (some 0) longest) (extendedA "abc") ∧
      ∀ v : String,
        (ReplacesBest (IsPrefix (globAlternatives.lang (compiledWords noCharacters)) v.toList)
            Shorter [] v.toList (shortest v).toList ↔
          ([] ∈ globAlternatives.lang (compiledWords noCharacters) →
            ∀ u, u <+: v.toList → u ∈ globAlternatives.lang (compiledWords noCharacters) →
              u = []) ∧
            globAlternatives.ChoosesWell noCharacters false v.toList) ∧
        (ReplacesBest (IsPrefix (globAlternatives.lang (compiledWords noCharacters)) v.toList)
            Longer [] v.toList (longest v).toList ↔
          globAlternatives.ChoosesWell noCharacters true v.toList) ∧
        (globAlternatives.Simple → globAlternatives.Sets noCharacters →
          globAlternatives.ChoosesWell noCharacters false v.toList ∧
            globAlternatives.ChoosesWell noCharacters true v.toList) :=
  prefixRemoval_iff (backtracks_backtracking _ _) rfl rfl nofun

open Occurrence in
/-- `${a##@(a|ab)}` removes `a` from `abc`. -/
theorem not_removes_longest :
    runShell ((Host.ofTexts [] []).backtracking noCharacters) 0 0
        (Shell.varExpansion ((Host.ofTexts [] []).backtracking noCharacters)
          (.replace .replaceAtStart nameA patternAlternatives.tokens none)) (extendedA "abc") =
      some (.ok "bc", extendedA "abc") ∧
    ¬ReplacesBest (IsPrefix (globAlternatives.lang (compiledWords noCharacters)) "abc".toList)
      Longer [] "abc".toList "bc".toList := by
  refine ⟨rfl, fun hbest => ?_⟩
  have hab : IsPrefix (globAlternatives.lang (compiledWords noCharacters)) "abc".toList
      ⟨[], "ab".toList, "c".toList⟩ := ⟨⟨rfl, .inr rfl⟩, rfl⟩
  rcases hbest with ⟨o, ho, hall, hout⟩ | ⟨hnone, -⟩
  · have hlong : "ab".toList.length ≤ o.found.length := hall _ hab
    have hlen := Regex.isPrefix_length ho
    rw [ho.2] at hout
    have hafter : "bc".toList = o.after := hout
    rw [← hafter] at hlen
    exact absurd (hlen ▸ Nat.add_le_add_right hlong _) (by decide)
  · exact hnone _ hab

end Libbash
