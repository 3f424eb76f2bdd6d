import Libbash.Interp.Prefixes
import Libbash.Lib.Products

/-!
# Substitutions

`${x/p/r}`, `${x/#p/r}` and `${x/%p/r}`, for patterns without extended patterns. The
first match at a place is the longest one, so that the first two replace what they
should. The last one replaces all matches that end where the value ends: after the
longest suffix it also replaces the empty one, if the pattern matches it
(`substitution_iff`).
-/

namespace Libbash

open Lib Lib.Comp Lib.Program Computability

/-! ## Languages of simple patterns -/

/-- Nothing but `*` and empty texts, and not only empty texts. -/
def Glob.OnlyStars (E : Glob) : Prop :=
  .basic .matchAll ∈ E.toList ∧
    ∀ i ∈ E.toList, i = .basic .matchAll ∨ ∃ quoted, i = .basic (.part ⟨"", quoted⟩)

section Stars

variable {compile : String → Regex Char} {E : Glob}

/-- A simple item matches the empty word when it is `*` or an empty text. -/
theorem nil_mem_basic {b : Piece} (hsets : ∀ a ∈ b.brackets, ∃ p, compile a.text = .set p)
    (h : [] ∈ b.lang (compiledWords compile)) :
    b = .matchAll ∨ ∃ quoted, b = .part ⟨"", quoted⟩ := by
  cases b with
  | matchAll => exact .inl rfl
  | matchOne =>
    obtain ⟨c, hc⟩ := h
    cases hc
  | bracket b =>
    obtain ⟨p, hp⟩ := hsets b (List.mem_singleton_self b)
    have hmem : [] ∈ (compile b.text).lang := h
    rw [hp] at hmem
    obtain ⟨c, -, hc⟩ := hmem
    cases hc
  | part t =>
    have ht : [] = t.value.toList := h
    refine .inr ⟨t.quoted, ?_⟩
    rw [← String.toList_eq_nil_iff.mp ht.symm]

theorem Glob.OnlyStars.mem_lang (h : E.OnlyStars) (w : List Char) :
    w ∈ E.lang (compiledWords compile) := by
  rw [Glob.lang_eq_prod]
  refine mem_prod_of_all (fun L hL => ?_) ?_ w
  · obtain ⟨i, hi, rfl⟩ := List.mem_map.mp hL
    rcases h.2 i hi with rfl | ⟨quoted, rfl⟩
    · exact trivial
    · exact rfl
  · exact ⟨_, List.mem_map.mpr ⟨_, h.1, rfl⟩, fun _ => trivial⟩

/-- A simple pattern that matches the empty word, and does not consist of `*`, matches
nothing else. -/
theorem Glob.Simple.lang_eq_one (h : E.Simple) (hsets : E.Sets compile)
    (hnil : [] ∈ E.lang (compiledWords compile)) (hstars : ¬E.OnlyStars) :
    E.lang (compiledWords compile) = 1 := by
  rw [Glob.lang_eq_prod] at hnil ⊢
  have hcases (i : PatternItem CharacterSet Fragment) (hi : i ∈ E.toList) :
      i = .basic .matchAll ∨ ∃ quoted, i = .basic (.part ⟨"", quoted⟩) := by
    have hmem := nil_mem_prod.mp hnil _ (List.mem_map_of_mem hi)
    have hbrackets (a : CharacterSet) (ha : a ∈ i.brackets) : ∃ p, compile a.text = .set p :=
      hsets a (List.mem_flatMap.mpr ⟨i, hi, ha⟩)
    obtain ⟨b, rfl⟩ := h i hi
    rcases nil_mem_basic hbrackets hmem with rfl | ⟨quoted, rfl⟩
    · exact .inl rfl
    · exact .inr ⟨quoted, rfl⟩
  refine List.prod_eq_one fun L hL => ?_
  obtain ⟨i, hi, rfl⟩ := List.mem_map.mp hL
  rcases hcases i hi with rfl | ⟨quoted, rfl⟩
  · exact absurd ⟨hi, hcases⟩ hstars
  · rfl

end Stars

/-- When no other match follows the longest suffix. -/
theorem Glob.Simple.replaced_once_iff {compile : String → Regex Char} {E : Glob} (h : E.Simple)
    (hsets : E.Sets compile) (v word : String) :
    word.toList = [] ∨ [] ∉ E.lang (compiledWords compile) ∨
        (∀ u, u <:+ v.toList → u ∈ E.lang (compiledWords compile) → u = []) ↔
      ¬(E.OnlyStars ∧ v ≠ "" ∧ word ≠ "") := by
  rw [String.toList_eq_nil_iff]
  by_cases hstars : E.OnlyStars
  · have hall (u : List Char) : u ∈ E.lang (compiledWords compile) := hstars.mem_lang u
    have hempty : (∀ u, u <:+ v.toList → u ∈ E.lang (compiledWords compile) → u = []) ↔ v = "" := by
      constructor
      · exact fun hnone => String.toList_eq_nil_iff.mp (hnone _ List.suffix_rfl (hall _))
      · rintro rfl u hu -
        exact List.suffix_nil.mp hu
    rw [hempty]
    simp only [hall, hstars, not_true_eq_false, false_or, true_and, not_and, not_not, ne_eq]
    exact or_comm.trans Decidable.or_iff_not_imp_left
  · refine iff_of_true ?_ fun hstars' => hstars hstars'.1
    by_cases hnil : [] ∈ E.lang (compiledWords compile)
    · rw [h.lang_eq_one hsets hnil hstars]
      exact .inr (.inr fun u _ hu => (Language.mem_one u).mp hu)
    · exact .inr (.inl hnil)

/-- The first match of a simple pattern is the longest one. -/
theorem Glob.Simple.longest {compile : String → Regex Char} {E : Glob} (h : E.Simple)
    (hsets : E.Sets compile) {size : Nat} {u rest : List Char}
    (hm : (E.regex compile true).matchAt size false u = some rest) :
    ∀ x ∈ (E.regex compile true).lang, ∀ rest', u = x ++ rest' → rest.length ≤ rest'.length :=
  Regex.matchAt_wildcards (PatternItem.regex compile true) E.first E.others
    (h.isWildcard hsets true) (hsets.plain.regex true) hm

section Expansion

variable {host : Host} {compile : String → Regex Char} {n d : Nat} {s s₁ s₂ s₃ : Interpreter}
  {x : VarOrArrayName} {name : String} {index : Option UInt32} {p : PatternTree} {E : Glob}
  {w : RawString} {word : String}

/-- An expansion that replaces matches of a pattern by a text. -/
theorem run_replaceBy (kind : ReplaceKind)
    (hx : runShell host n d (Shell.varOrArrayName host x) s = some (.ok (name, index), s₁))
    (hp : runShell host n d (Shell.glob host p) s₁ = some (.ok E, s₂))
    (hw : runShell host n d (Shell.rawString w) s₂ = some (.ok word, s₃)) :
    runShell host n d (Shell.varExpansion host (.replace kind x p.tokens (some w))) s =
      runShell host n d (Shell.replaceExpansion name index (host.replace kind E.tokens word))
        s₃ := by
  rw [Shell.varExpansion, runShell_bind, bind_of_ok hx, runShell_bind,
    bind_of_ok (bashPattern_of_glob hp), runShell_bind, bind_of_ok hw]

open Occurrence in
/-- For every simple pattern and every replacement, in every state: `${x/p/r}` and
`${x/#p/r}` replace the occurrence that they should in every value that they are applied
to, and `${x/%p/r}` does when the pattern is not made up of `*`, or the value or the
replacement is empty. -/
theorem substitution_iff (hhost : Backtracks host compile)
    (hx : runShell host n d (Shell.varOrArrayName host x) s = some (.ok (name, index), s₁))
    (hp : runShell host n d (Shell.glob host p) s₁ = some (.ok E, s₂)) (hsimple : E.Simple)
    (hsets : E.Sets compile)
    (hw : runShell host n d (Shell.rawString w) s₂ = some (.ok word, s₃)) :
    ∃ first atStart atEnd : String → String,
      runShell host n d (Shell.varExpansion host (.replace .replaceFirst x p.tokens (some w))) s =
        runShell host n d (Shell.replaceExpansion name index first) s₃ ∧
      runShell host n d (Shell.varExpansion host (.replace .replaceAtStart x p.tokens (some w))) s =
        runShell host n d (Shell.replaceExpansion name index atStart) s₃ ∧
      runShell host n d (Shell.varExpansion host (.replace .replaceAtEnd x p.tokens (some w))) s =
        runShell host n d (Shell.replaceExpansion name index atEnd) s₃ ∧
      ∀ v : String,
        ReplacesBest (InText (E.lang (compiledWords compile)) v.toList) LeftmostLongest word.toList
          v.toList (first v).toList ∧
        ReplacesBest (IsPrefix (E.lang (compiledWords compile)) v.toList) Longer word.toList v.toList
          (atStart v).toList ∧
        (ReplacesBest (IsSuffix (E.lang (compiledWords compile)) v.toList) Longer word.toList v.toList
            (atEnd v).toList ↔
          ¬(E.OnlyStars ∧ v ≠ "" ∧ word ≠ "")) := by
  refine ⟨_, _, _, run_replaceBy .replaceFirst hx hp hw, run_replaceBy .replaceAtStart hx hp hw,
    run_replaceBy .replaceAtEnd hx hp hw, fun v => ?_⟩
  have hplain := hsets.plain.regex true
  rw [hhost.replace _ _ _ _ hsets.plain, hhost.replace _ _ _ _ hsets.plain,
    hhost.replace _ _ _ _ hsets.plain, ← glob_lang compile true]
  refine ⟨?_, ?_, ?_⟩
  -- The first match, the match at the start and the one at the end, each by its library rule.
  · have hfirst := Regex.replacesBest_first hplain word.toList v.toList
      fun u rest hm => hsimple.longest hsets hm
    rw [← toList_replaceFirst] at hfirst
    exact hfirst
  · have hstart := Regex.replacesBest_prefix hplain word.toList v.toList
      fun rest hm => hsimple.longest hsets hm
    rw [← toList_replaceAll] at hstart
    exact hstart
  · have hend := Regex.replacesBest_suffix_iff hplain word.toList v.toList
    rw [← toList_replaceAll] at hend
    refine hend.trans ?_
    rw [glob_lang]
    exact hsimple.replaced_once_iff hsets v word

end Expansion

/-- `*`. -/
def patternStar : PatternTree := ⟨.basic .matchAll, []⟩

def globStar : Glob := ⟨.basic .matchAll, []⟩

/-- `X` is a word. -/
def hostX : Host :=
  (Host.ofTexts [((.allExpansions, "X"), .word (.literal "X"))] []).backtracking noCharacters

open Occurrence in
/-- `${a/*/X}`, `${a/#*/X}` and `${a/%*/X}`. -/
theorem substitution_iff_star :
    ∃ t, runShell hostX 1 1 (Shell.rawString (some "X")) (extendedA "abc") = some (.ok "X", t) ∧
    ∃ first atStart atEnd : String → String,
      runShell hostX 1 1
          (Shell.varExpansion hostX (.replace .replaceFirst nameA patternStar.tokens (some (some "X"))))
          (extendedA "abc") =
        runShell hostX 1 1 (Shell.replaceExpansion "a" (some 0) first) t ∧
      runShell hostX 1 1
          (Shell.varExpansion hostX (.replace .replaceAtStart nameA patternStar.tokens (some (some "X"))))
          (extendedA "abc") =
        runShell hostX 1 1 (Shell.replaceExpansion "a" (some 0) atStart) t ∧
      runShell hostX 1 1
          (Shell.varExpansion hostX (.replace .replaceAtEnd nameA patternStar.tokens (some (some "X"))))
          (extendedA "abc") =
        runShell hostX 1 1 (Shell.replaceExpansion "a" (some 0) atEnd) t ∧
      ∀ v : String,
        ReplacesBest (InText (globStar.lang (compiledWords noCharacters)) v.toList) LeftmostLongest
          "X".toList v.toList (first v).toList ∧
        ReplacesBest (IsPrefix (globStar.lang (compiledWords noCharacters)) v.toList) Longer
          "X".toList v.toList (atStart v).toList ∧
        (ReplacesBest (IsSuffix (globStar.lang (compiledWords noCharacters)) v.toList) Longer
            "X".toList v.toList (atEnd v).toList ↔
          ¬(globStar.OnlyStars ∧ v ≠ "" ∧ "X" ≠ "")) := by
  have hword : (runShell hostX 1 1 (Shell.rawString (some "X")) (extendedA "abc")).map Prod.fst =
      some (.ok "X") := by decide +kernel
  obtain ⟨⟨r, t⟩, hrun, rfl⟩ := Option.map_eq_some_iff.mp hword
  have hsimple : globStar.Simple := fun i hi => ⟨.matchAll, List.mem_singleton.mp hi⟩
  exact ⟨t, hrun, substitution_iff (backtracks_backtracking _ _) rfl rfl hsimple nofun hrun⟩

open Occurrence in
/-- `${a/%*/X}` is `XX`. -/
theorem not_replaced_once :
    (runShell hostX 1 1
        (Shell.varExpansion hostX (.replace .replaceAtEnd nameA patternStar.tokens (some (some "X"))))
        (extendedA "abc")).map Prod.fst = some (.ok "XX") ∧
    ¬ReplacesBest (IsSuffix (globStar.lang (compiledWords noCharacters)) "abc".toList) Longer
      "X".toList "abc".toList "XX".toList := by
  refine ⟨by decide +kernel, fun hbest => ?_⟩
  have hall : IsSuffix (globStar.lang (compiledWords noCharacters)) "abc".toList
      ⟨[], "abc".toList, []⟩ := ⟨⟨rfl, trivial⟩, rfl⟩
  rcases hbest with ⟨o, ⟨⟨htext, -⟩, hafter⟩, hlongest, hout⟩ | ⟨hnone, -⟩
  · have hlong : "abc".toList.length ≤ o.found.length := hlongest _ hall
    rw [hafter, List.append_nil] at htext hout
    have hlen := congrArg List.length htext
    have hlen' := congrArg List.length hout
    simp at hlen hlen' hlong
    omega
  · exact hnone _ hall

end Libbash
