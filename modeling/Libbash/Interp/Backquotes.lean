import Libbash.Lib.Marks
import Libbash.Interp.Expand

/-!
# Commands in backquotes

A command that stands in backquotes is written with a backslash in front of every
backslash and every backquote, once for each level that it is nested.
`command_substitution` takes the level off with two loops over the text, first for
the backslashes and then for the backquotes; the second one works on what the first
one has left.
-/

namespace Libbash

open Lib

namespace Shell

/-! ## The two loops -/

/-- The loops of `command_substitution`. -/
def unescapeLoops (sub : List Char) : List Char :=
  let sub := eraseLoop ['\\', '\\'] sub.length sub 0
  eraseLoop ['\\', '`'] sub.length sub 0

theorem eraseEscapes_eq_eraseMarks (protects : Char) (cs : List Char) :
    eraseEscapes protects cs = eraseMarks '\\' protects cs := by
  fun_induction eraseEscapes protects cs with
  | case1 cs ih => rw [eraseMarks_pair, ih]
  | case2 c cs hc ih =>
    have hhead : (c :: cs).head? ≠ some protects := fun h => hc (Option.some.inj h)
    rw [ih, eraseMarks_cons fun _ => hhead]
  | case3 c cs hother ih =>
    have hhead : c = '\\' → cs.head? ≠ some protects := by
      rintro rfl
      cases cs with
      | nil => simp
      | cons d ds => exact absurd rfl (hother d ds rfl)
    rw [ih, eraseMarks_cons hhead]
  | case4 => rfl

/-- The text that is parsed is what the loops leave of the inside of the backquotes. -/
theorem substitutedScript_eq_loops (sub : List Char) :
    substitutedScript (String.ofList ('`' :: sub ++ ['`'])) = String.ofList (unescapeLoops sub) := by
  unfold substitutedScript unescapeLoops
  rw [String.toList_ofList]
  simp only [List.cons_append, List.dropLast_concat, eraseEscapes_eq_eraseMarks, eraseLoop_start]

/-! ## Quoting -/

/-- A backslash in front of every backslash and every backquote. -/
def quoteBackquotes (t : List Char) : List Char := markAll '\\' (fun c => c == '\\' || c == '`') t

theorem unescapeLoops_quote (t : List Char) : unescapeLoops (quoteBackquotes t) = t := by
  unfold unescapeLoops quoteBackquotes
  simp only [eraseLoop_start]
  exact eraseMarks_mark (by decide) t

/-- A command in backquotes. -/
def backquoted (t : List Char) : List Char := '`' :: quoteBackquotes t ++ ['`']

theorem substitutedScript_backquoted (t : List Char) :
    substitutedScript (String.ofList (backquoted t)) = String.ofList t := by
  unfold backquoted
  rw [substitutedScript_eq_loops, unescapeLoops_quote]

/-! ## Levels -/

/-- What stands around the backquotes of a level. -/
structure Level where
  before : List Char
  after : List Char

/-- The script that has the command `t` inside the given levels, the outermost
first. -/
def nest : List Level → List Char → List Char
  | [], t => t
  | l :: ls, t => l.before ++ backquoted (nest ls t) ++ l.after

/-- The part of a script between the texts of a level. -/
def Level.inside (l : Level) (script : List Char) : List Char :=
  (script.drop l.before.length).take (script.length - l.before.length - l.after.length)

/-- The script that is parsed when the command substitutions of the given levels
have been evaluated, each on the part of the script before it. -/
def reached : List Level → List Char → List Char
  | [], script => script
  | l :: ls, script => reached ls (substitutedScript (String.ofList (l.inside script))).toList

theorem Level.inside_nest (l : Level) (sub : List Char) :
    l.inside (l.before ++ sub ++ l.after) = sub := by
  have hlen : (l.before ++ sub ++ l.after).length - l.before.length - l.after.length =
      sub.length := by
    simp only [List.length_append]
    omega
  unfold Level.inside
  rw [hlen, List.append_assoc, List.drop_left, List.take_left]

theorem reached_nest (ls : List Level) (t : List Char) : reached ls (nest ls t) = t := by
  induction ls with
  | nil => rfl
  | cons l ls ih =>
    rw [nest, reached, l.inside_nest, substitutedScript_backquoted, String.toList_ofList, ih]

/-- The loops undo the quoting, a command in backquotes is the command that is written
with parentheses, and every level of nesting reaches the parser as it was written. -/
theorem backquotes_nest :
    (∀ t, unescapeLoops (quoteBackquotes t) = t) ∧
      (∀ t, commandSubstitution (String.ofList (backquoted t)) =
        commandSubstitution (String.ofList ("$(".toList ++ t ++ [')']))) ∧
      ∀ ls t, reached ls (nest ls t) = t := by
  refine ⟨unescapeLoops_quote, fun t => ?_, reached_nest⟩
  have hparen : substitutedScript (String.ofList ("$(".toList ++ t ++ [')'])) =
      String.ofList t := by
    unfold substitutedScript
    rw [String.toList_ofList]
    show String.ofList ((t ++ [')']).dropLast) = _
    rw [List.dropLast_concat]
  unfold commandSubstitution
  rw [substitutedScript_backquoted, hparen]

end Shell

end Libbash
