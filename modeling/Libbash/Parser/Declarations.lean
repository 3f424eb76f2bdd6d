import Mathlib.Data.List.TakeWhile
import Libbash.Interp.Api
import Libbash.Parser.Lexer

/-!
# Declarations of bare names

The arguments of `local`, `export` and `declare` are parsed once more, with the rule
`builtin_variable_definitions`. An atom that is only a name becomes an assignment of the
variable to itself. Here is the rule on texts whose atoms are all names; what else there is,
is parsed elsewhere.
-/

namespace Libbash

/-- What `builtin_variable_definition_atom` makes of a name:
`^(EQUALS name ^(STRING ^(VAR_REF name)))`. -/
def bareDefinition (libbashName : Identifier) : VarDef :=
  .scalar (.base libbashName) (some (.unquoted (.var (.name (.base libbashName)))))

/-- `builtin_variable_definition_atom`, on a name. -/
def definitionAtom : ArithToken → Option VarDef
  | .name text =>
    if h : isIdentifier text = true then some (bareDefinition ⟨text, h⟩) else none
  | _ => none

/-- `atom (BLANK atom)*` -/
def definitionAtoms : List ArithToken → Option (List VarDef)
  | [t] => (definitionAtom t).map ([·])
  | t :: .blank :: ts => do
    let d ← definitionAtom t
    let ds ← definitionAtoms ts
    pure (d :: ds)
  | _ => none

/-- `builtin_variable_definitions`. -/
def declarationTree (isLocal : Bool) (ts : List ArithToken) : Option Tree :=
  (definitionAtoms ts).map fun defs =>
    .script (.ofSimple (.variableDefinitions isLocal defs) []) []

/-- The host whose parser reads declarations of names. -/
def Host.declaring (host : Host) : Host :=
  { host with
    parse := fun rule text =>
      match rule with
      | .builtinVariableDefinitions isLocal =>
        match declarationTree isLocal (tokens text.toList) with
        | some t => .ok t
        | none => host.parse (.builtinVariableDefinitions isLocal) text
      | rule => host.parse rule text }

/-! ## A single name -/

theorem Identifier.chars (x : Identifier) : ∃ c cs, x.text.toList = c :: cs ∧
    (c.isAlpha || c == '_') = true ∧ ∀ d ∈ cs, isNameChar d = true := by
  have hname := x.isName
  unfold isIdentifier at hname
  cases hx : x.text.toList with
  | nil =>
    rw [hx] at hname
    cases hname
  | cons c cs =>
    rw [hx] at hname
    obtain ⟨hc, hcs⟩ := Bool.and_eq_true _ _ |>.mp hname
    exact ⟨c, cs, rfl, hc, List.all_eq_true.mp hcs⟩

theorem not_isDigit_of_nameStart {c : Char} (h : (c.isAlpha || c == '_') = true) :
    ¬c.isDigit = true := by
  intro hdigit
  rcases Bool.or_eq_true _ _ |>.mp h with halpha | hunder
  · have hletter : (decide (c.val ≥ 'A'.val ∧ c.val ≤ 'Z'.val) ||
        (decide (c.val ≥ 'a'.val) && decide (c.val ≤ 'z'.val))) = true := halpha
    simp only [Char.isDigit, Bool.or_eq_true, Bool.and_eq_true, decide_eq_true_eq, ge_iff_le,
      UInt32.le_iff_toNat_le] at hletter hdigit
    have h0 : '9'.val.toNat = 57 := rfl
    have h1 : 'A'.val.toNat = 65 := rfl
    have h2 : 'a'.val.toNat = 97 := rfl
    omega
  · rw [beq_iff_eq.mp hunder] at hdigit
    exact absurd hdigit (by decide)

/-- A name is one token, unless it is a keyword. -/
theorem tokens_name (x : Identifier) (hkeyword : keywords.contains x.text = false) :
    tokens x.text.toList = [.name x.text] := by
  obtain ⟨c, cs, hx, hc, hcs⟩ := x.chars
  have htake : cs.takeWhile isWordChar = cs := List.takeWhile_eq_self_iff.mpr hcs
  have hdrop : cs.dropWhile isWordChar = [] := List.dropWhile_eq_nil_iff.mpr hcs
  have htext : String.ofList (c :: cs) = x.text := by rw [← hx, String.ofList_toList]
  have hnext : nextToken c cs = (.name x.text, []) := by
    unfold nextToken
    rw [dif_neg (not_isDigit_of_nameStart hc), if_pos hc, htake, hdrop, htext, wordToken, hkeyword,
      if_neg Bool.false_ne_true]
  rw [hx, tokens_cons, hnext]
  rfl

/-- The tree of the declaration of one name. -/
def declarationOf (isLocal : Bool) (x : Identifier) : Tree :=
  .script (.ofSimple (.variableDefinitions isLocal [bareDefinition x]) []) []

theorem parse_declaration (host : Host) (isLocal : Bool) (x : Identifier)
    (hkeyword : keywords.contains x.text = false) :
    host.declaring.parse (.builtinVariableDefinitions isLocal) x.text =
      .ok (declarationOf isLocal x) := by
  show (match declarationTree isLocal (tokens x.text.toList) with
    | some t => Except.ok t
    | none => host.parse (.builtinVariableDefinitions isLocal) x.text) = _
  have hatoms : definitionAtoms [.name x.text] = some [bareDefinition x] := by
    rw [definitionAtoms, definitionAtom, dif_pos x.isName]
    rfl
  rw [tokens_name x hkeyword, declarationTree, hatoms]
  rfl

/-- What `read_script` makes of a name. -/
theorem readScript_name (x : Identifier) : readScript true x.text = x.text := by
  obtain ⟨c, cs, hx, hc, hcs⟩ := x.chars
  have hchars : ∀ d ∈ x.text.toList, isNameChar d = true := by
    intro d hd
    rw [hx] at hd
    rcases List.mem_cons.mp hd with rfl | hd
    · unfold isNameChar Char.isAlphanum
      rcases Bool.or_eq_true _ _ |>.mp hc with h | h <;> simp [h]
    · exact hcs d hd
  have hblank : ∀ d ∈ x.text.toList, isBlank d = false := by
    intro d hd
    cases hblank : isBlank d with
    | false => rfl
    | true =>
      have hcases : (d = ' ' ∨ d = '\t') ∨ d = '\n' := by simpa [isBlank] using hblank
      rcases hcases with (rfl | rfl) | rfl <;> exact absurd (hchars _ hd) (by decide)
  have hread := @readScript_eq x.text.toList
    (fun hd => absurd (hchars _ hd) (by decide))
    (fun d hd => hblank d (List.mem_of_mem_head? hd))
    (fun d hd => hblank d (List.mem_of_mem_getLast? hd))
  rwa [String.ofList_toList] at hread

end Libbash
