import Libbash.Lib.Words
import Libbash.Interp.Splitting

/-!
# The metadata of an ebuild

`write_metadata` prints one line for each metadata variable: its words, and after them
those of the variable that the eclasses have filled (`E_`). A word is left out when the
text of the line so far has it as a part, and so also when it is only a part of another
word; and the first element of an array is read that may have none. `writesMetadata_iff`
says for which variables no line suffers from that.
-/

namespace Libbash

open Lib

/-! ## The code -/

/-- `std::unordered_map<std::string, std::vector<std::string>>`. -/
abbrev Variables := String → Option (List String)

/-- How `write_metadata` fails. -/
inductive MetadataFailure where
  /-- `boost::bad_lexical_cast`. -/
  | badLexicalCast
  /-- The element 0 of an empty vector, which is undefined. -/
  | noElement
  deriving DecidableEq, Repr

/-- What `write_metadata` prints, one text for each `std::endl`. -/
abbrev Report (α : Type) := Except MetadataFailure α

def metadataNames : List String :=
  ["DEPEND", "RDEPEND", "SLOT", "SRC_URI", "RESTRICT", "HOMEPAGE", "LICENSE", "DESCRIPTION",
    "KEYWORDS", "INHERITED", "IUSE", "REQUIRED_USE", "PDEPEND", "PROVIDE", "EAPI", "PROPERTIES"]

def phases : List (String × String) :=
  [("pkg_pretend", "ppretend"), ("pkg_setup", "setup"), ("src_unpack", "unpack"),
    ("src_prepare", "prepare"), ("src_configure", "configure"), ("src_compile", "compile"),
    ("src_test", "test"), ("src_install", "install"), ("pkg_preinst", "preinst"),
    ("pkg_postinst", "postinst"), ("pkg_prerm", "prerm"), ("pkg_postrm", "postrm"),
    ("pkg_config", "config"), ("pkg_info", "info"), ("pkg_nofetch", "nofetch")]

/-- `values[0]`. -/
def element0 : List String → Report String
  | [] => .error .noElement
  | value :: _ => .ok value

/-- `boost::lexical_cast<int>`, which throws. -/
def castInt (text : String) : Report Int :=
  match lexicalCastInt text with
  | some n => .ok n
  | none => .error .badLexicalCast

/-- `boost::is_any_of(" \t\n")`. -/
def isAnyOfBlanks (c : Char) : Bool := " \t\n".toList.contains c

/-- `boost::trim_if`. -/
def trimBlanks (text : String) : String := String.ofList (trimIf isAnyOfBlanks text.toList)

/-- `boost::split` with `token_compress_on`. -/
def splitBlanks (text : String) : List String :=
  (splitRuns isAnyOfBlanks text.toList).map String.ofList

/-- `value.find(token) != npos`. -/
def hasPart (value token : String) : Prop := token.toList <:+: value.toList

instance (value token : String) : Decidable (hasPart value token) :=
  inferInstanceAs (Decidable (_ <:+: _))

/-- Append a token of the global value if that causes no duplication. -/
def appendToken (value token : String) : String :=
  if hasPart value token then value else value ++ (" " ++ token)

/-- The value of a metadata variable, that may not be set. -/
def ownValue (vars : Variables) (name : String) : Report String :=
  match vars name with
  | none => .ok ""
  | some values => element0 values

/-- Append the tokens of the global value, which is trimmed where it is stored. -/
def appendGlobal (vars : Variables) (name value : String) : Report (String × Variables) :=
  match vars ("E_" ++ name) with
  | none => .ok (value, vars)
  | some values => do
    let trimmed := trimBlanks (← element0 values)
    .ok ((splitBlanks trimmed).foldl appendToken value,
      Function.update vars ("E_" ++ name) (some (values.set 0 trimmed)))

/-- The tokens of a line. Those of `INHERITED` are sorted. -/
def formatLine (name : String) (splittedValue : List String) : String :=
  " ".intercalate
    (if name = "INHERITED" then splittedValue.insertionSort (· ≤ ·) else splittedValue)

/-- The line of one metadata variable, and the variables after it. -/
def metadataLine (vars : Variables) (name : String) : Report (String × Variables) := do
  let value ← ownValue vars name
  let merged ← appendGlobal vars name value
  .ok (formatLine name (splitBlanks (trimBlanks merged.1)), merged.2)

/-- The lines of the metadata variables in turn. -/
def metadataLines (vars : Variables) : List String → Report (List String × Variables)
  | [] => .ok ([], vars)
  | name :: names => do
    let first ← metadataLine vars name
    let others ← metadataLines first.2 names
    .ok (first.1 :: others.1, others.2)

/-- The last lines. A list generator fails on a set without an element, and nothing is
printed any more on the stream. -/
def phaseLines (functions : List String) : List String :=
  let sortedPhases := (functions.filterMap (List.lookup · phases)).dedup.insertionSort (· ≤ ·)
  if sortedPhases = [] then [] else [" ".intercalate sortedPhases, "", "", "", "", ""]

/-- `RDEPEND` is `DEPEND` when it is not set, before `EAPI` 4. -/
def withRdepend (vars : Variables) (eapi : Int) : Variables :=
  if eapi < 4 ∧ vars "RDEPEND" = none ∧ vars "DEPEND" ≠ none then
    Function.update vars "RDEPEND" (vars "DEPEND")
  else vars

/-- The number of `EAPI`, that may not be set. -/
def eapiOf (vars : Variables) : Report Int :=
  match vars "EAPI" with
  | none => .ok 0
  | some values => do castInt (← element0 values)

/-- `write_metadata`. -/
def writeMetadata (vars : Variables) (functions : List String) :
    Report (List String × Variables) := do
  let eapi ← eapiOf vars
  let printed ← metadataLines (withRdepend vars eapi) metadataNames
  .ok (printed.1 ++ phaseLines functions, printed.2)

/-! ## What it should print -/

/-- The words of a text. -/
def words (text : String) : List String :=
  (fields (text.toList.map (.mark isAnyOfBlanks))).map String.ofList

/-- The words of a variable, that may have none. -/
def wordsOf (vars : Variables) (name : String) : List String :=
  words (((vars name).bind List.head?).getD "")

/-- The words of the variable, and after them those of the global one that are new. -/
def expectedLine (vars : Variables) (name : String) : String :=
  formatLine name (appendNew Eq (wordsOf vars name) (wordsOf vars ("E_" ++ name)))

/-- The number of some decimal digits. -/
def decimalNumber (ds : List Char) : Option Nat :=
  if ds ≠ [] ∧ ds.all Char.isDigit then some (Nat.ofDigitChars 10 ds 0) else none

/-- A decimal integer of any size, with or without a sign. -/
def readInteger (text : String) : Option Int :=
  match text.toList with
  | '-' :: ds => (decimalNumber ds).map fun n : Nat => -(n : Int)
  | '+' :: ds => (decimalNumber ds).map Int.ofNat
  | ds => (decimalNumber ds).map Int.ofNat

/-- The integer that `EAPI` stands for; when it is not set, 0. -/
def HasEapi (vars : Variables) (eapi : Int) : Prop :=
  match vars "EAPI" with
  | none => eapi = 0
  | some values => values.head?.bind readInteger = some eapi

/-- Every metadata variable has the line that it should have. -/
def WritesMetadata (vars : Variables) (functions : List String) (eapi : Int) : Prop :=
  ∃ rest vars', writeMetadata vars functions =
    .ok (metadataNames.map (expectedLine (withRdepend vars eapi)) ++ rest, vars')

/-! ## Words of a text -/

section Words

variable {text value token : String}

/-- A token: not empty, and without a blank. -/
def IsToken (token : String) : Prop :=
  token ≠ "" ∧ ∀ c ∈ token.toList, isAnyOfBlanks c = false

theorem isToken_of_mem_words (h : token ∈ words text) : IsToken token :=
  isWord_of_mem_lineWords h

/-- `boost::split` after `boost::trim_if` gives the words of a text, and for a text
without a word one empty token. -/
theorem splitBlanks_trimBlanks (text : String) :
    splitBlanks (trimBlanks text) = words text ∨
      splitBlanks (trimBlanks text) = [""] ∧ words text = [] := by
  have hwords : splitFields " \t\n" text = words text := splitFields_eq _ _
  unfold splitBlanks trimBlanks
  rw [String.toList_ofList, ← hwords]
  show _ = (if (trimIf isAnyOfBlanks text.toList).isEmpty then [] else
      (splitRuns isAnyOfBlanks (trimIf isAnyOfBlanks text.toList)).map String.ofList) ∨
    _ ∧ (if (trimIf isAnyOfBlanks text.toList).isEmpty then [] else
      (splitRuns isAnyOfBlanks (trimIf isAnyOfBlanks text.toList)).map String.ofList) = _
  by_cases hempty : trimIf isAnyOfBlanks text.toList = []
  · right
    rw [hempty]
    exact ⟨rfl, rfl⟩
  · left
    rw [if_neg (mt List.isEmpty_iff.mp hempty)]

/-- The line is the one of the words. -/
theorem formatLine_splitBlanks (name text : String) :
    formatLine name (splitBlanks (trimBlanks text)) = formatLine name (words text) := by
  rcases splitBlanks_trimBlanks text with h | ⟨h, hwords⟩
  · rw [h]
  · rw [h, hwords]
    unfold formatLine
    split <;> rfl

theorem hasPart_refl (token : String) : hasPart token token := hasInfix_refl token

theorem appendToken_eq : appendToken = addWord ' ' := by
  funext value token
  have hblank : String.singleton ' ' = " " := by decide
  unfold appendToken addWord
  rw [hblank]
  rfl

/-- The tokens that are not parts of the text come in. -/
theorem words_foldl (value : String) {tokens : List String} (h : ∀ t ∈ tokens, IsToken t) :
    words (tokens.foldl appendToken value) = appendNew hasPart (words value) tokens := by
  rw [appendToken_eq]
  exact lineWords_foldl (p := isAnyOfBlanks) rfl value h

/-- The empty token of a global value without words changes nothing. -/
theorem foldl_splitBlanks (value text : String) :
    (splitBlanks (trimBlanks text)).foldl appendToken value =
      (words text).foldl appendToken value := by
  rcases splitBlanks_trimBlanks text with h | ⟨h, hwords⟩
  · rw [h]
  · rw [h, hwords]
    have hpart : hasPart value "" := List.nil_infix
    exact if_pos hpart

/-- Lines of the same words only are the same. -/
theorem words_intercalate {tokens : List String} (h : ∀ t ∈ tokens, IsToken t) :
    words (" ".intercalate tokens) = tokens := by
  have hjoined : splitFields " \t\n" ((String.singleton ' ').intercalate tokens) = tokens := by
    apply splitFields_joined (by simp)
    intro t ht
    refine ⟨(h t ht).1, ?_⟩
    intro c hc hmem
    have hplain : " \t\n".toList.contains c = false := (h t ht).2 c hc
    rw [List.contains_iff_mem.mpr hmem] at hplain
    cases hplain
  rw [splitFields_eq] at hjoined
  exact hjoined

end Words

/-! ## One line -/

section Line

variable {vars vars' : Variables} {name : String} {names : List String}

/-- The line that the code prints. -/
def printedLine (vars : Variables) (name : String) : String :=
  formatLine name (appendNew hasPart (wordsOf vars name) (wordsOf vars ("E_" ++ name)))

/-- No array that the line is made of is empty. -/
def HasElements (vars : Variables) (name : String) : Prop :=
  vars name ≠ some [] ∧ vars ("E_" ++ name) ≠ some []

/-- The variables after the line. -/
def trimGlobal (vars : Variables) (name : String) : Variables :=
  match vars ("E_" ++ name) with
  | some (value :: values) =>
    Function.update vars ("E_" ++ name) (some (trimBlanks value :: values))
  | _ => vars

theorem trimGlobal_of_ne {key : String} (h : key ≠ "E_" ++ name) :
    trimGlobal vars name key = vars key := by
  unfold trimGlobal
  cases vars ("E_" ++ name) with
  | none => rfl
  | some values =>
    cases values with
    | nil => rfl
    | cons value values => exact Function.update_of_ne h _ _

theorem ownValue_eq (h : vars name ≠ some []) :
    ∃ own, ownValue vars name = .ok own ∧ wordsOf vars name = words own := by
  unfold ownValue wordsOf
  cases hvalues : vars name with
  | none => exact ⟨"", rfl, rfl⟩
  | some values =>
    cases values with
    | nil => exact absurd hvalues h
    | cons value values => exact ⟨value, rfl, rfl⟩

/-- The words of the value with the global one. -/
theorem appendGlobal_eq (h : vars ("E_" ++ name) ≠ some []) (own : String) :
    ∃ value, appendGlobal vars name own = .ok (value, trimGlobal vars name) ∧
      words value = appendNew hasPart (words own) (wordsOf vars ("E_" ++ name)) := by
  unfold appendGlobal trimGlobal wordsOf
  cases hvalues : vars ("E_" ++ name) with
  | none => exact ⟨own, rfl, rfl⟩
  | some values =>
    cases values with
    | nil => exact absurd hvalues h
    | cons value values =>
      refine ⟨_, rfl, ?_⟩
      rw [foldl_splitBlanks]
      exact words_foldl own fun t ht => isToken_of_mem_words ht

/-- What `metadataLine` does, in terms of words. -/
theorem metadataLine_eq (h : HasElements vars name) :
    metadataLine vars name = .ok (printedLine vars name, trimGlobal vars name) := by
  obtain ⟨own, hown, hwords⟩ := ownValue_eq h.1
  obtain ⟨value, hvalue, hmerged⟩ := appendGlobal_eq h.2 own
  unfold metadataLine printedLine
  rw [hwords, ← hmerged, ← formatLine_splitBlanks, hown]
  show (do
    let merged ← appendGlobal vars name own
    .ok (formatLine name (splitBlanks (trimBlanks merged.1)), merged.2)) = _
  rw [hvalue]
  rfl

/-- An empty array ends in the element that it does not have. -/
theorem metadataLine_error (h : ¬HasElements vars name) :
    metadataLine vars name = .error .noElement := by
  unfold metadataLine
  by_cases hown : vars name = some []
  · unfold ownValue
    rw [hown]
    rfl
  · have hglobal : vars ("E_" ++ name) = some [] := by
      by_contra hne
      exact h ⟨hown, hne⟩
    obtain ⟨own, hvalue, -⟩ := ownValue_eq hown
    unfold appendGlobal
    rw [hvalue, hglobal]
    rfl

/-! ## All lines -/

/-- The variables are the same for the lines of some names. -/
def SameFor (names : List String) (vars vars' : Variables) : Prop :=
  ∀ name ∈ names, vars name = vars' name ∧ vars ("E_" ++ name) = vars' ("E_" ++ name)

theorem printedLine_congr (h : SameFor names vars vars') (hname : name ∈ names) :
    printedLine vars name = printedLine vars' name := by
  unfold printedLine wordsOf
  rw [(h name hname).1, (h name hname).2]

theorem hasElements_congr (h : SameFor names vars vars') (hname : name ∈ names) :
    HasElements vars name ↔ HasElements vars' name := by
  unfold HasElements
  rw [(h name hname).1, (h name hname).2]

/-- Names of which none is the global one of another. -/
def Apart (names : List String) : Prop :=
  names.Nodup ∧ ∀ name ∈ names, ¬"E_".toList <+: name.toList

theorem apart_metadataNames : Apart metadataNames := by
  unfold Apart
  decide +kernel

theorem ne_global {key : String} (h : ¬"E_".toList <+: key.toList) : key ≠ "E_" ++ name := by
  rintro rfl
  apply h
  rw [String.toList_append]
  exact List.prefix_append _ _

theorem sameFor_trimGlobal (vars : Variables) (h : Apart (name :: names)) :
    SameFor names (trimGlobal vars name) vars := by
  obtain ⟨hnodup, hplain⟩ := h
  intro key hkey
  constructor
  · exact trimGlobal_of_ne (ne_global (hplain key (List.mem_cons_of_mem _ hkey)))
  · apply trimGlobal_of_ne
    intro heq
    have hsame : key = name := by
      apply String.toList_inj.mp
      have := congrArg String.toList heq
      rwa [String.toList_append, String.toList_append, List.append_cancel_left_eq] at this
    exact (List.nodup_cons.mp hnodup).1 (hsame ▸ hkey)

/-- All lines are printed exactly when no array is empty. -/
theorem metadataLines_eq_ok_iff (h : Apart names) {lines : List String} :
    (∃ vars', metadataLines vars names = .ok (lines, vars')) ↔
      (∀ name ∈ names, HasElements vars name) ∧ lines = names.map (printedLine vars) := by
  induction names generalizing vars lines with
  | nil =>
    unfold metadataLines
    constructor
    · rintro ⟨vars', heq⟩
      cases heq
      exact ⟨by simp, rfl⟩
    · rintro ⟨-, rfl⟩
      exact ⟨vars, rfl⟩
  | cons name names ih =>
    have hrest : Apart names :=
      ⟨(List.nodup_cons.mp h.1).2, fun n hn => h.2 n (List.mem_cons_of_mem _ hn)⟩
    have hsame := sameFor_trimGlobal vars h
    unfold metadataLines
    by_cases helements : HasElements vars name
    · rw [metadataLine_eq helements]
      have hmap : names.map (printedLine (trimGlobal vars name)) = names.map (printedLine vars) :=
        List.map_congr_left fun n hn => printedLine_congr hsame hn
      have hall : (∀ n ∈ names, HasElements (trimGlobal vars name) n) ↔
          ∀ n ∈ names, HasElements vars n :=
        forall₂_congr fun n hn => hasElements_congr hsame hn
      rw [List.forall_mem_cons, List.map_cons, ← hmap, ← hall]
      show (∃ vars', (do
        let others ← metadataLines (trimGlobal vars name) names
        .ok (printedLine vars name :: others.1, others.2)) = Except.ok (lines, vars')) ↔ _
      constructor
      · rintro ⟨vars', heq⟩
        cases hothers : metadataLines (trimGlobal vars name) names with
        | error e =>
          rw [hothers] at heq
          cases heq
        | ok others =>
          rw [hothers] at heq
          cases heq
          obtain ⟨helems, hlines⟩ := (ih hrest).mp ⟨others.2, hothers⟩
          exact ⟨⟨helements, helems⟩, by rw [← hlines]⟩
      · rintro ⟨⟨-, helems⟩, rfl⟩
        obtain ⟨vars', hothers⟩ := (ih hrest).mpr ⟨helems, rfl⟩
        rw [hothers]
        exact ⟨vars', rfl⟩
    · rw [metadataLine_error helements]
      constructor
      · rintro ⟨vars', heq⟩
        cases heq
      · rintro ⟨hall, -⟩
        exact absurd (hall name List.mem_cons_self) helements

end Line

/-! ## The number of `EAPI` -/

section Eapi

variable {vars : Variables} {eapi : Int}

theorem magnitude_eq_some_iff {limit n : Nat} {ds : List Char} :
    magnitude limit ds = some n ↔ decimalNumber ds = some n ∧ n ≤ limit := by
  unfold magnitude decimalNumber
  by_cases hdigits : ds ≠ [] ∧ ds.all Char.isDigit
  · rw [if_pos hdigits]
    constructor
    · intro h
      split_ifs at h with hall
      cases h
      exact ⟨rfl, hall.2.2⟩
    · rintro ⟨h, hle⟩
      cases h
      rw [if_pos ⟨hdigits.1, hdigits.2, hle⟩]
  · rw [if_neg hdigits, if_neg fun h => hdigits ⟨h.1, h.2.1⟩]
    simp

theorem readInteger_minus {text : String} {ds : List Char} (h : text.toList = '-' :: ds) :
    readInteger text = (decimalNumber ds).map fun n : Nat => -(n : Int) := by
  rw [readInteger, h]
  rfl

theorem readInteger_plus {text : String} {ds : List Char} (h : text.toList = '+' :: ds) :
    readInteger text = (decimalNumber ds).map Int.ofNat := by
  rw [readInteger, h]
  rfl

theorem readInteger_unsigned {text : String} (hminus : ∀ ds, text.toList ≠ '-' :: ds)
    (hplus : ∀ ds, text.toList ≠ '+' :: ds) :
    readInteger text = (decimalNumber text.toList).map Int.ofNat := by
  unfold readInteger
  split
  · next heq => exact absurd heq (hminus _)
  · next heq => exact absurd heq (hplus _)
  · rfl

/-- `boost::lexical_cast` reads the integers of its type. -/
theorem lexicalCastInt_eq_some_iff (text : String) (n : Int) :
    lexicalCastInt text = some n ↔ readInteger text = some n ∧ -2 ^ 31 ≤ n ∧ n < 2 ^ 31 := by
  have hunsigned : ∀ ds : List Char, (magnitude (2 ^ 31 - 1) ds).map Int.ofNat = some n ↔
      (decimalNumber ds).map Int.ofNat = some n ∧ -2 ^ 31 ≤ n ∧ n < 2 ^ 31 := by
    intro ds
    rw [Option.map_eq_some_iff, Option.map_eq_some_iff]
    constructor
    · rintro ⟨m, hm, rfl⟩
      obtain ⟨hdigits, hle⟩ := magnitude_eq_some_iff.mp hm
      refine ⟨⟨m, hdigits, rfl⟩, ?_⟩
      simp only [Int.ofNat_eq_natCast]
      omega
    · rintro ⟨⟨m, hm, rfl⟩, -, hlt⟩
      simp only [Int.ofNat_eq_natCast] at hlt
      exact ⟨m, magnitude_eq_some_iff.mpr ⟨hm, by omega⟩, rfl⟩
  unfold lexicalCastInt
  split
  · next ds heq =>
    rw [readInteger_minus heq]
    constructor
    · intro h
      obtain ⟨k, hk, rfl⟩ := Option.map_eq_some_iff.mp h
      obtain ⟨m, hm, hmk⟩ := Option.bind_eq_some_iff.mp hk
      cases hmk
      obtain ⟨hdigits, hle⟩ := magnitude_eq_some_iff.mp hm
      refine ⟨Option.map_eq_some_iff.mpr ⟨m, hdigits, rfl⟩, ?_⟩
      omega
    · rintro ⟨h, hle, -⟩
      obtain ⟨m, hm, rfl⟩ := Option.map_eq_some_iff.mp h
      apply Option.map_eq_some_iff.mpr
      exact ⟨m, Option.bind_eq_some_iff.mpr
        ⟨m, magnitude_eq_some_iff.mpr ⟨hm, by omega⟩, rfl⟩, rfl⟩
  · next heq =>
    rw [readInteger_plus heq]
    exact hunsigned _
  · next hminus hplus =>
    rw [readInteger_unsigned hminus hplus]
    exact hunsigned _

theorem eapiOf_eq (h : HasEapi vars eapi) :
    eapiOf vars = if -2 ^ 31 ≤ eapi ∧ eapi < 2 ^ 31 then .ok eapi else .error .badLexicalCast := by
  unfold HasEapi at h
  unfold eapiOf
  cases hvalues : vars "EAPI" with
  | none =>
    rw [hvalues] at h
    rw [show eapi = 0 from h]
    rfl
  | some values =>
    rw [hvalues] at h
    cases values with
    | nil => cases h
    | cons value values =>
      have hinteger : readInteger value = some eapi := h
      show castInt value = _
      unfold castInt
      split_ifs with hrange
      · rw [(lexicalCastInt_eq_some_iff value eapi).mpr ⟨hinteger, hrange⟩]
      · cases hcast : lexicalCastInt value with
        | none => rfl
        | some n =>
          obtain ⟨hread, hn⟩ := (lexicalCastInt_eq_some_iff value n).mp hcast
          rw [hinteger] at hread
          cases hread
          exact absurd hn hrange

end Eapi

/-! ## When no token is lost -/

section Report

variable {vars : Variables} {functions : List String} {eapi : Int} {name : String}

/-- No array is empty, and a token of the global value that is a part of one of the
variable, or of one before it, is itself one of these. -/
def LineKept (vars : Variables) (name : String) : Prop :=
  HasElements vars name ∧ AppendsAll hasPart (wordsOf vars name) (wordsOf vars ("E_" ++ name))

/-- The number is an `int`, and all lines are kept. -/
def MetadataKept (vars : Variables) (eapi : Int) : Prop :=
  (-2 ^ 31 ≤ eapi ∧ eapi < 2 ^ 31) ∧
    ∀ name ∈ metadataNames, LineKept (withRdepend vars eapi) name

theorem isToken_of_mem_appendNew {covers : String → String → Prop} [DecidableRel covers]
    {line tokens : List String} (hline : ∀ t ∈ line, IsToken t) (h : ∀ t ∈ tokens, IsToken t) :
    ∀ t ∈ appendNew covers line tokens, IsToken t := by
  induction tokens generalizing line with
  | nil => exact hline
  | cons token tokens ih =>
    have hrest : ∀ t ∈ tokens, IsToken t := fun t ht => h t (List.mem_cons_of_mem _ ht)
    unfold appendNew
    split
    · exact ih hline hrest
    · apply ih _ hrest
      intro t ht
      rcases List.mem_append.mp ht with ht | ht
      · exact hline t ht
      · rw [List.mem_singleton.mp ht]
        exact h token List.mem_cons_self

/-- The words of a line are its tokens, in another order for `INHERITED`. -/
theorem mem_words_formatLine (name : String) {tokens : List String}
    (h : ∀ t ∈ tokens, IsToken t) (t : String) :
    t ∈ words (formatLine name tokens) ↔ t ∈ tokens := by
  have hperm : (if name = "INHERITED" then tokens.insertionSort (· ≤ ·) else tokens).Perm
      tokens := by
    split
    · exact List.perm_insertionSort _ _
    · exact List.Perm.refl _
  unfold formatLine
  rw [words_intercalate fun t ht => h t (hperm.mem_iff.mp ht)]
  exact hperm.mem_iff

/-- A line is the one that it should be exactly when no token is lost. -/
theorem printedLine_eq_iff :
    printedLine vars name = expectedLine vars name ↔
      AppendsAll hasPart (wordsOf vars name) (wordsOf vars ("E_" ++ name)) := by
  have htokens : ∀ key, ∀ t ∈ wordsOf vars key, IsToken t := fun key t ht =>
    isToken_of_mem_words ht
  unfold printedLine expectedLine
  constructor
  · intro heq
    apply appendsAll_of_subset hasPart_refl
    intro t ht
    rw [← mem_words_formatLine name
      (isToken_of_mem_appendNew (htokens name) (htokens ("E_" ++ name))), heq]
    rwa [mem_words_formatLine name
      (isToken_of_mem_appendNew (htokens name) (htokens ("E_" ++ name)))]
  · intro h
    rw [appendNew_eq_of_appendsAll hasPart_refl h]

/-- What `write_metadata` prints, when it ends. -/
theorem writeMetadata_eq_ok_iff (functions : List String) (h : HasEapi vars eapi)
    {lines : List String} :
    (∃ vars', writeMetadata vars functions = .ok (lines, vars')) ↔
      (-2 ^ 31 ≤ eapi ∧ eapi < 2 ^ 31) ∧
        (∀ name ∈ metadataNames, HasElements (withRdepend vars eapi) name) ∧
        lines = metadataNames.map (printedLine (withRdepend vars eapi)) ++
          phaseLines functions := by
  unfold writeMetadata
  rw [eapiOf_eq h]
  split_ifs with hrange
  · show (∃ vars', (do
      let printed ← metadataLines (withRdepend vars eapi) metadataNames
      .ok (printed.1 ++ phaseLines functions, printed.2)) = Except.ok (lines, vars')) ↔ _
    constructor
    · rintro ⟨vars', heq⟩
      cases hprinted : metadataLines (withRdepend vars eapi) metadataNames with
      | error e =>
        rw [hprinted] at heq
        cases heq
      | ok printed =>
        rw [hprinted] at heq
        cases heq
        obtain ⟨helements, hlines⟩ :=
          (metadataLines_eq_ok_iff apart_metadataNames).mp ⟨printed.2, hprinted⟩
        exact ⟨hrange, helements, by rw [← hlines]⟩
    · rintro ⟨-, helements, rfl⟩
      obtain ⟨vars', hprinted⟩ :=
        (metadataLines_eq_ok_iff apart_metadataNames).mpr ⟨helements, rfl⟩
      rw [hprinted]
      exact ⟨vars', rfl⟩
  · constructor
    · rintro ⟨vars', heq⟩
      cases heq
    · rintro ⟨h, -⟩
      exact absurd h hrange

theorem metadataKept_of_writesMetadata (h : HasEapi vars eapi)
    (hw : WritesMetadata vars functions eapi) : MetadataKept vars eapi := by
  obtain ⟨rest, vars', heq⟩ := hw
  obtain ⟨hrange, helements, hlines⟩ := (writeMetadata_eq_ok_iff functions h).mp ⟨vars', heq⟩
  have hsame := (List.append_inj hlines (by rw [List.length_map, List.length_map])).1
  refine ⟨hrange, ?_⟩
  intro name hname
  refine ⟨helements name hname, ?_⟩
  exact printedLine_eq_iff.mp (List.map_inj_left.mp hsame name hname).symm

end Report

/-- `write_metadata` keeps every token exactly when no array that it reads is empty and no
token of a global value is only a part of another token. -/
theorem writesMetadata_iff (vars : Variables) (functions : List String) (eapi : Int)
    (h : HasEapi vars eapi) :
    WritesMetadata vars functions eapi ↔ MetadataKept vars eapi := by
  constructor
  · exact metadataKept_of_writesMetadata h
  · rintro ⟨hrange, hkept⟩
    have hsame : metadataNames.map (printedLine (withRdepend vars eapi)) =
        metadataNames.map (expectedLine (withRdepend vars eapi)) := by
      apply List.map_congr_left
      intro name hname
      exact printedLine_eq_iff.mpr (hkept name hname).2
    obtain ⟨vars', heq⟩ := (writeMetadata_eq_ok_iff functions h).mpr
      ⟨hrange, fun name hname => (hkept name hname).1, rfl⟩
    rw [hsame] at heq
    exact ⟨_, vars', heq⟩

/-- An ebuild with a flag that its eclass has too. -/
def ebuild : Variables
  | "EAPI" => some ["3"]
  | "DEPEND" => some ["  dev-db/sqlite:3\n"]
  | "E_DEPEND" => some ["foo/bar dev-db/sqlite:3"]
  | "INHERITED" => some ["foo bar"]
  | _ => none

theorem writesMetadata_ebuild : WritesMetadata ebuild ["pkg_setup"] 3 :=
  (writesMetadata_iff ebuild ["pkg_setup"] 3 rfl).mpr (by
    unfold MetadataKept LineKept HasElements
    decide +kernel)

/-- An ebuild with a flag that has the name of the one of its eclass as a part. -/
def longFlag : Variables
  | "IUSE" => some ["foobar"]
  | "E_IUSE" => some ["foo"]
  | _ => none

/-- The flag `foo` is missing in the line. -/
theorem not_writesMetadata_longFlag :
    (metadataLine longFlag "IUSE").map Prod.fst = .ok "foobar" ∧
      expectedLine longFlag "IUSE" = "foobar foo" ∧ ¬WritesMetadata longFlag [] 0 := by
  refine ⟨by decide +kernel, by decide +kernel, ?_⟩
  intro h
  have heapi : HasEapi longFlag 0 := rfl
  have hkept := (metadataKept_of_writesMetadata heapi h).2 "IUSE" (by decide +kernel)
  exact absurd hkept.2 (by decide +kernel)

end Libbash
