import Libbash.Lib.Fields
import Libbash.Lib.Merging

/-!
# A line of words

The words of a line are what its separators leave. Words are added to a line one after the
other, each behind a separator and only when the line does not have it as a part already; a
word is a part of the line just when it is one of a word of the line (`infix_line_iff`), so
that this is a merge of words (`lineWords_foldl`).
-/

namespace Lib

variable {p : Char → Bool} {line word : String}

/-- The words of a line, between the characters that satisfy `p`. -/
def lineWords (p : Char → Bool) (line : String) : List String :=
  (fields (line.toList.map (.mark p))).map String.ofList

/-- A word: not empty, and without a separator. -/
def IsWord (p : Char → Bool) (word : String) : Prop :=
  word ≠ "" ∧ ∀ c ∈ word.toList, p c = false

/-- The characters of the second text occur in the first one. -/
def HasInfix (line word : String) : Prop := word.toList <:+: line.toList

instance (line word : String) : Decidable (HasInfix line word) :=
  inferInstanceAs (Decidable (_ <:+: _))

theorem hasInfix_refl (word : String) : HasInfix word word := List.infix_refl _

theorem IsWord.toList_ne_nil (h : IsWord p word) : word.toList ≠ [] := fun hnil =>
  h.1 (String.toList_eq_nil_iff.mp hnil)

theorem isWord_of_mem_lineWords (h : word ∈ lineWords p line) : IsWord p word := by
  obtain ⟨f, hf, rfl⟩ := List.mem_map.mp h
  obtain ⟨⟨hne, hplain⟩, -⟩ := of_mem_fields hf
  refine ⟨?_, ?_⟩
  · intro hempty
    apply hne
    rw [← String.toList_ofList (l := f), hempty]
    rfl
  · rwa [String.toList_ofList]

/-- Another word comes last. -/
theorem lineWords_append {c : Char} (hc : p c = true) (line : String) (h : IsWord p word) :
    lineWords p (line ++ (String.singleton c ++ word)) = lineWords p line ++ [word] := by
  have hword : fields (word.toList.map (.mark p)) = [word.toList] := by
    have := fieldsFrom_plain none h.toList_ne_nil h.2 []
    rwa [List.append_nil, Option.getD_none, List.nil_append] at this
  have hsep : [c].map (Item.mark p) = [.separator] := by
    rw [List.map_singleton, Item.mark, if_pos hc]
  unfold lineWords
  rw [String.toList_append, String.toList_append, String.toList_singleton, List.map_append,
    List.map_append, hsep, List.singleton_append, fields_append_separator, hword, List.map_append,
    List.map_singleton, String.ofList_toList]

/-- A word is a part of a line when it is one of a word of it. -/
theorem infix_line_iff (h : IsWord p word) :
    HasInfix line word ↔ ∃ other ∈ lineWords p line, HasInfix other word := by
  constructor
  · intro hinfix
    obtain ⟨f, hf, hpart⟩ := exists_field_of_infix h.toList_ne_nil h.2 hinfix
    refine ⟨String.ofList f, List.mem_map.mpr ⟨f, hf, rfl⟩, ?_⟩
    unfold HasInfix
    rwa [String.toList_ofList]
  · rintro ⟨other, hother, hinfix⟩
    obtain ⟨f, hf, rfl⟩ := List.mem_map.mp hother
    unfold HasInfix at hinfix ⊢
    rw [String.toList_ofList] at hinfix
    exact hinfix.trans (of_mem_fields hf).2

/-- A line with one more word, unless it has this as a part. -/
def addWord (c : Char) (line word : String) : String :=
  if HasInfix line word then line else line ++ (String.singleton c ++ word)

/-- The words that are not parts of the line come in. -/
theorem lineWords_foldl {c : Char} (hc : p c = true) (line : String) {words : List String}
    (h : ∀ word ∈ words, IsWord p word) :
    lineWords p (words.foldl (addWord c) line) = appendNew HasInfix (lineWords p line) words := by
  induction words generalizing line with
  | nil => rfl
  | cons word words ih =>
    have hword : IsWord p word := h word List.mem_cons_self
    have hrest : ∀ w ∈ words, IsWord p w := fun w hw => h w (List.mem_cons_of_mem _ hw)
    rw [List.foldl_cons, ih _ hrest]
    unfold addWord
    rw [appendNew]
    by_cases hinfix : HasInfix line word
    · rw [if_pos hinfix, if_pos ((infix_line_iff hword).mp hinfix)]
    · rw [if_neg hinfix, if_neg (mt (infix_line_iff hword).mpr hinfix),
        lineWords_append hc line hword]

/-- No word is lost exactly when each is a word, and none that is a part of one of the line is a
different one. -/
theorem lineWords_foldl_eq_iff {c : Char} (hc : p c = true) (line : String) (words : List String) :
    lineWords p (words.foldl (addWord c) line) = appendNew Eq (lineWords p line) words ↔
      (∀ word ∈ words, IsWord p word) ∧ AppendsAll HasInfix (lineWords p line) words := by
  constructor
  · intro heq
    have hwords : ∀ word ∈ words, IsWord p word := fun word hword => by
      have hmem := (mem_appendNew_eq (lineWords p line) words).mpr (.inr hword)
      exact isWord_of_mem_lineWords (heq ▸ hmem)
    rw [lineWords_foldl hc line hwords] at heq
    refine ⟨hwords, appendsAll_of_subset hasInfix_refl ?_⟩
    rw [heq]
    exact List.Subset.refl _
  · rintro ⟨hwords, h⟩
    rw [lineWords_foldl hc line hwords]
    exact appendNew_eq_of_appendsAll hasInfix_refl h

end Lib
