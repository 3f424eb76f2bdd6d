import Libbash.Lib.Delimiters
import Libbash.Interp.ListVariables
import Libbash.Interp.WordArguments

/-!
# Splitting a word, and undoing a join

`split_word` should divide a word as field splitting does: the white characters of
`IFS` separate as a run, every other one ends a field of its own. The code takes
all characters of `IFS` for white ones, and an `IFS` that is not set for an empty
one; `splitsAsFields_iff` says where that is no difference. On the elements of a
list that have been joined with the first character of `IFS` it is none, and
`split_joined` gives the list back.
-/

namespace Libbash

open Lib Lib.Comp Lib.Program

/-! ## Field splitting -/

/-- What a character is for a value of `IFS`. -/
def delimiting (white : Char → Bool) (ifs : String) (c : Char) : Delimiting :=
  if ifs.toList.contains c then (if white c then .white else .hard) else .plain

/-- The fields of a word for a value of `IFS`, that may be empty or not set. -/
def splitAsFields (white : Char → Bool) (ifs : Option String) (word : String) : List String :=
  if ifs = some "" then [word]
  else (delimited (delimiting white (ifs.getD " \t\n")) word.toList).map String.ofList

/-- Where the code gives these fields: `IFS` is empty and the word is not; or the
characters of `IFS` that are not white follow on others than those of `IFS`, white
ones apart; or `IFS` is not set, which raises no error, and the word has no blank. -/
def SplitsWell (white : Char → Bool) (nounset : Bool) (ifs : Option String) (word : String) :
    Prop :=
  match ifs with
  | some ifs =>
    if ifs = "" then word ≠ "" else HardAfterPlain (delimiting white ifs) word.toList
  | none => nounset = false ∧ ∀ c ∈ word.toList, c ∉ [' ', '\t', '\n']

section Fields

variable {white : Char → Bool} {ifs word : String}

theorem delimiting_ne_plain (white : Char → Bool) (ifs : String) :
    (fun c => delimiting white ifs c != .plain) = ifs.toList.contains := by
  funext c
  unfold delimiting
  cases ifs.toList.contains c with
  | false => rfl
  | true => cases white c <;> rfl

theorem splitFields_eq_iff (white : Char → Bool) (ifs word : String) :
    splitFields ifs word = (delimited (delimiting white ifs) word.toList).map String.ofList ↔
      HardAfterPlain (delimiting white ifs) word.toList := by
  rw [splitFields_eq, (List.map_injective_iff.mpr ofList_injective).eq_iff,
    ← delimiting_ne_plain white, fields_eq_delimited_iff, nil_notMem_delimited]

/-- Nothing is split at no character. -/
theorem splitFields_empty (word : String) :
    splitFields "" word = if word = "" then [] else [word] := by
  have hnone : ∀ i ∈ word.toList.map (Item.mark "".toList.contains), i.isSeparator = false := by
    intro i hi
    obtain ⟨c, -, rfl⟩ := List.mem_map.mp hi
    rfl
  rw [splitFields_eq]
  by_cases hword : word = ""
  · rw [if_pos hword, hword]
    rfl
  · have hchars : word.toList ≠ [] := mt String.toList_eq_nil_iff.mp hword
    rw [if_neg hword, fields_of_noSeparator hnone (mt List.map_eq_nil_iff.mp hchars),
      List.filterMap_map]
    show [String.ofList (word.toList.filterMap some)] = [word]
    rw [List.filterMap_some, String.ofList_toList]

/-- A word without blanks is one field. -/
theorem fields_eq_single_iff (p : Char → Bool) (hword : word ≠ "") :
    fields (word.toList.map (.mark p)) = [word.toList] ↔ ∀ c ∈ word.toList, p c = false := by
  have hchars : word.toList ≠ [] := mt String.toList_eq_nil_iff.mp hword
  constructor
  · intro h c hc
    have hflat := congrArg List.flatten h
    rw [flatten_fields, List.flatten_singleton, List.filterMap_map] at hflat
    have hall := List.filterMap_length_eq_length.mp (congrArg List.length hflat) c hc
    cases hp : p c with
    | false => rfl
    | true =>
      rw [Function.comp_apply, Item.mark, if_pos hp] at hall
      cases hall
  · intro h
    have hnone : ∀ i ∈ word.toList.map (Item.mark p), i.isSeparator = false := by
      intro i hi
      obtain ⟨c, hc, rfl⟩ := List.mem_map.mp hi
      rw [Item.mark, if_neg (Bool.eq_false_iff.mp (h c hc))]
      rfl
    rw [fields_of_noSeparator hnone (mt List.map_eq_nil_iff.mp hchars), List.filterMap_map]
    congr 1
    refine (List.filterMap_congr fun c hc => ?_).trans List.filterMap_some
    rw [Function.comp_apply, Item.mark, if_neg (Bool.eq_false_iff.mp (h c hc))]
    rfl

end Fields

/-! ## Where `split_word` gives the fields -/

section Runs

variable {white : Char → Bool} {s : Interpreter}

/-- The blanks are white. -/
theorem hardAfterPlain_blanks (hwhite : ∀ c ∈ [' ', '\t', '\n'], white c = true)
    (cs : List Char) : HardAfterPlain (delimiting white " \t\n") cs := by
  intro a d b _ hd
  unfold delimiting at hd
  split at hd
  · rename_i hmem
    rw [if_pos (hwhite d (List.contains_iff_mem.mp hmem))] at hd
    cases hd
  · cases hd

theorem splitsWell_iff (hwhite : ∀ c ∈ [' ', '\t', '\n'], white c = true) (ifs : Option String)
    (word : String) :
    splitFields (ifs.getD "") word = splitAsFields white ifs word ↔
      SplitsWell white false ifs word := by
  unfold splitAsFields SplitsWell
  cases ifs with
  | some ifs =>
    simp only [Option.getD_some, Option.some_inj]
    by_cases hifs : ifs = ""
    · rw [if_pos hifs, if_pos hifs, hifs, splitFields_empty]
      by_cases hword : word = ""
      · rw [if_pos hword]
        exact iff_of_false (List.cons_ne_nil _ _).symm fun hne => hne hword
      · rw [if_neg hword]
        exact iff_of_true rfl hword
    · rw [if_neg hifs, if_neg hifs]
      exact splitFields_eq_iff white ifs word
  | none =>
    rw [if_neg (by simp), Option.getD_none, Option.getD_none,
      ← (splitFields_eq_iff white _ word).mpr (hardAfterPlain_blanks hwhite _), splitFields_empty,
      splitFields_eq, and_iff_right rfl]
    by_cases hword : word = ""
    · subst hword
      exact iff_of_true rfl fun c hc => absurd hc List.not_mem_nil
    · rw [if_neg hword]
      have hsingle : [word] = [word.toList].map String.ofList := by
        rw [List.map_singleton, String.ofList_toList]
      rw [hsingle, (List.map_injective_iff.mpr ofList_injective).eq_iff, eq_comm,
        fields_eq_single_iff _ hword]
      refine forall_congr' fun c => imp_congr_right fun _ => ?_
      rw [← Bool.not_eq_true, List.contains_iff_mem]
      exact Iff.rfl

/-- For every value of `IFS`, set or not, and every word; the characters that are
white are those of the locale, the blanks among them. -/
theorem splitsAsFields_iff (host : Host) (n d : Nat) (white : Char → Bool)
    (hwhite : ∀ c ∈ [' ', '\t', '\n'], white c = true) (word : String) (s : Interpreter) :
    runShell host n d (Shell.splitWord word) s =
        some (.ok (splitAsFields white (s.store.parameter "IFS" 0) word), s) ↔
      SplitsWell white s.nounset (s.store.parameter "IFS" 0) word := by
  by_cases hbound : s.Bound "IFS" 0
  · rw [EvaluatedWord.run_splitWord_of_bound hbound, EvaluatedWord.ok_inj_iff,
      splitsWell_iff hwhite]
    cases hifs : s.store.parameter "IFS" 0 with
    | some ifs => exact Iff.rfl
    | none =>
      have hoff : s.nounset = false := by
        cases hu : s.nounset with
        | false => rfl
        | true =>
          have hset := hbound hu
          rw [hifs] at hset
          cases hset
      rw [hoff]
  · obtain ⟨e, he⟩ := EvaluatedWord.run_splitWord_of_unbound host n d word hbound
    rw [he]
    refine iff_of_false (fun h => ?_) fun h => hbound fun hu => ?_
    · cases h
    · cases hifs : s.store.parameter "IFS" 0 with
      | some ifs => rfl
      | none =>
        rw [hifs] at h
        exact absurd (hu.symm.trans h.1) (by decide)

/-- A state with a value of `IFS`. -/
def stateWithIfs (ifs : String) : Interpreter :=
  { Interpreter.initial [] with
    store := ⟨(∅ : Scope).insert "IFS" (.new "IFS" (.scalar (.str ifs) 0) false), []⟩ }

/-- `a:b` at `:`. -/
theorem splitsAsFields_colon :
    runShell (.ofTexts [] []) 0 0 (Shell.splitWord "a:b") (stateWithIfs ":") =
        some (.ok (splitAsFields isBlank ((stateWithIfs ":").store.parameter "IFS" 0) "a:b"),
          stateWithIfs ":") ↔
      SplitsWell isBlank (stateWithIfs ":").nounset ((stateWithIfs ":").store.parameter "IFS" 0)
        "a:b" :=
  splitsAsFields_iff (.ofTexts [] []) 0 0 isBlank (by simp [isBlank]) "a:b"
    (stateWithIfs ":")

/-- `a::b` has an empty field at `:`. -/
theorem not_splitsAsFields_twoColons :
    runShell (.ofTexts [] []) 0 0 (Shell.splitWord "a::b") (stateWithIfs ":") =
        some (.ok ["a", "b"], stateWithIfs ":") ∧
      splitAsFields isBlank (some ":") "a::b" = ["a", "", "b"] ∧
      ¬∀ (host : Host) (n d : Nat) (word : String) (s : Interpreter),
        runShell host n d (Shell.splitWord word) s =
          some (.ok (splitAsFields isBlank (s.store.parameter "IFS" 0) word), s) := by
  have hifs : (stateWithIfs ":").store.parameter "IFS" 0 = some ":" := by decide +kernel
  have hbound : (stateWithIfs ":").Bound "IFS" 0 := fun _ => by rw [hifs]; rfl
  have hrun : runShell (.ofTexts [] []) 0 0 (Shell.splitWord "a::b") (stateWithIfs ":") =
      some (.ok ["a", "b"], stateWithIfs ":") := by
    rw [EvaluatedWord.run_splitWord_of_bound hbound, hifs]
    rfl
  have hfields : splitAsFields isBlank (some ":") "a::b" = ["a", "", "b"] := by decide +kernel
  refine ⟨hrun, hfields, fun h => ?_⟩
  have hall := h (.ofTexts [] []) 0 0 "a::b" (stateWithIfs ":")
  rw [hrun, hifs, hfields, EvaluatedWord.ok_inj_iff] at hall
  exact absurd hall (by decide)

end Runs

/-! ## A join is undone -/

/-- The elements of a list. One that does not exist is empty where naming it raises
no error. -/
def Interpreter.Lists (s : Interpreter) (name : String) (elements : List String) : Prop :=
  match s.store.resolveVariable name with
  | some v => v.getAllValues = elements
  | none => s.nounset = false ∧ elements = []

/-- The word `${name[*]}`, or `$*`. -/
def allElements (r : ArrayName) : Word := .string [.part (.varRef (.array r))]

section Joined

variable {host : Host} {n d : Nat} {name ifs : String} {elements : List String}
variable {s s₁ : Interpreter}

theorem run_getAllElements (host : Host) (n d : Nat) (hbound : s.Bound "IFS" 0) (hlist : s.Lists name elements) :
    runShell host n d (Shell.getAllElementsIFSJoined name) s =
      some (.ok (s.delimiter.intercalate elements), s) := by
  have harray : ∃ array, runShell host n d (Shell.resolveArray name) s = some (.ok array, s) ∧
      array.getD [] = elements := by
    unfold Interpreter.Lists at hlist
    cases hv : s.store.resolveVariable name with
    | some v =>
      rw [hv] at hlist
      exact ⟨some v.getAllValues, run_resolveArray hv, hlist⟩
    | none =>
      rw [hv] at hlist
      refine ⟨none, ?_, hlist.2.symm⟩
      rw [run_resolveArray_none hv, hlist.1, if_neg Bool.false_ne_true]
  obtain ⟨array, hrun, helements⟩ := harray
  rw [Shell.getAllElementsIFSJoined, runShell_bind, bind_of_ok (run_joiner_of_bound hbound),
    runShell_bind, bind_of_ok hrun, helements]
  rfl

theorem map_intercalate {A B : Type} (f : A → B) (sep : List A) (l : List (List A)) :
    (sep.intercalate l).map f = (sep.map f).intercalate (l.map (·.map f)) := by
  induction l with
  | nil => rfl
  | cons x xs ih =>
    cases xs with
    | nil => rw [List.intercalate_singleton, List.map_singleton, List.intercalate_singleton]
    | cons y ys =>
      rw [List.intercalate_cons_cons, List.map_append, List.map_append, ih]
      exact (List.intercalate_cons_cons).symm

/-- The joined text is divided where it has been joined. -/
theorem splitFields_joined {c : Char} (hc : c ∈ ifs.toList)
    (h : ∀ e ∈ elements, e ≠ "" ∧ ∀ x ∈ e.toList, x ∉ ifs.toList) :
    splitFields ifs ((String.singleton c).intercalate elements) = elements := by
  have hitems : ∀ cs : List Char, (∀ x ∈ cs, x ∉ ifs.toList) →
      cs.map (Item.mark ifs.toList.contains) = cs.map .char := by
    intro cs hcs
    refine List.map_congr_left fun x hx => ?_
    rw [Item.mark, if_neg fun hmem => hcs x hx (List.contains_iff_mem.mp hmem)]
  have htexts : [] ∉ elements.map String.toList := by
    intro hmem
    obtain ⟨e, he, hnil⟩ := List.mem_map.mp hmem
    exact (h e he).1 (String.toList_eq_nil_iff.mp hnil)
  have hjoined : ((String.singleton c).intercalate elements).toList.map
      (Item.mark ifs.toList.contains) =
        [Item.separator].intercalate ((elements.map String.toList).map (·.map .char)) := by
    have hsep : (String.singleton c).toList.map (Item.mark ifs.toList.contains) =
        [Item.separator] := by
      rw [String.toList_singleton, List.map_singleton, Item.mark,
        if_pos (List.contains_iff_mem.mpr hc)]
    rw [String.toList_intercalate, map_intercalate, hsep]
    congr 1
    refine List.map_congr_left fun cs hcs => ?_
    obtain ⟨e, he, rfl⟩ := List.mem_map.mp hcs
    exact hitems e.toList (h e he).2
  rw [splitFields_eq, hjoined, fields_separated _ htexts, List.map_map]
  refine (List.map_congr_left fun e _ => ?_).trans (List.map_id elements)
  exact String.ofList_toList

/-- The join of a list, split again. -/
theorem run_split_joined (host : Host) (n d : Nat) (hifs : s.store.parameter "IFS" 0 = some ifs)
    (hne : ifs ≠ "") (h : ∀ e ∈ elements, e ≠ "" ∧ ∀ x ∈ e.toList, x ∉ ifs.toList) :
    runShell host n d (Shell.splitWord (s.delimiter.intercalate elements)) s =
      some (.ok elements, s) := by
  have hbound : s.Bound "IFS" 0 := fun _ => by rw [hifs]; rfl
  obtain ⟨c, cs, hchars⟩ := List.exists_cons_of_ne_nil (mt String.toList_eq_nil_iff.mp hne)
  have hdelim : s.delimiter = String.singleton c := by
    rw [Interpreter.delimiter, hifs, Option.getD_some, hchars]
    rfl
  rw [EvaluatedWord.run_splitWord_of_bound hbound, hifs, Option.getD_some, hdelim,
    splitFields_joined (hchars ▸ List.mem_cons_self) h]

end Joined

/-- For every value of `IFS` that is not empty, and every list of texts that are not
empty and have no character of it. The argument and the word of a `for` that expand
the list make its elements, behind those that are there. -/
theorem split_joined (host : Host) (n d : Nat) (r : ArrayName) (name ifs : String)
    (elements : List String) (s s₁ : Interpreter)
    (hname : runShell host n d (Shell.arrayName host r) s = some (.ok name, s₁))
    (hifs : s₁.store.parameter "IFS" 0 = some ifs) (hne : ifs ≠ "")
    (hlist : s₁.Lists name elements)
    (h : ∀ e ∈ elements, e ≠ "" ∧ ∀ x ∈ e.toList, x ∉ ifs.toList) :
    runShell host n d (Shell.getAllElementsIFSJoined name >>= Shell.splitWord) s₁ =
        some (.ok elements, s₁) ∧
      (∀ args ws, runShell host n d (Shell.arguments host true args (allElements r :: ws)) s =
        runShell host n d (Shell.arguments host true (args ++ elements) ws) s₁) ∧
      runShell host n d (Shell.forWord host (allElements r)) s = some (.ok elements, s₁) := by
  have hbound : s₁.Bound "IFS" 0 := fun _ => by rw [hifs]; rfl
  have hall := run_getAllElements host n d hbound hlist
  have hsplit := run_split_joined host n d hifs hne h
  have hword : runShell host n d (Shell.stringExpr host (allElements r)) s =
      some (.ok ⟨s₁.delimiter.intercalate elements, false⟩, s₁) := by
    have hpart : runShell host n d (Shell.stringPart host (.varRef (.array r))) s =
        some (.ok { value := s₁.delimiter.intercalate elements, isRawString := false }, s₁) := by
      have href : runShell host n d (Shell.varRef host (.array r)) s =
          some (.ok (s₁.delimiter.intercalate elements), s₁) := by
        rw [Shell.varRef, runShell_bind, bind_of_ok hname, hall]
      rw [Shell.stringPart, runShell_bind, bind_of_ok href]
      rfl
    exact run_singlePart hpart
  have hargument : runShell host n d
      (Shell.argumentValues true ⟨s₁.delimiter.intercalate elements, false⟩) s₁ =
        some (.ok elements, s₁) := by
    by_cases hempty : (s₁.delimiter.intercalate elements).isEmpty = true
    · rw [String.isEmpty_iff.mp hempty, EvaluatedWord.run_splitWord_of_bound hbound] at hsplit
      rw [EvaluatedWord.argumentValues_empty hempty, ← EvaluatedWord.ok_inj_iff.mp hsplit]
      rfl
    · rw [EvaluatedWord.argumentValues_unquoted hempty]
      exact hsplit
  refine ⟨?_, fun args ws => ?_, ?_⟩
  · rw [runShell_bind, bind_of_ok hall, hsplit]
  · have hword : runShell host n d (Shell.argument host true (allElements r)) s =
        some (.ok elements, s₁) := by
      rw [Shell.argument, runShell_bind, bind_of_ok hword, hargument]
    rw [Shell.arguments, runShell_bind, bind_of_ok hword]
  · rw [Shell.forWord, runShell_bind, bind_of_ok hword]
    exact hsplit

/-- `a` has the elements `x` and `y`, and `IFS` is `:`. -/
def stateWithArray : Interpreter :=
  { Interpreter.initial [] with
    store := ⟨((∅ : Scope).insert "IFS" (.new "IFS" (.scalar (.str ":") 0) false)).insert "a"
      (.ofList "a" 0 ["x", "y"]), []⟩ }

def arrayA : ArrayName := .array (.base ⟨"a", isIdentifier_a⟩)

theorem lists_of_getAllValues {s : Interpreter} {name : String} {elements : List String}
    (h : (s.store.resolveVariable name).map Variable.getAllValues = some elements) :
    s.Lists name elements := by
  unfold Interpreter.Lists
  cases hv : s.store.resolveVariable name with
  | some v =>
    rw [hv] at h
    exact Option.some.inj h
  | none =>
    rw [hv] at h
    cases h

/-- `${a[*]}` for an array of two elements. -/
theorem split_joined_two :
    runShell (.ofTexts [] []) 0 0 (Shell.getAllElementsIFSJoined "a" >>= Shell.splitWord)
        stateWithArray = some (.ok ["x", "y"], stateWithArray) ∧
      (∀ args ws, runShell (.ofTexts [] []) 0 0
          (Shell.arguments (.ofTexts [] []) true args (allElements arrayA :: ws)) stateWithArray =
        runShell (.ofTexts [] []) 0 0
          (Shell.arguments (.ofTexts [] []) true (args ++ ["x", "y"]) ws) stateWithArray) ∧
      runShell (.ofTexts [] []) 0 0 (Shell.forWord (.ofTexts [] []) (allElements arrayA))
        stateWithArray = some (.ok ["x", "y"], stateWithArray) :=
  split_joined (.ofTexts [] []) 0 0 arrayA "a" ":" ["x", "y"] stateWithArray stateWithArray
    (by rw [arrayA, Shell.arrayName, Shell.nameRule]; rfl) (by decide +kernel) (by decide)
    (lists_of_getAllValues (by decide +kernel)) (by simp)

end Libbash
