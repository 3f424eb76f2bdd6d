import Mathlib.Data.List.TakeWhile
import Libbash.Lib.Fields
import Libbash.Interp.Reading

/-!
# The arguments that a word makes

`string_expr` gives one text for a word and one flag, the one of its last part,
and `argument` splits the whole text or none of it; an empty text makes no
argument. Word by word, the arguments should be the fields of the word: the
unquoted expansions are divided at the characters of `IFS`, the rest is not, and
a quoted part counts also when it is empty. `argumentsBuilt_iff` says for which
words, in which states, the two are the same.
-/

namespace Libbash

open Lib Lib.Comp Lib.Program

/-! ## `split_word` -/

section Split

variable (p : Char → Bool)

/-- The fields of a text that is split as a whole, from any point on. -/
theorem splitRuns_fields {cs : List Char} (hlast : ∀ c ∈ cs.getLast?, p c = false) :
    ∃ head tail, splitRuns p cs = head :: tail ∧
      (∀ begun, fieldsFrom (some begun) (cs.map (.mark p)) = (begun ++ head) :: tail) ∧
      fields (cs.map (.mark p)) = (if (cs.head?.map p).getD true then tail else head :: tail) ∧
      ((cs.head?.map p).getD true = true → head = []) := by
  induction cs with
  | nil => exact ⟨[], [], rfl, fun begun => by simp [fieldsFrom], rfl, fun _ => rfl⟩
  | cons c cs ih =>
    have hrest : ∀ x ∈ cs.getLast?, p x = false := by
      intro x hx
      refine hlast x ?_
      cases cs with
      | nil => cases hx
      | cons d ds => rwa [List.getLast?_cons_cons]
    obtain ⟨head, tail, hruns, hbegun, hnone, hhead⟩ := ih hrest
    cases hc : p c with
    | false =>
      refine ⟨c :: head, tail, ?_, fun begun => ?_, ?_, ?_⟩
      · simp [splitRuns, hc, hruns]
      · simp [Item.mark, hc, fieldsFrom, hbegun]
      · simp [fields, Item.mark, hc, fieldsFrom, hbegun]
      · simp [hc]
    | true =>
      cases cs with
      | nil =>
        have hnot := hlast c rfl
        rw [hc] at hnot
        cases hnot
      | cons d ds =>
        have hsep : ∀ begun : Option (List Char),
            fieldsFrom begun ((c :: d :: ds).map (.mark p)) =
              begun.toList ++ fields ((d :: ds).map (.mark p)) := by
          intro begun
          simp [Item.mark, hc, fieldsFrom, fields]
        -- a run of delimiters separates once
        cases hd : p d with
        | true =>
          have hempty := hhead (by simp [hd])
          refine ⟨head, tail, ?_, fun begun => ?_, ?_, fun _ => hempty⟩
          · rw [splitRuns]
            simp [hc, hd, hruns]
          · rw [hsep, hnone]
            simp [hd, hempty]
          · rw [fields, hsep, hnone]
            simp [hc, hd]
        | false =>
          refine ⟨[], head :: tail, ?_, fun begun => ?_, ?_, fun _ => rfl⟩
          · rw [splitRuns]
            simp [hc, hd, hruns]
          · rw [hsep, hnone]
            simp [hd]
          · rw [fields, hsep, hnone]
            simp [hc, hd]

theorem fields_dropWhile (cs : List Char) :
    fields ((cs.dropWhile p).map (.mark p)) = fields (cs.map (.mark p)) := by
  conv_rhs => rw [← List.takeWhile_append_dropWhile (p := p) (l := cs), List.map_append]
  refine (fields_separators_append _ _ fun i hi => ?_).symm
  obtain ⟨c, hc, rfl⟩ := List.mem_map.mp hi
  rw [Item.mark, if_pos (List.mem_takeWhile_imp hc), Item.isSeparator]

theorem dropWhile_eq_trimIf_append (cs : List Char) :
    ∃ rest, cs.dropWhile p = trimIf p cs ++ rest ∧ ∀ c ∈ rest, p c = true := by
  refine ⟨((cs.dropWhile p).reverse.takeWhile p).reverse, ?_, fun c hc => ?_⟩
  · rw [trimIf, ← List.reverse_append, List.takeWhile_append_dropWhile, List.reverse_reverse]
  · exact List.mem_takeWhile_imp (List.mem_reverse.mp hc)

theorem fields_trimIf (cs : List Char) :
    fields ((trimIf p cs).map (.mark p)) = fields (cs.map (.mark p)) := by
  obtain ⟨rest, hrest, hall⟩ := dropWhile_eq_trimIf_append p cs
  rw [← fields_dropWhile p cs, hrest, List.map_append]
  refine (fieldsFrom_append_separators none _ _ fun i hi => ?_).symm
  obtain ⟨c, hc, rfl⟩ := List.mem_map.mp hi
  rw [Item.mark, if_pos (hall c hc)]
  rfl

theorem getLast?_trimIf (cs : List Char) : ∀ c ∈ (trimIf p cs).getLast?, p c = false := by
  intro c hc
  rw [trimIf, List.getLast?_reverse] at hc
  have hnot := List.head?_dropWhile_not p (cs.dropWhile p).reverse
  rw [hc] at hnot
  exact hnot

theorem head?_trimIf {cs : List Char} (hne : trimIf p cs ≠ []) :
    ((trimIf p cs).head?.map p).getD true = false := by
  obtain ⟨rest, hrest, -⟩ := dropWhile_eq_trimIf_append p cs
  obtain ⟨c, ds, htrim⟩ := List.exists_cons_of_ne_nil hne
  have hnot := List.head?_dropWhile_not p cs
  rw [hrest, htrim] at hnot
  rw [htrim]
  exact hnot

/-- `split_word` gives the fields of its word. -/
theorem splitFields_eq (delimeter word : String) :
    splitFields delimeter word =
      (fields (word.toList.map (.mark delimeter.toList.contains))).map String.ofList := by
  show (if (trimIf delimeter.toList.contains word.toList).isEmpty then []
    else (splitRuns delimeter.toList.contains (trimIf _ word.toList)).map String.ofList) = _
  rw [← fields_trimIf]
  by_cases hempty : trimIf delimeter.toList.contains word.toList = []
  · rw [hempty]
    rfl
  · obtain ⟨head, tail, hruns, -, hfields, -⟩ :=
      splitRuns_fields _ (getLast?_trimIf delimeter.toList.contains word.toList)
    rw [hfields, head?_trimIf _ hempty, if_neg Bool.false_ne_true, ← hruns]
    rw [if_neg (mt List.isEmpty_iff.mp hempty)]

end Split

/-! ## Parts -/

namespace StringPart

/-- The quoted parts. -/
def isQuoted : StringPart → Bool
  | doubleQuoted _ | singleQuoted _ | ansiC _ => true
  | _ => false

/-- The unquoted expansions. -/
def isExpansion : StringPart → Bool
  | arith _ | varRef _ | commandSub _ => true
  | _ => false

/-- The flag that `string_part` returns; between the quotes it is only set by a
part. -/
def flag : StringPart → Bool
  | doubleQuoted parts => !parts.isEmpty
  | singleQuoted _ | ansiC _ => true
  | _ => false

theorem isExpansion_of_isQuoted {p : StringPart} (h : p.isQuoted = true) :
    p.isExpansion = false := by
  cases p <;> first | rfl | cases h

end StringPart

/-- A word that has no brace expansion. -/
def Word.ofParts (parts : List StringPart) : Word := .string (parts.map .part)

/-- The parts of a word with their values. -/
abbrev Pieces := List (StringPart × PartValue)

/-- Evaluate the parts of a word, one after the other. -/
def Shell.pieces (host : Host) : List StringPart → Shell Pieces
  | [] => pure []
  | p :: ps => do
    let v ← stringPart host p
    let rest ← pieces host ps
    pure ((p, v) :: rest)

namespace Pieces

/-- The text of the word. -/
def chars (l : Pieces) : List Char := l.flatMap fun x => x.2.value.toList

/-- The flag of the word. -/
def flag (l : Pieces) : Bool := (l.getLast?.map fun x => x.1.flag).getD true

/-- The items of the word. -/
def items (p : Char → Bool) (l : Pieces) : List (Item Char) :=
  l.flatMap fun x =>
    (if x.1.isQuoted then [.anchor] else []) ++
      x.2.value.toList.map (if x.1.isExpansion then .mark p else .char)

/-- The arguments that the word should make. -/
def arguments (ifs : String) (l : Pieces) : List String :=
  (fields (l.items ifs.toList.contains)).map String.ofList

/-- No character of the given parts is a delimiter. -/
def Free (p : Char → Bool) (among : StringPart → Bool) (l : Pieces) : Prop :=
  ∀ x ∈ l, among x.1 = true → ∀ c ∈ x.2.value.toList, p c = false

end Pieces

/-! ### What the items of a word are -/

section Items

variable (p : Char → Bool)

theorem chars_cons (x : StringPart × PartValue) (l : Pieces) :
    Pieces.chars (x :: l) = x.2.value.toList ++ l.chars := rfl

theorem items_cons (x : StringPart × PartValue) (l : Pieces) :
    Pieces.items p (x :: l) = ((if x.1.isQuoted then [Item.anchor] else []) ++
      x.2.value.toList.map (if x.1.isExpansion then .mark p else .char)) ++ l.items p := rfl

/-- A text is split as a whole like a word without anchors in which every part may
be split. -/
theorem filter_items (l : Pieces) (h : l.Free p fun x => !x.isExpansion) :
    (l.items p).filter (fun i => !i.isAnchor) = l.chars.map (.mark p) := by
  have hmark : ∀ cs : List Char, (cs.map (Item.mark p)).filter (fun i => !i.isAnchor) =
      cs.map (.mark p) := by
    intro cs
    refine List.filter_eq_self.mpr fun i hi => ?_
    obtain ⟨c, -, rfl⟩ := List.mem_map.mp hi
    unfold Item.mark
    split_ifs <;> rfl
  induction l with
  | nil => rfl
  | cons x l ih =>
    have hrest : Pieces.Free p (fun x => !x.isExpansion) l := fun y hy =>
      h y (List.mem_cons_of_mem _ hy)
    have hpart : x.2.value.toList.map (if x.1.isExpansion then Item.mark p else .char) =
        x.2.value.toList.map (.mark p) := by
      cases hx : x.1.isExpansion with
      | true => rfl
      | false =>
        rw [if_neg Bool.false_ne_true]
        refine List.map_congr_left fun c hc => ?_
        rw [Item.mark, h x List.mem_cons_self (by simp [hx]) c hc, if_neg Bool.false_ne_true]
    have hanchor : (if x.1.isQuoted then [Item.anchor] else ([] : List (Item Char))).filter
        (fun i => !i.isAnchor) = [] := by
      split_ifs <;> rfl
    rw [items_cons, chars_cons, List.filter_append, List.filter_append, hpart, hmark, hanchor,
      List.nil_append, ih hrest, List.map_append]

/-- Every character of the text is a character or a separator of the word. -/
theorem length_items (l : Pieces) :
    ((l.items p).filterMap Item.char?).length + ((l.items p).filter Item.isSeparator).length =
      l.chars.length := by
  have hmark : ∀ cs : List Char, ((cs.map (Item.mark p)).filterMap Item.char?).length +
      ((cs.map (Item.mark p)).filter Item.isSeparator).length = cs.length := by
    intro cs
    induction cs with
    | nil => rfl
    | cons c cs ih =>
      rw [List.map_cons, List.length_cons]
      cases hc : p c with
      | true =>
        rw [Item.mark, hc, if_pos rfl]
        show ((cs.map (Item.mark p)).filterMap Item.char?).length +
          (Item.separator :: (cs.map (Item.mark p)).filter Item.isSeparator).length = _
        rw [List.length_cons]
        omega
      | false =>
        rw [Item.mark, hc, if_neg Bool.false_ne_true]
        show (c :: (cs.map (Item.mark p)).filterMap Item.char?).length +
          ((cs.map (Item.mark p)).filter Item.isSeparator).length = _
        rw [List.length_cons]
        omega
  have hchar : ∀ cs : List Char, ((cs.map Item.char).filterMap Item.char?).length +
      ((cs.map Item.char).filter Item.isSeparator).length = cs.length := by
    intro cs
    simp [List.filterMap_map, List.filter_map, Function.comp_def, Item.char?, Item.isSeparator]
  -- A piece adds its characters, each as itself or as a separator; an anchor counts for neither.
  induction l with
  | nil => rfl
  | cons x l ih =>
    have hpart : ((x.2.value.toList.map (if x.1.isExpansion then Item.mark p else .char)).filterMap
          Item.char?).length +
        ((x.2.value.toList.map (if x.1.isExpansion then Item.mark p else .char)).filter
          Item.isSeparator).length = x.2.value.toList.length := by
      split_ifs
      · exact hmark _
      · exact hchar _
    have hanchor : ((if x.1.isQuoted then [Item.anchor] else ([] : List (Item Char))).filterMap
          Item.char?) = [] ∧
        ((if x.1.isQuoted then [Item.anchor] else ([] : List (Item Char))).filter
          Item.isSeparator) = [] := by
      split_ifs <;> exact ⟨rfl, rfl⟩
    rw [items_cons, chars_cons, List.filterMap_append, List.filterMap_append, List.filter_append,
      List.filter_append, hanchor.1, hanchor.2, List.nil_append, List.nil_append,
      List.length_append, List.length_append, List.length_append]
    omega

theorem separator_mem_items {l : Pieces} {x : StringPart × PartValue} {c : Char} (hx : x ∈ l)
    (hexpansion : x.1.isExpansion = true) (hc : c ∈ x.2.value.toList) (hp : p c = true) :
    Item.separator ∈ l.items p := by
  refine List.mem_flatMap.mpr ⟨x, hx, List.mem_append_right _ (List.mem_map.mpr ⟨c, hc, ?_⟩)⟩
  rw [hexpansion, if_pos rfl, Item.mark, if_pos hp]

theorem char_mem_items {l : Pieces} {x : StringPart × PartValue} {c : Char} (hx : x ∈ l)
    (hexpansion : x.1.isExpansion = false) (hc : c ∈ x.2.value.toList) :
    c ∈ (l.items p).filterMap Item.char? := by
  refine List.mem_filterMap.mpr ⟨.char c, ?_, rfl⟩
  refine List.mem_flatMap.mpr ⟨x, hx, List.mem_append_right _ (List.mem_map.mpr ⟨c, hc, ?_⟩)⟩
  rw [hexpansion, if_neg Bool.false_ne_true]

theorem free_iff_noSeparator (l : Pieces) :
    l.Free p StringPart.isExpansion ↔ ∀ i ∈ l.items p, i.isSeparator = false := by
  constructor
  · intro h i hi
    obtain ⟨x, hx, hi⟩ := List.mem_flatMap.mp hi
    rcases List.mem_append.mp hi with hi | hi
    · split_ifs at hi
      · cases List.mem_singleton.mp hi
        rfl
      · exact absurd hi List.not_mem_nil
    · obtain ⟨c, hc, rfl⟩ := List.mem_map.mp hi
      split_ifs with hexpansion
      · rw [Item.mark, h x hx hexpansion c hc, if_neg Bool.false_ne_true]
        rfl
      · rfl
  · intro h x hx hexpansion c hc
    by_contra hp
    have hsep := h _ (separator_mem_items p hx hexpansion hc (Bool.not_eq_false _ |>.mp hp))
    cases hsep

/-- Without separators the characters of a word are those of its text. -/
theorem chars_of_free (l : Pieces) (h : l.Free p StringPart.isExpansion) :
    (l.items p).filterMap Item.char? = l.chars := by
  induction l with
  | nil => rfl
  | cons x l ih =>
    have hrest : Pieces.Free p StringPart.isExpansion l := fun y hy =>
      h y (List.mem_cons_of_mem _ hy)
    have hpart : x.2.value.toList.map (if x.1.isExpansion then Item.mark p else .char) =
        x.2.value.toList.map .char := by
      cases hx : x.1.isExpansion with
      | false => rfl
      | true =>
        rw [if_pos rfl]
        refine List.map_congr_left fun c hc => ?_
        rw [Item.mark, h x List.mem_cons_self hx c hc, if_neg Bool.false_ne_true]
    have hchars : (x.2.value.toList.map Item.char).filterMap Item.char? = x.2.value.toList := by
      simp [List.filterMap_map, Function.comp_def, Item.char?]
    have hanchor : (if x.1.isQuoted then [Item.anchor] else ([] : List (Item Char))).filterMap
        Item.char? = [] := by
      split_ifs <;> rfl
    rw [items_cons, chars_cons, List.filterMap_append, List.filterMap_append, hanchor, hpart, hchars,
      List.nil_append, ih hrest]

end Items

/-! ### The fields of a word and the splits of its text -/

section Compare

variable (ifs : String) (l : Pieces)

theorem ofList_injective : Function.Injective String.ofList := fun a b h => by
  rw [← String.toList_ofList (l := a), h, String.toList_ofList]

/-- A text of no characters. -/
theorem arguments_eq_nil_iff (hempty : l.chars = []) :
    l.arguments ifs = [] ↔ [] ∉ fields (l.items ifs.toList.contains) := by
  have hlength := length_items ifs.toList.contains l
  rw [hempty, List.length_nil] at hlength
  have hchars : (l.items ifs.toList.contains).filterMap Item.char? = [] :=
    List.length_eq_zero_iff.mp (by omega)
  have hflatten := flatten_fields (l.items ifs.toList.contains)
  rw [hchars, List.flatten_eq_nil_iff] at hflatten
  rw [Pieces.arguments, List.map_eq_nil_iff]
  constructor
  · intro h
    rw [h]
    exact List.not_mem_nil
  · intro h
    refine List.eq_nil_iff_forall_not_mem.mpr fun f hf => h ?_
    rw [← hflatten f hf]
    exact hf

/-- A word that has no delimiter in an unquoted expansion is one argument. -/
theorem arguments_of_free (hfree : l.Free ifs.toList.contains StringPart.isExpansion)
    (hitems : l.items ifs.toList.contains ≠ []) : l.arguments ifs = [String.ofList l.chars] := by
  rw [Pieces.arguments, fields_of_noSeparator ((free_iff_noSeparator _ l).mp hfree) hitems,
    chars_of_free _ l hfree]
  rfl

/-- A word whose parts are all quoted is one argument, also when it is empty. -/
theorem arguments_of_quoted (hne : l ≠ []) (hquoted : ∀ x ∈ l, x.1.isQuoted = true) :
    l.arguments ifs = [String.ofList l.chars] := by
  refine arguments_of_free ifs l (fun x hx hexpansion => ?_) ?_
  · rw [StringPart.isExpansion_of_isQuoted (hquoted x hx)] at hexpansion
    cases hexpansion
  · obtain ⟨x, rest, rfl⟩ := List.exists_cons_of_ne_nil hne
    rw [items_cons, hquoted x List.mem_cons_self, if_pos rfl]
    exact List.cons_ne_nil _ _

/-- `$x"c"`, where `x` is `a b`. -/
example : Pieces.arguments " " [(.varRef .bang, { value := "a b" }),
    (.doubleQuoted [.text "c"], { value := "c", quoted := true })] = ["a", "bc"] := by decide

/-- A text that is not split. -/
theorem arguments_eq_single_iff (hne : l.chars ≠ []) :
    l.arguments ifs = [String.ofList l.chars] ↔
      l.Free ifs.toList.contains StringPart.isExpansion := by
  constructor
  · intro h
    have hfields : fields (l.items ifs.toList.contains) = [l.chars] :=
      List.map_injective_iff.mpr ofList_injective h
    have hflatten := flatten_fields (l.items ifs.toList.contains)
    rw [hfields] at hflatten
    have hlength := length_items ifs.toList.contains l
    rw [← hflatten] at hlength
    have hzero : ((l.items ifs.toList.contains).filter Item.isSeparator).length = 0 := by
      have hflat : ([l.chars].flatten).length = l.chars.length := by simp
      omega
    refine (free_iff_noSeparator _ l).mpr fun i hi => ?_
    have hnil := List.length_eq_zero_iff.mp hzero
    exact Bool.eq_false_iff.mpr (List.filter_eq_nil_iff.mp hnil i hi)
  · intro h
    have hchars := chars_of_free _ l h
    have hitems : l.items ifs.toList.contains ≠ [] := by
      intro hnil
      rw [hnil] at hchars
      exact hne hchars.symm
    exact arguments_of_free ifs l h hitems

/-- A text that is split as a whole. -/
theorem splitFields_eq_arguments_iff :
    splitFields ifs (String.ofList l.chars) = l.arguments ifs ↔
      l.Free ifs.toList.contains (fun x => !x.isExpansion) ∧
        [] ∉ fields (l.items ifs.toList.contains) := by
  rw [splitFields_eq, String.toList_ofList, Pieces.arguments,
    (List.map_injective_iff.mpr ofList_injective).eq_iff]
  constructor
  · intro h
    have hfree : l.Free ifs.toList.contains fun x => !x.isExpansion := by
      intro x hx hprotected c hc
      by_contra hp
      have hp := Bool.not_eq_false _ |>.mp hp
      -- the character is one of a field, and the split has taken it out
      have hmem := char_mem_items ifs.toList.contains hx (by simpa using hprotected) hc
      rw [← flatten_fields, ← h, flatten_fields] at hmem
      obtain ⟨i, hi, hchar⟩ := List.mem_filterMap.mp hmem
      obtain ⟨c', -, rfl⟩ := List.mem_map.mp hi
      unfold Item.mark at hchar
      split_ifs at hchar with hc'
      · cases hchar
      · cases hchar
        exact hc' hp
    refine ⟨hfree, (fields_filter_eq_iff _).mp ?_⟩
    rw [filter_items _ l hfree, h]
  · rintro ⟨hfree, hnot⟩
    rw [← filter_items _ l hfree]
    exact (fields_filter_eq_iff _).mpr hnot

end Compare

/-! ## The rule `argument` -/

section Run

variable {host : Host} {n d : Nat} {s s' : Interpreter}

theorem quotedParts_flag {v v' : PartValue} {ps : List QuotedPart}
    (h : runShell host n d (Shell.quotedParts host v ps) s = some (.ok v', s')) :
    v'.quoted = (v.quoted || !ps.isEmpty) := by
  induction ps generalizing v s with
  | nil =>
    cases h
    exact (Bool.or_false _).symm
  | cons p ps ih =>
    rw [Shell.quotedParts, runShell_bind] at h
    rcases bind_cases h with ⟨text, s₁, -, hrest⟩ | ⟨e, -, he⟩
    · rw [ih hrest]
      simp
    · cases he

theorem stringPart_flag {p : StringPart} {v : PartValue}
    (h : runShell host n d (Shell.stringPart host p) s = some (.ok v, s')) :
    v.quoted = p.flag := by
  cases p with
  | doubleQuoted ps => exact quotedParts_flag h
  | singleQuoted text => cases h; rfl
  | arith e =>
    rw [Shell.stringPart, runShell_bind] at h
    rcases bind_cases h with ⟨value, s₁, -, hrest⟩ | ⟨e, -, he⟩
    · cases hrest; rfl
    · cases he
  | varRef r =>
    rw [Shell.stringPart, runShell_bind] at h
    rcases bind_cases h with ⟨text, s₁, -, hrest⟩ | ⟨e, -, he⟩
    · cases hrest; rfl
    · cases he
  | commandSub subscript =>
    rw [Shell.stringPart, runShell_bind] at h
    rcases bind_cases h with ⟨text, s₁, -, hrest⟩ | ⟨e, -, he⟩
    · cases hrest; rfl
    · cases he
  | ansiC text =>
    rw [Shell.stringPart] at h
    split_ifs at h
    · cases h
    · cases h; rfl
  | escaped text => cases h; rfl
  | text text => cases h; rfl

/-- What `string_expr` has put together when it has walked the parts. -/
structure Assembled (b : String) (quoted : Bool) (l : Pieces) (st : StringState) : Prop where
  base : st.braceExpansionBase = [b ++ String.ofList l.chars]
  quoted : st.quoted = (l.getLast?.map fun x => x.1.flag).getD quoted

theorem run_wordParts {ps : List StringPart} {l : Pieces} (b : String) (quoted raw : Bool)
    (h : runShell host n d (Shell.pieces host ps) s = some (.ok l, s')) :
    ∃ st, runShell host n d (Shell.wordParts host ⟨[b], quoted, raw⟩ (ps.map .part)) s =
      some (.ok st, s') ∧ Assembled b quoted l st := by
  induction ps generalizing b quoted raw s l with
  | nil =>
    cases h
    exact ⟨_, rfl, by simp [Pieces.chars], rfl⟩
  | cons p ps ih =>
    rw [Shell.pieces, runShell_bind] at h
    rcases bind_cases h with ⟨v, s₁, hpart, hrest⟩ | ⟨e, -, he⟩
    · rw [runShell_bind] at hrest
      rcases bind_cases hrest with ⟨rest, s₂, hpieces, hpure⟩ | ⟨e, -, he⟩
      · cases hpure
        obtain ⟨st, hst, hbase, hquoted⟩ := ih (b ++ v.value) v.quoted
          (raw && v.isRawString) hpieces
        refine ⟨st, ?_, ?_, ?_⟩
        · rw [List.map_cons, Shell.wordParts, runShell_bind, bind_of_ok hpart]
          exact hst
        · rw [hbase, chars_cons, String.ofList_append, String.ofList_toList, String.append_assoc]
        · rw [hquoted, stringPart_flag hpart]
          cases rest with
          | nil => rfl
          | cons y ys =>
            rw [List.getLast?_cons_cons, List.getLast?_eq_some_getLast (List.cons_ne_nil y ys)]
            rfl
      · cases he
    · cases he

/-- A word is evaluated to its text and its flag. -/
theorem run_ofParts {ps : List StringPart} {l : Pieces}
    (h : runShell host n d (Shell.pieces host ps) s = some (.ok l, s')) :
    runShell host n d (Shell.stringExpr host (.ofParts ps)) s =
      some (.ok ⟨String.ofList l.chars, l.flag⟩, s') := by
  obtain ⟨st, hst, hbase, hquoted⟩ := run_wordParts "" true true h
  have hparts : runShell host n d (Shell.wordParts host {} (ps.map .part)) s =
      some (.ok st, s') := hst
  rw [Word.ofParts, Shell.stringExpr, runShell_bind, bind_of_ok hparts, StringState.finish, hbase,
    hquoted, String.empty_append, if_neg (by simp), String.intercalate_singleton]
  rfl

end Run

/-! ## Words in their turn -/

/-- A word with its evaluation: its parts, their values, and the states before and
after. -/
structure EvaluatedWord (host : Host) (n d : Nat) where
  parts : List StringPart
  pieces : Pieces
  before : Interpreter
  after : Interpreter
  evaluated : runShell host n d (Shell.pieces host parts) before = some (.ok pieces, after)

namespace EvaluatedWord

variable {host : Host} {n d : Nat}

def word (w : EvaluatedWord host n d) : Word := .ofParts w.parts

/-- The value of `IFS` when the argument is made. -/
def ifs (w : EvaluatedWord host n d) : String := (w.after.store.parameter "IFS" 0).getD ""

/-- The arguments that the word should make. -/
def expected (w : EvaluatedWord host n d) : List String := w.pieces.arguments w.ifs

/-- The rule `argument` makes the arguments that it should. -/
def Built (w : EvaluatedWord host n d) : Prop :=
  runShell host n d (Shell.argument host true w.word) w.before = some (.ok w.expected, w.after)

/-- The whole text is one argument, or the whole text is split. -/
def Uniform (w : EvaluatedWord host n d) : Prop :=
  if w.pieces.flag = true ∧ w.pieces.chars ≠ [] then
    w.pieces.Free w.ifs.toList.contains StringPart.isExpansion
  else
    w.pieces.Free w.ifs.toList.contains (fun p => !p.isExpansion) ∧
      [] ∉ fields (w.pieces.items w.ifs.toList.contains) ∧
      (w.pieces.chars ≠ [] → w.after.Bound "IFS" 0)

theorem run_argument (w : EvaluatedWord host n d) :
    runShell host n d (Shell.argument host true w.word) w.before =
      runShell host n d
        (Shell.argumentValues true ⟨String.ofList w.pieces.chars, w.pieces.flag⟩) w.after := by
  rw [Shell.argument, runShell_bind, word, bind_of_ok (run_ofParts w.evaluated)]

/-- The equality of the results, apart from the state. -/
theorem ok_inj_iff {args args' : List String} {t : Interpreter} :
    (some (Except.ok args, t) : Option (Except Exn (List String) × Interpreter)) =
      some (.ok args', t) ↔ args = args' := by
  simp

theorem run_splitWord_of_bound {word : String} {t : Interpreter} (h : t.Bound "IFS" 0) :
    runShell host n d (Shell.splitWord word) t =
      some (.ok (splitFields ((t.store.parameter "IFS" 0).getD "") word), t) := by
  rw [Shell.splitWord, runShell_bind, bind_of_ok (run_resolveString_of_bound h)]
  rfl

theorem run_splitWord_of_unbound (host : Host) (n d : Nat) (word : String) {t : Interpreter} (h : ¬t.Bound "IFS" 0) :
    ∃ e, runShell host n d (Shell.splitWord word) t = some (.error e, t) := by
  obtain ⟨e, he⟩ := run_resolveString_of_unbound host n d h
  rw [Shell.splitWord, runShell_bind]
  exact ⟨e, bind_of_error he _⟩

theorem argumentValues_empty {text : String} (h : text.isEmpty = true) (quoted : Bool) :
    Shell.argumentValues true ⟨text, quoted⟩ = pure [] := by
  rw [Shell.argumentValues, if_pos h]

theorem argumentValues_quoted {text : String} (h : ¬text.isEmpty = true) :
    Shell.argumentValues true ⟨text, true⟩ = pure [text] := by
  rw [Shell.argumentValues, if_neg h]
  rfl

theorem argumentValues_unquoted {text : String} (h : ¬text.isEmpty = true) :
    Shell.argumentValues true ⟨text, false⟩ = Shell.splitWord text := by
  rw [Shell.argumentValues, if_neg h]
  rfl

/-- For every word, in every state. -/
theorem built_iff_uniform (w : EvaluatedWord host n d) : w.Built ↔ w.Uniform := by
  have htext : (String.ofList w.pieces.chars).isEmpty = true ↔ w.pieces.chars = [] := by
    rw [String.isEmpty_iff, ← String.ofList_nil, ofList_injective.eq_iff]
  rw [Built, Uniform, run_argument]
  by_cases hempty : w.pieces.chars = []
  · have hfree : w.pieces.Free w.ifs.toList.contains fun p => !p.isExpansion := by
      intro x hx _ c hc
      have hmem : c ∈ w.pieces.chars := List.mem_flatMap.mpr ⟨x, hx, hc⟩
      rw [hempty] at hmem
      exact absurd hmem List.not_mem_nil
    rw [argumentValues_empty (htext.mpr hempty), if_neg (fun h => h.2 hempty), runShell_pure,
      pure_apply, ok_inj_iff, eq_comm, expected, arguments_eq_nil_iff _ _ hempty]
    exact ⟨fun h => ⟨hfree, h, fun hne => absurd hempty hne⟩, fun h => h.2.1⟩
  · have hnonempty := mt htext.mp hempty
    cases hflag : w.pieces.flag with
    | true =>
      rw [argumentValues_quoted hnonempty, if_pos ⟨rfl, hempty⟩, runShell_pure, pure_apply, ok_inj_iff, eq_comm,
        expected, arguments_eq_single_iff _ _ hempty]
    | false =>
      rw [argumentValues_unquoted hnonempty, if_neg (fun h => Bool.false_ne_true h.1)]
      by_cases hbound : w.after.Bound "IFS" 0
      · rw [run_splitWord_of_bound hbound, ok_inj_iff, expected]
        show splitFields w.ifs _ = _ ↔ _
        rw [splitFields_eq_arguments_iff]
        exact ⟨fun h => ⟨h.1, h.2, fun _ => hbound⟩, fun h => ⟨h.1, h.2.1⟩⟩
      · obtain ⟨e, he⟩ := run_splitWord_of_unbound host n d (String.ofList w.pieces.chars)
          hbound
        rw [he]
        constructor
        · intro h
          cases h
        · intro h
          exact absurd (h.2.2 hempty) hbound

end EvaluatedWord

/-- The words of a command are evaluated one after the other, from one state to
another. -/
def InTurn {host : Host} {n d : Nat} (s s' : Interpreter) : List (EvaluatedWord host n d) → Prop
  | [] => s' = s
  | w :: ws => w.before = s ∧ InTurn w.after s' ws

section Command

variable {host : Host} {n d : Nat} {s s' : Interpreter} {ws : List (EvaluatedWord host n d)}

/-- The argument list is put together word by word. -/
theorem run_arguments (hturn : InTurn s s' ws) (hbuilt : ∀ w ∈ ws, w.Built) (args : List String) :
    runShell host n d (Shell.arguments host true args (ws.map (·.word))) s =
      some (.ok (args ++ ws.flatMap (·.expected)), s') := by
  induction ws generalizing s args with
  | nil =>
    obtain rfl := hturn
    simp [Shell.arguments]
  | cons w ws ih =>
    obtain ⟨rfl, hrest⟩ := hturn
    have hw : runShell host n d (Shell.argument host true w.word) w.before =
        some (.ok w.expected, w.after) := hbuilt w List.mem_cons_self
    rw [List.map_cons, Shell.arguments, runShell_bind, bind_of_ok hw,
      ih hrest (fun v hv => hbuilt v (List.mem_cons_of_mem _ hv)), List.flatMap_cons,
      List.append_assoc]

end Command

/-- Every word of a simple command makes the arguments that it should, and the
command is executed with these, one after the other. -/
structure ArgumentsBuilt (host : Host) (n d : Nat) (name : Word) (ws : List (EvaluatedWord host n d))
    (defs : List VarDef) (bang : Bool) (text : String) (s s' : Interpreter) : Prop where
  words : ∀ w ∈ ws, w.Built
  command : runShell host n d (Shell.simpleCommand host name (ws.map (·.word)) defs bang) s =
    runShell host n d (Shell.executeCommand host text (ws.flatMap (·.expected)) defs bang) s'

/-- For every simple command but `local`, `export` and `declare` whose words have no
brace expansions, in every state. -/
theorem argumentsBuilt_iff {host : Host} {n d : Nat} {name : Word} {v : StringValue}
    {ws : List (EvaluatedWord host n d)} {defs : List VarDef} {bang : Bool} {s s₀ s' : Interpreter}
    (hname : runShell host n d (Shell.stringExpr host name) s = some (.ok v, s₀))
    (hsplits : Shell.splits v.value = true) (hturn : InTurn s₀ s' ws) :
    ArgumentsBuilt host n d name ws defs bang v.value s s' ↔ ∀ w ∈ ws, w.Uniform := by
  constructor
  · intro h w hw
    exact w.built_iff_uniform.mp (h.words w hw)
  · intro h
    have hbuilt : ∀ w ∈ ws, w.Built := fun w hw => w.built_iff_uniform.mpr (h w hw)
    refine ⟨hbuilt, ?_⟩
    rw [Shell.simpleCommand, runShell_bind, bind_of_ok hname, hsplits, runShell_bind,
      bind_of_ok (run_arguments hturn hbuilt []), List.nil_append]

/-- `'a b'`. -/
def singleQuotedAB : EvaluatedWord (.ofTexts [] []) 0 0 where
  parts := [.singleQuoted "a b"]
  pieces := [(.singleQuoted "a b", { value := "a b", quoted := true })]
  before := .initial []
  after := .initial []
  evaluated := rfl

theorem argumentsBuilt_iff_singleQuotedAB :
    ArgumentsBuilt (.ofTexts [] []) 0 0 (.literal "f") [singleQuotedAB] [] false "f" (.initial [])
      (.initial []) ↔ ∀ w ∈ [singleQuotedAB], w.Uniform :=
  argumentsBuilt_iff (v := ⟨"f", false⟩) (run_literalWord "f") (by decide) ⟨rfl, rfl⟩

/-- `"a b"c`. -/
def quotedABc : EvaluatedWord (.ofTexts [] []) 0 0 where
  parts := [.doubleQuoted [.text "a b"], .text "c"]
  pieces := [(.doubleQuoted [.text "a b"], { value := "a b", quoted := true }),
    (.text "c", { value := "c" })]
  before := .initial []
  after := .initial []
  evaluated := rfl

/-- The words `a` and `bc`, where one argument should be. -/
theorem not_argumentsBuilt_quotedABc :
    quotedABc.expected = ["a bc"] ∧
      runShell (.ofTexts [] []) 0 0 (Shell.argument (.ofTexts [] []) true quotedABc.word)
        (.initial []) = some (.ok ["a", "bc"], .initial []) ∧
      ¬ArgumentsBuilt (.ofTexts [] []) 0 0 (.literal "f") [quotedABc] [] false "f" (.initial [])
        (.initial []) := by
  have hexpected : quotedABc.expected = ["a bc"] := by decide +kernel
  have hifs : (Interpreter.initial []).store.parameter "IFS" 0 = some " \t\n" := by decide +kernel
  have hbound : (Interpreter.initial []).Bound "IFS" 0 := fun _ => by rw [hifs]; rfl
  have hrun : runShell (.ofTexts [] []) 0 0 (Shell.argument (.ofTexts [] []) true quotedABc.word)
      (.initial []) = some (.ok ["a", "bc"], .initial []) := by
    have hargument := quotedABc.run_argument
    rw [show quotedABc.before = .initial [] from rfl] at hargument
    rw [hargument, show quotedABc.after = .initial [] from rfl,
      show quotedABc.pieces.flag = false from rfl,
      EvaluatedWord.argumentValues_unquoted (by decide),
      EvaluatedWord.run_splitWord_of_bound hbound, hifs]
    rfl
  refine ⟨hexpected, hrun, fun h => ?_⟩
  have hbuilt : runShell (.ofTexts [] []) 0 0
      (Shell.argument (.ofTexts [] []) true quotedABc.word) (.initial []) =
        some (.ok quotedABc.expected, .initial []) := h.words _ List.mem_cons_self
  rw [hrun, hexpected] at hbuilt
  exact absurd (Except.ok.inj (Prod.mk.inj (Option.some.inj hbuilt)).1) (by decide)

end Libbash
