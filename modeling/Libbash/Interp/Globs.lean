import Libbash.Interp.Regexes
import Libbash.Interp.Api
import Libbash.Lib.CharClass
import Libbash.Lib.Escapes
import Libbash.Lib.Products

/-!
# What patterns stand for

The words that a pattern stands for in the shell (`Glob.bashLang`), and those that its
regular expression matches. The two are compared part by part: a bracket expression is
pasted together without its quotes and read in another syntax, and a backslash outside
of brackets stands for itself (`patterns_denote`).
-/

namespace Libbash

open Lib Lib.Comp Lib.Program

/-! ## The language of the shell -/

/-- An unquoted backslash. -/
def Fragment.isEscape (t : Fragment) : Bool := !t.quoted && t.value == "\\"

def BasicPattern.isEscape : Piece → Bool
  | part t => t.isEscape
  | matchAll | matchOne | bracket _ => false

def BasicPattern.quote : Piece → Piece
  | part t => part { t with quoted := true }
  | b => b

def PatternItem.isEscape : PatternItem CharacterSet Fragment → Bool
  | basic b => b.isEscape
  | extended _ _ => false

def PatternItem.quote : PatternItem CharacterSet Fragment → PatternItem CharacterSet Fragment
  | basic b => basic b.quote
  | i => i

/-- The characters of a member, and whether they are quoted. -/
def Member.raw : Member → List (ClassToken × Bool)
  | characterClass name => [(.named name, true)]
  | text value quoted => value.toList.map fun c => (.char c, quoted)

/-- An unquoted hyphen makes a range. -/
def hyphenated : ClassToken × Bool → ClassToken
  | (.char c, quoted) => if c == '-' && !quoted then .hyphen else .char c
  | (t, _) => t

/-- The tokens of a bracket expression; what is quoted stands for itself. -/
def CharacterSet.tokens (b : CharacterSet) : List ClassToken :=
  (unescape (fun t => t == (.char '\\', false)) (fun t => (t.1, true))
    (b.members.toList.flatMap Member.raw)).map hyphenated

/-- The classes that have a name. -/
def bashClass (name : String) (c : Char) : Bool :=
  if name = "word" then c.isAlphanum || c == '_'
  else if name = "ascii" then decide (c.toNat ≤ 127)
  else knownSet name c

/-- The characters that a bracket expression matches. -/
def CharacterSet.accepts (b : CharacterSet) (c : Char) : Bool :=
  tokensSet bashClass b.tokens c != b.negation

def bashWords (b : CharacterSet) : Language Char := {w | ∃ c, b.accepts c = true ∧ w = [c]}

def piecesLang (l : List Piece) : Language Char :=
  ((unescape BasicPattern.isEscape BasicPattern.quote l).map (BasicPattern.lang bashWords)).prod

def Composite.bashLang (E : Composite) : Language Char :=
  E.combine (· + ·) fun l => piecesLang l.toList

def PatternItem.bashLang : PatternItem CharacterSet Fragment → Language Char
  | basic b => b.lang bashWords
  | extended kind branches => kind.lang (Composite.bashLang branches)

/-- The words that a pattern stands for in the shell: what is quoted stands for itself. -/
def Glob.bashLang (E : Glob) : Language Char :=
  ((unescape PatternItem.isEscape PatternItem.quote E.toList).map PatternItem.bashLang).prod

/-! ## Patterns that mean the same -/

/-- The text of a bracket expression is a class in Perl's syntax, of the characters that
the expression matches in the shell. -/
def CharacterSet.Agrees (b : CharacterSet) : Prop :=
  ∃ p, perlClass b.text.toList = some p ∧ ∀ c, p c = b.accepts c

/-- No backslash stands outside of brackets and quotes. -/
def Composite.Unescaped (E : Composite) : Prop := ∀ l ∈ E.toList, ∀ b ∈ l.toList, b.isEscape = false

def PatternItem.Unescaped : PatternItem CharacterSet Fragment → Prop
  | basic b => b.isEscape = false
  | extended _ branches => Composite.Unescaped branches

def Glob.Unescaped (E : Glob) : Prop := ∀ i ∈ E.toList, i.Unescaped

/-- The library compiles the character classes of Perl's syntax. -/
def CompilesClasses (compile : String → Regex Char) : Prop :=
  ∀ text p, perlClass text.toList = some p → compile text = .set p

section Denotes

variable (host : Host)

/-- `[[ == ]]` succeeds for the words that the pattern stands for. -/
def Glob.Denotes (E : Glob) : Prop :=
  ∀ v : String, host.regexMatch false E.tokens v = true ↔ v.toList ∈ E.bashLang

/-- A `case` matches the words that its patterns stand for. -/
def Composite.Denotes (E : Composite) : Prop :=
  ∀ v : String, host.regexMatch true E.tokens v = true ↔ v.toList ∈ E.bashLang

end Denotes

/-! ## Ordinary bracket expressions -/

section Ordinary

/-- A character that has another meaning in a class is not in the member, but for a
hyphen without quotes. -/
def Member.Ordinary : Member → Prop
  | characterClass name => (namedClass name).isSome = true
  | text value quoted =>
    ∀ c ∈ value.toList, c ≠ '[' ∧ c ≠ ']' ∧ c ≠ '\\' ∧ c ≠ '^' ∧ (c = '-' → quoted = false)

theorem raw_of_ordinary {m : Member} (h : m.Ordinary) :
    ∀ t ∈ m.raw, (t == (.char '\\', false)) = false ∧ (hyphenated t).Ordinary := by
  cases m with
  | characterClass name =>
    intro t ht
    rw [List.mem_singleton.mp ht]
    exact ⟨rfl, h⟩
  | text value quoted =>
    intro t ht
    obtain ⟨c, hc, rfl⟩ := List.mem_map.mp ht
    obtain ⟨hopen, hclose, hescape, hcaret, hhyphen⟩ := h c hc
    constructor
    · simp [hescape]
    · unfold hyphenated
      by_cases hc' : c = '-'
      · rw [hc', hhyphen hc']
        trivial
      · simp [hc', ClassToken.Ordinary, hopen, hclose, hescape, hcaret]

theorem pasted_hyphenated (c : Char) (quoted : Bool) :
    (hyphenated (.char c, quoted)).pasted = [c] := by
  show (if (c == '-' && !quoted) = true then ClassToken.hyphen else .char c).pasted = [c]
  split_ifs with h
  · rw [Bool.and_eq_true, beq_iff_eq] at h
    rw [h.1]
    rfl
  · rfl

theorem ne_word_of_named {name : String} (h : (namedClass name).isSome = true) :
    name ≠ "word" ∧ name ≠ "ascii" := by
  constructor <;> rintro rfl <;> exact absurd h (by decide)

theorem pasted_of_ordinary {m : Member} (h : m.Ordinary) :
    m.pasted.toList = (m.raw.map hyphenated).flatMap ClassToken.pasted := by
  cases m with
  | characterClass name =>
    obtain ⟨hword, hascii⟩ := ne_word_of_named h
    show (Shell.characterClass name).toList = (ClassToken.named name).pasted ++ []
    simp [Shell.characterClass, hword, hascii, ClassToken.pasted]
  | text value quoted =>
    show value.toList = ((value.toList.map fun c => (ClassToken.char c, quoted)).map
      hyphenated).flatMap ClassToken.pasted
    rw [List.map_map, List.flatMap_map]
    simp only [Function.comp_apply, pasted_hyphenated, List.flatMap_singleton']

variable {b : CharacterSet}

theorem tokens_of_ordinary (h : ∀ m ∈ b.members.toList, m.Ordinary) :
    b.tokens = b.members.toList.flatMap fun m => m.raw.map hyphenated := by
  unfold CharacterSet.tokens
  rw [unescape_of_none, List.map_flatMap]
  intro t ht
  obtain ⟨m, hm, ht⟩ := List.mem_flatMap.mp ht
  exact (raw_of_ordinary (h m hm) t ht).1

theorem ordinary_of_mem_tokens (h : ∀ m ∈ b.members.toList, m.Ordinary) :
    ∀ t ∈ b.tokens, t.Ordinary := by
  rw [tokens_of_ordinary h]
  intro t ht
  obtain ⟨m, hm, ht⟩ := List.mem_flatMap.mp ht
  obtain ⟨t, hraw, rfl⟩ := List.mem_map.mp ht
  exact (raw_of_ordinary (h m hm) t hraw).2

theorem text_of_ordinary (h : ∀ m ∈ b.members.toList, m.Ordinary) :
    b.text.toList = (if b.negation then ['[', '^'] else ['[']) ++
      (b.tokens.flatMap ClassToken.pasted ++ [']']) := by
  have hfold (ms : List Member) (text : String) :
      (ms.foldl (fun text m => text ++ m.pasted) text).toList =
        text.toList ++ ms.flatMap fun m => m.pasted.toList := by
    induction ms generalizing text with
    | nil => exact (List.append_nil _).symm
    | cons m ms ih =>
      rw [List.foldl_cons, ih, List.flatMap_cons, String.toList_append, List.append_assoc]
  unfold CharacterSet.text
  rw [String.toList_append, hfold, tokens_of_ordinary h, List.flatMap_assoc, List.append_assoc,
    List.flatMap_congr fun m hm => pasted_of_ordinary (h m hm)]
  cases b.negation <;> rfl

/-- An ordinary bracket expression with no empty range means the same in both
languages. -/
theorem CharacterSet.agrees_of_ordinary (h : ∀ m ∈ b.members.toList, m.Ordinary)
    (hordered : ordered b.tokens = true) (hne : b.tokens ≠ []) : b.Agrees := by
  have hordinary := ordinary_of_mem_tokens h
  have hread : readClass b.text.toList = some (b.negation, b.tokens) := by
    rw [text_of_ordinary h]
    obtain ⟨t, ts, hts⟩ := List.exists_cons_of_ne_nil hne
    rw [hts] at hordinary ⊢
    exact readClass_pasted b.negation hordinary
  have hknown : b.tokens.all ClassToken.known = true := by
    rw [List.all_eq_true]
    intro t ht
    cases t with
    | char | hyphen => rfl
    | named name => exact hordinary _ ht
  refine ⟨fun c => tokensSet knownSet b.tokens c != b.negation, ?_, fun c => ?_⟩
  · unfold perlClass
    rw [hread]
    simp [hordered, hknown]
  · unfold CharacterSet.accepts
    rw [tokensSet_congr fun name hname => ?_]
    funext c
    obtain ⟨hword, hascii⟩ := ne_word_of_named (hordinary _ hname)
    unfold bashClass
    rw [if_neg hword, if_neg hascii]

end Ordinary

section Languages

variable {compile : String → Regex Char}

theorem mem_brackets_item {E : Glob} {i : PatternItem CharacterSet Fragment} {b : CharacterSet}
    (hi : i ∈ E.toList) (hb : b ∈ i.brackets) : b ∈ E.brackets :=
  List.mem_flatMap.mpr ⟨i, hi, hb⟩

theorem mem_brackets_piece {E : Composite} {l : OneOrMore Piece} {a : Piece} {b : CharacterSet}
    (hl : l ∈ E.toList) (ha : a ∈ l.toList) (hb : b ∈ a.brackets) : b ∈ Composite.brackets E :=
  List.mem_flatMap.mpr ⟨l, hl, List.mem_flatMap.mpr ⟨a, ha, hb⟩⟩

theorem words_of_agrees (hcompile : CompilesClasses compile) {b : CharacterSet} (h : b.Agrees) :
    compiledWords compile b = bashWords b := by
  obtain ⟨p, hp, hsame⟩ := h
  unfold compiledWords bashWords
  rw [hcompile b.text p hp]
  ext w
  exact exists_congr fun c => by rw [hsame c]

theorem piece_lang_eq (hcompile : CompilesClasses compile) {b : Piece}
    (h : ∀ a ∈ b.brackets, a.Agrees) :
    b.lang (compiledWords compile) = b.lang bashWords := by
  cases b with
  | bracket b => exact words_of_agrees hcompile (h b (List.mem_singleton_self b))
  | matchAll | matchOne | part t => rfl

theorem composite_lang_eq (hcompile : CompilesClasses compile) {E : Composite}
    (hunescaped : E.Unescaped) (h : ∀ b ∈ E.brackets, b.Agrees) :
    E.lang (compiledWords compile) = E.bashLang := by
  refine OneOrMore.combine_congr E fun l hl => ?_
  rw [combine_mul]
  unfold piecesLang
  rw [unescape_of_none (hunescaped l hl)]
  refine congrArg List.prod (List.map_congr_left fun a ha => ?_)
  exact piece_lang_eq hcompile fun b hb => h b (mem_brackets_piece hl ha hb)

theorem item_lang_eq (hcompile : CompilesClasses compile) {i : PatternItem CharacterSet Fragment}
    (hunescaped : i.Unescaped) (h : ∀ b ∈ i.brackets, b.Agrees) :
    i.lang (compiledWords compile) = i.bashLang := by
  cases i with
  | basic b => exact piece_lang_eq hcompile h
  | extended kind branches => exact congrArg kind.lang (composite_lang_eq hcompile hunescaped h)

theorem isEscape_item {i : PatternItem CharacterSet Fragment} (h : i.Unescaped) :
    i.isEscape = false := by
  cases i with
  | basic b => exact h
  | extended _ _ => rfl

theorem glob_lang_eq (hcompile : CompilesClasses compile) {E : Glob} (hunescaped : E.Unescaped)
    (h : ∀ b ∈ E.brackets, b.Agrees) : E.lang (compiledWords compile) = E.bashLang := by
  rw [Glob.lang_eq_prod]
  unfold Glob.bashLang
  rw [unescape_of_none fun i hi => isEscape_item (hunescaped i hi)]
  refine congrArg List.prod (List.map_congr_left fun i hi => ?_)
  exact item_lang_eq hcompile (hunescaped i hi) fun b hb => h b (mem_brackets_item hi hb)

theorem plain_of_perl (hcompile : CompilesClasses compile) {b : CharacterSet}
    (h : (perlClass b.text.toList).isSome = true) : (compile b.text).Plain := by
  obtain ⟨p, hp⟩ := Option.isSome_iff_exists.mp h
  rw [hcompile b.text p hp]
  trivial

theorem CharacterSet.Agrees.isSome {b : CharacterSet} (h : b.Agrees) :
    (perlClass b.text.toList).isSome = true := by
  obtain ⟨p, hp, -⟩ := h
  rw [hp]
  rfl

variable {host : Host}

theorem keyword_iff (hhost : Backtracks host compile) {E : Glob} (hplain : E.Plain compile)
    (v : String) :
    host.regexMatch false E.tokens v = true ↔ v.toList ∈ E.lang (compiledWords compile) := by
  rw [hhost.bashPattern E v hplain, Regex.matchWhole_isSome_iff (hplain.regex true), glob_lang]

theorem case_iff (hhost : Backtracks host compile) {E : Composite} (hplain : E.Plain compile)
    (v : String) :
    host.regexMatch true E.tokens v = true ↔ v.toList ∈ E.lang (compiledWords compile) := by
  rw [hhost.compositePattern E v hplain, Regex.matchWhole_isSome_iff (hplain.regex true),
    composite_lang]

end Languages

/-! ## Patterns without groups -/

section Pieces

/-- The length of the shortest words. -/
def BasicPattern.size : Piece → Nat
  | matchAll => 0
  | matchOne | bracket _ => 1
  | part t => t.value.length

theorem shortest_piece {words : CharacterSet → Language Char} {b : Piece}
    (hwords : ∀ a ∈ b.brackets, ∀ w ∈ words a, w.length = 1) (hsome : ∃ w, w ∈ b.lang words) :
    Shortest b.size (b.lang words) := by
  cases b with
  | matchAll => exact ⟨fun _ _ => Nat.zero_le _, [], trivial, rfl⟩
  | matchOne =>
    refine ⟨?_, ['a'], ⟨'a', rfl⟩, rfl⟩
    rintro _ ⟨c, rfl⟩
    exact le_rfl
  | bracket b =>
    have hone := hwords b (List.mem_singleton_self b)
    obtain ⟨w, hw⟩ := hsome
    exact ⟨fun w' hw' => (hone w' hw').ge, w, hw, hone w hw⟩
  | part t =>
    refine ⟨?_, t.value.toList, rfl, String.length_toList⟩
    intro w hw
    obtain rfl : w = t.value.toList := hw
    exact String.length_toList.ge

theorem size_pos_of_isEscape (b : Piece) (h : b.isEscape = true) : 0 < b.size := by
  cases b with
  | matchAll => cases h
  | matchOne | bracket _ => exact Nat.one_pos
  | part t =>
    have hvalue : t.value = "\\" := by
      simp only [BasicPattern.isEscape, Fragment.isEscape, Bool.and_eq_true, beq_iff_eq] at h
      exact h.2
    show 0 < t.value.length
    rw [hvalue]
    decide

theorem size_quote (b : Piece) : b.quote.size = b.size := by
  cases b <;> rfl

theorem length_bashWords (a : CharacterSet) : ∀ w ∈ bashWords a, w.length = 1 := by
  rintro _ ⟨c, -, rfl⟩
  rfl

section Exact

variable {compile : String → Regex Char} {l : List Piece}

theorem length_compiledWords (hcompile : CompilesClasses compile) {a : CharacterSet}
    (h : (perlClass a.text.toList).isSome = true) :
    ∀ w ∈ compiledWords compile a, w.length = 1 := by
  obtain ⟨p, hp⟩ := Option.isSome_iff_exists.mp h
  unfold compiledWords
  rw [hcompile a.text p hp]
  rintro _ ⟨c, -, rfl⟩
  rfl

/-- A bracket expression whose words of length one are right means the same. -/
theorem agrees_of_words (hcompile : CompilesClasses compile) {a : CharacterSet}
    (h : (perlClass a.text.toList).isSome = true)
    (hwords : ∀ w, w.length = 1 → (w ∈ compiledWords compile a ↔ w ∈ bashWords a)) : a.Agrees := by
  obtain ⟨p, hp⟩ := Option.isSome_iff_exists.mp h
  refine ⟨p, hp, fun c => ?_⟩
  have hword := hwords [c] rfl
  have hcompiled : [c] ∈ compiledWords compile a ↔ p c = true := by
    unfold compiledWords
    rw [hcompile a.text p hp]
    constructor
    · rintro ⟨c', hc', heq⟩
      cases heq
      exact hc'
    · exact fun hc => ⟨c, hc, rfl⟩
  have hbash : [c] ∈ bashWords a ↔ a.accepts c = true := by
    constructor
    · rintro ⟨c', hc', heq⟩
      cases heq
      exact hc'
    · exact fun hc => ⟨c, hc, rfl⟩
  rw [hcompiled, hbash] at hword
  exact Bool.eq_iff_iff.mpr hword

/-- The pieces mean the same one by one, or the whole has no words. -/
theorem pieces_iff (hcompile : CompilesClasses compile)
    (hreads : ∀ b ∈ l, ∀ a ∈ b.brackets, (perlClass a.text.toList).isSome = true) :
    (l.map (BasicPattern.lang (compiledWords compile))).prod = piecesLang l ↔
      (∀ b ∈ l, b.isEscape = false ∧ ∀ a ∈ b.brackets, a.Agrees) ∨
        (l.map (BasicPattern.lang (compiledWords compile))).prod = 0 ∧ piecesLang l = 0 := by
  constructor
  · intro heq
    by_cases hzero : (l.map (BasicPattern.lang (compiledWords compile))).prod = 0
    · exact .inr ⟨hzero, heq ▸ hzero⟩
    left
    obtain ⟨w, hw⟩ := Set.nonempty_iff_ne_empty.mpr hzero
    have hw' : w ∈ piecesLang l := heq ▸ hw
    have hF : ∀ b ∈ l, Shortest b.size (b.lang (compiledWords compile)) := fun b hb =>
      shortest_piece (fun a ha => length_compiledWords hcompile (hreads b hb a ha))
        (exists_mem_of_prod hw _ (List.mem_map_of_mem hb))
    have hG : ∀ b ∈ unescape BasicPattern.isEscape BasicPattern.quote l,
        Shortest b.size (b.lang bashWords) := fun b hb =>
      shortest_piece (fun a _ => length_bashWords a)
        (exists_mem_of_prod hw' _ (List.mem_map_of_mem hb))
    have hnone : ∀ b ∈ l, b.isEscape = false := by
      -- with an escape the shortest words have different lengths
      by_contra hsome
      simp only [not_forall, Bool.not_eq_false] at hsome
      obtain ⟨b, hb, hescape⟩ := hsome
      have hlt := (sum_unescape size_pos_of_isEscape size_quote l).2 ⟨b, hb, hescape⟩
      obtain ⟨u, hu, hlen⟩ := (shortest_prod hG).2
      have hu' : u ∈ (l.map (BasicPattern.lang (compiledWords compile))).prod := heq ▸ hu
      have hle := (shortest_prod hF).1 u hu'
      omega
    rw [unescape_of_none hnone] at hG
    have hsame := shortest_of_prod hF hG fun w _ => by
      rw [heq]
      unfold piecesLang
      rw [unescape_of_none hnone]
    refine fun b hb => ⟨hnone b hb, fun a ha => ?_⟩
    refine agrees_of_words hcompile (hreads b hb a ha) fun w hlen => ?_
    cases b with
    | bracket b =>
      obtain rfl := List.mem_singleton.mp ha
      exact hsame _ hb w hlen
    | matchAll | matchOne | part t => cases ha
  · rintro (hall | ⟨hzero, hzero'⟩)
    · unfold piecesLang
      rw [unescape_of_none fun b hb => (hall b hb).1]
      exact congrArg List.prod (List.map_congr_left fun b hb => piece_lang_eq hcompile (hall b hb).2)
    · rw [hzero, hzero']

end Exact

end Pieces

section Conditions

/-- Every part means the same: no backslash outside of brackets and quotes, and bracket
expressions that are read as in the shell. -/
def Glob.Faithful (E : Glob) : Prop := E.Unescaped ∧ ∀ b ∈ E.brackets, b.Agrees

def Composite.Faithful (E : Composite) : Prop := E.Unescaped ∧ ∀ b ∈ E.brackets, b.Agrees

/-- The texts of the bracket expressions are classes in Perl's syntax. -/
def Glob.Readable (E : Glob) : Prop := ∀ b ∈ E.brackets, (perlClass b.text.toList).isSome = true

def Composite.Readable (E : Composite) : Prop :=
  ∀ b ∈ E.brackets, (perlClass b.text.toList).isSome = true

variable {host : Host} {compile : String → Regex Char}

theorem forall_toList_iff {L M : Language Char} :
    (∀ v : String, v.toList ∈ L ↔ v.toList ∈ M) ↔ L = M := by
  constructor
  · intro h
    ext w
    have hw := h (String.ofList w)
    rwa [String.toList_ofList] at hw
  · rintro rfl v
    exact Iff.rfl

theorem Glob.denotes_iff (hhost : Backtracks host compile) {E : Glob} (hplain : E.Plain compile) :
    E.Denotes host ↔ E.lang (compiledWords compile) = E.bashLang := by
  rw [← forall_toList_iff]
  exact forall_congr' fun v => by rw [keyword_iff hhost hplain]

theorem Composite.denotes_iff (hhost : Backtracks host compile) {E : Composite}
    (hplain : E.Plain compile) :
    E.Denotes host ↔ E.lang (compiledWords compile) = E.bashLang := by
  rw [← forall_toList_iff]
  exact forall_congr' fun v => by rw [case_iff hhost hplain]

theorem exists_pieces {is : List (PatternItem CharacterSet Fragment)}
    (h : ∀ i ∈ is, ∃ b, i = .basic b) : ∃ l : List Piece, is = l.map .basic := by
  induction is with
  | nil => exact ⟨[], rfl⟩
  | cons i is ih =>
    obtain ⟨⟨b, rfl⟩, his⟩ := List.forall_mem_cons.mp h
    obtain ⟨l, rfl⟩ := ih his
    exact ⟨b :: l, rfl⟩

/-- A pattern without groups means the same when all of its parts do, or when it has no
words. -/
theorem Glob.Simple.denotes_iff (hhost : Backtracks host compile)
    (hcompile : CompilesClasses compile) {E : Glob} (h : E.Simple) (hreads : E.Readable) :
    E.Denotes host ↔
      E.Faithful ∨ E.lang (compiledWords compile) = 0 ∧ E.bashLang = 0 := by
  have hplain : E.Plain compile := fun b hb => plain_of_perl hcompile (hreads b hb)
  obtain ⟨l, hl⟩ := exists_pieces h
  have hlang : E.lang (compiledWords compile) =
      (l.map (BasicPattern.lang (compiledWords compile))).prod := by
    rw [Glob.lang_eq_prod, hl, List.map_map]
    rfl
  have hbash : E.bashLang = piecesLang l := by
    unfold Glob.bashLang piecesLang
    rw [hl, unescape_map PatternItem.basic (fun _ => rfl) (fun _ => rfl), List.map_map]
    rfl
  have hbrackets (P : CharacterSet → Prop) :
      (∀ b ∈ E.brackets, P b) ↔ ∀ b ∈ l, ∀ a ∈ b.brackets, P a := by
    unfold Glob.brackets
    rw [hl, List.flatMap_map]
    simp only [List.mem_flatMap, PatternItem.brackets]
    exact ⟨fun h b hb a ha => h a ⟨b, hb, ha⟩, fun h a ⟨b, hb, ha⟩ => h b hb a ha⟩
  have hfaithful : E.Faithful ↔ ∀ b ∈ l, b.isEscape = false ∧ ∀ a ∈ b.brackets, a.Agrees := by
    unfold Glob.Faithful Glob.Unescaped
    rw [hbrackets, hl, List.forall_mem_map]
    exact ⟨fun h b hb => ⟨h.1 b hb, h.2 b hb⟩, fun h => ⟨fun b hb => (h b hb).1, fun b hb => (h b hb).2⟩⟩
  rw [Glob.denotes_iff hhost hplain, hfaithful, hlang, hbash]
  exact pieces_iff hcompile ((hbrackets _).mp hreads)

/-- The same for a `case` pattern without an alternative. -/
theorem Composite.denotes_single_iff (hhost : Backtracks host compile)
    (hcompile : CompilesClasses compile) {E : Composite} (h : E.others = []) (hreads : E.Readable) :
    E.Denotes host ↔
      E.Faithful ∨ E.lang (compiledWords compile) = 0 ∧ E.bashLang = 0 := by
  have hplain : E.Plain compile := fun b hb => plain_of_perl hcompile (hreads b hb)
  obtain ⟨l, others⟩ := E
  obtain rfl : others = [] := h
  have hlang : Composite.lang (compiledWords compile) ⟨l, []⟩ =
      (l.toList.map (BasicPattern.lang (compiledWords compile))).prod := combine_mul _ l
  have hbrackets : Composite.brackets ⟨l, []⟩ = l.toList.flatMap BasicPattern.brackets :=
    List.flatMap_singleton _ l
  have hfaithful : Composite.Faithful ⟨l, []⟩ ↔
      ∀ b ∈ l.toList, b.isEscape = false ∧ ∀ a ∈ b.brackets, a.Agrees := by
    unfold Composite.Faithful Composite.Unescaped
    rw [hbrackets]
    simp only [OneOrMore.toList, List.mem_singleton, forall_eq, List.mem_flatMap]
    constructor
    · exact fun h b hb => ⟨h.1 b hb, fun a ha => h.2 a ⟨b, hb, ha⟩⟩
    · intro h
      refine ⟨fun b hb => (h b hb).1, ?_⟩
      rintro a ⟨b, hb, ha⟩
      exact (h b hb).2 a ha
  rw [Composite.denotes_iff hhost hplain, hfaithful, hlang]
  refine pieces_iff hcompile fun b hb a ha => hreads a ?_
  rw [hbrackets]
  exact List.mem_flatMap.mpr ⟨b, hb, ha⟩

end Conditions

/-! ## The commands -/

section Commands

variable {host : Host} {compile : String → Regex Char}

/-- What `[[ == ]]` answers, or `[[ != ]]`. -/
theorem run_keywordMatch {n d : Nat} {negation : Bool} {left : Word} {p : PatternTree}
    {l : StringValue} {E : Glob} {s s₁ s₂ : Interpreter}
    (hleft : runShell host n d (Shell.stringExpr host left) s = some (.ok l, s₁))
    (hp : runShell host n d (Shell.glob host p) s₁ = some (.ok E, s₂)) :
    runShell host n d (Shell.commonCondition host (.matchPattern negation left p.tokens)) s =
      some (.ok (host.regexMatch false E.tokens l.value != negation), s₂) := by
  rw [Shell.commonCondition, runShell_bind, bind_of_ok hleft, runShell_bind,
    bind_of_ok (bashPattern_of_glob hp)]
  rfl

/-- Whether a clause of a `case` is the one to be executed. -/
theorem run_caseMatch {n d : Nat} {p : CompositeTree} {target : String} {E : Composite}
    {s s₁ : Interpreter}
    (hp : runShell host n d (Shell.compositePattern host p) s = some (.ok E, s₁)) :
    runShell host n d (Shell.matchPattern host (compositeTokens treeStyle p) target) s =
      some (.ok (host.regexMatch true E.tokens target), s₁) := by
  have hpattern : runShell host n d
      (Shell.bashPattern host none (compositeTokens treeStyle p)) s = some (.ok E.tokens, s₁) := by
    rw [run_compositePattern, bind_of_ok hp]
    rfl
  rw [Shell.matchPattern, runShell_bind, bind_of_ok hpattern]
  rfl

/-- A pattern stands for the words that it stands for in the shell if all of its parts
do, and, when it has neither groups nor alternatives, only then. The last two parts say
what `[[ == ]]` and `case` answer. -/
theorem patterns_denote (hhost : Backtracks host compile) (hcompile : CompilesClasses compile) :
    (∀ E : Glob, E.Faithful → E.Denotes host) ∧
      (∀ E : Composite, E.Faithful → E.Denotes host) ∧
      (∀ E : Glob, E.Simple → E.Readable →
        (E.Denotes host ↔
          E.Faithful ∨ E.lang (compiledWords compile) = 0 ∧ E.bashLang = 0)) ∧
      (∀ E : Composite, E.others = [] → E.Readable →
        (E.Denotes host ↔
          E.Faithful ∨ E.lang (compiledWords compile) = 0 ∧ E.bashLang = 0)) ∧
      (∀ (n d : Nat) (negation : Bool) (left : Word) (p : PatternTree) (l : StringValue) (E : Glob)
        (s s₁ s₂ : Interpreter),
        runShell host n d (Shell.stringExpr host left) s = some (.ok l, s₁) →
        runShell host n d (Shell.glob host p) s₁ = some (.ok E, s₂) →
          runShell host n d
              (Shell.commonCondition host (.matchPattern negation left p.tokens)) s =
            some (.ok (host.regexMatch false E.tokens l.value != negation), s₂)) ∧
      ∀ (n d : Nat) (p : CompositeTree) (target : String) (E : Composite) (s s₁ : Interpreter),
        runShell host n d (Shell.compositePattern host p) s = some (.ok E, s₁) →
          runShell host n d (Shell.matchPattern host (compositeTokens treeStyle p) target) s =
            some (.ok (host.regexMatch true E.tokens target), s₁) := by
  refine ⟨fun E h => ?_, fun E h => ?_, fun E h hreads => h.denotes_iff hhost hcompile hreads,
    fun E h hreads => Composite.denotes_single_iff hhost hcompile h hreads,
    fun _ _ _ _ _ _ _ _ _ _ hleft hp => run_keywordMatch hleft hp,
    fun _ _ _ _ _ _ _ hp => run_caseMatch hp⟩
  · have hplain : E.Plain compile := fun b hb => plain_of_perl hcompile (h.2 b hb).isSome
    exact (Glob.denotes_iff hhost hplain).mpr (glob_lang_eq hcompile h.1 h.2)
  · have hplain : E.Plain compile := fun b hb => plain_of_perl hcompile (h.2 b hb).isSome
    exact (Composite.denotes_iff hhost hplain).mpr (composite_lang_eq hcompile h.1 h.2)

end Commands

/-- The classes of Perl's syntax, and nothing else. -/
def compilePerl (text : String) : Regex Char :=
  match perlClass text.toList with
  | some p => .set p
  | none => .bos

theorem compilesClasses_compilePerl : CompilesClasses compilePerl := by
  intro text p hp
  unfold compilePerl
  rw [hp]

/-- A host that compiles every text, with a library that backtracks. -/
def hostPerl : Host :=
  { Host.ofTexts [] [] with compileMatch := fun _ _ => .ok false }.backtracking compilePerl

/-- `[a-c]`. -/
def globRange : Glob :=
  ⟨.basic (.bracket ⟨false, ⟨.text "a" false, [.text "-" false, .text "c" false]⟩⟩), []⟩

/-- `[[ == ]]` with `[a-c]`. -/
theorem patterns_denote_range : globRange.Denotes hostPerl := by
  refine (patterns_denote (backtracks_backtracking _ _) compilesClasses_compilePerl).1 globRange
    ⟨?_, ?_⟩
  · intro i hi
    rw [List.mem_singleton.mp hi]
    rfl
  · intro b hb
    rw [List.mem_singleton.mp hb]
    have hordinary : ∀ m ∈ [Member.text "a" false, .text "-" false, .text "c" false],
        m.Ordinary := by simp [Member.Ordinary]
    exact CharacterSet.agrees_of_ordinary hordinary rfl (List.cons_ne_nil _ _)

/-- `["^"a]`. -/
def patternCaret : PatternTree :=
  ⟨.basic (.bracket ⟨false, ⟨.part (.doubleQuoted [.text "^"]), [.part (.text "a")]⟩⟩), []⟩

def globCaret : Glob :=
  ⟨.basic (.bracket ⟨false, ⟨.text "^" true, [.text "a" false]⟩⟩), []⟩

/-- `[[ b == ["^"a] ]]` succeeds. -/
theorem not_denotes_caret :
    runShell hostPerl 0 0 (Shell.glob hostPerl patternCaret) (.initial []) =
        some (.ok globCaret, .initial []) ∧
      runShell hostPerl 0 0
          (Shell.commonCondition hostPerl
            (.matchPattern false (.literal "b") patternCaret.tokens)) (.initial []) =
        some (.ok true, .initial []) ∧
      "b".toList ∉ globCaret.bashLang := by
  refine ⟨rfl, rfl, fun hb => ?_⟩
  have hone : globCaret.bashLang =
      bashWords ⟨false, ⟨.text "^" true, [.text "a" false]⟩⟩ := List.prod_singleton
  rw [hone] at hb
  obtain ⟨c, hc, heq⟩ := hb
  obtain rfl : 'b' = c := by simpa using heq
  exact absurd hc (by decide +kernel)

end Libbash
