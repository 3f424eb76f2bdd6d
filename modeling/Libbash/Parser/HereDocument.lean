import Libbash.Lib.Lines
import Libbash.Parser.Substitution

/-!
# Here documents

The parser takes the tokens of a here document until the next ones have together the text of
the delimiter word, as many of them as the word has. Where lines begin and end it does not
ask, and of the quotes of the word it takes away what are tokens of their own.
`endsAtDelimiter_iff` says when the document ends at its delimiter line.
-/

namespace Libbash

open Lib

/-! ## The code -/

/-- The types of tokens that `here_document` tells apart. -/
inductive HereType where
  | eol | blank | lessThan | hereStringOp | greaterThan | rshift
  | ampLessThan | ampGreaterThan | ampRshift
  | lshift | minus | dquote | esc
  /-- Any other type. -/
  | other
  deriving DecidableEq, Repr

/-- A token that the parser sees. -/
structure HereToken where
  type : HereType
  /-- `get_string`. -/
  text : List Char
  /-- The text of the tokens behind it that are on the hidden channel. -/
  hidden : List Char
  nonempty : text ≠ []

/-- `BLANK?`. -/
def dropBlank : List HereToken → List HereToken
  | [] => []
  | t :: ts => if t.type = .blank then ts else t :: ts

/-- `here_document_operator`. -/
def hereDocumentOperator : List HereToken → Option (String × List HereToken)
  | [] => none
  | t :: ts =>
    if t.type = .lshift then
      match ts with
      | [] => some ("<<", [])
      | minus :: rest => if minus.type = .minus then some ("<<-", rest) else some ("<<", ts)
    else none

/-- The tokens that `here_document_begin` takes. -/
def inWord (t : HereToken) : Bool :=
  match t.type with
  | .eol | .blank | .lessThan | .hereStringOp | .greaterThan | .rshift | .ampLessThan
  | .ampGreaterThan | .ampRshift => false
  | _ => true

/-- `LA(-1) != DQUOTE && LA(-1) != ESC`, of the token just taken. -/
def inDelimiter (t : HereToken) : Bool := t.type != .dquote && t.type != .esc

/-- `here_document_begin`: the tokens of the word, and those behind it. -/
def hereDocumentBegin (ts : List HereToken) : Option (List HereToken × List HereToken) :=
  if ts.takeWhile inWord = [] then none else some (ts.takeWhile inWord, ts.dropWhile inWord)

/-- What stands before the document, and the tokens behind its `EOL`. -/
structure HereHead where
  operator : String
  /-- The tokens of `here_document_begin`. -/
  word : List HereToken
  eol : HereToken
  doc : List HereToken

namespace HereHead

variable (head : HereHead)

/-- `here_document_word`. -/
def hereDocumentWord : List Char := (head.word.filter inDelimiter).flatMap HereToken.text

/-- `number_of_tokens`. -/
def numberOfTokens : Nat := (head.word.filter inDelimiter).length

end HereHead

/-- The rule up to its `EOL`. `redirection` stands for `redirection?`: it gives the tokens
behind the redirections, also when there are none, and fails where the parser does. -/
def hereDocumentHead (redirection : List HereToken → Option (List HereToken))
    (ts : List HereToken) : Option HereHead := do
  let (operator, ts) ← hereDocumentOperator (dropBlank ts)
  let (word, ts) ← hereDocumentBegin (dropBlank ts)
  match ← redirection ts with
  | [] => none
  | eol :: doc => if eol.type = .eol then some ⟨operator, word, eol, doc⟩ else none

section Code

-- What `get_string` gives for the token `EOF`, which the runtime makes.
variable (eofText : List Char)

/-- The texts of `LT(1)` to `LT(n)`. Behind the last token there is always `EOF`. -/
def lookAhead : Nat → List HereToken → List Char
  | 0, _ => []
  | n + 1, [] => eofText ++ lookAhead n []
  | n + 1, t :: ts => t.text ++ lookAhead n ts

/-- `is_here_end`. -/
def isHereEnd (hereDocumentWord : List Char) (numberOfTokens : Nat) (ts : List HereToken) : Bool :=
  lookAhead eofText numberOfTokens ts == hereDocumentWord

/-- `here_document_content?`: the tokens it takes, and those behind them. -/
def hereDocumentContent (hereDocumentWord : List Char) (numberOfTokens : Nat)
    (ts : List HereToken) : List HereToken × List HereToken :=
  splitTail (isHereEnd eofText hereDocumentWord numberOfTokens) ts

/-- `here_document_end`: one token for each of the word, at least one, and none behind the
last one there is. -/
def hereDocumentEnd (numberOfTokens : Nat) (ts : List HereToken) : Option (List HereToken) :=
  if numberOfTokens = 0 ∨ ts = [] then none else some (ts.drop numberOfTokens)

/-- The tree of a here document without its redirections, and the tokens behind it. -/
structure HereDocument where
  operator : String
  content : List HereToken
  rest : List HereToken

/-- The rule behind its `EOL`. -/
def HereHead.hereDocument (head : HereHead) : Option HereDocument :=
  let taken := hereDocumentContent eofText head.hereDocumentWord head.numberOfTokens head.doc
  (hereDocumentEnd head.numberOfTokens taken.2).map fun rest => ⟨head.operator, taken.1, rest⟩

/-- `here_document`. -/
def hereDocument (redirection : List HereToken → Option (List HereToken))
    (ts : List HereToken) : Option HereDocument := do
  let head ← hereDocumentHead redirection ts
  head.hereDocument eofText

end Code

/-! ## What a here document should be -/

/-- What quote removal leaves of a character. -/
def unquoted : Quoting → Char → List Char
  | .unquoted, c => if quotingBehind c = .unquoted then [c] else []
  | .escaped, c => if c = '\n' then [] else [c]
  | .single, c => if c = '\'' then [] else [c]
  | .double, c => if doubleBehind c = .double then [c] else []
  | .doubleEscaped, c => if c = '\n' then [] else if c ∈ "$\x60\"\\".toList then [c] else ['\\', c]

/-- Quote removal. -/
def removeQuotes : Quoting → List Char → List Char
  | _, [] => []
  | quoting, c :: cs => unquoted quoting c ++ removeQuotes (shellReader.next quoting c) cs

/-- The text of some tokens, up to the next one. -/
def fullText (ts : List HereToken) : List Char := ts.flatMap fun t => t.text ++ t.hidden

/-- The text of some tokens, up to the end of the last one. -/
def spanned : List HereToken → List Char
  | [] => []
  | [t] => t.text
  | t :: ts => t.text ++ t.hidden ++ spanned ts

namespace HereHead

variable (head : HereHead)

/-- The delimiter: the word without its quotes. -/
def delimiter : List Char := removeQuotes .unquoted (spanned head.word)

/-- What stands between the first line end and the tokens of the document. -/
def lead : List Char := (head.eol.text.dropWhile (· != '\n')).tail ++ head.eol.hidden

/-- The text behind the first line end. -/
def docText : List Char := head.lead ++ fullText head.doc

/-- The text before a token of the document. -/
def textBefore (i : Nat) : List Char := head.lead ++ fullText (head.doc.take i)

/-- The tokens from one of the document on, as many as `here_document_end` takes. -/
def window (i : Nat) : List HereToken := (head.doc.drop i).take head.numberOfTokens

/-- The content are the tokens before the first delimiter line, and that line is consumed;
without such a line there is no document. -/
structure EndsWith (outcome : Option HereDocument) : Prop where
  found : ∀ before behind, IsFirstLine head.docText head.delimiter before behind →
    ∃ content line rest, head.doc = content ++ (line ++ rest) ∧
      head.lead ++ fullText content = before ∧ spanned line = head.delimiter ∧
        outcome = some ⟨head.operator, content, rest⟩
  missing : (¬∃ before behind, IsLine head.docText head.delimiter before behind) →
    outcome = none

end HereHead

/-- The here document ends at its delimiter line. -/
def EndsAtDelimiter (eofText : List Char)
    (redirection : List HereToken → Option (List HereToken)) (ts : List HereToken) : Prop :=
  ∀ head ∈ hereDocumentHead redirection ts, head.EndsWith (hereDocument eofText redirection ts)

/-! ## When it ends there -/

namespace HereHead

variable (head : HereHead) (eofText : List Char)

/-- From a token on, the tokens have together the text of the word. -/
structure Spells (i : Nat) : Prop where
  inDoc : i < head.doc.length
  pos : head.numberOfTokens ≠ 0
  spells : lookAhead eofText head.numberOfTokens (head.doc.drop i) = head.hereDocumentWord

/-- No tokens before the first delimiter line spell the word, and none at all when there is
no such line. -/
def NoFalseEnd : Prop :=
  ∀ i, head.Spells eofText i → ∃ before behind,
    IsFirstLine head.docText head.delimiter before behind ∧
      before.length ≤ (head.textBefore i).length

/-- The first delimiter line begins with a token, from which on the tokens spell the word and
make up the line. -/
def Aligned : Prop :=
  ∀ before behind, IsFirstLine head.docText head.delimiter before behind →
    ∃ i, head.Spells eofText i ∧ head.textBefore i = before ∧
      spanned (head.window i) = head.delimiter

variable {head eofText} {i j : Nat}

theorem length_textBefore_lt (hij : i < j) (hj : j ≤ head.doc.length) :
    (head.textBefore i).length < (head.textBefore j).length := by
  unfold textBefore fullText
  rw [List.length_append, List.length_append]
  apply Nat.add_lt_add_left
  refine length_flatMap_take_lt (fun t => ?_) hij hj
  exact List.append_ne_nil_of_left_ne_nil t.nonempty t.hidden

variable (head eofText) in
/-- Where the content ends. -/
def stop : Nat :=
  stopOf (isHereEnd eofText head.hereDocumentWord head.numberOfTokens) head.doc

theorem spells_iff : head.Spells eofText i ↔ i < head.doc.length ∧ head.numberOfTokens ≠ 0 ∧
    isHereEnd eofText head.hereDocumentWord head.numberOfTokens (head.doc.drop i) = true := by
  rw [isHereEnd, beq_iff_eq]
  exact ⟨fun h => ⟨h.inDoc, h.pos, h.spells⟩, fun h => ⟨h.1, h.2.1, h.2.2⟩⟩

/-- The parser stops at the first place that spells the word. -/
theorem stop_eq (h : head.Spells eofText i) (hfirst : ∀ j < i, ¬head.Spells eofText j) :
    head.stop eofText = i := by
  obtain ⟨hi, hpos, hend⟩ := spells_iff.mp h
  refine stopOf_eq hi (fun j hj => ?_) hend
  have hnot := hfirst j hj
  rw [spells_iff, not_and, not_and] at hnot
  exact Bool.eq_false_iff.mpr (hnot (Nat.lt_trans hj hi) hpos)

theorem not_spells_of_lt (h : j < head.stop eofText) : ¬head.Spells eofText j := by
  intro hspells
  rw [spells_iff, eq_false_of_lt_stopOf h] at hspells
  exact Bool.false_ne_true hspells.2.2

theorem spells_stop (hpos : head.numberOfTokens ≠ 0)
    (h : head.stop eofText < head.doc.length) : head.Spells eofText (head.stop eofText) :=
  spells_iff.mpr ⟨h, hpos, eq_true_of_stopOf_lt h⟩

/-- What the rule gives when the content ends at this place. -/
theorem hereDocument_eq_some (h : head.Spells eofText i)
    (hfirst : ∀ j < i, ¬head.Spells eofText j) :
    head.hereDocument eofText = some ⟨head.operator, head.doc.take i,
      (head.doc.drop i).drop head.numberOfTokens⟩ := by
  have hend : ¬(head.numberOfTokens = 0 ∨ head.doc.drop i = []) := by
    rw [List.drop_eq_nil_iff, not_or]
    exact ⟨h.pos, Nat.not_le_of_lt h.inDoc⟩
  have hstop : stopOf (isHereEnd eofText head.hereDocumentWord head.numberOfTokens) head.doc = i :=
    stop_eq h hfirst
  unfold hereDocument hereDocumentContent
  rw [splitTail_eq, hstop]
  show Option.map _ (if head.numberOfTokens = 0 ∨ head.doc.drop i = [] then none else _) = _
  rw [if_neg hend]
  rfl

theorem hereDocument_eq_none (h : ¬head.Spells eofText (head.stop eofText)) :
    head.hereDocument eofText = none := by
  have hend : head.numberOfTokens = 0 ∨ head.doc.drop (head.stop eofText) = [] := by
    rw [List.drop_eq_nil_iff]
    by_contra hboth
    rw [not_or, Nat.not_le] at hboth
    exact h (spells_stop hboth.1 hboth.2)
  unfold hereDocument hereDocumentContent
  rw [splitTail_eq]
  show Option.map _
    (if head.numberOfTokens = 0 ∨ head.doc.drop (head.stop eofText) = [] then none else _) = none
  rw [if_pos hend]
  rfl

/-- Where some tokens spell the word, there is a document. -/
theorem hereDocument_ne_none (h : head.Spells eofText i) : head.hereDocument eofText ≠ none := by
  have hle : head.stop eofText ≤ i := Nat.le_of_not_lt fun hlt => not_spells_of_lt hlt h
  have hspells := spells_stop h.pos (Nat.lt_of_le_of_lt hle h.inDoc)
  rw [hereDocument_eq_some hspells fun _ => not_spells_of_lt]
  exact nofun

/-- A document ends at the first place that spells the word. -/
theorem exists_of_hereDocument {d : HereDocument} (h : head.hereDocument eofText = some d) :
    ∃ i, head.Spells eofText i ∧ (∀ j < i, ¬head.Spells eofText j) ∧
      d = ⟨head.operator, head.doc.take i, (head.doc.drop i).drop head.numberOfTokens⟩ := by
  by_cases hspells : head.Spells eofText (head.stop eofText)
  · have hfirst : ∀ j < head.stop eofText, ¬head.Spells eofText j := fun _ => not_spells_of_lt
    rw [hereDocument_eq_some hspells hfirst] at h
    exact ⟨_, hspells, hfirst, (Option.some.inj h).symm⟩
  · rw [hereDocument_eq_none hspells] at h
    cases h

/-- Before the first delimiter line nothing spells the word. -/
theorem NoFalseEnd.not_spells (h : head.NoFalseEnd eofText) {before behind : List Char}
    (hline : IsFirstLine head.docText head.delimiter before behind)
    (hj : (head.textBefore j).length < before.length) : ¬head.Spells eofText j := by
  intro hspells
  obtain ⟨before', behind', hline', hle⟩ := h j hspells
  rw [hline.length_eq hline'] at hj
  omega

/-- When nothing else spells the word, the document ends at its delimiter line. -/
theorem endsWith_of_aligned (hfalse : head.NoFalseEnd eofText) (haligned : head.Aligned eofText) :
    head.EndsWith (head.hereDocument eofText) := by
  constructor
  -- The document ends at the delimiter line, since nothing before it spells the word.
  · intro before behind hline
    obtain ⟨i, hspells, hbefore, hwindow⟩ := haligned before behind hline
    have hfirst : ∀ j < i, ¬head.Spells eofText j := by
      intro j hj
      apply hfalse.not_spells hline
      rw [← hbefore]
      exact length_textBefore_lt hj (Nat.le_of_lt hspells.inDoc)
    refine ⟨head.doc.take i, head.window i, (head.doc.drop i).drop head.numberOfTokens, ?_,
      hbefore, hwindow, hereDocument_eq_some hspells hfirst⟩
    unfold window
    rw [List.take_append_drop, List.take_append_drop]
  · intro hnone
    apply hereDocument_eq_none
    intro hspells
    obtain ⟨before, behind, hline, -⟩ := hfalse _ hspells
    exact hnone ⟨before, behind, hline.toIsLine⟩

/-- The place where a document ends that ends at its delimiter line. -/
theorem EndsWith.exists_place (h : head.EndsWith (head.hereDocument eofText))
    {before behind : List Char}
    (hline : IsFirstLine head.docText head.delimiter before behind) :
    ∃ i, head.Spells eofText i ∧ (∀ j < i, ¬head.Spells eofText j) ∧
      head.textBefore i = before ∧ spanned (head.window i) = head.delimiter := by
  obtain ⟨content, line, rest, hdoc, hbefore, hspanned, houtcome⟩ := h.found before behind hline
  obtain ⟨i, hspells, hfirst, heq⟩ := exists_of_hereDocument houtcome
  obtain ⟨-, rfl, rfl⟩ := HereDocument.mk.inj heq
  refine ⟨i, hspells, hfirst, hbefore, ?_⟩
  -- Content and rest are known, so the tokens between them are those of the window.
  have hwindow : line = head.window i := by
    have hsplit := hdoc
    nth_rewrite 1 [← List.take_append_drop i head.doc] at hsplit
    rw [List.append_cancel_left_eq] at hsplit
    nth_rewrite 1 [← List.take_append_drop head.numberOfTokens (head.doc.drop i)] at hsplit
    exact (List.append_cancel_right hsplit).symm
  rw [← hwindow]
  exact hspanned

theorem endsWith_iff : head.EndsWith (head.hereDocument eofText) ↔
    head.NoFalseEnd eofText ∧ head.Aligned eofText := by
  refine ⟨fun h => ⟨?_, ?_⟩, fun h => endsWith_of_aligned h.1 h.2⟩
  · intro i hspells
    by_cases hline : ∃ before behind, IsLine head.docText head.delimiter before behind
    · obtain ⟨before, behind, hline⟩ := hline
      obtain ⟨before, behind, hfirst⟩ := hline.exists_first
      obtain ⟨k, -, hbefore, htext, -⟩ := h.exists_place hfirst
      refine ⟨before, behind, hfirst, ?_⟩
      -- The document ends at `k`, the first place that spells the word.
      have hle : k ≤ i := Nat.le_of_not_lt fun hlt => hbefore i hlt hspells
      rw [← htext]
      rcases Nat.lt_or_eq_of_le hle with hlt | rfl
      · exact Nat.le_of_lt (length_textBefore_lt hlt (Nat.le_of_lt hspells.inDoc))
      · exact Nat.le_refl _
    · exact absurd (h.missing hline) (hereDocument_ne_none hspells)
  · intro before behind hline
    obtain ⟨i, hspells, -, hplace⟩ := h.exists_place hline
    exact ⟨i, hspells, hplace⟩

end HereHead

/-- The document ends at its delimiter line just if the first such line begins with a token
and its tokens spell the word, and no tokens before it do. -/
theorem endsAtDelimiter_iff (eofText : List Char)
    (redirection : List HereToken → Option (List HereToken)) (ts : List HereToken) :
    EndsAtDelimiter eofText redirection ts ↔
      ∀ head ∈ hereDocumentHead redirection ts,
        head.NoFalseEnd eofText ∧ head.Aligned eofText := by
  refine forall₂_congr fun head hhead => ?_
  have hcode : hereDocument eofText redirection ts = head.hereDocument eofText := by
    rw [hereDocument, hhead]
    rfl
  rw [hcode]
  exact HereHead.endsWith_iff

/-- `<<EOF`, a line that has the delimiter in its middle, and the delimiter line. -/
def delimiterInLine : List HereToken :=
  [⟨.lshift, "<<".toList, [], by decide⟩, ⟨.other, "EOF".toList, [], by decide⟩,
    ⟨.eol, "\n".toList, [], by decide⟩, ⟨.other, "a".toList, [], by decide⟩,
    ⟨.blank, " ".toList, [], by decide⟩, ⟨.other, "EOF".toList, [], by decide⟩,
    ⟨.blank, " ".toList, [], by decide⟩, ⟨.other, "b".toList, [], by decide⟩,
    ⟨.eol, "\n".toList, [], by decide⟩, ⟨.other, "EOF".toList, [], by decide⟩,
    ⟨.eol, "\n".toList, [], by decide⟩]

/-- The document ends in the middle of its first line. -/
theorem not_endsAtDelimiter_middle :
    ¬∀ eofText redirection ts, EndsAtDelimiter eofText redirection ts := by
  intro h
  have hends := h [] some delimiterInLine _ rfl
  have hline : IsLine "a EOF b\nEOF\n".toList "EOF".toList "a EOF b\n".toList "\n".toList :=
    ⟨by decide, by decide, .inr (by decide), .inr trivial, nofun⟩
  obtain ⟨before, behind, hfirst⟩ := hline.exists_first
  obtain ⟨content, line, rest, -, hbefore, -, houtcome⟩ := hends.found before behind hfirst
  -- The content is `a` and the blank behind it, and no line starts there.
  obtain ⟨-, rfl, -⟩ := HereDocument.mk.inj (Option.some.inj houtcome)
  have hstarts := hfirst.starts
  rw [← hbefore] at hstarts
  exact absurd hstarts (by decide)

end Libbash
