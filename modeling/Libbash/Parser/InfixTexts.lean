import Libbash.Arith.Operators
import Libbash.Parser.Arithmetic

/-!
# Sequences of integers and operators as texts

A sequence is an integer literal and a list of binary operators, each with a
literal to its right and blanks on both sides. `infixText` writes it down and
`infixTokens` is what the lexer makes of it (`tokens_infixText`). No two tokens
of a sequence run into each other, since every operator stands between a blank
or digit on either side.
-/

namespace Libbash

open Lib Arith

/-! ## Operators -/

/-- The binary operators between integers. -/
inductive InfixOp where
  | binary (op : BinaryOp)
  | logic (op : LogicOp)
  deriving DecidableEq

namespace InfixOp

/-- The type of its node. -/
def type : InfixOp → TokenType
  | binary op => op.type
  | logic op => op.type

/-- How it is written. -/
def text : InfixOp → List Char
  | binary .pipe => ['|']
  | binary .caret => ['^']
  | binary .amp => ['&']
  | binary .leq => ['<', '=']
  | binary .geq => ['>', '=']
  | binary .lessThan => ['<']
  | binary .greaterThan => ['>']
  | binary .notEquals => ['!', '=']
  | binary .equalsTo => ['=', '=']
  | binary .lshift => ['<', '<']
  | binary .rshift => ['>', '>']
  | binary .plus => ['+']
  | binary .minus => ['-']
  | binary .times => ['*']
  | binary .slash => ['/']
  | binary .pct => ['%']
  | binary .exp => ['*', '*']
  | logic .logicAnd => ['&', '&']
  | logic .logicOr => ['|', '|']

/-- What the lexer makes of it. -/
def tokens : InfixOp → List ArithToken
  | binary .pipe => [.pipe]
  | binary .caret => [.caret]
  | binary .amp => [.amp]
  | binary .leq => [.lessThan, .equals]
  | binary .geq => [.greaterThan, .equals]
  | binary .lessThan => [.lessThan]
  | binary .greaterThan => [.greaterThan]
  | binary .notEquals => [.bang, .equals]
  | binary .equalsTo => [.equals, .equals]
  | binary .lshift => [.lshift]
  | binary .rshift => [.rshift]
  | binary .plus => [.plus]
  | binary .minus => [.minus]
  | binary .times => [.times]
  | binary .slash => [.slash]
  | binary .pct => [.pct]
  | binary .exp => [.exp]
  | logic .logicAnd => [.logicAnd]
  | logic .logicOr => [.logicOr]

theorem text_ne_nil (op : InfixOp) : op.text ≠ [] := by
  cases op with
  | binary op => cases op <;> exact List.cons_ne_nil _ _
  | logic op => cases op <;> exact List.cons_ne_nil _ _

end InfixOp

/-! ## Texts -/

/-- What may stand between two tokens. -/
structure Gap where
  blanks : List Char
  areBlanks : ∀ c ∈ blanks, isSpace c = true

def Gap.empty : Gap := ⟨[], by simp⟩

/-- The `BLANK` of a gap, if there is one. -/
def Gap.tokens (g : Gap) : List ArithToken := if g.blanks = [] then [] else [.blank]

/-- An operator with the blanks around it. -/
structure Occurrence where
  op : InfixOp
  before : Gap := .empty
  after : Gap := .empty

/-- The text after the first literal. -/
def tailText : List (Occurrence × Literal) → List Char
  | [] => []
  | (o, l) :: tail =>
    o.before.blanks ++ o.op.text ++ o.after.blanks ++ l.digits ++ tailText tail

/-- The text of a sequence. -/
def infixText (l : Literal) (tail : List (Occurrence × Literal)) : String :=
  String.ofList (l.digits ++ tailText tail)

def tailTokens : List (Occurrence × Literal) → List ArithToken
  | [] => []
  | (o, l) :: tail =>
    o.before.tokens ++ o.op.tokens ++ o.after.tokens ++ .num l :: tailTokens tail

/-! ## Lexing -/

/-- No token goes on with a character like this. -/
def Stops (p : Char → Bool) (cs : List Char) : Prop := ∀ c ∈ cs.head?, p c = false

theorem takeWhile_append_of_stops {p : Char → Bool} {ds cs : List Char} (hds : ∀ c ∈ ds, p c = true)
    (hcs : Stops p cs) : (ds ++ cs).takeWhile p = ds ∧ (ds ++ cs).dropWhile p = cs := by
  induction ds with
  | nil =>
    cases cs with
    | nil => exact ⟨rfl, rfl⟩
    | cons c cs =>
      have hc : p c = false := hcs c rfl
      simp [hc]
  | cons d ds ih =>
    have hd : p d = true := hds d (by simp)
    simp [hd, ih fun c hc => hds c (by simp [hc])]

theorem tokens_literal (l : Literal) {cs : List Char} (hcs : Stops Char.isDigit cs) :
    tokens (l.digits ++ cs) = .num l :: tokens cs := by
  obtain ⟨digits, nonempty, areDigits⟩ := l
  cases digits with
  | nil => exact absurd rfl nonempty
  | cons d ds =>
    have hd : d.isDigit = true := areDigits d (by simp)
    obtain ⟨htake, hdrop⟩ :=
      takeWhile_append_of_stops (fun c hc => areDigits c (List.mem_cons_of_mem d hc)) hcs
    rw [List.cons_append, tokens_cons]
    unfold nextToken
    rw [dif_pos hd]
    simp only [literalFrom, htake, hdrop]

theorem isDigit_of_isSpace {c : Char} (h : isSpace c = true) : c.isDigit = false := by
  simp only [isSpace, Bool.or_eq_true, beq_iff_eq] at h
  rcases h with rfl | rfl <;> rfl

theorem isSpace_of_isDigit {c : Char} (h : c.isDigit = true) : isSpace c = false := by
  rw [Bool.eq_false_iff]
  intro hspace
  rw [isDigit_of_isSpace hspace] at h
  cases h

theorem tokens_gap (g : Gap) {cs : List Char} (hcs : Stops isSpace cs) :
    tokens (g.blanks ++ cs) = g.tokens ++ tokens cs := by
  obtain ⟨blanks, areBlanks⟩ := g
  cases blanks with
  | nil => rfl
  | cons b bs =>
    have hb : isSpace b = true := areBlanks b (by simp)
    obtain ⟨-, hdrop⟩ :=
      takeWhile_append_of_stops (fun c hc => areBlanks c (List.mem_cons_of_mem b hc)) hcs
    have hdigit := isDigit_of_isSpace hb
    have hword : (b.isAlpha || b == '_') = false := by
      simp only [isSpace, Bool.or_eq_true, beq_iff_eq] at hb
      rcases hb with rfl | rfl <;> rfl
    rw [List.cons_append, tokens_cons]
    unfold nextToken
    rw [dif_neg (by rw [hdigit]; exact Bool.false_ne_true), hword, if_neg Bool.false_ne_true,
      if_pos hb, hdrop]
    rfl

/-- What an operator is followed by: a blank or a digit. -/
def Loose (c : Char) : Bool := isSpace c || c.isDigit

theorem InfixOp.not_loose (op : InfixOp) : ∀ c ∈ op.text, Loose c = false := by
  have hall : op.text.all (!Loose ·) = true := by
    cases op with
    | binary op => cases op <;> decide
    | logic op => cases op <;> decide
  intro c hc
  simpa using List.all_eq_true.mp hall c hc

/-- Neither a blank nor a digit goes on with a symbol. -/
theorem isPrefixOf_append {s : List Char} (hs : ∀ d ∈ s, Loose d = false) {c : Char}
    (hc : Loose c = true) (t cs : List Char) :
    s.isPrefixOf (t ++ c :: cs) = s.isPrefixOf t := by
  induction s generalizing t with
  | nil => rw [List.isPrefixOf_nil_left, List.isPrefixOf_nil_left]
  | cons d s ih =>
    simp only [List.forall_mem_cons] at hs
    cases t with
    | nil =>
      have hne : (d == c) = false := by
        rw [beq_eq_false_iff_ne]
        rintro rfl
        rw [hs.1] at hc
        cases hc
      simp [List.isPrefixOf, hne]
    | cons e t => simp [List.isPrefixOf, ih hs.2]

theorem symbolAt_append {c : Char} (hc : Loose c = true) (t cs : List Char) :
    symbolAt (t ++ c :: cs) = symbolAt t := by
  have hall : ∀ s ∈ symbols, ∀ d ∈ s.1, Loose d = false := by
    have htable : (symbols.all fun s => s.1.all (!Loose ·)) = true := by decide
    intro s hs d hd
    simpa using List.all_eq_true.mp (List.all_eq_true.mp htable s hs) d hd
  unfold symbolAt
  generalize symbols = table at hall
  induction table with
  | nil => rfl
  | cons s table ih =>
    simp only [List.forall_mem_cons] at hall
    simp only [List.find?_cons, isPrefixOf_append hall.1 hc, ih hall.2]

/-- A character that no literal, word or blank starts with. -/
def isSymbolChar (d : Char) : Bool :=
  !(d.isDigit || d.isAlpha || d == '_' || isSpace d || d == '\n' || d == '\r')

theorem tokens_symbol {d c : Char} {t cs s : List Char} {tok : ArithToken}
    (hd : isSymbolChar d = true) (hc : Loose c = true) (hs : symbolAt (d :: t) = some (s, tok)) :
    tokens (d :: t ++ c :: cs) = tok :: tokens ((t ++ c :: cs).drop (s.length - 1)) := by
  simp only [isSymbolChar, Bool.not_eq_true', Bool.or_eq_false_iff] at hd
  obtain ⟨⟨⟨⟨⟨hdigit, halpha⟩, hunderscore⟩, hspace⟩, hline⟩, hreturn⟩ := hd
  have hat : symbolAt (d :: (t ++ c :: cs)) = some (s, tok) :=
    (symbolAt_append hc (d :: t) cs).trans hs
  rw [List.cons_append, tokens_cons]
  simp [nextToken, hdigit, halpha, hunderscore, hspace, hline, hreturn, hat]

theorem tokens_op (op : InfixOp) {c : Char} {cs : List Char} (hc : Loose c = true) :
    tokens (op.text ++ c :: cs) = op.tokens ++ tokens (c :: cs) := by
  -- an operator of one token is read at once
  have hone {d : Char} {t : List Char} {tok : ArithToken} (hd : isSymbolChar d = true)
      (hs : symbolAt (d :: t) = some (d :: t, tok)) :
      tokens (d :: t ++ c :: cs) = tok :: tokens (c :: cs) := by
    rw [tokens_symbol hd hc hs]
    simp
  -- `EQUALS` is a token of its own after another symbol
  have htwo {d : Char} {tok : ArithToken} (hd : isSymbolChar d = true)
      (hs : symbolAt [d, '='] = some ([d], tok)) :
      tokens ([d, '='] ++ c :: cs) = tok :: .equals :: tokens (c :: cs) := by
    rw [tokens_symbol hd hc hs]
    exact congrArg _ (hone rfl rfl)
  cases op with
  | binary op =>
    cases op with
    | leq | geq | notEquals | equalsTo => exact htwo rfl rfl
    | _ => exact hone rfl rfl
  | logic op => cases op <;> exact hone rfl rfl

/-- A text that begins with digits or a blank, or is empty. -/
theorem tokens_tailText (tail : List (Occurrence × Literal)) :
    Stops Char.isDigit (tailText tail) ∧ tokens (tailText tail) = tailTokens tail := by
  induction tail with
  | nil => exact ⟨fun c hc => (by cases hc), rfl⟩
  | cons p tail ih =>
    obtain ⟨o, l⟩ := p
    obtain ⟨hstops, htokens⟩ := ih
    obtain ⟨d, ds, hop⟩ : ∃ d ds, o.op.text = d :: ds := List.exists_cons_of_ne_nil o.op.text_ne_nil
    have hd : Loose d = false := o.op.not_loose d (by simp [hop])
    obtain ⟨hspace, hdigit⟩ : isSpace d = false ∧ d.isDigit = false := by simpa [Loose] using hd
    -- what follows the operator: its blanks, or the literal at once
    have hright : tokens (o.op.text ++ (o.after.blanks ++ (l.digits ++ tailText tail))) =
        o.op.tokens ++ (o.after.tokens ++ .num l :: tailTokens tail) := by
      have hliteral := tokens_literal l hstops
      obtain ⟨c, cs, hl⟩ := List.exists_cons_of_ne_nil l.nonempty
      have hc : c.isDigit = true := l.areDigits c (by simp [hl])
      have hstart : Stops isSpace (l.digits ++ tailText tail) := by
        intro b hb
        rw [hl] at hb
        cases hb
        exact isSpace_of_isDigit hc
      have hgap := tokens_gap o.after hstart
      rw [htokens] at hliteral
      rw [← hliteral, ← hgap]
      cases hblanks : o.after.blanks with
      | nil =>
        rw [hl]
        exact tokens_op o.op (by simp [Loose, hc])
      | cons b bs =>
        exact tokens_op o.op (by simp [Loose, o.after.areBlanks b (by simp [hblanks])])
    constructor
    · intro c hc
      cases hblanks : o.before.blanks with
      | nil =>
        simp only [tailText, hblanks, hop, List.nil_append, List.cons_append, List.head?_cons,
          Option.mem_def, Option.some.injEq] at hc
        exact hc ▸ hdigit
      | cons b bs =>
        simp only [tailText, hblanks, List.cons_append, List.head?_cons, Option.mem_def,
          Option.some.injEq] at hc
        exact hc ▸ isDigit_of_isSpace (o.before.areBlanks b (by simp [hblanks]))
    · have hstart : Stops isSpace (o.op.text ++ (o.after.blanks ++ (l.digits ++ tailText tail))) := by
        intro c hc
        rw [hop] at hc
        cases hc
        exact hspace
      have hgap := tokens_gap o.before hstart
      rw [hright] at hgap
      simpa [tailText, tailTokens] using hgap

/-! ## Parsing -/

theorem isPlain_append (cs ds : List Char) : isPlain (cs ++ ds) = (isPlain cs && isPlain ds) :=
  List.all_append

theorem isPlain_of_loose {cs : List Char} (h : ∀ c ∈ cs, Loose c = true) : isPlain cs = true := by
  refine List.all_eq_true.mpr fun c hc => ?_
  have hloose := h c hc
  by_contra hspecial
  simp only [Bool.not_eq_true', Bool.not_eq_false, Bool.or_eq_true, beq_iff_eq] at hspecial
  rcases hspecial with (((rfl | rfl) | rfl) | rfl) | rfl <;> cases hloose

theorem Literal.isPlain (l : Literal) : isPlain l.digits = true :=
  isPlain_of_loose fun c hc => by simp [Loose, l.areDigits c hc]

theorem InfixOp.isPlain (op : InfixOp) : isPlain op.text = true := by
  cases op with
  | binary op => cases op <;> rfl
  | logic op => cases op <;> rfl

theorem isPlain_tailText (tail : List (Occurrence × Literal)) : isPlain (tailText tail) = true := by
  induction tail with
  | nil => rfl
  | cons p tail ih =>
    have hgap (g : Gap) : Libbash.isPlain g.blanks = true :=
      isPlain_of_loose fun c hc => by simp [Loose, g.areBlanks c hc]
    simp only [tailText, isPlain_append, hgap, p.1.op.isPlain, p.2.isPlain, ih, Bool.and_self]

theorem isBlank_of_isDigit {c : Char} (h : c.isDigit = true) : isBlank c = false := by
  rw [Bool.eq_false_iff]
  intro hblank
  simp only [isBlank, Bool.or_eq_true, beq_iff_eq] at hblank
  rcases hblank with (rfl | rfl) | rfl <;> cases h

/-- A sequence ends with a digit. -/
theorem getLast?_infixText (l : Literal) (tail : List (Occurrence × Literal)) :
    ∀ c ∈ (l.digits ++ tailText tail).getLast?, c.isDigit = true := by
  induction tail generalizing l with
  | nil =>
    intro c hc
    rw [tailText, List.append_nil] at hc
    exact l.areDigits c (List.mem_of_getLast? hc)
  | cons p tail ih =>
    intro c hc
    have hne : p.2.digits ++ tailText tail ≠ [] := List.append_ne_nil_of_left_ne_nil p.2.nonempty _
    rw [tailText, List.append_assoc _ p.2.digits, ← List.append_assoc,
      List.getLast?_append_of_ne_nil _ hne] at hc
    exact ih p.2 c hc

theorem parseArithmetics_infixText (elsewhere : String → Except Exn (List AstNode)) (l : Literal)
    (tail : List (Occurrence × Literal)) :
    ∃ d, parseArithmetics elsewhere (infixText l tail) =
      parsed (ArithParser.arithmetics (d + 1) (.num l :: tailTokens tail)) := by
  obtain ⟨hstops, htokens⟩ := tokens_tailText tail
  refine ⟨(l.digits ++ tailText tail).length, ?_⟩
  rw [← htokens, ← tokens_literal l hstops]
  refine parseArithmetics_of_plain elsewhere ?_ ?_ fun c hc =>
    isBlank_of_isDigit (getLast?_infixText l tail c hc)
  · rw [isPlain_append, l.isPlain, isPlain_tailText]
    rfl
  · intro c hc
    rw [List.head?_append_of_ne_nil _ l.nonempty] at hc
    exact isBlank_of_isDigit (l.areDigits c (List.mem_of_mem_head? hc))

end Libbash
