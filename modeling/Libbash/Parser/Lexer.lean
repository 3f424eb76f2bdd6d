import Libbash.Arith.Numerals

/-!
# Scripts and the tokens of arithmetic

`read_script` of `bash_ast.cpp`, and the lexer of `bashast.g` on the texts that
it reads without a predicate: a text with a `$`, a quote other than `"`, a
backslash or a `#` is not among them (`isPlain`). The longest token is taken, and
of two equally long ones the one whose rule comes first.
-/

namespace Libbash

open Lib

/-! ## Reading a script -/

/-- `read_script`: `erase_all` of escaped line ends. -/
def eraseContinuations : List Char → List Char
  | '\\' :: '\n' :: cs => eraseContinuations cs
  | c :: cs => c :: eraseContinuations cs
  | [] => []

def isBlank (c : Char) : Bool := c == ' ' || c == '\t' || c == '\n'

/-- `boost::trim_if`. -/
def trimIf (p : Char → Bool) (cs : List Char) : List Char :=
  ((cs.dropWhile p).reverse.dropWhile p).reverse

/-- `read_script`. -/
def readScript (trim : Bool) (source : String) : String :=
  let script := eraseContinuations source.toList
  String.ofList (if trim then trimIf isBlank script else script)

/-- A text that neither starts nor ends with a blank is not trimmed. -/
theorem trimIf_isBlank {cs : List Char} (hhead : ∀ c ∈ cs.head?, isBlank c = false)
    (hlast : ∀ c ∈ cs.getLast?, isBlank c = false) : trimIf isBlank cs = cs := by
  have hdrop (ds : List Char) (h : ∀ c ∈ ds.head?, isBlank c = false) :
      ds.dropWhile isBlank = ds := by
    cases ds with
    | nil => rfl
    | cons d ds => exact List.dropWhile_cons_of_neg (by rw [h d rfl]; exact Bool.false_ne_true)
  rw [trimIf, hdrop cs hhead, hdrop _ ?_, List.reverse_reverse]
  rwa [List.head?_reverse]

/-- A text without escapes that neither starts nor ends with a blank. -/
theorem readScript_eq {cs : List Char} (hescape : '\\' ∉ cs)
    (hhead : ∀ c ∈ cs.head?, isBlank c = false) (hlast : ∀ c ∈ cs.getLast?, isBlank c = false) :
    readScript true (String.ofList cs) = String.ofList cs := by
  have herase : eraseContinuations cs = cs := by
    clear hhead hlast
    induction cs with
    | nil => rfl
    | cons c cs ih =>
      simp only [List.mem_cons, not_or] at hescape
      unfold eraseContinuations
      split
      · next heq =>
        cases heq
        exact absurd rfl hescape.1
      · next heq =>
        cases heq
        rw [ih hescape.2]
      · next heq => cases heq
  show String.ofList (trimIf isBlank (eraseContinuations (String.ofList cs).toList)) = _
  rw [String.toList_ofList, herase, trimIf_isBlank hhead hlast]

/-! ## Tokens -/

/-- The tokens that the rules of arithmetic mention. -/
inductive ArithToken where
  /-- `DIGIT` and `NUMBER`. -/
  | num (l : Literal)
  /-- `NAME`, `LETTER` and `UNDERSCORE`. -/
  | name (text : String)
  | blank | eol
  | lparen | rparen | lsquare | rsquare | rbrace | dquote
  | comma | colon | qmark | semic | doubleSemic
  | exp | times | slash | pct | plus | minus | lshift | rshift
  | lessThan | greaterThan | equals | bang | tilde
  | amp | caret | pipe | logicAnd | logicOr
  /-- Any other token. -/
  | other

/-- The tokens with a fixed text, longer ones before their beginnings. -/
def symbols : List (List Char × ArithToken) :=
  [(['&', '>', '>'], .other), (['<', '<', '<'], .other),
   (['*', '*'], .exp), (['<', '<'], .lshift), (['>', '>'], .rshift),
   (['&', '<'], .other), (['&', '>'], .other), ([';', ';'], .doubleSemic),
   (['&', '&'], .logicAnd), (['|', '|'], .logicOr), (['(', '('], .other), (['%', '%'], .other),
   (['!'], .bang), (['}'], .rbrace), ([')'], .rparen), (['('], .lparen), (['['], .lsquare),
   ([']'], .rsquare), (['*'], .times), (['='], .equals), (['-'], .minus), (['+'], .plus),
   (['&'], .amp), (['^'], .caret), (['<'], .lessThan), (['>'], .greaterThan), ([';'], .semic),
   (['|'], .pipe), (['"'], .dquote), ([','], .comma), (['~'], .tilde), (['%'], .pct),
   (['/'], .slash), ([':'], .colon), (['?'], .qmark)]

/-- The symbol that a text starts with. -/
def symbolAt (cs : List Char) : Option (List Char × ArithToken) :=
  symbols.find? fun s => s.1.isPrefixOf cs

/-- The words that are tokens of their own. -/
def keywords : List String :=
  ["case", "do", "done", "elif", "else", "esac", "fi", "for", "if", "in", "select", "then",
   "until", "while", "time", "local", "export", "declare"]

/-- A character of `BLANK`. -/
def isSpace (c : Char) : Bool := c == ' ' || c == '\t'

/-- A character of `NAME` after the first one. -/
def isWordChar (c : Char) : Bool := c.isAlpha || c.isDigit || c == '_'

/-- `EOL`, after its first line end. -/
def lineEnds : List Char → List Char
  | '\n' :: cs => lineEnds cs
  | '\r' :: '\n' :: cs => lineEnds cs
  | cs => cs

/-- The literal that starts with a digit. -/
def literalFrom (c : Char) (h : c.isDigit = true) (cs : List Char) : Literal where
  digits := c :: cs.takeWhile Char.isDigit
  nonempty := List.cons_ne_nil _ _
  areDigits := by
    intro d hd
    rcases List.mem_cons.mp hd with rfl | hd
    · exact h
    · exact List.all_eq_true.mp List.all_takeWhile d hd

/-- The token of a word. -/
def wordToken (text : String) : ArithToken := if keywords.contains text then .other else .name text

/-- The next token and the characters after it. -/
def nextToken (c : Char) (cs : List Char) : ArithToken × List Char :=
  if h : c.isDigit = true then (.num (literalFrom c h cs), cs.dropWhile Char.isDigit)
  else if c.isAlpha || c == '_' then
    (wordToken (String.ofList (c :: cs.takeWhile isWordChar)), cs.dropWhile isWordChar)
  else if isSpace c then (.blank, cs.dropWhile isSpace)
  else if c == '\n' || c == '\r' && cs.head? == some '\n' then (.eol, lineEnds cs)
  else
    match symbolAt (c :: cs) with
    | some (text, t) => (t, cs.drop (text.length - 1))
    | none => (.other, cs)

/-- The tokens of a text, at most so many. -/
def tokensFrom : Nat → List Char → List ArithToken
  | n + 1, c :: cs => (nextToken c cs).1 :: tokensFrom n (nextToken c cs).2
  | _, _ => []

/-- The lexer. -/
def tokens (cs : List Char) : List ArithToken := tokensFrom cs.length cs

/-- The text needs no predicate of the lexer. -/
def isPlain (cs : List Char) : Bool :=
  cs.all fun c => !(c == '$' || c == '\x60' || c == '\\' || c == '\'' || c == '#')

/-! ## What the lexer does with a text -/

theorem length_lineEnds_le (cs : List Char) : (lineEnds cs).length ≤ cs.length := by
  induction cs using lineEnds.induct with
  | case1 cs ih =>
    rw [lineEnds]
    exact Nat.le_succ_of_le ih
  | case2 cs ih =>
    rw [lineEnds]
    exact Nat.le_succ_of_le (Nat.le_succ_of_le ih)
  | case3 cs h1 h2 =>
    unfold lineEnds
    split
    · exact absurd rfl (h1 _)
    · exact absurd rfl (h2 _)
    · exact Nat.le_refl _

theorem length_nextToken_le (c : Char) (cs : List Char) : (nextToken c cs).2.length ≤ cs.length := by
  unfold nextToken
  split_ifs
  · exact (List.dropWhile_suffix _).length_le
  · exact (List.dropWhile_suffix _).length_le
  · exact (List.dropWhile_suffix _).length_le
  · exact length_lineEnds_le cs
  · split
    · rw [List.length_drop]
      exact Nat.sub_le _ _
    · exact Nat.le_refl _

theorem tokensFrom_of_le {n : Nat} {cs : List Char} (h : cs.length ≤ n) :
    tokensFrom n cs = tokens cs := by
  unfold tokens
  induction n using Nat.strong_induction_on generalizing cs with
  | _ n ih =>
    cases cs with
    | nil => cases n <;> rfl
    | cons c cs =>
      obtain ⟨n, rfl⟩ : ∃ m, n = m + 1 := ⟨n - 1, by simp only [List.length_cons] at h; omega⟩
      have hle := length_nextToken_le c cs
      simp only [List.length_cons, Nat.add_le_add_iff_right] at h
      simp only [List.length_cons, tokensFrom]
      rw [ih n (by omega) (by omega)]
      by_cases heq : cs.length = n
      · rw [heq, ih n (by omega) (by omega)]
      · rw [ih cs.length (by omega) hle]

theorem tokens_cons (c : Char) (cs : List Char) :
    tokens (c :: cs) = (nextToken c cs).1 :: tokens (nextToken c cs).2 := by
  show tokensFrom (cs.length + 1) (c :: cs) = _
  rw [tokensFrom, tokensFrom_of_le (length_nextToken_le c cs)]

end Libbash
