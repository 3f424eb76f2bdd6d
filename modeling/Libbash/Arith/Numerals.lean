import Libbash.Core.Symbols

/-!
# Numerals

The texts that stand for integers: the `DIGIT` and `NUMBER` tokens of a script,
and the decimal text that a variable holds.

* **`Literal`** — a token's text, with the number it denotes in base 10 and the
  number that bash reads, which takes a leading zero for base 8;
* **`numeral?`** — the integer of magnitude below `2 ^ 31` whose canonical
  decimal text is given;
* **`lexicalCastLong`** — `boost::lexical_cast<long>`.

`ReadsDecimals` and `ParsesNumerals` say what ANTLR's `toInt32` and the parser
rule `arithmetics` of `bashast.g` do with such texts.
-/

namespace Libbash

open Lib

/-! ## Literals -/

/-- The text of a `DIGIT` or `NUMBER` token. -/
structure Literal where
  digits : List Char
  nonempty : digits ≠ []
  areDigits : ∀ c ∈ digits, c.isDigit = true

namespace Literal

variable (l : Literal)

def text : String := String.ofList l.digits

/-- A single digit is a `DIGIT`. -/
def type : TokenType := if l.digits.length = 1 then .digit else .number

def token : Token := ⟨l.type, l.text⟩

def node : AstNode := .node l.token []

/-- The number it denotes in base 10. -/
def decimal : Nat := Nat.ofDigitChars 10 l.digits 0

/-- The number that bash reads. It reports an error for a digit that is too
large for the base; a number that does not fit into 64 bits has no value. -/
def bashValue : Option Int64 :=
  match l.digits with
  | '0' :: ds =>
    if (ds.all fun c => c.toNat < '8'.toNat) ∧ Nat.ofDigitChars 8 ds 0 < 2 ^ 63 then
      some (Int64.ofNat (Nat.ofDigitChars 8 ds 0))
    else none
  | _ => if l.decimal < 2 ^ 63 then some (Int64.ofNat l.decimal) else none

/-- The literal without leading zeros for a number. -/
def ofNat (n : Nat) : Literal where
  digits := Nat.toDigits 10 n
  nonempty := Nat.toDigits_ne_nil
  areDigits _ h := Nat.isDigit_of_mem_toDigits (by decide) (by decide) h

@[simp] theorem decimal_ofNat (n : Nat) : (ofNat n).decimal = n := Nat.ofDigitChars_ten_toDigits

theorem token_type : l.token.type = .digit ∨ l.token.type = .number := by
  show l.type = .digit ∨ l.type = .number
  unfold type
  by_cases h : l.digits.length = 1
  · exact .inl (if_pos h)
  · exact .inr (if_neg h)

end Literal

/-- `toInt32` of an ANTLR string reads every decimal number below `2 ^ 31`. -/
def ReadsDecimals (toInt32 : String → Int32) : Prop :=
  ∀ l : Literal, l.decimal < 2 ^ 31 → (toInt32 l.text).toInt = l.decimal

/-! ## Canonical decimal texts -/

theorem toList_toString_natCast (n : Nat) : (toString (n : Int)).toList = Nat.toDigits 10 n := by
  show (Nat.repr n).toList = _
  simp [Nat.repr]

theorem toList_toString_negSucc (n : Nat) :
    (toString (Int.negSucc n)).toList = '-' :: Nat.toDigits 10 (n + 1) := by
  show ("-" ++ Nat.repr (n + 1)).toList = _
  simp [Nat.repr]

/-- No sign is the first digit of a number. -/
theorem toDigits_eq_cons {n : Nat} {c : Char} {ds : List Char} (h : Nat.toDigits 10 n = c :: ds) :
    c.isDigit = true :=
  Nat.isDigit_of_mem_toDigits (b := 10) (n := n) (by decide) (by decide) (by rw [h]; simp)

/-- The integer that an optional minus sign and digits stand for. -/
def signedDecimal : List Char → Int
  | '-' :: ds => -(Nat.ofDigitChars 10 ds 0 : Int)
  | ds => Nat.ofDigitChars 10 ds 0

theorem signedDecimal_toString (n : Int) : signedDecimal (toString n).toList = n := by
  cases n with
  | ofNat n =>
    show signedDecimal (toString (n : Int)).toList = n
    rw [toList_toString_natCast]
    unfold signedDecimal
    split
    · next ds h => exact absurd (toDigits_eq_cons h) (by decide)
    · rw [Nat.ofDigitChars_ten_toDigits]
  | negSucc n =>
    rw [toList_toString_negSucc]
    simp only [signedDecimal, Nat.ofDigitChars_ten_toDigits]
    omega

/-- The integer of magnitude below `2 ^ 31` with the given canonical decimal
text. -/
def numeral? (text : String) : Option Int :=
  let n := signedDecimal text.toList
  if toString n = text ∧ n.natAbs < 2 ^ 31 then some n else none

theorem numeral?_eq_some {text : String} {n : Int} (h : numeral? text = some n) :
    text = toString n ∧ n.natAbs < 2 ^ 31 := by
  unfold numeral? at h
  dsimp only at h
  split at h
  · next hn =>
    cases h
    exact ⟨hn.1.symm, hn.2⟩
  · cases h

theorem numeral?_toString {n : Int} (h : n.natAbs < 2 ^ 31) : numeral? (toString n) = some n := by
  unfold numeral?
  rw [signedDecimal_toString]
  exact if_pos ⟨rfl, h⟩

theorem toString_ne_empty (n : Int) : toString n ≠ "" := by
  intro h
  have hlist : (toString n).toList = [] := by rw [h]; rfl
  cases n with
  | ofNat n => exact Nat.toDigits_ne_nil ((toList_toString_natCast n).symm.trans hlist)
  | negSucc n =>
    rw [toList_toString_negSucc] at hlist
    cases hlist

/-- The tree of `-?` digits. -/
def numeralNode (n : Int) : AstNode :=
  if n < 0 then astNode .minusSign [(Literal.ofNat n.natAbs).node]
  else (Literal.ofNat n.natAbs).node

/-- The parser rule `arithmetics` on the text of a variable: a number is one
part, an unsigned literal below `MINUS_SIGN` when it is negative. -/
def ParsesNumerals (parse : String → Except Exn (List AstNode)) : Prop :=
  ∀ n : Int, n.natAbs < 2 ^ 31 →
    parse (toString n) = .ok [astNode .arithmetic [numeralNode n]]

/-! ## The conversion of variables to numbers -/

/-- The digits of a number whose magnitude is at most `limit`. -/
def magnitude (limit : Nat) (ds : List Char) : Option Nat :=
  if ds ≠ [] ∧ ds.all Char.isDigit ∧ Nat.ofDigitChars 10 ds 0 ≤ limit then
    some (Nat.ofDigitChars 10 ds 0)
  else none

/-- `boost::lexical_cast<long>`; `none` is `bad_lexical_cast`. -/
def lexicalCastLong (text : String) : Option Int64 :=
  match text.toList with
  | '-' :: ds => (magnitude (2 ^ 63) ds).map fun n => Int64.ofInt (-n)
  | '+' :: ds => (magnitude (2 ^ 63 - 1) ds).map Int64.ofNat
  | ds => (magnitude (2 ^ 63 - 1) ds).map Int64.ofNat

theorem magnitude_toDigits {limit n : Nat} (h : n ≤ limit) :
    magnitude limit (Nat.toDigits 10 n) = some n := by
  unfold magnitude
  rw [Nat.ofDigitChars_ten_toDigits]
  refine if_pos ⟨Nat.toDigits_ne_nil, ?_, h⟩
  rw [List.all_eq_true]
  exact fun c hc => Nat.isDigit_of_mem_toDigits (by decide) (by decide) hc

/-- Every `long` is read back from its text. -/
theorem lexicalCastLong_inRange {n : Int} (hlo : -2 ^ 63 ≤ n) (hhi : n < 2 ^ 63) :
    lexicalCastLong (toString n) = some (Int64.ofInt n) := by
  unfold lexicalCastLong
  cases n with
  | ofNat n =>
    have hn : n ≤ 2 ^ 63 - 1 := by simp only [Int.ofNat_eq_natCast] at hhi; omega
    show (match (toString (n : Int)).toList with
      | '-' :: ds => (magnitude (2 ^ 63) ds).map fun n => Int64.ofInt (-n)
      | '+' :: ds => (magnitude (2 ^ 63 - 1) ds).map Int64.ofNat
      | ds => (magnitude (2 ^ 63 - 1) ds).map Int64.ofNat) = some (Int64.ofInt n)
    rw [toList_toString_natCast]
    split
    · next h => exact absurd (toDigits_eq_cons h) (by decide)
    · next h => exact absurd (toDigits_eq_cons h) (by decide)
    · rw [magnitude_toDigits hn]
      rfl
  | negSucc n =>
    have hn : n + 1 ≤ 2 ^ 63 := by omega
    rw [toList_toString_negSucc]
    simp only [magnitude_toDigits hn]
    rfl

theorem lexicalCastLong_toString {n : Int} (h : n.natAbs < 2 ^ 31) :
    lexicalCastLong (toString n) = some (Int64.ofInt n) :=
  lexicalCastLong_inRange (by omega) (by omega)

/-- `converter<long>`: a text that is no number counts as 0. -/
def Value.toLong : Value → Int64
  | .str s => (lexicalCastLong s).getD 0
  | .num n => n

/-- `get_value<long>`. -/
def Variable.getValueLong (v : Variable) (index : UInt32) : Int64 :=
  match v.value[index]? with
  | none => 0
  | some value => value.toLong

end Libbash
