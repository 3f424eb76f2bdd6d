import Libbash.Parser.Grouping

/-!
# The texts of numbers, parsed again

The text of a variable is parsed when the variable is read, and with `++` or `--`
put before or after it when the variable is counted up or down and its text does
not start with a digit. `parseArithmetics_toString` is what a number gives;
a sign in front of a negative number is no operand of `++` (`parse_counted`), and
behind it `++` belongs to the literal (`parse_counting`).
-/

namespace Libbash

open Lib ArithParser

variable (elsewhere : String → Except Exn (List AstNode))

/-! ## Signs -/

/-- The two signs, which are tokens of their own wherever they stand. -/
inductive Sign where
  | plus | minus
  deriving DecidableEq

namespace Sign

def char : Sign → Char
  | plus => '+'
  | minus => '-'

def token : Sign → ArithToken
  | plus => .plus
  | minus => .minus

/-- The types of the nodes for the doubled sign. -/
def preType : Sign → TokenType
  | plus => .preIncr
  | minus => .preDecr

def postType : Sign → TokenType
  | plus => .postIncr
  | minus => .postDecr

end Sign

theorem tokens_sign (g : Sign) (cs : List Char) : tokens (g.char :: cs) = g.token :: tokens cs := by
  rw [tokens_cons]
  cases g <;> rfl

/-! ## Parsing -/

theorem arithmetics_literal (d : Nat) (l : Literal) :
    ArithParser.arithmetics (d + 1) [.num l] = some ([astNode .arithmetic [l.node]], []) :=
  arithmetics_infix d (t := .leaf l) trivial

/-- `-` before a literal. -/
theorem arithmetics_minus (d : Nat) (l : Literal) :
    ArithParser.arithmetics (d + 1) [.minus, .num l] =
      some ([astNode .arithmetic [astNode .minusSign [l.node]]], []) := rfl

/-- A doubled sign before a `-`. -/
theorem arithmetics_counted (d : Nat) (g : Sign) (l : Literal) :
    ArithParser.arithmetics (d + 1) [g.token, g.token, .minus, .num l] = none := by
  cases g <;> rfl

/-- A doubled sign after a negative literal. -/
theorem arithmetics_counting (d : Nat) (g : Sign) (l : Literal) :
    ArithParser.arithmetics (d + 1) [.minus, .num l, g.token, g.token] =
      some ([astNode .arithmetic [astNode .minusSign [astNode g.postType [l.node]]]], []) := by
  cases g <;> rfl

/-- A character of a number with signs. -/
def Numeric (c : Char) : Bool := c.isDigit || c == '+' || c == '-'

theorem numeric_sign (g : Sign) : Numeric g.char = true := by cases g <;> rfl

theorem numeric_digit {n : Nat} {c : Char} (h : c ∈ Nat.toDigits 10 n) : Numeric c = true := by
  simp [Numeric, Nat.isDigit_of_mem_toDigits (by decide) (by decide) h]

theorem not_blank_of_numeric {c : Char} (h : Numeric c = true) : isBlank c = false := by
  rw [Bool.eq_false_iff]
  intro hblank
  simp only [isBlank, Bool.or_eq_true, beq_iff_eq] at hblank
  rcases hblank with (rfl | rfl) | rfl <;> cases h

/-- Such a text is parsed as it stands. -/
theorem parseArithmetics_numeric {cs : List Char} (h : ∀ c ∈ cs, Numeric c = true) :
    parseArithmetics elsewhere (String.ofList cs) =
      parsed (ArithParser.arithmetics (cs.length + 1) (tokens cs)) := by
  refine parseArithmetics_of_plain elsewhere (List.all_eq_true.mpr fun c hc => ?_)
    (fun c hc => not_blank_of_numeric (h c (List.mem_of_mem_head? hc)))
    fun c hc => not_blank_of_numeric (h c (List.mem_of_getLast? hc))
  have hnumeric := h c hc
  by_contra hspecial
  simp only [Bool.not_eq_true', Bool.not_eq_false, Bool.or_eq_true, beq_iff_eq] at hspecial
  rcases hspecial with (((rfl | rfl) | rfl) | rfl) | rfl <;> cases hnumeric

theorem tokens_digits (n : Nat) {cs : List Char} (hcs : Stops Char.isDigit cs) :
    tokens (Nat.toDigits 10 n ++ cs) = .num (.ofNat n) :: tokens cs :=
  tokens_literal (.ofNat n) hcs

/-- A negative number with signs around it. -/
theorem tokens_negative (n : Nat) {cs : List Char} (hcs : Stops Char.isDigit cs) :
    tokens ((toString (Int.negSucc n)).toList ++ cs) = .minus :: .num (.ofNat (n + 1)) :: tokens cs := by
  rw [toList_toString_negSucc, List.cons_append, ← tokens_digits (n + 1) hcs]
  exact tokens_sign .minus _

theorem numeric_toString (n : Int) : ∀ c ∈ (toString n).toList, Numeric c = true := by
  intro c hc
  cases n with
  | ofNat n =>
    rw [Int.ofNat_eq_natCast, toList_toString_natCast] at hc
    exact numeric_digit hc
  | negSucc n =>
    rw [toList_toString_negSucc] at hc
    rcases List.mem_cons.mp hc with rfl | hc
    · rfl
    · exact numeric_digit hc

/-- The text of a number is parsed back to it, whatever its size. -/
theorem parseArithmetics_toString (n : Int) :
    parseArithmetics elsewhere (toString n) = .ok [astNode .arithmetic [numeralNode n]] := by
  have hparse := parseArithmetics_numeric elsewhere (numeric_toString n)
  rw [String.ofList_toList] at hparse
  rw [hparse]
  have hnil : Stops Char.isDigit [] := fun c hc => by cases hc
  cases n with
  | ofNat n =>
    have htokens := tokens_digits n hnil
    rw [List.append_nil] at htokens
    rw [Int.ofNat_eq_natCast, toList_toString_natCast, htokens]
    show parsed (ArithParser.arithmetics _ [_]) = _
    rw [arithmetics_literal]
    rfl
  | negSucc n =>
    have htokens := tokens_negative n hnil
    rw [List.append_nil] at htokens
    rw [htokens, show tokens [] = [] from rfl, arithmetics_minus, numeralNode,
      if_pos (Int.negSucc_lt_zero n)]
    rfl

theorem parsesNumerals_parseArithmetics : ParsesNumerals (parseArithmetics elsewhere) :=
  fun n _ => parseArithmetics_toString elsewhere n

/-! ## Numbers that are counted up or down -/

/-- A doubled sign in front of a negative number is no expression. -/
theorem parse_counted (g : Sign) (n : Nat) :
    parseArithmetics elsewhere (String.ofList [g.char, g.char] ++ toString (Int.negSucc n)) =
      .error (.error .parse "Something wrong happened while parsing") := by
  have hnumeric : ∀ c ∈ g.char :: g.char :: (toString (Int.negSucc n)).toList,
      Numeric c = true := by
    simpa [numeric_sign] using numeric_toString (Int.negSucc n)
  have hnil : Stops Char.isDigit [] := fun c hc => by cases hc
  have htokens := tokens_negative n hnil
  rw [List.append_nil] at htokens
  have htext : String.ofList [g.char, g.char] ++ toString (Int.negSucc n) =
      String.ofList (g.char :: g.char :: (toString (Int.negSucc n)).toList) := by
    apply String.toList_injective
    simp
  rw [htext, parseArithmetics_numeric elsewhere hnumeric, tokens_sign, tokens_sign, htokens,
    show tokens [] = [] from rfl, arithmetics_counted]
  rfl

/-- Behind a negative number it makes an expression that counts the literal. -/
theorem parse_counting (g : Sign) (n : Nat) :
    parseArithmetics elsewhere (toString (Int.negSucc n) ++ String.ofList [g.char, g.char]) =
      .ok [astNode .arithmetic
        [astNode .minusSign [astNode g.postType [(Literal.ofNat (n + 1)).node]]]] := by
  have hnumeric : ∀ c ∈ (toString (Int.negSucc n)).toList ++ [g.char, g.char],
      Numeric c = true := by
    intro c hc
    rcases List.mem_append.mp hc with hc | hc
    · exact numeric_toString _ c hc
    · simp only [List.mem_cons, List.not_mem_nil, or_false, or_self] at hc
      exact hc ▸ numeric_sign g
  have hstops : Stops Char.isDigit [g.char, g.char] := by
    intro c hc
    cases hc
    cases g <;> rfl
  have htokens := tokens_negative n hstops
  rw [tokens_sign, tokens_sign] at htokens
  have htext : toString (Int.negSucc n) ++ String.ofList [g.char, g.char] =
      String.ofList ((toString (Int.negSucc n)).toList ++ [g.char, g.char]) := by
    apply String.toList_injective
    simp
  rw [htext, parseArithmetics_numeric elsewhere hnumeric, htokens, show tokens [] = [] from rfl,
    arithmetics_counting]
  rfl

end Libbash
