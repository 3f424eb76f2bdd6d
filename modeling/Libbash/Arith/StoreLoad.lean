import Libbash.Arith.Counting

/-!
# Numbers that are stored and read again

A number is stored as a `long`, and read in three ways: `resolve<long>` takes it
as it is, `boost::lexical_cast<long>` reads the text of an expansion, and an
operand is parsed and walked again, where `parse_integer` reads its digits with
ANTLR's `toInt32`. The first two are exact for every `long`; `storeLoad_iff` says
when the last one is.
-/

namespace Libbash.Arith

open Lib Lib.Comp

/-! ## What `parse_integer` delivers -/

section ParseInteger

variable {env : ArithEnv} {v : Int64}

theorem toInt_parseInteger (env : ArithEnv) (t : Token) :
    -2 ^ 31 ≤ (parseInteger env t).toInt ∧ (parseInteger env t).toInt < 2 ^ 31 := by
  show -2 ^ 31 ≤ (env.toInt32 t.text).toInt64.toInt ∧ (env.toInt32 t.text).toInt64.toInt < 2 ^ 31
  rw [Int32.toInt_toInt64]
  exact ⟨Int32.le_toInt _, Int32.toInt_lt _⟩

/-- The number that a text of digits evaluates to fits into 32 bits. -/
theorem numeralValue_bound (h : numeralValue env v.toInt = v) : v.toInt.natAbs < 2 ^ 31 := by
  unfold numeralValue at h
  have hread := toInt_parseInteger env (Literal.ofNat v.toInt.natAbs).token
  generalize parseInteger env (Literal.ofNat v.toInt.natAbs).token = n at h hread
  split at h
  · next hneg =>
    have hv : v.toInt = -n.toInt := by
      rw [← h, Int64.toInt_neg]
      exact Int.bmod_eq_of_le (by omega) (by omega)
    omega
  · rw [h] at hread
    omega

end ParseInteger

/-! ## The three ways to read -/

section Read

variable {env : ArithEnv} {d : Nat} {x : String} {ix : UInt32} {v : Int64} {p : AstNode}
variable {u₀ u : Store}

/-- Every later use of `x[ix]`, which the operand `p` stands for, has the value
`v`. -/
structure ReadsBack (env : ArithEnv) (d : Nat) (p : AstNode) (x : String) (ix : UInt32)
    (v : Int64) (u₀ u : Store) : Prop where
  /-- as an operand -/
  operand : ∀ toks i rest, OnTree toks i (p.stream ++ rest) →
    arithmetics env (d + 1) toks ⟨i, u₀⟩ = some (.ok v, ⟨i + p.stream.length, u⟩)
  /-- as what a compound assignment or a count starts from -/
  target : resolveLong env x ix u = some (.ok v, u)
  /-- as an expansion -/
  expansion : ∃ text, resolveString env x ix u = some (.ok text, u) ∧ lexicalCastLong text = some v

/-- A literal with the digits of the number has its value. -/
def ReadsLiteral (env : ArithEnv) (d : Nat) (v : Int64) : Prop :=
  ∀ l : Literal, (l.decimal : Int) = v.toInt → ∀ toks i rest u,
    OnTree toks i (l.node.stream ++ rest) →
      arithmetics env (d + 1) toks ⟨i, u⟩ = some (.ok v, ⟨i + l.node.stream.length, u⟩)

theorem toStr_num (v : Int64) : (Value.num v).toStr = toString v.toInt := rfl

/-- An operand that holds a number has the value that its digits evaluate to. -/
theorem operand_number (hparse : env.parse (toString v.toInt) =
      .ok [astNode .arithmetic [numeralNode v.toInt]])
    (helement : elementAt u x ix = some (.num v)) (hp : Operand env (d + 3) p x ix u₀ u)
    {toks : NodeStream} {i : Nat} {rest : NodeStream} (h : OnTree toks i (p.stream ++ rest)) :
    arithmetics env (d + 4) toks ⟨i, u₀⟩ =
      some (.ok (numeralValue env v.toInt), ⟨i + p.stream.length, u⟩) := by
  have hne : ¬ (toString v.toInt).isEmpty = true := by
    rw [String.isEmpty_iff]
    exact toString_ne_empty _
  have hvalue : primaryValue env (evalArithmetic env (d + 3)) x ix u =
      some (.ok (numeralValue env v.toInt), u) := by
    unfold primaryValue
    rw [bind_of_ok (resolveString_element helement), toStr_num, if_neg hne,
      evalArithmetic_numeral hparse]
    rfl
  rw [operand_run hp h, action, hvalue]

theorem target_number (helement : elementAt u x ix = some (.num v)) :
    resolveLong env x ix u = some (.ok v, u) :=
  resolveLong_element helement

theorem expansion_number (helement : elementAt u x ix = some (.num v)) :
    ∃ text, resolveString env x ix u = some (.ok text, u) ∧ lexicalCastLong text = some v := by
  refine ⟨_, resolveString_element helement, ?_⟩
  rw [toStr_num, lexicalCastLong_inRange (Int64.le_toInt v) (Int64.toInt_lt v), Int64.ofInt_toInt]

/-- An operand that reads a number back holds one that fits into 32 bits. -/
theorem bound_of_operand {elsewhere : String → Except Exn (List AstNode)}
    (hparse : env.parse = parseArithmetics elsewhere)
    (helement : elementAt u x ix = some (.num v)) (hp : Operand env (d + 3) p x ix u₀ u)
    (h : arithmetics env (d + 4) p.stream ⟨0, u₀⟩ = some (.ok v, ⟨0 + p.stream.length, u⟩)) :
    v.toInt.natAbs < 2 ^ 31 := by
  have htext : env.parse (toString v.toInt) = .ok [astNode .arithmetic [numeralNode v.toInt]] := by
    rw [hparse, parseArithmetics_toString]
  rw [operand_number htext helement hp (onTree_self p)] at h
  simp only [Option.some.injEq, Prod.mk.injEq, Except.ok.injEq, and_true] at h
  exact numeralValue_bound h

theorem readsLiteral_of_bound (hint : ReadsDecimals env.toInt32) (hv : v.toInt.natAbs < 2 ^ 31) :
    ReadsLiteral env d v := by
  intro l hl toks i rest u h
  have hvalue : parseInteger env l.token = v := by
    rw [parseInteger_eq hint (by omega), ← Int64.ofInt_eq_ofNat, hl, Int64.ofInt_toInt]
  rw [← hvalue]
  exact (literal_arithmetics l h).finishes rfl

end Read

/-- A number that has been stored is what every later use of the element and
every literal for it have as their value, if and only if it fits into 32 bits
with its sign changed. -/
theorem storeLoad_iff {elsewhere : String → Except Exn (List AstNode)} {env : ArithEnv}
    (hparse : env.parse = parseArithmetics elsewhere) (hint : ReadsDecimals env.toInt32) {d : Nat}
    {x : String} {ix : UInt32} {v w : Int64} {p : AstNode} {s t u₀ u : Store}
    (hx : x.isEmpty = false) (hstore : setNumber x v ix s = some (.ok w, t))
    (hlater : elementAt u x ix = elementAt t x ix) (hp : Operand env (d + 3) p x ix u₀ u) :
    (ReadsBack env (d + 3) p x ix v u₀ u ∧ ReadsLiteral env (d + 3) v) ↔
      v.toInt.natAbs < 2 ^ 31 := by
  have helement : elementAt u x ix = some (.num v) := by
    rw [hlater]
    exact (setNumber_element hx hstore).2
  constructor
  · rintro ⟨hread, -⟩
    exact bound_of_operand hparse helement hp (hread.operand _ 0 [] (onTree_self p))
  · intro hv
    refine ⟨⟨fun toks i rest h => ?_, target_number helement, expansion_number helement⟩,
      readsLiteral_of_bound hint hv⟩
    have htext : env.parse (toString v.toInt) =
        .ok [astNode .arithmetic [numeralNode v.toInt]] := by
      rw [hparse, parseArithmetics_toString]
    rw [operand_number htext helement hp h, numeralValue_eq hint hv, Int64.ofInt_toInt]

theorem fiveStore_resolve :
    fiveStore.resolveVariable "x" = some (.new "x" (.scalar (.str "5") 0) false) := rfl

/-- `x` is 5, and 7 is stored in it. -/
theorem storeLoad_iff_seven :
    ∃ t, setNumber "x" 7 0 fiveStore = some (.ok 7, t) ∧
      ((ReadsBack scriptEnv 3 (varNode "x") "x" 0 7 t t ∧ ReadsLiteral scriptEnv 3 7) ↔
        (7 : Int64).toInt.natAbs < 2 ^ 31) := by
  obtain ⟨t, hstore, -⟩ := setNumber_run fiveStore_resolve rfl 7 0
  exact ⟨t, hstore, storeLoad_iff (d := 0) parse_scriptEnv readsDecimals_scriptEnv rfl hstore rfl
    (operand_varNode scriptEnv 3 "x" t)⟩

/-- `2 ^ 31` does not come back. -/
theorem storedTwoPow_not_readBack :
    ∃ t, setNumber "x" 2147483648 0 fiveStore = some (.ok 2147483648, t) ∧
      ¬ ReadsBack scriptEnv 3 (varNode "x") "x" 0 2147483648 t t := by
  obtain ⟨t, hstore, -⟩ := setNumber_run fiveStore_resolve rfl 2147483648 0
  refine ⟨t, hstore, fun hread => ?_⟩
  have hbound := bound_of_operand (d := 0) parse_scriptEnv (setNumber_element rfl hstore).2
    (operand_varNode scriptEnv 3 "x" t) (hread.operand _ 0 [] (onTree_self _))
  exact absurd hbound (by decide)

end Libbash.Arith
