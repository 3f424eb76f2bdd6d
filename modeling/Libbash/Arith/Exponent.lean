import Libbash.Arith.Evaluator

/-!
# Exponentiation

`ExpLoop` is the loop of the operator `**` pass by pass. It stops at the count 0
only: from a count that is not negative it makes as many passes as the count
says and multiplies up the power, from a negative one it goes on until the count
leaves the range of `long`. `power` is what the loop computes.
-/

namespace Libbash.Arith

open Lib Lib.Comp

/-! ## The loop -/

/-- The variables of `while(r--) $value *= l`, and the passes made so far. -/
structure ExpLoop where
  value : Int64
  r : Int64
  passes : Nat

/-- At most `fuel` tests of the loop. The count goes down at each test, also at
the one that fails. -/
def expLoop (l : Int64) : Nat → ExpLoop → Option (Except Exn ExpLoop)
  | 0, _ => none
  | fuel + 1, v =>
    if v.r = Int64.minValue then some (.error .undefinedBehaviour)
    else if v.r = 0 then some (.ok { v with r := v.r - 1 })
    else expLoop l fuel { value := v.value * l, r := v.r - 1, passes := v.passes + 1 }

theorem toInt_minValue : Int64.minValue.toInt = -2 ^ 63 := rfl

theorem toInt_sub_one {r : Int64} (h : r ≠ Int64.minValue) : (r - 1).toInt = r.toInt - 1 := by
  have hlow : -2 ^ 63 ≤ r.toInt := r.le_toInt
  have hhigh : r.toInt < 2 ^ 63 := r.toInt_lt
  have hmin : r.toInt ≠ -2 ^ 63 := by
    intro heq
    rw [← toInt_minValue, Int64.toInt_inj] at heq
    exact h heq
  rw [Int64.toInt_sub]
  exact Int.bmod_eq_of_le (by change -(2 ^ 63) ≤ r.toInt - 1; omega)
    (by change r.toInt - 1 < 2 ^ 63; omega)

/-- A count that is not negative is the number of passes. -/
theorem expLoop_nonneg (l : Int64) (n : Nat) (v : ExpLoop) (h : v.r.toInt = n) :
    expLoop l (n + 1) v =
      some (.ok { value := v.value * .ofInt (l.toInt ^ n), r := -1, passes := v.passes + n }) := by
  induction n generalizing v with
  | zero =>
    have hr : v.r = 0 := by
      rw [← Int64.toInt_inj, h]
      rfl
    have hmin : v.r ≠ Int64.minValue := by
      rw [hr]
      decide
    rw [expLoop, if_neg hmin, if_pos hr, hr, Int.pow_zero]
    show some (Except.ok (ExpLoop.mk v.value (0 - 1) v.passes)) =
      some (Except.ok ⟨v.value * 1, -1, v.passes⟩)
    rw [Int64.mul_one]
    rfl
  | succ n ih =>
    have hzero : v.r ≠ 0 := by
      intro hr
      rw [hr] at h
      change (0 : Int) = _ at h
      omega
    have hmin : v.r ≠ Int64.minValue := by
      intro hr
      rw [hr, toInt_minValue] at h
      omega
    have hnext : (v.r - 1).toInt = n := by
      rw [toInt_sub_one hmin, h]
      omega
    rw [expLoop, if_neg hmin, if_neg hzero, ih _ hnext]
    have hpow : v.value * l * Int64.ofInt (l.toInt ^ n) =
        v.value * Int64.ofInt (l.toInt ^ (n + 1)) := by
      rw [Int.pow_succ', Int64.ofInt_mul, Int64.ofInt_toInt, Int64.mul_assoc]
    have hpasses : v.passes + 1 + n = v.passes + (n + 1) := by omega
    simp only [hpow, hpasses]

/-- A negative count makes a pass for every `long` below it, and then overflows. -/
theorem expLoop_negative (l : Int64) (fuel : Nat) (v : ExpLoop) (h : v.r.toInt < 0) :
    expLoop l fuel v =
      if fuel ≤ (v.r.toInt + 2 ^ 63).toNat then none else some (.error .undefinedBehaviour) := by
  have hlow : -2 ^ 63 ≤ v.r.toInt := v.r.le_toInt
  induction fuel generalizing v with
  | zero => rw [expLoop, if_pos (Nat.zero_le _)]
  | succ fuel ih =>
    by_cases hmin : v.r = Int64.minValue
    · have hnat : (v.r.toInt + 2 ^ 63).toNat = 0 := by
        rw [hmin, toInt_minValue]
        rfl
      rw [expLoop, if_pos hmin, hnat, if_neg (by omega)]
    · have hzero : v.r ≠ 0 := by
        intro hr
        rw [hr] at h
        exact absurd h (by decide)
      have hnext : (v.r - 1).toInt = v.r.toInt - 1 := toInt_sub_one hmin
      have hlower : v.r.toInt ≠ -2 ^ 63 := by
        intro heq
        rw [← toInt_minValue, Int64.toInt_inj] at heq
        exact hmin heq
      rw [expLoop, if_neg hmin, if_neg hzero, ih _ (by rw [hnext]; omega) (by rw [hnext]; omega)]
      simp only [hnext]
      have hcount : fuel ≤ (v.r.toInt - 1 + 2 ^ 63).toNat ↔
          fuel + 1 ≤ (v.r.toInt + 2 ^ 63).toNat := by omega
      simp only [hcount]

/-- What the loop ends with. -/
def ExpLoop.outcome : Except Exn ExpLoop → Comp Exn Store Int64
  | .ok v => pure v.value
  | .error e => throw e

/-- `power` is what the loop computes from `$value = 1` on. -/
theorem power_eq_loop (l r : Int64) :
    ∃ fuel out, expLoop l fuel ⟨1, r, 0⟩ = some out ∧ power l r = ExpLoop.outcome out := by
  by_cases h : r < 0
  · have hneg : r.toInt < 0 := Int64.lt_iff_toInt_lt.mp h
    refine ⟨(r.toInt + 2 ^ 63).toNat + 1, .error .undefinedBehaviour, ?_, ?_⟩
    · rw [expLoop_negative l _ ⟨1, r, 0⟩ hneg, if_neg (by simp)]
    · rw [power, if_pos h]
      rfl
  · have hpos : 0 ≤ r.toInt := by
      rw [Int64.lt_iff_toInt_lt] at h
      exact Int.not_lt.mp h
    refine ⟨r.toInt.toNat + 1, _, expLoop_nonneg l r.toInt.toNat ⟨1, r, 0⟩
        (Int.toNat_of_nonneg hpos).symm, ?_⟩
    rw [power, if_neg h, repeat_mul]
    show pure _ = pure (1 * _)
    rw [Int64.one_mul]

/-! ## The node -/

section Node

variable {env : ArithEnv} {toks : NodeStream} {arith : Walk Store Int64} {i : Nat}
variable {rest : NodeStream} {ls rs : List AstNode} {s s₁ s₂ : Store} {l r : Int64}

/-- A binary node whose operands have been evaluated acts on their values. -/
theorem binaryNode_run {ty : TokenType} {f : Int64 → Int64 → Comp Exn Store Int64} (hls : ls ≠ [])
    (h : OnTree toks i ((astNode ty (ls ++ rs)).stream ++ rest))
    (hl : arith ⟨i + 2, s⟩ = some (.ok l, ⟨i + 2 + (forestStream ls).length, s₁⟩))
    (hr : arith ⟨i + 2 + (forestStream ls).length, s₁⟩ =
      some (.ok r, ⟨i + 2 + (forestStream (ls ++ rs)).length, s₂⟩)) :
    binaryNode toks arith ty f ⟨i, s⟩ =
      action (f l r) ⟨i + (astNode ty (ls ++ rs)).stream.length, s₂⟩ := by
  have hcs : ls ++ rs ≠ [] := List.append_ne_nil_of_left_ne_nil hls rs
  have hkids := h.children hcs
  have hup : OnTree toks (i + 2 + (forestStream (ls ++ rs)).length) (.up :: rest) := hkids.advance
  rw [stream_node hcs] at h
  unfold binaryNode
  rw [bind_of_ok (matchToken_step s h), bind_of_ok (matchDown_step s h.tail), bind_of_ok hl,
    bind_of_ok hr, bind_of_ok (matchUp_step s₂ hup), length_stream_node hcs]
  congr 2
  omega

/-- The operator `**`, on operands that have been evaluated. -/
theorem exponent_run {d : Nat} (hls : ls ≠ [])
    (h : OnTree toks i ((astNode .exp (ls ++ rs)).stream ++ rest))
    (hl : arithmetics env d toks ⟨i + 2, s⟩ =
      some (.ok l, ⟨i + 2 + (forestStream ls).length, s₁⟩))
    (hr : arithmetics env d toks ⟨i + 2 + (forestStream ls).length, s₁⟩ =
      some (.ok r, ⟨i + 2 + (forestStream (ls ++ rs)).length, s₂⟩)) :
    arithmetics env (d + 1) toks ⟨i, s⟩ =
      action (power l r) ⟨i + (astNode .exp (ls ++ rs)).stream.length, s₂⟩ := by
  rw [arithmetics_eq_alternative s h (by simp [NodeTree.label])]
  exact binaryNode_run hls h hl hr

end Node

/-! ## Exactness -/

/-- For a count that is not negative the power modulo `2 ^ 64`, after as many
passes of the loop; for a negative one an error of the interpreter. -/
def ExactPower (l r : Int64) (after : Cursor Store)
    (out : Option (Except Exn Int64 × Cursor Store)) : Prop :=
  if 0 ≤ r.toInt then
    out = some (.ok (.ofInt (l.toInt ^ r.toInt.toNat)), after) ∧
      ∃ fuel v, expLoop l fuel ⟨1, r, 0⟩ = some (.ok v) ∧ v.passes = r.toInt
  else ∃ kind what c, out = some (.error (.error kind what), c)

/-- The operator `**` is exact for the exponents that are not negative, and for
no others. -/
theorem exponent_exact_iff (env : ArithEnv) (toks : NodeStream) (d i : Nat) (rest : NodeStream)
    (ls rs : List AstNode) (s s₁ s₂ : Store) (l r : Int64) (hls : ls ≠ [])
    (h : OnTree toks i ((astNode .exp (ls ++ rs)).stream ++ rest))
    (hl : arithmetics env d toks ⟨i + 2, s⟩ =
      some (.ok l, ⟨i + 2 + (forestStream ls).length, s₁⟩))
    (hr : arithmetics env d toks ⟨i + 2 + (forestStream ls).length, s₁⟩ =
      some (.ok r, ⟨i + 2 + (forestStream (ls ++ rs)).length, s₂⟩)) :
    ExactPower l r ⟨i + (astNode .exp (ls ++ rs)).stream.length, s₂⟩
      (arithmetics env (d + 1) toks ⟨i, s⟩) ↔ 0 ≤ r.toInt := by
  rw [exponent_run hls h hl hr]
  constructor
  · intro hexact
    by_contra hneg
    unfold ExactPower at hexact
    rw [if_neg hneg] at hexact
    obtain ⟨kind, what, c, hout⟩ := hexact
    have hr0 : r < 0 := Int64.lt_iff_toInt_lt.mpr (Int.not_le.mp hneg)
    rw [power, if_pos hr0] at hout
    cases hout
  · intro hpos
    have hr0 : ¬r < 0 := by
      rw [Int64.lt_iff_toInt_lt]
      exact Int.not_lt.mpr hpos
    unfold ExactPower
    rw [if_pos hpos, power, if_neg hr0, repeat_mul]
    refine ⟨rfl, _, _, expLoop_nonneg l r.toInt.toNat ⟨1, r, 0⟩
        (Int.toNat_of_nonneg hpos).symm, ?_⟩
    show ((0 + r.toInt.toNat : Nat) : Int) = r.toInt
    omega

/-- The tree of `2 ** -1`. -/
def negativePower : AstNode :=
  astNode .exp [(Literal.ofNat 2).node, astNode .minusSign [(Literal.ofNat 1).node]]

/-- `2 ** -1` raises no error of the interpreter. -/
theorem negativePower_not_exact :
    ¬ExactPower 2 (-1) ⟨negativePower.stream.length, fiveStore⟩
      (arithmetics numeralEnv 3 negativePower.stream ⟨0, fiveStore⟩) := by
  have hrun : arithmetics numeralEnv 3 negativePower.stream ⟨0, fiveStore⟩ =
      some (.error .undefinedBehaviour, ⟨negativePower.stream.length, fiveStore⟩) := rfl
  rw [hrun]
  rintro ⟨kind, what, c, hout⟩
  cases hout

/-- The tree of `-3 ** 3`, which the parser takes for the power of `-3`. -/
def cube : AstNode :=
  astNode .exp [astNode .minusSign [(Literal.ofNat 3).node], (Literal.ofNat 3).node]

theorem exponent_exact_iff_cube :
    ExactPower (-3) 3 ⟨cube.stream.length, fiveStore⟩
      (arithmetics numeralEnv 3 cube.stream ⟨0, fiveStore⟩) :=
  (exponent_exact_iff numeralEnv cube.stream 2 0 [] [astNode .minusSign [(Literal.ofNat 3).node]]
    [(Literal.ofNat 3).node] fiveStore fiveStore fiveStore (-3) 3 (List.cons_ne_nil _ _)
    (onTree_self cube) rfl rfl).mpr (by decide)

end Libbash.Arith
