import Libbash.Arith.Congruence
import Libbash.Arith.Counting

/-!
# Compound assignment

`x op= e` evaluates `e` and then takes the `long` that the text of `x` casts to;
`x = x op e` evaluates the text of `x` as an expression and then `e`. They agree
when the two readings do: `compound_iff`.
-/

namespace Libbash.Arith

open Lib Lib.Comp

/-! ## The two forms -/

/-- A tree, walked on its own. -/
def evaluate (env : ArithEnv) (d : Nat) (t : AstNode) : Comp Exn Store Int64 :=
  walkStream (arithmetics env d t.stream)

/-- `x op= e`. -/
def compoundNode (op : AssignOp) (q e : AstNode) : AstNode := astNode op.type [q, e]

/-- `x = x op e`. -/
def expandedNode (op : AssignOp) (q p e : AstNode) : AstNode :=
  astNode .equals [q, astNode op.binary.type [p, e]]

section Forms

variable {env : ArithEnv} {d j : Nat} {x : String} {ix : UInt32} {s : Store} {q p e : AstNode}
variable {m : Nat → Comp Exn Store Int64}

theorem evaluate_extends {d' : Nat} (h : d ≤ d') (t : AstNode) :
    Extends _ _ (evaluate env d t) (evaluate env d' t) :=
  related_walkStream congruence_extends (arithmetics_extends h _)

theorem evaluate_of_lands {t : AstNode} {res : Option (Except Exn Int64 × Store)}
    (h : Lands j (arithmetics env d t.stream ⟨0, s⟩) res) : evaluate env d t s = res := by
  rw [← h.1]
  unfold evaluate walkStream
  cases arithmetics env d t.stream ⟨0, s⟩ <;> rfl

theorem evaluate_compound (op : AssignOp) (hq : Target env (d + 1) q x ix s s)
    (he : ActsAs env e m) :
    evaluate env (d + 2) (compoundNode op q e) s =
      (m (d + 1) >>= updateVariable env op.binary.act x ix) s := by
  have htype : (compoundNode op q e).label.type ≠ .arithmetic := by
    cases op <;> simp [compoundNode, NodeTree.label, AssignOp.type]
  have h := onTree_self (compoundNode op q e)
  refine evaluate_of_lands (j := 0 + (compoundNode op q e).stream.length) ?_
  rw [arithmetics_eq_alternative s h htype,
    show (compoundNode op q e).label.type = op.type from rfl, alternative_assign]
  exact assignment_lands (updateVariable env op.binary.act) hq h
    fun j hj => he (d + 1) _ j _ hj s

theorem evaluate_expanded (op : AssignOp) (hq : Target env (d + 2) q x ix s s)
    (hp : Operand env d p x ix s s) (he : ActsAs env e m) :
    evaluate env (d + 3) (expandedNode op q p e) s =
      (primaryValue env (evalArithmetic env d) x ix >>= fun old =>
        m (d + 1) >>= fun l => op.binary.act old l >>= fun v => setNumber x v ix) s := by
  simp only [← bind_assoc]
  have h := onTree_self (expandedNode op q p e)
  refine evaluate_of_lands (j := 0 + (expandedNode op q p e).stream.length) ?_
  rw [arithmetics_eq_alternative s h (by simp [expandedNode, NodeTree.label])]
  have hright (j : Nat) (hj : OnTree (expandedNode op q p e).stream j
      ((astNode op.binary.type [p, e]).stream ++ .up :: [])) :
      Lands (j + (astNode op.binary.type [p, e]).stream.length)
        (arithmetics env (d + 2) (expandedNode op q p e).stream ⟨j, s⟩)
        ((primaryValue env (evalArithmetic env d) x ix >>= fun old =>
          m (d + 1) >>= fun l => op.binary.act old l) s) :=
    binary_lands op.binary hp hj fun k t hk => he (d + 1) _ k _ hk t
  exact assignment_lands (fun x ix v => setNumber x v ix) hq h hright

end Forms

/-! ## When they agree -/

/-- Evaluated from `s`, the expression does not write the element. -/
def Spares (m : Nat → Comp Exn Store Int64) (x : String) (ix : UInt32) (s : Store) : Prop :=
  ∀ d r t, m d s = some (r, t) →
    elementAt t x ix = elementAt s x ix ∧ (Writable t x ↔ Writable s x)

/-- From `s`, each compound assignment to the element `x[ix]`, which the target
`q` and the operand `p` stand for, ends if and only if its expansion does, and in
the same way. -/
def Expands (env : ArithEnv) (q p : AstNode) (x : String) (ix : UInt32) (s : Store) : Prop :=
  ∀ (op : AssignOp) (e : AstNode) (m : Nat → Comp Exn Store Int64),
    ActsAs env e m → Spares m x ix s → ∀ out,
      (∃ d, evaluate env d (compoundNode op q e) s = some out) ↔
        ∃ d, evaluate env d (expandedNode op q p e) s = some out

/-- What the text of the element casts to; an unset one counts as 0. -/
def castAt (s : Store) (x : String) (ix : UInt32) : Int64 :=
  match elementAt s x ix with
  | none => 0
  | some value => value.toLong

/-- As an expression the text of the element has, without an effect, the value
that it casts to. In a variable that may not be written, where each assignment is
refused, it is enough that neither value or both are the one whose quotient by -1
has no defined value. -/
def ReadsAlike (env : ArithEnv) (x : String) (ix : UInt32) (s : Store) : Prop :=
  ∃ d v, primaryValue env (evalArithmetic env d) x ix s = some (.ok v, s) ∧
    (v = castAt s x ix ∨
      ¬ Writable s x ∧ (v = Int64.minValue ↔ castAt s x ix = Int64.minValue))

section Agree

variable {env : ArithEnv} {d d' : Nat} {x : String} {ix : UInt32} {s t : Store} {v : Int64}

theorem primaryValue_extends (h : d ≤ d') (x : String) (ix : UInt32) :
    Extends _ _ (primaryValue env (evalArithmetic env d) x ix)
      (primaryValue env (evalArithmetic env d') x ix) :=
  congruence_extends.step _ fun text =>
    related_ite _ (congruence_extends.refl _) (evalArithmetic_extends h text)

/-- An element that can be read as an operand can be cast. -/
theorem nounset_of_primaryValue
    (h : primaryValue env (evalArithmetic env d) x ix s = some (.ok v, t))
    (hnone : elementAt s x ix = none) : env.nounset = false := by
  rw [Bool.eq_false_iff]
  intro hu
  have herr : ∃ e, resolveString env x ix s = some (.error e, s) := by
    unfold resolveString resolve
    simp only [reads_bind_apply, id_eq]
    cases hs : s.resolveVariable x with
    | none =>
      dsimp only
      rw [if_pos hu]
      exact ⟨_, rfl⟩
    | some w =>
      have hunset : w.isUnset ix = true := by
        rw [elementAt, hs, Option.bind_some] at hnone
        simp [Variable.isUnset, hnone]
      dsimp only
      rw [if_pos (by rw [hu, hunset]; rfl)]
      exact ⟨_, rfl⟩
  obtain ⟨e, he⟩ := herr
  unfold primaryValue at h
  rw [bind_of_error he] at h
  cases h

theorem resolveLong_cast (hnone : elementAt s x ix = none → env.nounset = false) :
    resolveLong env x ix s = some (.ok (castAt s x ix), s) := by
  cases helement : elementAt s x ix with
  | some value =>
    rw [resolveLong_element helement, castAt, helement]
  | none =>
    rw [castAt, helement]
    unfold resolveLong resolve
    simp only [reads_bind_apply, id_eq, hnone helement, Bool.false_and, Bool.false_eq_true,
      if_false]
    cases hs : s.resolveVariable x with
    | none => rfl
    | some w =>
      rw [elementAt, hs, Option.bind_some] at helement
      simp only [Variable.getValueLong, helement]
      rfl

/-- A refused write. -/
theorem setNumber_refused (ix : UInt32) (h : ¬ Writable s x) :
    ∃ e u, e ≠ .undefinedBehaviour ∧ ∀ v, setNumber x v ix s = some (.error e, u) := by
  unfold Writable at h
  push Not at h
  obtain ⟨w, hw, hro⟩ := h
  rw [ne_eq, Bool.not_eq_false] at hro
  refine ⟨.error .readonly (w.name ++ " is readonly variable"), s.assign x w, by simp, fun v => ?_⟩
  have hset := setValue_run hw (.num v) ix
  rw [if_pos hro] at hset
  exact bind_of_error hset _

theorem setNumber_writable (h : Writable s x) (v : Int64) (ix : UInt32) :
    ∃ u, setNumber x v ix s = some (.ok v, u) := by
  cases hs : s.resolveVariable x with
  | some w =>
    obtain ⟨u, hu, -⟩ := setNumber_run hs (h w hs) v ix
    exact ⟨u, hu⟩
  | none =>
    unfold setNumber
    rw [bind_of_ok (setValue_define hs (.num v) ix)]
    exact ⟨_, rfl⟩

/-- Two operations that are undefined in the same cases. -/
theorem guarded_cases {P Q : Prop} [Decidable P] [Decidable Q] (h : P ↔ Q) (a b : Int64) :
    (∃ v w, (if P then throw .undefinedBehaviour else pure a : Comp Exn Store Int64) = pure v ∧
      (if Q then throw .undefinedBehaviour else pure b : Comp Exn Store Int64) = pure w) ∨
    (if P then throw .undefinedBehaviour else pure a : Comp Exn Store Int64) =
        throw .undefinedBehaviour ∧
      (if Q then throw .undefinedBehaviour else pure b : Comp Exn Store Int64) =
        throw .undefinedBehaviour := by
  by_cases hP : P
  · rw [if_pos hP, if_pos (h.mp hP)]
    exact .inr ⟨rfl, rfl⟩
  · rw [if_neg hP, if_neg fun hQ => hP (h.mpr hQ)]
    exact .inl ⟨_, _, rfl, rfl⟩

/-- What an operator does with two numbers: for the left one it matters only
whether it is the least one. -/
theorem act_cases (op : AssignOp) {a b : Int64} (hab : a = Int64.minValue ↔ b = Int64.minValue)
    (l : Int64) :
    (∃ v w, op.binary.act a l = pure v ∧ op.binary.act b l = pure w) ∨
      op.binary.act a l = throw .undefinedBehaviour ∧
        op.binary.act b l = throw .undefinedBehaviour := by
  have hbad : l = 0 ∨ (a = Int64.minValue ∧ l = -1) ↔ l = 0 ∨ (b = Int64.minValue ∧ l = -1) := by
    rw [hab]
  cases op with
  | divideAssign => exact guarded_cases hbad (a / l) (b / l)
  | modAssign => exact guarded_cases hbad (a % l) (b % l)
  | lshiftAssign => exact guarded_cases Iff.rfl (a <<< l) (b <<< l)
  | rshiftAssign => exact guarded_cases Iff.rfl (a >>> l) (b >>> l)
  | mulAssign | plusAssign | minusAssign | andAssign | xorAssign | orAssign =>
    exact .inl ⟨_, _, rfl, rfl⟩

/-- A number below `2 ^ 31` reads alike. -/
theorem readsAlike_of_number (hint : ReadsDecimals env.toInt32) (hparse : ParsesNumerals env.parse)
    {value : Value} {n : Int} (h : elementAt s x ix = some value)
    (htext : value.toStr = toString n) (hn : n.natAbs < 2 ^ 31) : ReadsAlike env x ix s := by
  have hnumeral : numeral? value.toStr = some n := by rw [htext, numeral?_toString hn]
  have hne : ¬ (toString n).isEmpty = true := by
    rw [String.isEmpty_iff]
    exact toString_ne_empty n
  refine ⟨3, .ofInt n, ?_, .inl ?_⟩
  · unfold primaryValue
    rw [bind_of_ok (resolveString_element h), htext, if_neg hne,
      evalArithmetic_toString hint hparse hn]
    rfl
  · rw [castAt, h]
    exact (toLong_eq hnumeral).symm

/-- What both forms do with the right side's value. -/
theorem update_same (hread : ∃ d t, primaryValue env (evalArithmetic env d) x ix s = some (.ok v, t))
    (halike : v = castAt s x ix ∨
      ¬ Writable s x ∧ (v = Int64.minValue ↔ castAt s x ix = Int64.minValue))
    (op : AssignOp) (l : Int64) (helement : elementAt t x ix = elementAt s x ix)
    (hwritable : Writable t x ↔ Writable s x) :
    updateVariable env op.binary.act x ix l t =
      (op.binary.act v l >>= fun w => setNumber x w ix) t := by
  obtain ⟨d, u, hread⟩ := hread
  have hcast : castAt t x ix = castAt s x ix := by rw [castAt, castAt, helement]
  unfold updateVariable
  rw [bind_of_ok (resolveLong_cast fun hnone => nounset_of_primaryValue hread (helement ▸ hnone)),
    hcast]
  rcases halike with rfl | ⟨hro, hmin⟩
  · rfl
  · obtain ⟨e, u, -, hset⟩ := setNumber_refused ix fun hw => hro (hwritable.mp hw)
    rcases act_cases op hmin l with ⟨a, b, ha, hb⟩ | ⟨ha, hb⟩
    · rw [ha, hb, pure_bind, pure_bind, hset, hset]
    · rw [ha, hb]

end Agree

section Expands

variable {env : ArithEnv} {d₀ : Nat} {x : String} {ix : UInt32} {s : Store} {q p : AstNode}

theorem expands_of_readsAlike (hq : ∀ d, d₀ ≤ d → Target env d q x ix s s)
    (hp : ∀ d, d₀ ≤ d → Operand env d p x ix s s) (h : ReadsAlike env x ix s) :
    Expands env q p x ix s := by
  intro op e m he hspares out
  obtain ⟨d₁, v, hread, halike⟩ := h
  have hsame (d : Nat) (hd₀ : d₀ ≤ d) (hd₁ : d₁ ≤ d) :
      evaluate env (d + 2) (compoundNode op q e) s =
        evaluate env (d + 3) (expandedNode op q p e) s := by
    rw [evaluate_compound op (hq (d + 1) (by omega)) he,
      evaluate_expanded op (hq (d + 2) (by omega)) (hp d hd₀) he,
      bind_of_ok (primaryValue_extends hd₁ x ix s _ hread)]
    refine bind_congr_at rfl fun l t ht => ?_
    obtain ⟨helement, hwritable⟩ := hspares (d + 1) _ t ht
    exact update_same ⟨d₁, s, hread⟩ halike op l helement hwritable
  constructor
  · rintro ⟨d, hd⟩
    have hdeep := evaluate_extends (by omega : d ≤ max d (max d₀ d₁) + 2) _ s out hd
    rw [hsame _ (by omega) (by omega)] at hdeep
    exact ⟨_, hdeep⟩
  · rintro ⟨d, hd⟩
    have hdeep := evaluate_extends (by omega : d ≤ max d (max d₀ d₁) + 3) _ s out hd
    rw [← hsame _ (by omega) (by omega)] at hdeep
    exact ⟨_, hdeep⟩

/-! ### Expressions that tell the readings apart -/

/-- A literal. -/
def literalAct (env : ArithEnv) (l : Literal) : Nat → Comp Exn Store Int64 :=
  deeper fun _ => pure (parseInteger env l.token)

theorem actsAs_literal (env : ArithEnv) (l : Literal) : ActsAs env l.node (literalAct env l) :=
  actsAs_deeper fun _ _ _ _ h s => (literal_arithmetics l h).lands (s := s) (by simp)

/-- A literal that is counted up is no expression. -/
theorem actsAs_counted (env : ArithEnv) (l : Literal) :
    ActsAs env (astNode .postIncr [l.node]) (deeper fun _ => throw .recognition) :=
  actsAs_deeper fun _ _ _ _ h s => (count_literal_follows .postIncr l h).lands (s := s) (by simp)

/-- `y /=` a literal. -/
theorem actsAs_divided (env : ArithEnv) (l : Literal) :
    ActsAs env (astNode .divideAssign [nameNode "y", l.node])
      (deeper fun d => literalAct env l d >>= updateVariable env divide "y" 0) := by
  refine actsAs_deeper fun d toks i rest h s => ?_
  rw [arithmetics_eq_alternative s h (by simp [NodeTree.label]),
    show (astNode .divideAssign [nameNode "y", l.node]).label.type = AssignOp.divideAssign.type
      from rfl, alternative_assign]
  exact assignment_lands (updateVariable env divide) (target_nameNode env d "y" s) h
    fun j hj => actsAs_literal env l d toks j _ hj s

/-- An expression that changes nothing. -/
theorem spares_of_same {m : Nat → Comp Exn Store Int64}
    (h : ∀ d r t, m d s = some (r, t) → t = s) : Spares m x ix s := by
  intro d r t hm
  rw [h d r t hm]
  exact ⟨rfl, Iff.rfl⟩

theorem literalAct_same {env : ArithEnv} {l : Literal} {d : Nat} {r : Except Exn Int64}
    {t : Store} (h : literalAct env l d s = some (r, t)) : t = s := by
  cases d with
  | zero => cases h
  | succ d =>
    cases h
    rfl

/-- With a right side that raises, the operand has been read without an effect or
has raised the same. -/
theorem primaryValue_of_expands (hq : ∀ d, d₀ ≤ d → Target env d q x ix s s)
    (hp : ∀ d, d₀ ≤ d → Operand env d p x ix s s) (h : Expands env q p x ix s) {e : AstNode}
    {m : Nat → Comp Exn Store Int64} {E : Exn} (he : ActsAs env e m)
    (hsame : ∀ d r t, m d s = some (r, t) → t = s) (hm : ∀ d, 2 ≤ d → m d s = some (.error E, s)) :
    ∃ d₁, ∀ d, d₁ ≤ d → (primaryValue env (evalArithmetic env d) x ix >>= fun old =>
      m (d + 1) >>= fun l => BinaryOp.plus.act old l >>= fun v => setNumber x v ix) s =
        some (.error E, s) := by
  have hcompound : evaluate env (d₀ + 3) (compoundNode .plusAssign q e) s = some (.error E, s) := by
    rw [evaluate_compound .plusAssign (hq (d₀ + 2) (by omega)) he,
      bind_of_error (hm (d₀ + 2) (by omega))]
  obtain ⟨d₁, hd₁⟩ := (h .plusAssign e m he (spares_of_same hsame) _).mp ⟨_, hcompound⟩
  refine ⟨max d₀ d₁, fun d hd => ?_⟩
  have hdeep := evaluate_extends (by omega : d₁ ≤ d + 3) _ s _ hd₁
  rwa [evaluate_expanded .plusAssign (hq (d + 2) (by omega)) (hp d (by omega)) he] at hdeep

/-- Where the two forms agree, the operand is read without an effect. -/
theorem reads_of_expands (hint : ReadsDecimals env.toInt32)
    (hq : ∀ d, d₀ ≤ d → Target env d q x ix s s) (hp : ∀ d, d₀ ≤ d → Operand env d p x ix s s)
    (h : Expands env q p x ix s) :
    ∃ d v, primaryValue env (evalArithmetic env d) x ix s = some (.ok v, s) := by
  -- one right side that raises `recognition`, and one that raises something else
  have hcounted : ∀ d r t, deeper (fun _ => throw .recognition) d s = some (r, t) → t = s := by
    intro d r t hd
    cases d with
    | zero => cases hd
    | succ d =>
      cases hd
      rfl
  obtain ⟨d₁, h₁⟩ := primaryValue_of_expands hq hp h (actsAs_counted env (.ofNat 1)) hcounted
    fun d hd => by
      obtain ⟨d, rfl⟩ : ∃ n, d = n + 1 := ⟨d - 1, by omega⟩
      rfl
  obtain ⟨E, hE, hdivided⟩ : ∃ E, E ≠ Exn.recognition ∧
      updateVariable env divide "y" 0 0 s = some (.error E, s) := by
    unfold updateVariable resolveLong
    rcases resolve_cases env Variable.getValueLong 0 "y" 0 s with ⟨what, herr⟩ | hok
    · exact ⟨.error .unsupported what, by simp, bind_of_error herr _⟩
    · refine ⟨.undefinedBehaviour, by simp, ?_⟩
      rw [bind_of_ok hok, divide, if_pos (.inl rfl)]
      rfl
  have hzero : parseInteger env (Literal.ofNat 0).token = 0 := by
    rw [parseInteger_eq hint (by simp), Literal.decimal_ofNat]
    rfl
  have hdeep (d : Nat) : (literalAct env (.ofNat 0) (d + 1) >>= updateVariable env divide "y" 0) s =
      some (.error E, s) := by
    rw [← hdivided, ← hzero]
    rfl
  obtain ⟨d₂, h₂⟩ := primaryValue_of_expands (E := E) hq hp h (actsAs_divided env (.ofNat 0))
    (fun d r t hd => by
      rcases d with _ | _ | d
      · cases hd
      · cases hd
      · rw [deeper, hdeep d] at hd
        cases hd
        rfl)
    fun d hd => by
      obtain ⟨d, rfl⟩ : ∃ n, d = n + 2 := ⟨d - 2, by omega⟩
      exact hdeep d
  specialize h₁ (max d₁ d₂) (by omega)
  specialize h₂ (max d₁ d₂) (by omega)
  refine ⟨max d₁ d₂, ?_⟩
  cases hread : primaryValue env (evalArithmetic env (max d₁ d₂)) x ix s with
  | none =>
    rw [bind_of_none hread] at h₁
    cases h₁
  | some out =>
    obtain ⟨r, t⟩ := out
    cases r with
    | error e =>
      rw [bind_of_error hread] at h₁ h₂
      cases h₁
      cases h₂
      exact absurd rfl hE
    | ok v =>
      rw [bind_of_ok hread] at h₁
      cases h₁
      exact ⟨v, rfl⟩

/-- With a right side that has a value, the two forms act alike on it. -/
theorem update_of_expands (hq : ∀ d, d₀ ≤ d → Target env d q x ix s s)
    (hp : ∀ d, d₀ ≤ d → Operand env d p x ix s s) (h : Expands env q p x ix s) {d₁ : Nat}
    {v l : Int64} (hread : primaryValue env (evalArithmetic env d₁) x ix s = some (.ok v, s))
    {e : AstNode} {m : Nat → Comp Exn Store Int64} (he : ActsAs env e m)
    (hsame : ∀ d r t, m d s = some (r, t) → t = s) (hm : ∀ d, 2 ≤ d → m d s = some (.ok l, s))
    (op : AssignOp) {out : Except Exn Int64 × Store}
    (hup : updateVariable env op.binary.act x ix l s = some out) :
    (op.binary.act v l >>= fun w => setNumber x w ix) s = some out := by
  have hcompound : evaluate env (d₀ + 3) (compoundNode op q e) s = some out := by
    rw [evaluate_compound op (hq (d₀ + 2) (by omega)) he, bind_of_ok (hm (d₀ + 2) (by omega)), hup]
  obtain ⟨d₂, hd₂⟩ := (h op e m he (spares_of_same hsame) _).mp ⟨_, hcompound⟩
  have hdeep := evaluate_extends (by omega : d₂ ≤ max d₂ (max d₀ d₁) + 1 + 3) _ s _ hd₂
  rwa [evaluate_expanded op (hq _ (by omega)) (hp _ (by omega)) he,
    bind_of_ok (primaryValue_extends (by omega) x ix s _ hread),
    bind_of_ok (hm _ (by omega))] at hdeep

theorem readsAlike_of_expands (hint : ReadsDecimals env.toInt32)
    (hq : ∀ d, d₀ ≤ d → Target env d q x ix s s) (hp : ∀ d, d₀ ≤ d → Operand env d p x ix s s)
    (h : Expands env q p x ix s) : ReadsAlike env x ix s := by
  obtain ⟨d, v, hread⟩ := reads_of_expands hint hq hp h
  refine ⟨d, v, hread, ?_⟩
  have hcast := resolveLong_cast (nounset_of_primaryValue hread)
  -- An assignment on which the two readings would show if they were different.
  have hliteral (n : Nat) (hn : n < 2 ^ 31) :
      parseInteger env (Literal.ofNat n).token = .ofNat n := by
    rw [parseInteger_eq hint (by simpa using hn), Literal.decimal_ofNat]
  by_cases hwritable : Writable s x
  · -- `x += 0` stores what was read
    have hzero : ∀ d, 2 ≤ d → literalAct env (.ofNat 0) d s = some (.ok 0, s) := by
      intro d hd
      obtain ⟨d, rfl⟩ : ∃ n, d = n + 1 := ⟨d - 1, by omega⟩
      show some (Except.ok (parseInteger env (Literal.ofNat 0).token), s) = _
      rw [hliteral 0 (by decide)]
      rfl
    obtain ⟨t, ht⟩ := setNumber_writable hwritable (castAt s x ix + 0) ix
    obtain ⟨u, hu⟩ := setNumber_writable hwritable (v + 0) ix
    have hup : updateVariable env AssignOp.plusAssign.binary.act x ix 0 s =
        some (.ok (castAt s x ix + 0), t) := by
      unfold updateVariable
      rw [bind_of_ok hcast]
      exact ht
    have hsum := update_of_expands hq hp h hread (actsAs_literal env (.ofNat 0))
      (fun _ _ _ => literalAct_same) hzero .plusAssign hup
    have heq := hu.symm.trans hsum
    simp only [Int64.add_zero, Option.some.injEq, Prod.mk.injEq, Except.ok.injEq] at heq
    exact .inl heq.1
  · -- `x /= -1` is undefined for the least number, and refused for any other
    refine .inr ⟨hwritable, ?_⟩
    obtain ⟨E, u, hE, hset⟩ := setNumber_refused ix hwritable
    have hact (a : Int64) : (divide a (-1) >>= fun w => setNumber x w ix) s =
        some (if a = Int64.minValue then (.error .undefinedBehaviour, s) else (.error E, u)) := by
      unfold divide
      by_cases ha : a = Int64.minValue
      · rw [if_pos ha, if_pos (.inr ⟨ha, rfl⟩)]
        rfl
      · rw [if_neg ha, if_neg (by simp [ha]), pure_bind, hset]
    have hup : updateVariable env AssignOp.divideAssign.binary.act x ix (-1) s =
        (divide (castAt s x ix) (-1) >>= fun w => setNumber x w ix) s := by
      unfold updateVariable
      rw [bind_of_ok hcast]
      rfl
    have hminus (d : Nat) :
        (literalAct env (.ofNat 1) (d + 1) >>= fun l => pure (UnaryOp.minusSign.act l)) s =
          some (.ok (-1), s) := by
      show some (Except.ok (UnaryOp.minusSign.act (parseInteger env (Literal.ofNat 1).token)), s) = _
      rw [hliteral 1 (by decide)]
      rfl
    have hquotient := update_of_expands hq hp h hread
      (actsAs_unary .minusSign (actsAs_literal env (.ofNat 1)))
      (fun d r t hd => by
        rcases d with _ | _ | d
        · cases hd
        · cases hd
        · rw [deeper, hminus d] at hd
          cases hd
          rfl)
      (fun d hd => by
        obtain ⟨d, rfl⟩ : ∃ n, d = n + 2 := ⟨d - 2, by omega⟩
        exact hminus d)
      .divideAssign (hup.trans (hact _))
    have heq := (hact v).symm.trans hquotient
    by_cases hv : v = Int64.minValue <;> by_cases hc : castAt s x ix = Int64.minValue
    · simp [hv, hc]
    · rw [if_pos hv, if_neg hc] at heq
      cases heq
      exact absurd rfl hE
    · rw [if_neg hv, if_pos hc] at heq
      cases heq
      exact absurd rfl hE
    · simp [hv, hc]

end Expands

/-- In a state, the compound assignments to an element are their expansions if
and only if its text has as an expression, and without an effect, the value that
it casts to. -/
theorem compound_iff {env : ArithEnv} (hint : ReadsDecimals env.toInt32) {d₀ : Nat} {x : String}
    {ix : UInt32} {s : Store} {q p : AstNode} (hq : ∀ d, d₀ ≤ d → Target env d q x ix s s)
    (hp : ∀ d, d₀ ≤ d → Operand env d p x ix s s) :
    Expands env q p x ix s ↔ ReadsAlike env x ix s :=
  ⟨readsAlike_of_expands hint hq hp, expands_of_readsAlike hq hp⟩

theorem compound_iff_five :
    Expands scriptEnv (nameNode "x") (varNode "x") "x" 0 fiveStore ↔
      ReadsAlike scriptEnv "x" 0 fiveStore :=
  compound_iff readsDecimals_scriptEnv
    (fun d (_ : 0 ≤ d) => target_nameNode scriptEnv d "x" fiveStore)
    fun d _ => operand_varNode scriptEnv d "x" fiveStore

/-- `x` is `1+2`. -/
def sumStore : Store := ⟨(∅ : Scope).insert "x" (.new "x" (.scalar (.str "1+2") 0) false), []⟩

/-- `x += 1` is 1, and `x = x + 1` is 4. -/
theorem sum_not_expands :
    ¬ Expands scriptEnv (nameNode "x") (varNode "x") "x" 0 sumStore := by
  intro h
  obtain ⟨d, v, hread, halike⟩ := readsAlike_of_expands readsDecimals_scriptEnv
    (fun d (_ : 0 ≤ d) => target_nameNode scriptEnv d "x" sumStore)
    (fun d _ => operand_varNode scriptEnv d "x" sumStore) h
  have hsum : primaryValue scriptEnv (evalArithmetic scriptEnv 5) "x" 0 sumStore =
      some (.ok 3, sumStore) := rfl
  have hv : v = 3 := by
    have hdeep := primaryValue_extends (Nat.le_max_left d 5) "x" 0 _ _ hread
    rw [primaryValue_extends (Nat.le_max_right d 5) "x" 0 _ _ hsum] at hdeep
    cases hdeep
    rfl
  have hcast : castAt sumStore "x" 0 = 0 := rfl
  have hwritable : Writable sumStore "x" := by
    intro w hw
    have hx : sumStore.resolveVariable "x" =
        some (.new "x" (.scalar (.str "1+2") 0) false) := rfl
    rw [hx] at hw
    cases hw
    rfl
  rw [hv, hcast] at halike
  rcases halike with heq | ⟨hro, -⟩
  · exact absurd heq (by decide)
  · exact hro hwritable

end Libbash.Arith
