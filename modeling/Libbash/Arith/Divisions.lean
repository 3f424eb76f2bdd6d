import Libbash.Arith.Congruence
import Libbash.Arith.Exponent

/-!
# Divisions

The operators `/`, `%`, `/=` and `%=` divide at four places of the rule
`arithmetic`, and none of them looks at the divisor. With guarded divisions the
evaluation refuses a zero divisor and the one quotient that does not fit. The
two evaluations are the same exactly when the evaluation gets to no such
division.
-/

namespace Libbash.Arith

open Lib Lib.Comp

/-- A division that has no result. -/
def BadDivision (l r : Int64) : Prop := r = 0 ∨ (l = Int64.minValue ∧ r = -1)

instance (l r : Int64) : Decidable (BadDivision l r) := inferInstanceAs (Decidable (_ ∨ _))

/-- Divisions that raise where they have no result. -/
def raisingDivisions (e : Int64 → Exn) : Divisions where
  divide l r := if BadDivision l r then throw (e r) else pure (l / r)
  modulo l r := if BadDivision l r then throw (e r) else pure (l % r)

/-- What a guard raises: `divide_by_zero_error` for a zero divisor, some error of
the interpreter for the quotient that does not fit. -/
def guardError (zero : String) (kind : ErrorKind) (least : String) (r : Int64) : Exn :=
  if r = 0 then .error .divideByZero zero else .error kind least

/-- Guarded divisions. -/
def guardedDivisions (zero : String) (kind : ErrorKind) (least : String) : Divisions :=
  raisingDivisions (guardError zero kind least)

/-- The exceptions of bad divisions. -/
def RaisedBy (e : Int64 → Exn) (x : Exn) : Prop := ∃ r, e r = x

theorem sourceDivisions_eq : sourceDivisions = raisingDivisions fun _ => .undefinedBehaviour := rfl

section Parting

variable {env : ArithEnv} {d : Nat} {toks : NodeStream}

/-- Two evaluations that differ in what a bad division raises are the same up to
the first bad division. -/
theorem parts_raising (e e' : Int64 → Exn) (env : ArithEnv) (d : Nat) (toks : NodeStream) :
    Parts (RaisedBy e) (RaisedBy e') _ _
      (arithmeticsUnder (raisingDivisions e) env d toks)
      (arithmeticsUnder (raisingDivisions e') env d toks) := by
  have hraise : ∀ (l r : Int64) (v : Int64),
      Parts (RaisedBy e) (RaisedBy e') Store Int64
        (if BadDivision l r then throw (e r) else pure v)
        (if BadDivision l r then throw (e' r) else pure v) := fun l r v =>
    related_ite _ (parts_raise ⟨r, rfl⟩ ⟨r, rfl⟩) ((congruence_parts _ _).refl _)
  exact related_arithmeticsUnder (congruence_parts _ _) env (fun l r => hraise l r (l / r))
    (fun l r => hraise l r (l % r)) d toks

/-- The evaluation gets to a bad division: whatever such a division raises, the
evaluation ends with it. -/
def ComesToBad (env : ArithEnv) (d : Nat) (toks : NodeStream) (c : Cursor Store) : Prop :=
  ∀ e, ∃ c', arithmeticsUnder (raisingDivisions fun _ => e) env d toks c = some (.error e, c')

/-- Otherwise it does not matter what a bad division raises. -/
theorem same_of_not_comesToBad {c : Cursor Store} (h : ¬ComesToBad env d toks c)
    (e e' : Int64 → Exn) :
    arithmeticsUnder (raisingDivisions e) env d toks c =
      arithmeticsUnder (raisingDivisions e') env d toks c := by
  obtain ⟨marker, hmarker⟩ := not_forall.mp h
  have hsame : ∀ e, arithmeticsUnder (raisingDivisions fun _ => marker) env d toks c =
      arithmeticsUnder (raisingDivisions e) env d toks c := by
    intro e
    rcases parts_raising (fun _ => marker) e env d toks c with heq |
      ⟨x, x', t, ⟨r, rfl⟩, -, hx, -⟩
    · exact heq
    · exact absurd ⟨t, hx⟩ hmarker
  rw [← hsame e, ← hsame e']

/-- An evaluation that ends normally gets to no bad division. -/
theorem not_comesToBad_of_ok {e : Int64 → Exn} {c c' : Cursor Store} {v : Int64}
    (h : arithmeticsUnder (raisingDivisions e) env d toks c = some (.ok v, c')) :
    ¬ComesToBad env d toks c := by
  intro hbad
  obtain ⟨t, ht⟩ := hbad .recognition
  rcases parts_raising e (fun _ => .recognition) env d toks c with heq | ⟨x, -, u, -, -, hx, -⟩
  · rw [h, ht] at heq
    cases heq
  · rw [h] at hx
    cases hx

end Parting

/-! ## The places that divide -/

/-- The operators that divide. -/
inductive DivisionOp where
  | slash | pct
  deriving DecidableEq

namespace DivisionOp

def binary : DivisionOp → BinaryOp
  | slash => .slash
  | pct => .pct

def assign : DivisionOp → AssignOp
  | slash => .divideAssign
  | pct => .modAssign

/-- The division of the operator. -/
def of (ops : Divisions) : DivisionOp → Int64 → Int64 → Comp Exn Store Int64
  | slash => ops.divide
  | pct => ops.modulo

theorem of_raising (op : DivisionOp) (e : Int64 → Exn) {l r : Int64} (h : BadDivision l r) :
    op.of (raisingDivisions e) l r = throw (e r) := by
  cases op with
  | slash => exact if_pos h
  | pct => exact if_pos h

end DivisionOp

section Places

variable {env : ArithEnv} {toks : NodeStream} {d i : Nat} {rest : NodeStream}
variable {ls rs : List AstNode} {s s₁ s₂ : Store} {l r : Int64}

/-- On a node that is not `ARITHMETIC`, the rule is the alternative for that
node. -/
theorem arithmeticsUnder_eq_alternative {ops : Divisions} {t : AstNode} (s : Store)
    (h : OnTree toks i (t.stream ++ rest)) (ht : t.label.type ≠ .arithmetic) :
    arithmeticsUnder ops env (d + 1) toks ⟨i, s⟩ =
      alternativeUnder ops env toks (arithmeticsUnder ops env d toks)
        (evalText env (arithmeticsUnder ops env d)) (some t.label.type) ⟨i, s⟩ := by
  have hla : laType toks 1 ⟨i, s⟩ = some (.ok (some t.label.type), (⟨i, s⟩ : Cursor Store)) :=
    laType_step s h.root 0
  rw [arithmeticsUnder, arithmeticsRuleUnder, bind_of_ok (laIs_step_of_ne s h ht)]
  show (laType toks 1 >>= _) _ = _
  rw [bind_of_ok hla]

/-- A `/` or `%` whose operands evaluate to a divisor without a result. -/
theorem comesToBad_binary (op : DivisionOp) (hls : ls ≠ [])
    (h : OnTree toks i ((astNode op.binary.type (ls ++ rs)).stream ++ rest))
    (hl : arithmetics env d toks ⟨i + 2, s⟩ =
      some (.ok l, ⟨i + 2 + (forestStream ls).length, s₁⟩))
    (hr : arithmetics env d toks ⟨i + 2 + (forestStream ls).length, s₁⟩ =
      some (.ok r, ⟨i + 2 + (forestStream (ls ++ rs)).length, s₂⟩))
    (hbad : BadDivision l r) : ComesToBad env (d + 1) toks ⟨i, s⟩ := by
  intro e
  rw [← arithmeticsUnder_source, sourceDivisions_eq] at hl hr
  have hl' := same_of_not_comesToBad (not_comesToBad_of_ok hl) (fun _ => e) fun _ =>
    .undefinedBehaviour
  have hr' := same_of_not_comesToBad (not_comesToBad_of_ok hr) (fun _ => e) fun _ =>
    .undefinedBehaviour
  have hnode := binaryNode_run (f := op.of (raisingDivisions fun _ => e)) hls h (hl'.trans hl)
    (hr'.trans hr)
  rw [op.of_raising _ hbad] at hnode
  rw [arithmeticsUnder_eq_alternative s h (by cases op <;> simp [NodeTree.label, DivisionOp.binary,
    BinaryOp.type])]
  cases op with
  | slash => exact ⟨_, hnode⟩
  | pct => exact ⟨_, hnode⟩

/-- A `/=` or `%=` whose right side evaluates to a divisor without a result for
the number that the target holds. -/
theorem comesToBad_assign (op : DivisionOp) {x : String} {old : Int64} (hrs : rs ≠ [])
    (h : OnTree toks i ((astNode op.assign.type (nameNode x :: rs)).stream ++ rest))
    (hr : arithmetics env d toks ⟨i + 3, s⟩ =
      some (.ok r, ⟨i + 3 + (forestStream rs).length, s₂⟩))
    (hold : resolveLong env x 0 s₂ = some (.ok old, s₂)) (hbad : BadDivision old r) :
    ComesToBad env (d + 1) toks ⟨i, s⟩ := by
  intro e
  rw [← arithmeticsUnder_source, sourceDivisions_eq] at hr
  have hr' := same_of_not_comesToBad (not_comesToBad_of_ok hr) (fun _ => e) fun _ =>
    .undefinedBehaviour
  have hkids := h.children (List.cons_ne_nil _ _)
  rw [forestStream_cons, stream_leaf, List.append_assoc] at hkids
  have htarget : NoDown (forestStream rs ++ .up :: rest) := by
    obtain ⟨r, rs, rfl⟩ := List.exists_cons_of_ne_nil hrs
    rw [forestStream_cons, List.append_assoc]
    exact noDown_stream _ _
  have hright : OnTree toks (i + 3) (forestStream rs ++ .up :: rest) := hkids.tail
  have hup : OnTree toks (i + 3 + (forestStream rs).length) (.up :: rest) := hright.advance
  have hstart := h
  rw [stream_node (List.cons_ne_nil _ _)] at hstart
  have hact : updateVariable env (op.of (raisingDivisions fun _ => e)) x 0 r s₂ =
      some (.error e, s₂) := by
    unfold updateVariable
    rw [bind_of_ok hold, op.of_raising _ hbad]
    rfl
  have hnode : assignNode env toks (arithmeticsUnder (raisingDivisions fun _ => e) env d toks)
      op.assign.type (op.of (raisingDivisions fun _ => e)) ⟨i, s⟩ =
        some (.error e, ⟨i + 3 + (forestStream rs).length + 1, s₂⟩) := by
    unfold assignNode
    rw [bind_of_ok (matchToken_step s hstart), bind_of_ok (matchDown_step s hstart.tail),
      bind_of_ok (primary_name_step s hkids htarget), bind_of_ok (hr'.trans hr),
      bind_of_ok (matchUp_step s₂ hup)]
    show action (updateVariable env (op.of (raisingDivisions fun _ => e)) x 0 r) _ = _
    unfold action
    rw [hact]
  rw [arithmeticsUnder_eq_alternative s h (by cases op <;> simp [NodeTree.label, DivisionOp.assign,
    AssignOp.type])]
  cases op with
  | slash => exact ⟨_, hnode⟩
  | pct => exact ⟨_, hnode⟩

/-- A guarded compound assignment raises before it stores. -/
theorem guarded_target_kept (op : DivisionOp) (zero : String) (kind : ErrorKind) (least : String)
    {x : String} {index : UInt32} {old : Int64}
    (hold : resolveLong env x index s = some (.ok old, s)) :
    updateVariable env (op.of (guardedDivisions zero kind least)) x index 0 s =
      some (.error (.error .divideByZero zero), s) := by
  unfold updateVariable guardedDivisions
  rw [bind_of_ok hold, op.of_raising _ (.inl rfl)]
  rfl

end Places

/-! ## Guarded evaluations -/

/-- The evaluation is the one with guarded divisions: it has the same value or
exception, the same variables and the same place in the tree. -/
def DivisionsGuarded (env : ArithEnv) (d : Nat) (toks : NodeStream) (c : Cursor Store) : Prop :=
  ∃ zero kind least, arithmetics env d toks c =
    arithmeticsUnder (guardedDivisions zero kind least) env d toks c

/-- An evaluation is guarded exactly when it gets to no division by zero and to
no division of the least `long` by -1. -/
theorem divisions_guarded_iff (env : ArithEnv) (d : Nat) (toks : NodeStream) (c : Cursor Store) :
    DivisionsGuarded env d toks c ↔ ¬ComesToBad env d toks c := by
  unfold DivisionsGuarded
  rw [← arithmeticsUnder_source, sourceDivisions_eq]
  constructor
  · rintro ⟨zero, kind, least, hguarded⟩ hbad
    obtain ⟨t, ht⟩ := hbad .undefinedBehaviour
    obtain ⟨u, hu⟩ := hbad .recognition
    rw [ht] at hguarded
    -- the guarded evaluation stops at the bad division with an error of its own
    rcases parts_raising (fun _ => .recognition) (guardError zero kind least) env d toks c with
      heq | ⟨-, x, v, -, ⟨r, rfl⟩, -, hx⟩
    · rw [hu] at heq
      cases heq.trans hguarded.symm
    · have hsame := hguarded.trans hx
      unfold guardError at hsame
      split_ifs at hsame <;> cases hsame
  · intro hgood
    exact ⟨"", .interpreter, "", same_of_not_comesToBad hgood _ _⟩

/-- The tree of `x /= 0`. -/
def zeroDivision : AstNode := astNode .divideAssign [nameNode "x", (Literal.ofNat 0).node]

/-- `x /= 0` raises no `divide_by_zero_error`. -/
theorem zeroDivision_not_guarded :
    ¬DivisionsGuarded numeralEnv 3 zeroDivision.stream ⟨0, fiveStore⟩ := by
  rintro ⟨zero, kind, least, hguarded⟩
  have hsource : arithmetics numeralEnv 3 zeroDivision.stream ⟨0, fiveStore⟩ =
      some (.error .undefinedBehaviour, ⟨zeroDivision.stream.length, fiveStore⟩) := rfl
  have hguard : arithmeticsUnder (guardedDivisions zero kind least) numeralEnv 3
      zeroDivision.stream ⟨0, fiveStore⟩ =
        some (.error (.error .divideByZero zero), ⟨zeroDivision.stream.length, fiveStore⟩) := rfl
  rw [hsource, hguard] at hguarded
  cases hguarded

end Libbash.Arith
