import Libbash.Lib.Congruence
import Libbash.Arith.Rules

/-!
# Rules for given divisions

`arithmeticsUnder` is the rule `arithmetics` with the four places that divide as
a parameter; with the divisions of the source it is the rule of the source. A
relation that the combinators keep holds between two such rules when it holds
between what they are made of.
-/

namespace Libbash.Arith

open Lib Lib.Comp

/-! ## The rules, for given divisions -/

/-- What the four places do with their operands. -/
structure Divisions where
  divide : Int64 → Int64 → Comp Exn Store Int64
  modulo : Int64 → Int64 → Comp Exn Store Int64

section Rules

variable (ops : Divisions) (env : ArithEnv) (toks : NodeStream)
variable (arithmetics : Walk Store Int64) (evalArithmetic : String → Comp Exn Store Int64)

/-- The alternatives of `arithmetic`. -/
def alternativeUnder (ty : Option TokenType) : Walk Store Int64 :=
  match ty with
  | some .slash => binaryNode toks arithmetics .slash ops.divide
  | some .pct => binaryNode toks arithmetics .pct ops.modulo
  | some .divideAssign => assignNode env toks arithmetics .divideAssign ops.divide
  | some .modAssign => assignNode env toks arithmetics .modAssign ops.modulo
  | ty => alternative env toks arithmetics evalArithmetic ty

def arithmeticUnder : Walk Store Int64 := do
  let ty ← laType toks 1
  alternativeUnder ops env toks arithmetics evalArithmetic ty

def arithmeticsRuleUnder : Walk Store Int64 := do
  if ← laIs toks .arithmetic then do
    let value ← arithmeticPart toks arithmetics
    moreParts toks arithmetics toks.length value
  else arithmeticUnder ops env toks arithmetics evalArithmetic

end Rules

/-- `arithmetics`, with a bound on the nesting of rules. -/
def arithmeticsUnder (ops : Divisions) (env : ArithEnv) : Nat → NodeStream → Walk Store Int64
  | 0, _ => diverge
  | d + 1, toks =>
    arithmeticsRuleUnder ops env toks (arithmeticsUnder ops env d toks)
      (evalText env (arithmeticsUnder ops env d))

/-- The divisions of the source. -/
def sourceDivisions : Divisions := ⟨divide, modulo⟩

theorem arithmeticsUnder_source (env : ArithEnv) (d : Nat) :
    arithmeticsUnder sourceDivisions env d = arithmetics env d := by
  induction d with
  | zero => rfl
  | succ d ih =>
    funext toks
    have halternative : ∀ ty, alternativeUnder sourceDivisions env toks (arithmetics env d toks)
        (evalText env (arithmetics env d)) ty =
          alternative env toks (arithmetics env d toks) (evalText env (arithmetics env d)) ty := by
      intro ty
      unfold alternativeUnder
      split <;> rfl
    rw [arithmeticsUnder, ih, arithmetics, arithmeticsRuleUnder, arithmeticsRule, arithmeticUnder,
      arithmetic]
    simp only [halternative]

/-! ## Related parts give related rules -/

theorem action_eq_zoom {S α : Type} (m : Comp Exn S α) :
    action m = zoom Cursor.inner (fun s c => ⟨c.index, s⟩) m := by
  funext c
  unfold action zoom
  cases m c.inner <;> rfl

theorem walkStream_eq_zoom {S α : Type} (w : Walk S α) :
    walkStream w = zoom (fun s => ⟨0, s⟩) (fun c _ => c.inner) w := by
  funext s
  unfold walkStream zoom
  cases w ⟨0, s⟩ <;> rfl

section Congruence

variable {R : ∀ S α : Type, Comp Exn S α → Comp Exn S α → Prop} (C : Congruence R)
variable {ops ops' : Divisions} {env : ArithEnv} {toks : NodeStream}
variable {arith arith' : Walk Store Int64} {evalArith evalArith' : String → Comp Exn Store Int64}
include C

theorem related_action {S α : Type} {m m' : Comp Exn S α} (h : R S α m m') :
    R (Cursor S) α (action m) (action m') := by
  rw [action_eq_zoom, action_eq_zoom]
  exact C.zoom h

theorem related_walkStream {S α : Type} {w w' : Walk S α} (h : R (Cursor S) α w w') :
    R S α (walkStream w) (walkStream w') := by
  rw [walkStream_eq_zoom, walkStream_eq_zoom]
  exact C.zoom h

variable (h : R _ _ arith arith')
include h

theorem related_name : R _ _ (name toks arith) (name toks arith') := by
  refine C.step _ fun next => related_ite _ ?_ (C.refl _)
  refine C.step _ fun libbashName => C.step _ fun _ => ?_
  exact C.before h _

theorem related_primary : R _ _ (primary env toks arith) (primary env toks arith') := by
  refine C.step _ fun ty => ?_
  split
  · refine C.step _ fun inside => C.step _ fun _ => C.step _ fun _ => related_ite _ (C.refl _) ?_
    exact C.before (related_name C h) _
  · exact related_name C h

theorem related_unaryNode (ty : TokenType) (f : Int64 → Int64) :
    R _ _ (unaryNode toks arith ty f) (unaryNode toks arith' ty f) :=
  C.step _ fun _ => C.step _ fun _ => C.before h _

theorem related_binaryNode (ty : TokenType) {f f' : Int64 → Int64 → Comp Exn Store Int64}
    (hf : ∀ l r, R _ _ (f l r) (f' l r)) :
    R _ _ (binaryNode toks arith ty f) (binaryNode toks arith' ty f') := by
  refine C.step _ fun _ => C.step _ fun _ => ?_
  refine C.bind h fun l => C.bind h fun r => C.step _ fun _ => ?_
  exact related_action C (hf l r)

theorem related_logicNode (ty : TokenType) (short : Int64 → Bool) (value : Int64) :
    R _ _ (logicNode toks arith ty short value) (logicNode toks arith' ty short value) := by
  refine C.step _ fun _ => C.step _ fun _ => C.bind h fun l => C.before ?_ _
  exact related_ite _ (C.refl _) (C.before h _)

theorem related_conditionNode :
    R _ _ (conditionNode toks arith) (conditionNode toks arith') :=
  C.step _ fun _ => C.step _ fun _ => C.bind h fun _ => C.bind h fun _ => C.before h _

theorem related_arithmeticPart :
    R _ _ (arithmeticPart toks arith) (arithmeticPart toks arith') :=
  C.step _ fun _ => C.step _ fun _ => C.before h _

theorem related_moreParts (n : Nat) (value : Int64) :
    R _ _ (moreParts toks arith n value) (moreParts toks arith' n value) := by
  induction n generalizing value with
  | zero => exact C.refl _
  | succ n ih =>
    refine C.step _ fun part => related_ite _ ?_ (C.refl _)
    exact C.bind (related_arithmeticPart C h) fun value => ih value

theorem related_equalsNode :
    R _ _ (equalsNode env toks arith) (equalsNode env toks arith') :=
  C.step _ fun _ => C.step _ fun _ => C.bind (related_primary C h) fun _ => C.before h _

theorem related_assignNode (ty : TokenType) {f f' : Int64 → Int64 → Comp Exn Store Int64}
    (hf : ∀ l r, R _ _ (f l r) (f' l r)) :
    R _ _ (assignNode env toks arith ty f) (assignNode env toks arith' ty f') := by
  refine C.step _ fun _ => C.step _ fun _ => C.bind (related_primary C h) fun p => ?_
  refine C.bind h fun l => C.step _ fun _ => related_action C ?_
  exact C.step _ fun old => C.before (hf old l) _

variable (he : ∀ text, R _ _ (evalArith text) (evalArith' text))
include he

theorem related_countNode (ty : TokenType) (step back : Int64) (text : String → String) :
    R _ _ (countNode env toks arith evalArith ty step back text)
      (countNode env toks arith' evalArith' ty step back text) := by
  refine C.step _ fun _ => C.step _ fun _ => C.bind (related_primary C h) fun p => ?_
  refine C.step _ fun _ => related_action C (C.step _ fun value => ?_)
  exact related_ite _ (C.refl _) (related_ite _ (C.refl _) (he _))

theorem related_primaryOperand :
    R _ _ (primaryOperand env toks arith evalArith) (primaryOperand env toks arith' evalArith') := by
  refine C.bind (related_primary C h) fun p => related_action C (C.step _ fun text => ?_)
  exact related_ite _ (C.refl _) (he text)

theorem related_reference (inside : Option TokenType) :
    R _ _ (reference env toks arith evalArith inside)
      (reference env toks arith' evalArith' inside) := by
  unfold reference
  split
  · exact related_primaryOperand C h he
  · exact related_primaryOperand C h he
  · exact related_primaryOperand C h he
  · exact related_primaryOperand C h he
  · exact C.refl _

theorem related_alternative (ty : Option TokenType) :
    R _ _ (alternative env toks arith evalArith ty) (alternative env toks arith' evalArith' ty) := by
  have hbinary : ∀ ty f, R _ _ (binaryNode toks arith ty f) (binaryNode toks arith' ty f) :=
    fun ty f => related_binaryNode C h ty fun l r => C.refl (f l r)
  have hassign : ∀ ty f, R _ _ (assignNode env toks arith ty f) (assignNode env toks arith' ty f) :=
    fun ty f => related_assignNode C h ty fun l r => C.refl (f l r)
  unfold alternative
  split
  case h_1 | h_2 =>
    exact related_logicNode C h _ _ _
  case h_3 | h_4 | h_5 | h_6 | h_7 | h_8 | h_9 | h_10 | h_11 | h_12 | h_13 | h_14 | h_16 | h_18
      | h_19 | h_20 | h_21 =>
    exact hbinary _ _
  case h_15 | h_17 | h_22 | h_23 | h_46 =>
    exact related_unaryNode C h _ _
  case h_24 =>
    exact related_conditionNode C h
  case h_25 =>
    exact C.step _ fun inside => related_reference C h he inside
  case h_26 | h_27 | h_28 =>
    exact related_primaryOperand C h he
  case h_29 | h_30 | h_31 | h_32 =>
    exact related_countNode C h he _ _ _ _
  case h_33 =>
    exact related_equalsNode C h
  case h_34 | h_35 | h_36 | h_37 | h_38 | h_39 | h_40 | h_41 | h_42 | h_43 =>
    exact hassign _ _
  case h_44 | h_45 | h_47 =>
    exact C.refl _

theorem related_alternativeUnder (hd : ∀ l r, R _ _ (ops.divide l r) (ops'.divide l r))
    (hm : ∀ l r, R _ _ (ops.modulo l r) (ops'.modulo l r)) (ty : Option TokenType) :
    R _ _ (alternativeUnder ops env toks arith evalArith ty)
      (alternativeUnder ops' env toks arith' evalArith' ty) := by
  unfold alternativeUnder
  split
  · exact related_binaryNode C h _ hd
  · exact related_binaryNode C h _ hm
  · exact related_assignNode C h _ hd
  · exact related_assignNode C h _ hm
  · exact related_alternative C h he _

end Congruence

/-- The rule itself, with the walk of the parts and the evaluation of texts as
its own parts. -/
theorem related_arithmeticsRuleUnder {R : ∀ S α : Type, Comp Exn S α → Comp Exn S α → Prop}
    (C : Congruence R) {ops ops' : Divisions} {env : ArithEnv}
    {walk walk' : NodeStream → Walk Store Int64}
    (hwalk : ∀ toks, R _ _ (walk toks) (walk' toks))
    (hd : ∀ l r, R _ _ (ops.divide l r) (ops'.divide l r))
    (hm : ∀ l r, R _ _ (ops.modulo l r) (ops'.modulo l r)) (toks : NodeStream) :
    R _ _ (arithmeticsRuleUnder ops env toks (walk toks) (evalText env walk))
      (arithmeticsRuleUnder ops' env toks (walk' toks) (evalText env walk')) := by
  have htext : ∀ text, R _ _ (evalText env walk text) (evalText env walk' text) := by
    intro text
    unfold evalText
    split
    · exact C.refl _
    · exact related_walkStream C (hwalk _)
  refine C.step _ fun part => related_ite _ ?_ ?_
  · exact C.bind (related_arithmeticPart C (hwalk toks)) fun value =>
      related_moreParts C (hwalk toks) _ value
  · exact C.step _ fun ty => related_alternativeUnder C (hwalk toks) htext hd hm ty

/-- Rules of the same depth are related when their divisions are. -/
theorem related_arithmeticsUnder {R : ∀ S α : Type, Comp Exn S α → Comp Exn S α → Prop}
    (C : Congruence R) {ops ops' : Divisions} (env : ArithEnv)
    (hd : ∀ l r, R _ _ (ops.divide l r) (ops'.divide l r))
    (hm : ∀ l r, R _ _ (ops.modulo l r) (ops'.modulo l r)) (d : Nat) (toks : NodeStream) :
    R _ _ (arithmeticsUnder ops env d toks) (arithmeticsUnder ops' env d toks) := by
  induction d generalizing toks with
  | zero => exact C.refl _
  | succ d ih => exact related_arithmeticsRuleUnder C ih hd hm toks

/-! ## Deeper nesting -/

section Deeper

variable {env : ArithEnv} {d d' : Nat}

/-- A walk that ends within a nesting of rules ends the same way within a deeper
one. -/
theorem arithmeticsUnder_extends (ops : Divisions) (env : ArithEnv) (d : Nat) (toks : NodeStream) :
    Extends _ _ (arithmeticsUnder ops env d toks) (arithmeticsUnder ops env (d + 1) toks) := by
  induction d generalizing toks with
  | zero => exact extends_diverge _
  | succ d ih =>
    exact related_arithmeticsRuleUnder (R := Extends) congruence_extends ih
      (fun _ _ => congruence_extends.refl _) (fun _ _ => congruence_extends.refl _) toks

theorem arithmetics_extends (h : d ≤ d') (toks : NodeStream) :
    Extends _ _ (arithmetics env d toks) (arithmetics env d' toks) := by
  induction d', h using Nat.le_induction with
  | base => exact congruence_extends.refl _
  | succ d' _ ih =>
    rw [← arithmeticsUnder_source env d', ← arithmeticsUnder_source env (d' + 1)] at *
    exact ih.trans (arithmeticsUnder_extends sourceDivisions env d' toks)

theorem evalArithmetic_extends (h : d ≤ d') (text : String) :
    Extends _ _ (evalArithmetic env d text) (evalArithmetic env d' text) := by
  unfold evalArithmetic evalText
  split
  · exact congruence_extends.refl _
  · exact related_walkStream congruence_extends (arithmetics_extends h _)

end Deeper

end Libbash.Arith
