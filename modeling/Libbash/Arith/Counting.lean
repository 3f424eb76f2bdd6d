import Libbash.Arith.Elements
import Libbash.Arith.Evaluator
import Libbash.Parser.Numerals

/-!
# Increment and decrement

The four nodes share the action `countVariable`: a text that starts with a digit
is read as a number, an empty one counts as 0 and nothing is stored, and any
other text is parsed again with the operator put before or after it. For a
negative number the latter is a syntax error, or counts a literal
(`negative_fails`). `counting_exact_iff` says when the four are exact.
-/

namespace Libbash.Arith

open Lib Lib.Comp

/-! ## The four operators -/

inductive CountOp where
  | preIncr | preDecr | postIncr | postDecr
  deriving DecidableEq

namespace CountOp

def type : CountOp → TokenType
  | preIncr => .preIncr
  | preDecr => .preDecr
  | postIncr => .postIncr
  | postDecr => .postDecr

def step : CountOp → Int64
  | preIncr | postIncr => 1
  | preDecr | postDecr => -1

def back : CountOp → Int64
  | preIncr | preDecr => 0
  | postIncr => -1
  | postDecr => 1

/-- The expression for a text that is no number. -/
def text : CountOp → String → String
  | preIncr => ("++" ++ ·)
  | preDecr => ("--" ++ ·)
  | postIncr => (· ++ "++")
  | postDecr => (· ++ "--")

/-- What is added to a number. -/
def amount : CountOp → Int
  | preIncr | postIncr => 1
  | preDecr | postDecr => -1

/-- The value of the expression on a number. -/
def value (op : CountOp) (n : Int) : Int :=
  match op with
  | preIncr | preDecr => n + op.amount
  | postIncr | postDecr => n

/-- The action of a node. -/
def act (env : ArithEnv) (d : Nat) (op : CountOp) : String → UInt32 → Comp Exn Store Int64 :=
  countVariable env (evalArithmetic env d) op.step op.back op.text

theorem ofInt_step (op : CountOp) (n : Int) :
    Int64.ofInt n + op.step = Int64.ofInt (n + op.amount) := by
  rw [Int64.ofInt_add]
  cases op <;> rfl

theorem ofInt_back (op : CountOp) (n : Int) :
    Int64.ofInt n + op.step + op.back = Int64.ofInt (op.value n) := by
  cases op with
  | preIncr | preDecr =>
    rw [ofInt_step]
    exact Int64.add_zero _
  | postIncr | postDecr =>
    show Int64.ofInt n + _ + _ = Int64.ofInt n
    rw [Int64.add_assoc]
    exact Int64.add_zero _

end CountOp

theorem alternative_count (env : ArithEnv) (toks : NodeStream) (arith : Walk Store Int64)
    (evalArith : String → Comp Exn Store Int64) (op : CountOp) :
    alternative env toks arith evalArith (some op.type) =
      countNode env toks arith evalArith op.type op.step op.back op.text := by
  cases op <;> rfl

/-- What counting up or down is to do on an element that counts from `n`. -/
def CountsExactly (op : CountOp) (s : Store) (x : String) (ix : UInt32) (n : Int) (after : Nat)
    (out : Option (Except Exn Int64 × Cursor Store)) : Prop :=
  ∃ t, out = some (.ok (.ofInt (op.value n)), ⟨after, t⟩) ∧
    textAt t x ix = toString (n + op.amount) ∧ ChangesElement s t x ix

/-- The element is unset or empty, or holds `n`, and counting keeps it inside of
32 bits. -/
structure CountsFrom (s : Store) (x : String) (ix : UInt32) (n : Int) : Prop where
  text : textAt s x ix = "" ∧ n = 0 ∨ textAt s x ix = toString n
  below : (n - 1).natAbs < 2 ^ 31
  bound : n.natAbs < 2 ^ 31
  above : (n + 1).natAbs < 2 ^ 31

theorem isNumber_toString (n : Int) : isNumber (toString n) = decide (0 ≤ n) := by
  unfold isNumber
  cases n with
  | ofNat n =>
    rw [Int.ofNat_eq_natCast, toList_toString_natCast]
    obtain ⟨c, cs, hcs⟩ := List.exists_cons_of_ne_nil (Nat.toDigits_ne_nil (b := 10) (n := n))
    rw [hcs, List.head?_cons, Option.map_some, Option.getD_some, toDigits_eq_cons hcs]
    exact (decide_eq_true (Int.natCast_nonneg n)).symm
  | negSucc n =>
    rw [toList_toString_negSucc]
    rfl

section Exact

variable (env : ArithEnv) (d : Nat) {s : Store} {x : String} {ix : UInt32} {n : Int}

/-- On a number that is not negative the action is exact. -/
theorem act_number (op : CountOp) {v : Variable} {value : Value} (hv : s.resolveVariable x = some v)
    (hvalue : v.value[ix]? = some value) (htext : value.toStr = toString n) (hn : 0 ≤ n)
    (hbound : n.natAbs < 2 ^ 31) (hnext : (n + op.amount).natAbs < 2 ^ 31)
    (hwritable : v.readonly = false) :
    ∃ t, op.act env d x ix s = some (.ok (.ofInt (op.value n)), t) ∧
      t.resolveVariable x = some { v with value := v.value.insert ix (.num (.ofInt (n + op.amount))) } ∧
      textAt t x ix = toString (n + op.amount) ∧ ChangesElement s t x ix := by
  have hset : v.isUnset ix = false := by simp [Variable.isUnset, hvalue]
  have hstring : resolveString env x ix s = some (.ok (toString n), s) := by
    unfold resolveString
    rw [resolve_run _ _ hv hset, Variable.getValueString, hvalue, ← htext]
  have hlong : resolveLong env x ix s = some (.ok (.ofInt n), s) := by
    have hnumeral : numeral? value.toStr = some n := by rw [htext, numeral?_toString hbound]
    unfold resolveLong
    rw [resolve_run _ _ hv hset, Variable.getValueLong, hvalue, ← toLong_eq hnumeral]
  obtain ⟨t, hwrite, hresolve, hchanges⟩ := setNumber_run hv hwritable (.ofInt (n + op.amount)) ix
  refine ⟨t, ?_, hresolve, ?_, hchanges⟩
  · unfold CountOp.act countVariable
    rw [bind_of_ok hstring, isNumber_toString, decide_eq_true hn, if_pos rfl, bind_of_ok hlong,
      op.ofInt_step, bind_of_ok hwrite, ← op.ofInt_step, op.ofInt_back]
    rfl
  · rw [textAt_eq hresolve, Variable.getValueString]
    simp only [Std.ExtTreeMap.getElem?_insert_self, Value.toStr]
    rw [Int64.toInt_ofInt_of_le (by omega) (by omega)]

end Exact

/-! ## Negative numbers -/

section Negative

variable {env : ArithEnv} {toks : NodeStream} {i d : Nat} {rest : NodeStream}

theorem nameBase_literal (l : Literal) (s : Store) (h : OnTree toks i (.tok l.token :: rest)) :
    nameBase toks ⟨i, s⟩ = some (.error .recognition, (⟨i, s⟩ : Cursor Store)) := by
  unfold nameBase
  rw [bind_of_ok (la_step s h 0)]
  have hno : ¬ (l.token.type = .name ∨ l.token.type = .letter ∨ l.token.type = .underscore) := by
    rcases l.token_type with ht | ht <;> simp [ht]
  simp only [List.getElem?_cons_zero, if_neg hno]
  rfl

/-- A literal is no variable. -/
theorem primary_literal {arith : Walk Store Int64} (l : Literal) (s : Store)
    (h : OnTree toks i (.tok l.token :: .up :: rest)) :
    primary env toks arith ⟨i, s⟩ = some (.error .recognition, (⟨i, s⟩ : Cursor Store)) := by
  have hname : name toks arith ⟨i, s⟩ = some (.error .recognition, (⟨i, s⟩ : Cursor Store)) := by
    unfold name
    rw [bind_of_ok (la_step s h 1), if_neg (by simp), bind_of_error (nameBase_literal l s h)]
  unfold primary
  rw [bind_of_ok (laType_step s h 0)]
  simp only [List.getElem?_cons_zero]
  rcases l.token_type with ht | ht <;>
  · rw [ht]
    exact hname

/-- Counting a literal is an error. -/
theorem count_literal_follows (op : CountOp) (l : Literal)
    (h : OnTree toks i ((astNode op.type [l.node]).stream ++ rest)) :
    Follows i (i + (astNode op.type [l.node]).stream.length) (arithmetics env (d + 1) toks)
      (throw .recognition) := by
  have htype : (astNode op.type [l.node]).label.type ≠ .arithmetic := by
    cases op <;> simp [NodeTree.label, CountOp.type]
  refine follows_arithmetics h htype ?_
  rw [show (astNode op.type [l.node]).label.type = op.type from rfl, alternative_count]
  refine follows_open (List.cons_ne_nil _ _) h fun hkids => ?_
  rw [forestStream_singleton, Literal.node, stream_leaf] at hkids
  intro s r t hm
  cases hm
  exact ⟨_, bind_of_error (primary_literal l s hkids) _, fun a ha => by cases ha⟩

theorem negative_literal_follows (op : CountOp) (l : Literal)
    (h : OnTree toks i ((astNode .minusSign [astNode op.type [l.node]]).stream ++ rest)) :
    Follows i (i + (astNode .minusSign [astNode op.type [l.node]]).stream.length)
      (arithmetics env (d + 2) toks) (throw .recognition) := by
  refine follows_arithmetics h (by simp [NodeTree.label]) ?_
  rw [show (astNode .minusSign [astNode op.type [l.node]]).label.type = UnaryOp.minusSign.type
    from rfl, alternative_unary]
  have hinner (hkids : OnTree toks (i + 2) (forestStream [astNode op.type [l.node]] ++ .up :: rest)) :
      Follows (i + 2) (i + 2 + (forestStream [astNode op.type [l.node]]).length)
        (arithmetics env (d + 1) toks) (throw .recognition) := by
    rw [forestStream_singleton] at hkids ⊢
    exact count_literal_follows op l hkids
  have hunary := unaryNode_follows (f := UnaryOp.minusSign.act) (List.cons_ne_nil _ _) h hinner
  refine hunary.weaken fun s r t hm => ?_
  cases hm
  rfl

variable {elsewhere : String → Except Exn (List AstNode)}

/-- The expression that a negative number is counted with has no value. -/
theorem negative_fails (hparse : env.parse = parseArithmetics elsewhere) (op : CountOp) (n : Nat)
    (s : Store) :
    ∃ e, evalArithmetic env (d + 3) (op.text (toString (Int.negSucc n))) s = some (.error e, s) := by
  have hcounted (g : Sign) : evalArithmetic env (d + 3)
      (String.ofList [g.char, g.char] ++ toString (Int.negSucc n)) s =
        some (.error (.error .parse "Something wrong happened while parsing"), s) := by
    rw [evalArithmetic, evalText, hparse, parse_counted]
    rfl
  have hcounting (g : Sign) (post : CountOp) (hpost : post.type = g.postType) :
      evalArithmetic env (d + 3) (toString (Int.negSucc n) ++ String.ofList [g.char, g.char]) s =
        some (.error .recognition, s) := by
    have htext := parse_counting elsewhere g n
    rw [← hparse, ← hpost] at htext
    exact evalArithmetic_part htext
      (fun _ _ hkids => negative_literal_follows post (.ofNat (n + 1)) hkids) rfl
  cases op with
  | preIncr => exact ⟨_, hcounted .plus⟩
  | preDecr => exact ⟨_, hcounted .minus⟩
  | postIncr => exact ⟨_, hcounting .plus .postIncr rfl⟩
  | postDecr => exact ⟨_, hcounting .minus .postDecr rfl⟩

end Negative

/-! ## Exactness -/

section Exactness

variable {elsewhere : String → Except Exn (List AstNode)} {env : ArithEnv} {d : Nat} {s : Store}
variable {x : String} {ix : UInt32} {n : Int}

/-- On anything else the action writes nothing, or fails. -/
theorem act_other (hparse : env.parse = parseArithmetics elsewhere) (hfrom : CountsFrom s x ix n)
    (hcond : ¬ (textAt s x ix = toString n ∧ 0 ≤ n ∧ Writable s x)) (op : CountOp)
    {v : Int64} {t : Store} (h : op.act env (d + 3) x ix s = some (.ok v, t)) :
    textAt s x ix = "" ∧ n = 0 ∧ t = s := by
  unfold CountOp.act countVariable at h
  rcases resolveString_cases env s x ix with ⟨e, herr⟩ | hstring
  · rw [bind_of_error herr] at h
    cases h
  rw [bind_of_ok hstring] at h
  -- Without a text nothing is stored; a number is either readonly or negative here.
  rcases hfrom.text with ⟨hempty, hzero⟩ | htext
  · rw [hempty, if_neg (by decide), if_pos (by decide)] at h
    cases h
    exact ⟨hempty, hzero, rfl⟩
  · exfalso
    have hne : ¬ (toString n).isEmpty = true := by
      rw [String.isEmpty_iff]
      exact toString_ne_empty n
    rw [htext, isNumber_toString] at h
    by_cases hn : 0 ≤ n
    · -- the variable is readonly
      have hreadonly : ¬ Writable s x := fun hw => hcond ⟨htext, hn, hw⟩
      obtain ⟨w, hw, hro⟩ : ∃ w, s.resolveVariable x = some w ∧ w.readonly = true := by
        unfold Writable at hreadonly
        push Not at hreadonly
        simpa using hreadonly
      have hwrite (m : Int64) : ∃ e u, setNumber x m ix s = some (.error e, u) := by
        have hset := setValue_run hw (.num m) ix
        rw [if_pos hro] at hset
        exact ⟨_, _, bind_of_error hset _⟩
      rw [decide_eq_true hn, if_pos rfl] at h
      rcases bind_cases h with ⟨old, s₁, hold, hrest⟩ | ⟨e, -, he⟩
      · have hs : s₁ = s := by
          obtain ⟨w', value, hw', hvalue, -⟩ : ∃ v value, s.resolveVariable x = some v ∧
              v.value[ix]? = some value ∧ value.toStr = textAt s x ix :=
            exists_value (by rw [htext]; exact toString_ne_empty n)
          have hset : w'.isUnset ix = false := by simp [Variable.isUnset, hvalue]
          rw [resolveLong, resolve_run _ _ hw' hset] at hold
          cases hold
          rfl
        subst hs
        obtain ⟨e, u, herr⟩ := hwrite (old + op.step)
        rw [bind_of_error herr] at hrest
        cases hrest
      · cases he
    -- A negative number is parsed with the sign before it, and that is no expression.
    · obtain ⟨k, rfl⟩ : ∃ k, n = Int.negSucc k := by
        cases n with
        | ofNat n => exact absurd (Int.natCast_nonneg n) hn
        | negSucc k => exact ⟨k, rfl⟩
      rw [decide_eq_false hn, if_neg Bool.false_ne_true, if_neg hne] at h
      obtain ⟨e, herr⟩ := negative_fails (d := d) hparse op k s
      rw [herr] at h
      cases h

theorem countNode_run {toks : NodeStream} {i : Nat} {rest : NodeStream} {p : AstNode} {s₀ : Store}
    (hp : Names env d p x ix s₀ s) (op : CountOp)
    (h : OnTree toks i ((astNode op.type [p]).stream ++ rest)) :
    arithmetics env (d + 1) toks ⟨i, s₀⟩ =
      action (op.act env d x ix) ⟨i + (astNode op.type [p]).stream.length, s⟩ := by
  have htype : (astNode op.type [p]).label.type ≠ .arithmetic := by
    cases op <;> simp [NodeTree.label, CountOp.type]
  have hkids := h.children (List.cons_ne_nil _ _)
  rw [forestStream_singleton] at hkids
  rw [arithmetics_eq_alternative s₀ h htype,
    show (astNode op.type [p]).label.type = op.type from rfl, alternative_count]
  rw [stream_node (List.cons_ne_nil _ _)] at h
  unfold countNode
  rw [bind_of_ok (matchToken_step s₀ h), bind_of_ok (matchDown_step s₀ h.tail),
    bind_of_ok (hp toks (i + 2) rest hkids), bind_of_ok (matchUp_step s hkids.advance),
    length_stream_node (List.cons_ne_nil _ _), forestStream_singleton]
  have hend : i + 2 + p.stream.length + 1 = i + (p.stream.length + 3) := by omega
  rw [hend]
  rfl

theorem not_countsExactly (hparse : env.parse = parseArithmetics elsewhere) {p : AstNode}
    {s₀ : Store} (hp : Names env (d + 3) p x ix s₀ s) (hfrom : CountsFrom s x ix n)
    (hcond : ¬ (textAt s x ix = toString n ∧ 0 ≤ n ∧ Writable s x)) (op : CountOp)
    {toks : NodeStream} {i : Nat} {rest : NodeStream}
    (h : OnTree toks i ((astNode op.type [p]).stream ++ rest)) :
    ¬ CountsExactly op s x ix n (i + (astNode op.type [p]).stream.length)
      (arithmetics env (d + 4) toks ⟨i, s₀⟩) := by
  rintro ⟨t, hrun, htext, -⟩
  rw [countNode_run hp op h] at hrun
  unfold action at hrun
  cases hact : op.act env (d + 3) x ix s with
  | none =>
    rw [hact] at hrun
    cases hrun
  | some out =>
    obtain ⟨r, u⟩ := out
    rw [hact] at hrun
    cases hrun
    obtain ⟨hempty, -, rfl⟩ := act_other hparse hfrom hcond op hact
    rw [hempty] at htext
    exact toString_ne_empty _ htext.symm

/-- `x++` and then `x--` bring `x[ix]` back. -/
def Restores (env : ArithEnv) (d : Nat) (s : Store) (x : String) (ix : UInt32) (n : Int) : Prop :=
  ∃ t, (CountOp.postIncr.act env d x ix >>= fun _ => CountOp.postDecr.act env d x ix) s =
      some (.ok (.ofInt (n + 1)), t) ∧
    textAt t x ix = textAt s x ix

/-- Counting is exact on an element if and only if it holds a number that is not
negative, in a variable that may be written. -/
theorem counting_exact_iff (hparse : env.parse = parseArithmetics elsewhere) {p : AstNode}
    {s₀ : Store} (hp : Names env (d + 3) p x ix s₀ s) (hfrom : CountsFrom s x ix n) :
    ((∀ (op : CountOp) (toks : NodeStream) (i : Nat) (rest : NodeStream),
      OnTree toks i ((astNode op.type [p]).stream ++ rest) →
        CountsExactly op s x ix n (i + (astNode op.type [p]).stream.length)
          (arithmetics env (d + 4) toks ⟨i, s₀⟩)) ∧
      Restores env (d + 3) s x ix n) ↔
    textAt s x ix = toString n ∧ 0 ≤ n ∧ Writable s x := by
  constructor
  · rintro ⟨hexact, -⟩
    by_contra hcond
    exact not_countsExactly hparse hp hfrom hcond .preIncr (onTree_self _)
      (hexact .preIncr _ 0 [] (onTree_self _))
  · rintro ⟨htext, hn, hwritable⟩
    obtain ⟨v, value, hv, hvalue, hstr⟩ := exists_value (by rw [htext]; exact toString_ne_empty n)
    rw [htext] at hstr
    have hnext (op : CountOp) : (n + op.amount).natAbs < 2 ^ 31 := by
      cases op with
      | preIncr | postIncr => exact hfrom.above
      | preDecr | postDecr => exact hfrom.below
    have hact (op : CountOp) := act_number env (d + 3) op hv hvalue hstr hn
      hfrom.bound (hnext op) (hwritable v hv)
    constructor
    · intro op toks i rest h
      obtain ⟨t, hrun, -, hnew, hchanges⟩ := hact op
      refine ⟨t, ?_, hnew, hchanges⟩
      rw [countNode_run hp op h]
      simp only [action, hrun]
    · obtain ⟨t, hrun, hresolve, -, -⟩ := hact .postIncr
      have hbound : (n + 1 + CountOp.postDecr.amount).natAbs < 2 ^ 31 := by
        show (n + 1 + -1).natAbs < 2 ^ 31
        have := hfrom.bound
        omega
      have hvalue' : (v.value.insert ix (.num (.ofInt (n + 1))))[ix]? =
          some (.num (.ofInt (n + 1))) := Std.ExtTreeMap.getElem?_insert_self
      have hstr' : (Value.num (.ofInt (n + 1))).toStr = toString (n + 1) := by
        have := hfrom.above
        rw [Value.toStr, Int64.toInt_ofInt_of_le (by omega) (by omega)]
      obtain ⟨u, hrun', -, htext', -⟩ := act_number env (d + 3) .postDecr hresolve
        hvalue' hstr' (by omega) hfrom.above hbound (hwritable v hv)
      refine ⟨u, ?_, ?_⟩
      · rw [bind_of_ok hrun]
        exact hrun'
      · rw [htext', htext]
        congr 1
        show n + 1 + -1 = n
        omega

end Exactness

/-- No text but the plain ones is parsed. -/
def parseNothing (_ : String) : Except Exn (List AstNode) := .error .recognition

/-- Surroundings with the parser of `bashast.g`. -/
def scriptEnv : ArithEnv where
  toInt32 := decimalToInt32
  parse := parseArithmetics parseNothing
  varRef _ := throw .recognition
  varExpansion _ := throw .recognition
  nounset := false

theorem parse_scriptEnv : scriptEnv.parse = parseArithmetics parseNothing := by
  simp only [scriptEnv]

theorem readsDecimals_scriptEnv : ReadsDecimals scriptEnv.toInt32 := readsDecimals_numeralEnv

theorem countsFrom_five : CountsFrom fiveStore "x" 0 5 where
  text := .inr rfl
  below := by decide
  bound := by decide
  above := by decide

theorem writable_five : Writable fiveStore "x" := by
  have hx : fiveStore.resolveVariable "x" = some (.new "x" (.scalar (.str "5") 0) false) := rfl
  intro v hv
  rw [hx] at hv
  cases hv
  rfl

theorem counting_exact_iff_five :
    (∀ (op : CountOp) (toks : NodeStream) (i : Nat) (rest : NodeStream),
      OnTree toks i ((astNode op.type [varNode "x"]).stream ++ rest) →
        CountsExactly op fiveStore "x" 0 5 (i + (astNode op.type [varNode "x"]).stream.length)
          (arithmetics scriptEnv 4 toks ⟨i, fiveStore⟩)) ∧
      Restores scriptEnv 3 fiveStore "x" 0 5 :=
  (counting_exact_iff (d := 0) parse_scriptEnv (names_varNode scriptEnv 3 "x" fiveStore)
    countsFrom_five).mpr ⟨rfl, by decide, writable_five⟩

/-- `x` is `-5`. -/
def negativeStore : Store :=
  ⟨(∅ : Scope).insert "x" (.new "x" (.scalar (.str "-5") 0) false), []⟩

/-- `++x` on `-5` is no expression. -/
theorem negativeCount_not_exact :
    CountsFrom negativeStore "x" 0 (-5) ∧
      ¬ CountsExactly .preIncr negativeStore "x" 0 (-5)
        (0 + (astNode .preIncr [varNode "x"]).stream.length)
        (arithmetics scriptEnv 4 (astNode .preIncr [varNode "x"]).stream ⟨0, negativeStore⟩) := by
  have hfrom : CountsFrom negativeStore "x" 0 (-5) := ⟨.inr rfl, by decide, by decide, by decide⟩
  exact ⟨hfrom, not_countsExactly (d := 0) parse_scriptEnv
    (names_varNode scriptEnv 3 "x" negativeStore) hfrom
    (fun hcond => absurd hcond.2.1 (by decide)) .preIncr (onTree_self _)⟩

end Libbash.Arith
