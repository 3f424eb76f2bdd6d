import Libbash.Interp.Reading

/-!
# The conditional operator

The action of `ARITHMETIC_CONDITION` runs after all three operands have been
walked, so both branches are evaluated, where `LOGICOR` and `LOGICAND` skip an
operand that is not needed. `evaluatesOneBranch_iff` says when that makes no
difference to the value, the error and the state that a conditional leaves.
-/

namespace Libbash

open Lib Lib.Comp Lib.Program

/-- `c ? t : f` with the branch that `c` selects and no other. -/
def Shell.selectedBranch (host : Host) (c t f : ArithExpr) : Shell Int64 := do
  let cnd ← arithmetics host c
  if cnd ≠ 0 then arithmetics host t else arithmetics host f

section Conditional

variable (host : Host) (n d : Nat) (c t f : ArithExpr) (s : Interpreter)

/-- What becomes of an expression. -/
def evaluation (e : ArithExpr) : Comp Exn Interpreter Int64 :=
  runShell host n d (Shell.arithmetics host e)

/-- The conditional ends as the selected branch does: in the same state, with the
same value or error, or not at all. -/
def EvaluatesOneBranch : Prop :=
  evaluation host n d (.condition c t f) s = runShell host n d (Shell.selectedBranch host c t f) s

/-- Evaluating the branch after `t` has no effect but for a value. -/
def Idle (e : ArithExpr) (s : Interpreter) : Prop := ∃ v, evaluation host n d e s = some (.ok v, s)

/-- The branch that the condition does not select is evaluated without a trace. -/
def OtherBranchIdle : Prop :=
  match evaluation host n d c s with
  | some (.ok cnd, s₁) =>
    match evaluation host n d t s₁ with
    | some (.ok _, s₂) =>
      if cnd ≠ 0 then Idle host n d f s₂
      else evaluation host n d f s₂ = evaluation host n d f s₁
    -- `t` ends the evaluation: it is the selected branch, or fails as `f` does
    | failed => cnd ≠ 0 ∨ evaluation host n d f s₁ = failed
  | _ => True

end Conditional

section Conditional

variable {host : Host} {n d : Nat} {c t f : ArithExpr} {s s₁ s₂ : Interpreter} {cnd l : Int64}

/-- The three operands, and then the choice. -/
theorem evaluation_condition :
    evaluation host n d (.condition c t f) = evaluation host n d c >>= fun cnd =>
      evaluation host n d t >>= fun l => evaluation host n d f >>= fun r =>
        pure (if cnd ≠ 0 then l else r) := by
  unfold evaluation
  rw [Shell.arithmetics]
  rfl

theorem run_selectedBranch (hc : evaluation host n d c s = some (.ok cnd, s₁)) :
    runShell host n d (Shell.selectedBranch host c t f) s =
      if cnd ≠ 0 then evaluation host n d t s₁ else evaluation host n d f s₁ := by
  unfold Shell.selectedBranch
  rw [runShell_bind]
  refine (bind_of_ok hc _).trans ?_
  split_ifs
  · rfl
  · rfl

/-- After both operands before it, the second branch ends the evaluation, and its
state stays. -/
theorem evaluation_second (hc : evaluation host n d c s = some (.ok cnd, s₁))
    (ht : evaluation host n d t s₁ = some (.ok l, s₂)) :
    evaluation host n d (.condition c t f) s =
      (evaluation host n d f s₂).map fun (r, s') =>
        (r.map fun r => if cnd ≠ 0 then l else r, s') := by
  rw [evaluation_condition, bind_of_ok hc, bind_of_ok ht]
  rcases hf : evaluation host n d f s₂ with _ | ⟨e | r, s'⟩
  · rw [bind_of_none hf]
    rfl
  · rw [bind_of_error hf]
    rfl
  · rw [bind_of_ok hf]
    rfl

/-- A branch that is not selected has to end with a value where it starts. -/
theorem evaluation_eq_first_iff (hc : evaluation host n d c s = some (.ok cnd, s₁))
    (ht : evaluation host n d t s₁ = some (.ok l, s₂)) (hcnd : cnd ≠ 0) :
    evaluation host n d (.condition c t f) s = evaluation host n d t s₁ ↔
      Idle host n d f s₂ := by
  rw [evaluation_second hc ht, ht, Idle]
  rcases evaluation host n d f s₂ with _ | ⟨e | r, s'⟩ <;> simp [hcnd, Except.map]

theorem evaluation_eq_second (hc : evaluation host n d c s = some (.ok cnd, s₁))
    (ht : evaluation host n d t s₁ = some (.ok l, s₂)) (hcnd : cnd = 0) :
    evaluation host n d (.condition c t f) s = evaluation host n d f s₂ := by
  rw [evaluation_second hc ht]
  rcases evaluation host n d f s₂ with _ | ⟨e | r, s'⟩ <;> simp [hcnd, Except.map]

/-- For every condition, all branches and every state: whatever conditionals,
short-circuit operators and assignments they are made of. -/
theorem evaluatesOneBranch_iff (host : Host) (n d : Nat) (c t f : ArithExpr) (s : Interpreter) :
    EvaluatesOneBranch host n d c t f s ↔ OtherBranchIdle host n d c t f s := by
  unfold EvaluatesOneBranch OtherBranchIdle
  rcases hc : evaluation host n d c s with _ | ⟨e | cnd, s₁⟩
  · have hselected := bind_of_none hc fun cnd =>
      runShell host n d (if cnd ≠ 0 then Shell.arithmetics host t else Shell.arithmetics host f)
    rw [evaluation_condition, bind_of_none hc]
    exact iff_true_intro hselected.symm
  · have hselected := bind_of_error hc fun cnd =>
      runShell host n d (if cnd ≠ 0 then Shell.arithmetics host t else Shell.arithmetics host f)
    rw [evaluation_condition, bind_of_error hc]
    exact iff_true_intro hselected.symm
  · rw [run_selectedBranch hc]
    rcases ht : evaluation host n d t s₁ with _ | ⟨e | l, s₂⟩
    · -- `t` does not end
      rw [evaluation_condition, bind_of_ok hc, bind_of_none ht]
      by_cases hcnd : cnd = 0
      · simp [hcnd, ht, eq_comm]
      · simp [hcnd, ht]
    · rw [evaluation_condition, bind_of_ok hc, bind_of_error ht]
      by_cases hcnd : cnd = 0
      · simp [hcnd, ht, eq_comm]
      · simp [hcnd, ht]
    · by_cases hcnd : cnd = 0
      · rw [evaluation_eq_second hc ht hcnd]
        simp [hcnd, ht]
      · simp only [ht, if_pos hcnd]
        rw [← ht]
        exact evaluation_eq_first_iff hc ht hcnd

end Conditional

def variableA : Identifier := ⟨"a", isIdentifier_a⟩

/-- `1 ? 1 : (a=2)` assigns. -/
theorem not_evaluatesOneBranch_assignment :
    let a : ArithExpr := .parts [.equals (.name (.base variableA)) (.num "2")]
    let value (out : Option (Except Exn Int64 × Interpreter)) : Option String :=
      out.bind fun p => p.2.store.parameter "a" 0
    value (evaluation (.ofTexts [] []) 0 0 (.condition (.num "1") (.num "1") a)
        (Interpreter.initial [])) = some "2" ∧
      ¬EvaluatesOneBranch (.ofTexts [] []) 0 0 (.num "1") (.num "1") a (Interpreter.initial []) := by
  intro a value
  have hcode : value (evaluation (.ofTexts [] []) 0 0 (.condition (.num "1") (.num "1") a)
      (Interpreter.initial [])) = some "2" := by decide +kernel
  refine ⟨hcode, ?_⟩
  intro h
  rw [h] at hcode
  have hspec : value (runShell (.ofTexts [] []) 0 0 (Shell.selectedBranch (.ofTexts [] [])
      (.num "1") (.num "1") a) (Interpreter.initial [])) = none := by decide +kernel
  rw [hspec] at hcode
  cases hcode

end Libbash
