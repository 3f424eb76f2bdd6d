import Libbash.Walker.Rules

/-!
# Which statuses count as true

`while`, `until`, `if`, `&&` and `||` each test the status of a condition in
their own rule. `truth` is the shell's reading of a status; every test but
that of `WHILE` follows it on every status, and `WHILE` does on 0 and 1 only.

* **`LoopHead`** — the states in which a loop evaluates its condition;
* **`AgreeOnTruth`** — all constructs guarded by one condition list decide
  alike, in every pass of the loops, and a `while` loop runs as the loop built
  from the test of `if` (`ifLoop`);
* **`agreeOnTruth_iff`** — they do exactly when each pass of the `while` loop
  leaves status 0 or 1.
-/

namespace Libbash

open Lib Lib.Comp

variable {X : Leaves} {S : Type}

/-- The shell's reading of a status. -/
def truth (status : Int) : Bool := status == 0

/-- The action of `BANG`: `walker->set_status(!walker->get_status())`. -/
def bangStatus (status : Int) : Int := if status = 0 then 1 else 0

theorem elifMatches_eq_truth (status : Int) : elifMatches status = truth status := rfl

theorem logicRuns_eq_truth (isAnd : Bool) (status : Int) :
    logicRuns isAnd status = (truth status == isAnd) := by
  cases isAnd with
  | true => simp [logicRuns, truth]
  | false =>
    by_cases h : status = 0 <;> simp [logicRuns, truth, bne, h]

theorem loopStops_until (status : Int) : loopStops true status = truth status := rfl

theorem loopStops_until_bang (status : Int) :
    loopStops true (bangStatus status) = !truth status := by
  by_cases h : status = 0 <;> simp [loopStops, bangStatus, truth, h]

/-- `WHILE` stops on status 1, not on every false status. -/
theorem loopStops_while_iff (status : Int) :
    loopStops false status = !truth status ↔ status = 0 ∨ status = 1 := by
  by_cases h : status = 0
  · simp [loopStops, truth, h]
  · by_cases h1 : status = 1
    · simp [loopStops, truth, h1]
    · simp [loopStops, truth, h, h1]

section Passes

variable (sem : LeafSem X S)

/-- `LoopHead negate cond body s t`: the loop entered in `s` evaluates its
condition in `t`. -/
inductive LoopHead (negate : Bool) (cond body : Comp Exn S Unit) : S → S → Prop
  | entry (s : S) : LoopHead negate cond body s s
  | next {s t u v : S} (head : LoopHead negate cond body s t)
      (test : loopTest sem negate cond t = some (.ok true, u))
      (pass : loopBody body u = some (.ok true, v)) : LoopHead negate cond body s v

/-- `while true; do if cond; then body; else break; fi; done`, with the test of
`elif_expr`. -/
def ifLoop (cond body : Comp Exn S Unit) : Nat → Comp Exn S Unit
  | 0 => diverge
  | n + 1 => do
    if ← elifTest sem cond then
      if ← loopBody body then ifLoop cond body n else pure ()
    else pure ()

variable {sem} {cond body : Comp Exn S Unit} {s t u : S}

theorem loopTest_of_ok {negate : Bool} (h : cond t = some (.ok (), u)) :
    loopTest sem negate cond t = some (.ok (!loopStops negate (sem.getStatus u)), u) := by
  unfold loopTest
  rw [bind_of_ok h]
  rfl

theorem elifTest_of_ok (h : cond t = some (.ok (), u)) :
    elifTest sem cond t = some (.ok (elifMatches (sem.getStatus u)), u) := by
  unfold elifTest
  rw [bind_of_ok h]
  rfl

/-- On a condition that leaves status 0 or 1, `WHILE` tests as `IF` does. -/
theorem loopTest_eq_elifTest
    (h : ∀ u, cond t = some (.ok (), u) → sem.getStatus u = 0 ∨ sem.getStatus u = 1) :
    loopTest sem false cond t = elifTest sem cond t := by
  unfold loopTest elifTest
  refine bind_congr_at rfl fun _ u hu => ?_
  simp only [getStatus, reads_bind_apply, pure_apply, (loopStops_while_iff _).mpr (h u hu),
    Bool.not_not, elifMatches_eq_truth]

/-- Statuses 0 and 1 in every pass make the `while` loop the loop of `if`. -/
theorem whileLoop_eq_ifLoop
    (hstatus : ∀ t u, LoopHead sem false cond body s t → cond t = some (.ok (), u) →
      sem.getStatus u = 0 ∨ sem.getStatus u = 1) :
    ∀ n t, LoopHead sem false cond body s t →
      whileLoop sem false cond body n t = ifLoop sem cond body n t := by
  intro n
  induction n with
  | zero => exact fun _ _ => rfl
  | succ n ih =>
    intro t ht
    unfold whileLoop ifLoop
    refine bind_congr_at (loopTest_eq_elifTest (hstatus t · ht)) fun runs u htest => ?_
    cases runs with
    | false => rfl
    | true =>
      refine bind_congr_at rfl fun again v hpass => ?_
      cases again with
      | false => rfl
      | true => exact ih v (.next ht htest hpass)

end Passes

/-! ## Agreement -/

/-- Everything that is guarded by the condition list `cond` decides by the
truth of the status that `cond` leaves, in every pass from `s` on. -/
structure AgreeOnTruth (sem : LeafSem X S) (n : Nat) (cond body : CommandList X) (s : S) :
    Prop where
  whilePass : ∀ t u, LoopHead sem false (execList sem n cond) (execList sem n body) s t →
    execList sem n cond t = some (.ok (), u) →
      loopTest sem false (execList sem n cond) t = some (.ok (truth (sem.getStatus u)), u)
  untilPass : ∀ t u, LoopHead sem true (execList sem n cond) (execList sem n body) s t →
    execList sem n cond t = some (.ok (), u) →
      loopTest sem true (execList sem n cond) t = some (.ok (!truth (sem.getStatus u)), u)
  untilBang : ∀ t u, execList sem n cond t = some (.ok (), u) →
    (!loopStops true (bangStatus (sem.getStatus u))) = truth (sem.getStatus u)
  ifTest : ∀ t u, execList sem n cond t = some (.ok (), u) →
    elifTest sem (execList sem n cond) t = some (.ok (truth (sem.getStatus u)), u)
  logic : ∀ isAnd (left : LogicCommand X) (right : Command X) t u,
    execLogic sem n left t = some (.ok (), u) →
      execLogic sem n (.logic isAnd left right) t =
        if truth (sem.getStatus u) == isAnd then execCommand sem n right u else some (.ok (), u)
  whileRun : execCompound sem n (.loop false cond body) s =
    ifLoop sem (execList sem n cond) (execList sem n body) n s

theorem execLogic_of_ok {sem : LeafSem X S} {n : Nat} {isAnd : Bool} {left : LogicCommand X}
    {right : Command X} {t u : S} (h : execLogic sem n left t = some (.ok (), u)) :
    execLogic sem n (.logic isAnd left right) t =
      if truth (sem.getStatus u) == isAnd then execCommand sem n right u
      else some (.ok (), u) := by
  rw [execLogic, bind_of_ok h]
  simp only [getStatus, reads_bind_apply, logicRuns_eq_truth]
  split_ifs <;> rfl

/-- `while` agrees with `until`, `if`, `&&` and `||` exactly when every status
its condition list leaves is 0 or 1. -/
theorem agreeOnTruth_iff (sem : LeafSem X S) (n : Nat) (cond body : CommandList X) (s : S) :
    AgreeOnTruth sem n cond body s ↔
      ∀ t u, LoopHead sem false (execList sem n cond) (execList sem n body) s t →
        execList sem n cond t = some (.ok (), u) →
          sem.getStatus u = 0 ∨ sem.getStatus u = 1 := by
  constructor
  · intro h t u ht hc
    have hpass := h.whilePass t u ht hc
    rw [loopTest_of_ok hc] at hpass
    simp only [Option.some.injEq, Prod.mk.injEq, Except.ok.injEq, and_true] at hpass
    exact (loopStops_while_iff _).mp (by rw [← hpass, Bool.not_not])
  · intro hstatus
    refine ⟨?_, ?_, ?_, ?_, ?_, ?_⟩
    · intro t u ht hc
      rw [loopTest_of_ok hc, (loopStops_while_iff _).mpr (hstatus t u ht hc), Bool.not_not]
    · intro t u _ hc
      rw [loopTest_of_ok hc, loopStops_until]
    · intro t u _
      rw [loopStops_until_bang, Bool.not_not]
    · intro t u hc
      rw [elifTest_of_ok hc, elifMatches_eq_truth]
    · exact fun _ _ _ _ _ h => execLogic_of_ok h
    · rw [execCompound]
      exact whileLoop_eq_ifLoop hstatus n s (.entry s)

/-- `f() { return 2; }; while f; do break 1; done` enters its body. -/
theorem not_agreeOnTruth_two : ¬ AgreeOnTruth statusSem 1 (simpleList "return" ["2"])
    (simpleList "break" ["1"]) 0 := by
  intro h
  have hcond : execList statusSem 1 (simpleList "return" ["2"]) 0 = some (.ok (), 2) := by decide
  have hpass := h.whilePass 0 2 (.entry 0) hcond
  rw [loopTest_of_ok hcond] at hpass
  revert hpass
  decide

end Libbash
