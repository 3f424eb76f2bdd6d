import Libbash.Walker.Conditions
import Libbash.Interp.Commands

/-!
# Conditions of the interpreter

The rules for conditions of the interpreter follow syntax trees. Here they are
what the walk over the node stream needs below its own rules (`conditionSem`),
and on the condition that the parser reads out of a text they compute the same
value (`Condition.run_keywordCondition`).
-/

namespace Libbash

open Lib Lib.Comp Lib.Program

/-- The rules below `common_condition`, given what a node of type `STRING` is as
a word and as a pattern. -/
def conditionSem (host : Host) (n d : Nat) (asWord : rawLeaves.Word → Word)
    (asPattern : rawLeaves.Word → List PatternToken) : ConditionSem Interpreter where
  setStatus status s := { s with status := status }
  stringExpr w := do
    let v ← runShell host n d (Shell.stringExpr host (asWord w))
    pure v.value
  Pattern := List RegexToken
  bashPattern w := runShell host n d (Shell.bashPattern host none (asPattern w))
  isMatch text regex := host.regexMatch false regex text
  testBinary op l r := runShell host n d (Shell.testBinary host op l r)
  testUnary op target := runShell host n d (Shell.testUnary host op target)
  matchRegularExpression l r := runShell host n d do
    let pattern ← perform (.interpretWord false r)
    Shell.ofExcept (host.compileMatch pattern l)

namespace Written

section Parsed

variable (asWord : rawLeaves.Word → Word) (asPattern : rawLeaves.Word → List PatternToken)

/-- The syntax of a primary without connectives. -/
def Leaf.parsed : Leaf → KeywordCondition
  | .unary op w => .common (.unary op (asWord (word w.lexemes)))
  | .string w => .common (.string (asWord (word w.lexemes)))
  | .binary op _ _ left right =>
    let l := asWord (word left.lexemes)
    let r := word right.lexemes
    match op with
    | .matchRegularExpression => .matchRegularExpression l (asWord r)
    | .named name => .common (.binary name l (asWord r))
    | .notMatchPattern => .common (.matchPattern true l (asPattern r))
    | .matchPattern => .common (.matchPattern false l (asPattern r))
    | .equals => .common (.compare .equals l (asWord r))
    | .lessThan => .common (.compare .lessThan l (asWord r))
    | .greaterThan => .common (.compare .greaterThan l (asWord r))

mutual

def Primary.parsed : Primary → KeywordCondition
  | .group _ c _ => c.parsed
  | .negation p => .negation p.parsed
  | .leaf l => l.parsed asWord asPattern

def Conjunction.parsed : Conjunction → KeywordCondition
  | .last p => p.parsed
  | .cons p _ _ rest => rest.parsedFrom p.parsed

/-- As `treeFrom`. -/
def Conjunction.parsedFrom (l : KeywordCondition) : Conjunction → KeywordCondition
  | .last p => .logicAnd l p.parsed
  | .cons p _ _ rest => rest.parsedFrom (.logicAnd l p.parsed)

def Condition.parsed : Condition → KeywordCondition
  | .last a => a.parsed
  | .cons a _ _ rest => rest.parsedFrom a.parsed

def Condition.parsedFrom (l : KeywordCondition) : Condition → KeywordCondition
  | .last a => .logicOr l a.parsed
  | .cons a _ _ rest => rest.parsedFrom (.logicOr l a.parsed)

end

end Parsed

section Run

variable {host : Host} {n d : Nat} {asWord : rawLeaves.Word → Word}
  {asPattern : rawLeaves.Word → List PatternToken}

/-- What the interpreter makes of a condition. -/
def Runs (host : Host) (n d : Nat) (c : KeywordCondition) (m : Comp Exn Interpreter Bool) : Prop :=
  runShell host n d (Shell.keywordCondition host c) = m

theorem Leaf.runs (l : Leaf) : Runs host n d (l.parsed asWord asPattern)
    (l.value (conditionSem host n d asWord asPattern)) := by
  cases l with
  | unary op w =>
    simp only [Runs, Leaf.parsed, Shell.keywordCondition, Shell.commonCondition, runShell_bind,
      Leaf.value, conditionSem, bind_assoc, pure_bind]
  | string w =>
    simp only [Runs, Leaf.parsed, Shell.keywordCondition, Shell.commonCondition, runShell_bind,
      runShell_pure, Leaf.value, conditionSem, bind_assoc, pure_bind]
  | binary op before after left right =>
    cases op <;>
      simp [Runs, Leaf.parsed, Shell.keywordCondition, Shell.commonCondition,
        Leaf.value, conditionSem, Shell.compareStrings]

theorem Runs.logicAnd {l r : KeywordCondition} {ml mr : Comp Exn Interpreter Bool}
    (hl : Runs host n d l ml) (hr : Runs host n d r mr) :
    Runs host n d (.logicAnd l r) (andAlso ml mr) := by
  unfold Runs at hl hr ⊢
  rw [Shell.keywordCondition, runShell_bind, hl, andAlso]
  congr 1
  funext v
  cases v with
  | true => exact hr
  | false => rfl

theorem Runs.logicOr {l r : KeywordCondition} {ml mr : Comp Exn Interpreter Bool}
    (hl : Runs host n d l ml) (hr : Runs host n d r mr) :
    Runs host n d (.logicOr l r) (orAlso ml mr) := by
  unfold Runs at hl hr ⊢
  rw [Shell.keywordCondition, runShell_bind, hl, orAlso]
  congr 1
  funext v
  cases v with
  | true => rfl
  | false => exact hr

theorem Runs.negation {l : KeywordCondition} {m : Comp Exn Interpreter Bool}
    (hl : Runs host n d l m) : Runs host n d (.negation l) (m >>= fun v => pure (!v)) := by
  unfold Runs at hl ⊢
  rw [Shell.keywordCondition, runShell_bind, hl]
  rfl

mutual

theorem Primary.runs : (p : Primary) → Runs host n d (p.parsed asWord asPattern)
    (p.value (conditionSem host n d asWord asPattern))
  | .group before c after => by
    rw [Primary.parsed, Primary.value]
    exact c.runs
  | .negation p => by
    rw [Primary.parsed, Primary.value]
    exact p.runs.negation
  | .leaf l => by
    rw [Primary.parsed, Primary.value]
    exact l.runs

theorem Conjunction.runs : (a : Conjunction) → Runs host n d (a.parsed asWord asPattern)
    (a.value (conditionSem host n d asWord asPattern))
  | .last p => by
    rw [Conjunction.parsed, Conjunction.value]
    exact p.runs
  | .cons p _ _ rest => by
    rw [Conjunction.parsed, Conjunction.value]
    exact rest.runsFrom p.runs

theorem Conjunction.runsFrom {l : KeywordCondition} {m : Comp Exn Interpreter Bool} :
    (a : Conjunction) → Runs host n d l m → Runs host n d (a.parsedFrom asWord asPattern l)
      (andAlso m (a.value (conditionSem host n d asWord asPattern)))
  | .last p, h => by
    rw [Conjunction.parsedFrom, Conjunction.value]
    exact h.logicAnd p.runs
  | .cons p _ _ rest, h => by
    rw [Conjunction.parsedFrom, Conjunction.value, ← andAlso_assoc]
    exact rest.runsFrom (h.logicAnd p.runs)

theorem Condition.runs : (c : Condition) → Runs host n d (c.parsed asWord asPattern)
    (c.value (conditionSem host n d asWord asPattern))
  | .last a => by
    rw [Condition.parsed, Condition.value]
    exact a.runs
  | .cons a _ _ rest => by
    rw [Condition.parsed, Condition.value]
    exact rest.runsFrom a.runs

theorem Condition.runsFrom {l : KeywordCondition} {m : Comp Exn Interpreter Bool} :
    (c : Condition) → Runs host n d l m → Runs host n d (c.parsedFrom asWord asPattern l)
      (orAlso m (c.value (conditionSem host n d asWord asPattern)))
  | .last a, h => by
    rw [Condition.parsedFrom, Condition.value]
    exact h.logicOr a.runs
  | .cons a _ _ rest, h => by
    rw [Condition.parsedFrom, Condition.value, ← orAlso_assoc]
    exact rest.runsFrom (h.logicOr a.runs)

end

/-- Walking the tree of a test does to the interpreter what its own rule for
conditions does. -/
theorem Test.walks_keywordCondition (t : Test) {toks : NodeStream}
    {crash : Nat → Interpreter → Exn → Nat} :
    ∃ bound, ∀ k, bound ≤ k → ∀ i rest, OnTree toks i (t.tree.stream ++ rest) →
      Moves i (i + t.tree.stream.length)
        (Walker.condExpr toks (conditionSem host n d asWord asPattern) crash k)
        (do
          let holds ← runShell host n d
            (Shell.keywordCondition host (t.condition.parsed asWord asPattern))
          update fun s => { s with status := if holds then 0 else 1 }) := by
  have hrun : runShell host n d
      (Shell.keywordCondition host (t.condition.parsed asWord asPattern)) =
        t.condition.value (conditionSem host n d asWord asPattern) := t.condition.runs
  rw [hrun]
  exact t.walks _ toks crash

end Run

end Written

end Libbash
