import Libbash.Interp.Reading

/-!
# Tests whether a parameter is set

`is_unset` looks a name up among the global variables, and knows no index;
`resolve` looks it up in the frames too. `setTestsAgree_iff` says in which states
the expansions that test a parameter, and `declare -p`, agree with `resolve`.
-/

namespace Libbash

open Lib Lib.Comp Lib.Program

/-- The tests of a parameter agree with resolving it. -/
structure SetTestsAgree (host : Host) (n d : Nat) (name : String) (index : UInt32)
    (s : Interpreter) : Prop where
  /-- `${p-w}`. -/
  default : ∀ word, runShell host n d (Shell.defaultExpansion false (name, index) word) s =
    some (.ok ((s.store.parameter name index).getD word), s)
  /-- `${p=w}`, which assigns only when the parameter is not set. -/
  assign : ∀ word, runShell host n d (Shell.assignExpansion false (name, index) word) s =
    match s.store.parameter name index with
    | some value => some (.ok value, s)
    | none => runShell host n d (Shell.setString name word index) s
  /-- `${p+w}`. -/
  alternate : ∀ word, runShell host n d (Shell.alternateExpansion false (name, index) word) s =
    some (.ok (if (s.store.parameter name index).isSome then word else ""), s)
  /-- The test of `declare -p`. -/
  declared : runShell host n d (Shell.isUnset name) s =
    some (.ok (s.store.resolveVariable name).isNone, s)

section SetTests

variable {host : Host} {n d : Nat} {name : String} {index : UInt32} {s : Interpreter}

theorem run_isUnset : runShell host n d (Shell.isUnset name) s =
    some (.ok s.store.members[name]?.isNone, s) := rfl

/-- The ends of the expansions, by the answer of the test. -/
theorem run_defaultExpansion (word : String) :
    runShell host n d (Shell.defaultExpansion false (name, index) word) s =
      if s.store.members[name]?.isNone then some (.ok word, s)
      else runShell host n d (Shell.resolveString name index) s := by
  unfold Shell.defaultExpansion Shell.unsetTest Shell.doDefaultExpansion
  rw [runShell_bind, if_neg Bool.false_ne_true, bind_of_ok run_isUnset]
  split_ifs <;> rfl

theorem run_assignExpansion (word : String) :
    runShell host n d (Shell.assignExpansion false (name, index) word) s =
      if s.store.members[name]?.isNone then runShell host n d (Shell.setString name word index) s
      else runShell host n d (Shell.resolveString name index) s := by
  unfold Shell.assignExpansion Shell.unsetTest Shell.doAssignExpansion
  rw [runShell_bind, if_neg Bool.false_ne_true, bind_of_ok run_isUnset]
  split_ifs <;> rfl

theorem run_alternateExpansion (word : String) :
    runShell host n d (Shell.alternateExpansion false (name, index) word) s =
      some (.ok (if s.store.members[name]?.isNone then "" else word), s) := by
  unfold Shell.alternateExpansion Shell.unsetTest Shell.doAlternateExpansion
  rw [runShell_bind, if_neg Bool.false_ne_true, bind_of_ok run_isUnset]
  rfl

/-- For every stack of frames, every name and every index. -/
theorem setTestsAgree_iff (host : Host) (n d : Nat) (name : String) (index : UInt32)
    (s : Interpreter) :
    SetTestsAgree host n d name index s ↔
      s.store.members[name]?.isNone = (s.store.parameter name index).isNone ∧
        s.store.members[name]?.isNone = (s.store.resolveVariable name).isNone := by
  constructor
  · intro h
    -- The word of `+` shows which of the two the test looks at.
    have halternate := h.alternate "w"
    have hdeclared := h.declared
    rw [run_alternateExpansion] at halternate
    rw [run_isUnset] at hdeclared
    refine ⟨?_, Except.ok.inj (Prod.mk.inj (Option.some.inj hdeclared)).1⟩
    have hvalue := Except.ok.inj (Prod.mk.inj (Option.some.inj halternate)).1
    rw [← Option.not_isNone] at hvalue
    cases hm : s.store.members[name]?.isNone <;>
      cases hp : (s.store.parameter name index).isNone <;> simp [hm, hp] at hvalue ⊢
  · rintro ⟨hset, hresolves⟩
    have hword : ∀ word, (if (s.store.parameter name index).isSome then word else "") =
        if s.store.members[name]?.isNone then "" else word := by
      intro word
      rw [hset, ← Option.not_isNone]
      cases (s.store.parameter name index).isNone <;> rfl
    have hdeclared : runShell host n d (Shell.isUnset name) s =
        some (.ok (s.store.resolveVariable name).isNone, s) := by
      rw [run_isUnset, hresolves]
    have halternate : ∀ word, runShell host n d (Shell.alternateExpansion false (name, index) word) s =
        some (.ok (if (s.store.parameter name index).isSome then word else ""), s) := by
      intro word
      rw [run_alternateExpansion, hword]
    cases hp : s.store.parameter name index with
    | none =>
      rw [hp] at hset
      refine ⟨fun word => ?_, fun word => ?_, halternate, hdeclared⟩
      · rw [run_defaultExpansion, hset, hp]
        rfl
      · rw [run_assignExpansion, hset, hp]
        rfl
    | some value =>
      rw [hp] at hset
      have hresolve : runShell host n d (Shell.resolveString name index) s = some (.ok value, s) :=
        run_resolveString_of_set hp
      refine ⟨fun word => ?_, fun word => ?_, halternate, hdeclared⟩
      · rw [run_defaultExpansion, hset, hp, if_neg (by simp), hresolve]
        rfl
      · rw [run_assignExpansion, hset, hp, if_neg (by simp), hresolve]

end SetTests

/-- In a function that has been called with the argument `a`. -/
def calledWithA : Interpreter :=
  { Interpreter.initial [] with
    store := { members := initialMembers
               localMembers := [(∅ : Scope).insert "*"
                 (.new "*" (.array (positionalArgs ["a"])) false)] } }

/-- `${1-w}`. -/
theorem not_setTestsAgree_calledWithA :
    calledWithA.store.parameter "*" 1 = some "a" ∧
      runShell (.ofTexts [] []) 0 0 (Shell.defaultExpansion false ("*", 1) "w") calledWithA =
        some (.ok "w", calledWithA) ∧
      ¬SetTestsAgree (.ofTexts [] []) 0 0 "*" 1 calledWithA := by
  have hset : calledWithA.store.parameter "*" 1 = some "a" := by decide +kernel
  have hrun : runShell (.ofTexts [] []) 0 0 (Shell.defaultExpansion false ("*", 1) "w") calledWithA =
      some (.ok "w", calledWithA) := by
    rw [run_defaultExpansion, if_pos (by decide +kernel)]
  refine ⟨hset, hrun, fun h => ?_⟩
  have hdefault := h.default "w"
  rw [hrun, hset] at hdefault
  exact absurd (Except.ok.inj (Prod.mk.inj (Option.some.inj hdefault)).1) (by decide)

end Libbash
