import Libbash.Lib.Precedence
import Mathlib.Order.Filter.AtTopBot.Basic

/-!
# Recursive descent

A parser with a rule for each name, whose rules call each other without a bound
on the depth. `body` gives each rule in terms of the rules it calls, and
`descend body d` are the rules that may be `d` calls deep.

* **`descend_sound`** — when the rules derive something from what the rules they call
  derive, they only read what can be derived;
* **`Finds.of_body`** — a rule finds what it reads with rules that are deep enough.
-/

namespace Lib

open Filter

variable {R T V : Type}

/-- A rule for each name. -/
abbrev Rules (R T V : Type) := R → Rule T V

/-- Which results a name derives from the tokens up to which. -/
abbrev Derivation (R T V : Type) := R → List T → V → List T → Prop

/-- The rules, `d` calls deep. -/
def descend (body : Rules R T V → Rules R T V) : Nat → Rules R T V
  | 0 => fun _ _ => none
  | d + 1 => body (descend body d)

/-- What the rules read can be derived. -/
def Rules.Sound (rules : Rules R T V) (D : Derivation R T V) : Prop :=
  ∀ {r ts v us}, rules r ts = some (v, us) → D r ts v us

theorem descend_sound {body : Rules R T V → Rules R T V} {D : Derivation R T V}
    (h : ∀ rules : Rules R T V, rules.Sound D → (body rules).Sound D) (d : Nat) :
    (descend body d).Sound D := by
  induction d with
  | zero =>
    intro r ts v us hread
    cases hread
  | succ d ih => exact h _ ih

/-- At any depth that is great enough, the rule reads this. -/
def Finds (body : Rules R T V → Rules R T V) : Derivation R T V :=
  fun r ts v us => ∀ᶠ d in atTop, descend body d r ts = some (v, us)

variable {body : Rules R T V → Rules R T V} {r : R} {ts us : List T} {v : V}

theorem Finds.of_body (h : ∀ᶠ d in atTop, body (descend body d) r ts = some (v, us)) :
    Finds body r ts v us := by
  obtain ⟨bound, hbound⟩ := eventually_atTop.mp h
  refine eventually_atTop.mpr ⟨bound + 1, fun d hd => ?_⟩
  obtain ⟨d, rfl⟩ : ∃ k, d = k + 1 := ⟨d - 1, by omega⟩
  exact hbound d (by omega)

end Lib
