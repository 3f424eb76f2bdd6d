import Libbash.Lib.Computation

/-!
# Simulation between two computations

`Sim P Q X w m` says that the concrete `w` does what the abstract `m` does:
from states related by `P`, it diverges when `m` diverges, ends normally in
`Q`-related states when `m` does, and raises the same exception in
`X`-related states when `m` raises. The rules follow the combinators, so a
simulation of two programs is built along their text.
-/

namespace Lib

namespace Comp

variable {E S T α β γ δ : Type}

/-- `w` over `S` does what `m` over `T` does, from `P`-related states. -/
def Sim (P : S → T → Prop) (Q : α → β → S → T → Prop) (X : S → T → Prop)
    (w : Comp E S α) (m : Comp E T β) : Prop :=
  ∀ s t, P s t →
    match m t with
    | none => w s = none
    | some (.ok b, t') => ∃ a s', w s = some (.ok a, s') ∧ Q a b s' t'
    | some (.error e, t') => ∃ s', w s = some (.error e, s') ∧ X s' t'

variable {P P' : S → T → Prop} {X X' : S → T → Prop}

theorem Sim.diverges {Q : α → β → S → T → Prop} {w : Comp E S α} {m : Comp E T β}
    (h : Sim P Q X w m) {s : S} {t : T} (hp : P s t) (hm : m t = none) : w s = none := by
  have := h s t hp
  rwa [hm] at this

theorem Sim.finishes {Q : α → β → S → T → Prop} {w : Comp E S α} {m : Comp E T β}
    (h : Sim P Q X w m) {s : S} {t t' : T} {b : β} (hp : P s t)
    (hm : m t = some (.ok b, t')) : ∃ a s', w s = some (.ok a, s') ∧ Q a b s' t' := by
  have := h s t hp
  rwa [hm] at this

theorem Sim.raises {Q : α → β → S → T → Prop} {w : Comp E S α} {m : Comp E T β}
    (h : Sim P Q X w m) {s : S} {t t' : T} {e : E} (hp : P s t)
    (hm : m t = some (.error e, t')) : ∃ s', w s = some (.error e, s') ∧ X s' t' := by
  have := h s t hp
  rwa [hm] at this

/-- A simulation from its three outcomes. -/
theorem Sim.intro {Q : α → β → S → T → Prop} {w : Comp E S α} {m : Comp E T β}
    (hnone : ∀ s t, P s t → m t = none → w s = none)
    (hok : ∀ s t b t', P s t → m t = some (.ok b, t') →
      ∃ a s', w s = some (.ok a, s') ∧ Q a b s' t')
    (herr : ∀ s t e t', P s t → m t = some (.error e, t') →
      ∃ s', w s = some (.error e, s') ∧ X s' t') : Sim P Q X w m := by
  intro s t hp
  cases hm : m t with
  | none => exact hnone s t hp hm
  | some out =>
    obtain ⟨r, t'⟩ := out
    cases r with
    | ok b => exact hok s t b t' hp hm
    | error e => exact herr s t e t' hp hm

theorem sim_pure {Q : α → β → S → T → Prop} {a : α} {b : β}
    (h : ∀ s t, P s t → Q a b s t) :
    Sim P Q X (pure a : Comp E S α) (pure b : Comp E T β) :=
  fun s t hp => ⟨a, s, rfl, h s t hp⟩

theorem sim_throw {Q : α → β → S → T → Prop} {e : E} (h : ∀ s t, P s t → X s t) :
    Sim P Q X (throw e : Comp E S α) (throw e : Comp E T β) :=
  fun s t hp => ⟨s, rfl, h s t hp⟩

theorem sim_diverge {Q : α → β → S → T → Prop} :
    Sim P Q X (diverge : Comp E S α) (diverge : Comp E T β) :=
  fun _ _ _ => rfl

theorem sim_bind {R : α → β → S → T → Prop} {Q : γ → δ → S → T → Prop}
    {w : Comp E S α} {m : Comp E T β} {f : α → Comp E S γ} {g : β → Comp E T δ}
    (h : Sim P R X w m) (hk : ∀ a b, Sim (R a b) Q X (f a) (g b)) :
    Sim P Q X (w >>= f) (m >>= g) := by
  intro s t hp
  cases hm : m t with
  | none =>
    rw [bind_of_none hm]
    exact bind_of_none (h.diverges hp hm) f
  | some out =>
    obtain ⟨r, t'⟩ := out
    cases r with
    | ok b =>
      obtain ⟨a, s', hw, hr⟩ := h.finishes hp hm
      rw [bind_of_ok hm, bind_of_ok hw]
      exact hk a b s' t' hr
    | error e =>
      obtain ⟨s', hw, hx⟩ := h.raises hp hm
      rw [bind_of_error hm]
      exact ⟨s', bind_of_error hw f, hx⟩

/-- A guarded body that hands a constant on: what follows a normal end and what
follows the handler are simulated each on its own. -/
theorem sim_tryCatch_bind {α' β' : Type} {R : α → β → S → T → Prop}
    {Q : γ → δ → S → T → Prop} {w : Comp E S α} {m : Comp E T β} {x : α'} {y : β'}
    {j : E → Comp E S α'} {k : E → Comp E T β'} {f : α' → Comp E S γ} {g : β' → Comp E T δ}
    (h : Sim P R X' w m) (hok : ∀ a b, Sim (R a b) Q X (f x) (g y))
    (herr : ∀ e, Sim X' Q X (j e >>= f) (k e >>= g)) :
    Sim P Q X (tryCatch (w >>= fun _ => pure x) j >>= f)
      (tryCatch (m >>= fun _ => pure y) k >>= g) := by
  intro s t hp
  cases hm : m t with
  | none =>
    rw [bind_of_none (tryCatch_of_none (bind_of_none hm _) k)]
    exact bind_of_none (tryCatch_of_none (bind_of_none (h.diverges hp hm) _) j) f
  | some out =>
    obtain ⟨r, t'⟩ := out
    cases r with
    | ok b =>
      obtain ⟨a, s', hw, hr⟩ := h.finishes hp hm
      have hm' : tryCatch (m >>= fun _ => pure y) k t = some (.ok y, t') :=
        tryCatch_of_ok (bind_of_ok hm _) k
      have hw' : tryCatch (w >>= fun _ => pure x) j s = some (.ok x, s') :=
        tryCatch_of_ok (bind_of_ok hw _) j
      rw [bind_of_ok hm', bind_of_ok hw']
      exact hok a b s' t' hr
    | error e =>
      obtain ⟨s', hw, hx⟩ := h.raises hp hm
      have hcatch := herr e s' t' hx
      rw [tryCatch_bind_of_error (bind_of_error hm _),
        tryCatch_bind_of_error (bind_of_error hw _)]
      exact hcatch

/-- A step that only the concrete side makes. -/
theorem sim_step {R : α → S → T → Prop} {Q : γ → δ → S → T → Prop}
    {w : Comp E S α} {f : α → Comp E S γ} {m : Comp E T δ}
    (h : ∀ s t, P s t → ∃ a s', w s = some (.ok a, s') ∧ R a s' t)
    (hk : ∀ a, Sim (R a) Q X (f a) m) : Sim P Q X (w >>= f) m := by
  intro s t hp
  obtain ⟨a, s', hw, hr⟩ := h s t hp
  rw [bind_of_ok hw]
  exact hk a s' t hr

/-- A simulation from weaker related states is one from stronger ones. -/
theorem Sim.before {Q : α → β → S → T → Prop} {w : Comp E S α} {m : Comp E T β}
    (h : Sim P' Q X w m) (hp : ∀ s t, P s t → P' s t) : Sim P Q X w m :=
  fun s t hpt => h s t (hp s t hpt)

end Comp

end Lib
