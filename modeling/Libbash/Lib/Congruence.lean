import Libbash.Lib.Computation

/-!
# Relations that the combinators keep

A `Congruence` relates computations over the same state, and what is built from
related parts is related. `Extends` says that the second computation ends
wherever the first one does, in the same way; it carries a bound on recursion
upwards. `Parts` says that the two do the same unless they both stop at the same
point, each with an exception of its own.
-/

namespace Lib

namespace Comp

variable {E S T α β : Type}

structure Congruence (R : ∀ S α : Type, Comp E S α → Comp E S α → Prop) : Prop where
  refl : ∀ {S α : Type} (m : Comp E S α), R S α m m
  bind : ∀ {S α β : Type} {m m' : Comp E S α} {f f' : α → Comp E S β}, R S α m m' →
    (∀ a, R S β (f a) (f' a)) → R S β (m >>= f) (m' >>= f')
  zoom : ∀ {S T α : Type} {get : S → T} {set : T → S → S} {m m' : Comp E T α}, R T α m m' →
    R S α (zoom get set m) (zoom get set m')

namespace Congruence

variable {R : ∀ S α : Type, Comp E S α → Comp E S α → Prop} (C : Congruence R)
include C

/-- A common first step. -/
theorem step (m : Comp E S α) {f f' : α → Comp E S β} (h : ∀ a, R S β (f a) (f' a)) :
    R S β (m >>= f) (m >>= f') := C.bind (C.refl m) h

/-- A common end. -/
theorem before {m m' : Comp E S α} (h : R S α m m') (f : α → Comp E S β) :
    R S β (m >>= f) (m' >>= f) := C.bind h fun a => C.refl (f a)

end Congruence

theorem related_ite {R : ∀ S α : Type, Comp E S α → Comp E S α → Prop} (c : Prop) [Decidable c]
    {m m' n n' : Comp E S α} (h : R S α m m') (h' : R S α n n') :
    R S α (if c then m else n) (if c then m' else n') := by
  by_cases hc : c
  · rw [if_pos hc, if_pos hc]
    exact h
  · rw [if_neg hc, if_neg hc]
    exact h'

/-! ## More outcomes -/

/-- Where `m` ends, `m'` ends the same way. -/
def Extends (S α : Type) (m m' : Comp E S α) : Prop :=
  ∀ s out, m s = some out → m' s = some out

theorem extends_diverge (m : Comp E S α) : Extends S α diverge m := by
  intro s out h
  cases h

theorem Extends.trans {m₁ m₂ m₃ : Comp E S α} (h : Extends S α m₁ m₂) (h' : Extends S α m₂ m₃) :
    Extends S α m₁ m₃ := fun s out hs => h' s out (h s out hs)

theorem congruence_extends : @Congruence E Extends where
  refl _ _ _ h := h
  bind := by
    intro S α β m m' f f' hm hf s out h
    cases hs : m s with
    | none =>
      rw [bind_of_none hs] at h
      cases h
    | some first =>
      obtain ⟨r, s'⟩ := first
      cases r with
      | error e =>
        rw [bind_of_error hs] at h
        rw [bind_of_error (hm s _ hs)]
        exact h
      | ok a =>
        rw [bind_of_ok hs] at h
        rw [bind_of_ok (hm s _ hs)]
        exact hf a s' out h
  zoom := by
    intro S T α get set m m' hm s out h
    unfold Comp.zoom at h ⊢
    cases hs : m (get s) with
    | none =>
      rw [hs] at h
      cases h
    | some first =>
      rw [hs] at h
      rw [hm _ _ hs]
      exact h

/-! ## A parting -/

/-- The two do the same, or both stop in the same state, the first with an
exception of `B` and the second with one of `B'`. -/
def Parts (B B' : E → Prop) (S α : Type) (m m' : Comp E S α) : Prop :=
  ∀ s, m s = m' s ∨
    ∃ e e' t, B e ∧ B' e' ∧ m s = some (.error e, t) ∧ m' s = some (.error e', t)

theorem parts_raise {B B' : E → Prop} {e e' : E} (h : B e) (h' : B' e') :
    Parts B B' S α (throw e) (throw e') := fun s => .inr ⟨e, e', s, h, h', rfl, rfl⟩

theorem congruence_parts (B B' : E → Prop) : Congruence (Parts B B') where
  refl _ _ := .inl rfl
  bind := by
    intro S α β m m' f f' hm hf s
    rcases hm s with heq | ⟨e, e', t, hB, hB', hs, hs'⟩
    · cases hs : m s with
      | none =>
        rw [bind_of_none hs, bind_of_none (heq.symm.trans hs)]
        exact .inl rfl
      | some first =>
        obtain ⟨r, s'⟩ := first
        cases r with
        | error e =>
          rw [bind_of_error hs, bind_of_error (heq.symm.trans hs)]
          exact .inl rfl
        | ok a =>
          rw [bind_of_ok hs, bind_of_ok (heq.symm.trans hs)]
          exact hf a s'
    · exact .inr ⟨e, e', t, hB, hB', bind_of_error hs f, bind_of_error hs' f'⟩
  zoom := by
    intro S T α get set m m' hm s
    unfold Comp.zoom
    rcases hm (get s) with heq | ⟨e, e', t, hB, hB', hs, hs'⟩
    · rw [heq]
      exact .inl rfl
    · rw [hs, hs']
      exact .inr ⟨e, e', set t s, hB, hB', rfl, rfl⟩

end Comp

end Lib
