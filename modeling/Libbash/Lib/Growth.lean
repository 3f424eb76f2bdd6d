import Mathlib.Data.List.Basic
import Mathlib.Tactic.Basic

/-!
# Lists that grow

A list of resources to which new ones are added at the end, while those that are
there change in one direction only, and only at the places `w`.

* **`Accumulates.trans`** — a place that was not there before does not count;
* **`accumulates_append`**, **`accumulates_set`**, **`accumulates_modify`** — the steps;
* **`Accumulates.unwritten`** — the other places are as they were.
-/

namespace Lib

variable {A : Type} {R : A → A → Prop} {w w' : Nat → Prop} {l l₁ l' : List A}

/-- Every resource of `l` has its place in `l'`, related by `R`, and is the same
outside of `w`. -/
def Accumulates (R : A → A → Prop) (w : Nat → Prop) (l l' : List A) : Prop :=
  ∀ i a, l[i]? = some a → ∃ a', l'[i]? = some a' ∧ R a a' ∧ (w i ∨ a' = a)

theorem Accumulates.length_le (h : Accumulates R w l l') : l.length ≤ l'.length := by
  by_contra hlt
  have hin : l'.length < l.length := by omega
  obtain ⟨a', ha', -⟩ := h l'.length _ (List.getElem?_eq_getElem hin)
  rw [List.getElem?_eq_none (Nat.le_refl _)] at ha'
  cases ha'

theorem Accumulates.unwritten (h : Accumulates R w l l') {i : Nat} (hi : i < l.length) (hw : ¬ w i) :
    l'[i]? = l[i]? := by
  obtain ⟨a', ha', -, hsame⟩ := h i _ (List.getElem?_eq_getElem hi)
  rw [ha', List.getElem?_eq_getElem hi, hsame.resolve_left hw]

theorem Accumulates.mono (h : Accumulates R w l l') (hw : ∀ i, i < l.length → w i → w' i) :
    Accumulates R w' l l' := by
  intro i a ha
  obtain ⟨a', ha', hR, hsame⟩ := h i a ha
  exact ⟨a', ha', hR, hsame.imp_left (hw i (List.getElem?_eq_some_iff.mp ha).1)⟩

theorem accumulates_refl (hR : ∀ a, R a a) (l : List A) : Accumulates R w l l :=
  fun _ a ha => ⟨a, ha, hR a, .inr rfl⟩

/-- What is written later at a place of `l` was open to writing from the beginning. -/
theorem Accumulates.trans (hR : ∀ {a b c}, R a b → R b c → R a c) (h : Accumulates R w l l₁)
    (h' : Accumulates R w' l₁ l') (hw : ∀ i, i < l.length → w' i → w i) : Accumulates R w l l' := by
  intro i a ha
  obtain ⟨b, hb, hab, hsame⟩ := h i a ha
  obtain ⟨c, hc, hbc, hsame'⟩ := h' i b hb
  refine ⟨c, hc, hR hab hbc, ?_⟩
  rcases hsame with hi | rfl
  · exact .inl hi
  · exact hsame'.imp_left (hw i (List.getElem?_eq_some_iff.mp ha).1)

theorem accumulates_append (hR : ∀ a, R a a) (l m : List A) : Accumulates R w l (l ++ m) :=
  fun i a ha =>
    ⟨a, by rw [List.getElem?_append_left (List.getElem?_eq_some_iff.mp ha).1, ha], hR a, .inr rfl⟩

theorem accumulates_modify (hR : ∀ a, R a a) {f : A → A} (hf : ∀ a, R a (f a)) {i : Nat} (hw : w i) :
    Accumulates R w l (l.modify i f) := by
  intro j a ha
  rw [List.getElem?_modify]
  by_cases hij : i = j
  · subst hij
    exact ⟨f a, by simp [ha], hf a, .inl hw⟩
  · exact ⟨a, by simp [ha, hij], hR a, .inr rfl⟩

theorem accumulates_set (hR : ∀ a, R a a) {b : A} {i : Nat} (hb : ∀ a, l[i]? = some a → R a b)
    (hw : w i) : Accumulates R w l (l.set i b) := by
  intro j a ha
  by_cases hij : i = j
  · subst hij
    exact ⟨b, List.getElem?_set_self (List.getElem?_eq_some_iff.mp ha).1, hb a ha, .inl hw⟩
  · exact ⟨a, by rw [List.getElem?_set_ne hij, ha], hR a, .inr rfl⟩

end Lib
