import Mathlib.Algebra.Group.Nat.Defs
import Mathlib.Algebra.Ring.Int.Defs
import Mathlib.Logic.Basic
import Mathlib.Tactic.Basic

/-!
# Computations with state, exceptions and divergence

`Comp E S α` is a state transformer that keeps its state when it raises, the
way a C++ function keeps the side effects it made before it threw. `none` is
a run that has not ended within the bound its loops were given.

* **equations** — what `>>=` and `tryCatch` do on each outcome of their first
  part;
* **`Keeps`** — a relation between the state before and the state after that
  holds on every exit, closed under all the combinators;
* **brackets** — a resource taken before a body and given back on every exit;
* **parts and runs** — a computation over a part of the state, and sequences of
  operations whose exceptions the caller observes.
-/

namespace Lib

/-- A computation over `S` that ends with an `α` or raises an `E`; `none` is
divergence. -/
def Comp (E S α : Type) : Type := S → Option (Except E α × S)

namespace Comp

variable {E S α β : Type}

/-- The computation that does nothing. -/
def ret (a : α) : Comp E S α := fun s => some (.ok a, s)

/-- Sequencing; an exception or divergence of the first part is final. -/
def andThen (m : Comp E S α) (f : α → Comp E S β) : Comp E S β := fun s =>
  match m s with
  | none => none
  | some (.error e, s') => some (.error e, s')
  | some (.ok a, s') => f a s'

instance : Monad (Comp E S) where
  pure := ret
  bind := andThen

/-- Raise `e` and keep the state. -/
def raise (e : E) : Comp E S α := fun s => some (.error e, s)

/-- Run `m`; on an exception go on with the handler from the state `m` left. -/
def guarded (m : Comp E S α) (handler : E → Comp E S α) : Comp E S α := fun s =>
  match m s with
  | some (.error e, s') => handler e s'
  | other => other

instance : MonadExceptOf E (Comp E S) where
  throw := raise
  tryCatch := guarded

/-- The computation whose bound has run out. -/
def diverge : Comp E S α := fun _ => none

/-- Read a projection of the state. -/
def reads (f : S → α) : Comp E S α := fun s => some (.ok (f s), s)

/-- Update the state. -/
def update (f : S → S) : Comp E S Unit := fun s => some (.ok (), f s)

/-- A computation of a pure fallible step. -/
def ofExcept (f : S → Except E (α × S)) : Comp E S α := fun s =>
  match f s with
  | .ok (a, s') => some (.ok a, s')
  | .error e => some (.error e, s)

/-! ## Equations -/

@[simp] theorem pure_apply (a : α) (s : S) :
    (pure a : Comp E S α) s = some (.ok a, s) := rfl

@[simp] theorem throw_apply (e : E) (s : S) :
    (throw e : Comp E S α) s = some (.error e, s) := rfl

@[simp] theorem diverge_apply (s : S) : (diverge : Comp E S α) s = none := rfl

@[simp] theorem reads_apply (f : S → α) (s : S) :
    (reads f : Comp E S α) s = some (.ok (f s), s) := rfl

@[simp] theorem update_apply (f : S → S) (s : S) :
    (update f : Comp E S Unit) s = some (.ok (), f s) := rfl

theorem bind_of_ok {m : Comp E S α} {s s' : S} {a : α}
    (h : m s = some (.ok a, s')) (f : α → Comp E S β) : (m >>= f) s = f a s' := by
  show andThen m f s = f a s'
  simp only [andThen, h]

theorem bind_of_error {m : Comp E S α} {s s' : S} {e : E}
    (h : m s = some (.error e, s')) (f : α → Comp E S β) :
    (m >>= f) s = some (.error e, s') := by
  show andThen m f s = _
  simp only [andThen, h]

theorem bind_of_none {m : Comp E S α} {s : S} (h : m s = none)
    (f : α → Comp E S β) : (m >>= f) s = none := by
  show andThen m f s = _
  simp only [andThen, h]

@[simp] theorem throw_bind (e : E) (f : α → Comp E S β) :
    ((throw e : Comp E S α) >>= f) = throw e := rfl

@[simp] theorem reads_bind_apply (f : S → α) (g : α → Comp E S β) (s : S) :
    (reads f >>= g) s = g (f s) s := rfl

@[simp] theorem update_bind_apply (f : S → S) (g : Unit → Comp E S β) (s : S) :
    (update f >>= g) s = g () (f s) := rfl

@[simp] theorem diverge_bind (f : α → Comp E S β) :
    ((diverge : Comp E S α) >>= f) = diverge := rfl

/-- Sequencing is associative, on each of the three outcomes of its first part. -/
private theorem andThen_assoc {γ : Type} (m : Comp E S α) (f : α → Comp E S β)
    (g : β → Comp E S γ) : andThen (andThen m f) g = andThen m fun a => andThen (f a) g := by
  funext s
  unfold andThen
  cases m s with
  | none => rfl
  | some out =>
    obtain ⟨r, s'⟩ := out
    cases r <;> rfl

private theorem andThen_ret (m : Comp E S α) : andThen m ret = m := by
  funext s
  unfold andThen
  cases m s with
  | none => rfl
  | some out =>
    obtain ⟨r, s'⟩ := out
    cases r <;> rfl

instance : LawfulMonad (Comp E S) :=
  LawfulMonad.mk' _ andThen_ret (fun _ _ => rfl) andThen_assoc

/-- Two sequences agree when their first parts do and, on what these return,
their second parts. -/
theorem bind_congr_at {m m' : Comp E S α} {f f' : α → Comp E S β} {s s' : S}
    (hm : m s = m' s') (hf : ∀ a t, m s = some (.ok a, t) → f a t = f' a t) :
    (m >>= f) s = (m' >>= f') s' := by
  rcases h : m s with _ | ⟨e | a, t⟩
  · rw [bind_of_none h, bind_of_none (hm ▸ h)]
  · rw [bind_of_error h, bind_of_error (hm ▸ h)]
  · rw [bind_of_ok h, bind_of_ok (hm ▸ h)]
    exact hf a t h

/-- The three ways a sequence ends. -/
theorem bind_cases {m : Comp E S α} {f : α → Comp E S β} {s s' : S}
    {r : Except E β} (h : (m >>= f) s = some (r, s')) :
    (∃ a s₁, m s = some (.ok a, s₁) ∧ f a s₁ = some (r, s')) ∨
      ∃ e, m s = some (.error e, s') ∧ r = .error e := by
  cases hm : m s with
  | none => rw [bind_of_none hm] at h; cases h
  | some out =>
    obtain ⟨r₁, s₁⟩ := out
    cases r₁ with
    | ok a => rw [bind_of_ok hm] at h; exact .inl ⟨a, s₁, rfl, h⟩
    | error e =>
      rw [bind_of_error hm] at h
      cases h
      exact .inr ⟨e, rfl, rfl⟩

/-- `bind_cases`, when no error is raised. -/
theorem bind_ok {m : Comp E S α} {f : α → Comp E S β} {s s' : S} {b : β}
    (h : (m >>= f) s = some (.ok b, s')) :
    ∃ a s₁, m s = some (.ok a, s₁) ∧ f a s₁ = some (.ok b, s') := by
  rcases bind_cases h with ⟨a, s₁, hm, hf⟩ | ⟨e, -, he⟩
  · exact ⟨a, s₁, hm, hf⟩
  · cases he

theorem tryCatch_of_ok {m : Comp E S α} {s s' : S} {a : α}
    (h : m s = some (.ok a, s')) (k : E → Comp E S α) :
    (tryCatch m k) s = some (.ok a, s') := by
  show guarded m k s = _
  simp only [guarded, h]

theorem tryCatch_of_error {m : Comp E S α} {s s' : S} {e : E}
    (h : m s = some (.error e, s')) (k : E → Comp E S α) :
    (tryCatch m k) s = k e s' := by
  show guarded m k s = _
  simp only [guarded, h]

theorem tryCatch_of_none {m : Comp E S α} {s : S} (h : m s = none)
    (k : E → Comp E S α) : (tryCatch m k) s = none := by
  show guarded m k s = _
  simp only [guarded, h]

theorem tryCatch_congr_at {m m' : Comp E S α} {s s' : S} (h : m s = m' s') (k : E → Comp E S α) :
    (tryCatch m k) s = (tryCatch m' k) s' := by
  show guarded m k s = guarded m' k s'
  simp only [guarded, h]

theorem tryCatch_bind_of_error {m : Comp E S α} {s s' : S} {e : E}
    (h : m s = some (.error e, s')) (k : E → Comp E S α) (f : α → Comp E S β) :
    ((tryCatch m k) >>= f) s = (k e >>= f) s' := by
  show andThen (tryCatch m k) f s = andThen (k e) f s'
  simp only [andThen, tryCatch_of_error h]

/-! ## Connectives with short circuit -/

/-- The second operand only when the first holds. -/
def andAlso (m k : Comp E S Bool) : Comp E S Bool := do
  if ← m then k else pure false

/-- The second operand only when the first does not hold. -/
def orAlso (m k : Comp E S Bool) : Comp E S Bool := do
  if ← m then pure true else k

theorem andAlso_assoc (a b c : Comp E S Bool) :
    andAlso (andAlso a b) c = andAlso a (andAlso b c) := by
  unfold andAlso
  rw [bind_assoc]
  congr 1
  funext v
  cases v with
  | true => rfl
  | false => rfl

theorem orAlso_assoc (a b c : Comp E S Bool) :
    orAlso (orAlso a b) c = orAlso a (orAlso b c) := by
  unfold orAlso
  rw [bind_assoc]
  congr 1
  funext v
  cases v with
  | true => rfl
  | false => rfl

/-! ## Relations kept on every exit -/

/-- `I` relates the state before to the state after, however the computation
ends. -/
def Keeps (I : S → S → Prop) (m : Comp E S α) : Prop :=
  ∀ s r s', m s = some (r, s') → I s s'

section Keeps

variable {I : S → S → Prop}

theorem keeps_pure (hrefl : ∀ s, I s s) (a : α) : Keeps I (pure a : Comp E S α) := by
  intro s r s' h
  cases h
  exact hrefl s

theorem keeps_throw (hrefl : ∀ s, I s s) (e : E) : Keeps I (throw e : Comp E S α) := by
  intro s r s' h
  cases h
  exact hrefl s

theorem keeps_diverge : Keeps I (diverge : Comp E S α) := by
  intro s r s' h
  cases h

theorem keeps_reads (hrefl : ∀ s, I s s) (f : S → α) :
    Keeps I (reads f : Comp E S α) := by
  intro s r s' h
  cases h
  exact hrefl s

theorem keeps_update {f : S → S} (hf : ∀ s, I s (f s)) :
    Keeps I (update f : Comp E S Unit) := by
  intro s r s' h
  cases h
  exact hf s

theorem keeps_bind (htrans : ∀ {a b c}, I a b → I b c → I a c) {m : Comp E S α}
    {f : α → Comp E S β} (hm : Keeps I m) (hf : ∀ a, Keeps I (f a)) :
    Keeps I (m >>= f) := by
  intro s r s' h
  rcases bind_cases h with ⟨a, s₁, h₁, h₂⟩ | ⟨e, h₁, -⟩
  · exact htrans (hm _ _ _ h₁) (hf a _ _ _ h₂)
  · exact hm _ _ _ h₁

theorem keeps_tryCatch (htrans : ∀ {a b c}, I a b → I b c → I a c)
    {m : Comp E S α} {k : E → Comp E S α} (hm : Keeps I m) (hk : ∀ e, Keeps I (k e)) :
    Keeps I (tryCatch m k) := by
  intro s r s' h
  cases hms : m s with
  | none => rw [tryCatch_of_none hms] at h; cases h
  | some out =>
    obtain ⟨r₁, s₁⟩ := out
    cases r₁ with
    | ok a =>
      rw [tryCatch_of_ok hms] at h
      cases h
      exact hm _ _ _ hms
    | error e =>
      rw [tryCatch_of_error hms] at h
      exact htrans (hm _ _ _ hms) (hk e _ _ _ h)

end Keeps

/-! ## Brackets -/

/-- Run a body between the acquisition and the release of a resource; the
release runs on every exit, with what was read at acquisition. -/
def bracket {R : Type} (acquire : S → R × S) (release : R → S → S)
    (body : Comp E S α) : Comp E S α := fun s =>
  let (held, s₀) := acquire s
  match body s₀ with
  | none => none
  | some (r, s') => some (r, release held s')

/-- What a bracket does when its body ends. -/
theorem bracket_cases {R : Type} {acquire : S → R × S} {release : R → S → S}
    {body : Comp E S α} {s s' : S} {r : Except E α}
    (h : bracket acquire release body s = some (r, s')) :
    ∃ s₁, body (acquire s).2 = some (r, s₁) ∧ s' = release (acquire s).1 s₁ := by
  unfold bracket at h
  cases hb : body (acquire s).2 with
  | none => simp [hb] at h
  | some out =>
    obtain ⟨r₁, s₁⟩ := out
    simp only [hb, Option.some.injEq, Prod.mk.injEq] at h
    obtain ⟨rfl, rfl⟩ := h
    exact ⟨s₁, rfl, rfl⟩

/-- A bracket whose body ends. -/
theorem bracket_of_body {R : Type} {acquire : S → R × S} {release : R → S → S}
    {body : Comp E S α} {s s₁ : S} {r : Except E α} (h : body (acquire s).2 = some (r, s₁)) :
    bracket acquire release body s = some (r, release (acquire s).1 s₁) := by
  unfold bracket
  simp only [h]

/-! ## Parts of a state, and runs -/

/-- A computation over a part of the state. -/
def zoom {T : Type} (get : S → T) (set : T → S → S) (m : Comp E T α) : Comp E S α := fun s =>
  match m (get s) with
  | none => none
  | some (r, t) => some (r, set t s)

/-- Run operations one after the other; an exception of one is seen by the
caller and does not stop the run. -/
def observe {O : Type} (step : O → Comp E S Unit) :
    List O → S → Option (List (Except E Unit) × S)
  | [], s => some ([], s)
  | o :: os, s =>
    match step o s with
    | none => none
    | some (r, s') => (observe step os s').map fun (rs, t) => (r :: rs, t)

/-- Steps that an abstraction maps to steps make runs that it maps to runs. -/
theorem observe_map {O T : Type} {step : O → Comp E S Unit} {step' : O → Comp E T Unit}
    {abs : S → T} (h : ∀ o s, (step o s).map (Prod.map id abs) = step' o (abs s)) :
    ∀ (os : List O) (s : S),
      (observe step os s).map (Prod.map id abs) = observe step' os (abs s) := by
  intro os
  induction os with
  | nil => exact fun _ => rfl
  | cons o os ih =>
    intro s
    have ho := h o s
    cases hs : step o s with
    | none =>
      rw [hs] at ho
      simp only [observe, hs, ← ho, Option.map_none]
    | some out =>
      obtain ⟨r, s'⟩ := out
      rw [hs] at ho
      simp only [observe, hs, ← ho, Option.map_some, Prod.map_apply, id_eq, ← ih s']
      cases observe step os s' with
      | none => rfl
      | some out => rfl

end Comp

end Lib
