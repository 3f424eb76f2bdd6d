import Libbash.Lib.Computation

/-!
# Programs over a signature of operations

A `Program Op Br E α` is written with a monad like any computation, but it can
touch a state only through the operations of `Op` and the brackets of `Br`: a
bracket is a resource that is taken before a part of the program and given back
on every exit of that part. A `Handler` says what these do to a state, and
`run` makes a computation of the program.

* **`run_keeps`** — a relation between the state before and the state after that
  every operation and every bracket respects is respected by every program;
* **`Uses`** — the operations of a program are among the given ones, with a rule
  for each combinator; `Uses.run_keeps` is `run_keeps` for such a program.
-/

namespace Lib

open Lib.Comp

inductive Program (Op : Type → Type) (Br E : Type) : Type → Type 1 where
  | ret {α : Type} (a : α) : Program Op Br E α
  | raise {α : Type} (e : E) : Program Op Br E α
  | perform {α : Type} (o : Op α) : Program Op Br E α
  | andThen {α β : Type} (p : Program Op Br E β) (k : β → Program Op Br E α) : Program Op Br E α
  | guarded {α : Type} (p : Program Op Br E α) (handler : E → Program Op Br E α) :
      Program Op Br E α
  | within {α : Type} (b : Br) (p : Program Op Br E α) : Program Op Br E α

/-- What operations and brackets do to a state. A bracket sees the state it was
entered in when it is left. -/
structure Handler (Op : Type → Type) (Br E S : Type) where
  perform : {α : Type} → Op α → Comp E S α
  acquire : Br → S → S
  release : Br → S → S → S

namespace Program

variable {Op : Type → Type} {Br E S α β : Type}

instance : Monad (Program Op Br E) where
  pure := ret
  bind := andThen

instance : MonadExceptOf E (Program Op Br E) where
  throw := raise
  tryCatch := guarded

def run (h : Handler Op Br E S) {α : Type} : Program Op Br E α → Comp E S α
  | ret a => pure a
  | raise e => throw e
  | perform o => h.perform o
  | andThen p k => run h p >>= fun a => run h (k a)
  | guarded p handler => tryCatch (run h p) fun e => run h (handler e)
  | within b p => bracket (fun s => (s, h.acquire b s)) (h.release b) (run h p)

/-! ## Equations -/

section Equations

variable (h : Handler Op Br E S)

@[simp] theorem run_pure (a : α) : run h (pure a : Program Op Br E α) = pure a := rfl

@[simp] theorem run_throw (e : E) : run h (throw e : Program Op Br E α) = throw e := rfl

@[simp] theorem run_perform (o : Op α) : run h (perform o) = h.perform o := rfl

@[simp] theorem run_bind (p : Program Op Br E α) (k : α → Program Op Br E β) :
    run h (p >>= k) = run h p >>= fun a => run h (k a) := rfl

@[simp] theorem run_map (f : α → β) (p : Program Op Br E α) :
    run h (f <$> p) = f <$> run h p := rfl

@[simp] theorem run_tryCatch (p : Program Op Br E α) (k : E → Program Op Br E α) :
    run h (tryCatch p k) = tryCatch (run h p) fun e => run h (k e) := rfl

@[simp] theorem run_within (b : Br) (p : Program Op Br E α) :
    run h (within b p) =
      bracket (fun s => (s, h.acquire b s)) (h.release b) (run h p) := rfl

end Equations

/-! ## Relations kept by all programs -/

/-- `I` relates the state before to the state after for every operation, and a
bracket keeps it when its body does. -/
structure Respects (h : Handler Op Br E S) (I : S → S → Prop) : Prop where
  refl : ∀ s, I s s
  trans : ∀ a b c, I a b → I b c → I a c
  perform : ∀ {α : Type} (o : Op α), Keeps I (h.perform o)
  within : ∀ b s s', I (h.acquire b s) s' → I s (h.release b s s')

theorem run_keeps {h : Handler Op Br E S} {I : S → S → Prop} (hI : Respects h I)
    (p : Program Op Br E α) : Keeps I (run h p) := by
  induction p with
  | ret a => exact keeps_pure hI.refl a
  | raise e => exact keeps_throw hI.refl e
  | perform o => exact hI.perform o
  | andThen p k ihp ihk => exact keeps_bind (fun {a b c} => hI.trans a b c) ihp ihk
  | guarded p handler ihp ihh => exact keeps_tryCatch (fun {a b c} => hI.trans a b c) ihp ihh
  | within b p ih =>
    intro s r s' hrun
    rw [run_within] at hrun
    obtain ⟨s₁, hbody, rfl⟩ := bracket_cases hrun
    exact hI.within b s s₁ (ih _ _ _ hbody)

/-! ## Programs with some operations only -/

/-- The program performs operations that meet `P` only. -/
def Uses (P : {α : Type} → Op α → Prop) {α : Type} : Program Op Br E α → Prop
  | ret _ => True
  | raise _ => True
  | perform o => P o
  | andThen p k => Uses P p ∧ ∀ a, Uses P (k a)
  | guarded p handler => Uses P p ∧ ∀ e, Uses P (handler e)
  | within _ p => Uses P p

section Uses

variable {P : {α : Type} → Op α → Prop}

@[simp] theorem uses_pure (a : α) : Uses P (pure a : Program Op Br E α) := trivial

@[simp] theorem uses_throw (e : E) : Uses P (throw e : Program Op Br E α) := trivial

theorem uses_perform {o : Op α} (h : P o) : Uses P (perform o : Program Op Br E α) := h

theorem uses_bind {p : Program Op Br E α} {k : α → Program Op Br E β} (hp : Uses P p)
    (hk : ∀ a, Uses P (k a)) : Uses P (p >>= k) := ⟨hp, hk⟩

theorem uses_within {b : Br} {p : Program Op Br E α} (hp : Uses P p) : Uses P (within b p) := hp

theorem uses_ite {c : Prop} [Decidable c] {p q : Program Op Br E α} (hp : Uses P p)
    (hq : Uses P q) : Uses P (if c then p else q) := by
  split_ifs
  · exact hp
  · exact hq

theorem Uses.mono {Q : {α : Type} → Op α → Prop} (h : ∀ {α : Type} (o : Op α), P o → Q o)
    {p : Program Op Br E α} (hp : Uses P p) : Uses Q p := by
  induction p with
  | ret a => trivial
  | raise e => trivial
  | perform o => exact h o hp
  | andThen p k ihp ihk => exact ⟨ihp hp.1, fun a => ihk a (hp.2 a)⟩
  | guarded p handler ihp ihh => exact ⟨ihp hp.1, fun e => ihh e (hp.2 e)⟩
  | within b p ih => exact ih hp

/-- `run_keeps`, with nothing to show of the other operations. -/
theorem Uses.run_keeps {h : Handler Op Br E S} {I : S → S → Prop} (hrefl : ∀ s, I s s)
    (htrans : ∀ a b c, I a b → I b c → I a c)
    (hperform : ∀ {α : Type} (o : Op α), P o → Keeps I (h.perform o))
    (hwithin : ∀ b s s', I (h.acquire b s) s' → I s (h.release b s s'))
    {p : Program Op Br E α} (hp : Uses P p) : Keeps I (run h p) := by
  induction p with
  | ret a => exact keeps_pure hrefl a
  | raise e => exact keeps_throw hrefl e
  | perform o => exact hperform o hp
  | andThen p k ihp ihk =>
    exact keeps_bind (fun {a b c} => htrans a b c) (ihp hp.1) fun a => ihk a (hp.2 a)
  | guarded p handler ihp ihh =>
    exact keeps_tryCatch (fun {a b c} => htrans a b c) (ihp hp.1) fun e => ihh e (hp.2 e)
  | within b p ih =>
    intro s r s' hrun
    rw [run_within] at hrun
    obtain ⟨s₁, hbody, rfl⟩ := bracket_cases hrun
    exact hwithin b s s₁ (ih hp _ _ _ hbody)

end Uses

end Program

end Lib
