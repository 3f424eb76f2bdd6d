import Libbash.Interp.Evolution

/-!
# The resources of the interpreter balance

Local frames, the stack of trees and the streams are taken and given back by
objects with destructors. Whatever a command tree does and however it ends, all
three are the same after it (`resources_balance`), and a function is only ever
defined while the tree that its body is in is the top of the stack.
-/

namespace Libbash

open Lib Lib.Comp

/-- A function refers to the tree that is walked when it is defined. -/
def Event.DefinesWalked : Event → Prop
  | .defined _ f walked => f.ast = walked
  | _ => True

/-- What is the same after a run, and what its history says of definitions. -/
structure Balanced (s s' : Interpreter) : Prop where
  frames : s'.store.localMembers.length = s.store.localMembers.length
  astStack : s'.astStack = s.astStack
  streams : s'.streams = s.streams
  definitions : ∃ new, s'.log = new ++ s.log ∧ ∀ e ∈ new, e.DefinesWalked

/-- The part of it that a redirection keeps, from any stack. -/
structure LooselyBalanced (cur : AstId) (s s' : Interpreter) : Prop where
  frames : s'.store.localMembers.length = s.store.localMembers.length
  astStack : s'.astStack = s.astStack
  definitions : s.astStack.head? = some cur →
    ∃ new, s'.log = new ++ s.log ∧ ∀ e ∈ new, e.DefinesWalked

theorem logged_nil {s s' : Interpreter} (h : s'.log = s.log) :
    ∃ new, s'.log = new ++ s.log ∧ ∀ e ∈ new, e.DefinesWalked :=
  ⟨[], h, fun _ he => absurd he List.not_mem_nil⟩

theorem logged_one {s s' : Interpreter} {e : Event} (h : s'.log = e :: s.log)
    (he : e.DefinesWalked) : ∃ new, s'.log = new ++ s.log ∧ ∀ e ∈ new, e.DefinesWalked :=
  ⟨[e], h, fun _ hmem => List.mem_singleton.mp hmem ▸ he⟩

theorem logged_trans {l₁ l₂ l₃ : List Event}
    (h₁ : ∃ new, l₂ = new ++ l₁ ∧ ∀ e ∈ new, e.DefinesWalked)
    (h₂ : ∃ new, l₃ = new ++ l₂ ∧ ∀ e ∈ new, e.DefinesWalked) :
    ∃ new, l₃ = new ++ l₁ ∧ ∀ e ∈ new, e.DefinesWalked := by
  obtain ⟨new₁, rfl, hnew₁⟩ := h₁
  obtain ⟨new₂, rfl, hnew₂⟩ := h₂
  refine ⟨new₂ ++ new₁, (List.append_assoc ..).symm, fun e he => ?_⟩
  rcases List.mem_append.mp he with he | he
  · exact hnew₂ e he
  · exact hnew₁ e he

theorem Evolves.looselyBalanced {b : Bool} {cur : AstId} {s s' : Interpreter}
    (h : Evolves b cur s s') : LooselyBalanced cur s s' := by
  induction h with
  | refl s => exact ⟨rfl, rfl, fun _ => logged_nil rfl⟩
  | trans _ _ ih₁ ih₂ =>
    refine ⟨ih₂.frames.trans ih₁.frames, ih₂.astStack.trans ih₁.astStack, fun hcur => ?_⟩
    exact logged_trans (ih₁.definitions hcur) (ih₂.definitions (ih₁.astStack ▸ hcur))
  | loosen _ ih => exact ih
  | other h => exact ⟨by rw [h.store], h.astStack, fun _ => logged_nil h.log⟩
  | wrote h => exact ⟨h.depth, rfl, fun _ => logged_one rfl trivial⟩
  | defined name index h =>
    refine ⟨rfl, rfl, fun hcur => logged_one rfl ?_⟩
    rw [h] at hcur
    exact Option.some.inj hcur
  | removed s name => exact ⟨rfl, rfl, fun _ => logged_one rfl trivial⟩
  | called h => exact ⟨rfl, rfl, fun _ => logged_one rfl trivial⟩
  | interrupted s => exact ⟨rfl, rfl, fun _ => logged_one rfl trivial⟩
  | constructed s t => exact ⟨rfl, rfl, fun _ => logged_nil rfl⟩
  | redirected s streams outputs inputs => exact ⟨rfl, rfl, fun _ => logged_nil rfl⟩
  | restored _ ih => exact ⟨ih.frames, ih.astStack, ih.definitions⟩
  | scope _ ih =>
    refine ⟨?_, ih.astStack, ih.definitions⟩
    show (List.tail _).length = _
    rw [List.length_tail, ih.frames]
    rfl
  | interpret ht _ ih =>
    refine ⟨ih.frames, ?_, fun _ => ih.definitions rfl⟩
    show List.tail _ = _
    rw [ih.astStack]
    rfl
  | temporary t _ ih =>
    exact ⟨ih.frames, ih.astStack, fun hcur => logged_trans (ih.definitions hcur)
      ⟨[_], rfl, fun _ hmem => List.mem_singleton.mp hmem ▸ trivial⟩⟩

/-- Only redirections change the streams. -/
theorem Evolves.streams {b : Bool} {cur : AstId} {s s' : Interpreter} (h : Evolves b cur s s') :
    b = false → s'.streams = s.streams := by
  induction h with
  | trans _ _ ih₁ ih₂ => exact fun hb => (ih₂ hb).trans (ih₁ hb)
  | loosen _ _ => exact fun hb => by cases hb
  | other h => exact fun _ => h.streams
  | redirected s streams outputs inputs => exact fun hb => by cases hb
  | scope _ ih => exact fun _ => ih rfl
  | interpret ht _ ih => exact fun _ => ih rfl
  | temporary t _ ih => exact fun _ => ih rfl
  | _ => exact fun _ => rfl

theorem Evolves.balanced {cur : AstId} {s s' : Interpreter} (h : Evolves false cur s s')
    (hcur : s.astStack.head? = some cur) : Balanced s s' :=
  ⟨h.looselyBalanced.frames, h.looselyBalanced.astStack, h.streams rfl,
    h.looselyBalanced.definitions hcur⟩

/-- Every command tree, every way its execution ends. -/
theorem resources_balance (host : Host) (n d : Nat) (cur : AstId) (F : Focus shell)
    (s s' : Interpreter) (r : Except Exn Unit) (hcur : s.astStack.head? = some cur)
    (h : runTree host n d cur F s = some (r, s')) : Balanced s s' :=
  (runTree_evolves host n d cur F s r s' h).balanced hcur

/-- `f() { :; } > out`. -/
def redirectedDefinition : CommandList shell :=
  .last (.command (.simple [.output false (.file (.literal "out"))] (.functionDefinition "f" 0)))

theorem resources_balance_redirectedDefinition :
    ∃ r s', runTree (.ofTexts [] []) 0 0 0 (.list redirectedDefinition)
        (.walking (.script redirectedDefinition [])) = some (r, s') ∧
      Balanced (.walking (.script redirectedDefinition [])) s' := by
  obtain ⟨⟨r, s'⟩, h⟩ := Option.isSome_iff_exists.mp
    (show (runTree (.ofTexts [] []) 0 0 0 (.list redirectedDefinition)
      (.walking (.script redirectedDefinition []))).isSome from rfl)
  exact ⟨r, s', h, resources_balance _ _ _ _ _ _ _ _ rfl h⟩

end Libbash
