import Mathlib.Data.List.Chain

/-!
# A value that is saved by hand

Nested scopes share one cell. A scope saves what it finds in the cell, writes a value of its
own, and writes the saved one back when it is finished; when it is left in another way
nothing is written back. `restores_iff` says of which runs it is true that the cell has the
value of the innermost scope throughout, and after a scope the value from before it.
-/

namespace Lib

/-- A scope that has been entered: its own value, the one that it has found, and the state
in which its body starts. -/
structure Entered (V S : Type) where
  value : V
  saved : V
  entry : S

/-- A cell of a state, with the steps that have nothing to do with it. A state is `Tidy` when
a scope can be entered, and what a scope has written is what the cell `Holds`. The body of a
scope takes the state in which it starts to another one, in which it `Ends` or is `Left`. -/
structure Cell (V S : Type) where
  Tidy : S → Prop
  Holds : V → S → Prop
  read : S → V
  Quiet : S → S → Prop
  Write : V → S → S → Prop
  Ends : V → S → S → Prop
  Left : V → S → S → Prop
  tidy_of_holds : ∀ {v s}, Holds v s → Tidy s
  read_of_holds : ∀ {v s}, Holds v s → read s = v
  quiet_tidy : ∀ {s s'}, Tidy s → Quiet s s' → Tidy s'
  quiet_holds : ∀ {v s s'}, Holds v s → Quiet s s' → Holds v s'
  write_holds : ∀ {v s s'}, Tidy s → Write v s s' → Holds v s'

/-- The scopes that have been entered, the innermost first, and the state. -/
abbrev Scoped (V S : Type) := List (Entered V S) × S

namespace Cell

variable {V S : Type} (c : Cell V S)

/-- The steps of a machine that keeps the cell by hand. -/
inductive Step (mayLeave : Entered V S → Prop) : Scoped V S → Scoped V S → Prop where
  | quiet {scopes : List (Entered V S)} {s s' : S} (h : c.Quiet s s') :
      Step mayLeave (scopes, s) (scopes, s')
  | enter {scopes : List (Entered V S)} {v : V} {s s' : S} (h : c.Write v s s') :
      Step mayLeave (scopes, s) (⟨v, c.read s, s'⟩ :: scopes, s')
  | finish {scope : Entered V S} {scopes : List (Entered V S)} {s s' : S}
      (hends : c.Ends scope.value scope.entry s) (h : c.Write scope.saved s s') :
      Step mayLeave (scope :: scopes, s) (scopes, s')
  | leave {scope : Entered V S} {scopes : List (Entered V S)} {s : S}
      (hleft : c.Left scope.value scope.entry s) (h : mayLeave scope) :
      Step mayLeave (scope :: scopes, s) (scopes, s)

/-! ## Runs -/

/-- The machine gets from one state to the other and ends in the scopes that it has
started in. -/
def Reach (s s' : S) : Prop :=
  ∀ scopes, Relation.ReflTransGen (c.Step fun _ => True) (scopes, s) (scopes, s')

variable {c} {s s₁ s₂ s' : S} {v : V}

theorem Reach.refl (s : S) : c.Reach s s := fun _ => .refl

theorem Reach.trans (h : c.Reach s s₁) (h' : c.Reach s₁ s') : c.Reach s s' := fun scopes =>
  (h scopes).trans (h' scopes)

theorem reach_of_quiet (h : c.Quiet s s') : c.Reach s s' := fun _ => .single (.quiet h)

/-- A scope with everything in it, when it is finished. -/
theorem reach_of_finished (henter : c.Write v s s₁) (h : c.Reach s₁ s₂) (hends : c.Ends v s₁ s₂)
    (hfinish : c.Write (c.read s) s₂ s') : c.Reach s s' := fun scopes =>
  .head (.enter henter) ((h (⟨v, c.read s, s₁⟩ :: scopes)).tail (.finish hends hfinish))

/-- A scope with everything in it, when it is left. -/
theorem reach_of_left (henter : c.Write v s s₁) (h : c.Reach s₁ s') (hleft : c.Left v s₁ s') :
    c.Reach s s' := fun scopes =>
  .head (.enter henter) ((h (⟨v, c.read s, s₁⟩ :: scopes)).tail (.leave hleft trivial))

/-- The moments of a run. -/
theorem Reach.exists_run (h : c.Reach s s') (scopes : List (Entered V S)) :
    ∃ run, ((scopes, s) :: run).IsChain (c.Step fun _ => True) ∧
      ((scopes, s) :: run).getLast (List.cons_ne_nil _ _) = (scopes, s') :=
  List.exists_isChain_cons_of_relationReflTransGen (h scopes)

theorem Step.tidy {mayLeave : Entered V S → Prop} {x y : Scoped V S} (h : c.Step mayLeave x y)
    (hx : c.Tidy x.2) : c.Tidy y.2 := by
  cases h with
  | quiet h => exact c.quiet_tidy hx h
  | enter h => exact c.tidy_of_holds (c.write_holds hx h)
  | finish hends h => exact c.tidy_of_holds (c.write_holds hx h)
  | leave hleft h => exact hx

theorem Reach.tidy (h : c.Reach s s') (hs : c.Tidy s) : c.Tidy s' := by
  have hrun : ∀ {x y : Scoped V S}, Relation.ReflTransGen (c.Step fun _ => True) x y →
      c.Tidy x.2 → c.Tidy y.2 := by
    intro x y hxy hx
    induction hxy with
    | refl => exact hx
    | tail _ hstep ih => exact hstep.tidy ih
  exact hrun (h []) hs

/-! ## Settled moments -/

/-- The value of the innermost scope; outside of all scopes there may be a value that
everything has started with. -/
def current (base : Option V) : List (Entered V S) → Option V
  | [] => base
  | scope :: _ => some scope.value

/-- Every scope has found the value of the scope around it. -/
def Chained (base : Option V) : List (Entered V S) → Prop
  | [] => True
  | scope :: scopes => (∀ v ∈ current base scopes, scope.saved = v) ∧ Chained base scopes

variable (c) in
/-- The cell holds the value of the innermost scope. -/
structure Settled (base : Option V) (x : Scoped V S) : Prop where
  tidy : c.Tidy x.2
  holds : ∀ v ∈ current base x.1, c.Holds v x.2
  chained : Chained base x.1

variable (c) in
/-- At every moment the cell has the value of the innermost scope, and after a scope the
value that it had before. -/
structure Restores (base : Option V) (run : List (Scoped V S)) : Prop where
  running : ∀ x ∈ run, ∀ v ∈ current base x.1, c.read x.2 = v
  restored : run.IsChain fun x y => ∀ scope, x.1 = scope :: y.1 → c.read y.2 = scope.saved

variable {base : Option V} {x y : Scoped V S}

theorem Settled.read (h : c.Settled base x) : ∀ v ∈ current base x.1, c.read x.2 = v :=
  fun v hv => c.read_of_holds (h.holds v hv)

/-- A scope that has found its own value can be left. -/
theorem Step.settled (h : c.Step (fun scope => scope.value = scope.saved) x y)
    (hx : c.Settled base x) : c.Settled base y := by
  cases h with
  | quiet h =>
    exact ⟨c.quiet_tidy hx.tidy h, fun v hv => c.quiet_holds (hx.holds v hv) h, hx.chained⟩
  | enter h =>
    have hholds := c.write_holds hx.tidy h
    refine ⟨c.tidy_of_holds hholds, fun v hv => ?_, hx.read, hx.chained⟩
    cases hv
    exact hholds
  | finish hends h =>
    have hholds := c.write_holds hx.tidy h
    refine ⟨c.tidy_of_holds hholds, fun v hv => ?_, hx.chained.2⟩
    rw [← hx.chained.1 v hv]
    exact hholds
  | leave hleft h =>
    refine ⟨hx.tidy, fun v hv => ?_, hx.chained.2⟩
    rw [← hx.chained.1 v hv, ← h]
    exact hx.holds _ rfl

/-- After a scope the cell has the value from before when the scope is finished, or when it
has found its own value. -/
theorem Step.restored (h : c.Step (fun scope => scope.value = scope.saved) x y)
    (hx : c.Settled base x) : ∀ scope, x.1 = scope :: y.1 → c.read y.2 = scope.saved := by
  intro scope hscope
  cases h with
  | quiet h =>
    have hlength := congrArg List.length hscope
    simp only [List.length_cons] at hlength
    omega
  | enter h =>
    have hlength := congrArg List.length hscope
    simp only [List.length_cons] at hlength
    omega
  | finish hends h =>
    cases hscope
    exact c.read_of_holds (c.write_holds hx.tidy h)
  | leave hleft h =>
    cases hscope
    rw [← h]
    exact hx.read _ rfl

/-- No other scope is left when the value from before is there afterwards. -/
theorem Step.proper (h : c.Step (fun _ => True) x y) (hx : c.Settled base x)
    (hy : ∀ scope, x.1 = scope :: y.1 → c.read y.2 = scope.saved) :
    c.Step (fun scope => scope.value = scope.saved) x y := by
  cases h with
  | quiet h => exact .quiet h
  | enter h => exact .enter h
  | finish hends h => exact .finish hends h
  | leave hleft h =>
    refine .leave hleft ?_
    rw [← hy _ rfl]
    exact (hx.read _ rfl).symm

/-- The cell is right at every moment of a run just when every scope that is left without
being finished has found its own value. -/
theorem restores_iff {run : List (Scoped V S)} (h : (x :: run).IsChain (c.Step fun _ => True))
    (hx : c.Settled base x) :
    c.Restores base (x :: run) ↔
      (x :: run).IsChain (c.Step fun scope => scope.value = scope.saved) := by
  induction run generalizing x with
  | nil =>
    refine iff_of_true ⟨fun y hy => ?_, .singleton x⟩ (.singleton x)
    rw [List.mem_singleton.mp hy]
    exact hx.read
  | cons y run ih =>
    obtain ⟨hstep, hrest⟩ := List.isChain_cons_cons.mp h
    constructor
    · intro hrestores
      obtain ⟨hfirst, hlater⟩ := List.isChain_cons_cons.mp hrestores.restored
      have hproper := hstep.proper hx hfirst
      have hrunning : ∀ z ∈ y :: run, ∀ v ∈ current base z.1, c.read z.2 = v := fun z hz =>
        hrestores.running z (List.mem_cons_of_mem _ hz)
      exact List.isChain_cons_cons.mpr
        ⟨hproper, (ih hrest (hproper.settled hx)).mp ⟨hrunning, hlater⟩⟩
    · intro hproper
      obtain ⟨hfirst, hlater⟩ := List.isChain_cons_cons.mp hproper
      have hrestores := (ih hrest (hfirst.settled hx)).mpr hlater
      refine ⟨fun z hz => ?_, List.isChain_cons_cons.mpr ⟨hfirst.restored hx, hrestores.restored⟩⟩
      rcases List.mem_cons.mp hz with rfl | hz
      · exact hx.read
      · exact hrestores.running z hz

end Cell

end Lib
