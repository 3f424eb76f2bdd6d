import Libbash.Interp.Balance

/-!
# The function table over a run

The history of a run says which definitions of a function there were:
`firstDefinition` is the earliest one since the function was last removed,
`latestDefinition` the most recent one. `functions.insert` leaves an entry that
is there, so the table holds the first. `Traced` ties a state to its history,
and every run keeps it.

* **`latestDefinitionWins_iff`** — in a run every call runs the body of the
  latest definition exactly when at each call the first one has the same body
  and its tree is still there;
* **`functionsLiveThroughout_iff`** — every entry of the table refers to a tree that is
  still there, at every moment of a run, exactly when no tree is destroyed whose
  functions are in the table.
-/

namespace Libbash

open Lib Lib.Comp

/-! ## Histories -/

/-- The earliest definition since the last removal. -/
def firstDefinition (name : String) : List Event → Option Function
  | [] => none
  | .defined x f _ :: log =>
    if x = name then some ((firstDefinition name log).getD f) else firstDefinition name log
  | .removed x :: log => if x = name then none else firstDefinition name log
  | _ :: log => firstDefinition name log

/-- The most recent definition that is not followed by a removal. -/
def latestDefinition (name : String) : List Event → Option Function
  | [] => none
  | .defined x f _ :: log => if x = name then some f else latestDefinition name log
  | .removed x :: log => if x = name then none else latestDefinition name log
  | _ :: log => latestDefinition name log

/-- A call, with the history before it. -/
structure Call where
  name : String
  function : Function
  earlier : List Event

def calls : List Event → List Call
  | [] => []
  | .called name f _ :: log => ⟨name, f, log⟩ :: calls log
  | _ :: log => calls log

/-- Whether the tree of an object is still there after a history. -/
def LiveAfter (log : List Event) (a : AstId) : Prop := Event.ended a ∉ log

theorem firstDefinition_isSome (name : String) (log : List Event) :
    (firstDefinition name log).isSome = (latestDefinition name log).isSome := by
  induction log with
  | nil => rfl
  | cons e log ih =>
    cases e with
    | defined x f walked =>
      simp only [firstDefinition, latestDefinition]
      split_ifs
      · rfl
      · exact ih
    | removed x =>
      simp only [firstDefinition, latestDefinition]
      split_ifs
      · rfl
      · exact ih
    | _ => exact ih

/-! ## Objects and histories only grow -/

structure Grows (s s' : Interpreter) : Prop where
  asts : s.asts <+: s'.asts
  log : s.log <:+ s'.log

theorem Evolves.grows {b : Bool} {cur : AstId} {s s' : Interpreter} (h : Evolves b cur s s') :
    Grows s s' := by
  induction h with
  | refl s => exact ⟨List.prefix_rfl, List.suffix_rfl⟩
  | trans _ _ ih₁ ih₂ => exact ⟨ih₁.asts.trans ih₂.asts, ih₁.log.trans ih₂.log⟩
  | loosen _ ih => exact ih
  | other h => exact ⟨h.asts ▸ List.prefix_rfl, h.log ▸ List.suffix_rfl⟩
  | wrote h => exact ⟨List.prefix_rfl, List.suffix_cons _ _⟩
  | defined name index h => exact ⟨List.prefix_rfl, List.suffix_cons _ _⟩
  | removed s name => exact ⟨List.prefix_rfl, List.suffix_cons _ _⟩
  | called h => exact ⟨List.prefix_rfl, List.suffix_cons _ _⟩
  | interrupted s => exact ⟨List.prefix_rfl, List.suffix_cons _ _⟩
  | constructed s t => exact ⟨List.prefix_append _ _, List.suffix_rfl⟩
  | redirected s streams outputs inputs => exact ⟨List.prefix_rfl, List.suffix_rfl⟩
  | restored _ ih => exact ⟨ih.asts, ih.log⟩
  | scope _ ih => exact ⟨ih.asts, ih.log⟩
  | interpret ht _ ih => exact ⟨ih.asts, ih.log⟩
  | temporary t _ ih =>
    exact ⟨(List.prefix_append _ _).trans ih.asts, ih.log.trans (List.suffix_cons _ _)⟩

/-! ## States and their histories -/

structure Traced (s : Interpreter) : Prop where
  functions : ∀ name, s.functions[name]? = firstDefinition name s.log
  destroyed : ∀ a, a ∈ s.destroyed ↔ Event.ended a ∈ s.log
  /-- Only objects that have been constructed are destroyed. -/
  constructed : ∀ a, Event.ended a ∈ s.log → a < s.asts.length
  stack : ∀ a ∈ s.astStack, a < s.asts.length ∧ LiveAfter s.log a
  calls : ∀ c ∈ calls s.log, firstDefinition c.name c.earlier = some c.function
  definitions : ∀ name f walked earlier, (Event.defined name f walked :: earlier) <:+ s.log →
    LiveAfter earlier f.ast

/-- No object has the number of the next one. -/
theorem Traced.fresh {s : Interpreter} (h : Traced s) : s.asts.length ∉ s.destroyed := fun hmem =>
  Nat.lt_irrefl _ (h.constructed _ ((h.destroyed _).mp hmem))

theorem cons_suffix_cons {e e' : Event} {earlier log : List Event} :
    (e' :: earlier) <:+ (e :: log) ↔ (e' = e ∧ earlier = log) ∨ (e' :: earlier) <:+ log := by
  rw [List.suffix_cons_iff, List.cons.injEq]

theorem liveAfter_cons {e : Event} {log : List Event} {a : AstId} (he : e ≠ .ended a)
    (h : LiveAfter log a) : LiveAfter (e :: log) a := by
  intro hmem
  rcases List.mem_cons.mp hmem with heq | hmem
  · exact he heq.symm
  · exact h hmem

/-- An event that is no call, no definition and not the end of an object. -/
def Event.Plain : Event → Prop
  | .called .. | .defined .. | .ended .. => False
  | _ => True

section Traced

variable {s s' : Interpreter}

theorem Traced.ended_cons_iff {e : Event} (he : e.Plain) (a : AstId) :
    Event.ended a ∈ e :: s.log ↔ Event.ended a ∈ s.log := by
  rw [List.mem_cons]
  refine ⟨fun h => h.resolve_left ?_, .inr⟩
  rintro rfl
  exact he

theorem Event.Plain.calls {e : Event} (he : e.Plain) (log : List Event) :
    calls (e :: log) = Libbash.calls log := by
  cases e with
  | called name f store => exact he.elim
  | _ => rfl

/-- The history before an event that a plain one follows. -/
theorem Event.Plain.suffix {e e' : Event} {earlier log : List Event} (he : e.Plain)
    (he' : ¬e'.Plain) (h : (e' :: earlier) <:+ e :: log) : (e' :: earlier) <:+ log := by
  rcases cons_suffix_cons.mp h with ⟨rfl, -⟩ | h
  · exact absurd he he'
  · exact h

/-- A change of the state that is logged with a plain event. -/
theorem Traced.plain {e : Event} (h : Traced s) (he : e.Plain) (hlog : s'.log = e :: s.log)
    (hdestroyed : s'.destroyed = s.destroyed) (hasts : s'.asts = s.asts)
    (hstack : s'.astStack = s.astStack)
    (hfunctions : ∀ name, s'.functions[name]? = firstDefinition name (e :: s.log)) : Traced s' where
  functions name := by rw [hfunctions, hlog]
  destroyed a := by rw [hdestroyed, hlog, ended_cons_iff he, h.destroyed]
  constructed a hmem := by
    rw [hlog, ended_cons_iff he] at hmem
    rw [hasts]
    exact h.constructed a hmem
  stack a ha := by
    rw [hstack] at ha
    rw [hasts, hlog]
    refine ⟨(h.stack a ha).1, liveAfter_cons ?_ (h.stack a ha).2⟩
    rintro rfl
    exact he
  calls c hc := h.calls c (he.calls s.log ▸ hlog ▸ hc)
  definitions name f walked earlier hsuffix :=
    h.definitions name f walked earlier (he.suffix id (hlog ▸ hsuffix))

/-- A change of the state that is not logged. -/
theorem Traced.silent (h : Traced s) (hlog : s'.log = s.log) (hfunctions : s'.functions = s.functions)
    (hdestroyed : s'.destroyed = s.destroyed) (hasts : s.asts <+: s'.asts)
    (hstack : ∀ a ∈ s'.astStack, a ∈ s.astStack ∨ a < s'.asts.length ∧ LiveAfter s.log a) :
    Traced s' where
  functions name := by rw [hfunctions, hlog, h.functions]
  destroyed a := by rw [hdestroyed, hlog, h.destroyed]
  constructed a hmem := Nat.lt_of_lt_of_le (h.constructed a (hlog ▸ hmem)) hasts.length_le
  stack a ha := by
    rw [hlog]
    rcases hstack a ha with ha | ha
    · exact ⟨Nat.lt_of_lt_of_le (h.stack a ha).1 hasts.length_le, (h.stack a ha).2⟩
    · exact ha
  calls c hc := h.calls c (hlog ▸ hc)
  definitions name f walked earlier hsuffix := h.definitions name f walked earlier (hlog ▸ hsuffix)

theorem insertIfNew_firstDefinition {functions : Std.ExtTreeMap String Function} {log : List Event}
    (h : ∀ name, functions[name]? = firstDefinition name log) (name x : String) (f : Function)
    (walked : AstId) :
    (functions.insertIfNew name f)[x]? = firstDefinition x (.defined name f walked :: log) := by
  rw [Std.ExtTreeMap.getElem?_insertIfNew, firstDefinition, ← h]
  simp only [Std.LawfulEqCmp.compare_eq_iff_eq, Std.ExtTreeMap.mem_iff_isSome_getElem?]
  by_cases hx : name = x
  · subst hx
    cases functions[name]? with
    | none => simp
    | some g => simp
  · rw [if_neg fun hnot => hx hnot.1, if_neg hx]

theorem Traced.insertFunction (h : Traced s) (name : String) (f : Function) (walked : AstId)
    (hf : f.ast ∈ s.astStack) : Traced (s.insertFunction name f walked) where
  functions x := insertIfNew_firstDefinition h.functions name x f walked
  destroyed a := by
    show a ∈ s.destroyed ↔ Event.ended a ∈ Event.defined name f walked :: s.log
    rw [h.destroyed, List.mem_cons]
    simp
  constructed a hmem := by
    rcases List.mem_cons.mp hmem with heq | hmem
    · cases heq
    · exact h.constructed a hmem
  stack a ha := ⟨(h.stack a ha).1, liveAfter_cons (fun heq => by cases heq) (h.stack a ha).2⟩
  calls := h.calls
  definitions x g walked' earlier hsuffix := by
    rcases cons_suffix_cons.mp hsuffix with ⟨heq, rfl⟩ | hsuffix
    · cases heq
      exact (h.stack _ hf).2
    · exact h.definitions x g walked' earlier hsuffix

theorem Traced.removeFunction (h : Traced s) (name : String) :
    Traced { s.record (.removed name) with functions := s.functions.erase name } := by
  refine h.plain (e := .removed name) trivial rfl rfl rfl rfl fun x => ?_
  show (s.functions.erase name)[x]? = _
  rw [Std.ExtTreeMap.getElem?_erase, firstDefinition, ← h.functions]
  simp only [Std.LawfulEqCmp.compare_eq_iff_eq]

theorem Traced.call (h : Traced s) {name : String} {f : Function}
    (hf : s.functions[name]? = some f) : Traced (s.record (.called name f s.store)) where
  functions x := h.functions x
  destroyed a := by
    show a ∈ s.destroyed ↔ Event.ended a ∈ Event.called name f s.store :: s.log
    rw [h.destroyed, List.mem_cons]
    simp
  constructed a hmem := by
    refine h.constructed a ?_
    rcases List.mem_cons.mp hmem with heq | hmem
    · cases heq
    · exact hmem
  stack a ha := ⟨(h.stack a ha).1, liveAfter_cons (fun heq => by cases heq) (h.stack a ha).2⟩
  calls c hc := by
    rcases List.mem_cons.mp hc with rfl | hc
    · rw [← h.functions]
      exact hf
    · exact h.calls c hc
  definitions x g walked earlier hsuffix := by
    rcases cons_suffix_cons.mp hsuffix with ⟨heq, -⟩ | hsuffix
    · cases heq
    · exact h.definitions x g walked earlier hsuffix

/-- The end of the object that was constructed last before the part of the run
that ends in `s'`. -/
theorem Traced.destroy (h : Traced s') {a : AstId} (hlt : a < s'.asts.length)
    (hstack : ∀ c ∈ s'.astStack, c ≠ a) : Traced (s'.destroy a) where
  functions x := h.functions x
  destroyed c := by
    show c ∈ a :: s'.destroyed ↔ Event.ended c ∈ Event.ended a :: s'.log
    rw [List.mem_cons, List.mem_cons, h.destroyed]
    simp
  constructed c hmem := by
    rcases List.mem_cons.mp hmem with heq | hmem
    · cases heq
      exact hlt
    · exact h.constructed c hmem
  stack c hc := by
    refine ⟨(h.stack c hc).1, liveAfter_cons ?_ (h.stack c hc).2⟩
    intro heq
    cases heq
    exact hstack _ hc rfl
  calls := h.calls
  definitions x g walked earlier hsuffix := by
    rcases cons_suffix_cons.mp hsuffix with ⟨heq, -⟩ | hsuffix
    · cases heq
    · exact h.definitions x g walked earlier hsuffix

end Traced

/-- Every run keeps a state tied to its history. -/
theorem Evolves.traced {b : Bool} {cur : AstId} {s s' : Interpreter} (h : Evolves b cur s s') :
    Traced s → Traced s' := by
  induction h with
  -- A step adds its event to the history or leaves everything that the history is about.
  | refl s => exact id
  | trans _ _ ih₁ ih₂ => exact fun ht => ih₂ (ih₁ ht)
  | loosen _ ih => exact ih
  | other h =>
    intro ht
    exact ht.silent h.log h.functions h.destroyed (h.asts ▸ List.prefix_rfl)
      fun a ha => .inl (h.astStack ▸ ha)
  | wrote h =>
    exact fun ht => ht.plain (e := .wrote _ _ _) trivial rfl rfl rfl rfl ht.functions
  | defined name index h =>
    exact fun ht => ht.insertFunction name _ _ (h ▸ List.mem_cons_self)
  | removed s name => exact fun ht => ht.removeFunction name
  | called h => exact fun ht => ht.call h
  | interrupted s =>
    exact fun ht => ht.plain (e := .interrupted) trivial rfl rfl rfl rfl ht.functions
  | constructed s t =>
    exact fun ht => ht.silent rfl rfl rfl (List.prefix_append _ _) fun a ha => .inl ha
  | redirected s streams outputs inputs =>
    exact fun ht => ht.silent rfl rfl rfl List.prefix_rfl fun a ha => .inl ha
  | restored _ ih =>
    exact fun ht => (ih ht).silent rfl rfl rfl List.prefix_rfl fun a ha => .inl ha
  | scope _ ih =>
    intro ht
    have hacquired : Traced (acquire .localScope _) :=
      ht.silent rfl rfl rfl List.prefix_rfl fun a ha => .inl ha
    exact (ih hacquired).silent rfl rfl rfl List.prefix_rfl fun a ha => .inl ha
  | @interpret b cur a s s' t htree _ ih =>
    intro ht
    have hlive : a < s.asts.length ∧ LiveAfter s.log a := by
      unfold Interpreter.tree at htree
      split_ifs at htree with hmem
      exact ⟨(List.getElem?_eq_some_iff.mp htree).1, fun hend => hmem ((ht.destroyed a).mpr hend)⟩
    have hpushed : Traced { s with astStack := a :: s.astStack } :=
      ht.silent rfl rfl rfl List.prefix_rfl fun c hc =>
        (List.mem_cons.mp hc).symm.imp_right fun (heq : c = a) => heq ▸ hlive
    exact (ih hpushed).silent rfl rfl rfl List.prefix_rfl fun c hc =>
      .inl (List.mem_of_mem_tail hc)
  | @temporary b cur s s' t h ih =>
    intro ht
    have hbuilt : Traced { s with asts := s.asts ++ [t] } :=
      ht.silent rfl rfl rfl (List.prefix_append _ _) fun a ha => .inl ha
    have hlen : s.asts.length < s'.asts.length := by
      have := h.grows.asts.length_le
      rw [List.length_append, List.length_singleton] at this
      exact this
    refine (ih hbuilt).destroy hlen fun c hc => ?_
    rw [h.looselyBalanced.astStack] at hc
    exact Nat.ne_of_lt (ht.stack c hc).1

theorem traced_initial (stdin : List Char) (budget : Option Nat) :
    Traced { Interpreter.initial stdin with budget := budget } where
  functions name := Std.ExtTreeMap.getElem?_empty
  destroyed a := iff_of_false List.not_mem_nil List.not_mem_nil
  constructed a hmem := absurd hmem List.not_mem_nil
  stack a ha := absurd ha List.not_mem_nil
  calls c hc := absurd hc List.not_mem_nil
  definitions name f walked earlier hsuffix := by cases List.suffix_nil.mp hsuffix

theorem Reached.traced {host : Host} {s : Interpreter} (h : Reached host s) : Traced s := by
  obtain ⟨n, d, targetPath, preloadPath, vars, stdin, budget, r, hrun⟩ := h
  refine interpret_keeps (I := fun s s' => Traced s → Traced s') (fun _ => id) (fun _ _ _ h₁ h₂ => h₂ ∘ h₁)
    ?_ (fun s s' he => he.traced) host n d targetPath preloadPath vars _ r s hrun
    (traced_initial stdin budget)
  intro s t ht
  exact ht.silent rfl rfl rfl List.prefix_rfl fun a ha => .inl ha

/-! ## Calls -/

namespace Interpreter

/-- The body of a function; a tree stays in the list after the end of its object. -/
def body (s : Interpreter) (f : Function) : Option (Compound shell) :=
  match s.asts[f.ast]? with
  | some (.script _ bodies) => bodies[f.index]?
  | _ => none

/-- A function has a body, the one of another, in a tree that is still there after
a history. -/
structure SameBody (s : Interpreter) (earlier : List Event) (f g : Function) : Prop where
  live : LiveAfter earlier f.ast
  isSome : (s.body f).isSome
  same : s.body f = s.body g

/-- Every call runs the body of the latest definition. -/
def LatestDefinitionWins (s : Interpreter) : Prop :=
  ∀ c ∈ calls s.log, ∃ g, latestDefinition c.name c.earlier = some g ∧
    s.SameBody c.earlier c.function g

/-- At every call, the first definition since the last removal is as good as the
latest one. -/
def FirstDefinitionsStand (s : Interpreter) : Prop :=
  ∀ c ∈ calls s.log, ∀ f g, firstDefinition c.name c.earlier = some f →
    latestDefinition c.name c.earlier = some g → s.SameBody c.earlier f g

end Interpreter

theorem latestDefinitionWins_iff (host : Host) (s : Interpreter) (h : Reached host s) :
    s.LatestDefinitionWins ↔ s.FirstDefinitionsStand := by
  constructor
  · intro hwins c hc f g hfirst hlatest
    obtain ⟨g', hlatest', hsame⟩ := hwins c hc
    rw [h.traced.calls c hc] at hfirst
    rw [hlatest] at hlatest'
    cases hfirst
    cases hlatest'
    exact hsame
  · intro hstand c hc
    have hfirst := h.traced.calls c hc
    have hsome := firstDefinition_isSome c.name c.earlier
    rw [hfirst] at hsome
    obtain ⟨g, hlatest⟩ := Option.isSome_iff_exists.mp hsome.symm
    exact ⟨g, hlatest, hstand c hc c.function g hfirst hlatest⟩

/-- `f() { echo A; }; f() { echo B; }; f`. -/
def twoDefinitions : Tree :=
  .script
    (.ofSimple (.functionDefinition "f" 0) [.functionDefinition "f" 1, .literals "f" []])
    [.currentShell (.ofSimple (.literals "echo" ["A"]) []),
      .currentShell (.ofSimple (.literals "echo" ["B"]) [])]

def twoDefinitionsHost : Host :=
  .ofScript "f() { echo A; }; f() { echo B; }; f" twoDefinitions

theorem latestDefinitionWins_iff_twoDefinitions :
    ∃ s, Reached twoDefinitionsHost s ∧ (s.LatestDefinitionWins ↔ s.FirstDefinitionsStand) := by
  obtain ⟨s, hs⟩ := exists_reached twoDefinitionsHost 0 2 "a.bash" none ∅ [] (by decide +kernel)
  exact ⟨s, hs, latestDefinitionWins_iff _ s hs⟩

/-- The word that a body echoes. -/
def echoed : Compound shell → Option String
  | .currentShell (.last (.command (.simple [] (.simple _ [.string [.part (.text text)]] [] false)))) =>
    some text
  | _ => none

theorem not_latestDefinitionWins_twoDefinitions :
    ∃ s, Reached twoDefinitionsHost s ∧ ¬s.LatestDefinitionWins := by
  let run := interpret twoDefinitionsHost 0 2 "a.bash" none ∅ (.initial [])
  let differs (s : Interpreter) : Bool := (calls s.log).any fun c =>
    (latestDefinition c.name c.earlier).any fun g =>
      (s.body c.function).bind echoed != (s.body g).bind echoed
  have hrun : run.map (fun out => differs out.2) = some true := by decide +kernel
  obtain ⟨⟨r, s⟩, hs, hdiffers⟩ := Option.map_eq_some_iff.mp hrun
  refine ⟨s, ⟨0, 2, "a.bash", none, ∅, [], none, r, hs⟩, fun hwins => ?_⟩
  obtain ⟨c, hc, hany⟩ := List.any_eq_true.mp hdiffers
  obtain ⟨g, hlatest, hsame⟩ := hwins c hc
  rw [hlatest, Option.any_some, hsame.same] at hany
  exact absurd hany (by simp)

/-! ## The trees of functions -/

/-- Every entry of the table refers to a tree that is still there. -/
def FunctionsLive (log : List Event) : Prop :=
  ∀ name f, firstDefinition name log = some f → LiveAfter log f.ast

namespace Interpreter

/-- It is so at every moment of the run. -/
def FunctionsLiveThroughout (s : Interpreter) : Prop :=
  ∀ log, log <:+ s.log → FunctionsLive log

/-- No object is destroyed while the table refers to it. -/
def EndsUnreferenced (s : Interpreter) : Prop :=
  ∀ a earlier, (Event.ended a :: earlier) <:+ s.log →
    ∀ name f, firstDefinition name earlier = some f → f.ast ≠ a

end Interpreter

/-- One event keeps the entries alive, but for the end of an object. -/
theorem functionsLive_cons {e : Event} {log : List Event} (h : FunctionsLive log)
    (hdefined : ∀ name f walked, e = .defined name f walked → LiveAfter log f.ast)
    (hended : ∀ a, e = .ended a → ∀ name f, firstDefinition name log = some f → f.ast ≠ a) :
    FunctionsLive (e :: log) := by
  intro name f hf
  cases e with
  | defined x g walked =>
    refine liveAfter_cons (fun heq => by cases heq) ?_
    simp only [firstDefinition] at hf
    split_ifs at hf with hx
    · cases hfirst : firstDefinition name log with
      | none =>
        rw [hfirst] at hf
        cases hf
        exact hdefined x g walked rfl
      | some f' =>
        rw [hfirst] at hf
        cases hf
        exact h name f' hfirst
    · exact h name f hf
  | removed x =>
    refine liveAfter_cons (fun heq => by cases heq) ?_
    simp only [firstDefinition] at hf
    split_ifs at hf
    exact h name f hf
  | ended a =>
    have hne := hended a rfl name f hf
    exact liveAfter_cons (fun heq => hne (Event.ended.inj heq).symm) (h name f hf)
  | wrote | called | interrupted => exact liveAfter_cons (fun heq => by cases heq) (h _ _ hf)

theorem functionsLiveThroughout_iff (host : Host) (s : Interpreter) (h : Reached host s) :
    s.FunctionsLiveThroughout ↔ s.EndsUnreferenced := by
  constructor
  · intro hlive a earlier hsuffix name f hf hast
    refine hlive _ hsuffix name f hf ?_
    rw [hast]
    exact List.mem_cons_self
  · intro hends log
    -- by induction on the history, from its oldest event on
    induction log with
    | nil => exact fun _ name f hf => by cases hf
    | cons e log ih =>
      intro hsuffix
      refine functionsLive_cons (ih ((List.suffix_cons e log).trans hsuffix)) ?_ ?_
      · rintro name f walked rfl
        exact h.traced.definitions name f walked log hsuffix
      · rintro a rfl
        exact hends a log hsuffix

/-- `eval 'f() { :; }'`. -/
def evalDefinitionHost : Host :=
  .ofTexts
    [((.start, "eval 'f() { :; }'"),
        .script (.ofSimple (.simple (.literal "eval") [.string [.part (.singleQuoted "f() { :; }")]]
          [] false) []) []),
      ((.start, "f() { :; }"),
        .script (.ofSimple (.functionDefinition "f" 0) [])
          [.currentShell (.ofSimple (.literals ":" []) [])])]
    [("a.bash", "eval 'f() { :; }'")]

theorem functionsLiveThroughout_iff_evalDefinition :
    ∃ s, Reached evalDefinitionHost s ∧ (s.FunctionsLiveThroughout ↔ s.EndsUnreferenced) := by
  obtain ⟨s, hs⟩ := exists_reached evalDefinitionHost 0 2 "a.bash" none ∅ [] (by decide +kernel)
  exact ⟨s, hs, functionsLiveThroughout_iff _ s hs⟩

theorem not_functionsLiveThroughout_evalDefinition :
    ∃ s, Reached evalDefinitionHost s ∧ ¬s.FunctionsLiveThroughout := by
  let run := interpret evalDefinitionHost 0 2 "a.bash" none ∅ (.initial [])
  let isEnd (a : AstId) : Event → Bool
    | .ended c => c == a
    | _ => false
  let dangling (s : Interpreter) : Bool :=
    (firstDefinition "f" s.log).any fun f => s.log.any (isEnd f.ast)
  have hrun : run.map (fun out => dangling out.2) = some true := by decide +kernel
  obtain ⟨⟨r, s⟩, hs, hdangling⟩ := Option.map_eq_some_iff.mp hrun
  refine ⟨s, ⟨0, 2, "a.bash", none, ∅, [], none, r, hs⟩, fun hlive => ?_⟩
  cases hf : firstDefinition "f" s.log with
  | none =>
    simp only [dangling, hf] at hdangling
    cases hdangling
  | some f =>
    simp only [dangling, hf, Option.any_some] at hdangling
    obtain ⟨e, he, hend⟩ := List.any_eq_true.mp hdangling
    refine hlive s.log List.suffix_rfl "f" f hf ?_
    cases e with
    | ended a =>
      rw [← beq_iff_eq.mp hend]
      exact he
    | _ => cases hend

end Libbash
