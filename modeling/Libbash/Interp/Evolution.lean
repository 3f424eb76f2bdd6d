import Libbash.Walker.Kept
import Libbash.Walker.LoopControl
import Libbash.Interp.Api
import Libbash.Interp.StoreSteps

/-!
# How the interpreter evolves

`Evolves` lists everything that a run can do to the interpreter: the changes
that single operations make, and the resources that are taken before a part of
the run and given back after it. The theorem `runShell_evolves`, with those for
command trees, says that every rule and every builtin does nothing else,
however it ends. What holds of all runs is proved by induction on `Evolves`.

The flag says whether the streams may be different afterwards, as they are
after a redirection, and `cur` is the object whose tree is walked.
-/

namespace Libbash

open Lib Lib.Comp

/-! ## The relation -/

/-- Nothing is different but the status, the options, the cache, what has been
read and written, and the budget. -/
structure SameCore (s s' : Interpreter) : Prop where
  store : s'.store = s.store
  functions : s'.functions = s.functions
  astStack : s'.astStack = s.astStack
  streams : s'.streams = s.streams
  asts : s'.asts = s.asts
  destroyed : s'.destroyed = s.destroyed
  log : s'.log = s.log

inductive Evolves : Bool → AstId → Interpreter → Interpreter → Prop where
  | refl {b : Bool} {cur : AstId} (s : Interpreter) : Evolves b cur s s
  | trans {b : Bool} {cur : AstId} {s₁ s₂ s₃ : Interpreter} (h₁ : Evolves b cur s₁ s₂)
      (h₂ : Evolves b cur s₂ s₃) : Evolves b cur s₁ s₃
  | loosen {cur : AstId} {s s' : Interpreter} (h : Evolves false cur s s') : Evolves true cur s s'
  | other {b : Bool} {cur : AstId} {s s' : Interpreter} (h : SameCore s s') : Evolves b cur s s'
  | wrote {b : Bool} {cur : AstId} {s : Interpreter} {how : Write} {name : String} {level : Nat}
      {t : Store} (h : StoreStep how name level s.store t) :
      Evolves b cur s (Interpreter.record (.wrote how name level) { s with store := t })
  | defined {b : Bool} {cur top : AstId} {rest : List AstId} {s : Interpreter}
      (name : String) (index : Nat) (h : s.astStack = top :: rest) :
      Evolves b cur s (s.insertFunction name ⟨top, index⟩ cur)
  | removed {b : Bool} {cur : AstId} (s : Interpreter) (name : String) :
      Evolves b cur s { s.record (.removed name) with functions := s.functions.erase name }
  | called {b : Bool} {cur : AstId} {s : Interpreter} {name : String} {f : Function}
      (h : s.functions[name]? = some f) : Evolves b cur s (s.record (.called name f s.store))
  | interrupted {b : Bool} {cur : AstId} (s : Interpreter) :
      Evolves b cur s (s.record .interrupted)
  | constructed {b : Bool} {cur : AstId} (s : Interpreter) (t : Tree) :
      Evolves b cur s { s with asts := s.asts ++ [t] }
  | redirected {cur : AstId} (s : Interpreter) (streams : Streams) (outputs : List String)
      (inputs : List InputStream) :
      Evolves true cur s { s with streams := streams, outputs := outputs, inputs := inputs }
  | restored {b : Bool} {cur : AstId} {s s' : Interpreter} (h : Evolves true cur s s') :
      Evolves b cur s { s' with streams := s.streams }
  | scope {b : Bool} {cur : AstId} {s s' : Interpreter}
      (h : Evolves false cur (acquire .localScope s) s') :
      Evolves b cur s (release .localScope s s')
  | interpret {b : Bool} {cur a : AstId} {s s' : Interpreter} {t : Tree} (ht : s.tree a = some t)
      (h : Evolves false a { s with astStack := a :: s.astStack } s') :
      Evolves b cur s { s' with astStack := s'.astStack.tail }
  | temporary {b : Bool} {cur : AstId} {s s' : Interpreter} (t : Tree)
      (h : Evolves false cur { s with asts := s.asts ++ [t] } s') :
      Evolves b cur s (s'.destroy s.asts.length)

theorem Evolves.relax {b : Bool} {cur : AstId} {s s' : Interpreter} (h : Evolves false cur s s') :
    Evolves b cur s s' := by
  cases b with
  | false => exact h
  | true => exact .loosen h

/-! ## Operations -/

section Operations

variable {b : Bool} {cur : AstId} {α : Type}

theorem onStore_cases {m : Comp Exn Store α} {s s' : Interpreter} {r : Except Exn α}
    (h : onStore m s = some (r, s')) :
    ∃ t, m s.store = some (r, t) ∧ s' = { s with store := t } := by
  unfold onStore zoom at h
  cases hm : m s.store with
  | none =>
    rw [hm] at h
    cases h
  | some out =>
    obtain ⟨r₁, t⟩ := out
    rw [hm] at h
    cases h
    exact ⟨t, rfl, rfl⟩

/-- An operation that writes a variable changes the variables and the log. -/
theorem writing_cases {how : Write} {name : String} {level : Store → Nat} {m : Comp Exn Store α}
    {s s' : Interpreter} {r : Except Exn α} (h : writing how name level m s = some (r, s')) :
    m s.store = some (r, s'.store) ∧ ∃ log, s' = { s with store := s'.store, log := log } := by
  unfold writing at h
  rw [reads_bind_apply] at h
  rcases bind_cases h with ⟨a, s₁, hm, hrest⟩ | ⟨e, hm, rfl⟩
  · obtain ⟨t, ht, rfl⟩ := onStore_cases hm
    cases hrest
    exact ⟨ht, _, rfl⟩
  · obtain ⟨t, ht, rfl⟩ := onStore_cases hm
    exact ⟨ht, s.log, rfl⟩

theorem writing_store {how : Write} {name : String} {level : Store → Nat} {m : Comp Exn Store α}
    {s s' : Interpreter} {r : Except Exn α} (h : writing how name level m s = some (r, s')) :
    m s.store = some (r, s'.store) := (writing_cases h).1

/-- An operation of the store either succeeds with a step or raises and changes
nothing. -/
theorem writing_evolves {how : Write} {name : String} {level : Store → Nat}
    {m : Comp Exn Store α} {s s' : Interpreter} {r : Except Exn α}
    (hok : ∀ a t, m s.store = some (.ok a, t) → StoreStep how name (level s.store) s.store t)
    (herr : ∀ e t, m s.store = some (.error e, t) → t = s.store)
    (h : writing how name level m s = some (r, s')) : Evolves b cur s s' := by
  unfold writing at h
  rw [reads_bind_apply] at h
  rcases bind_cases h with ⟨a, s₁, hm, hrest⟩ | ⟨e, hm, -⟩
  · obtain ⟨t, ht, rfl⟩ := onStore_cases hm
    cases hrest
    exact .wrote (hok a t ht)
  · obtain ⟨t, ht, rfl⟩ := onStore_cases hm
    rw [herr e t ht]
    exact .refl s

end Operations

/-! ## Trees of their own -/

/-- The rules that start on a tree of their own evolve the interpreter. -/
structure Reentry.Evolve (re : Reentry) : Prop where
  list : ∀ a c, Keeps (Evolves false a) (re.list a c)
  compound : ∀ a c, Keeps (Evolves false a) (re.compound a c)
  stringExpr : ∀ a w, Keeps (Evolves false a) (re.stringExpr w)
  arithmetics : ∀ a e, Keeps (Evolves false a) (re.arithmetics e)

section Reentry

variable {host : Host} {re : Reentry} (hre : re.Evolve) {b : Bool} {cur : AstId} {α : Type}

/-- An object that has been destroyed has no tree to walk. -/
theorem interpretWith_cases {a : AstId} {walk : Tree → Comp Exn Interpreter α} {s s' : Interpreter}
    {r : Except Exn α} (h : interpretWith a walk s = some (r, s')) :
    (s.tree a = none ∧ s' = s) ∨
      ∃ t s₁, s.tree a = some t ∧ walk t { s with astStack := a :: s.astStack } = some (r, s₁) ∧
        s' = { s₁ with astStack := s₁.astStack.tail } := by
  obtain ⟨s₁, hbody, rfl⟩ := bracket_cases h
  have htop : ({ s with astStack := a :: s.astStack } : Interpreter).tree a = s.tree a := rfl
  rw [reads_bind_apply] at hbody
  simp only [id_eq, htop] at hbody
  cases ht : s.tree a with
  | none =>
    rw [ht] at hbody
    cases hbody
    exact .inl ⟨rfl, rfl⟩
  | some t =>
    rw [ht] at hbody
    exact .inr ⟨t, s₁, rfl, hbody, rfl⟩

theorem interpretWith_evolves {a : AstId} {walk : Tree → Comp Exn Interpreter α}
    (hwalk : ∀ t, Keeps (Evolves false a) (walk t)) : Keeps (Evolves b cur) (interpretWith a walk) := by
  intro s r s' hrun
  rcases interpretWith_cases hrun with ⟨-, rfl⟩ | ⟨t, s₁, ht, hbody, rfl⟩
  · exact .refl _
  · exact .interpret ht (hwalk t _ _ _ hbody)

include hre in
theorem walk_evolves (a : AstId) (rule : WalkerRule α) (t : Tree) :
    Keeps (Evolves false a) (re.walk a rule t) := by
  have hthrow : ∀ β : Type,
      Keeps (Evolves false a) (throw .undefinedBehaviour : Comp Exn Interpreter β) :=
    fun β => keeps_throw .refl _
  cases rule with
  | start =>
    cases t with
    | script main bodies => exact hre.list a main
    | word w => exact hthrow _
    | arithmetic e => exact hthrow _
  | stringExpr =>
    cases t with
    | script main bodies => exact hthrow _
    | word w => exact hre.stringExpr a w
    | arithmetic e => exact hthrow _
  | arithmetics =>
    cases t with
    | script main bodies => exact hthrow _
    | word w => exact hthrow _
    | arithmetic e => exact hre.arithmetics a e

theorem constructAst_cases {rule : ParserRule} {script : String} {s s' : Interpreter}
    {r : Except Exn AstId} (h : constructAst host rule script s = some (r, s')) :
    (∃ t, r = .ok s.asts.length ∧ s' = { s with asts := s.asts ++ [t] }) ∨
      ∃ e, r = .error e ∧ s' = s := by
  unfold constructAst at h
  cases hp : host.parse rule script with
  | error e =>
    rw [hp] at h
    cases h
    exact .inr ⟨e, rfl, rfl⟩
  | ok t =>
    rw [hp] at h
    cases h
    exact .inl ⟨t, rfl, rfl⟩

theorem constructAst_evolves (rule : ParserRule) (script : String) :
    Keeps (Evolves b cur) (constructAst host rule script) := by
  intro s r s' hrun
  rcases constructAst_cases hrun with ⟨t, -, rfl⟩ | ⟨e, -, rfl⟩
  · exact .constructed s t
  · exact .refl _

include hre in
theorem interpretTemporary_evolves (rule : ParserRule) (script : String) (walk : WalkerRule α) :
    Keeps (Evolves b cur) (interpretTemporary host re rule script walk) := by
  intro s r s' hrun
  rcases bind_cases hrun with ⟨a, s₁, hnew, hrest⟩ | ⟨e, hnew, -⟩
  · rcases constructAst_cases hnew with ⟨t, ha, rfl⟩ | ⟨e, he, -⟩
    · cases ha
      obtain ⟨s₂, hbody, rfl⟩ := bracket_cases hrest
      exact .temporary t (interpretWith_evolves (walk_evolves hre _ walk) _ _ _ hbody)
    · cases he
  · rcases constructAst_cases hnew with ⟨t, ha, -⟩ | ⟨e, -, rfl⟩
    · cases ha
    · exact .refl _

include hre in
theorem call_evolves (f : Function) : Keeps (Evolves b cur) (f.call re) := by
  refine interpretWith_evolves fun t => ?_
  cases t with
  | script main bodies =>
    simp only
    cases bodies[f.index]? with
    | none => exact keeps_throw .refl _
    | some body => exact hre.compound _ body
  | word w => exact keeps_throw .refl _
  | arithmetic e => exact keeps_throw .refl _

include hre in
theorem callFunction_evolves (name : String) : Keeps (Evolves b cur) (callFunction re name) := by
  intro s r s' hrun
  unfold callFunction at hrun
  rw [reads_bind_apply] at hrun
  cases hf : s.functions[name]? with
  | none =>
    simp only [id_eq, hf] at hrun
    cases hrun
    exact .refl s
  | some f =>
    simp only [id_eq, hf, update_bind_apply] at hrun
    exact .trans (.called hf) (call_evolves hre f _ _ _ hrun)

include hre in
/-- Every operation. -/
theorem performOp_evolves (o : Op α) : Keeps (Evolves b cur) (performOp host re o) := by
  cases o with
  -- Reads change nothing, writes to the store are recorded, and the rest leaves functions and
  -- files as they are.
  | resolveVariable name => exact keeps_reads .refl _
  | isUnset name => exact keeps_reads .refl _
  | isLocalScope => exact keeps_reads .refl _
  | setValue name new index =>
    intro s r s' hrun
    rw [performOp, reads_bind_apply] at hrun
    exact writing_evolves (fun _ _ h => storeStep_setValue new index h)
      (fun _ _ h => setValue_error h) hrun
  | define name init readonly =>
    intro s r s' hrun
    rw [performOp] at hrun
    exact writing_evolves
      (fun _ _ h => storeStep_define init readonly (fun hstar => absurd hstar name.notPositional) h)
      (fun _ _ h => by cases h) hrun
  | defineLocal name init readonly =>
    intro s r s' hrun
    rw [performOp] at hrun
    exact writing_evolves (fun _ _ h => storeStep_defineLocal init readonly h)
      (fun _ _ h => defineLocal_error h) hrun
  | unset name =>
    intro s r s' hrun
    rw [performOp] at hrun
    exact writing_evolves (fun _ _ h => storeStep_unset h) (fun _ _ h => unset_error h) hrun
  | unsetIndex name index =>
    intro s r s' hrun
    rw [performOp] at hrun
    exact writing_evolves (fun _ _ h => storeStep_unsetIndex index h)
      (fun _ _ h => unsetIndex_error h) hrun
  | shift number =>
    intro s r s' hrun
    rw [performOp] at hrun
    exact writing_evolves (fun _ _ h => storeStep_shift number h)
      (fun _ _ h => shiftParameters_error h) hrun
  | defineFunctionArguments arguments =>
    intro s r s' hrun
    rw [performOp] at hrun
    exact writing_evolves (fun _ _ h => storeStep_defineFunctionArguments arguments h)
      (fun _ _ h => defineFunctionArguments_error h) hrun
  | definePositionalArguments arguments =>
    intro s r s' hrun
    rw [performOp] at hrun
    exact writing_evolves (fun _ _ h => storeStep_definePositionalArguments arguments h)
      (fun _ _ h => definePositionalArguments_error h) hrun
  | hasFunction name => exact keeps_reads .refl _
  | allFunctionNames => exact keeps_reads .refl _
  | callFunction name => exact callFunction_evolves hre name
  | unsetFunction name => exact keeps_update fun s => .removed s name
  | getStatus => exact keeps_reads .refl _
  | setStatus status => exact keeps_update fun s => .other ⟨rfl, rfl, rfl, rfl, rfl, rfl, rfl⟩
  | getOption name =>
    refine keeps_bind (fun {a b c} => .trans) (keeps_reads .refl _) fun value => ?_
    cases value with
    | none => exact keeps_throw .refl _
    | some value => exact keeps_pure .refl _
  | setOption name value =>
    refine keeps_bind (fun {a b c} => .trans) (keeps_reads .refl _) fun old => ?_
    cases old with
    | none => exact keeps_throw .refl _
    | some old => exact keeps_update fun s => .other ⟨rfl, rfl, rfl, rfl, rfl, rfl, rfl⟩
  | getAdditionalOption name =>
    refine keeps_bind (fun {a b c} => .trans) (keeps_reads .refl _) fun value => ?_
    cases value with
    | none => exact keeps_throw .refl _
    | some value => exact keeps_pure .refl _
  | setAdditionalOption name value =>
    refine keeps_bind (fun {a b c} => .trans) (keeps_reads .refl _) fun old => ?_
    cases old with
    | none => exact keeps_throw .refl _
    | some old => exact keeps_update fun s => .other ⟨rfl, rfl, rfl, rfl, rfl, rfl, rfl⟩
  | additionalOptions => exact keeps_reads .refl _
  | write text => exact keeps_update fun s => .other ⟨rfl, rfl, rfl, rfl, rfl, rfl, rfl⟩
  | writeError text => exact keeps_update fun s => .other ⟨rfl, rfl, rfl, rfl, rfl, rfl, rfl⟩
  | readInput =>
    refine keeps_bind (fun {a b c} => .trans) (keeps_reads .refl _) fun s => ?_
    refine keeps_bind (fun {a b c} => .trans) (keeps_update fun s => ?_) fun _ => keeps_pure .refl _
    exact .other ⟨rfl, rfl, rfl, rfl, rfl, rfl, rfl⟩
  | captured => exact keeps_reads .refl _
  | interpretScript rule source => exact interpretTemporary_evolves hre _ _ _
  | interpretWord trim source => exact interpretTemporary_evolves hre _ _ _
  | interpretArithmetics source => exact interpretTemporary_evolves hre _ _ _
  | constructFile path =>
    rw [performOp]
    cases host.readFile path with
    | none => exact keeps_throw .refl _
    | some source => exact constructAst_evolves _ _
  | findCached path => exact keeps_reads .refl _
  | insertCached path ast =>
    exact keeps_update fun s => .other ⟨rfl, rfl, rfl, rfl, rfl, rfl, rfl⟩
  | interpret a => exact interpretWith_evolves (walk_evolves hre a _)
  | tick =>
    refine keeps_bind (fun {a b c} => .trans) (keeps_reads .refl _) fun budget => ?_
    cases budget with
    | none => exact keeps_pure .refl _
    | some k =>
      cases k with
      | zero =>
        exact keeps_bind (fun {a b c} => .trans) (keeps_update .interrupted) fun _ =>
          keeps_throw .refl _
      | succ k => exact keeps_update fun s => .other ⟨rfl, rfl, rfl, rfl, rfl, rfl, rfl⟩

/-! ## Programs and command trees -/

include hre in
theorem handler_respects : Program.Respects (handler host re) (Evolves false cur) where
  refl := .refl
  trans _ _ _ := .trans
  perform o := performOp_evolves hre o
  within br s s' h := by
    cases br with
    | localScope => exact .scope h
    | captureOutput => exact .restored (.trans (.redirected s _ _ _) (.loosen h))

include hre in
theorem walkStep_evolves (p : Shell α) : Keeps (Evolves b cur) (walkStep host re p) :=
  fun _ _ _ hrun => (Program.run_keeps (handler_respects hre) _ _ _ _ hrun).relax

theorem defineFunction_evolves (name : String) (index : Nat) :
    Keeps (Evolves b cur) (defineFunction name index cur) := by
  unfold defineFunction
  split_ifs
  · exact keeps_throw .refl _
  · intro s r s' hrun
    rw [reads_bind_apply] at hrun
    cases hs : s.astStack with
    | nil =>
      simp only [id_eq, hs] at hrun
      cases hrun
      exact .refl s
    | cons top rest =>
      simp only [id_eq, hs] at hrun
      cases hrun
      exact .defined name index hs

include hre in
theorem simpleAtom_evolves (c : SimpleCommand) :
    Keeps (Evolves b cur) (simpleAtom host re cur c) := by
  cases c with
  | variableDefinitions isLocal defs => exact walkStep_evolves hre _
  | functionDefinition name index =>
    exact keeps_bind (fun {a b c} => .trans) (walkStep_evolves hre _) fun _ =>
      defineFunction_evolves name index
  | simple name args defs bang => exact walkStep_evolves hre _

theorem redirected_evolves (d : Shell.Redirected) (s : Interpreter) :
    Evolves true cur s (Interpreter.redirected d s) := by
  cases d with
  | input i => exact .redirected s _ _ _
  | output => exact .redirected s _ _ _
  | nothing => exact .refl s

include hre in
theorem leafSem_respects :
    (leafSem host re cur).Respects (Evolves false cur) (Evolves true cur) where
  refl := .refl
  trans _ _ _ := .trans
  weaken _ _ := .loosen
  transWeak _ _ _ := .trans
  restore _ _ h := .restored h
  setStatus _ _ := .other ⟨rfl, rfl, rfl, rfl, rfl, rfl, rfl⟩
  redirect _ :=
    keeps_bind (fun {_ _ _} => .trans) (walkStep_evolves hre _) fun d =>
      keeps_update (redirected_evolves d)
  simple c := simpleAtom_evolves hre c
  cond _ := walkStep_evolves hre _
  arith _ := walkStep_evolves hre _
  forWord _ := walkStep_evolves hre _
  positional := walkStep_evolves hre _
  setValue _ _ := walkStep_evolves hre _
  caseWord _ := walkStep_evolves hre _
  matchPattern _ _ := walkStep_evolves hre _

end Reentry

theorem reentry_evolve (host : Host) (n d : Nat) : (reentry host n d).Evolve := by
  induction d with
  | zero => exact ⟨fun _ _ => keeps_diverge, fun _ _ => keeps_diverge, fun _ _ => keeps_diverge,
      fun _ _ => keeps_diverge⟩
  | succ d ih =>
    exact ⟨fun _ c => execList_keeps (leafSem_respects ih) n c,
      fun _ c => execCompound_keeps (leafSem_respects ih) n c,
      fun _ _ => walkStep_evolves ih _, fun _ _ => walkStep_evolves ih _⟩

/-- A command tree of any kind, while the tree of `cur` is walked. -/
def runTree (host : Host) (n d : Nat) (cur : AstId) (F : Focus shell) : Comp Exn Interpreter Unit :=
  F.run (leafSem host (reentry host n d) cur) n

/-- What the rules below the command level keep is kept by a tree of any kind. -/
theorem runTree_keeps {host : Host} {n d : Nat} {cur : AstId}
    {J W : Interpreter → Interpreter → Prop}
    (h : (leafSem host (reentry host n d) cur).Respects J W) (F : Focus shell) :
    Keeps J (runTree host n d cur F) := by
  cases F with
  | list c => exact execList_keeps h n c
  | logic c => exact execLogic_keeps h n c
  | command c => exact execCommand_keeps h n c
  | simple c => exact h.simple c
  | compound c => exact execCompound_keeps h n c
  | elseParts c => exact execElse_keeps h n c
  | clauses target c => exact execClauses_keeps h n target c
  | loop l =>
    cases l with
    | forEach name body values => exact h.forLoop name (execList_keeps h n body) values
    | cfor cond mod body passes => exact h.cforLoop cond mod (execList_keeps h n body) passes
    | whileUntil negate cond body passes =>
      exact h.whileLoop negate (execList_keeps h n cond) (execList_keeps h n body) passes

theorem runTree_evolves (host : Host) (n d : Nat) (cur : AstId) (F : Focus shell) :
    Keeps (Evolves false cur) (runTree host n d cur F) :=
  runTree_keeps (leafSem_respects (reentry_evolve host n d)) F

theorem within_cases {host : Host} {n d : Nat} {br : Bracket} {α : Type} {p : Shell α}
    {s s' : Interpreter} {r : Except Exn α}
    (h : runShell host n d (.within br p) s = some (r, s')) :
    ∃ s₁, runShell host n d p (acquire br s) = some (r, s₁) ∧ s' = release br s s₁ := by
  unfold runShell at h
  rw [Program.run_within] at h
  exact bracket_cases h

/-- Every program of the interpreter. -/
theorem runShell_evolves (host : Host) (n d : Nat) (cur : AstId) {α : Type} (p : Shell α) :
    Keeps (Evolves false cur) (runShell host n d p) :=
  Program.run_keeps (handler_respects (reentry_evolve host n d)) p

/-- What every step and every change of the store keep is kept by `interpret`. -/
theorem interpret_keeps {I : Interpreter → Interpreter → Prop} (hrefl : ∀ s, I s s)
    (htrans : ∀ a b c, I a b → I b c → I a c) (hstore : ∀ s t, I s { s with store := t })
    (hevolves : ∀ s s', Evolves false 0 s s' → I s s') (host : Host) (n d : Nat)
    (targetPath : String) (preloadPath : Option String) (vars : VariableMap) :
    Keeps I (interpret host n d targetPath preloadPath vars) := by
  have honStore : ∀ {α : Type} (m : Comp Exn Store α), Keeps I (onStore m) := by
    intro α m s r s' hrun
    obtain ⟨t, -, rfl⟩ := onStore_cases hrun
    exact hstore s t
  have hfile : ∀ path, Keeps I (interpretFile host n d path) := fun path s r s' hrun =>
    hevolves s s' (runShell_evolves host n d 0 _ s r s' hrun)
  have hinternal : ∀ path, Keeps I (internalInterpret host n d path vars) := by
    intro path
    refine keeps_bind (fun {a b c} => htrans a b c) (honStore _) fun _ => ?_
    refine keeps_bind (fun {a b c} => htrans a b c) (honStore _) fun _ => ?_
    exact keeps_bind (fun {a b c} => htrans a b c) (hfile path) fun _ => keeps_reads hrefl _
  cases preloadPath with
  | none => exact hinternal targetPath
  | some path => exact keeps_bind (fun {a b c} => htrans a b c) (hfile path) fun _ => hinternal targetPath

end Libbash
