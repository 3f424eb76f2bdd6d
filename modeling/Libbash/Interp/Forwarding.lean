import Libbash.Interp.Calls
import Libbash.Interp.Reading

/-!
# Forwarding with `"$@"`

A wrapper is a function whose body is `g "$@"`. `array_name` names the positional
parameters for `$@` as it does for `$*`, and `var_ref` joins their values, so
a wrapper passes on one argument or none (`forwarded`). `forwards_iff` says for a
chain of wrappers when the function at its end gets the arguments that the first
one was called with.
-/

namespace Libbash

open Lib Lib.Comp Lib.Program

/-! ## Chains of wrappers -/

/-- `{ g "$@"; }`. -/
def forwardingBody (target : String) : Compound shell :=
  .currentShell (.ofSimple (.simple (.literal target) [.quoted (.array .at)] [] false) [])

/-- The wrappers `ws`, of which `f` is the first, lead to the function `g`. -/
inductive Forwards (s : Interpreter) (g : String) : String → List String → Prop
  | target {fn : Function} (hname : checkFunctionName g = true) (hfn : s.functions[g]? = some fn) :
      Forwards s g g []
  | wrapper {f next : String} {ws : List String} {fn : Function} {main : CommandList shell}
      {bodies : List (Compound shell)} (hname : checkFunctionName f = true)
      (hfn : s.functions[f]? = some fn) (htree : s.asts[fn.ast]? = some (.script main bodies))
      (hbody : bodies[fn.index]? = some (forwardingBody next)) (hrest : Forwards s g next ws) :
      Forwards s g f (f :: ws)

/-- The functions and the trees are the same, and so is what `IFS` is read as. -/
structure SameTables (s s' : Interpreter) : Prop where
  functions : s'.functions = s.functions
  asts : s'.asts = s.asts
  destroyed : s'.destroyed = s.destroyed
  options : s'.options = s.options
  ifs : s'.store.resolveVariable "IFS" = s.store.resolveVariable "IFS"

theorem Forwards.first {s : Interpreter} {g f : String} {ws : List String} (h : Forwards s g f ws) :
    checkFunctionName f = true ∧ ∃ fn, s.functions[f]? = some fn := by
  cases h with
  | target hname hfn => exact ⟨hname, _, hfn⟩
  | wrapper hname hfn _ _ _ => exact ⟨hname, _, hfn⟩

namespace SameTables

variable {s s₁ s' : Interpreter}

theorem refl (s : Interpreter) : SameTables s s := ⟨rfl, rfl, rfl, rfl, rfl⟩

theorem trans (h : SameTables s s₁) (h' : SameTables s₁ s') : SameTables s s' :=
  ⟨h'.functions.trans h.functions, h'.asts.trans h.asts, h'.destroyed.trans h.destroyed,
    h'.options.trans h.options, h'.ifs.trans h.ifs⟩

theorem parameter (h : SameTables s s') (index : UInt32) :
    s'.store.parameter "IFS" index = s.store.parameter "IFS" index := by
  unfold Store.parameter
  rw [h.ifs]

theorem delimiter (h : SameTables s s') : s'.delimiter = s.delimiter := by
  unfold Interpreter.delimiter
  rw [h.parameter]

theorem bound (h : SameTables s s') : s'.Bound "IFS" 0 ↔ s.Bound "IFS" 0 := by
  unfold Interpreter.Bound Interpreter.nounset
  rw [h.parameter, h.options]

end SameTables

/-! ## What is forwarded -/

/-- The arguments that `"$@"` makes of a list. -/
def forwarded (delim : String) (args : List String) : List String :=
  if (delim.intercalate args).isEmpty then [] else [delim.intercalate args]

theorem forwarded_nil (delim : String) : forwarded delim [] = [] := rfl

theorem forwarded_single (delim : String) {a : String} (ha : a ≠ "") : forwarded delim [a] = [a] := by
  unfold forwarded
  rw [String.intercalate_singleton, if_neg]
  rwa [String.isEmpty_iff]

theorem forwarded_eq_self_iff (delim : String) (args : List String) :
    forwarded delim args = args ↔ args = [] ∨ ∃ a, a ≠ "" ∧ args = [a] := by
  constructor
  · intro h
    unfold forwarded at h
    split_ifs at h with hempty
    · exact .inl h.symm
    · refine .inr ⟨delim.intercalate args, ?_, h.symm⟩
      rwa [String.isEmpty_iff] at hempty
  · rintro (rfl | ⟨a, ha, rfl⟩)
    · exact forwarded_nil delim
    · exact forwarded_single delim ha

/-- What has been forwarded once is forwarded as it is. -/
theorem forwarded_forwarded (delim : String) (args : List String) :
    forwarded delim (forwarded delim args) = forwarded delim args := by
  rw [forwarded_eq_self_iff]
  unfold forwarded
  split_ifs with hempty
  · exact .inl rfl
  · rw [String.isEmpty_iff] at hempty
    exact .inr ⟨_, hempty, rfl⟩

/-- `$#` and every `$i` are those of the given arguments. -/
structure Receives (t : Store) (args : List String) : Prop where
  count : (t.resolveVariable "*").map Variable.getArrayLength = some args.length
  parameter : ∀ i a, args[i]? = some a → t.parameter "*" (.ofNat (i + 1)) = some a

theorem receives_of_positional {t : Store} {args : List String} (hlen : args.length < 2 ^ 32)
    (ht : t.resolveVariable "*" = some (positionalVariable args)) : Receives t args where
  count := by
    rw [ht, Option.map_some, positionalVariable, getArrayLength_ofList (by omega)]
  parameter i a hi := by
    rw [parameter_of_resolve ht, positionalVariable, Nat.add_comm i 1, value_ofList (by omega) hi]
    rfl

theorem Receives.unique {t : Store} {args args' : List String} (h : Receives t args)
    (h' : Receives t args') : args = args' := by
  have hlength : args.length = args'.length := Option.some.inj (h.count.symm.trans h'.count)
  refine List.ext_getElem hlength fun i hi hi' => ?_
  have ha := h.parameter i _ (List.getElem?_eq_getElem hi)
  have ha' := h'.parameter i _ (List.getElem?_eq_getElem hi')
  exact Option.some.inj (ha.symm.trans ha')

/-! ## The start of a call -/

/-- The calls among the events of a run, in the order in which they were made. -/
def callsOf (events : List Event) : List (String × Store) :=
  events.reverse.filterMap fun
    | .called name _ store => some (name, store)
    | _ => none

/-- The body of a function is about to start. -/
structure Entered (name : String) (f : Function) (args : List String) (s s₁ : Interpreter) :
    Prop where
  log : s₁.log =
    .called name f s₁.store :: .wrote .define "*" s₁.store.localMembers.length :: s.log
  tables : SameTables s s₁
  budget : s₁.budget = s.budget
  length : args.length < 2 ^ 32
  positional : s₁.store.resolveVariable "*" = some (positionalVariable args)
  frame : s₁.store.localMembers ≠ []

theorem resolveVariable_top {t : Store} {frame : Scope} {frames : List Scope} {x y : String}
    (ht : t.localMembers = frame :: frames) (hne : y ≠ x) (v : Variable) :
    Store.resolveVariable { t with localMembers := frame.insert y v :: frames } x =
      t.resolveVariable x := by
  have hget : (frame.insert y v)[x]? = frame[x]? := by
    rw [Std.ExtTreeMap.getElem?_insert, if_neg]
    rwa [Std.LawfulEqCmp.compare_eq_iff_eq]
  unfold Store.resolveVariable
  rw [ht, resolveLocal, resolveLocal, hget]

theorem resolveVariable_top_self {t : Store} {frame : Scope} {frames : List Scope} {x : String}
    (hx : x.isEmpty = false) (v : Variable) :
    Store.resolveVariable { t with localMembers := frame.insert x v :: frames } x = some v := by
  unfold Store.resolveVariable
  rw [hx, if_neg Bool.false_ne_true, resolveLocal, Std.ExtTreeMap.getElem?_insert_self]

section Enter

variable {host : Host} {n d : Nat} {name : String} {f : Function} {args : List String}
  {bang : Bool} {s s' : Interpreter} {r : Except Exn Unit}

theorem entered_calling {frame : Scope} {frames : List Scope}
    (hframes : s.store.localMembers = frame :: frames) (hlen : args.length < 2 ^ 32) :
    Entered name f args s (s.calling name f args frame frames) where
  log := rfl
  tables := ⟨rfl, rfl, rfl, rfl, resolveVariable_top hframes (by decide) _⟩
  budget := rfl
  length := hlen
  positional := resolveVariable_top_self rfl _
  frame := List.cons_ne_nil _ _

/-- A new frame changes nothing that a call looks at. -/
theorem Entered.of_acquire {s₁ : Interpreter} (h : Entered name f args (acquire .localScope s) s₁) :
    Entered name f args s s₁ where
  log := h.log
  tables := ⟨h.tables.functions, h.tables.asts, h.tables.destroyed, h.tables.options,
    h.tables.ifs.trans (resolveVariable_push s.store "IFS")⟩
  budget := h.budget
  length := h.length
  positional := h.positional
  frame := h.frame

theorem functionCommand_enters {frame : Scope} {frames : List Scope}
    (hf : s.functions[name]? = some f) (hframes : s.store.localMembers = frame :: frames)
    (hrun : runShell host n d (functionCommand host name args bang) s = some (r, s')) :
    ∃ s₁, Entered name f args s s₁ ∧ callRest host n d f bang s₁ = some (r, s') := by
  by_cases hlen : args.length < 2 ^ 32
  · rw [functionCommand_cons hf hframes hlen] at hrun
    exact ⟨_, entered_calling hframes hlen, hrun⟩
  · rw [functionCommand_diverges hf hframes (Nat.le_of_not_lt hlen)] at hrun
    cases hrun

/-- A command that calls a function, when there is a frame for its arguments. -/
theorem executeCommand_enters (hname : checkFunctionName name = true)
    (hf : s.functions[name]? = some f)
    (hframe : Shell.isExempt name = true → s.store.localMembers ≠ [])
    (hrun : runShell host n d (Shell.executeCommand host name args [] bang) s = some (r, s')) :
    ∃ s₁ s₂, Entered name f args s s₁ ∧ callRest host n d f bang s₁ = some (r, s₂) ∧
      s'.log = s₂.log := by
  rw [executeCommand_of_function hname, Shell.inScope] at hrun
  by_cases hexempt : Shell.isExempt name = true
  · rw [if_pos hexempt] at hrun
    obtain ⟨frame, frames, hframes⟩ := List.exists_cons_of_ne_nil (hframe hexempt)
    obtain ⟨s₁, hentered, hrest⟩ := functionCommand_enters hf hframes hrun
    exact ⟨s₁, s', hentered, hrest, rfl⟩
  · rw [if_neg hexempt] at hrun
    obtain ⟨s₂, hbody, rfl⟩ := within_cases hrun
    have hf' : (acquire .localScope s).functions[name]? = some f := hf
    obtain ⟨s₁, hentered, hrest⟩ := functionCommand_enters hf' rfl hbody
    exact ⟨s₁, s₂, hentered.of_acquire, hrest, rfl⟩

/-- Without one it has no place to put them. -/
theorem executeCommand_noFrame (hname : checkFunctionName name = true)
    (hf : s.functions[name]? = some f) (hexempt : Shell.isExempt name = true)
    (hframes : s.store.localMembers = []) :
    runShell host n d (Shell.executeCommand host name args [] bang) s =
      some (.error .undefinedBehaviour, s) := by
  rw [executeCommand_of_function hname, Shell.inScope, if_pos hexempt]
  exact functionCommand_nil hf hframes

end Enter

/-! ## The body of a wrapper -/

section Body

variable {host : Host} {n d : Nat} {name : String} {f : Function} {args : List String}
  {bang : Bool} {s s' : Interpreter} {r : Except Exn Unit}

theorem run_joined_of_bound (hlen : args.length < 2 ^ 32)
    (hpos : s.store.resolveVariable "*" = some (positionalVariable args)) (hifs : s.Bound "IFS" 0) :
    runShell host n d (Shell.varRef host (.array .at)) s =
      some (.ok (s.delimiter.intercalate args), s) := by
  show runShell host n d (Shell.getAllElementsIFSJoined "*") s = _
  unfold Shell.getAllElementsIFSJoined
  rw [runShell_bind, bind_of_ok (run_joiner_of_bound hifs), runShell_bind,
    bind_of_ok (run_resolveArray hpos), positionalVariable, getAllValues_ofList (by omega)]
  rfl

theorem run_joined_of_unbound (host : Host) (n d : Nat) (hifs : ¬s.Bound "IFS" 0) :
    ∃ e, runShell host n d (Shell.varRef host (.array .at)) s = some (.error e, s) := by
  obtain ⟨e, he⟩ := run_joiner_of_unbound host n d hifs
  show ∃ e, runShell host n d (Shell.getAllElementsIFSJoined "*") s = _
  unfold Shell.getAllElementsIFSJoined
  rw [runShell_bind]
  exact ⟨e, bind_of_error he _⟩

/-- The words after the name of the next function. -/
theorem run_forwardedArguments (split : Bool) (hlen : args.length < 2 ^ 32)
    (hpos : s.store.resolveVariable "*" = some (positionalVariable args)) (hifs : s.Bound "IFS" 0) :
    runShell host n d (Shell.arguments host split [] [.quoted (.array .at)]) s =
      some (.ok (forwarded s.delimiter args), s) := by
  have hword : runShell host n d (Shell.stringExpr host (.quoted (.array .at))) s =
      some (.ok ⟨s.delimiter.intercalate args, true⟩, s) :=
    run_singlePart (run_quotedPart (run_joined_of_bound hlen hpos hifs))
  have hvalues : Shell.argumentValues split ⟨s.delimiter.intercalate args, true⟩ =
      pure (forwarded s.delimiter args) := by
    unfold Shell.argumentValues forwarded
    rw [Bool.true_or, if_pos rfl]
    split_ifs <;> rfl
  have hargument : runShell host n d (Shell.argument host split (.quoted (.array .at))) s =
      some (.ok (forwarded s.delimiter args), s) := by
    rw [Shell.argument, runShell_bind, bind_of_ok hword, hvalues]
    rfl
  rw [Shell.arguments, runShell_bind, bind_of_ok hargument]
  rfl

/-- The command in the body of a wrapper calls the next function. -/
theorem run_forwardingCommand {next : String} (hlen : args.length < 2 ^ 32)
    (hpos : s.store.resolveVariable "*" = some (positionalVariable args)) (hifs : s.Bound "IFS" 0) :
    runShell host n d (Shell.simpleCommand host (.literal next) [.quoted (.array .at)] [] false) s =
      runShell host n d (Shell.executeCommand host next (forwarded s.delimiter args) [] false) s := by
  rw [Shell.simpleCommand, runShell_bind, bind_of_ok (run_literalWord next), runShell_bind,
    bind_of_ok (run_forwardedArguments _ hlen hpos hifs)]

theorem run_forwardingCommand_of_unbound (host : Host) (n d : Nat) (next : String)
    (hifs : ¬s.Bound "IFS" 0) : ∃ e, runShell host n d
      (Shell.simpleCommand host (.literal next) [.quoted (.array .at)] [] false) s =
        some (.error e, s) := by
  obtain ⟨e, he⟩ := run_joined_of_unbound host n d hifs
  have hword := run_singlePart_error (run_quotedPart_error he)
  refine ⟨e, ?_⟩
  rw [Shell.simpleCommand, runShell_bind, bind_of_ok (run_literalWord next), runShell_bind]
  refine bind_of_error ?_ _
  rw [Shell.arguments, runShell_bind]
  refine bind_of_error ?_ _
  rw [Shell.argument, runShell_bind]
  exact bind_of_error hword _

theorem catchReturnException_cases {m : Comp Exn Interpreter Unit}
    (h : catchReturnException m s = some (r, s')) : ∃ r₁, m s = some (r₁, s') := by
  unfold catchReturnException at h
  cases hm : m s with
  | none =>
    rw [tryCatch_of_none hm] at h
    cases h
  | some out =>
    obtain ⟨r₁, s₁⟩ := out
    cases r₁ with
    | ok a =>
      rw [tryCatch_of_ok hm] at h
      cases h
      exact ⟨_, rfl⟩
    | error e =>
      rw [tryCatch_of_error hm] at h
      cases e <;> cases h <;> exact ⟨_, rfl⟩

/-- The end of a function command logs nothing. -/
theorem callRest_cases (h : callRest host n d f bang s = some (r, s')) :
    ∃ r₁ s₁, f.call (reentry host n d) s = some (r₁, s₁) ∧ s'.log = s₁.log := by
  have hnegate : ∀ s r s', runShell host n d (Shell.negateStatus bang) s = some (r, s') →
      s'.log = s.log := by
    intro s r s' hrun
    unfold Shell.negateStatus at hrun
    split_ifs at hrun
    · cases hrun
      rfl
    · cases hrun
      rfl
  unfold callRest at h
  rcases bind_cases h with ⟨⟨⟩, s₁, hcall, hrest⟩ | ⟨e, hcall, -⟩
  · obtain ⟨r₁, hbody⟩ := catchReturnException_cases hcall
    exact ⟨r₁, s₁, hbody, hnegate _ _ _ hrest⟩
  · obtain ⟨r₁, hbody⟩ := catchReturnException_cases hcall
    exact ⟨r₁, s', hbody, rfl⟩

/-- A function whose tree has been destroyed has no body to run. -/
theorem call_of_destroyed {r₁ : Except Exn Unit} (hdead : f.ast ∈ s.destroyed)
    (hrun : f.call (reentry host n d) s = some (r₁, s')) : s'.log = s.log := by
  have hnone : s.tree f.ast = none := by rw [Interpreter.tree, if_pos hdead]
  rcases interpretWith_cases hrun with ⟨-, rfl⟩ | ⟨t, s₁, ht, -, -⟩
  · rfl
  · rw [hnone] at ht
    cases ht

/-- The state in which the command of a wrapper runs. -/
def Interpreter.inBody (a : AstId) (s : Interpreter) : Interpreter :=
  { s with astStack := a :: s.astStack, budget := s.budget.map (· - 1) }

theorem compound_forwardingBody (a : AstId) (next : String) :
    (reentry host n (d + 1)).compound a (forwardingBody next) =
      withStreams (leafSem host (reentry host n d) a) (walkStep host (reentry host n d)
        (Shell.simpleCommand host (.literal next) [.quoted (.array .at)] [] false)) := rfl

/-- The body of a wrapper is its command, one tree further down. -/
theorem call_forwardingBody {next : String} {main : CommandList shell}
    {bodies : List (Compound shell)} {r₁ : Except Exn Unit} (hlive : f.ast ∉ s.destroyed)
    (htree : s.asts[f.ast]? = some (.script main bodies))
    (hbody : bodies[f.index]? = some (forwardingBody next)) (hbudget : s.budget ≠ some 0)
    (hrun : f.call (reentry host n d) s = some (r₁, s')) :
    ∃ d' s₁, runShell host n d'
        (Shell.simpleCommand host (.literal next) [.quoted (.array .at)] [] false)
        (s.inBody f.ast) = some (r₁, s₁) ∧ s'.log = s₁.log := by
  have hsome : s.tree f.ast = some (.script main bodies) := by
    rw [Interpreter.tree, if_neg hlive, htree]
  rcases interpretWith_cases hrun with ⟨ht, -⟩ | ⟨t, s₁, ht, hwalk, rfl⟩
  · rw [hsome] at ht
    cases ht
  · obtain rfl := Option.some.inj (hsome.symm.trans ht)
    simp only [hbody] at hwalk
    cases d with
    | zero => cases hwalk
    | succ d =>
      rw [compound_forwardingBody] at hwalk
      obtain ⟨s₂, hcommand, rfl⟩ := bracket_cases hwalk
      refine ⟨d, s₂, ?_, rfl⟩
      rw [← hcommand]
      show _ = (performOp host (reentry host n d) .tick >>= fun _ => runShell host n d _)
        { s with astStack := f.ast :: s.astStack }
      have htick : performOp host (reentry host n d) .tick
          { s with astStack := f.ast :: s.astStack } = some (.ok (), s.inBody f.ast) :=
        performOp_tick hbudget
      rw [bind_of_ok htick]

end Body

/-! ## Chains -/

theorem callsOf_append (new old : List Event) : callsOf (new ++ old) = callsOf old ++ callsOf new := by
  unfold callsOf
  rw [List.reverse_append, List.filterMap_append]

/-- The tree of the function has not been destroyed. -/
def Interpreter.HasBody (s : Interpreter) (name : String) : Prop :=
  ∀ fn, s.functions[name]? = some fn → fn.ast ∉ s.destroyed

/-- What a chain of functions needs on the way: their trees, and an `IFS` that can be read. -/
structure Passable (s : Interpreter) (ws : List String) : Prop where
  live : ∀ w ∈ ws, s.HasBody w
  ifs : ws ≠ [] → s.Bound "IFS" 0

/-- The function behind the wrappers. -/
theorem passable_target {s : Interpreter} {g : String} {ws : List String} (hwrapped : ws ≠ []) :
    Passable s (g :: ws) ↔ s.HasBody g ∧ Passable s ws := by
  constructor
  · intro h
    obtain ⟨hbody, hlive⟩ := List.forall_mem_cons.mp h.live
    exact ⟨hbody, hlive, fun _ => h.ifs (List.cons_ne_nil _ _)⟩
  · rintro ⟨hbody, h⟩
    exact ⟨List.forall_mem_cons.mpr ⟨hbody, h.live⟩, fun _ => h.ifs hwrapped⟩

theorem passable_cons {s : Interpreter} {f : String} {ws : List String} {fn : Function}
    (hfn : s.functions[f]? = some fn) (hlive : fn.ast ∉ s.destroyed) (hifs : s.Bound "IFS" 0) :
    Passable s (f :: ws) ↔ Passable s ws := by
  constructor
  · exact fun h => ⟨fun w hw => h.live w (List.mem_cons_of_mem _ hw), fun _ => hifs⟩
  · refine fun h => ⟨fun w hw fn' hfn' => ?_, fun _ => hifs⟩
    rcases List.mem_cons.mp hw with rfl | hw
    · obtain rfl := Option.some.inj (hfn.symm.trans hfn')
      exact hlive
    · exact h.live w hw fn' hfn'

/-- What arrives behind the wrappers. -/
def delivered (delim : String) (args : List String) (ws : List String) : List String :=
  if ws.isEmpty then args else forwarded delim args

theorem delivered_forwarded (delim : String) (args ws : List String) :
    delivered delim (forwarded delim args) ws = forwarded delim args := by
  unfold delivered
  rw [forwarded_forwarded, ite_self]

/-- The call behind the last wrapper, as the events show it. -/
def Delivers (s : Interpreter) (g : String) (args ws : List String) (events : List Event) : Prop :=
  (Passable s ws ∧ ∃ store, (callsOf events)[ws.length]? = some (g, store) ∧
    Receives store (delivered s.delimiter args ws)) ∨
  (¬Passable s ws ∧ (callsOf events)[ws.length]? = none)

section Chain

variable {host : Host} {n : Nat} {s : Interpreter} {g : String}

/-- The events of a call are its own two and those of the body. -/
theorem callsOf_entered {name : String} {f : Function} {args : List String} {t t₁ t' : Interpreter}
    {new : List Event} (h : Entered name f args t t₁) (hlog : t'.log = new ++ t₁.log) :
    ∃ events, t'.log = events ++ t.log ∧ callsOf events = (name, t₁.store) :: callsOf new := by
  refine ⟨new ++ [.called name f t₁.store, .wrote .define "*" t₁.store.localMembers.length], ?_, ?_⟩
  · rw [hlog, h.log, List.append_assoc]
    rfl
  · rw [callsOf_append]
    rfl

/-- By induction on the chain, for every state that has the tables of `s`. -/
theorem delivers_of_forwards {f : String} {ws : List String} (hchain : Forwards s g f ws) :
    ∀ {d : Nat} {args : List String} {bang : Bool} {t t' : Interpreter} {r : Except Exn Unit},
      SameTables s t → (Shell.isExempt f = true → t.store.localMembers ≠ []) →
      (∀ k, t.budget = some k → ws.length ≤ k) →
      runShell host n d (Shell.executeCommand host f args [] bang) t = some (r, t') →
      ∃ events, t'.log = events ++ t.log ∧ Delivers s g args ws events := by
  induction hchain with
  | @target fn hname hfn =>
    intro d args bang t t' r htables hframe _ hrun
    obtain ⟨t₁, t₂, hentered, hrest, hlog⟩ :=
      executeCommand_enters hname (htables.functions ▸ hfn) hframe hrun
    have hevolves : Evolves false 0 t₁ t₂ := callRest_evolves fn _ _ _ hrest
    obtain ⟨new, hnew⟩ := hevolves.framed
    obtain ⟨events, hevents, hcalls⟩ := callsOf_entered hentered (hlog.trans hnew.log)
    refine ⟨events, hevents, .inl ⟨⟨fun w hw => absurd hw List.not_mem_nil, fun h => absurd rfl h⟩,
      t₁.store, ?_, receives_of_positional hentered.length hentered.positional⟩⟩
    rw [hcalls]
    rfl
  | @wrapper f next ws fn main bodies hname hfn htree hbody _ ih =>
    intro d args bang t t' r htables hframe hbudget hrun
    obtain ⟨t₁, t₂, hentered, hrest, hlog⟩ :=
      executeCommand_enters hname (htables.functions ▸ hfn) hframe hrun
    have htables₁ := htables.trans hentered.tables
    obtain ⟨r₁, t₃, hcall, hlog₃⟩ := callRest_cases hrest
    -- the run ends in the body of this wrapper
    have hstops : t₃.log = t₁.log → ¬Passable s (f :: ws) →
        ∃ events, t'.log = events ++ t.log ∧ Delivers s g args (f :: ws) events := by
      intro hsame hnot
      have hnone : t'.log = [] ++ t₁.log := hlog.trans (hlog₃.trans hsame)
      obtain ⟨events, hevents, hcalls⟩ := callsOf_entered hentered hnone
      refine ⟨events, hevents, .inr ⟨hnot, ?_⟩⟩
      rw [hcalls]
      rfl
    by_cases hdead : fn.ast ∈ s.destroyed
    · refine hstops (call_of_destroyed (htables₁.destroyed ▸ hdead) hcall) fun h => ?_
      exact h.live f List.mem_cons_self fn hfn hdead
    · have hzero : t₁.budget ≠ some 0 := by
        intro hzero
        have hle := hbudget 0 (hentered.budget ▸ hzero)
        exact absurd hle (Nat.not_succ_le_zero _)
      obtain ⟨d', t₄, hcommand, hlog₄⟩ := call_forwardingBody (htables₁.destroyed ▸ hdead)
        (htables₁.asts ▸ htree) hbody hzero hcall
      have htables₄ : SameTables s (t₁.inBody fn.ast) :=
        htables₁.trans ⟨rfl, rfl, rfl, rfl, rfl⟩
      by_cases hifs : s.Bound "IFS" 0
      · have hpos : (t₁.inBody fn.ast).store.resolveVariable "*" = some (positionalVariable args) :=
          hentered.positional
        rw [run_forwardingCommand hentered.length hpos (htables₄.bound.mpr hifs),
          htables₄.delimiter] at hcommand
        have hbudget₄ : ∀ k, (t₁.inBody fn.ast).budget = some k → ws.length ≤ k := by
          intro k hk
          obtain ⟨k', hk', rfl⟩ := Option.map_eq_some_iff.mp hk
          have hle := hbudget k' (hentered.budget ▸ hk')
          rw [List.length_cons] at hle
          omega
        obtain ⟨inner, hinner, hdelivers⟩ := ih htables₄ (fun _ => hentered.frame) hbudget₄ hcommand
        have hlog₁ : t'.log = inner ++ t₁.log :=
          hlog.trans (hlog₃.trans (hlog₄.trans hinner))
        obtain ⟨events, hevents, hcalls⟩ := callsOf_entered hentered hlog₁
        refine ⟨events, hevents, ?_⟩
        have hpassable : Passable s (f :: ws) ↔ Passable s ws :=
          passable_cons hfn hdead hifs
        unfold Delivers
        rw [hcalls, List.length_cons, List.getElem?_cons_succ, hpassable]
        rcases hdelivers with ⟨hpass, store, hget, hreceives⟩ | ⟨hnot, hget⟩
        · rw [delivered_forwarded] at hreceives
          exact .inl ⟨hpass, store, hget, hreceives⟩
        · exact .inr ⟨hnot, hget⟩
      · obtain ⟨e, he⟩ := run_forwardingCommand_of_unbound host n d' next
          fun h => hifs (htables₄.bound.mp h)
        rw [he] at hcommand
        cases hcommand
        exact hstops hlog₄ fun h => hifs (h.ifs (List.cons_ne_nil _ _))

end Chain

/-! ## Forwarding -/

/-- Calling the first of the wrappers makes the function behind the last one run its body
with the arguments of that call. -/
def KeepsArguments (s s' : Interpreter) (g : String) (args ws : List String) : Prop :=
  s.HasBody g ∧
    ∃ store, (callsOf (s.since s'))[ws.length]? = some (g, store) ∧ Receives store args

/-- For every chain of one wrapper or more, in every state, for runs that go on at
least until the function behind the wrappers is called. -/
theorem keepsArguments_iff {host : Host} {n d : Nat} {f g : String} {ws args : List String}
    {bang : Bool} {s s' : Interpreter} {r : Except Exn Unit} (hchain : Forwards s g f ws)
    (hwrapped : ws ≠ []) (hbudget : ∀ k, s.budget = some k → ws.length ≤ k)
    (hrun : runShell host n d (Shell.executeCommand host f args [] bang) s = some (r, s')) :
    KeepsArguments s s' g args ws ↔
      (args = [] ∨ ∃ a, a ≠ "" ∧ args = [a]) ∧ Passable s (g :: ws) ∧
        (Shell.isExempt f = true → s.store.localMembers ≠ []) := by
  rw [passable_target hwrapped]
  by_cases hframe : Shell.isExempt f = true → s.store.localMembers ≠ []
  · obtain ⟨events, hevents, hdelivers⟩ :=
      delivers_of_forwards hchain (.refl s) hframe hbudget hrun
    rw [KeepsArguments, since_eq hevents, ← forwarded_eq_self_iff s.delimiter]
    have hdelivered : delivered s.delimiter args ws = forwarded s.delimiter args := by
      rw [delivered, if_neg (mt List.isEmpty_iff.mp hwrapped)]
    rcases hdelivers with ⟨hpass, store, hget, hreceives⟩ | ⟨hnot, hget⟩
    · rw [hdelivered] at hreceives
      constructor
      · rintro ⟨hbody, store', hget', hreceives'⟩
        obtain ⟨-, rfl⟩ := Prod.mk.inj (Option.some.inj (hget.symm.trans hget'))
        exact ⟨hreceives.unique hreceives', ⟨hbody, hpass⟩, hframe⟩
      · rintro ⟨hsame, ⟨hbody, -⟩, -⟩
        exact ⟨hbody, store, hget, hsame ▸ hreceives⟩
    · constructor
      · rintro ⟨-, store', hget', -⟩
        rw [hget] at hget'
        cases hget'
      · rintro ⟨-, ⟨-, hpass⟩, -⟩
        exact absurd hpass hnot
  -- Without a frame the call fails before anything is forwarded.
  · obtain ⟨hexempt, hnil⟩ := Classical.not_imp.mp hframe
    obtain ⟨hname, fn, hfn⟩ := hchain.first
    rw [executeCommand_noFrame hname hfn hexempt (not_not.mp hnil)] at hrun
    cases hrun
    constructor
    · rintro ⟨-, store, hget, -⟩
      have hnone : s.since s = [] := since_eq rfl
      rw [hnone] at hget
      cases hget
    · rintro ⟨-, -, hsome⟩
      exact absurd hsome hframe

/-! ## The wrappers of `inherit` -/

/-- The tree of the text that `inherit` evaluates for an exported function. -/
def exportedTree (eclass funcName : String) : Tree :=
  .script (.ofSimple (.functionDefinition funcName 0) [])
    [forwardingBody (eclass ++ "_" ++ funcName)]

/-- A command that is a function definition, on its own in a tree. -/
theorem list_functionDefinition {host : Host} {n d : Nat} {a : AstId} {name : String} {index : Nat}
    {s s' : Interpreter} (hs : ∃ rest, s.astStack = a :: rest)
    (hrun : (reentry host n d).list a (.ofSimple (.functionDefinition name index) []) s =
      some (.ok (), s')) :
    s'.functions = s.functions.insertIfNew name ⟨a, index⟩ ∧ s'.asts = s.asts := by
  obtain ⟨rest, hs⟩ := hs
  cases d with
  | zero => cases hrun
  | succ d =>
    have hatom : withStreams (leafSem host (reentry host n d) a)
        (simpleAtom host (reentry host n d) a (.functionDefinition name index)) s =
          some (.ok (), s') := hrun
    obtain ⟨s₁, hbody, rfl⟩ := bracket_cases hatom
    rcases bind_cases hbody with ⟨⟨⟩, s₂, hstep, hdefine⟩ | ⟨e, -, he⟩
    · have hs₂ : s₂ = { s with budget := s.budget.map (· - 1) } := by
        by_cases hbudget : s.budget = some 0
        · have htick : performOp host (reentry host n d) .tick s =
              some (.error .interrupted, s.record .interrupted) := by
            rw [performOp, reads_bind_apply, hbudget]
            rfl
          have hstop : walkStep host (reentry host n d) (pure ()) s =
              some (.error .interrupted, s.record .interrupted) := bind_of_error htick _
          rw [show ((leafSem host (reentry host n d) a).getStreams s, s).2 = s from rfl, hstop]
            at hstep
          cases hstep
        · have htick : performOp host (reentry host n d) .tick s =
              some (.ok (), { s with budget := s.budget.map (· - 1) }) := performOp_tick hbudget
          have hok : walkStep host (reentry host n d) (pure ()) s =
              some (.ok (), { s with budget := s.budget.map (· - 1) }) := bind_of_ok htick _
          rw [show ((leafSem host (reentry host n d) a).getStreams s, s).2 = s from rfl, hok]
            at hstep
          cases hstep
          rfl
      subst hs₂
      unfold defineFunction at hdefine
      split_ifs at hdefine
      · cases hdefine
      · rw [reads_bind_apply] at hdefine
        simp only [id_eq, hs] at hdefine
        cases hdefine
        exact ⟨rfl, rfl⟩
    · cases he

/-- The tree is destroyed when `eval` returns: a wrapper that `inherit` has made is
in the tables of the interpreter, and no call gets through it. -/
theorem not_passable_exported {host : Host} {n d : Nat} {eclass funcName : String}
    {s s' : Interpreter} {status : Int}
    (hparse : host.parse .start (readScript true (Shell.exportedFunction eclass funcName)) =
      .ok (exportedTree eclass funcName))
    (hfresh : s.functions[funcName]? = none)
    (hrun : runShell host n d (Shell.evalBuiltin [Shell.exportedFunction eclass funcName]) s =
      some (.ok status, s')) :
    (∃ fn, s'.functions[funcName]? = some fn ∧
      s'.asts[fn.ast]? = some (exportedTree eclass funcName)) ∧ ¬Passable s' [funcName] := by
  have hnew : constructAst host .start (readScript true (Shell.exportedFunction eclass funcName)) s =
      some (.ok s.asts.length, { s with asts := s.asts ++ [exportedTree eclass funcName] }) := by
    unfold constructAst
    rw [hparse]
    rfl
  rcases bind_cases hrun with ⟨⟨⟩, s₁, hscript, hstatus⟩ | ⟨e, -, he⟩
  · cases hstatus
    rw [run_perform, handler_perform, performOp, String.intercalate_singleton, interpretTemporary,
      bind_of_ok hnew] at hscript
    obtain ⟨s₂, hwith, rfl⟩ := bracket_cases hscript
    obtain ⟨s₃, hbody, rfl⟩ := bracket_cases hwith
    rw [reads_bind_apply] at hbody
    by_cases hdead : s.asts.length ∈ s.destroyed
    · have hnone : ({ s with asts := s.asts ++ [exportedTree eclass funcName],
                             astStack := s.asts.length :: s.astStack } : Interpreter).tree
            s.asts.length = none := by rw [Interpreter.tree, if_pos hdead]
      simp only [id_eq, hnone] at hbody
      cases hbody
    · have hsome : ({ s with asts := s.asts ++ [exportedTree eclass funcName],
                             astStack := s.asts.length :: s.astStack } : Interpreter).tree
            s.asts.length = some (exportedTree eclass funcName) := by
        rw [Interpreter.tree, if_neg hdead]
        exact List.getElem?_concat_length
      simp only [id_eq, hsome] at hbody
      obtain ⟨hfunctions, hasts⟩ := list_functionDefinition ⟨_, rfl⟩ hbody
      have hfn : s₃.functions[funcName]? = some ⟨s.asts.length, 0⟩ := by
        rw [hfunctions, Std.ExtTreeMap.getElem?_insertIfNew, if_pos]
        refine ⟨Std.ReflCmp.compare_self, fun hmem => ?_⟩
        rw [Std.ExtTreeMap.mem_iff_isSome_getElem?] at hmem
        rw [show ({ s with asts := _, astStack := _ } : Interpreter).functions[funcName]? = none
          from hfresh] at hmem
        cases hmem
      refine ⟨⟨_, hfn, ?_⟩, fun h => ?_⟩
      · show s₃.asts[s.asts.length]? = _
        rw [hasts]
        exact List.getElem?_concat_length
      · exact h.live funcName (List.mem_singleton_self _) _ hfn List.mem_cons_self
  · cases he

/-- At the end of the definitions `f() { g "$@"; }` and `g() { :; }`. -/
def wrapperDefined : Interpreter :=
  ((Interpreter.walking (.script (.ofSimple (.functionDefinition "f" 0) [.functionDefinition "g" 1])
    [forwardingBody "g", .currentShell (.ofSimple (.literals ":" []) [])])).insertFunction
      "f" ⟨0, 0⟩ 0).insertFunction "g" ⟨0, 1⟩ 0

theorem forwards_wrapperDefined : Forwards wrapperDefined "g" "f" ["f"] :=
  .wrapper (by decide)
    (show wrapperDefined.functions["f"]? = some ⟨0, 0⟩ by decide +kernel) rfl rfl
    (.target (by decide) (show wrapperDefined.functions["g"]? = some ⟨0, 1⟩ by decide +kernel))

theorem keepsArguments_iff_fA :
    ∃ r s', runShell (.ofTexts [] []) 0 2
        (Shell.executeCommand (.ofTexts [] []) "f" ["a"] [] false) wrapperDefined = some (r, s') ∧
      (KeepsArguments wrapperDefined s' "g" ["a"] ["f"] ↔
        (["a"] = [] ∨ ∃ a, a ≠ "" ∧ ["a"] = [a]) ∧ Passable wrapperDefined ["g", "f"] ∧
          (Shell.isExempt "f" = true → wrapperDefined.store.localMembers ≠ [])) := by
  let run := runShell (.ofTexts [] []) 0 2
    (Shell.executeCommand (.ofTexts [] []) "f" ["a"] [] false) wrapperDefined
  have hrun : run.isSome = true := by decide +kernel
  obtain ⟨⟨r, s'⟩, hs'⟩ := Option.isSome_iff_exists.mp hrun
  exact ⟨r, s', hs', keepsArguments_iff forwards_wrapperDefined (List.cons_ne_nil _ _)
    (fun k hk => by cases hk) hs'⟩

/-- `f a b` makes `g` run with the one argument `a b`. -/
theorem not_keepsArguments_fAB :
    Forwards wrapperDefined "g" "f" ["f"] ∧
      ∃ r s', runShell (.ofTexts [] []) 0 2
          (Shell.executeCommand (.ofTexts [] []) "f" ["a", "b"] [] false) wrapperDefined =
            some (r, s') ∧
        ¬KeepsArguments wrapperDefined s' "g" ["a", "b"] ["f"] := by
  refine ⟨forwards_wrapperDefined, ?_⟩
  let run := runShell (.ofTexts [] []) 0 2
    (Shell.executeCommand (.ofTexts [] []) "f" ["a", "b"] [] false) wrapperDefined
  let counts (s' : Interpreter) : List (Option Nat) :=
    (callsOf (wrapperDefined.since s')).map fun call =>
      (call.2.resolveVariable "*").map Variable.getArrayLength
  have hrun : run.map (fun out => counts out.2) = some [some 2, some 1] := by decide +kernel
  obtain ⟨⟨r, s'⟩, hs', hcounts⟩ := Option.map_eq_some_iff.mp hrun
  refine ⟨r, s', hs', ?_⟩
  rintro ⟨-, store, hget, hreceives⟩
  have hsecond : (counts s')[1]? = some ((store.resolveVariable "*").map Variable.getArrayLength) := by
    rw [List.getElem?_map, show (callsOf (wrapperDefined.since s'))[1]? = some ("g", store) from hget]
    rfl
  rw [hcounts, hreceives.count] at hsecond
  cases hsecond

end Libbash
