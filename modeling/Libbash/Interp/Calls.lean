import Libbash.Interp.ListVariables
import Libbash.Interp.Frames

/-!
# Function calls

What a call of a function starts with and what it leaves of its caller. The
command rule pushes a frame for every command but `local`, `set`, `declare` and
`eval`, and `define_function_arguments` installs the arguments in whatever frame
is on top: a function with one of those four names gets no frame of its own
(`callIsolated_iff`).
-/

namespace Libbash

open Lib Lib.Comp Lib.Program

/-! ## Positional parameters -/

theorem positionalArgs_eq (arguments : List String) :
    positionalArgs arguments = insertAll ∅ (indexFrom 1 arguments) := by
  unfold positionalArgs insertAll indexFrom
  rw [List.foldl_map]

/-- The variable that holds the positional parameters. -/
def positionalVariable (arguments : List String) : Variable := .ofList "*" 1 arguments

theorem new_positionalArgs (arguments : List String) :
    Variable.new "*" (.array (positionalArgs arguments)) false = positionalVariable arguments := by
  rw [positionalArgs_eq]
  rfl

/-- A frame that holds the positional parameters and nothing else. -/
structure HoldsArguments (frame : Scope) (arguments : List String) : Prop where
  count : (frame["*"]?.map Variable.getArrayLength) = some arguments.length
  parameter : ∀ i argument, arguments[i]? = some argument →
    (frame["*"]?.map fun v => v.getValueString (.ofNat (i + 1))) = some argument
  fresh : ∀ x, x ≠ "*" → frame[x]? = none

theorem holdsArguments {arguments : List String} (h : arguments.length < 2 ^ 32) :
    HoldsArguments ((∅ : Scope).insert "*" (positionalVariable arguments)) arguments where
  count := by
    rw [Std.ExtTreeMap.getElem?_insert_self, Option.map_some, positionalVariable,
      getArrayLength_ofList (by omega)]
  parameter i argument hi := by
    rw [Std.ExtTreeMap.getElem?_insert_self, Option.map_some, positionalVariable, Nat.add_comm i 1,
      getValueString_ofList (by omega) hi]
  fresh x hx := by
    rw [Std.ExtTreeMap.getElem?_insert, if_neg, Std.ExtTreeMap.getElem?_empty]
    rw [Std.LawfulEqCmp.compare_eq_iff_eq]
    exact Ne.symm hx

/-! ## The run of a call -/

section Run

variable {host : Host} {n d : Nat} {name : String} {args : List String} {bang : Bool}

/-- The rest of a function command, from the body on. -/
def callRest (host : Host) (n d : Nat) (f : Function) (bang : Bool) : Comp Exn Interpreter Unit := do
  catchReturnException (f.call (reentry host n d))
  runShell host n d (Shell.negateStatus bang)

/-- The state in which the body of a function starts, when the frames are these. -/
def Interpreter.calling (name : String) (f : Function) (args : List String) (frame : Scope)
    (frames : List Scope) (s : Interpreter) : Interpreter :=
  let store := { s.store with localMembers := frame.insert "*" (positionalVariable args) :: frames }
  { s with
    store := store
    log := .called name f store :: .wrote .define "*" (frames.length + 1) :: s.log }

theorem defineFunctionArguments_cons {t : Store} {frame : Scope} {frames : List Scope}
    (ht : t.localMembers = frame :: frames) :
    defineFunctionArguments args t =
      if 2 ^ 32 ≤ args.length then none
      else some (.ok (), { t with localMembers := frame.insert "*" (positionalVariable args) :: frames }) := by
  unfold defineFunctionArguments
  rw [reads_bind_apply]
  simp only [id_eq, ht, new_positionalArgs]
  split_ifs <;> rfl

theorem defineFunctionArguments_nil {t : Store} (ht : t.localMembers = []) :
    defineFunctionArguments args t = some (.error .undefinedBehaviour, t) := by
  unfold defineFunctionArguments
  rw [reads_bind_apply]
  simp only [id_eq, ht]
  rfl

theorem callFunction_of_function {re : Reentry} {s : Interpreter} {f : Function}
    (hf : s.functions[name]? = some f) :
    callFunction re name s = f.call re (s.record (.called name f s.store)) := by
  unfold callFunction
  rw [reads_bind_apply]
  simp only [id_eq, hf]
  rfl

theorem call_apply {re : Reentry} {s : Interpreter} {f : Function} {frame : Scope}
    {frames : List Scope} (hf : s.functions[name]? = some f)
    (hframes : s.store.localMembers = frame :: frames) (hlen : args.length < 2 ^ 32) :
    Program.run (handler host re) (Shell.call name args) s =
      f.call re (s.calling name f args frame frames) := by
  have hargs : defineFunctionArguments args s.store = some (.ok (), { s.store with
      localMembers := frame.insert "*" (positionalVariable args) :: frames }) := by
    rw [defineFunctionArguments_cons hframes, if_neg (Nat.not_le.mpr hlen)]
  unfold Shell.call
  rw [run_bind, run_perform, run_perform, handler_perform, handler_perform, performOp, performOp,
    bind_of_ok (writing_of_ok hargs), hframes]
  exact callFunction_of_function hf

theorem dispatch_of_function {re : Reentry} {s : Interpreter} {f : Function}
    (hf : s.functions[name]? = some f) :
    Program.run (handler host re) (Shell.dispatch host name args) s =
      catchReturnException (Program.run (handler host re) (Shell.call name args)) s := by
  unfold Shell.dispatch
  rw [run_bind, run_perform, handler_perform, performOp, reads_bind_apply, hf, Option.isSome_some,
    if_pos rfl, run_catchReturn]

/-- A command whose name is the one of a function, after the frame has been
pushed or not. -/
def functionCommand (host : Host) (name : String) (args : List String) (bang : Bool) : Shell Unit := do
  Shell.dispatch host name args
  Shell.negateStatus bang

theorem functionCommand_cons {s : Interpreter} {f : Function} {frame : Scope} {frames : List Scope}
    (hf : s.functions[name]? = some f) (hframes : s.store.localMembers = frame :: frames)
    (hlen : args.length < 2 ^ 32) :
    runShell host n d (functionCommand host name args bang) s =
      callRest host n d f bang (s.calling name f args frame frames) := by
  refine bind_congr_at ((dispatch_of_function hf).trans ?_) fun _ _ _ => rfl
  exact tryCatch_congr_at (call_apply hf hframes hlen) _

/-- Without a frame on the stack there is no place for the arguments. -/
theorem functionCommand_nil {s : Interpreter} {f : Function} (hf : s.functions[name]? = some f)
    (hframes : s.store.localMembers = []) :
    runShell host n d (functionCommand host name args bang) s =
      some (.error .undefinedBehaviour, s) := by
  have hcall : Program.run (handler host (reentry host n d)) (Shell.call name args) s =
      some (.error .undefinedBehaviour, s) := by
    unfold Shell.call
    rw [run_bind, run_perform, handler_perform, performOp,
      bind_of_error (writing_of_error (defineFunctionArguments_nil hframes))]
  exact bind_of_error ((dispatch_of_function hf).trans (tryCatch_of_error hcall _)) _

/-- With more arguments than the loop can count the command does not end. -/
theorem functionCommand_diverges {s : Interpreter} {f : Function} {frame : Scope}
    {frames : List Scope} (hf : s.functions[name]? = some f)
    (hframes : s.store.localMembers = frame :: frames) (hlen : 2 ^ 32 ≤ args.length) :
    runShell host n d (functionCommand host name args bang) s = none := by
  have hargs : defineFunctionArguments args s.store = none := by
    rw [defineFunctionArguments_cons hframes, if_pos hlen]
  have hcall : Program.run (handler host (reentry host n d)) (Shell.call name args) s = none := by
    unfold Shell.call
    rw [run_bind, run_perform, handler_perform, performOp, bind_of_none (writing_of_none hargs)]
  exact bind_of_none ((dispatch_of_function hf).trans (tryCatch_of_none hcall _)) _

theorem callRest_evolves (f : Function) {b : Bool} {cur : AstId} :
    Keeps (Evolves b cur) (callRest host n d f bang) := by
  have hre := reentry_evolve host n d
  refine keeps_bind (fun {_ _ _} => .trans)
    (keeps_tryCatch (fun {_ _ _} => .trans) (call_evolves hre f) fun e => ?_) fun _ =>
    fun s r s' hrun => (runShell_evolves host n d cur _ s r s' hrun).relax
  cases e with
  | returnException => exact keeps_pure .refl _
  | _ => exact keeps_throw .refl _

theorem isEmpty_of_checkFunctionName (hname : checkFunctionName name = true) :
    name.isEmpty = false := by
  cases hempty : name.isEmpty with
  | false => rfl
  | true =>
    rw [String.isEmpty_iff.mp hempty] at hname
    exact absurd hname (by decide)

/-- The command rule on a command whose name is the one of a function. -/
theorem executeCommand_of_function (hname : checkFunctionName name = true) :
    runShell host n d (Shell.executeCommand host name args [] bang) =
      runShell host n d (Shell.inScope name (functionCommand host name args bang)) := by
  have hbody : Program.run (handler host (reentry host n d))
      (do
        Shell.varDefs host true []
        Shell.dispatch host (if name.isEmpty then ":" else name) args
        Shell.negateStatus bang) =
      Program.run (handler host (reentry host n d)) (functionCommand host name args bang) := by
    rw [isEmpty_of_checkFunctionName hname]
    rfl
  unfold runShell Shell.executeCommand Shell.inScope
  by_cases hexempt : Shell.isExempt name = true
  · rw [if_pos hexempt, if_pos hexempt]
    exact hbody
  · rw [if_neg hexempt, if_neg hexempt, run_within, run_within, hbody]

end Run

/-! ## Isolation -/

/-- A call that ends in `s'` has run in a frame of its own with the arguments, and
has left the frames, the positional parameters and the variables of its caller
alone, but for the variables that it has written. -/
structure CallIsolated (name : String) (f : Function) (args : List String) (s s' : Interpreter) :
    Prop where
  called : ∃ new frame store, s.since s' = new ++ [.called name f store,
      .wrote .define "*" (s.store.localMembers.length + 1)] ∧
    store = { s.store with localMembers := frame :: s.store.localMembers } ∧
    HoldsArguments frame args
  frames : s'.store.localMembers.length = s.store.localMembers.length
  positional : s'.store.resolveVariable "*" = s.store.resolveVariable "*"
  locals : ∀ x level, level ≤ s.store.localMembers.length →
    (∀ how, Event.wrote how x level ∉ s.since s') →
      s'.store.valueAt x level = s.store.valueAt x level

section Isolation

variable {host : Host} {n d : Nat} {name : String} {args : List String} {bang : Bool}
  {f : Function} {s s' : Interpreter} {r : Except Exn Unit}

/-- What the body and the rest of the command do to the variables. -/
theorem functionCommand_framed {frame : Scope} {frames : List Scope}
    (hf : s.functions[name]? = some f) (hframes : s.store.localMembers = frame :: frames)
    (hrun : runShell host n d (functionCommand host name args bang) s = some (r, s')) :
    args.length < 2 ^ 32 ∧ ∃ new, FramedBy new (s.calling name f args frame frames) s' := by
  by_cases hlen : args.length < 2 ^ 32
  · rw [functionCommand_cons hf hframes hlen] at hrun
    have hevolves : Evolves false 0 _ s' := callRest_evolves f _ _ _ hrun
    exact ⟨hlen, hevolves.framed⟩
  · rw [functionCommand_diverges hf hframes (Nat.le_of_not_lt hlen)] at hrun
    cases hrun

/-- Installing the arguments is one definition on the top frame. -/
theorem calling_framed {frame : Scope} {frames : List Scope}
    (hframes : s.store.localMembers = frame :: frames) :
    FramedBy [.called name f (s.calling name f args frame frames).store,
      .wrote .define "*" (frames.length + 1)] s (s.calling name f args frame frames) := by
  have hlength : s.store.localMembers.length = frames.length + 1 := by
    rw [hframes, List.length_cons]
  have hstep : StoreStep .define "*" s.store.localMembers.length s.store
      (s.calling name f args frame frames).store := storeStep_top hframes (positionalVariable args)
  rw [hlength] at hstep
  have hcalled : FramedBy [.called name f (s.calling name f args frame frames).store]
      (Interpreter.record (.wrote .define "*" (frames.length + 1))
        { s with store := (s.calling name f args frame frames).store })
      (s.calling name f args frame frames) := by
    refine .of_store rfl rfl fun how x level hmem => ?_
    cases List.mem_singleton.mp hmem
  exact (FramedBy.of_storeStep hstep).trans hcalled

theorem resolve_congr {t t' : Store} {x : String} (hx : x.isEmpty = false)
    (h : ∀ level, t'.valueAt x level = t.valueAt x level) :
    t'.resolveVariable x = t.resolveVariable x := by
  rw [resolve_of_nonempty hx, resolve_of_nonempty hx]
  exact Bindings.resolve_congr h

theorem callIsolated_of_framed (hname : Shell.isExempt name = false)
    (hcheck : checkFunctionName name = true) (hf : s.functions[name]? = some f)
    (hrun : runShell host n d (Shell.executeCommand host name args [] bang) s = some (r, s'))
    (hown : Event.wrote .erase "*" (s.store.localMembers.length + 1) ∉ s.since s') :
    CallIsolated name f args s s' := by
  rw [executeCommand_of_function hcheck, Shell.inScope, hname, if_neg Bool.false_ne_true] at hrun
  obtain ⟨s₁, hbody, rfl⟩ := within_cases hrun
  have hf' : (acquire .localScope s).functions[name]? = some f := hf
  obtain ⟨hlen, new, hrest⟩ := functionCommand_framed hf' rfl hbody
  have hcall := (calling_framed rfl).trans hrest
  have hwhole := hcall.scope
  have hsince := since_eq hwhole.log
  rw [hsince] at hown
  constructor
  · refine ⟨new, (∅ : Scope).insert "*" (positionalVariable args), _, hsince, rfl, ?_⟩
    exact holdsArguments hlen
  · exact hwhole.depth
  · -- the frame of the call shields those of the caller
    have hframe : (Interpreter.calling name f args ∅ s.store.localMembers
        (acquire .localScope s)).store.valueAt "*" (s.store.localMembers.length + 1) =
          some (positionalVariable args) := by
      have hbind := bindings_defineLocal (s := (acquire .localScope s).store) rfl "*"
        (positionalVariable args)
      show Bindings.valueAt (Store.bindings { (acquire .localScope s).store with localMembers := _ }) _ _ = _
      rw [hbind]
      exact Bindings.valueAt_bindLocal _ _ _
    obtain ⟨-, hbelow⟩ := hrest.shielded _ _ hframe fun hmem => hown (List.mem_append_left _ hmem)
    refine resolve_congr rfl fun level => ?_
    by_cases hle : level ≤ s.store.localMembers.length
    · refine hwhole.unwritten "*" level hle fun how hmem => ?_
      rcases List.mem_append.mp hmem with hmem | hmem
      · exact hbelow how level (Nat.lt_succ_of_le hle) hmem
      · simp only [List.mem_cons, List.not_mem_nil, or_false] at hmem
        rcases hmem with heq | heq
        · cases heq
        · cases heq
          exact absurd hle (Nat.not_succ_le_self _)
    · have hlt : s.store.localMembers.length < level := Nat.lt_of_not_le hle
      have hlt' : (release .localScope s s₁).store.localMembers.length < level :=
        hwhole.depth.trans_lt hlt
      exact (Bindings.valueAt_of_lt _ _ hlt').trans (Bindings.valueAt_of_lt _ _ hlt).symm
  · intro x level hle hnone
    rw [hsince] at hnone
    exact hwhole.unwritten x level hle hnone

/-- One of the four commands runs its function in the frame that is there. -/
theorem not_callIsolated_of_exempt (hname : Shell.isExempt name = true)
    (hcheck : checkFunctionName name = true) (hf : s.functions[name]? = some f)
    (hrun : runShell host n d (Shell.executeCommand host name args [] bang) s = some (r, s')) :
    ¬CallIsolated name f args s s' := by
  intro h
  obtain ⟨new, frame, store, hsince, hstore, -⟩ := h.called
  rw [executeCommand_of_function hcheck, Shell.inScope, if_pos hname] at hrun
  cases hframes : s.store.localMembers with
  | nil =>
    rw [functionCommand_nil hf hframes] at hrun
    cases hrun
    have hnil : s.since s = [] := since_eq rfl
    rw [hnil] at hsince
    exact absurd hsince.symm (by simp)
  | cons top frames =>
    obtain ⟨-, new', hrest⟩ := functionCommand_framed hf hframes hrun
    have hsince' := since_eq ((calling_framed hframes).trans hrest).log
    rw [hsince] at hsince'
    -- both say which store the oldest call of the run has started with
    have hlast := (List.append_inj' hsince' rfl).2
    simp only [List.cons.injEq, Event.called.injEq] at hlast
    have hlength := congrArg (fun t : Store => t.localMembers.length) hlast.1.2.2
    simp only [hstore, Interpreter.calling, hframes, List.length_cons] at hlength
    omega

/-- For every function name that can be defined, in every state, unless the call
removes its own positional parameters. -/
theorem callIsolated_iff (hcheck : checkFunctionName name = true) (hf : s.functions[name]? = some f)
    (hrun : runShell host n d (Shell.executeCommand host name args [] bang) s = some (r, s'))
    (hown : Event.wrote .erase "*" (s.store.localMembers.length + 1) ∉ s.since s') :
    CallIsolated name f args s s' ↔ Shell.isExempt name = false := by
  constructor
  · intro h
    cases hname : Shell.isExempt name with
    | false => rfl
    | true => exact absurd h (not_callIsolated_of_exempt hname hcheck hf hrun)
  · exact fun hname => callIsolated_of_framed hname hcheck hf hrun hown

end Isolation

/-- At the end of the definition `name() { echo $1; }`. -/
def echoDefined (name : String) : Interpreter :=
  (Interpreter.walking (.script (.ofSimple (.functionDefinition name 0) [])
    [.currentShell (.ofSimple (.simple (.literal "echo") [.unquoted (.var (.num "1"))] [] false)
      [])])).insertFunction name ⟨0, 0⟩ 0

theorem callIsolated_iff_f :
    ∃ r s', runShell (.ofTexts [] []) 0 1
        (Shell.executeCommand (.ofTexts [] []) "f" ["a"] [] false) (echoDefined "f") = some (r, s') ∧
      (CallIsolated "f" ⟨0, 0⟩ ["a"] (echoDefined "f") s' ↔ Shell.isExempt "f" = false) := by
  let run := runShell (.ofTexts [] []) 0 1
    (Shell.executeCommand (.ofTexts [] []) "f" ["a"] [] false) (echoDefined "f")
  let isErase : Event → Bool
    | .wrote .erase _ _ => true
    | _ => false
  have hrun : run.map (fun out => ((echoDefined "f").since out.2).any isErase) = some false := by
    decide +kernel
  obtain ⟨⟨r, s'⟩, hs', hnone⟩ := Option.map_eq_some_iff.mp hrun
  refine ⟨r, s', hs', callIsolated_iff (by decide) (by decide +kernel) hs' fun hmem => ?_⟩
  exact absurd (List.any_eq_true.mpr ⟨_, hmem, rfl⟩) (by rw [hnone]; exact Bool.false_ne_true)

/-- `set() { echo $1; }; set a`. -/
theorem not_callIsolated_set :
    checkFunctionName "set" = true ∧ (echoDefined "set").functions["set"]? = some ⟨0, 0⟩ ∧
      runShell (.ofTexts [] []) 0 1 (Shell.executeCommand (.ofTexts [] []) "set" ["a"] [] false)
        (echoDefined "set") = some (.error .undefinedBehaviour, echoDefined "set") ∧
      ¬CallIsolated "set" ⟨0, 0⟩ ["a"] (echoDefined "set") (echoDefined "set") := by
  have hcheck : checkFunctionName "set" = true := by decide
  have hf : (echoDefined "set").functions["set"]? = some ⟨0, 0⟩ := by decide +kernel
  have hrun : runShell (.ofTexts [] []) 0 1
      (Shell.executeCommand (.ofTexts [] []) "set" ["a"] [] false) (echoDefined "set") =
        some (.error .undefinedBehaviour, echoDefined "set") := by
    rw [executeCommand_of_function hcheck, Shell.inScope, if_pos (by decide)]
    exact functionCommand_nil hf rfl
  exact ⟨hcheck, hf, hrun, not_callIsolated_of_exempt (by decide) hcheck hf hrun⟩

end Libbash
