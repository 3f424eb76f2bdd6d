import Mathlib.Data.List.TakeDrop
import Libbash.Lib.Growth
import Libbash.Interp.Runs

/-!
# What a run does to the streams

Builtins write to the current output stream and to the standard error, and read the current
input stream. A command tree never does more than that to the streams that were there before
it (`runTree_streamsKept`): what has been written stays, what is written comes after it, and
what is read goes off the front. So the output of a command substitution reaches no stream but
its own (`commandSubstitution_isolated`), and that of a redirected command none that was open
before its redirections (`redirected_isolated`).
-/

namespace Libbash

open Lib Lib.Comp

/-! ## The relations -/

/-- Text has been written behind what was there. -/
def Prolongs (text text' : String) : Prop := ∃ added, text' = text ++ added

/-- Characters have been read off the front; a bit that is set stays. -/
structure InputStream.Consumed (i i' : InputStream) : Prop where
  text : i'.text <:+ i.text
  eof : i.eof = true → i'.eof = true
  fail : i.fail = true → i'.fail = true

theorem prolongs_refl (text : String) : Prolongs text text := ⟨"", String.append_empty.symm⟩

theorem prolongs_trans {t₁ t₂ t₃ : String} (h₁ : Prolongs t₁ t₂) (h₂ : Prolongs t₂ t₃) :
    Prolongs t₁ t₃ := by
  obtain ⟨a, rfl⟩ := h₁
  obtain ⟨b, rfl⟩ := h₂
  exact ⟨a ++ b, String.append_assoc⟩

theorem consumed_refl (i : InputStream) : i.Consumed i := ⟨List.suffix_rfl, id, id⟩

theorem InputStream.Consumed.trans {i₁ i₂ i₃ : InputStream} (h₁ : i₁.Consumed i₂)
    (h₂ : i₂.Consumed i₃) : i₁.Consumed i₃ :=
  ⟨h₂.text.trans h₁.text, h₂.eof ∘ h₁.eof, h₂.fail ∘ h₁.fail⟩

/-- What a part of a run does to the streams, when the streams may be others after it. A
stream that is set in between is a new one. -/
structure StreamsFlow (s s' : Interpreter) : Prop where
  outputs : Accumulates Prolongs (fun i => i = s.streams.out ∨ i = 1) s.outputs s'.outputs
  inputs : Accumulates InputStream.Consumed (fun i => i = s.streams.inp) s.inputs s'.inputs
  out : s'.streams.out = s.streams.out ∨ s.outputs.length ≤ s'.streams.out
  inp : s'.streams.inp = s.streams.inp ∨ s.inputs.length ≤ s'.streams.inp

structure StreamsKept (s s' : Interpreter) : Prop extends StreamsFlow s s' where
  streams : s'.streams = s.streams

variable {s s₁ s' : Interpreter}

theorem StreamsFlow.trans (h : StreamsFlow s s₁) (h' : StreamsFlow s₁ s') : StreamsFlow s s' where
  outputs := by
    refine h.outputs.trans prolongs_trans h'.outputs fun i hi hw => ?_
    rcases h.out with hout | hnew
    · exact hw.imp_left fun h => h.trans hout
    · exact hw.imp_left fun h => by omega
  inputs := by
    refine h.inputs.trans InputStream.Consumed.trans h'.inputs fun i hi hw => ?_
    rcases h.inp with hinp | hnew
    · exact hw.trans hinp
    · omega
  out := by
    have hlen := h.outputs.length_le
    rcases h'.out with hout | hnew
    · rw [hout]
      exact h.out
    · exact .inr (by omega)
  inp := by
    have hlen := h.inputs.length_le
    rcases h'.inp with hinp | hnew
    · rw [hinp]
      exact h.inp
    · exact .inr (by omega)

theorem StreamsKept.trans (h : StreamsKept s s₁) (h' : StreamsKept s₁ s') : StreamsKept s s' where
  toStreamsFlow := h.toStreamsFlow.trans h'.toStreamsFlow
  streams := h'.streams.trans h.streams

/-- A step that does nothing to the streams. -/
theorem streamsKept_of_same (hstreams : s'.streams = s.streams) (houtputs : s'.outputs = s.outputs)
    (hinputs : s'.inputs = s.inputs) : StreamsKept s s' where
  outputs := houtputs ▸ accumulates_refl prolongs_refl _
  inputs := hinputs ▸ accumulates_refl consumed_refl _
  out := .inl (by rw [hstreams])
  inp := .inl (by rw [hstreams])
  streams := hstreams

theorem streamsKept_refl (s : Interpreter) : StreamsKept s s := streamsKept_of_same rfl rfl rfl

/-! ## Writing and reading -/

theorem streamsKept_write {i : Nat} (text : String) (hi : i = s.streams.out ∨ i = 1) :
    StreamsKept s (s.writeTo i text) where
  outputs := accumulates_modify prolongs_refl (fun _ => ⟨text, rfl⟩) hi
  inputs := accumulates_refl consumed_refl _
  out := .inl rfl
  inp := .inl rfl
  streams := rfl

theorem getline_consumed (i : InputStream) : i.Consumed (getline i).2 := by
  unfold getline
  split_ifs with hend
  · exact ⟨List.suffix_rfl, id, fun _ => rfl⟩
  · simp only [Bool.or_eq_true, not_or, Bool.not_eq_true] at hend
    have hrest : i.text.dropWhile (· != '\n') <:+ i.text := List.dropWhile_suffix _
    rw [List.span_eq_takeWhile_dropWhile]
    cases hdrop : i.text.dropWhile (· != '\n') with
    | nil => exact ⟨List.nil_suffix, fun _ => rfl, fun h => by rw [hend.2] at h; cases h⟩
    | cons c rest =>
      rw [hdrop] at hrest
      exact ⟨(List.suffix_cons c rest).trans hrest, id, id⟩

theorem joinLines_consumed (fuel : Nat) (cs : List Char) (i : InputStream) :
    i.Consumed (joinLines fuel cs i).2 := by
  induction fuel generalizing cs i with
  | zero => exact consumed_refl i
  | succ fuel ih =>
    rw [joinLines]
    split_ifs with hlast
    · dsimp only
      split_ifs with hempty
      · exact getline_consumed i
      · exact (getline_consumed i).trans (ih _ _)
    · exact consumed_refl i

theorem readLines_consumed (i : InputStream) : i.Consumed (readLines i).2 := by
  unfold readLines
  dsimp only
  split_ifs with hempty
  · exact getline_consumed i
  · exact (getline_consumed i).trans (joinLines_consumed _ _ _)

theorem streamsKept_read :
    StreamsKept s
      { s with
        inputs := s.inputs.set s.streams.inp
          (readLines (s.inputs[s.streams.inp]?.getD { text := [], fail := true })).2 } where
  outputs := accumulates_refl prolongs_refl _
  inputs := by
    refine accumulates_set consumed_refl (fun i hi => ?_) rfl
    rw [hi]
    exact readLines_consumed i
  out := .inl rfl
  inp := .inl rfl
  streams := rfl

/-! ## Streams that are set -/

theorem streamsFlow_redirected (d : Shell.Redirected) (s : Interpreter) :
    StreamsFlow s (Interpreter.redirected d s) := by
  cases d with
  | input i =>
    exact ⟨accumulates_refl prolongs_refl _, accumulates_append consumed_refl _ _, .inl rfl,
      .inr (Nat.le_refl _)⟩
  | output =>
    exact ⟨accumulates_append prolongs_refl _ _, accumulates_refl consumed_refl _,
      .inr (Nat.le_refl _), .inl rfl⟩
  | nothing => exact (streamsKept_refl s).toStreamsFlow

theorem streamsKept_restore (h : StreamsFlow s s') :
    StreamsKept s { s' with streams := s.streams } where
  outputs := h.outputs
  inputs := h.inputs
  out := .inl rfl
  inp := .inl rfl
  streams := rfl

/-- Nothing that is written to the stream of a command substitution reaches another one. -/
theorem accumulates_of_captured (h : StreamsKept (acquire .captureOutput s) s') :
    Accumulates Prolongs (fun i => i = 1) s.outputs s'.outputs := by
  have hnew : Accumulates Prolongs (fun i => i = 1) s.outputs (s.outputs ++ [""]) :=
    accumulates_append prolongs_refl _ _
  refine hnew.trans prolongs_trans h.outputs fun i hi hw => hw.resolve_left fun hout => ?_
  have : i = s.outputs.length := hout
  omega

theorem streamsKept_within (br : Bracket) (h : StreamsKept (acquire br s) s') :
    StreamsKept s (release br s s') := by
  cases br with
  | localScope => exact ⟨⟨h.outputs, h.inputs, h.out, h.inp⟩, h.streams⟩
  | captureOutput =>
    refine ⟨⟨?_, h.inputs, .inl rfl, .inl rfl⟩, rfl⟩
    exact (accumulates_of_captured h).mono fun i _ hw => .inr hw

/-! ## Trees of their own -/

section Operations

variable {host : Host} {re : Reentry} {α β : Type}

theorem streamsKept_bind {m : Comp Exn Interpreter α} {f : α → Comp Exn Interpreter β}
    (hm : Keeps StreamsKept m) (hf : ∀ a, Keeps StreamsKept (f a)) :
    Keeps StreamsKept (m >>= f) :=
  keeps_bind (I := StreamsKept) (fun h h' => h.trans h') hm hf

theorem streamsKept_update {f : Interpreter → Interpreter}
    (hstreams : ∀ s, (f s).streams = s.streams) (houtputs : ∀ s, (f s).outputs = s.outputs)
    (hinputs : ∀ s, (f s).inputs = s.inputs) :
    Keeps StreamsKept (update f : Comp Exn Interpreter Unit) :=
  keeps_update fun s => streamsKept_of_same (hstreams s) (houtputs s) (hinputs s)

theorem streamsKept_reads (f : Interpreter → α) :
    Keeps StreamsKept (reads f : Comp Exn Interpreter α) := keeps_reads streamsKept_refl f

theorem streamsKept_throw (e : Exn) :
    Keeps StreamsKept (throw e : Comp Exn Interpreter α) := keeps_throw streamsKept_refl e

theorem interpretWith_streams {a : AstId} {walk : Tree → Comp Exn Interpreter α}
    (hwalk : ∀ t, Keeps StreamsKept (walk t)) : Keeps StreamsKept (interpretWith a walk) := by
  intro s r s' hrun
  rcases interpretWith_cases hrun with ⟨-, rfl⟩ | ⟨t, s₁, -, hbody, rfl⟩
  · exact streamsKept_refl _
  · have hin := hwalk t _ _ _ hbody
    have hpush : StreamsKept s { s with astStack := a :: s.astStack } :=
      streamsKept_of_same rfl rfl rfl
    exact (hpush.trans hin).trans (streamsKept_of_same rfl rfl rfl)

variable (hre : re.Keep StreamsKept)

include hre

theorem walk_streams (a : AstId) (rule : WalkerRule α) (t : Tree) :
    Keeps StreamsKept (re.walk a rule t) := by
  cases rule with
  | start =>
    cases t with
    | script main bodies => exact hre.list a main
    | word w => exact streamsKept_throw _
    | arithmetic e => exact streamsKept_throw _
  | stringExpr =>
    cases t with
    | script main bodies => exact streamsKept_throw _
    | word w => exact hre.stringExpr w
    | arithmetic e => exact streamsKept_throw _
  | arithmetics =>
    cases t with
    | script main bodies => exact streamsKept_throw _
    | word w => exact streamsKept_throw _
    | arithmetic e => exact hre.arithmetics e

omit hre in
theorem constructAst_streams (rule : ParserRule) (script : String) :
    Keeps StreamsKept (constructAst host rule script) := by
  intro s r s' hrun
  rcases constructAst_cases hrun with ⟨t, -, rfl⟩ | ⟨e, -, rfl⟩
  · exact streamsKept_of_same rfl rfl rfl
  · exact streamsKept_refl _

theorem interpretTemporary_streams (rule : ParserRule) (script : String) (walk : WalkerRule α) :
    Keeps StreamsKept (interpretTemporary host re rule script walk) := by
  refine streamsKept_bind (constructAst_streams rule script) fun a s r s' hrun => ?_
  obtain ⟨s₁, hbody, rfl⟩ := bracket_cases hrun
  have hwalk := interpretWith_streams (walk_streams hre a walk) _ _ _ hbody
  exact hwalk.trans (streamsKept_of_same rfl rfl rfl)

theorem callFunction_streams (name : String) :
    Keeps StreamsKept (callFunction re name) := by
  refine streamsKept_bind (streamsKept_reads id) fun s => ?_
  cases hf : s.functions[name]? with
  | none => exact streamsKept_throw _
  | some f =>
    refine streamsKept_bind (streamsKept_update (fun _ => rfl) (fun _ => rfl) fun _ => rfl)
      fun _ => interpretWith_streams fun t => ?_
    cases t with
    | script main bodies =>
      dsimp only
      cases bodies[f.index]? with
      | none => exact streamsKept_throw _
      | some body => exact hre.compound _ body
    | word w => exact streamsKept_throw _
    | arithmetic e => exact streamsKept_throw _

/-! ## Operations -/

omit hre in
theorem writing_streams {how : Write} {name : String} {level : Store → Nat}
    (m : Comp Exn Store α) : Keeps StreamsKept (writing how name level m) := by
  intro s r s' hrun
  obtain ⟨log, heq⟩ := (writing_cases hrun).2
  rw [heq]
  exact streamsKept_of_same rfl rfl rfl

theorem performOp_streams (o : Op α) : Keeps StreamsKept (performOp host re o) := by
  cases o with
  | resolveVariable name => exact streamsKept_reads _
  | isUnset name => exact streamsKept_reads _
  | isLocalScope => exact streamsKept_reads _
  | setValue name new index =>
    exact streamsKept_bind (streamsKept_reads id) fun _ => writing_streams _
  | define name init readonly =>
    rw [performOp]
    exact writing_streams _
  | defineLocal name init readonly =>
    rw [performOp]
    exact writing_streams _
  | unset name =>
    rw [performOp]
    exact writing_streams _
  | unsetIndex name index =>
    rw [performOp]
    exact writing_streams _
  | shift number =>
    rw [performOp]
    exact writing_streams _
  | defineFunctionArguments arguments =>
    rw [performOp]
    exact writing_streams _
  | definePositionalArguments arguments =>
    rw [performOp]
    exact writing_streams _
  | hasFunction name => exact streamsKept_reads _
  | allFunctionNames => exact streamsKept_reads _
  | callFunction name => exact callFunction_streams hre name
  | unsetFunction name =>
    exact streamsKept_update (fun _ => rfl) (fun _ => rfl) fun _ => rfl
  | getStatus => exact streamsKept_reads _
  | setStatus status => exact streamsKept_update (fun _ => rfl) (fun _ => rfl) fun _ => rfl
  | getOption name =>
    refine streamsKept_bind (streamsKept_reads _) fun value => ?_
    cases value with
    | none => exact streamsKept_throw _
    | some value => exact keeps_pure streamsKept_refl _
  | setOption name value =>
    refine streamsKept_bind (streamsKept_reads _) fun old => ?_
    cases old with
    | none => exact streamsKept_throw _
    | some old => exact streamsKept_update (fun _ => rfl) (fun _ => rfl) fun _ => rfl
  | getAdditionalOption name =>
    refine streamsKept_bind (streamsKept_reads _) fun value => ?_
    cases value with
    | none => exact streamsKept_throw _
    | some value => exact keeps_pure streamsKept_refl _
  | setAdditionalOption name value =>
    refine streamsKept_bind (streamsKept_reads _) fun old => ?_
    cases old with
    | none => exact streamsKept_throw _
    | some old => exact streamsKept_update (fun _ => rfl) (fun _ => rfl) fun _ => rfl
  | additionalOptions => exact streamsKept_reads _
  -- The three operations that a stream is used by.
  | write text => exact keeps_update fun s => streamsKept_write text (.inl rfl)
  | writeError text => exact keeps_update fun s => streamsKept_write text (.inr rfl)
  | readInput =>
    intro s r s' hrun
    cases hrun
    exact streamsKept_read
  | captured => exact streamsKept_reads _
  | interpretScript rule source => exact interpretTemporary_streams hre _ _ _
  | interpretWord trim source => exact interpretTemporary_streams hre _ _ _
  | interpretArithmetics source => exact interpretTemporary_streams hre _ _ _
  | constructFile path =>
    rw [performOp]
    cases host.readFile path with
    | none => exact streamsKept_throw _
    | some source => exact constructAst_streams _ _
  | findCached path => exact streamsKept_reads _
  | insertCached path ast => exact streamsKept_update (fun _ => rfl) (fun _ => rfl) fun _ => rfl
  | interpret a => exact interpretWith_streams (walk_streams hre a _)
  | tick =>
    refine streamsKept_bind (streamsKept_reads _) fun budget => ?_
    cases budget with
    | none => exact keeps_pure streamsKept_refl _
    | some k =>
      cases k with
      | zero =>
        exact streamsKept_bind (streamsKept_update (fun _ => rfl) (fun _ => rfl) fun _ => rfl)
          fun _ => streamsKept_throw _
      | succ k => exact streamsKept_update (fun _ => rfl) (fun _ => rfl) fun _ => rfl

/-! ## Commands -/

theorem handler_streams : Program.Respects (handler host re) StreamsKept where
  refl := streamsKept_refl
  trans _ _ _ h h' := h.trans h'
  perform o := performOp_streams hre o
  within br _ _ h := streamsKept_within br h

theorem walkStep_streams (p : Shell α) : Keeps StreamsKept (walkStep host re p) :=
  Program.run_keeps (handler_streams hre) _

theorem simpleAtom_streams (cur : AstId) (c : SimpleCommand) :
    Keeps StreamsKept (simpleAtom host re cur c) := by
  cases c with
  | variableDefinitions isLocal defs => exact walkStep_streams hre _
  | functionDefinition name index =>
    refine streamsKept_bind (walkStep_streams hre _) fun _ => ?_
    unfold defineFunction
    split_ifs
    · exact streamsKept_throw _
    · refine streamsKept_bind (streamsKept_reads id) fun s => ?_
      cases hs : s.astStack with
      | nil => exact streamsKept_throw _
      | cons top rest =>
        exact streamsKept_update (fun _ => rfl) (fun _ => rfl) fun _ => rfl
  | simple name args defs bang => exact walkStep_streams hre _

theorem leafSem_streams (cur : AstId) :
    (leafSem host re cur).Respects StreamsKept StreamsFlow where
  refl := streamsKept_refl
  trans _ _ _ h h' := h.trans h'
  weaken _ _ h := h.toStreamsFlow
  transWeak _ _ _ h h' := h.trans h'
  restore _ _ h := streamsKept_restore h
  setStatus _ _ := streamsKept_of_same rfl rfl rfl
  redirect _ := by
    intro s r s' hrun
    rcases bind_cases hrun with ⟨redirected, s₁, hword, hset⟩ | ⟨e, hword, -⟩
    · cases hset
      exact (walkStep_streams hre _ _ _ _ hword).toStreamsFlow.trans (streamsFlow_redirected _ s₁)
    · exact (walkStep_streams hre _ _ _ _ hword).toStreamsFlow
  simple c := simpleAtom_streams hre cur c
  cond _ := walkStep_streams hre _
  arith _ := walkStep_streams hre _
  forWord _ := walkStep_streams hre _
  positional := walkStep_streams hre _
  setValue _ _ := walkStep_streams hre _
  caseWord _ := walkStep_streams hre _
  matchPattern _ _ := walkStep_streams hre _

end Operations

theorem reentry_streams (host : Host) (n d : Nat) : (reentry host n d).Keep StreamsKept := by
  induction d with
  | zero => exact ⟨fun _ _ => keeps_diverge, fun _ _ => keeps_diverge, fun _ => keeps_diverge,
      fun _ => keeps_diverge⟩
  | succ d ih =>
    have hleaf : ∀ a, (leafSem host (reentry host n d) a).Respects StreamsKept StreamsFlow :=
      fun a => leafSem_streams ih a
    exact ⟨fun a c => execList_keeps (hleaf a) n c, fun a c => execCompound_keeps (hleaf a) n c,
      fun _ => walkStep_streams ih _, fun _ => walkStep_streams ih _⟩

/-! ## Whole runs -/

section Runs

variable {host : Host} {n d : Nat}

theorem commands_streams (host : Host) (n d : Nat) (cur : AstId) :
    (leafSem host (reentry host n d) cur).Respects StreamsKept StreamsFlow :=
  leafSem_streams (reentry_streams host n d) cur

/-- Whatever a command tree does and however it ends, the streams that were there have kept
their text, only the current output stream and the standard error have more, and of the input
streams only the current one has been read. -/
theorem runTree_streamsKept {cur : AstId} {F : Focus shell} {r : Except Exn Unit}
    (h : runTree host n d cur F s = some (r, s')) : StreamsKept s s' :=
  runTree_keeps (commands_streams host n d cur) F s r s' h

/-- `echo a`, and a host that parses it. -/
def echoA : SimpleCommand := .literals "echo" ["a"]

def echoHost : Host :=
  .ofTexts [((.start, readScript true "echo a"), .script (.ofSimple echoA []) [])] []

theorem runTree_streamsKept_echoA :
    ∃ r s', runTree echoHost 1 1 0 (.simple echoA) (.initial []) = some (r, s') ∧
      StreamsKept (.initial []) s' := by
  have hends : (runTree echoHost 1 1 0 (.simple echoA) (.initial [])).isSome = true := by
    decide +kernel
  obtain ⟨⟨r, s'⟩, hrun⟩ := Option.isSome_iff_exists.mp hends
  exact ⟨r, s', hrun, runTree_streamsKept hrun⟩

theorem runShell_streams {α : Type} (p : Shell α) : Keeps StreamsKept (runShell host n d p) :=
  Program.run_keeps (handler_streams (reentry_streams host n d)) p

/-- The text of a command substitution is what its commands write to a stream of their own. -/
theorem commandSubstitution_isolated (subscript : String) {r : Except Exn String}
    (h : runShell host n d (Shell.commandSubstitution subscript) s = some (r, s')) :
    s'.streams = s.streams ∧ Accumulates Prolongs (fun i => i = 1) s.outputs s'.outputs ∧
      Accumulates InputStream.Consumed (fun i => i = s.streams.inp) s.inputs s'.inputs ∧
      ∀ value, r = .ok value →
        ∃ text, s'.outputs[s.outputs.length]? = some text ∧ value = Shell.trimTrailingEols text := by
  obtain ⟨s₁, hbody, rfl⟩ := within_cases h
  have hkept := runShell_streams _ _ _ _ hbody
  have houtputs := accumulates_of_captured hkept
  refine ⟨rfl, houtputs, hkept.inputs, fun value hr => ?_⟩
  subst hr
  rcases bind_cases hbody with ⟨_, s₂, hscript, hrest⟩ | ⟨e, -, he⟩
  · have hflow := runShell_streams _ _ _ _ hscript
    have hend : some (Except.ok (ε := Exn)
        (Shell.trimTrailingEols (s₂.outputs[s₂.streams.out]?.getD "")), s₂) =
        some (.ok value, s₁) := hrest
    rw [hflow.streams] at hend
    -- The stream is still the current one when its text is taken.
    obtain ⟨text, htext, -⟩ := hflow.outputs s.outputs.length ""
      (by show (s.outputs ++ [""])[s.outputs.length]? = some ""; simp)
    simp only [Option.some.injEq, Prod.mk.injEq, Except.ok.injEq] at hend
    obtain ⟨rfl, rfl⟩ := hend
    refine ⟨text, htext, ?_⟩
    show Shell.trimTrailingEols (_[s.outputs.length]?.getD "") = _
    rw [htext]
    rfl
  · cases he

theorem commandSubstitution_isolated_echoA :
    ∃ r s', runShell echoHost 1 1 (Shell.commandSubstitution "$(echo a)") (.initial []) =
        some (r, s') ∧ ∀ value, r = .ok value →
          ∃ text, s'.outputs[2]? = some text ∧ value = Shell.trimTrailingEols text := by
  have hends : (runShell echoHost 1 1 (Shell.commandSubstitution "$(echo a)")
      (.initial [])).isSome = true := by decide +kernel
  obtain ⟨⟨r, s'⟩, hrun⟩ := Option.isSome_iff_exists.mp hends
  exact ⟨r, s', hrun, (commandSubstitution_isolated "$(echo a)" hrun).2.2.2⟩

def Command.redirections : Command shell → List Redirection
  | .simple redirs _ => redirs
  | .compound redirs _ => redirs

theorem redirected_body {cur : AstId} {rs : List Redirection} {body : Comp Exn Interpreter Unit}
    {r : Except Exn Unit} (hbody : Keeps StreamsKept body)
    (h : withStreams (leafSem host (reentry host n d) cur) (do
      runRedirects (leafSem host (reentry host n d) cur) rs
      body) s = some (r, s'))
    (hset : runRedirects (leafSem host (reentry host n d) cur) rs s = some (.ok (), s₁))
    (hout : s₁.streams.out ≠ s.streams.out) {i : Nat} (hi : i < s.outputs.length) (herr : i ≠ 1) :
    s'.outputs[i]? = s₁.outputs[i]? := by
  obtain ⟨s₂, hin, rfl⟩ := bracket_cases h
  rw [bind_of_ok hset] at hin
  have hrespects := commands_streams host n d cur
  have hflow : StreamsFlow s s₁ := hrespects.runRedirects rs _ _ _ hset
  have hnew : s.outputs.length ≤ s₁.streams.out := hflow.out.resolve_left hout
  have hlen := hflow.outputs.length_le
  exact (hbody _ _ _ hin).outputs.unwritten (by omega) (by omega)

/-- When the redirections of a command have set another output stream, the command adds
nothing to the ones that were there, but for the standard error. -/
theorem redirected_isolated {cur : AstId} {c : Command shell} {r : Except Exn Unit}
    (h : runTree host n d cur (.command c) s = some (r, s'))
    (hset : runRedirects (leafSem host (reentry host n d) cur) c.redirections s = some (.ok (), s₁))
    (hout : s₁.streams.out ≠ s.streams.out) {i : Nat} (hi : i < s.outputs.length) (herr : i ≠ 1) :
    s'.outputs[i]? = s₁.outputs[i]? := by
  have hrespects := commands_streams host n d cur
  cases c with
  | simple redirs c => exact redirected_body (hrespects.simple c) h hset hout hi herr
  | compound redirs c =>
    exact redirected_body (execCompound_keeps hrespects n c) h hset hout hi herr

/-- `echo a > f`. -/
def echoFile : Command shell := .simple [.output false (.file (.literal "f"))] echoA

theorem redirected_isolated_echoFile :
    ∃ (r : Except Exn Unit) (s₁ s' : Interpreter),
      runTree echoHost 1 1 0 (.command echoFile) (.initial []) = some (r, s') ∧
        s₁.streams.out = 2 ∧ s'.outputs[0]? = s₁.outputs[0]? := by
  have hends : (runTree echoHost 1 1 0 (.command echoFile) (.initial [])).isSome = true := by
    decide +kernel
  have hset : ∃ s₁, runRedirects (leafSem echoHost (reentry echoHost 1 1) 0) echoFile.redirections
      (.initial []) = some (.ok (), s₁) ∧ s₁.streams.out = 2 := ⟨_, rfl, rfl⟩
  obtain ⟨⟨r, s'⟩, hrun⟩ := Option.isSome_iff_exists.mp hends
  obtain ⟨s₁, hset, hout⟩ := hset
  refine ⟨r, s₁, s', hrun, hout, redirected_isolated hrun hset ?_ ?_ ?_⟩
  · rw [hout]
    exact (by decide : (2 : Nat) ≠ 0)
  · exact (by decide : 0 < 2)
  · exact (by decide : (0 : Nat) ≠ 1)

end Runs

end Libbash
