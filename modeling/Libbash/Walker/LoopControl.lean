import Libbash.Walker.WalkCorrect

/-!
# Where `break n` and `continue n` land

A command that runs inside a nest of loops has around it a stack of contexts:
commands that follow it, streams to restore, and loops to go on with. `Enters`
follows an execution down to such a command and collects the contexts, and
`enters_plug` says that the rest of the execution is the command plugged into
them. A loop control exception then travels outwards context by context
(`unwind`): `rethrow_unless_correct_frame` takes one off its count in each loop
it leaves.

* **`unwind_of_le`** — a count within the depth of the nest lands at the loop
  it names;
* **`unwind_of_lt`** — a larger count leaves every loop and escapes;
* **`loopControl_lands_iff`** — so it lands where it should exactly when the
  count is within the depth.
-/

namespace Libbash

open Lib Lib.Comp

variable {X : Leaves} {S : Type}

/-! ## Loops with their remaining passes -/

/-- A loop that still has passes to make. -/
inductive Loop (X : Leaves) where
  | forEach (name : String) (body : CommandList X) (values : List String)
  | cfor (cond mod : Option X.Arith) (body : CommandList X) (passes : Nat)
  | whileUntil (negate : Bool) (cond body : CommandList X) (passes : Nat)

def Loop.body : Loop X → CommandList X
  | .forEach _ body _ => body
  | .cfor _ _ body _ => body
  | .whileUntil _ _ body _ => body

section Semantics

variable (sem : LeafSem X S) (n : Nat)

/-- The loop from the start of a pass. -/
def Loop.run : Loop X → Comp Exn S Unit
  | .forEach name body values => forLoop sem name (execList sem n body) values
  | .cfor cond mod body passes => cforLoop sem cond mod (execList sem n body) passes
  | .whileUntil negate cond body passes =>
    whileLoop sem negate (execList sem n cond) (execList sem n body) passes

/-- What a loop runs between two passes. -/
def Loop.modify : Loop X → Comp Exn S Unit
  | .cfor _ mod _ _ => runArith sem mod
  | _ => pure ()

/-- Go on with the next iteration. -/
def Loop.next (l : Loop X) : Comp Exn S Unit := do
  l.modify sem
  l.run sem n

/-- The start of a pass: the loop as it is during the pass, or nothing when
there is no further pass. -/
def Loop.test : Loop X → Comp Exn S (Option (Loop X))
  | .forEach _ _ [] => pure none
  | .forEach name body (value :: values) => do
    sem.setValue name value
    pure (some (.forEach name body values))
  | .cfor _ _ _ 0 => diverge
  | .cfor cond mod body (passes + 1) => do
    if ← cforTest sem cond then pure (some (.cfor cond mod body passes)) else pure none
  | .whileUntil _ _ _ 0 => diverge
  | .whileUntil negate cond body (passes + 1) => do
    if ← loopTest sem negate (execList sem n cond) then
      pure (some (.whileUntil negate cond body passes))
    else pure none

/-- What a loop does once its body has ended. -/
def Loop.proceed (l : Loop X) (again : Bool) : Comp Exn S Unit :=
  if again then l.next sem n else pure ()

/-- All loops are one: test, body, next pass. -/
theorem Loop.run_eq (l : Loop X) :
    l.run sem n = l.test sem n >>= fun
      | none => pure ()
      | some l' => loopBody (execList sem n l'.body) >>= l'.proceed sem n := by
  cases l with
  | forEach name body values =>
    cases values with
    | nil => rfl
    | cons value values =>
      simp only [Loop.run, Loop.test, forLoop, bind_assoc, pure_bind]
      rfl
  | cfor cond mod body passes =>
    cases passes with
    | zero => rfl
    | succ passes =>
      simp only [Loop.run, Loop.test, cforLoop, bind_assoc]
      congr 1
      funext holds
      cases holds <;> rfl
  | whileUntil negate cond body passes =>
    cases passes with
    | zero => rfl
    | succ passes =>
      simp only [Loop.run, Loop.test, whileLoop, bind_assoc]
      congr 1
      funext holds
      cases holds <;> rfl

/-! ## Contexts -/

/-- What comes after a part of a command. -/
inductive Follow (X : Leaves) where
  | list (rest : CommandList X)
  | logic (isAnd : Bool) (right : Command X)
  | branch (body : CommandList X) (parts : ElseParts X)

def Follow.run : Follow X → Comp Exn S Unit
  | .list rest => execList sem n rest
  | .logic isAnd right => do
    let status ← getStatus sem
    if logicRuns isAnd status then execCommand sem n right else pure ()
  | .branch body parts => do
    let status ← getStatus sem
    if elifMatches status then execList sem n body else execElse sem n parts

/-- One layer around a running command. -/
inductive Ctx where
  | seq (k : Follow X)
  | streams (saved : sem.Streams)
  | loop (l : Loop X)

/-- Run `m` and put the saved streams back. -/
def restoring (saved : sem.Streams) (m : Comp Exn S Unit) : Comp Exn S Unit :=
  bracket (fun s => (saved, s)) sem.setStreams m

def Ctx.around (m : Comp Exn S Unit) : Ctx sem → Comp Exn S Unit
  | .seq k => m >>= fun _ => k.run sem n
  | .streams saved => restoring sem saved m
  | .loop l => loopBody m >>= l.proceed sem n

/-- A command inside contexts, the innermost first. -/
def plug : List (Ctx sem) → Comp Exn S Unit → Comp Exn S Unit
  | [], m => m
  | c :: cs, m => plug cs (c.around sem n m)

/-- The number of loops around a command. -/
def loopDepth : List (Ctx sem) → Nat
  | [] => 0
  | .loop _ :: cs => loopDepth cs + 1
  | _ :: cs => loopDepth cs

end Semantics

section Congruence

variable {sem : LeafSem X S} {n : Nat} {m m' : Comp Exn S Unit} {s s' : S}

theorem loopBody_congr (h : m s = m' s') : loopBody m s = loopBody m' s' := by
  have hbody : (m >>= fun _ => (pure true : Comp Exn S Bool)) s =
      (m' >>= fun _ => pure true) s' := bind_congr_at h fun _ _ _ => rfl
  unfold loopBody
  rcases hm : (m >>= fun _ => (pure true : Comp Exn S Bool)) s with _ | ⟨e | b, t⟩
  · rw [tryCatch_of_none hm, tryCatch_of_none (hbody ▸ hm)]
  · rw [tryCatch_of_error hm, tryCatch_of_error (hbody ▸ hm)]
  · rw [tryCatch_of_ok hm, tryCatch_of_ok (hbody ▸ hm)]

theorem around_congr (h : m s = m' s') (c : Ctx sem) :
    c.around sem n m s = c.around sem n m' s' := by
  cases c with
  | seq k => exact bind_congr_at h fun _ _ _ => rfl
  | streams saved => simp only [Ctx.around, restoring, bracket, h]
  | loop l => exact bind_congr_at (loopBody_congr h) fun _ _ _ => rfl

theorem withStreams_congr (h : m s = m' s') :
    withStreams sem m s = restoring sem (sem.getStreams s) m' s' := by
  simp only [withStreams, restoring, bracket, h]

theorem plug_congr (h : m s = m' s') (cs : List (Ctx sem)) :
    plug sem n cs m s = plug sem n cs m' s' := by
  induction cs generalizing m m' with
  | nil => exact h
  | cons c cs ih => exact ih (around_congr h c)

theorem plug_concat (cs : List (Ctx sem)) (c : Ctx sem) (m : Comp Exn S Unit) :
    plug sem n (cs ++ [c]) m = c.around sem n (plug sem n cs m) := by
  induction cs generalizing m with
  | nil => rfl
  | cons c' cs ih => exact ih (c'.around sem n m)

end Congruence

/-! ## Entering a command -/

/-- What an execution is about to run. -/
inductive Focus (X : Leaves) where
  | list (c : CommandList X)
  | logic (c : LogicCommand X)
  | command (c : Command X)
  | simple (c : X.Simple)
  | compound (c : Compound X)
  | elseParts (c : ElseParts X)
  | clauses (target : String) (c : Clauses X)
  | loop (l : Loop X)

section Enters

variable (sem : LeafSem X S) (n : Nat)

def Focus.run : Focus X → Comp Exn S Unit
  | .list c => execList sem n c
  | .logic c => execLogic sem n c
  | .command c => execCommand sem n c
  | .simple c => sem.simple c
  | .compound c => execCompound sem n c
  | .elseParts c => execElse sem n c
  | .clauses target c => execClauses sem n target c
  | .loop l => l.run sem n

/-- `Enters F s cs G t`: running `F` from `s` comes to run `G` from `t`, inside
the contexts `cs`. Loops are entered through their bodies. -/
inductive Enters : Focus X → S → List (Ctx sem) → Focus X → S → Prop
  | here (F : Focus X) (s : S) : Enters F s [] F s
  | listLast {c : LogicCommand X} {s t : S} {cs G} (h : Enters (.logic c) s cs G t) :
      Enters (.list (.last c)) s cs G t
  | listHead {c : LogicCommand X} {rest : CommandList X} {s t : S} {cs G}
      (h : Enters (.logic c) s cs G t) :
      Enters (.list (.cons c rest)) s (cs ++ [.seq (.list rest)]) G t
  | listTail {c : LogicCommand X} {rest : CommandList X} {s s₁ t : S} {cs G}
      (hc : execLogic sem n c s = some (.ok (), s₁)) (h : Enters (.list rest) s₁ cs G t) :
      Enters (.list (.cons c rest)) s cs G t
  | logicCommand {c : Command X} {s t : S} {cs G} (h : Enters (.command c) s cs G t) :
      Enters (.logic (.command c)) s cs G t
  | logicLeft {isAnd : Bool} {left : LogicCommand X} {right : Command X} {s t : S} {cs G}
      (h : Enters (.logic left) s cs G t) :
      Enters (.logic (.logic isAnd left right)) s (cs ++ [.seq (.logic isAnd right)]) G t
  | logicRight {isAnd : Bool} {left : LogicCommand X} {right : Command X} {s s₁ t : S} {cs G}
      (hleft : execLogic sem n left s = some (.ok (), s₁))
      (hruns : logicRuns isAnd (sem.getStatus s₁) = true) (h : Enters (.command right) s₁ cs G t) :
      Enters (.logic (.logic isAnd left right)) s cs G t
  | simple {redirs : List X.Redirect} {c : X.Simple} {s s₁ t : S} {cs G}
      (hr : runRedirects sem redirs s = some (.ok (), s₁)) (h : Enters (.simple c) s₁ cs G t) :
      Enters (.command (.simple redirs c)) s (cs ++ [.streams (sem.getStreams s)]) G t
  | compound {redirs : List X.Redirect} {c : Compound X} {s s₁ t : S} {cs G}
      (hr : runRedirects sem redirs s = some (.ok (), s₁)) (h : Enters (.compound c) s₁ cs G t) :
      Enters (.command (.compound redirs c)) s (cs ++ [.streams (sem.getStreams s)]) G t
  | currentShell {body : CommandList X} {s t : S} {cs G} (h : Enters (.list body) s cs G t) :
      Enters (.compound (.currentShell body)) s cs G t
  | forEach {name : String} {words : List X.Word} {body : CommandList X}
      {splitted values : List String} {s s₁ s₂ t : S} {cs G}
      (hsplit : splitWords sem [] words s = some (.ok splitted, s₁))
      (hsome : (splitted.isEmpty && !words.isEmpty) = false)
      (hvalues : forValues sem words splitted s₁ = some (.ok values, s₂))
      (h : Enters (.loop (.forEach name body values)) s₂ cs G t) :
      Enters (.compound (.forEach name words body)) s cs G t
  | cfor {init cond mod : Option X.Arith} {body : CommandList X} {s s₁ t : S} {cs G}
      (hinit : runArith sem init s = some (.ok (), s₁))
      (h : Enters (.loop (.cfor cond mod body n)) s₁ cs G t) :
      Enters (.compound (.cfor init cond mod body)) s cs G t
  | whileUntil {negate : Bool} {cond body : CommandList X} {s t : S} {cs G}
      (h : Enters (.loop (.whileUntil negate cond body n)) s cs G t) :
      Enters (.compound (.loop negate cond body)) s cs G t
  | ifStatement {cond body : CommandList X} {parts : ElseParts X} {s t : S} {cs G}
      (h : Enters (.elseParts (.elif cond body parts)) s cs G t) :
      Enters (.compound (.ifStatement cond body parts)) s cs G t
  | caseOf {w : X.Word} {clauses : Clauses X} {target : String} {s s₁ t : S} {cs G}
      (hw : sem.caseWord w s = some (.ok target, s₁))
      (h : Enters (.clauses target clauses) s₁ cs G t) :
      Enters (.compound (.caseOf w clauses)) s cs G t
  | elsePart {body : CommandList X} {s t : S} {cs G} (h : Enters (.list body) s cs G t) :
      Enters (.elseParts (.elsePart body)) s cs G t
  | elifCond {cond body : CommandList X} {parts : ElseParts X} {s t : S} {cs G}
      (h : Enters (.list cond) s cs G t) :
      Enters (.elseParts (.elif cond body parts)) s (cs ++ [.seq (.branch body parts)]) G t
  | elifBody {cond body : CommandList X} {parts : ElseParts X} {s s₁ t : S} {cs G}
      (htest : elifTest sem (execList sem n cond) s = some (.ok true, s₁))
      (h : Enters (.list body) s₁ cs G t) :
      Enters (.elseParts (.elif cond body parts)) s cs G t
  | elifNext {cond body : CommandList X} {parts : ElseParts X} {s s₁ t : S} {cs G}
      (htest : elifTest sem (execList sem n cond) s = some (.ok false, s₁))
      (h : Enters (.elseParts parts) s₁ cs G t) :
      Enters (.elseParts (.elif cond body parts)) s cs G t
  | clauseBody {target : String} {p : X.Pattern} {body : CommandList X} {rest : Clauses X}
      {s s₁ t : S} {cs G} (hp : sem.matchPattern p target s = some (.ok true, s₁))
      (h : Enters (.list body) s₁ cs G t) :
      Enters (.clauses target (.commands p body rest)) s cs G t
  | clauseNext {target : String} {p : X.Pattern} {body : CommandList X} {rest : Clauses X}
      {s s₁ t : S} {cs G} (hp : sem.matchPattern p target s = some (.ok false, s₁))
      (h : Enters (.clauses target rest) s₁ cs G t) :
      Enters (.clauses target (.commands p body rest)) s cs G t
  | clauseEmpty {target : String} {p : X.Pattern} {rest : Clauses X} {s s₁ t : S} {cs G}
      (hp : sem.matchPattern p target s = some (.ok false, s₁))
      (h : Enters (.clauses target rest) s₁ cs G t) :
      Enters (.clauses target (.empty p rest)) s cs G t
  | pass {l l' : Loop X} {s s₁ t : S} {cs G} (htest : l.test sem n s = some (.ok (some l'), s₁))
      (h : Enters (.list l'.body) s₁ cs G t) : Enters (.loop l) s (cs ++ [.loop l']) G t
  | nextPass {l l' : Loop X} {s s₁ s₂ s₃ t : S} {cs G}
      (htest : l.test sem n s = some (.ok (some l'), s₁))
      (hbody : loopBody (execList sem n l'.body) s₁ = some (.ok true, s₂))
      (hmod : l'.modify sem s₂ = some (.ok (), s₃)) (h : Enters (.loop l') s₃ cs G t) :
      Enters (.loop l) s cs G t

variable {sem n}

/-- The rest of an execution that has come to `G` is `G` inside its contexts. -/
theorem enters_plug {F G : Focus X} {s t : S} {cs : List (Ctx sem)}
    (h : Enters sem n F s cs G t) : F.run sem n s = plug sem n cs (G.run sem n) t := by
  induction h with
  | here F s => rfl
  | listLast h ih => exact ih
  | listHead h ih =>
    rw [plug_concat]
    exact bind_congr_at ih fun _ _ _ => rfl
  | listTail hc h ih => exact (bind_of_ok hc _).trans ih
  | logicCommand h ih => exact ih
  | logicLeft h ih =>
    rw [plug_concat]
    exact bind_congr_at ih fun _ _ _ => rfl
  | logicRight hleft hruns h ih =>
    refine (bind_of_ok hleft _).trans ?_
    simp only [getStatus, reads_bind_apply, hruns, if_true]
    exact ih
  | simple hr h ih =>
    rw [plug_concat]
    exact withStreams_congr ((bind_of_ok hr _).trans ih)
  | compound hr h ih =>
    rw [plug_concat]
    exact withStreams_congr ((bind_of_ok hr _).trans ih)
  | currentShell h ih => exact ih
  | forEach hsplit hsome hvalues h ih =>
    refine (bind_of_ok hsplit _).trans ?_
    rw [hsome]
    exact (bind_of_ok hvalues _).trans ih
  | cfor hinit h ih => exact (bind_of_ok hinit _).trans ih
  | whileUntil h ih => exact ih
  | ifStatement h ih => exact ih
  | caseOf hw h ih => exact (bind_of_ok hw _).trans ih
  | elsePart h ih => exact ih
  | elifCond h ih =>
    rw [plug_concat]
    simp only [Focus.run, execElse, elifTest, bind_assoc, pure_bind]
    exact bind_congr_at ih fun _ _ _ => rfl
  | elifBody htest h ih => exact (bind_of_ok htest _).trans ih
  | elifNext htest h ih => exact (bind_of_ok htest _).trans ih
  | clauseBody hp h ih => exact (bind_of_ok hp _).trans ih
  | clauseNext hp h ih => exact (bind_of_ok hp _).trans ih
  | clauseEmpty hp h ih => exact (bind_of_ok hp _).trans ih
  | pass htest h ih =>
    rw [plug_concat]
    refine (congrFun (Loop.run_eq sem n _) _).trans ((bind_of_ok htest _).trans ?_)
    exact bind_congr_at (loopBody_congr ih) fun _ _ _ => rfl
  | nextPass htest hbody hmod h ih =>
    refine (congrFun (Loop.run_eq sem n _) _).trans ((bind_of_ok htest _).trans ?_)
    exact (bind_of_ok hbody _).trans ((bind_of_ok hmod _).trans ih)

end Enters

/-! ## Unwinding -/

section Unwinding

variable (sem : LeafSem X S)

/-- Where execution goes on after a loop control exception. -/
inductive Landing where
  /-- After the loop, inside the contexts around it. -/
  | after (outer : List (Ctx sem))
  /-- With the next iteration of the loop. -/
  | iterate (l : Loop X) (outer : List (Ctx sem))
  | escapes (e : Exn)

def Landing.resume (n : Nat) : Landing sem → Comp Exn S Unit
  | .after outer => plug sem n outer (pure ())
  | .iterate l outer => plug sem n outer (l.next sem n)
  | .escapes e => throw e

/-- The landing of `break` and of `continue` at a loop. -/
def landing (kind : LoopControl) (l : Loop X) (outer : List (Ctx sem)) : Landing sem :=
  match kind with
  | .breakException => .after outer
  | .continueException => .iterate l outer

/-- The way of an exception through the contexts: streams are restored, and
each loop either takes the exception or throws it on with one less. -/
def unwind (kind : LoopControl) : Int → List (Ctx sem) → S → Landing sem × S
  | count, [], s => (.escapes (.loopControl kind count), s)
  | count, .seq _ :: cs, s => unwind kind count cs s
  | count, .streams saved :: cs, s => unwind kind count cs (sem.setStreams saved s)
  | count, .loop l :: cs, s =>
    if count = 1 then (landing sem kind l cs, s) else unwind kind (count - 1) cs s

/-- The state after the contexts have put their streams back. -/
def restoreStreams : List (Ctx sem) → S → S
  | [], s => s
  | .streams saved :: cs, s => restoreStreams cs (sem.setStreams saved s)
  | _ :: cs, s => restoreStreams cs s

variable {sem} {n : Nat}

/-- The handlers around a loop body. -/
theorem loopBody_control {kind : LoopControl} {m : Comp Exn S Unit} {s t : S} {count : Int}
    (h : m s = some (.error (.loopControl kind count), t)) :
    loopBody m s = if count = 1 then some (.ok (kind == .continueException), t)
      else some (.error (.loopControl kind (count - 1)), t) := by
  have hbody : (m >>= fun _ => (pure true : Comp Exn S Bool)) s =
      some (.error (.loopControl kind count), t) := bind_of_error h _
  unfold loopBody
  rw [tryCatch_of_error hbody]
  by_cases hc : count = 1
  · subst hc
    cases kind <;> rfl
  · rw [if_neg hc]
    cases kind <;> simp only [rethrow_ne hc, throw_bind, throw_apply]

/-- `unwind` is what the handlers do. -/
theorem plug_unwind {kind : LoopControl} {cs : List (Ctx sem)} {m : Comp Exn S Unit} {s t : S}
    {count : Int} (h : m s = some (.error (.loopControl kind count), t)) :
    plug sem n cs m s =
      (unwind sem kind count cs t).1.resume sem n (unwind sem kind count cs t).2 := by
  induction cs generalizing m s t count with
  | nil => exact h
  | cons c cs ih =>
    cases c with
    | seq k => exact ih (bind_of_error h _)
    | streams saved =>
      refine ih (t := sem.setStreams saved t) ?_
      simp only [Ctx.around, restoring, bracket, h]
    | loop l =>
      have hbody := loopBody_control h
      by_cases hc : count = 1
      · rw [if_pos hc] at hbody
        simp only [unwind, if_pos hc]
        cases kind with
        | breakException => exact plug_congr (bind_of_ok hbody _) cs
        | continueException => exact plug_congr (bind_of_ok hbody _) cs
      · rw [if_neg hc] at hbody
        simp only [unwind, if_neg hc]
        exact ih (bind_of_error hbody _)

/-- A count that ends at the loop lands there. -/
theorem unwind_of_le (kind : LoopControl) (l : Loop X) (outer : List (Ctx sem)) :
    ∀ (inner : List (Ctx sem)) (s : S),
      unwind sem kind (loopDepth sem inner + 1 : Nat) (inner ++ .loop l :: outer) s =
        (landing sem kind l outer, restoreStreams sem inner s)
  | [], s => by simp [unwind, loopDepth, restoreStreams]
  | .seq k :: inner, s => unwind_of_le kind l outer inner s
  | .streams saved :: inner, s => unwind_of_le kind l outer inner (sem.setStreams saved s)
  | .loop l' :: inner, s => by
    have ih := unwind_of_le kind l outer inner s
    have hne : ((loopDepth sem inner + 1 + 1 : Nat) : Int) ≠ 1 := by omega
    simp only [List.cons_append, unwind, loopDepth, if_neg hne, restoreStreams]
    rw [← ih]
    congr 1
    omega

/-- A count above the depth leaves all loops. -/
theorem unwind_of_lt (kind : LoopControl) :
    ∀ (cs : List (Ctx sem)) (count : Int) (s : S), (loopDepth sem cs : Int) < count →
      unwind sem kind count cs s =
        (.escapes (.loopControl kind (count - loopDepth sem cs)), restoreStreams sem cs s)
  | [], count, s, _ => by simp [unwind, loopDepth, restoreStreams]
  | .seq k :: cs, count, s, h => unwind_of_lt kind cs count s h
  | .streams saved :: cs, count, s, h => unwind_of_lt kind cs count (sem.setStreams saved s) h
  | .loop l :: cs, count, s, h => by
    simp only [loopDepth] at h
    have hne : count ≠ 1 := by omega
    simp only [unwind, if_neg hne, loopDepth, restoreStreams]
    rw [unwind_of_lt kind cs (count - 1) s (by omega)]
    congr 3
    omega

end Unwinding

/-! ## The walker -/

section Walker

variable {sem : LeafSem rawLeaves S}

/-- The outcome of a walk without the place of its cursor. -/
def withoutCursor {S : Type} (r : Option (Except Exn Unit × Cursor S)) :
    Option (Except Exn Unit × S) :=
  r.map fun out => (out.1, out.2.inner)

theorem commandList_withoutCursor (crash : Nat → S → Exn → Nat) (n d : Nat)
    (c : CommandList rawLeaves) (before after : NodeStream) (s : S) :
    withoutCursor (commandList (before ++ (c.tree.stream ++ after)) sem crash n
      (c.tree.stream.length + d) ⟨before.length, s⟩) = execList sem n c s := by
  have hwalk : Moves before.length _ (commandList (before ++ (c.tree.stream ++ after)) sem crash n
      (c.tree.stream.length + d)) (execList sem n c) :=
    commandList_walks c d _ _ (onTree_append before (c.tree.stream ++ after))
  have hat : At before.length (⟨before.length, s⟩ : Cursor S) s := ⟨rfl, rfl⟩
  rcases hexec : execList sem n c s with _ | ⟨e | ⟨⟩, s'⟩
  · rw [hwalk.diverges hat hexec]
    rfl
  · obtain ⟨⟨p, s''⟩, hw, rfl⟩ := hwalk.raises hat hexec
    rw [hw]
    rfl
  · obtain ⟨⟨⟩, ⟨p, s''⟩, hw, -, rfl, rfl⟩ := hwalk.finishes hat hexec
    rw [hw]
    rfl

/-- A loop control exception of count `count`, raised inside the contexts
`inner`, the loop `l` and the contexts `outer` and in state `t`, leaves `inner`
and is dealt with at `l`: `outcome` is how execution then goes on. -/
structure LeavesRightLoop (sem : LeafSem X S) (n : Nat) (outcome : Option (Except Exn Unit × S))
    (kind : LoopControl) (count : Nat) (inner : List (Ctx sem)) (l : Loop X)
    (outer : List (Ctx sem)) (t : S) : Prop where
  goesOn : outcome = (landing sem kind l outer).resume sem n (restoreStreams sem inner t)
  caught : ∀ e, (unwind sem kind count (inner ++ .loop l :: outer) t).1 ≠ .escapes e

/-- `break count` and `continue count` leave the innermost `min count depth`
loops as they should exactly when `count` is within the depth of the nest. -/
theorem leavesRightLoop_iff (crash : Nat → S → Exn → Nat) (n d : Nat) (c : CommandList rawLeaves)
    (before after : NodeStream) {s t t' : S} {inner outer : List (Ctx sem)} {l : Loop rawLeaves}
    {G : Focus rawLeaves} {kind : LoopControl} {count : Nat}
    (henters : Enters sem n (.list c) s (inner ++ .loop l :: outer) G t)
    (hraise : G.run sem n t = some (.error (.loopControl kind count), t'))
    (hloop : loopDepth sem inner + 1 = min count (loopDepth sem (inner ++ .loop l :: outer))) :
    LeavesRightLoop sem n (withoutCursor (commandList (before ++ (c.tree.stream ++ after)) sem
      crash n (c.tree.stream.length + d) ⟨before.length, s⟩)) kind count inner l outer t' ↔
        count ≤ loopDepth sem (inner ++ .loop l :: outer) := by
  have hrun := (enters_plug henters).trans (plug_unwind hraise)
  constructor
  · intro h
    by_contra hlt
    have hescape := unwind_of_lt kind (inner ++ .loop l :: outer) count t' (by omega)
    exact h.caught _ (congrArg Prod.fst hescape)
  · intro hle
    have hland := unwind_of_le kind l outer inner t'
    rw [hloop, Nat.min_eq_left hle] at hland
    rw [hland] at hrun
    refine ⟨(commandList_withoutCursor crash n d c before after s).trans hrun, fun e => ?_⟩
    rw [hland]
    cases kind <;> exact fun h => nomatch h

/-- `while :; do break 2; done`. -/
def whileBreakTwo : Compound rawLeaves := .loop false (simpleList ":" []) (simpleList "break" ["2"])

/-- The loop of `whileBreakTwo` with so many passes left. -/
def whileBreakTwoLoop (passes : Nat) : Loop rawLeaves :=
  .whileUntil false (simpleList ":" []) (simpleList "break" ["2"]) passes

def breakTwo : Focus rawLeaves := .simple ⟨[stringNode "break", stringNode "2"], rfl⟩

theorem enters_whileBreakTwo : Enters statusSem 1 (.compound whileBreakTwo) 0
    [.streams (), .loop (whileBreakTwoLoop 0)] breakTwo 0 := by
  have htest : (whileBreakTwoLoop 1).test statusSem 1 0 =
      some (.ok (some (whileBreakTwoLoop 0)), 0) := by rfl
  have hbody : Enters statusSem 1 (.list (whileBreakTwoLoop 0).body) 0 [.streams ()] breakTwo 0 :=
    .listLast (.logicCommand (.simple rfl (.here _ _)))
  exact .whileUntil (.pass htest hbody)

/-- `for i in word; do while :; do break 2; done; done`. -/
def forWhileBreakTwo : CommandList rawLeaves :=
  .last (.command (.compound [] (.forEach "i" [⟨stringNode "word", rfl⟩]
    (.last (.command (.compound [] whileBreakTwo))))))

/-- The loop of `forWhileBreakTwo` with these values left. -/
def forBreakTwoLoop (values : List String) : Loop rawLeaves :=
  .forEach "i" (.last (.command (.compound [] whileBreakTwo))) values

theorem enters_forWhileBreakTwo : Enters statusSem 1 (.list forWhileBreakTwo) 0
    ([.streams (), .loop (whileBreakTwoLoop 0), .streams ()] ++
      .loop (forBreakTwoLoop []) :: [.streams ()]) breakTwo 0 := by
  have htest : (forBreakTwoLoop ["word"]).test statusSem 1 0 =
      some (.ok (some (forBreakTwoLoop [])), 0) := by rfl
  have hbody : Enters statusSem 1 (.list (forBreakTwoLoop []).body) 0
      [.streams (), .loop (whileBreakTwoLoop 0), .streams ()] breakTwo 0 :=
    .listLast (.logicCommand (.compound rfl enters_whileBreakTwo))
  have hfor : Enters statusSem 1 (.loop (forBreakTwoLoop ["word"])) 0 _ breakTwo 0 :=
    .pass htest hbody
  have hsplit : splitWords statusSem [] [⟨stringNode "word", rfl⟩] 0 =
      some (.ok ["word"], 0) := by rfl
  exact .listLast (.logicCommand (.compound rfl (.forEach hsplit rfl rfl hfor)))

theorem leavesRightLoop_forWhile : LeavesRightLoop statusSem 1
    (withoutCursor (commandList ([] ++ (forWhileBreakTwo.tree.stream ++ [])) statusSem
      (fun i _ _ => i) 1 (forWhileBreakTwo.tree.stream.length + 0) ⟨0, 0⟩))
    .breakException 2 [.streams (), .loop (whileBreakTwoLoop 0), .streams ()]
    (forBreakTwoLoop []) [.streams ()] 0 := by
  have hraise : breakTwo.run statusSem 1 0 =
      some (.error (.loopControl .breakException (2 : Nat)), 0) := by rfl
  exact (leavesRightLoop_iff (fun i _ _ => i) 1 0 forWhileBreakTwo [] []
    enters_forWhileBreakTwo hraise (by decide)).mpr (by decide)

/-- In a single loop, `break 2` is thrown out of it. -/
theorem not_leavesRightLoop_single :
    Enters statusSem 1 (.compound whileBreakTwo) 0 [.streams (), .loop (whileBreakTwoLoop 0)]
      breakTwo 0 ∧
    execCompound statusSem 1 whileBreakTwo 0 =
      some (.error (.loopControl .breakException 1), 0) ∧
    ¬ LeavesRightLoop statusSem 1 (execCompound statusSem 1 whileBreakTwo 0) .breakException 2
      [.streams ()] (whileBreakTwoLoop 0) [] 0 := by
  refine ⟨enters_whileBreakTwo, by rfl, fun h => ?_⟩
  exact h.caught _ rfl

end Walker

end Libbash
