import Libbash.Walker.Syntax

/-!
# Structural execution of command trees

What a command tree does, by recursion on the tree: no stream and no cursor.
The branch tests, the statuses they set and the exceptions they handle are
those of `libbashWalker.g`; the rules below the command level are a
`LeafSem`. `n` bounds the number of passes of each `while`, `until` and
C-style `for` loop; a loop that needs more of them ends in `none`.
-/

namespace Libbash

open Lib Lib.Comp

/-- What the rules below the command level do to a state. -/
structure LeafSem (X : Leaves) (S : Type) where
  /-- The three streams that a `current_streams` object saves. -/
  Streams : Type
  getStreams : S → Streams
  setStreams : Streams → S → S
  getStatus : S → Int
  setStatus : Int → S → S
  redirect : X.Redirect → Comp Exn S Unit
  simple : X.Simple → Comp Exn S Unit
  cond : X.Cond → Comp Exn S Bool
  arith : X.Arith → Comp Exn S Int64
  /-- The values one word of a `for` contributes, after word splitting. -/
  forWord : X.Word → Comp Exn S (List String)
  /-- `resolve_array("*", ..)`. -/
  positional : Comp Exn S (List String)
  setValue : String → String → Comp Exn S Unit
  caseWord : X.Word → Comp Exn S String
  matchPattern : X.Pattern → String → Comp Exn S Bool

variable {X : Leaves} {S : Type}

/-! ## The branch tests -/

/-- The exit test of `while_expr`. -/
def loopStops (negate : Bool) (status : Int) : Bool := status == if negate then 0 else 1

/-- The test of `elif_expr`. -/
def elifMatches (status : Int) : Bool := status == 0

/-- The test of `logic_command`. -/
def logicRuns (isAnd : Bool) (status : Int) : Bool :=
  if isAnd then status == 0 else status != 0

section Loops

variable (sem : LeafSem X S)

def getStatus : Comp Exn S Int := reads sem.getStatus

def setStatus (status : Int) : Comp Exn S Unit := update (sem.setStatus status)

/-- The `current_streams` object of the rule `command`. -/
def withStreams {α : Type} (body : Comp Exn S α) : Comp Exn S α :=
  bracket (fun s => (sem.getStreams s, s)) sem.setStreams body

def runRedirects : List X.Redirect → Comp Exn S Unit
  | [] => pure ()
  | r :: rs => do
    sem.redirect r
    runRedirects rs

/-- `splitted_values` after the words of a `for`. -/
def splitWords (splitted : List String) : List X.Word → Comp Exn S (List String)
  | [] => pure splitted
  | w :: ws => do
    let values ← sem.forWord w
    splitWords (splitted ++ values) ws

/-- Run a loop body and catch the loop control exceptions: whether the loop
goes on with its next pass. -/
def loopBody (body : Comp Exn S Unit) : Comp Exn S Bool :=
  tryCatch (do body; pure true) fun
    | .loopControl .continueException count => do
      rethrowUnlessCorrectFrame .continueException count
      pure true
    | .loopControl .breakException count => do
      rethrowUnlessCorrectFrame .breakException count
      pure false
    | e => throw e

/-- Run the condition list of a `while` or `until`: whether the body is to be
run. -/
def loopTest (negate : Bool) (cond : Comp Exn S Unit) : Comp Exn S Bool := do
  cond
  let status ← getStatus sem
  pure (!loopStops negate status)

def whileLoop (negate : Bool) (cond body : Comp Exn S Unit) : Nat → Comp Exn S Unit
  | 0 => diverge
  | n + 1 => do
    if ← loopTest sem negate cond then
      if ← loopBody body then whileLoop negate cond body n else pure ()
    else pure ()

def forLoop (name : String) (body : Comp Exn S Unit) : List String → Comp Exn S Unit
  | [] => pure ()
  | value :: values => do
    sem.setValue name value
    if ← loopBody body then forLoop name body values else pure ()

/-- `for_initilization` and `for_modification`, when present. -/
def runArith : Option X.Arith → Comp Exn S Unit
  | none => pure ()
  | some e => do
    let _ ← sem.arith e
    pure ()

/-- `!has_condition || for_condition(ctx)`. -/
def cforTest : Option X.Arith → Comp Exn S Bool
  | none => pure true
  | some e => do
    let value ← sem.arith e
    pure (value != 0)

def cforLoop (cond mod : Option X.Arith) (body : Comp Exn S Unit) : Nat → Comp Exn S Unit
  | 0 => diverge
  | n + 1 => do
    if ← cforTest sem cond then
      if ← loopBody body then
        runArith sem mod
        cforLoop cond mod body n
      else pure ()
    else pure ()

/-- Run a condition list and apply the test of `elif_expr`. -/
def elifTest (cond : Comp Exn S Unit) : Comp Exn S Bool := do
  cond
  let status ← getStatus sem
  pure (elifMatches status)

/-- The values a `for` runs over: those of its words, or the positional
parameters when it has no word. -/
def forValues (words : List X.Word) (splitted : List String) : Comp Exn S (List String) :=
  if words.isEmpty then sem.positional else pure splitted

end Loops

/-! ## Execution -/

section Exec

variable (sem : LeafSem X S) (n : Nat)

mutual

def execCommand : Command X → Comp Exn S Unit
  | .simple redirs c => withStreams sem do
    runRedirects sem redirs
    sem.simple c
  | .compound redirs c => withStreams sem do
    runRedirects sem redirs
    execCompound c

def execCompound : Compound X → Comp Exn S Unit
  | .currentShell body => execList body
  | .cond c => do
    let holds ← sem.cond c
    setStatus sem (if holds then 0 else 1)
  | .arith e => do
    let _ ← sem.arith e
    pure ()
  | .forEach name words body => do
    let splitted ← splitWords sem [] words
    if splitted.isEmpty && !words.isEmpty then setStatus sem 0
    else do
      let values ← forValues sem words splitted
      forLoop sem name (execList body) values
  | .cfor init cond mod body => do
    runArith sem init
    cforLoop sem cond mod (execList body) n
  | .loop negate cond body => whileLoop sem negate (execList cond) (execList body) n
  | .ifStatement cond body rest => do
    if ← elifTest sem (execList cond) then execList body else execElse rest
  | .caseOf w clauses => do
    let target ← sem.caseWord w
    execClauses target clauses

def execLogic : LogicCommand X → Comp Exn S Unit
  | .command c => execCommand c
  | .logic isAnd left right => do
    execLogic left
    let status ← getStatus sem
    if logicRuns isAnd status then execCommand right else pure ()

def execList : CommandList X → Comp Exn S Unit
  | .last c => execLogic c
  | .cons c rest => do
    execLogic c
    execList rest

def execElse : ElseParts X → Comp Exn S Unit
  | .fi => pure ()
  | .elsePart body => execList body
  | .elif cond body rest => do
    if ← elifTest sem (execList cond) then execList body else execElse rest

def execClauses (target : String) : Clauses X → Comp Exn S Unit
  | .esac => pure ()
  | .empty p rest => do
    if ← sem.matchPattern p target then pure () else execClauses target rest
  | .commands p body rest => do
    if ← sem.matchPattern p target then execList body else execClauses target rest

end

end Exec

end Libbash
