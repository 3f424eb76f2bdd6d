import Libbash.Walker.Cursor
import Libbash.Walker.Exec

/-!
# The command rules of the walker

The rules `command_list` to `case_clause` of `libbashWalker.g` over a node
stream, with their `SEEK`s and saved markers as the grammar has them. The
rules they call but that place no marker (redirections, simple commands,
words, patterns, arithmetic) read their own trees off the stream and run what
a `LeafSem` gives for them; `crash` is where an exception raised inside such a
rule leaves the cursor.

Each rule call costs one unit of the bound `d`; `n` bounds the passes of a
loop.
-/

namespace Libbash

open Lib Lib.Comp

/-! ## The trees below the command level -/

/-- The root tokens of `redirect`. -/
def startsRedirect : TokenType → Bool
  | .redir | .hereStringOp => true
  | _ => false

/-- The root tokens of `compound_command`. -/
def startsCompound : TokenType → Bool
  | .currentShell | .compoundCond | .arithmeticExpression | .forTok | .cfor
  | .whileTok | .untilTok | .ifStatement | .caseTok => true
  | _ => false

/-- The node's token type. -/
def rootType (t : AstNode) : TokenType := t.label.type

/-- The trees of a command that is neither redirected nor compound. -/
def isSimpleForest : List AstNode → Bool
  | [] => false
  | t :: _ => !startsRedirect (rootType t) && !startsCompound (rootType t)

/-- Leaves as the trees the parser built for them. -/
abbrev rawLeaves : Leaves where
  Redirect := { t : AstNode // startsRedirect (rootType t) = true }
  Simple := { ts : List AstNode // isSimpleForest ts = true }
  Word := { t : AstNode // rootType t = .string }
  Pattern := { ts : List AstNode // ts ≠ [] ∧ ∀ t ∈ ts, rootType t = .branch }
  Arith := { ts : List AstNode // ts ≠ [] }
  Cond := AstNode

def readRedirect (s : NodeStream) : Option rawLeaves.Redirect :=
  match readTree s.length s with
  | some (t, _) => if h : startsRedirect (rootType t) = true then some ⟨t, h⟩ else none
  | none => none

def readSimple (s : NodeStream) : Option rawLeaves.Simple :=
  match readForest (s.length + 1) s with
  | some (ts, _) => if h : isSimpleForest ts = true then some ⟨ts, h⟩ else none
  | none => none

def readWord (s : NodeStream) : Option rawLeaves.Word :=
  match readTree s.length s with
  | some (t, _) => if h : rootType t = .string then some ⟨t, h⟩ else none
  | none => none

/-- `(^(BRANCH ..))+`. -/
def readPattern (s : NodeStream) : Option rawLeaves.Pattern :=
  let ts := (readWhile (fun t : Token => t.type == .branch) (s.length + 1) s).1
  if h : ts ≠ [] ∧ ∀ t ∈ ts, rootType t = .branch then some ⟨ts, h⟩ else none

def readArith (s : NodeStream) : Option rawLeaves.Arith :=
  match readForest (s.length + 1) s with
  | some (ts, _) => if h : ts ≠ [] then some ⟨ts, h⟩ else none
  | none => none

def readCond (s : NodeStream) : Option rawLeaves.Cond :=
  (readTree s.length s).map Prod.fst

section Rules

variable {S α β : Type} (toks : NodeStream) (sem : LeafSem rawLeaves S)
  (crash : Nat → S → Exn → Nat)

/-- A rule below the command level: read its trees at the cursor, run them, and
stand right after them; an exception leaves the cursor at `crash`. -/
def leaf (read : NodeStream → Option α) (stream : α → NodeStream) (run : α → Comp Exn S β) :
    Walk S β := fun c =>
  match read (toks.drop c.index) with
  | none => some (.error .recognition, c)
  | some a =>
    match run a c.inner with
    | none => none
    | some (.ok b, s) => some (.ok b, ⟨c.index + (stream a).length, s⟩)
    | some (.error e, s) => some (.error e, ⟨crash c.index s e, s⟩)

def redirect : Walk S Unit := leaf toks crash readRedirect (fun r => r.1.stream) sem.redirect

def simpleCommand : Walk S Unit :=
  leaf toks crash readSimple (fun c => forestStream c.1) sem.simple

def condExpr : Walk S Bool := leaf toks crash readCond (fun c => c.stream) sem.cond

def arithmeticsRule : Walk S Int64 :=
  leaf toks crash readArith (fun e => forestStream e.1) sem.arith

def forWord : Walk S (List String) := leaf toks crash readWord (fun w => w.1.stream) sem.forWord

def word : Walk S String := leaf toks crash readWord (fun w => w.1.stream) sem.caseWord

def compositePattern (target : String) : Walk S Bool :=
  leaf toks crash readPattern (fun p => forestStream p.1) fun p => sem.matchPattern p target

/-- The `current_streams` object of the rule `command`. -/
def savingStreams (body : Walk S α) : Walk S α :=
  bracket (fun c => (sem.getStreams c.inner, c))
    (fun held c => { c with inner := sem.setStreams held c.inner }) body

/-- `redirect*`. -/
def redirects : Nat → Walk S Unit
  | 0 => diverge
  | d + 1 => do
    match ← laType toks 1 with
    | some ty =>
      if startsRedirect ty then do
        redirect toks sem crash
        redirects d
      else pure ()
    | none => pure ()

/-- `(string_expr {..})*` of `for_expr`: `splitted_values` and `in_array`. -/
def forWords : Nat → List String → Bool → Walk S (List String × Bool)
  | 0, _, _ => diverge
  | d + 1, splitted, inArray => do
    if ← laIs toks .string then do
      let values ← forWord toks sem crash
      forWords d (splitted ++ values) true
    else pure (splitted, inArray)

/-- `if(!in_array) walker->resolve_array("*", splitted_values)`. -/
def forArray (splitted : List String) (inArray : Bool) : Walk S (List String) :=
  if inArray then pure splitted else action sem.positional

/-- The `for` loop of `for_expr`, standing on the command list. -/
def forPasses (commandList : Walk S Unit) (name : String) (commandsIndex : Nat) :
    List String → Walk S Unit
  | [] => pure ()
  | value :: values => do
    action (sem.setValue name value)
    let again ← tryCatch (do commandList; pure true) fun
      | .loopControl .continueException count => do
        action (rethrowUnlessCorrectFrame .continueException count)
        pure true
      | .loopControl .breakException count => do
        action (rethrowUnlessCorrectFrame .breakException count)
        seek commandsIndex
        pure false
      | e => throw e
    if again then do
      seek commandsIndex
      forPasses commandList name commandsIndex values
    else pure ()

/-- `for_initilization`, `for_condition` and `for_modification`. -/
def forPart (ty : TokenType) : Walk S Int64 := do
  let _ ← matchToken toks ty
  matchDown toks
  let value ← arithmeticsRule toks sem crash
  matchUp toks
  pure value

/-- `!has_condition || for_condition(ctx)`. -/
def forCondition (hasCondition : Bool) : Walk S Bool :=
  if hasCondition then do
    let value ← forPart toks sem crash .forCond
    pure (value != 0)
  else pure true

/-- How a pass of the loop body ended. -/
inductive PassEnd where
  | completed
  | continued
  | broken
  deriving DecidableEq

/-- The `while` loop of the `CFOR` alternative, standing on `FOR_COND` or, when
there is none, on the command list. -/
def cforPasses (commandList : Walk S Unit) (hasCondition hasModification : Bool)
    (conditionIndex modificationIndex : Nat) : Nat → Walk S Unit
  | 0 => diverge
  | n + 1 => do
    if ← forCondition toks sem crash hasCondition then do
      let commandIndex ← index
      let passEnd ← tryCatch (do commandList; pure PassEnd.completed) fun
        | .loopControl .continueException count => do
          action (rethrowUnlessCorrectFrame .continueException count)
          if hasModification then do
            seek modificationIndex
            let _ ← forPart toks sem crash .forMod
            seek conditionIndex
            pure PassEnd.continued
          else do
            seek conditionIndex
            pure PassEnd.continued
        | .loopControl .breakException count => do
          action (rethrowUnlessCorrectFrame .breakException count)
          seek commandIndex
          pure PassEnd.broken
        | e => throw e
      match passEnd with
      | .completed =>
        if hasModification then do
          let _ ← forPart toks sem crash .forMod
          seek conditionIndex
          cforPasses commandList hasCondition hasModification conditionIndex modificationIndex n
        else do
          seek conditionIndex
          cforPasses commandList hasCondition hasModification conditionIndex modificationIndex n
      | .continued =>
        cforPasses commandList hasCondition hasModification conditionIndex modificationIndex n
      | .broken => pure ()
    else pure ()

/-- The `while(true)` loop of `while_expr`, standing on the condition list. -/
def whilePasses (commandList : Walk S Unit) (negate : Bool) (conditionIndex : Nat) :
    Nat → Walk S Unit
  | 0 => diverge
  | n + 1 => do
    commandList
    let status ← action (getStatus sem)
    if loopStops negate status then pure ()
    else do
      let commandIndex ← index
      let again ← tryCatch (do commandList; pure true) fun
        | .loopControl .continueException count => do
          action (rethrowUnlessCorrectFrame .continueException count)
          pure true
        | .loopControl .breakException count => do
          action (rethrowUnlessCorrectFrame .breakException count)
          seek commandIndex
          pure false
        | e => throw e
      if again then do
        seek conditionIndex
        whilePasses commandList negate conditionIndex n
      else pure ()

/-- `while(LA(1) == CASE_PATTERN) seek_to_next_tree(ctx)`. -/
def skipClauses : Nat → Walk S Unit
  | 0 => diverge
  | d + 1 => do
    if ← laIs toks .casePattern then do
      seekToNextTree toks
      skipClauses d
    else pure ()

def skipClausesIf (matched : Bool) (d : Nat) : Walk S Unit :=
  if matched then skipClauses toks d else pure ()

variable (n : Nat)

mutual

def commandList : Nat → Walk S Unit
  | 0 => diverge
  | d + 1 => do
    let _ ← matchToken toks .list
    matchDown toks
    logicCommandLists d
    matchUp toks

/-- `logic_command_list+`. -/
def logicCommandLists : Nat → Walk S Unit
  | 0 => diverge
  | d + 1 => do
    logicCommandList d
    match ← laType toks 1 with
    | some .command => logicCommandLists d
    | some .logicAnd => logicCommandLists d
    | some .logicOr => logicCommandLists d
    | _ => pure ()

def logicCommandList : Nat → Walk S Unit
  | 0 => diverge
  | d + 1 => do
    match ← laType toks 1 with
    | some .command => command d
    | some .logicAnd => logicCommand d true
    | some .logicOr => logicCommand d false
    | _ => throw .recognition

/-- `logic_and` is set by the root that was matched. -/
def logicCommand : Nat → Bool → Walk S Unit
  | 0, _ => diverge
  | d + 1, logicAnd => do
    let _ ← matchToken toks (if logicAnd then .logicAnd else .logicOr)
    matchDown toks
    logicCommandList d
    let status ← action (getStatus sem)
    if logicRuns logicAnd status then do
      command d
      matchUp toks
    else do
      seekToNextTree toks
      matchUp toks

def command : Nat → Walk S Unit
  | 0 => diverge
  | d + 1 => savingStreams sem do
    let _ ← matchToken toks .command
    matchDown toks
    redirects toks sem crash d
    commandAtom d
    matchUp toks

def commandAtom : Nat → Walk S Unit
  | 0 => diverge
  | d + 1 => do
    match ← laType toks 1 with
    | some ty => if startsCompound ty then compoundCommand d else simpleCommand toks sem crash
    | none => throw .recognition

def compoundCommand : Nat → Walk S Unit
  | 0 => diverge
  | d + 1 => do
    match ← laType toks 1 with
    | some .currentShell => do
      let _ ← matchToken toks .currentShell
      matchDown toks
      commandList d
      matchUp toks
    | some .compoundCond => do
      let _ ← matchToken toks .compoundCond
      matchDown toks
      let holds ← condExpr toks sem crash
      action (setStatus sem (if holds then 0 else 1))
      matchUp toks
    | some .arithmeticExpression => do
      let _ ← matchToken toks .arithmeticExpression
      matchDown toks
      let _ ← arithmeticsRule toks sem crash
      matchUp toks
    | some .forTok => forExpr d
    | some .cfor => cforExpr d
    | some .whileTok => whileExpr d false
    | some .untilTok => whileExpr d true
    | some .ifStatement => ifExpr d
    | some .caseTok => caseExpr d
    | _ => throw .recognition

/-- The `FOR` alternative of `for_expr`. -/
def forExpr : Nat → Walk S Unit
  | 0 => diverge
  | d + 1 => do
    let _ ← matchToken toks .forTok
    matchDown toks
    let name ← nameBase toks
    let (splitted, inArray) ← forWords toks sem crash d [] false
    if splitted.isEmpty && inArray then do
      -- skip the body
      seekToNextTree toks
      action (setStatus sem 0)
      matchUp toks
    else do
      let values ← forArray sem splitted inArray
      let commandsIndex ← index
      forPasses sem (commandList d) name commandsIndex values
      seekToNextTree toks
      matchUp toks

/-- The `CFOR` alternative of `for_expr`. -/
def cforExpr : Nat → Walk S Unit
  | 0 => diverge
  | d + 1 => do
    let _ ← matchToken toks .cfor
    -- omit the first DOWN token
    seek ((← index) + 1)
    if ← laIs toks .forInit then do
      let _ ← forPart toks sem crash .forInit
      cforRest d
    else cforRest d

/-- `for_expr` from the saving of `condition_index` on. -/
def cforRest : Nat → Walk S Unit
  | 0 => diverge
  | d + 1 => do
    let conditionIndex ← index
    let hasCondition ← laIs toks .forCond
    seekToNextTreeIf toks hasCondition
    -- before the body
    seekToNextTree toks
    let hasModification ← laIs toks .forMod
    let modificationIndex ← index
    seek conditionIndex
    cforPasses toks sem crash (commandList d) hasCondition hasModification conditionIndex
      modificationIndex n
    -- standing right after the condition
    seekToNextTree toks
    seekToNextTreeIf toks (← laIs toks .forMod)
    -- omit the last UP token
    seek ((← index) + 1)

def whileExpr : Nat → Bool → Walk S Unit
  | 0, _ => diverge
  | d + 1, negate => do
    let _ ← matchToken toks (if negate then .untilTok else .whileTok)
    -- omit the first DOWN token
    seek ((← index) + 1)
    let conditionIndex ← index
    whilePasses sem (commandList d) negate conditionIndex n
    -- skip the body and get out
    seekToNextTree toks
    -- omit the last UP token
    seek ((← index) + 1)

def ifExpr : Nat → Walk S Unit
  | 0 => diverge
  | d + 1 => do
    let _ ← matchToken toks .ifStatement
    -- omit the first DOWN token
    seek ((← index) + 1)
    ifParts d false
    -- omit the last UP token
    seek ((← index) + 1)

/-- `while(LA(1) == IF) ..` and the `ELSE` part after it. -/
def ifParts : Nat → Bool → Walk S Unit
  | 0, _ => diverge
  | d + 1, matched => do
    match ← laType toks 1 with
    | some .ifTok =>
      if matched then do
        seekToNextTree toks
        ifParts d matched
      else do
        let nowMatched ← elifExpr d
        ifParts d nowMatched
    | some .elseTok =>
      if matched = false then do
        -- omit the ELSE DOWN tokens
        seek ((← index) + 2)
        commandList d
        -- omit the last UP token
        seek ((← index) + 1)
      else seekToNextTree toks
    | _ => pure ()

def elifExpr : Nat → Walk S Bool
  | 0 => diverge
  | d + 1 => do
    let _ ← matchToken toks .ifTok
    -- omit the first DOWN token
    seek ((← index) + 1)
    commandList d
    let status ← action (getStatus sem)
    if elifMatches status then do
      commandList d
      seek ((← index) + 1)
      pure true
    else do
      seekToNextTree toks
      seek ((← index) + 1)
      pure false

def caseExpr : Nat → Walk S Unit
  | 0 => diverge
  | d + 1 => do
    let _ ← matchToken toks .caseTok
    matchDown toks
    let target ← word toks sem crash
    caseClauses d target
    matchUp toks

/-- `(matched=case_clause[..] {..})*`. -/
def caseClauses : Nat → String → Walk S Unit
  | 0, _ => diverge
  | d + 1, target => do
    if ← laIs toks .casePattern then do
      let matched ← caseClause d target
      skipClausesIf toks matched d
      caseClauses d target
    else pure ()

/-- The second alternative leaves `matched` unset; no clause follows it. -/
def caseClause : Nat → String → Walk S Bool
  | 0, _ => diverge
  | d + 1, target => do
    if (← la toks 2) = some .down then do
      let _ ← matchToken toks .casePattern
      matchDown toks
      let matched ← compositePattern toks sem crash target
      if matched then do
        if ← laIs toks .caseCommand then do
          -- omit CASE_COMMAND
          seek ((← index) + 1)
          commandList d
          matchUp toks
          pure true
        else do
          matchUp toks
          pure true
      else do
        seekToNextTreeIf toks (← laIs toks .caseCommand)
        matchUp toks
        pure false
    else do
      let _ ← matchToken toks .casePattern
      pure false

end

end Rules

/-! ## The trees the parser builds for commands -/

/-- `^(FOR_INIT $init)?` and its like. -/
def optionTree (ty : TokenType) : Option rawLeaves.Arith → List AstNode
  | none => []
  | some e => [astNode ty e.1]

/-- The `LIST` node over the commands of a list. -/
abbrev listNode (commands : List AstNode) : AstNode := astNode .list commands

/-- A `CASE` without clauses has the single node `CASE_PATTERN`. -/
def orCasePattern : List AstNode → List AstNode
  | [] => [astNode .casePattern []]
  | ts => ts

mutual

def Command.tree : Command rawLeaves → AstNode
  | .simple redirs c => astNode .command (redirs.map Subtype.val ++ c.1)
  | .compound redirs c => astNode .command (redirs.map Subtype.val ++ [c.tree])

def Compound.tree : Compound rawLeaves → AstNode
  | .currentShell body => astNode .currentShell [listNode body.trees]
  | .cond c => astNode .compoundCond [c]
  | .arith e => astNode .arithmeticExpression e.1
  | .forEach name words body =>
    astNode .forTok (.node (nameToken name) [] :: (words.map Subtype.val ++ [listNode body.trees]))
  | .cfor init cond mod body =>
    astNode .cfor (optionTree .forInit init ++ (optionTree .forCond cond ++
      (listNode body.trees :: optionTree .forMod mod)))
  | .loop negate cond body =>
    astNode (if negate then .untilTok else .whileTok) [listNode cond.trees, listNode body.trees]
  | .ifStatement cond body rest =>
    astNode .ifStatement (astNode .ifTok [listNode cond.trees, listNode body.trees] :: rest.trees)
  | .caseOf w clauses => astNode .caseTok (w.1 :: orCasePattern clauses.trees)

def LogicCommand.tree : LogicCommand rawLeaves → AstNode
  | .command c => c.tree
  | .logic isAnd left right =>
    astNode (if isAnd then .logicAnd else .logicOr) [left.tree, right.tree]

/-- The commands of a list, in order. -/
def CommandList.trees : CommandList rawLeaves → List AstNode
  | .last c => [c.tree]
  | .cons c rest => c.tree :: rest.trees

def ElseParts.trees : ElseParts rawLeaves → List AstNode
  | .fi => []
  | .elsePart body => [astNode .elseTok [listNode body.trees]]
  | .elif cond body rest => astNode .ifTok [listNode cond.trees, listNode body.trees] :: rest.trees

def Clauses.trees : Clauses rawLeaves → List AstNode
  | .esac => []
  | .empty p rest => astNode .casePattern p.1 :: rest.trees
  | .commands p body rest =>
    astNode .casePattern (p.1 ++ [astNode .caseCommand [], listNode body.trees]) :: rest.trees

end

def CommandList.tree (c : CommandList rawLeaves) : AstNode := listNode c.trees

/-! ## A smallest shell -/

/-- The words of a simple command of `STRING` nodes. -/
def commandWords (c : rawLeaves.Simple) : List String :=
  c.1.map fun t => String.join (t.children.map fun u => u.label.text)

/-- The number a word of digits stands for. -/
def wordNumber (word : String) : Nat :=
  word.toList.foldl (fun value c => 10 * value + (c.toNat - '0'.toNat)) 0

/-- A shell whose state is its status and whose simple commands return it or
leave a loop: `return n`, `break n`, `continue n`, and `:` for anything else. -/
def statusSem : LeafSem rawLeaves Int where
  Streams := Unit
  getStreams _ := ()
  setStreams _ s := s
  getStatus s := s
  setStatus status _ := status
  redirect _ := pure ()
  simple c := match commandWords c with
    | ["return", k] => update fun _ => wordNumber k
    | ["break", k] => throw (.loopControl .breakException (wordNumber k))
    | ["continue", k] => throw (.loopControl .continueException (wordNumber k))
    | _ => update fun _ => 0
  cond _ := pure true
  arith _ := pure 1
  forWord _ := pure ["word"]
  positional := pure []
  setValue _ _ := pure ()
  caseWord _ := pure "word"
  matchPattern _ _ := pure true

/-- `^(STRING NAME)`. -/
abbrev stringNode (text : String) : AstNode := astNode .string [.node ⟨.name, text⟩ []]

/-- The list of the one command `word` or `word k`. -/
def simpleList (word : String) (args : List String) : CommandList rawLeaves :=
  .last (.command (.simple [] ⟨stringNode word :: args.map stringNode, rfl⟩))

end Libbash
