import Libbash.Lib.Descent
import Libbash.Walker.Rules

/-!
# The command rules of the parser

The rules `start` to `case_statement` of `bashast.g`, with the look-ahead that
their loops and alternatives need. Reserved words are words of their own only
where a command can begin; behind a blank they are arguments.

What the rules for redirections, here documents, conditions, patterns, arithmetic,
assignments and declarations read at one place is one lexeme here, and of a word each
quoted string, expansion or other token is one. A rule that fails gives `none`.
-/

namespace Libbash

open Lib

/-- The tokens between words. -/
inductive CommandMark where
  | blank | eol | semic | doubleSemic | amp | pipe | logicAnd | logicOr
  | lparen | rparen | llparen | pound
  deriving DecidableEq, Repr

/-- Reserved words, `BANG` and the braces: each can also be a part of a word. -/
inductive WordToken where
  | caseTok | doTok | doneTok | elifTok | elseTok | esacTok | fiTok | forTok | ifTok | inTok
  | selectTok | thenTok | timeTok | untilTok | whileTok
  | bang | lbrace | rbrace
  deriving DecidableEq, Repr

/-- A token, or what another rule reads at one place. -/
inductive CommandLexeme where
  | mark (m : CommandMark)
  /-- One of these tokens, with the node it has as a part of a word. -/
  | word (w : WordToken) (node : AstNode)
  /-- A `quoted_string` or `non_quoted_string` that is none of these tokens. -/
  | part (node : AstNode)
  /-- `brace_expansion`, which begins with `LBRACE`. -/
  | braces (node : AstNode)
  /-- The trees of `variable_definitions`. -/
  | definitions (trees : List AstNode)
  /-- The trees for `EXPORT`, `LOCAL` or `DECLARE` and what follows it. -/
  | declaration (c : rawLeaves.Simple)
  /-- `redirection_atom` with an operator; whether `GREATER_THAN` is its first token. -/
  | redirection (r : rawLeaves.Redirect) (greater : Bool)
  /-- `redirection_atom` with `process_substitution`. -/
  | processSubstitution (node : AstNode)
  /-- `here_document`. -/
  | hereDocument (node : AstNode)
  /-- `extended_pattern`. -/
  | pattern (b : { t : AstNode // rootType t = .branch })
  | arithmetics (e : rawLeaves.Arith)
  /-- `condition_expr`. -/
  | condition (c : rawLeaves.Cond)

namespace CommandLexeme

abbrev blank : CommandLexeme := .mark .blank
abbrev eol : CommandLexeme := .mark .eol

def isWSpace : CommandLexeme → Bool
  | .mark .blank | .mark .eol => true
  | _ => false

def isEol : CommandLexeme → Bool
  | .mark .eol => true
  | _ => false

/-- The tokens that `string_expr_no_reserved_word` can begin with, as a node. -/
def name? : CommandLexeme → Option AstNode
  | .part t | .braces t | .word .bang t => some t
  | _ => none

/-- `string_expr_part`. -/
def stringPart? : CommandLexeme → Option AstNode
  | .part t | .braces t => some t
  | .word .lbrace _ | .word .rbrace _ => none
  | .word _ t => some t
  | _ => none

/-- `bash_command_argument_atom`. -/
def argumentAtom? : CommandLexeme → Option AstNode
  | .part t | .braces t | .word _ t => some t
  | _ => none

/-- `redirection_atom`. -/
def redirection? : CommandLexeme → Option AstNode
  | .redirection r _ => some r.1
  | .processSubstitution t => some t
  | _ => none

/-- The tokens after which `command_atom` has to be `compound_command`. -/
def startsCompound : CommandLexeme → Bool
  | .word .forTok _ | .word .selectTok _ | .word .ifTok _ | .word .whileTok _
  | .word .untilTok _ | .word .caseTok _ | .word .lbrace _ => true
  | .mark .lparen | .mark .llparen => true
  | .braces _ | .condition _ => true
  | _ => false

/-- The tokens that `list_level_1` can begin with. -/
def startsCommand : CommandLexeme → Bool
  | .part _ | .definitions _ | .declaration _ | .word .bang _ | .word .timeTok _
  | .redirection _ true => true
  | l => l.startsCompound

/-- The tokens that `case_statement` can begin with, its space aside. -/
def startsClause : CommandLexeme → Bool
  | .mark .lparen | .pattern _ => true
  | _ => false

/-- The tokens that `for_each_value` does not begin with. -/
def endsValues : CommandLexeme → Bool
  | .mark .eol | .mark .semic | .word .doTok _ => true
  | _ => false

/-- The token `NAME` with the text `function`. -/
def isFunction : CommandLexeme → Bool
  | .part (.node t []) => t == ⟨.name, "function"⟩
  | _ => false

/-- The token `MINUS`. -/
def isMinus : CommandLexeme → Bool
  | .part (.node t []) => t == ⟨.minus, "-"⟩
  | _ => false

/-- The token `LETTER`. -/
def letter? : CommandLexeme → Option AstNode
  | .part (.node ⟨.letter, text⟩ []) => some (.node ⟨.letter, text⟩ [])
  | _ => none

/-- The token of the rule `name`. -/
def nameToken? : CommandLexeme → Option Token
  | .part (.node t []) => if t = nameToken t.text then some t else none
  | _ => none

end CommandLexeme

abbrev CommandTokens := List CommandLexeme

/-- The rules that call each other. `logicRest`, `pipeRest` and the like are the
loops of the rules, with the trees so far where these become a child. -/
inductive CommandRule where
  | commandList | listRest
  | listLevel1 | logicRest (l : List AstNode)
  | pipeline | pipeRest (l : List AstNode)
  | command | commandAtom | arguments
  | compoundCommand | terminatedList | doGroup
  | forEachList | forEachValues
  | ifPart | elifs
  | caseBody | caseStatements | clause | patterns

namespace CommandParser

open CommandLexeme

/-- What a rule reads: the trees it gives and the tokens it leaves. -/
abbrev ForestRule := Rule CommandLexeme (List AstNode)

/-! ## Tokens and space -/

/-- The next token is one of these. -/
def headIs (p : CommandLexeme → Bool) (ts : CommandTokens) : Bool := ts.head?.any p

def readMark (m : CommandMark) : CommandTokens → Option CommandTokens
  | .mark m' :: ts => if m' = m then some ts else none
  | _ => none

def readWord (w : WordToken) : CommandTokens → Option CommandTokens
  | .word w' _ :: ts => if w' = w then some ts else none
  | _ => none

/-- `BLANK?`. -/
def skipBlank : CommandTokens → CommandTokens
  | .mark .blank :: ts => ts
  | ts => ts

/-- `wspace?`. -/
def skipSpace (ts : CommandTokens) : CommandTokens := ts.dropWhile isWSpace

/-- `wspace`. -/
def readSpace (ts : CommandTokens) : Option CommandTokens :=
  if headIs isWSpace ts then some (skipSpace ts) else none

/-- `(BLANK? EOL)* BLANK?`. -/
def skipLines : CommandTokens → CommandTokens
  | .mark .blank :: .mark .eol :: ts | .mark .eol :: ts => skipLines ts
  | .mark .blank :: ts => ts
  | ts => ts

/-- `SEMIC|EOL`. -/
def readEnd : CommandTokens → Option CommandTokens
  | .mark .semic :: ts | .mark .eol :: ts => some ts
  | _ => none

/-- `semiel`. -/
def semiel (ts : CommandTokens) : Option CommandTokens := (readEnd (skipBlank ts)).map skipSpace

/-- `BLANK? parens`. -/
def readParens (ts : CommandTokens) : Option CommandTokens := do
  let ts ← readMark .lparen (skipBlank ts)
  readMark .rparen (skipBlank ts)

/-- `wspace ESAC`. -/
def readEsac (ts : CommandTokens) : Option CommandTokens := do
  let ts ← readSpace ts
  readWord .esacTok ts

/-! ## Words -/

/-- The longest run of tokens with a node. -/
def readRun (node? : CommandLexeme → Option AstNode) :
    CommandTokens → List AstNode × CommandTokens
  | [] => ([], [])
  | l :: ts =>
    match node? l with
    | some t => (t :: (readRun node? ts).1, (readRun node? ts).2)
    | none => ([], l :: ts)

/-- A word that begins with a token of the one kind and goes on with tokens of the
other. -/
def readString (first? node? : CommandLexeme → Option AstNode) : ForestRule
  | [] => none
  | l :: ts =>
    match first? l with
    | some t => some ([astNode .string (t :: (readRun node? ts).1)], (readRun node? ts).2)
    | none => none

/-- `string_expr_no_reserved_word`. -/
def stringExprNoReservedWord : ForestRule := readString name? stringPart?

def stringExpr : ForestRule := readString stringPart? stringPart?

def bashCommandArguments : ForestRule := readString argumentAtom? argumentAtom?

/-- `BLANK` and the beginning of a word. -/
def startsWordAfterBlank (first? : CommandLexeme → Option AstNode) : CommandTokens → Bool
  | .mark .blank :: l :: _ => (first? l).isSome
  | _ => false

/-- `NAME` with the text `function` and `BLANK`. -/
def startsFunction : CommandTokens → Bool
  | l :: .mark .blank :: _ => l.isFunction
  | _ => false

/-- `command_name`. -/
def commandName : ForestRule
  | .redirection r true :: ts => some ([r.1, astNode .string [.node ⟨.name, "NAME"⟩ []]], ts)
  | ts => stringExprNoReservedWord ts

/-- `redirection?`. -/
def redirection : CommandTokens → List AstNode × CommandTokens := readRun redirection?

/-- `here_document?`. -/
def hereDocument : CommandTokens → List AstNode × CommandTokens
  | .hereDocument t :: ts => ([t], ts)
  | ts => ([], ts)

/-! ## Lists and pipelines -/

/-- `command_separator`, which leaves a node for `AMP` only. -/
def commandSeparator : ForestRule
  | .mark .semic :: ts | .mark .eol :: ts => some ([], ts)
  | .mark .amp :: ts => some ([astNode .amp []], ts)
  | _ => none

/-- A separator of the list and all space around it, in front of another command. -/
def nextCommand (ts : CommandTokens) : Option (List AstNode × CommandTokens) := do
  let (f, ts) ← commandSeparator (skipBlank ts)
  if headIs startsCommand (skipLines ts) then some (f, skipLines ts) else none

/-- `BLANK!?(LOGICAND^|LOGICOR^)`, with the type of the root. -/
def logicOperator (ts : CommandTokens) : Option (TokenType × CommandTokens) :=
  match skipBlank ts with
  | .mark .logicAnd :: ts => some (.logicAnd, ts)
  | .mark .logicOr :: ts => some (.logicOr, ts)
  | _ => none

/-- `time_posix`. -/
def timePosix : CommandTokens → Option (AstNode × CommandTokens)
  | m :: l :: .mark .blank :: ts =>
    if m.isMinus then l.letter?.map fun t => (t, ts) else none
  | _ => none

/-- `time?`. -/
def timePrefix : ForestRule
  | .word .timeTok _ :: ts => do
    let ts ← readMark .blank ts
    match timePosix ts with
    | some (t, ts) => some ([astNode .timeTok [t]], ts)
    | none => some ([astNode .timeTok []], ts)
  | ts => some ([], ts)

/-- `((BANG) => (BANG BLANK!))?`. -/
def bangPrefix : ForestRule
  | .word .bang t :: ts => do
    let ts ← readMark .blank ts
    some ([t], ts)
  | ts => some ([], ts)

/-- The trees in front of a command, as its last children. -/
def prefixed (pre f : List AstNode) : List AstNode :=
  f.map fun t => .node t.label (t.children ++ pre)

section Rules

variable (rules : Rules CommandRule CommandLexeme (List AstNode))

/-- `command_list`. -/
def commandList : ForestRule := fun ts => do
  let (f, ts) ← rules .listLevel1 ts
  let (cs, ts) ← rules .listRest ts
  some ([listNode (f ++ cs)], ts)

/-- The loop of `list_level_2`. -/
def listRest : ForestRule := fun ts =>
  match nextCommand ts with
  | some (sep, ts) => do
    let (f, ts) ← rules .listLevel1 ts
    let (cs, ts) ← rules .listRest ts
    some (sep ++ (f ++ cs), ts)
  | none => some ([], ts)

def listLevel1 : ForestRule := fun ts => do
  let (l, ts) ← rules .pipeline ts
  rules (.logicRest l) ts

/-- The loop of `list_level_1`. -/
def logicRest (l : List AstNode) : ForestRule := fun ts =>
  match logicOperator ts with
  | some (ty, ts) => do
    let (r, ts) ← rules .pipeline (skipSpace ts)
    rules (.logicRest [astNode ty (l ++ r)]) ts
  | none => some (l, ts)

def pipeline : ForestRule := fun ts => do
  let (time, ts) ← timePrefix ts
  let (bang, ts) ← bangPrefix ts
  let (c, ts) ← rules .command ts
  rules (.pipeRest (prefixed (time ++ bang) c)) ts

/-- The loop of `pipeline`. -/
def pipeRest (l : List AstNode) : ForestRule := fun ts =>
  match readMark .pipe (skipBlank ts) with
  | some ts => do
    let (r, ts) ← rules .command (skipSpace ts)
    rules (.pipeRest [astNode .pipe (l ++ r)]) ts
  | none => some (l, ts)

/-! ## Commands -/

def command : ForestRule := fun ts => do
  let (f, ts) ← rules .commandAtom ts
  let (redirs, ts) := redirection ts
  let (doc, ts) := hereDocument ts
  some ([astNode .command (redirs ++ (f ++ doc))], ts)

/-- `(BLANK? parens wspace?)|wspace`. -/
def functionParens (ts : CommandTokens) : Option CommandTokens :=
  match readParens ts with
  | some ts => some (skipSpace ts)
  | none => readSpace ts

/-- The alternative of `command_atom` that the token `function` begins. -/
def functionDefinition : ForestRule := fun ts => do
  let (f, ts) ← stringExprNoReservedWord ts
  let ts ← functionParens ts
  let (c, ts) ← rules .compoundCommand ts
  some ([astNode .function (f ++ c)], ts)

/-- `bash_command`. -/
def bashCommand : ForestRule := fun ts => do
  let (f, ts) ← stringExprNoReservedWord ts
  let (args, ts) ← rules .arguments ts
  some (f ++ args, ts)

/-- The alternative with `variable_definitions`. -/
def definitionsCommand (trees : List AstNode) : ForestRule := fun ts =>
  if startsWordAfterBlank name? ts then do
    let (f, ts) ← bashCommand rules (ts.drop 1)
    some (f ++ trees, ts)
  else some ([astNode .variableDefinitions trees], ts)

/-- The last alternative: a function definition, or a name with arguments. -/
def namedCommand : ForestRule := fun ts => do
  let (f, ts) ← commandName ts
  match readParens ts with
  | some ts => do
    let (c, ts) ← rules .compoundCommand (skipSpace ts)
    some ([astNode .function (f ++ c)], ts)
  | none => do
    let (args, ts) ← rules .arguments ts
    some (f ++ args, ts)

def commandAtom : ForestRule := fun ts =>
  if headIs CommandLexeme.startsCompound ts then rules .compoundCommand ts
  else if startsFunction ts then functionDefinition rules (ts.drop 2)
  else
    match ts with
    | .definitions trees :: ts => definitionsCommand rules trees ts
    | .declaration c :: ts => some (c.1, ts)
    | ts => namedCommand rules ts

/-- `(BLANK bash_command_arguments)*`. -/
def arguments : ForestRule := fun ts =>
  if startsWordAfterBlank argumentAtom? ts then do
    let (a, ts) ← bashCommandArguments (ts.drop 1)
    let (args, ts) ← rules .arguments ts
    some (a ++ args, ts)
  else some ([], ts)

/-! ## Compound commands -/

/-- `command_list semiel`. -/
def terminatedList : ForestRule := fun ts => do
  let (f, ts) ← rules .commandList ts
  let ts ← semiel ts
  some (f, ts)

/-- `wspace command_list semiel` and the word behind it. -/
def block (w : WordToken) : ForestRule := fun ts => do
  let ts ← readSpace ts
  let (f, ts) ← rules .terminatedList ts
  let ts ← readWord w ts
  some (f, ts)

/-- `DO wspace command_list semiel DONE`. -/
def doGroup : ForestRule := fun ts => do
  let ts ← readWord .doTok ts
  block rules .doneTok ts

/-- `while_expr` and `until_expr` behind the first token. -/
def whileExpr (negate : Bool) : ForestRule := fun ts => do
  let (c, ts) ← rules .terminatedList (skipSpace ts)
  let (b, ts) ← rules .doGroup ts
  some ([astNode (if negate then .untilTok else .whileTok) (c ++ b)], ts)

/-- What stands between the name and `DO`. -/
def forEachList : ForestRule := fun ts =>
  match skipSpace ts with
  | .word .inTok _ :: us =>
    if headIs isWSpace ts then do
      let (values, us) ← rules .forEachValues us
      let us ← semiel us
      some (values, us)
    else none
  | .mark .semic :: us => some ([], skipSpace us)
  | us => if headIs isWSpace ts then some ([], us) else none

/-- `for_each_value*`. -/
def forEachValues : ForestRule
  | .mark .blank :: ts =>
    if headIs endsValues ts then some ([], .mark .blank :: ts)
    else do
      let (v, ts) ← stringExpr ts
      let (vs, ts) ← rules .forEachValues ts
      some (v ++ vs, ts)
  | ts => some ([], ts)

/-- `BLANK? arithmetics`, when it is there. -/
def readArithmetics (ts : CommandTokens) : Option rawLeaves.Arith × CommandTokens :=
  match skipBlank ts with
  | .arithmetics e :: us => (some e, us)
  | _ => (none, ts)

/-- `(BLANK? arithmetics BLANK?|BLANK)?`. -/
def forArithmetics (ts : CommandTokens) : Option rawLeaves.Arith × CommandTokens :=
  ((readArithmetics ts).1, skipBlank (readArithmetics ts).2)

/-- `SEMIC (BLANK? fcond=arithmetics BLANK?|BLANK)? SEMIC|DOUBLE_SEMIC`. -/
def forCondition : CommandTokens → Option (Option rawLeaves.Arith × CommandTokens)
  | .mark .semic :: ts => do
    let ts' ← readMark .semic (forArithmetics ts).2
    some ((forArithmetics ts).1, ts')
  | .mark .doubleSemic :: ts => some (none, ts)
  | _ => none

/-- `for_expr` behind `LLPAREN`. -/
def cforExpr : ForestRule := fun ts => do
  let (init, ts) := forArithmetics ((readMark .eol ts).getD ts)
  let (cond, ts) ← forCondition ts
  let (mod, ts) := readArithmetics ts
  let ts ← readMark .rparen (skipSpace ts)
  let ts ← readMark .rparen ts
  let ts ← semiel ts
  let (b, ts) ← rules .doGroup ts
  some ([astNode .cfor (optionTree .forInit init ++ (optionTree .forCond cond ++
    (b ++ optionTree .forMod mod)))], ts)

/-- `for_expr` behind `FOR`. -/
def forExpr : ForestRule := fun ts =>
  match skipBlank ts with
  | [] => none
  | l :: ts =>
    match l.nameToken? with
    | some t => do
      let (values, ts) ← rules .forEachList ts
      let (b, ts) ← rules .doGroup ts
      some ([astNode .forTok (.node t [] :: (values ++ b))], ts)
    | none =>
      match l with
      | .mark .llparen => cforExpr rules ts
      | _ => none

/-- `(wspace IN BLANK string_expr)?`. -/
def selectWord (ts : CommandTokens) : Option (List AstNode × CommandTokens) :=
  match readSpace ts with
  | some (.word .inTok _ :: us) => do
    let us ← readMark .blank us
    stringExpr us
  | _ => some ([], ts)

/-- `select_expr` behind `SELECT`. -/
def selectExpr : ForestRule := fun ts => do
  let ts ← readMark .blank ts
  match ts with
  | [] => none
  | l :: ts => do
    let t ← l.nameToken?
    let (word, ts) ← selectWord ts
    let ts ← semiel ts
    let (b, ts) ← rules .doGroup ts
    some ([astNode .selectTok (.node t [] :: (word ++ b))], ts)

/-- `command_list semiel THEN wspace command_list semiel`. -/
def ifPart : ForestRule := fun ts => do
  let (c, ts) ← rules .terminatedList ts
  let ts ← readWord .thenTok ts
  let ts ← readSpace ts
  let (b, ts) ← rules .terminatedList ts
  some ([astNode .ifTok (c ++ b)], ts)

/-- `if_expr` behind `IF`. -/
def ifExpr : ForestRule := fun ts => do
  let ts ← readSpace ts
  let (p, ts) ← rules .ifPart ts
  let (rest, ts) ← rules .elifs ts
  some ([astNode .ifStatement (p ++ rest)], ts)

/-- `(elif_expr)* (ELSE wspace command_list semiel)? FI`. -/
def elifs : ForestRule
  | .word .elifTok _ :: ts => do
    -- `elif_expr` has `BLANK` where `if_expr` has `wspace`.
    let ts ← readMark .blank ts
    let (p, ts) ← rules .ifPart ts
    let (rest, ts) ← rules .elifs ts
    some (p ++ rest, ts)
  | .word .elseTok _ :: ts => do
    let (f, ts) ← block rules .fiTok ts
    some ([astNode .elseTok f], ts)
  | ts => do
    let ts ← readWord .fiTok ts
    some ([], ts)

/-- `case_expr` behind `CASE`. -/
def caseExpr : ForestRule := fun ts => do
  let ts ← readMark .blank ts
  let (w, ts) ← stringExpr ts
  let ts ← readSpace ts
  let ts ← readWord .inTok ts
  let (f, ts) ← rules .caseBody ts
  some ([astNode .caseTok (w ++ f)], ts)

def caseBody : ForestRule := fun ts =>
  match readEsac ts with
  | some ts => some ([astNode .casePattern []], ts)
  | none => rules .caseStatements ts

/-- `(LPAREN BLANK?)?`. -/
def skipLparen : CommandTokens → CommandTokens
  | .mark .lparen :: ts => skipBlank ts
  | ts => ts

/-- `case_statement` as far as its commands, behind the space it begins with. -/
def clause : ForestRule := fun ts =>
  match skipLparen ts with
  | .pattern b :: ts => do
    let (ps, ts) ← rules .patterns ts
    let ts ← readMark .rparen (skipBlank ts)
    if headIs isWSpace ts && headIs startsCommand (skipSpace ts) then do
      let (f, ts) ← rules .commandList (skipSpace ts)
      some ([astNode .casePattern (b.1 :: (ps ++ astNode .caseCommand [] :: f))], ts)
    else some ([astNode .casePattern (b.1 :: ps)], ts)
  | _ => none

/-- `(BLANK? PIPE BLANK? extended_pattern)*`. -/
def patterns : ForestRule := fun ts =>
  match readMark .pipe (skipBlank ts) with
  | some ts =>
    match skipBlank ts with
    | .pattern b :: ts => do
      let (ps, ts) ← rules .patterns ts
      some (b.1 :: ps, ts)
    | _ => none
  | none => some ([], ts)

/-- `case_statement+`, as long as `case_end` is not set. -/
def caseStatements : ForestRule := fun ts => do
  let (c, ts) ← rules .clause (skipSpace ts)
  match readMark .doubleSemic (skipSpace ts) with
  | some ts =>
    match readEsac ts with
    | some ts => some (c, ts)
    | none =>
      if headIs startsClause (skipSpace ts) then do
        let (cs, ts) ← rules .caseStatements ts
        some (c ++ cs, ts)
      else some (c, ts)
  | none => do
    let ts ← readEsac ts
    some (c, ts)

/-- `subshell` behind `LPAREN`. -/
def subshell : ForestRule := fun ts => do
  let (f, ts) ← rules .commandList (skipSpace ts)
  let ts ← readMark .rparen (skipSpace ((readMark .semic (skipBlank ts)).getD ts))
  some ([astNode .subshell f], ts)

def compoundCommand : ForestRule
  | .word .forTok _ :: ts => forExpr rules ts
  | .word .selectTok _ :: ts => selectExpr rules ts
  | .word .ifTok _ :: ts => ifExpr rules ts
  | .word .whileTok _ :: ts => whileExpr rules false ts
  | .word .untilTok _ :: ts => whileExpr rules true ts
  | .word .caseTok _ :: ts => caseExpr rules ts
  | .mark .lparen :: ts => subshell rules ts
  | .word .lbrace _ :: ts => do
    -- `current_shell`
    let (f, ts) ← block rules .rbrace ts
    some ([astNode .currentShell f], ts)
  | .mark .llparen :: ts =>
    -- `arithmetic_expression`
    match skipSpace ts with
    | .arithmetics e :: ts => do
      let ts ← readMark .rparen (skipSpace ts)
      let ts ← readMark .rparen ts
      some ([astNode .arithmeticExpression e.1], ts)
    | _ => none
  | .condition c :: ts => some ([astNode .compoundCond [c]], ts)
  | _ => none

/-- Each rule in terms of the rules it calls. -/
def body : Rules CommandRule CommandLexeme (List AstNode)
  | .commandList => commandList rules
  | .listRest => listRest rules
  | .listLevel1 => listLevel1 rules
  | .logicRest l => logicRest rules l
  | .pipeline => pipeline rules
  | .pipeRest l => pipeRest rules l
  | .command => command rules
  | .commandAtom => commandAtom rules
  | .arguments => arguments rules
  | .compoundCommand => compoundCommand rules
  | .terminatedList => terminatedList rules
  | .doGroup => doGroup rules
  | .forEachList => forEachList rules
  | .forEachValues => forEachValues rules
  | .ifPart => ifPart rules
  | .elifs => elifs rules
  | .caseBody => caseBody rules
  | .caseStatements => caseStatements rules
  | .clause => clause rules
  | .patterns => patterns rules

end Rules

/-! ## Scripts -/

/-- `((POUND) =>first_line_comment)?`. -/
def firstLineComment : CommandTokens → Option CommandTokens
  | .mark .pound :: ts => readMark .eol (ts.dropWhile (!isEol ·))
  | ts => some ts

/-- `BLANK? (SEMIC|AMP|EOL)? EOF`. -/
def endOfScript (ts : CommandTokens) : Bool :=
  skipBlank ts matches [] | [.mark .semic] | [.mark .amp] | [.mark .eol]

/-- `start`, with rules that are `d` calls deep. -/
def start (d : Nat) (ts : CommandTokens) : Option (List AstNode) := do
  let ts ← firstLineComment ts
  let (f, ts) ← descend body d .commandList (skipBlank (ts.dropWhile isEol))
  if endOfScript ts then some f else none

end CommandParser

end Libbash
