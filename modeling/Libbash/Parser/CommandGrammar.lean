import Libbash.Parser.CommandParser

/-!
# The command grammar

What the command rules of `bashast.g` derive, without a parser: `Derives` has a
constructor for each alternative, which can be taken wherever its tokens stand; the
predicates of the grammar are premises. Where a loop of the grammar could go on or end,
a generated parser goes on. That makes a difference to the grammar in front of ` esac`,
behind a simple command or a `case` without `esac`, and in front of a parenthesis, behind
such a `case`; with `greedy` these two places have a premise (`TailEnds`).

The trees are those of the rewrite rules. The tokens a rule derives are what is
between two rests of the script, so that the rests of a sequence of rules chain.
-/

namespace Libbash

open Lib CommandLexeme

namespace CommandParser

/-! ## Space, words and the like -/

/-- `wspace?`. -/
inductive Spaces : CommandTokens → CommandTokens → Prop
  | none {ts} : Spaces ts ts
  | more {l ts us} (hl : l.isWSpace = true) (h : Spaces ts us) : Spaces (l :: ts) us

/-- `wspace`. -/
inductive WSpace : CommandTokens → CommandTokens → Prop
  | mk {l ts us} (hl : l.isWSpace = true) (h : Spaces ts us) : WSpace (l :: ts) us

/-- `BLANK?`. -/
inductive OptBlank : CommandTokens → CommandTokens → Prop
  | none {ts} : OptBlank ts ts
  | blank {ts} : OptBlank (.blank :: ts) ts

/-- `(BLANK? EOL)* BLANK?`. -/
inductive Lines : CommandTokens → CommandTokens → Prop
  | last {ts us} (h : OptBlank ts us) : Lines ts us
  | line {ts us vs} (h : OptBlank ts (.eol :: us)) (hrest : Lines us vs) : Lines ts vs

/-- `semiel`. -/
inductive Semiel : CommandTokens → CommandTokens → Prop
  | mk {m ts us vs} (h : OptBlank ts (.mark m :: us)) (hm : m = .semic ∨ m = .eol)
      (hspace : Spaces us vs) : Semiel ts vs

/-- `BLANK? parens`. -/
inductive Parens : CommandTokens → CommandTokens → Prop
  | mk {ts us vs} (hl : OptBlank ts (.mark .lparen :: us))
      (hr : OptBlank us (.mark .rparen :: vs)) : Parens ts vs

/-- `(BLANK? parens wspace?)|wspace`. -/
inductive FunctionParens : CommandTokens → CommandTokens → Prop
  | parens {ts us vs} (h : Parens ts us) (hspace : Spaces us vs) : FunctionParens ts vs
  | wspace {ts us} (h : WSpace ts us) : FunctionParens ts us

/-- Any number of tokens with a node. -/
inductive Run (node? : CommandLexeme → Option AstNode) :
    CommandTokens → List AstNode → CommandTokens → Prop
  | nil {ts} : Run node? ts [] ts
  | cons {l t ts f us} (hl : node? l = some t) (h : Run node? ts f us) :
      Run node? (l :: ts) (t :: f) us

/-- A `STRING` of a token of the one kind and any number of tokens of the other. -/
inductive Str (first? node? : CommandLexeme → Option AstNode) :
    CommandTokens → List AstNode → CommandTokens → Prop
  | mk {l t ts f us} (hl : first? l = some t) (h : Run node? ts f us) :
      Str first? node? (l :: ts) [astNode .string (t :: f)] us

/-- `command_name`. -/
inductive CommandName : CommandTokens → List AstNode → CommandTokens → Prop
  | word {ts f us} (h : Str name? stringPart? ts f us) : CommandName ts f us
  | redirection {r ts} : CommandName (.redirection r true :: ts)
      [r.1, astNode .string [.node ⟨.name, "NAME"⟩ []]] ts

/-- `here_document?`. -/
inductive OptHereDocument : CommandTokens → List AstNode → CommandTokens → Prop
  | none {ts} : OptHereDocument ts [] ts
  | some {t ts} : OptHereDocument (.hereDocument t :: ts) [t] ts

/-- `redirection here_document?` or `here_document`, with the trees of both. -/
inductive Redirected : CommandTokens → List AstNode → List AstNode → CommandTokens → Prop
  | redirection {l t ts f us doc vs} (hl : l.redirection? = some t) (h : Run redirection? ts f us)
      (hdoc : OptHereDocument us doc vs) : Redirected (l :: ts) (t :: f) doc vs
  | hereDocument {t ts} : Redirected (.hereDocument t :: ts) [] [t] ts

/-- `time?`. -/
inductive TimePrefix : CommandTokens → List AstNode → CommandTokens → Prop
  | none {ts} : TimePrefix ts [] ts
  | time {t ts} (h : timePosix ts = none) :
      TimePrefix (.word .timeTok t :: .blank :: ts) [astNode .timeTok []] ts
  | posix {t m l u ts} (hm : m.isMinus = true) (hl : l.letter? = some u) :
      TimePrefix (.word .timeTok t :: .blank :: m :: l :: .blank :: ts) [astNode .timeTok [u]] ts

/-- `((BANG) => (BANG BLANK!))?`. -/
inductive BangPrefix : CommandTokens → List AstNode → CommandTokens → Prop
  | none {ts} (h : headIs (· matches .word .bang _) ts = false) : BangPrefix ts [] ts
  | bang {t ts} : BangPrefix (.word .bang t :: .blank :: ts) [t] ts

/-- `(wspace IN BLANK string_expr)?`. -/
inductive SelectWord : CommandTokens → List AstNode → CommandTokens → Prop
  | none {ts} : SelectWord ts [] ts
  | word {t ts us f vs} (hspace : WSpace ts (.word .inTok t :: .blank :: us))
      (h : Str stringPart? stringPart? us f vs) : SelectWord ts f vs

/-- `(BLANK? SEMIC)?`. -/
inductive OptSemic : CommandTokens → CommandTokens → Prop
  | none {ts} : OptSemic ts ts
  | semic {ts us} (h : OptBlank ts (.mark .semic :: us)) : OptSemic ts us

/-- `(BLANK? arithmetics)?`. -/
inductive OptArithmetics : CommandTokens → Option rawLeaves.Arith → CommandTokens → Prop
  | none {ts} : OptArithmetics ts none ts
  | some {ts e us} (h : OptBlank ts (.arithmetics e :: us)) : OptArithmetics ts (some e) us

/-- `(BLANK? arithmetics BLANK?|BLANK)?`. -/
inductive ForArithmetics : CommandTokens → Option rawLeaves.Arith → CommandTokens → Prop
  | mk {ts e us vs} (h : OptArithmetics ts e us) (hblank : OptBlank us vs) : ForArithmetics ts e vs

/-- The condition of an arithmetic `for`, with the tokens around it. -/
inductive ForCondition : CommandTokens → Option rawLeaves.Arith → CommandTokens → Prop
  | semics {ts e us} (h : ForArithmetics ts e (.mark .semic :: us)) :
      ForCondition (.mark .semic :: ts) e us
  | doubleSemic {ts} : ForCondition (.mark .doubleSemic :: ts) none ts

/-- `EOL?`. -/
inductive OptEol : CommandTokens → CommandTokens → Prop
  | none {ts} : OptEol ts ts
  | eol {ts} : OptEol (.eol :: ts) ts

/-- `(LPAREN BLANK?)?`. -/
inductive OptLparen : CommandTokens → CommandTokens → Prop
  | none {ts} : OptLparen ts ts
  | lparen {ts us} (h : OptBlank ts us) : OptLparen (.mark .lparen :: ts) us

/-- The tokens of `&&` and `||`. -/
inductive LogicMark : CommandMark → TokenType → Prop
  | and : LogicMark .logicAnd .logicAnd
  | or : LogicMark .logicOr .logicOr

/-! ## Rules -/

/-- How the tokens of a rule end: a loop of theirs may still go on. -/
inductive Tail where
  | closed
  /-- With a simple command, which takes what is behind a blank as an argument. -/
  | arguments
  /-- With a `case` that has no `ESAC` yet. -/
  | clauses

/-- The tokens do not go on with a clause or with `ESAC`. -/
def clausesEnd (ts : CommandTokens) : Bool :=
  (readEsac ts).isNone && !headIs startsClause (skipSpace ts)

/-- What the loop at the end does not take. -/
def TailEnds : Tail → CommandTokens → Prop
  | .closed, _ => True
  | .arguments, ts => startsWordAfterBlank argumentAtom? ts = false
  | .clauses, ts => clausesEnd ts = true

/-- The trees are those of redirections that the walker has a rule for. -/
def Redirects (f : List AstNode) : Prop := ∀ t ∈ f, startsRedirect (rootType t) = true

/-- No child of the command is a compound command. -/
def NoCompound (f : List AstNode) : Prop :=
  ∀ t ∈ f, ∀ u ∈ t.children, Libbash.startsCompound (rootType u) = false

/-- `Derives full greedy p q r ts f us`: by the rule `r` the tokens from `ts` up to `us`
have the trees `f`; they end in the way `q`, and for a loop, what is before it ends in the
way `p`. Without `full`, the alternatives are left out that give a tree which the tree
grammar has no rule for: `&`, `|`, `time`, `!` in front of a compound command, `select`,
subshells, process substitutions and here documents. -/
inductive Derives (full greedy : Bool) :
    Tail → Tail → CommandRule → CommandTokens → List AstNode → CommandTokens → Prop
  | commandList {p q r ts us vs f cs} (hfirst : Derives full greedy .closed q .listLevel1 ts f us)
      (hrest : Derives full greedy q r .listRest us cs vs) :
      Derives full greedy p r .commandList ts [listNode (f ++ cs)] vs
  | listEnd {p ts} : Derives full greedy p p .listRest ts [] ts
  | listNext {p q r ts us sep vs ws f xs cs ys} (htail : greedy = true → TailEnds p ts)
      (hblank : OptBlank ts us) (hsep : commandSeparator us = some (sep, vs))
      (hlines : Lines vs ws) (hfull : full = true ∨ sep = [])
      (hfirst : Derives full greedy .closed q .listLevel1 ws f xs)
      (hrest : Derives full greedy q r .listRest xs cs ys) :
      Derives full greedy p r .listRest ts (sep ++ (f ++ cs)) ys
  | listLevel1 {p q r ts l us f vs} (hfirst : Derives full greedy .closed q .pipeline ts l us)
      (hrest : Derives full greedy q r (.logicRest l) us f vs) :
      Derives full greedy p r .listLevel1 ts f vs
  | logicEnd {p l ts} : Derives full greedy p p (.logicRest l) ts l ts
  | logicNext {p q r l m ty ts us vs f ws f' xs} (hblank : OptBlank ts (.mark m :: us))
      (hop : LogicMark m ty) (hspace : Spaces us vs)
      (hnext : Derives full greedy .closed q .pipeline vs f ws)
      (hrest : Derives full greedy q r (.logicRest [astNode ty (l ++ f)]) ws f' xs) :
      Derives full greedy p r (.logicRest l) ts f' xs
  | pipeline {p q r ts time us bang vs c ws f xs} (htime : TimePrefix ts time us)
      (hbang : BangPrefix us bang vs) (hfirst : Derives full greedy .closed q .command vs c ws)
      (hfull : full = true ∨ time = [] ∧ (bang = [] ∨ NoCompound c))
      (hrest : Derives full greedy q r (.pipeRest (prefixed (time ++ bang) c)) ws f xs) :
      Derives full greedy p r .pipeline ts f xs
  | pipeEnd {p l ts} : Derives full greedy p p (.pipeRest l) ts l ts
  | pipeNext {p q r l ts us vs f ws f' xs} (hfull : full = true)
      (hblank : OptBlank ts (.mark .pipe :: us)) (hspace : Spaces us vs)
      (hnext : Derives full greedy .closed q .command vs f ws)
      (hrest : Derives full greedy q r (.pipeRest [astNode .pipe (l ++ f)]) ws f' xs) :
      Derives full greedy p r (.pipeRest l) ts f' xs
  | command {p q ts f us} (h : Derives full greedy .closed q .commandAtom ts f us) :
      Derives full greedy p q .command ts [astNode .command f] us
  | redirected {p q ts f us redirs doc vs}
      (h : Derives full greedy .closed q .commandAtom ts f us)
      (hredirs : Redirected us redirs doc vs)
      (hfull : full = true ∨ Redirects redirs ∧ doc = []) :
      Derives full greedy p .closed .command ts [astNode .command (redirs ++ (f ++ doc))] vs
  -- `command_atom`
  | compound {p q ts f us} (h : Derives full greedy .closed q .compoundCommand ts f us) :
      Derives full greedy p q .commandAtom ts f us
  | functionWord {p q l ts f us vs c ws} (hl : l.isFunction = true)
      (hname : Str name? stringPart? ts f us) (hparens : FunctionParens us vs)
      (h : Derives full greedy .closed q .compoundCommand vs c ws) :
      Derives full greedy p q .commandAtom (l :: .blank :: ts) [astNode .function (f ++ c)] ws
  | definitions {p trees ts} :
      Derives full greedy p .closed .commandAtom (.definitions trees :: ts)
        [astNode .variableDefinitions trees] ts
  | definitionsCommand {p q trees ts f us args vs} (hname : Str name? stringPart? ts f us)
      (hargs : Derives full greedy .closed q .arguments us args vs) :
      Derives full greedy p q .commandAtom (.definitions trees :: .blank :: ts)
        ((f ++ args) ++ trees) vs
  | declaration {p c ts} : Derives full greedy p .closed .commandAtom (.declaration c :: ts) c.1 ts
  | functionParens {p q ts f us vs ws c xs}
      (hcompound : headIs CommandLexeme.startsCompound ts = false)
      (hfunction : startsFunction ts = false) (hname : CommandName ts f us)
      (hparens : Parens us vs) (hspace : Spaces vs ws)
      (h : Derives full greedy .closed q .compoundCommand ws c xs) :
      Derives full greedy p q .commandAtom ts [astNode .function (f ++ c)] xs
  | simple {p q ts f us args vs} (hcompound : headIs CommandLexeme.startsCompound ts = false)
      (hfunction : startsFunction ts = false) (hname : CommandName ts f us)
      (hargs : Derives full greedy .closed q .arguments us args vs) :
      Derives full greedy p q .commandAtom ts (f ++ args) vs
  | argumentsEnd {p ts} : Derives full greedy p .arguments .arguments ts [] ts
  | argumentsNext {p q ts a us args vs} (h : Str argumentAtom? argumentAtom? ts a us)
      (hrest : Derives full greedy .closed q .arguments us args vs) :
      Derives full greedy p q .arguments (.blank :: ts) (a ++ args) vs
  -- `compound_command`
  | terminatedList {p q ts f us vs} (h : Derives full greedy .closed q .commandList ts f us)
      (hend : Semiel us vs) : Derives full greedy p .closed .terminatedList ts f vs
  | currentShell {p q t t' ts us f vs} (hspace : WSpace ts us)
      (h : Derives full greedy .closed q .terminatedList us f (.word .rbrace t' :: vs)) :
      Derives full greedy p .closed .compoundCommand (.word .lbrace t :: ts)
        [astNode .currentShell f] vs
  | subshell {p q ts us f vs ws xs} (hfull : full = true) (hbefore : Spaces ts us)
      (h : Derives full greedy .closed q .commandList us f vs) (hsemic : OptSemic vs ws)
      (hafter : Spaces ws (.mark .rparen :: xs)) :
      Derives full greedy p .closed .compoundCommand (.mark .lparen :: ts)
        [astNode .subshell f] xs
  | arithmetic {p e ts us vs} (hspace : Spaces ts (.arithmetics e :: us))
      (hend : Spaces us (.mark .rparen :: .mark .rparen :: vs)) :
      Derives full greedy p .closed .compoundCommand (.mark .llparen :: ts)
        [astNode .arithmeticExpression e.1] vs
  | condition {p c ts} :
      Derives full greedy p .closed .compoundCommand (.condition c :: ts)
        [astNode .compoundCond [c]] ts
  | doGroup {p q t t' ts us f vs} (hspace : WSpace ts us)
      (h : Derives full greedy .closed q .terminatedList us f (.word .doneTok t' :: vs)) :
      Derives full greedy p .closed .doGroup (.word .doTok t :: ts) f vs
  | whileLoop {p q q' w t ts us c vs b ws} {negate : Bool}
      (hw : w = if negate then .untilTok else .whileTok) (hspace : Spaces ts us)
      (hcond : Derives full greedy .closed q .terminatedList us c vs)
      (hbody : Derives full greedy .closed q' .doGroup vs b ws) :
      Derives full greedy p .closed .compoundCommand (.word w t :: ts)
        [astNode (if negate then .untilTok else .whileTok) (c ++ b)] ws
  | forEach {p q q' t l token ts us values vs b ws} (hblank : OptBlank ts (l :: us))
      (hl : l.nameToken? = some token)
      (hvalues : Derives full greedy .closed q .forEachList us values vs)
      (hbody : Derives full greedy .closed q' .doGroup vs b ws) :
      Derives full greedy p .closed .compoundCommand (.word .forTok t :: ts)
        [astNode .forTok (.node token [] :: (values ++ b))] ws
  | forIn {p q t ts us values vs ws} (hspace : WSpace ts (.word .inTok t :: us))
      (hvalues : Derives full greedy .closed q .forEachValues us values vs) (hend : Semiel vs ws) :
      Derives full greedy p .closed .forEachList ts values ws
  | forSemic {p ts us vs} (hbefore : Spaces ts (.mark .semic :: us)) (hafter : Spaces us vs) :
      Derives full greedy p .closed .forEachList ts [] vs
  | forSpace {p ts us} (hspace : WSpace ts us) : Derives full greedy p .closed .forEachList ts [] us
  | valuesEnd {p ts} : Derives full greedy p .closed .forEachValues ts [] ts
  | valuesNext {p q ts v us vals vs} (hvalue : headIs endsValues ts = false)
      (hv : Str stringPart? stringPart? ts v us)
      (hrest : Derives full greedy .closed q .forEachValues us vals vs) :
      Derives full greedy p .closed .forEachValues (.blank :: ts) (v ++ vals) vs
  | cfor {p q t ts us vs ws init cond mod xs ys zs ys' b zs'}
      (hblank : OptBlank ts (.mark .llparen :: us)) (heol : OptEol us vs)
      (hinit : ForArithmetics vs init ws) (hcond : ForCondition ws cond xs)
      (hmod : OptArithmetics xs mod ys) (hspace : Spaces ys (.mark .rparen :: .mark .rparen :: zs))
      (hend : Semiel zs ys') (hbody : Derives full greedy .closed q .doGroup ys' b zs') :
      Derives full greedy p .closed .compoundCommand (.word .forTok t :: ts)
        [astNode .cfor (optionTree .forInit init ++ (optionTree .forCond cond ++
          (b ++ optionTree .forMod mod)))] zs'
  | select {p q t ts l token word us vs b ws} (hfull : full = true)
      (hl : l.nameToken? = some token) (hword : SelectWord ts word us) (hend : Semiel us vs)
      (hbody : Derives full greedy .closed q .doGroup vs b ws) :
      Derives full greedy p .closed .compoundCommand (.word .selectTok t :: .blank :: l :: ts)
        [astNode .selectTok (.node token [] :: (word ++ b))] ws
  | ifPart {p q q' t ts c us vs b ws}
      (hcond : Derives full greedy .closed q .terminatedList ts c (.word .thenTok t :: us))
      (hspace : WSpace us vs) (hbody : Derives full greedy .closed q' .terminatedList vs b ws) :
      Derives full greedy p .closed .ifPart ts [astNode .ifTok (c ++ b)] ws
  | ifStatement {p q q' t ts us f vs rest ws} (hspace : WSpace ts us)
      (hfirst : Derives full greedy .closed q .ifPart us f vs)
      (hrest : Derives full greedy .closed q' .elifs vs rest ws) :
      Derives full greedy p .closed .compoundCommand (.word .ifTok t :: ts)
        [astNode .ifStatement (f ++ rest)] ws
  | fi {p t ts} : Derives full greedy p .closed .elifs (.word .fiTok t :: ts) [] ts
  | elseFi {p q t t' ts us f vs} (hspace : WSpace ts us)
      (h : Derives full greedy .closed q .terminatedList us f (.word .fiTok t' :: vs)) :
      Derives full greedy p .closed .elifs (.word .elseTok t :: ts) [astNode .elseTok f] vs
  | elif {p q q' t ts f us rest vs} (hfirst : Derives full greedy .closed q .ifPart ts f us)
      (hrest : Derives full greedy .closed q' .elifs us rest vs) :
      Derives full greedy p .closed .elifs (.word .elifTok t :: .blank :: ts) (f ++ rest) vs
  | caseOf {p q t t' ts w us vs f ws} (hword : Str stringPart? stringPart? ts w us)
      (hspace : WSpace us (.word .inTok t' :: vs))
      (hbody : Derives full greedy .closed q .caseBody vs f ws) :
      Derives full greedy p q .compoundCommand (.word .caseTok t :: .blank :: ts)
        [astNode .caseTok (w ++ f)] ws
  | noClause {p t ts us} (hspace : WSpace ts (.word .esacTok t :: us)) :
      Derives full greedy p .closed .caseBody ts [astNode .casePattern []] us
  | clauses {p q ts f us} (h : Derives full greedy .closed q .caseStatements ts f us) :
      Derives full greedy p q .caseBody ts f us
  -- `case_statement`
  | clause {p q b ts us ps vs ws} (hopen : OptLparen ts (.pattern b :: us))
      (hpatterns : Derives full greedy .closed q .patterns us ps vs)
      (hclose : OptBlank vs (.mark .rparen :: ws)) :
      Derives full greedy p .closed .clause ts [astNode .casePattern (b.1 :: ps)] ws
  | clauseCommands {p q q' b ts us ps vs ws xs f ys} (hopen : OptLparen ts (.pattern b :: us))
      (hpatterns : Derives full greedy .closed q .patterns us ps vs)
      (hclose : OptBlank vs (.mark .rparen :: ws))
      (hspace : WSpace ws xs) (h : Derives full greedy .closed q' .commandList xs f ys) :
      Derives full greedy p q' .clause ts
        [astNode .casePattern (b.1 :: (ps ++ astNode .caseCommand [] :: f))] ys
  | patternsEnd {p ts} : Derives full greedy p .closed .patterns ts [] ts
  | patternsNext {p q b ts us vs ps ws} (hbefore : OptBlank ts (.mark .pipe :: us))
      (hafter : OptBlank us (.pattern b :: vs))
      (hrest : Derives full greedy .closed q .patterns vs ps ws) :
      Derives full greedy p .closed .patterns ts (b.1 :: ps) ws
  | lastClause {p q t ts us c vs ws xs} (hspace : Spaces ts us)
      (hclause : Derives full greedy .closed q .clause us c vs)
      (hend : Spaces vs (.mark .doubleSemic :: ws))
      (hesac : WSpace ws (.word .esacTok t :: xs)) :
      Derives full greedy p .closed .caseStatements ts c xs
  | moreClauses {p q r ts us c vs ws cs xs} (hspace : Spaces ts us)
      (hclause : Derives full greedy .closed q .clause us c vs)
      (hend : Spaces vs (.mark .doubleSemic :: ws))
      (hrest : Derives full greedy .closed r .caseStatements ws cs xs) :
      Derives full greedy p r .caseStatements ts (c ++ cs) xs
  | unterminated {p q ts us c vs ws} (hspace : Spaces ts us)
      (hclause : Derives full greedy .closed q .clause us c vs)
      (hend : Spaces vs (.mark .doubleSemic :: ws)) :
      Derives full greedy p .clauses .caseStatements ts c ws
  | esac {p q t ts us c vs ws} (hspace : Spaces ts us)
      (hclause : Derives full greedy .closed q .clause us c vs)
      (hesac : WSpace vs (.word .esacTok t :: ws))
      (htail : greedy = true → TailEnds q vs) :
      Derives full greedy p .closed .caseStatements ts c ws

/-! ## Scripts -/

/-- `((POUND) =>first_line_comment)?`. -/
inductive FirstLine : CommandTokens → CommandTokens → Prop
  | none {ts} (h : headIs (· matches .mark .pound) ts = false) : FirstLine ts ts
  | comment {cs ts} (h : ∀ l ∈ cs, l.isEol = false) :
      FirstLine (.mark .pound :: (cs ++ .eol :: ts)) ts

/-- `EOL*`. -/
inductive Eols : CommandTokens → CommandTokens → Prop
  | nil {ts} : Eols ts ts
  | cons {ts us} (h : Eols ts us) : Eols (.eol :: ts) us

/-- What the rule `start` derives: a script and its tree. -/
inductive Script (full greedy : Bool) : CommandTokens → List AstNode → Prop
  | mk {p q ts us vs ws f xs ys} (hline : FirstLine ts us) (heols : Eols us vs)
      (hblank : OptBlank vs ws) (h : Derives full greedy p q .commandList ws f xs)
      (hend : OptBlank xs ys)
      (heof : ys = [] ∨ ∃ m, ys = [.mark m] ∧ (m = .semic ∨ m = .amp ∨ m = .eol)) :
      Script full greedy ts f

end CommandParser

end Libbash
