import Libbash.Parser.CommandFollow

/-!
# The parser finds what the grammar derives

`Derives.finds` is by induction on a derivation: with rules that are deep enough each
rule reads the tokens of the derivation, as long as what follows stops its loops
(`Stops`). For scripts nothing is left to follow, so that `start_iff_script` holds of
all of them, and no script has two trees.
-/

namespace Libbash

open Lib Filter CommandLexeme

namespace CommandParser

variable {full greedy : Bool} {p q : Tail} {r : CommandRule} {ts us us' vs ws xs : CommandTokens}
  {f g : List AstNode}

/-! ## What a rule begins with -/

/-- The next token begins a command. -/
def BeginsCommand (ts : CommandTokens) : Prop := headIs startsCommand ts = true

theorem BeginsCommand.notSpace (h : BeginsCommand ts) : headIs isWSpace ts = false :=
  headIs_isWSpace_of_command h

/-- The next token is `TIME`. -/
def beginsTime (ts : CommandTokens) : Bool := headIs (· matches .word .timeTok _) ts

/-- What the tokens of a rule begin with. -/
def Begins : CommandRule → CommandTokens → Prop
  | .commandList, ts | .listLevel1, ts | .pipeline, ts | .terminatedList, ts | .ifPart, ts =>
    BeginsCommand ts
  | .command, ts | .commandAtom, ts => BeginsCommand ts ∧ beginsTime ts = false
  | .compoundCommand, ts =>
    (BeginsCommand ts ∧ beginsTime ts = false) ∧ headIs CommandLexeme.startsCompound ts = true ∧
      readParens ts = none
  | .doGroup, ts => headIs (· matches .word .doTok _) ts = true
  | .elifs, ts => headIs closesList ts = true
  | .clause, ts => headIs startsClause ts = true
  | .caseStatements, ts => headIs startsClause (skipSpace ts) = true ∧ readEsac ts = none
  | _, _ => True

theorem begins_commandName (h : CommandName ts f us) : Begins .commandAtom ts := by
  cases h with
  | redirection => exact ⟨rfl, rfl⟩
  | word h =>
    obtain ⟨hl, -⟩ := h
    unfold name? at hl
    split at hl <;> first | exact ⟨rfl, rfl⟩ | cases hl

theorem begins_functionWord {l : CommandLexeme} (hl : l.isFunction = true) :
    Begins .commandAtom (l :: ts) := by
  unfold isFunction at hl
  split at hl
  · exact ⟨rfl, rfl⟩
  · cases hl

theorem begins_pipeline {time bang : List AstNode} (htime : TimePrefix ts time us)
    (hbang : BangPrefix us bang vs) (h : BeginsCommand vs) : BeginsCommand ts := by
  cases htime with
  | none => cases hbang with
    | none => exact h
    | bang => rfl
  | time | posix => rfl

/-- A subshell has commands in it. -/
theorem begins_subshell (hspace : Spaces ts us) (h : BeginsCommand us) :
    Begins .compoundCommand (.mark .lparen :: ts) := by
  refine ⟨⟨rfl, rfl⟩, rfl, ?_⟩
  have hclose : ∀ vs, vs = us ∨ headIs isWSpace vs = true → readMark .rparen vs = none := by
    rintro vs hvs
    by_contra hne
    obtain ⟨ws, hread⟩ := Option.ne_none_iff_exists'.mp hne
    rw [readMark_eq_some] at hread
    subst hread
    rcases hvs with rfl | hvs
    · cases h
    · cases hvs
  show readMark .rparen (skipBlank ts) = none
  cases hspace with
  | none => exact hclose _ (.inl (skipBlank_of_optBlank .none (head_ne_blank h.notSpace)))
  | @more l vs _ hl hvs =>
    by_cases hb : l = .blank
    · subst hb
      cases hvs with
      | none => exact hclose _ (.inl rfl)
      | more hl' _ => exact hclose _ (.inr hl')
    · rw [skipBlank_of_optBlank .none (by simpa using hb)]
      exact hclose _ (.inr hl)

theorem begins_caseStatements (hspace : Spaces ts us) (hus : headIs startsClause us = true) :
    Begins .caseStatements ts := by
  obtain ⟨l, vs, rfl, hl⟩ := headIs_eq_true.mp hus
  have hne : l.isWSpace = false ∧ readWord .esacTok (l :: vs) = none := by
    unfold startsClause at hl
    split at hl <;> first | exact ⟨rfl, rfl⟩ | cases hl
  have hskip := skipSpace_of_spaces hspace (by simpa using hne.1)
  refine ⟨by rw [hskip]; exact hus, ?_⟩
  simp only [readEsac, readSpace, hskip]
  split
  · exact hne.2
  · rfl

theorem begins_clause (h : OptLparen ts (.pattern b :: us)) : headIs startsClause ts = true := by
  cases h <;> rfl

theorem Derives.begins (h : Derives full greedy p q r ts f us) : Begins r ts := by
  induction h with
  | commandList _ _ ih _ | listLevel1 _ _ ih _ | command _ ih | redirected _ _ _ ih
  | terminatedList _ _ ih | ifPart _ _ _ ih _ => exact ih
  | pipeline htime hbang _ _ _ ih _ => exact begins_pipeline htime hbang ih.1
  | compound _ ih => exact ih.1
  | functionWord hl => exact begins_functionWord hl
  | functionParens _ _ hname | simple _ _ hname => exact begins_commandName hname
  | definitions | definitionsCommand | declaration => exact ⟨rfl, rfl⟩
  | subshell _ hbefore _ _ _ ih => exact begins_subshell hbefore ih
  | currentShell | arithmetic | condition | forEach | cfor | select | ifStatement | caseOf =>
    exact ⟨⟨rfl, rfl⟩, rfl, rfl⟩
  | @whileLoop _ _ _ _ _ _ _ _ _ _ _ negate hw =>
    subst hw
    cases negate <;> exact ⟨⟨rfl, rfl⟩, rfl, rfl⟩
  | doGroup | fi | elseFi | elif => rfl
  | clause hopen | clauseCommands hopen => exact begins_clause hopen
  | lastClause hspace _ _ _ ih | moreClauses hspace _ _ _ ih | unterminated hspace _ _ ih
  | esac hspace _ _ _ ih => exact begins_caseStatements hspace ih
  | _ => trivial

/-! ## One rule at a time -/

/-- Rules that are deep enough read it. -/
abbrev Found : Derivation CommandRule CommandLexeme (List AstNode) := Finds body

/-! ### Lists and pipelines -/

theorem found_commandList (hfirst : Found .listLevel1 ts f us) (hrest : Found .listRest us g vs) :
    Found .commandList ts [listNode (f ++ g)] vs := by
  apply Finds.of_body
  filter_upwards [hfirst, hrest] with d h₁ h₂
  simp [body, commandList, h₁, h₂]

theorem found_listEnd (h : nextCommand ts = none) : Found .listRest ts [] ts := by
  apply Finds.of_body
  filter_upwards with d
  simp [body, listRest, h]

theorem found_listNext {sep : List AstNode} (hnext : nextCommand ts = some (sep, us))
    (hfirst : Found .listLevel1 us f vs) (hrest : Found .listRest vs g ws) :
    Found .listRest ts (sep ++ (f ++ g)) ws := by
  apply Finds.of_body
  filter_upwards [hfirst, hrest] with d h₁ h₂
  simp [body, listRest, hnext, h₁, h₂]

theorem found_listLevel1 (hfirst : Found .pipeline ts f us) (hrest : Found (.logicRest f) us g vs) :
    Found .listLevel1 ts g vs := by
  apply Finds.of_body
  filter_upwards [hfirst, hrest] with d h₁ h₂
  simp [body, listLevel1, h₁, h₂]

theorem found_logicEnd (h : logicOperator ts = none) : Found (.logicRest f) ts f ts := by
  apply Finds.of_body
  filter_upwards with d
  simp [body, logicRest, h]

theorem found_logicNext {ty : TokenType} {l : List AstNode}
    (hop : logicOperator ts = some (ty, us)) (hnext : Found .pipeline (skipSpace us) f vs)
    (hrest : Found (.logicRest [astNode ty (l ++ f)]) vs g ws) : Found (.logicRest l) ts g ws := by
  apply Finds.of_body
  filter_upwards [hnext, hrest] with d h₁ h₂
  simp [body, logicRest, hop, h₁, h₂]

theorem found_pipeline {time bang : List AstNode} (htime : timePrefix ts = some (time, us))
    (hbang : bangPrefix us = some (bang, vs)) (hfirst : Found .command vs f ws)
    (hrest : Found (.pipeRest (prefixed (time ++ bang) f)) ws g xs) : Found .pipeline ts g xs := by
  apply Finds.of_body
  filter_upwards [hfirst, hrest] with d h₁ h₂
  simp [body, pipeline, htime, hbang, h₁, h₂]

theorem found_pipeEnd (h : readMark .pipe (skipBlank ts) = none) : Found (.pipeRest f) ts f ts := by
  apply Finds.of_body
  filter_upwards with d
  simp [body, pipeRest, h]

theorem found_pipeNext {l : List AstNode} (hpipe : readMark .pipe (skipBlank ts) = some us)
    (hnext : Found .command (skipSpace us) f vs)
    (hrest : Found (.pipeRest [astNode .pipe (l ++ f)]) vs g ws) : Found (.pipeRest l) ts g ws := by
  apply Finds.of_body
  filter_upwards [hnext, hrest] with d h₁ h₂
  simp [body, pipeRest, hpipe, h₁, h₂]

/-! ### Commands -/

theorem startsWordAfterBlank_of_readString {first? node? : CommandLexeme → Option AstNode}
    (h : readString first? node? ts = some (f, us)) :
    startsWordAfterBlank first? (.blank :: ts) = true := by
  unfold readString at h
  split at h
  · cases h
  · split at h
    · next hl => simp [startsWordAfterBlank, hl]
    · cases h

theorem startsFunction_cons {l : CommandLexeme} (hl : l.isFunction = false) (ts : CommandTokens) :
    startsFunction (l :: ts) = false := by
  unfold startsFunction
  split
  · next heq =>
    cases heq
    exact hl
  · rfl

theorem found_command {redirs doc : List AstNode} (hatom : Found .commandAtom ts f us)
    (hredirs : redirection us = (redirs, vs)) (hdoc : hereDocument vs = (doc, ws)) :
    Found .command ts [astNode .command (redirs ++ (f ++ doc))] ws := by
  apply Finds.of_body
  filter_upwards [hatom] with d h
  simp [body, command, h, hredirs, hdoc]

theorem found_compound (hhead : headIs CommandLexeme.startsCompound ts = true)
    (h : Found .compoundCommand ts f us) : Found .commandAtom ts f us := by
  apply Finds.of_body
  filter_upwards [h] with d h
  simp [body, commandAtom, hhead, h]

theorem found_functionWord {l : CommandLexeme} (hl : l.isFunction = true)
    (hname : stringExprNoReservedWord ts = some (f, us)) (hparens : functionParens us = some vs)
    (h : Found .compoundCommand vs g ws) :
    Found .commandAtom (l :: .blank :: ts) [astNode .function (f ++ g)] ws := by
  have hcompound : l.startsCompound = false := by
    unfold isFunction at hl
    split at hl
    · rfl
    · cases hl
  apply Finds.of_body
  filter_upwards [h] with d h
  simp [body, commandAtom, hcompound, startsFunction, hl, functionDefinition, hname, hparens, h]

theorem found_definitions {trees : List AstNode} (h : startsWordAfterBlank name? ts = false) :
    Found .commandAtom (.definitions trees :: ts) [astNode .variableDefinitions trees] ts := by
  have hfunction := startsFunction_cons (l := .definitions trees) rfl ts
  apply Finds.of_body
  filter_upwards with d
  simp [body, commandAtom, hfunction, definitionsCommand, h, CommandLexeme.startsCompound]

theorem found_definitionsCommand {trees : List AstNode}
    (hname : stringExprNoReservedWord ts = some (f, us)) (hargs : Found .arguments us g vs) :
    Found .commandAtom (.definitions trees :: .blank :: ts) ((f ++ g) ++ trees) vs := by
  have hstarts := startsWordAfterBlank_of_readString hname
  apply Finds.of_body
  filter_upwards [hargs] with d h
  simp [body, commandAtom, startsFunction, isFunction, definitionsCommand, hstarts, bashCommand,
    hname, h, CommandLexeme.startsCompound]

theorem found_declaration (c : rawLeaves.Simple) :
    Found .commandAtom (.declaration c :: ts) c.1 ts := by
  have hfunction := startsFunction_cons (l := .declaration c) rfl ts
  apply Finds.of_body
  filter_upwards with d
  simp [body, commandAtom, hfunction, CommandLexeme.startsCompound]

/-- The last alternative of `command_atom` is taken when none of the others is. -/
theorem commandAtom_named {rules : Rules CommandRule CommandLexeme (List AstNode)}
    (hcompound : headIs CommandLexeme.startsCompound ts = false)
    (hfunction : startsFunction ts = false) (hname : commandName ts = some (f, us)) :
    commandAtom rules ts = namedCommand rules ts := by
  simp only [commandAtom, hcompound, hfunction, Bool.false_eq_true, if_false]
  split
  · cases hname
  · cases hname
  · rfl

theorem found_functionParens (hcompound : headIs CommandLexeme.startsCompound ts = false)
    (hfunction : startsFunction ts = false) (hname : commandName ts = some (f, us))
    (hparens : readParens us = some vs) (h : Found .compoundCommand (skipSpace vs) g ws) :
    Found .commandAtom ts [astNode .function (f ++ g)] ws := by
  apply Finds.of_body
  filter_upwards [h] with d h
  simp [body, commandAtom_named hcompound hfunction hname, namedCommand, hname, hparens, h]

theorem found_simple (hcompound : headIs CommandLexeme.startsCompound ts = false)
    (hfunction : startsFunction ts = false) (hname : commandName ts = some (f, us))
    (hparens : readParens us = none) (h : Found .arguments us g vs) :
    Found .commandAtom ts (f ++ g) vs := by
  apply Finds.of_body
  filter_upwards [h] with d h
  simp [body, commandAtom_named hcompound hfunction hname, namedCommand, hname, hparens, h]

theorem found_argumentsEnd (h : startsWordAfterBlank argumentAtom? ts = false) :
    Found .arguments ts [] ts := by
  apply Finds.of_body
  filter_upwards with d
  simp [body, arguments, h]

theorem found_argumentsNext (ha : bashCommandArguments ts = some (f, us))
    (hrest : Found .arguments us g vs) : Found .arguments (.blank :: ts) (f ++ g) vs := by
  have hstarts := startsWordAfterBlank_of_readString ha
  apply Finds.of_body
  filter_upwards [hrest] with d h
  simp [body, arguments, hstarts, ha, h]

/-! ### Compound commands -/

theorem found_terminatedList (h : Found .commandList ts f us) (hend : semiel us = some vs) :
    Found .terminatedList ts f vs := by
  apply Finds.of_body
  filter_upwards [h] with d h
  simp [body, terminatedList, h, hend]

/-- A block is read when its list is. -/
theorem block_eq_some {rules : Rules CommandRule CommandLexeme (List AstNode)} {w : WordToken}
    {t : AstNode} (hspace : readSpace ts = some us)
    (h : rules .terminatedList us = some (f, .word w t :: vs)) :
    block rules w ts = some (f, vs) := by
  simp [block, hspace, h]

theorem found_currentShell {t t' : AstNode} (hspace : readSpace ts = some us)
    (h : Found .terminatedList us f (.word .rbrace t' :: vs)) :
    Found .compoundCommand (.word .lbrace t :: ts) [astNode .currentShell f] vs := by
  apply Finds.of_body
  filter_upwards [h] with d h
  simp [body, compoundCommand, block_eq_some hspace h]

theorem found_arithmetic {e : rawLeaves.Arith} (hspace : skipSpace ts = .arithmetics e :: us)
    (hend : skipSpace us = .mark .rparen :: .mark .rparen :: vs) :
    Found .compoundCommand (.mark .llparen :: ts) [astNode .arithmeticExpression e.1] vs := by
  apply Finds.of_body
  filter_upwards with d
  simp [body, compoundCommand, hspace, hend]

theorem found_condition (c : rawLeaves.Cond) :
    Found .compoundCommand (.condition c :: ts) [astNode .compoundCond [c]] ts := by
  apply Finds.of_body
  filter_upwards with d
  rfl

theorem found_doGroup {t t' : AstNode} (hspace : readSpace ts = some us)
    (h : Found .terminatedList us f (.word .doneTok t' :: vs)) :
    Found .doGroup (.word .doTok t :: ts) f vs := by
  apply Finds.of_body
  filter_upwards [h] with d h
  simp [body, doGroup, block_eq_some hspace h]

theorem found_whileLoop {w : WordToken} {t : AstNode} {negate : Bool}
    (hw : w = if negate then .untilTok else .whileTok)
    (hcond : Found .terminatedList (skipSpace ts) f us) (hbody : Found .doGroup us g vs) :
    Found .compoundCommand (.word w t :: ts)
      [astNode (if negate then .untilTok else .whileTok) (f ++ g)] vs := by
  subst hw
  apply Finds.of_body
  filter_upwards [hcond, hbody] with d h₁ h₂
  cases negate <;> simp [body, compoundCommand, whileExpr, h₁, h₂]

theorem found_forEach {t : AstNode} {l : CommandLexeme} {token : Token}
    (hblank : skipBlank ts = l :: us) (hl : l.nameToken? = some token)
    (hvalues : Found .forEachList us f vs) (hbody : Found .doGroup vs g ws) :
    Found .compoundCommand (.word .forTok t :: ts)
      [astNode .forTok (.node token [] :: (f ++ g))] ws := by
  apply Finds.of_body
  filter_upwards [hvalues, hbody] with d h₁ h₂
  simp [body, compoundCommand, forExpr, hblank, hl, h₁, h₂]

theorem found_forIn {t : AstNode} (hspace : readSpace ts = some (.word .inTok t :: us))
    (hvalues : Found .forEachValues us f vs) (hend : semiel vs = some ws) :
    Found .forEachList ts f ws := by
  have hskip := skipSpace_of_readSpace hspace
  apply Finds.of_body
  filter_upwards [hvalues] with d h
  simp [body, forEachList, hskip, h, hend]

theorem found_forSemic (hbefore : skipSpace ts = .mark .semic :: us) :
    Found .forEachList ts [] (skipSpace us) := by
  apply Finds.of_body
  filter_upwards with d
  simp [body, forEachList, hbefore]

theorem found_forSpace {t : AstNode} (hspace : readSpace ts = some (.word .doTok t :: us)) :
    Found .forEachList ts [] (.word .doTok t :: us) := by
  have hskip := skipSpace_of_readSpace hspace
  apply Finds.of_body
  filter_upwards with d
  simp [body, forEachList, hskip]

theorem found_valuesEnd {m : CommandMark} (h : OptBlank ts (.mark m :: us))
    (hm : m = .semic ∨ m = .eol) : Found .forEachValues ts [] ts := by
  apply Finds.of_body
  filter_upwards with d
  cases h with
  | none => rcases hm with rfl | rfl <;> rfl
  | blank => rcases hm with rfl | rfl <;> rfl

theorem found_valuesNext (hvalue : headIs endsValues ts = false) (hv : stringExpr ts = some (f, us))
    (hrest : Found .forEachValues us g vs) : Found .forEachValues (.blank :: ts) (f ++ g) vs := by
  apply Finds.of_body
  filter_upwards [hrest] with d h
  simp [body, forEachValues, hvalue, hv, h]

theorem found_cfor {t : AstNode} {init cond mod : Option rawLeaves.Arith}
    {ys zs : CommandTokens} (hblank : skipBlank ts = .mark .llparen :: us)
    (hinit : forArithmetics ((readMark .eol us).getD us) = (init, vs))
    (hcond : forCondition vs = some (cond, ws)) (hmod : readArithmetics ws = (mod, xs))
    (hspace : skipSpace xs = .mark .rparen :: .mark .rparen :: ys) (hend : semiel ys = some zs)
    (hbody : Found .doGroup zs g us') :
    Found .compoundCommand (.word .forTok t :: ts)
      [astNode .cfor (optionTree .forInit init ++ (optionTree .forCond cond ++
        (g ++ optionTree .forMod mod)))] us' := by
  apply Finds.of_body
  filter_upwards [hbody] with d h
  simp [body, compoundCommand, forExpr, hblank, nameToken?, cforExpr, hinit, hcond, hmod, hspace,
    hend, h]

theorem found_select {t : AstNode} {l : CommandLexeme} {token : Token}
    (hl : l.nameToken? = some token) (hword : selectWord ts = some (f, us))
    (hend : semiel us = some vs) (hbody : Found .doGroup vs g ws) :
    Found .compoundCommand (.word .selectTok t :: .blank :: l :: ts)
      [astNode .selectTok (.node token [] :: (f ++ g))] ws := by
  apply Finds.of_body
  filter_upwards [hbody] with d h
  simp [body, compoundCommand, selectExpr, hl, hword, hend, h]

theorem found_subshell (h : Found .commandList (skipSpace ts) f us)
    (hclose : skipSpace ((readMark .semic (skipBlank us)).getD us) = .mark .rparen :: vs) :
    Found .compoundCommand (.mark .lparen :: ts) [astNode .subshell f] vs := by
  apply Finds.of_body
  filter_upwards [h] with d h
  simp [body, compoundCommand, subshell, h, hclose]

theorem found_ifPart {t : AstNode} (hcond : Found .terminatedList ts f (.word .thenTok t :: us))
    (hspace : readSpace us = some vs) (hbody : Found .terminatedList vs g ws) :
    Found .ifPart ts [astNode .ifTok (f ++ g)] ws := by
  apply Finds.of_body
  filter_upwards [hcond, hbody] with d h₁ h₂
  simp [body, ifPart, h₁, hspace, h₂]

theorem found_ifStatement {t : AstNode} (hspace : readSpace ts = some us)
    (hfirst : Found .ifPart us f vs) (hrest : Found .elifs vs g ws) :
    Found .compoundCommand (.word .ifTok t :: ts) [astNode .ifStatement (f ++ g)] ws := by
  apply Finds.of_body
  filter_upwards [hfirst, hrest] with d h₁ h₂
  simp [body, compoundCommand, ifExpr, hspace, h₁, h₂]

theorem found_fi (t : AstNode) : Found .elifs (.word .fiTok t :: ts) [] ts := by
  apply Finds.of_body
  filter_upwards with d
  rfl

theorem found_elseFi {t t' : AstNode} (hspace : readSpace ts = some us)
    (h : Found .terminatedList us f (.word .fiTok t' :: vs)) :
    Found .elifs (.word .elseTok t :: ts) [astNode .elseTok f] vs := by
  apply Finds.of_body
  filter_upwards [h] with d h
  simp [body, elifs, block_eq_some hspace h]

theorem found_elif {t : AstNode} (hfirst : Found .ifPart ts f us) (hrest : Found .elifs us g vs) :
    Found .elifs (.word .elifTok t :: .blank :: ts) (f ++ g) vs := by
  apply Finds.of_body
  filter_upwards [hfirst, hrest] with d h₁ h₂
  simp [body, elifs, h₁, h₂]

/-! ### `case` -/

theorem found_caseOf {t t' : AstNode} (hword : stringExpr ts = some (f, us))
    (hspace : readSpace us = some (.word .inTok t' :: vs)) (hbody : Found .caseBody vs g ws) :
    Found .compoundCommand (.word .caseTok t :: .blank :: ts) [astNode .caseTok (f ++ g)] ws := by
  apply Finds.of_body
  filter_upwards [hbody] with d h
  simp [body, compoundCommand, caseExpr, hword, hspace, h]

theorem found_noClause (h : readEsac ts = some us) :
    Found .caseBody ts [astNode .casePattern []] us := by
  apply Finds.of_body
  filter_upwards with d
  simp [body, caseBody, h]

theorem found_clauses (hesac : readEsac ts = none) (h : Found .caseStatements ts f us) :
    Found .caseBody ts f us := by
  apply Finds.of_body
  filter_upwards [h] with d h
  simp [body, caseBody, hesac, h]

theorem found_clause {b : { t : AstNode // rootType t = .branch }}
    (hopen : skipLparen ts = .pattern b :: us) (hpatterns : Found .patterns us f vs)
    (hclose : skipBlank vs = .mark .rparen :: ws)
    (hcommands : headIs startsCommand (skipSpace ws) = false) :
    Found .clause ts [astNode .casePattern (b.1 :: f)] ws := by
  apply Finds.of_body
  filter_upwards [hpatterns] with d h
  simp [body, clause, hopen, h, hclose, hcommands]

theorem found_clauseCommands {b : { t : AstNode // rootType t = .branch }}
    (hopen : skipLparen ts = .pattern b :: us) (hpatterns : Found .patterns us f vs)
    (hclose : skipBlank vs = .mark .rparen :: ws) (hspace : readSpace ws = some xs)
    (hcommands : headIs startsCommand xs = true) (h : Found .commandList xs g us') :
    Found .clause ts
      [astNode .casePattern (b.1 :: (f ++ astNode .caseCommand [] :: g))] us' := by
  have hskip := skipSpace_of_readSpace hspace
  apply Finds.of_body
  filter_upwards [hpatterns, h] with d h₁ h₂
  simp [body, clause, hopen, h₁, hclose, hskip, hcommands, h₂]

theorem found_patternsEnd (h : readMark .pipe (skipBlank ts) = none) :
    Found .patterns ts [] ts := by
  apply Finds.of_body
  filter_upwards with d
  simp [body, patterns, h]

theorem found_patternsNext {b : { t : AstNode // rootType t = .branch }}
    (hpipe : readMark .pipe (skipBlank ts) = some us) (hafter : skipBlank us = .pattern b :: vs)
    (hrest : Found .patterns vs f ws) : Found .patterns ts (b.1 :: f) ws := by
  apply Finds.of_body
  filter_upwards [hrest] with d h
  simp [body, patterns, hpipe, hafter, h]

theorem found_lastClause (hclause : Found .clause (skipSpace ts) f us)
    (hend : skipSpace us = .mark .doubleSemic :: vs) (hesac : readEsac vs = some ws) :
    Found .caseStatements ts f ws := by
  apply Finds.of_body
  filter_upwards [hclause] with d h
  simp [body, caseStatements, h, hend, hesac]

theorem found_moreClauses (hclause : Found .clause (skipSpace ts) f us)
    (hend : skipSpace us = .mark .doubleSemic :: vs) (hesac : readEsac vs = none)
    (hmore : headIs startsClause (skipSpace vs) = true) (hrest : Found .caseStatements vs g ws) :
    Found .caseStatements ts (f ++ g) ws := by
  apply Finds.of_body
  filter_upwards [hclause, hrest] with d h₁ h₂
  simp [body, caseStatements, h₁, hend, hesac, hmore, h₂]

theorem found_unterminated (hclause : Found .clause (skipSpace ts) f us)
    (hend : skipSpace us = .mark .doubleSemic :: vs) (hstop : clausesEnd vs = true) :
    Found .caseStatements ts f vs := by
  simp only [clausesEnd, Bool.and_eq_true, Option.isNone_iff_eq_none, Bool.not_eq_true'] at hstop
  apply Finds.of_body
  filter_upwards [hclause] with d h
  simp [body, caseStatements, h, hend, hstop]

theorem found_esac (hclause : Found .clause (skipSpace ts) f us)
    (hend : readMark .doubleSemic (skipSpace us) = none) (hesac : readEsac us = some vs) :
    Found .caseStatements ts f vs := by
  apply Finds.of_body
  filter_upwards [hclause] with d h
  simp [body, caseStatements, h, hend, hesac]

/-! ## Derivations -/

/-- No loop of the rule goes on with the tokens behind it. -/
def Stops : CommandRule → Tail → CommandTokens → Prop
  | .commandList, q, ts | .listRest, q, ts => EndsList q ts
  | .listLevel1, q, ts | .logicRest _, q, ts => EndsLogic q ts
  | .pipeline, q, ts | .pipeRest _, q, ts => EndsPipeline q ts
  | .command, q, ts => EndsCommand q ts
  | .commandAtom, q, ts => EndsAtom q ts
  | .arguments, _, ts => TailEnds .arguments ts ∧ noNode argumentAtom? ts = true
  | .compoundCommand, q, ts | .caseBody, q, ts | .caseStatements, q, ts => TailEnds q ts
  | .terminatedList, _, ts | .ifPart, _, ts => headIs closesList ts = true
  | .doGroup, _, _ | .elifs, _, _ => True
  | .forEachList, _, ts => headIs (· matches .word .doTok _) ts = true
  | .forEachValues, _, ts => ∃ m us, OptBlank ts (.mark m :: us) ∧ (m = .semic ∨ m = .eol)
  | .clause, q, ts => EndsClause q ts
  | .patterns, _, ts => ∃ us, OptBlank ts (.mark .rparen :: us)

/-! ### What stands behind the first part of a rule -/

theorem Derives.endsLogic (h : Derives full true p q .listRest ts f us) (hstop : EndsList q us) :
    EndsLogic p ts := by
  cases h with
  | listEnd => exact hstop.toEndsLogic
  | listNext htail hblank hsep _ _ _ _ => exact endsLogic_of_separator hblank hsep (htail rfl)

theorem Derives.endsPipeline {l : List AstNode} (h : Derives full true p q (.logicRest l) ts f us)
    (hstop : EndsLogic q us) : EndsPipeline p ts := by
  cases h with
  | logicEnd => exact hstop.toEndsPipeline
  | logicNext hblank hop _ _ _ => exact endsPipeline_of_logic hblank hop

theorem Derives.endsCommand {l : List AstNode} (h : Derives full true p q (.pipeRest l) ts f us)
    (hstop : EndsPipeline q us) : EndsCommand p ts := by
  cases h with
  | pipeEnd => exact hstop.toEndsCommand
  | pipeNext _ hblank _ _ _ => exact endsCommand_of_pipe hblank

theorem Derives.endsWord (h : Derives full true p q .arguments ts f us)
    (hword : noNode argumentAtom? us = true) : noNode argumentAtom? ts = true := by
  cases h with
  | argumentsEnd => exact hword
  | argumentsNext => rfl

theorem Derives.noParens (h : Derives full true p q .arguments ts f us)
    (hparens : readParens us = none) :
    readParens ts = none := by
  cases h with
  | argumentsEnd => exact hparens
  | argumentsNext ha _ =>
    obtain ⟨hl, -⟩ := ha
    unfold argumentAtom? at hl
    split at hl <;> first | rfl | cases hl

theorem Derives.arguments_tail (h : Derives full true p q .arguments ts f us) : q = .arguments := by
  generalize hr : CommandRule.arguments = r at h
  induction h with
  | argumentsEnd => rfl
  | argumentsNext _ _ ih => exact ih hr
  | _ => cases hr

theorem Derives.values_behind (h : Derives full true p q .forEachValues ts f us)
    (hstop : Stops .forEachValues q us) : noNode stringPart? ts = true := by
  cases h with
  | valuesNext => rfl
  | valuesEnd =>
    obtain ⟨m, vs, hblank, -⟩ := hstop
    cases hblank <;> rfl

/-- A part of a string is a part of an argument. -/
theorem noNode_stringPart (h : noNode argumentAtom? ts = true) : noNode stringPart? ts = true := by
  cases ts with
  | nil => rfl
  | cons l ts => cases l with
    | mark m => rfl
    | definitions | declaration | redirection | processSubstitution | hereDocument | pattern
    | arithmetics | condition => rfl
    | word | part | braces => cases h

theorem noNode_of_parens (h : Parens ts us) : noNode stringPart? ts = true := by
  obtain ⟨hl, -⟩ := h
  cases hl <;> rfl

theorem noNode_of_functionParens (h : FunctionParens ts us) : noNode stringPart? ts = true := by
  cases h with
  | parens h _ => exact noNode_of_parens h
  | wspace h => exact noNode_stringPart (noNode_of_wspace h)

theorem readParens_of_parens (h : Parens ts us) : readParens ts = some us := by
  obtain ⟨hl, hr⟩ := h
  simp [readParens, skipBlank_of_optBlank hl (by simp), skipBlank_of_optBlank hr (by simp)]

theorem readParens_of_wspace (h : WSpace ts us) (hus : headIs isWSpace us = false)
    (hparens : readParens us = none) : readParens ts = none := by
  have hself : skipBlank us = us := skipBlank_of_optBlank .none (head_ne_blank hus)
  obtain ⟨hl, h⟩ := h
  unfold isWSpace at hl
  split at hl
  · cases h with
    | none =>
      unfold readParens at hparens ⊢
      rwa [hself] at hparens
    | more hl' _ =>
      unfold isWSpace at hl'
      split at hl' <;> first | rfl | cases hl'
  · rfl
  · cases hl

theorem functionParens_eq (h : FunctionParens ts us) (hus : headIs isWSpace us = false)
    (hparens : readParens us = none) : functionParens ts = some us := by
  cases h with
  | parens h hspace =>
    simp [functionParens, readParens_of_parens h, skipSpace_of_spaces hspace hus]
  | wspace h =>
    simp [functionParens, readParens_of_wspace h hus hparens, readSpace_of_wspace h hus]

theorem nextCommand_eq {sep : List AstNode} (hblank : OptBlank ts us)
    (hsep : commandSeparator us = some (sep, vs)) (hlines : Lines vs ws)
    (hws : headIs startsCommand ws = true) : nextCommand ts = some (sep, ws) := by
  have hskip : skipBlank ts = us := by
    obtain ⟨m, rfl, hm⟩ := commandSeparator_eq_some hsep
    exact skipBlank_of_optBlank hblank (by rcases hm with rfl | rfl | rfl <;> simp)
  simp [nextCommand, hskip, hsep, skipLines_of_lines hlines (headIs_isWSpace_of_command hws), hws]

theorem logicOperator_eq {m : CommandMark} {ty : TokenType} (hblank : OptBlank ts (.mark m :: us))
    (hop : LogicMark m ty) : logicOperator ts = some (ty, us) := by
  have hskip : skipBlank ts = .mark m :: us :=
    skipBlank_of_optBlank hblank (by cases hop <;> simp)
  cases hop <;> simp [logicOperator, hskip]

theorem semiel_eq (h : Semiel ts us) (hus : headIs isWSpace us = false) : semiel ts = some us := by
  obtain ⟨hblank, hm, hspace⟩ := h
  have hskip := skipBlank_of_optBlank hblank (by rcases hm with rfl | rfl <;> simp)
  rcases hm with rfl | rfl <;> simp [semiel, hskip, readEnd, skipSpace_of_spaces hspace hus]

theorem skipLparen_eq {b : { t : AstNode // rootType t = .branch }}
    (h : OptLparen ts (.pattern b :: us)) : skipLparen ts = .pattern b :: us := by
  cases h with
  | none => rfl
  | lparen h => exact skipBlank_of_optBlank h (by simp)

theorem readEsac_eq {t : AstNode} (h : WSpace ts (.word .esacTok t :: us)) :
    readEsac ts = some us := by
  simp [readEsac, readSpace_of_wspace h rfl]

theorem eq_do_of_headIs (h : headIs (· matches .word .doTok _) ts = true) :
    ∃ t us, ts = .word .doTok t :: us := by
  obtain ⟨l, us, rfl, hl⟩ := headIs_eq_true.mp h
  split at hl
  · exact ⟨_, us, rfl⟩
  · cases hl

theorem closesList_of_do (h : headIs (· matches .word .doTok _) ts = true) :
    headIs closesList ts = true := by
  obtain ⟨t, us, rfl⟩ := eq_do_of_headIs h
  rfl

theorem head_ne_blank_of_name {l : CommandLexeme} {token : Token} (hl : l.nameToken? = some token) :
    (l :: ts).head? ≠ some .blank := by
  rintro heq
  cases heq
  cases hl

theorem not_isWSpace_of_clause (h : headIs startsClause ts = true) :
    headIs isWSpace ts = false := by
  obtain ⟨l, us, rfl, hl⟩ := headIs_eq_true.mp h
  unfold startsClause at hl
  split at hl <;> first | rfl | cases hl

/-- The tokens of the initialization do not begin with `EOL`, which is read before them. -/
theorem head_ne_eol {e : Option rawLeaves.Arith} (h : ForArithmetics ts e us)
    (hus : us.head? ≠ some .eol) : ts.head? ≠ some .eol := by
  obtain ⟨harith, hblank⟩ := h
  cases harith with
  | none => cases hblank with
    | none => exact hus
    | blank => simp
  | some h => cases h <;> simp

theorem noArithmetics_of_rparen (h : Spaces ts (.mark .rparen :: us)) :
    headIs (· matches .arithmetics _) (skipBlank ts) = false := by
  cases h with
  | none => rfl
  | more hl h =>
    unfold isWSpace at hl
    split at hl
    · cases h with
      | none => rfl
      | more hl' _ =>
        unfold isWSpace at hl'
        split at hl' <;> first | rfl | cases hl'
    · rfl
    · cases hl

theorem timePrefix_eq_nil (h : beginsTime ts = false) : timePrefix ts = some ([], ts) := by
  unfold timePrefix
  split
  · cases h
  · rfl

theorem timePosix_eq {m l : CommandLexeme} {t : AstNode} (hm : m.isMinus = true)
    (hl : l.letter? = some t) : timePosix (m :: l :: .blank :: ts) = some (t, ts) := by
  simp [timePosix, hm, hl]

theorem timePrefix_eq (h : TimePrefix ts f us) (hus : f = [] → beginsTime us = false) :
    timePrefix ts = some (f, us) := by
  cases h with
  | none => exact timePrefix_eq_nil (hus rfl)
  | time h => simp [timePrefix, h]
  | posix hm hl => simp [timePrefix, timePosix_eq hm hl]

theorem bangPrefix_eq (h : BangPrefix ts f us) : bangPrefix ts = some (f, us) := by
  cases h with
  | bang => rfl
  | none hbang =>
    unfold bangPrefix
    split
    · cases hbang
    · rfl

/-- `TIME` is not behind `BANG`. -/
theorem beginsTime_of_bangPrefix (h : BangPrefix ts f us) (hus : beginsTime us = false) :
    beginsTime ts = false := by
  cases h with
  | none => exact hus
  | bang => rfl

/-- A word stands in front of what closes the loop that reads it. -/
theorem selectWord_eq (h : SelectWord ts f us) (hend : Semiel us vs)
    (hdo : headIs (· matches .word .doTok _) vs = true) : selectWord ts = some (f, us) := by
  obtain ⟨hblank, hm, hspace⟩ := hend
  cases h with
  | word hin hstr =>
    have hword : noNode stringPart? us = true := by cases hblank <;> rfl
    have hread := readString_of_str hstr hword
    simp [selectWord, readSpace_of_wspace hin rfl, stringExpr, hread]
  | none =>
    obtain ⟨t, xs, rfl⟩ := eq_do_of_headIs hdo
    unfold selectWord
    split
    · next hread =>
      obtain ⟨-, hskip⟩ := skipSpace_of_readSpace hread
      rcases hm with rfl | rfl
      · have hsemic : skipSpace ts = .mark .semic :: _ := skipSpace_of_spaces (by
          cases hblank with
          | none => exact .none
          | blank => exact .more rfl .none) rfl
        rw [hsemic] at hskip
        cases hskip
      · have heol : skipSpace ts = .word .doTok t :: xs := skipSpace_of_spaces (by
          cases hblank with
          | none => exact .more rfl hspace
          | blank => exact .more rfl (.more rfl hspace)) rfl
        rw [heol] at hskip
        cases hskip
    · rfl

/-- The space and the separator behind the list of a subshell. -/
theorem closeSubshell_eq (hsemic : OptSemic ts us) (h : Spaces us (.mark .rparen :: vs)) :
    skipSpace ((readMark .semic (skipBlank ts)).getD ts) = .mark .rparen :: vs := by
  have hskip : skipSpace us = .mark .rparen :: vs := skipSpace_of_spaces h rfl
  cases hsemic with
  | semic hblank => simp [skipBlank_of_optBlank hblank (by simp), hskip]
  | none =>
    obtain ⟨l, xs, hblank, hl⟩ := skipBlank_of_spaces h rfl
    have hnone : readMark .semic (skipBlank ts) = none := by
      rw [hblank]
      rcases hl with ⟨rfl, -⟩ | ⟨hl, -⟩
      · rfl
      · unfold isWSpace at hl
        split at hl <;> first | rfl | cases hl
    rw [hnone]
    exact hskip

theorem readSpace_eq_of_begins (h : WSpace ts us) (hus : BeginsCommand us) :
    readSpace ts = some us :=
  readSpace_of_wspace h hus.notSpace

/-- `wspace?` in front of a clause ends where the clause begins. -/
theorem Derives.skipSpace_eq (h : Derives full true p q .clause us f vs) (hspace : Spaces ts us) :
    skipSpace ts = us :=
  skipSpace_of_spaces hspace (not_isWSpace_of_clause h.begins)

/-- What the grammar derives, the parser reads. -/
theorem Derives.finds (h : Derives full true p q r ts f us) (hstop : Stops r q us) :
    Found r ts f us := by
  induction h with
  | commandList _ hrest ih ih' =>
    exact found_commandList (ih (hrest.endsLogic hstop)) (ih' hstop)
  | listEnd => exact found_listEnd hstop.next
  | listNext _ hblank hsep hlines _ hfirst hrest ih ih' =>
    have hnext := nextCommand_eq hblank hsep hlines hfirst.begins
    exact found_listNext hnext (ih (hrest.endsLogic hstop)) (ih' hstop)
  | listLevel1 _ hrest ih ih' => exact found_listLevel1 (ih (hrest.endsPipeline hstop)) (ih' hstop)
  | logicEnd => exact found_logicEnd hstop.logic
  | logicNext hblank hop hspace hnext hrest ih ih' =>
    have hskip := skipSpace_of_spaces hspace hnext.begins.notSpace
    refine found_logicNext (logicOperator_eq hblank hop) ?_ (ih' hstop)
    rw [hskip]
    exact ih (hrest.endsPipeline hstop)
  | pipeline htime hbang hfirst _ hrest ih ih' =>
    have hnotTime := beginsTime_of_bangPrefix hbang hfirst.begins.2
    exact found_pipeline (timePrefix_eq htime fun _ => hnotTime) (bangPrefix_eq hbang)
      (ih (hrest.endsCommand hstop)) (ih' hstop)
  | pipeEnd => exact found_pipeEnd hstop.pipe
  | pipeNext _ hblank hspace hnext hrest ih ih' =>
    have hskip := skipSpace_of_spaces hspace hnext.begins.1.notSpace
    have hpipe := skipBlank_of_optBlank hblank (by simp)
    refine found_pipeNext (by rw [hpipe, readMark_self]) ?_ (ih' hstop)
    rw [hskip]
    exact ih (hrest.endsCommand hstop)
  | @command _ _ _ f _ _ ih =>
    have hfound := found_command (ih hstop.toEndsAtom) (readRun_of_run .nil hstop.redirection)
      (hereDocument_eq .none hstop.hereDocument)
    rwa [List.nil_append, List.append_nil] at hfound
  | redirected _ hredirs _ ih =>
    obtain ⟨vs, hread, hdoc⟩ :=
      redirection_of_redirected hredirs hstop.redirection hstop.hereDocument
    exact found_command (ih (endsAtom_of_redirected hredirs)) hread hdoc
  | compound h ih => exact found_compound h.begins.2.1 (ih hstop.tail)
  | functionWord hl hname hparens h ih =>
    obtain ⟨⟨hbegins, -⟩, -, hnone⟩ := h.begins
    exact found_functionWord hl (readString_of_str hname (noNode_of_functionParens hparens))
      (functionParens_eq hparens hbegins.notSpace hnone) (ih hstop.tail)
  | definitions => exact found_definitions hstop.name
  | definitionsCommand hname hargs ih =>
    have hword := hargs.endsWord hstop.word
    refine found_definitionsCommand (readString_of_str hname (noNode_stringPart hword)) (ih ?_)
    exact ⟨hargs.arguments_tail ▸ hstop.tail, hstop.word⟩
  | declaration => exact found_declaration _
  | functionParens hcompound hfunction hname hparens hspace h ih =>
    refine found_functionParens hcompound hfunction
      (commandName_eq hname (noNode_of_parens hparens)) (readParens_of_parens hparens) ?_
    rw [skipSpace_of_spaces hspace h.begins.1.1.notSpace]
    exact ih hstop.tail
  | simple hcompound hfunction hname hargs ih =>
    have hword := hargs.endsWord hstop.word
    refine found_simple hcompound hfunction (commandName_eq hname (noNode_stringPart hword))
      (hargs.noParens hstop.parens) (ih ?_)
    exact ⟨hargs.arguments_tail ▸ hstop.tail, hstop.word⟩
  | argumentsEnd => exact found_argumentsEnd hstop.1
  | argumentsNext ha hrest ih =>
    exact found_argumentsNext (readString_of_str ha (hrest.endsWord hstop.2)) (ih hstop)
  | terminatedList _ hend ih =>
    exact found_terminatedList (ih (endsList_of_semiel hend hstop))
      (semiel_eq hend (closesList_spec hstop).1)
  | currentShell hspace h ih =>
    exact found_currentShell (readSpace_eq_of_begins hspace h.begins) (ih rfl)
  | subshell _ hbefore h hsemic hafter ih =>
    have hfound := ih (endsList_of_subshell hsemic hafter)
    rw [← skipSpace_of_spaces hbefore h.begins.notSpace] at hfound
    exact found_subshell hfound (closeSubshell_eq hsemic hafter)
  | arithmetic hspace hend =>
    exact found_arithmetic (skipSpace_of_spaces hspace rfl) (skipSpace_of_spaces hend rfl)
  | condition => exact found_condition _
  | doGroup hspace h ih => exact found_doGroup (readSpace_eq_of_begins hspace h.begins) (ih rfl)
  | whileLoop hw hspace hcond hbody ih ih' =>
    refine found_whileLoop hw ?_ (ih' trivial)
    rw [skipSpace_of_spaces hspace hcond.begins.notSpace]
    exact ih (closesList_of_do hbody.begins)
  | forEach hblank hl hvalues hbody ih ih' =>
    have hskip := skipBlank_of_optBlank hblank (head_ne_blank_of_name hl)
    exact found_forEach hskip hl (ih hbody.begins) (ih' trivial)
  | forIn hspace hvalues hend ih =>
    have hsemiel := semiel_eq hend (closesList_spec (closesList_of_do hstop)).1
    obtain ⟨hblank, hm, -⟩ := hend
    exact found_forIn (readSpace_of_wspace hspace rfl) (ih ⟨_, _, hblank, hm⟩) hsemiel
  | forSemic hbefore hafter =>
    have hskip := skipSpace_of_spaces hafter (closesList_spec (closesList_of_do hstop)).1
    rw [← hskip]
    exact found_forSemic (skipSpace_of_spaces hbefore rfl)
  | forSpace hspace =>
    obtain ⟨t, us, rfl⟩ := eq_do_of_headIs hstop
    exact found_forSpace (readSpace_of_wspace hspace rfl)
  | valuesEnd =>
    obtain ⟨m, us, hblank, hm⟩ := hstop
    exact found_valuesEnd hblank hm
  | valuesNext hvalue hv hrest ih =>
    exact found_valuesNext hvalue (readString_of_str hv (hrest.values_behind hstop)) (ih hstop)
  | cfor hblank heol hinit hcond hmod hspace hend hbody ih =>
    have heolEq := readMark_eol_of_optEol heol (head_ne_eol hinit (by cases hcond <;> simp))
    have hinitEq := forArithmetics_eq hinit (by cases hcond <;> simp) (by cases hcond <;> rfl)
    have hmodEq := optArithmetics_eq hmod fun _ => noArithmetics_of_rparen hspace
    have hdo := closesList_of_do hbody.begins
    exact found_cfor (skipBlank_of_optBlank hblank (by simp)) (by rw [heolEq, hinitEq])
      (forCondition_eq hcond) hmodEq (skipSpace_of_spaces hspace rfl)
      (semiel_eq hend (closesList_spec hdo).1) (ih trivial)
  | select _ hl hword hend hbody ih =>
    have hdo := hbody.begins
    exact found_select hl (selectWord_eq hword hend hdo)
      (semiel_eq hend (closesList_spec (closesList_of_do hdo)).1) (ih trivial)
  | ifPart hcond hspace hbody ih ih' =>
    exact found_ifPart (ih rfl) (readSpace_eq_of_begins hspace hbody.begins) (ih' hstop)
  | ifStatement hspace hfirst hrest ih ih' =>
    exact found_ifStatement (readSpace_eq_of_begins hspace hfirst.begins) (ih hrest.begins)
      (ih' trivial)
  | fi => exact found_fi _
  | elseFi hspace h ih => exact found_elseFi (readSpace_eq_of_begins hspace h.begins) (ih rfl)
  | elif hfirst hrest ih ih' => exact found_elif (ih hrest.begins) (ih' trivial)
  | caseOf hword hspace hbody ih =>
    refine found_caseOf (readString_of_str hword ?_) (readSpace_of_wspace hspace rfl) (ih hstop)
    exact noNode_stringPart (noNode_of_wspace hspace)
  | noClause hspace => exact found_noClause (readEsac_eq hspace)
  | clauses h ih => exact found_clauses h.begins.2 (ih hstop)
  | clause hopen hpatterns hclose ih =>
    exact found_clause (skipLparen_eq hopen) (ih ⟨_, hclose⟩)
      (skipBlank_of_optBlank hclose (by simp)) hstop.commands
  | clauseCommands hopen hpatterns hclose hspace h ih ih' =>
    exact found_clauseCommands (skipLparen_eq hopen) (ih ⟨_, hclose⟩)
      (skipBlank_of_optBlank hclose (by simp)) (readSpace_eq_of_begins hspace h.begins)
      h.begins (ih' hstop.toEndsList)
  | patternsEnd =>
    obtain ⟨us, hblank⟩ := hstop
    refine found_patternsEnd ?_
    rw [skipBlank_of_optBlank hblank (by simp)]
    rfl
  | patternsNext hbefore hafter hrest ih =>
    have hpipe := skipBlank_of_optBlank hbefore (by simp)
    exact found_patternsNext (by rw [hpipe, readMark_self])
      (skipBlank_of_optBlank hafter (by simp)) (ih hstop)
  | lastClause hspace hclause hend hesac ih =>
    have hskip := hclause.skipSpace_eq hspace
    exact found_lastClause (hskip ▸ ih (endsClause_of_doubleSemic hend))
      (skipSpace_of_spaces hend rfl) (readEsac_eq hesac)
  | moreClauses hspace hclause hend hrest ih ih' =>
    have hskip := hclause.skipSpace_eq hspace
    obtain ⟨hmore, hesac⟩ := hrest.begins
    exact found_moreClauses (hskip ▸ ih (endsClause_of_doubleSemic hend))
      (skipSpace_of_spaces hend rfl) hesac hmore (ih' hstop)
  | unterminated hspace hclause hend ih =>
    have hskip := hclause.skipSpace_eq hspace
    exact found_unterminated (hskip ▸ ih (endsClause_of_doubleSemic hend))
      (skipSpace_of_spaces hend rfl) hstop
  | esac hspace hclause hesac htail ih =>
    have hskip := hclause.skipSpace_eq hspace
    refine found_esac (hskip ▸ ih (endsClause_of_esac hesac (htail rfl))) ?_ (readEsac_eq hesac)
    rw [skipSpace_of_spaces hesac.spaces rfl]
    rfl

/-! ## Scripts -/

theorem firstLineComment_eq (h : FirstLine ts us) : firstLineComment ts = some us := by
  cases h with
  | none h =>
    unfold firstLineComment
    split
    · cases h
    · rfl
  | @comment cs _ h =>
    have hcut : (cs ++ .eol :: us).dropWhile (!isEol ·) = .eol :: us := by
      rw [List.dropWhile_append_of_pos fun l hl => by simp [h l hl]]
      rfl
    simp [firstLineComment, hcut]

theorem dropWhile_of_eols (h : Eols ts us) (hus : headIs isEol us = false) :
    ts.dropWhile isEol = us := by
  induction h with
  | @nil ts =>
    cases ts with
    | nil => rfl
    | cons l ts => exact List.dropWhile_cons_of_neg (by simpa using hus)
  | cons _ ih =>
    rw [List.dropWhile_cons_of_pos rfl]
    exact ih hus

theorem BeginsCommand.notEol (h : BeginsCommand us) (hblank : OptBlank ts us) :
    headIs isEol ts = false := by
  cases hblank with
  | blank => rfl
  | none =>
    obtain ⟨l, vs, rfl, hl⟩ := headIs_eq_true.mp h
    unfold isEol
    simp only [headIs_cons]
    split
    · cases hl
    · rfl

theorem endOfScript_eq (h : OptBlank ts us)
    (hus : us = [] ∨ ∃ m, us = [.mark m] ∧ (m = .semic ∨ m = .amp ∨ m = .eol)) :
    endOfScript ts = true := by
  have hskip : skipBlank ts = us := by
    refine skipBlank_of_optBlank h ?_
    rcases hus with rfl | ⟨m, rfl, rfl | rfl | rfl⟩ <;> simp
  unfold endOfScript
  rw [hskip]
  rcases hus with rfl | ⟨m, rfl, rfl | rfl | rfl⟩ <;> rfl

theorem Script.finds (h : Script full true ts f) : ∀ᶠ d in atTop, start d ts = some f := by
  obtain ⟨hline, heols, hblank, hlist, hend, heof⟩ := h
  have hbegins := hlist.begins
  have hfound := hlist.finds (endsList_of_endOfScript hend heof)
  filter_upwards [hfound] with d hd
  have hskip := skipBlank_of_optBlank hblank (head_ne_blank hbegins.notSpace)
  simp [start, firstLineComment_eq hline, dropWhile_of_eols heols (hbegins.notEol hblank), hskip,
    hd, endOfScript_eq hend heof]

/-- `case a in a) echo esac` -/
def echoEsac (t : AstNode) : CommandTokens :=
  [.word .caseTok t, .blank, .part (.node ⟨.name, "a"⟩ []), .blank, .word .inTok t, .blank,
    .pattern ⟨astNode .branch [], rfl⟩, .mark .rparen, .blank, .part (.node ⟨.name, "echo"⟩ []),
    .blank, .word .esacTok t]

/-- Behind a blank `esac` is an argument, and the clause goes on. -/
example (t : AstNode) : start 20 (echoEsac t) = none := rfl

/-- The grammar says nothing of that. -/
example (t : AstNode) : ∃ f, Script true false (echoEsac t) f := by
  have hcommands : Derives true false .closed .arguments .commandList ((echoEsac t).drop 9) _
      ((echoEsac t).drop 10) :=
    .commandList (.listLevel1 (.pipeline .none (.none rfl)
      (.command (.simple rfl rfl (.word (.mk rfl .nil)) .argumentsEnd)) (.inl rfl) .pipeEnd)
      .logicEnd) .listEnd
  have hclause : Derives true false .closed .arguments .clause ((echoEsac t).drop 6) _
      ((echoEsac t).drop 10) :=
    .clauseCommands .none .patternsEnd .none (.mk rfl .none) hcommands
  have hcase : Derives true false .closed .closed .compoundCommand (echoEsac t) _ [] :=
    .caseOf (.mk rfl .nil) (.mk rfl .none)
      (.clauses (.esac (.more rfl .none) hclause (.mk rfl .none) (fun h => by cases h)))
  have hlist : Derives true false .closed .closed .commandList (echoEsac t) _ [] :=
    .commandList (.listLevel1 (.pipeline .none (.none rfl) (.command (.compound hcase)) (.inl rfl)
      .pipeEnd) .logicEnd) .listEnd
  exact ⟨_, .mk (.none rfl) .nil .none hlist .none (.inl rfl)⟩

/-- No script has two trees, in whatever ways the grammar with greedy loops derives it. -/
theorem script_tree_unique {g : List AstNode} (h : Script full true ts f)
    (h' : Script full true ts g) : f = g := by
  obtain ⟨d, hd, hd'⟩ := (h.finds.and h'.finds).exists
  rw [hd] at hd'
  simpa using hd'

end CommandParser

end Libbash
