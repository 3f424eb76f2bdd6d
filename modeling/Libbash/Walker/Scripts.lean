import Libbash.Parser.CommandCompleteness
import Libbash.Walker.LoopControl

/-!
# Scripts from their tokens to their effect

The trees that the parser builds are those the walker has rules for, as long as
the script does without the alternatives that `Derives` leaves out when it is not `full`
(`Derives.isTree`, an induction on the derivation). Such a script is parsed, and the
walk over the stream of its tree does what structural execution of its commands does.
-/

namespace Libbash

open Lib Lib.Comp CommandParser

variable {S : Type}

namespace CommandParser

variable {greedy : Bool} {p q : Tail} {r : CommandRule} {ts us : CommandTokens} {f g : List AstNode}

/-! ## The trees of each rule -/

/-- What the trees of a rule are. -/
def IsTree : CommandRule → List AstNode → Prop
  | .commandList, f | .terminatedList, f | .doGroup, f =>
    ∃ c : CommandList rawLeaves, f = [c.tree]
  | .listRest, f => f = [] ∨ ∃ c : CommandList rawLeaves, f = c.trees
  | .listLevel1, f => ∃ c : LogicCommand rawLeaves, f = [c.tree]
  | .logicRest l, f =>
    (∃ c : LogicCommand rawLeaves, l = [c.tree]) → ∃ c : LogicCommand rawLeaves, f = [c.tree]
  | .pipeline, f | .command, f => ∃ c : Command rawLeaves, f = [c.tree]
  | .pipeRest l, f => f = l
  | .commandAtom, f =>
    (∃ (redirs : List rawLeaves.Redirect) (c : rawLeaves.Simple),
      f = redirs.map Subtype.val ++ c.1) ∨ ∃ c : Compound rawLeaves, f = [c.tree]
  | .compoundCommand, f => ∃ c : Compound rawLeaves, f = [c.tree]
  | .arguments, _ => True
  | .forEachList, f | .forEachValues, f => ∃ words : List rawLeaves.Word, f = words.map Subtype.val
  | .ifPart, f => ∃ c b : CommandList rawLeaves, f = [astNode .ifTok [c.tree, b.tree]]
  | .elifs, f => ∃ rest : ElseParts rawLeaves, f = rest.trees
  | .caseBody, f => ∃ cs : Clauses rawLeaves, f = orCasePattern cs.trees
  | .caseStatements, f => ∃ cs : Clauses rawLeaves, f = cs.trees ∧ f ≠ []
  | .clause, f => ∀ rest : Clauses rawLeaves, ∃ cs : Clauses rawLeaves,
      f ++ rest.trees = cs.trees ∧ cs.trees ≠ []
  | .patterns, f => ∀ t ∈ f, rootType t = .branch

theorem Str.isWord {first? node? : CommandLexeme → Option AstNode} (h : Str first? node? ts f us) :
    ∃ w : rawLeaves.Word, f = [w.1] := by
  obtain ⟨_, _⟩ := h
  exact ⟨⟨_, rfl⟩, rfl⟩

theorem Str.isSimple {first? node? : CommandLexeme → Option AstNode} (h : Str first? node? ts f us)
    (g : List AstNode) : isSimpleForest (f ++ g) = true := by
  obtain ⟨_, _⟩ := h
  rfl

theorem Redirects.exists_map (h : Redirects f) :
    ∃ redirs : List rawLeaves.Redirect, f = redirs.map Subtype.val :=
  ⟨f.attachWith _ h, (List.attachWith_map_subtype_val h).symm⟩

/-- The trees of a command with a name. -/
theorem CommandName.isTree (h : CommandName ts f us) (g : List AstNode) :
    IsTree .commandAtom (f ++ g) := by
  cases h with
  | word h => exact .inl ⟨[], ⟨f ++ g, h.isSimple g⟩, rfl⟩
  | @redirection r ts =>
    exact .inl ⟨[r], ⟨astNode .string [.node ⟨.name, "NAME"⟩ []] :: g, rfl⟩, rfl⟩

theorem isTree_simple (h : isSimpleForest f = true) : IsTree .commandAtom f :=
  .inl ⟨[], ⟨f, h⟩, rfl⟩

theorem nameToken_of_eq_some {l : CommandLexeme} {t : Token} (h : l.nameToken? = some t) :
    t = nameToken t.text := by
  unfold CommandLexeme.nameToken? at h
  split at h
  · split_ifs at h with heq
    cases h
    exact heq
  · cases h

/-- The trees of `command_atom` as the tree of a command with redirections. -/
theorem isTree_command (redirs : List rawLeaves.Redirect) (h : IsTree .commandAtom f) :
    ∃ c : Command rawLeaves, [astNode .command (redirs.map Subtype.val ++ f)] = [c.tree] := by
  rcases h with ⟨redirs', c, rfl⟩ | ⟨c, rfl⟩
  · refine ⟨.simple (redirs ++ redirs') c, ?_⟩
    rw [Command.tree, List.map_append, List.append_assoc]
  · exact ⟨.compound redirs c, rfl⟩

theorem prefixed_nil (f : List AstNode) : prefixed [] f = f := by
  unfold prefixed
  conv_rhs => rw [← List.map_id f]
  refine List.map_congr_left fun t _ => ?_
  rw [List.append_nil]
  cases t
  rfl

/-- A simple command stays one when trees are put behind it. -/
theorem isTree_prefixed {pre : List AstNode} (h : IsTree .command f)
    (hsimple : pre = [] ∨ NoCompound f) : IsTree .command (prefixed pre f) := by
  rcases hsimple with rfl | hsimple
  · rw [prefixed_nil]
    exact h
  obtain ⟨c, rfl⟩ := h
  cases c with
  | compound redirs c =>
    have hstarts := hsimple _ (List.mem_singleton_self _) c.tree
      (by simp [Command.tree, NodeTree.children])
    rw [c.tree_startsCompound] at hstarts
    cases hstarts
  | simple redirs c =>
    obtain ⟨cs, hcs⟩ := c
    have hmore : isSimpleForest (cs ++ pre) = true := by
      cases cs with
      | nil => cases hcs
      | cons c cs => exact hcs
    exact ⟨.simple redirs ⟨cs ++ pre, hmore⟩,
      by simp [prefixed, Command.tree, NodeTree.label, NodeTree.children]⟩

/-- A clause in front of any others. -/
theorem isTree_clause (b : { t : AstNode // rootType t = .branch })
    (h : IsTree .patterns f) : ∃ p : rawLeaves.Pattern, p.1 = b.1 :: f := by
  refine ⟨⟨b.1 :: f, by simp, fun t ht => ?_⟩, rfl⟩
  rcases List.mem_cons.mp ht with rfl | ht
  · exact b.2
  · exact h t ht

/-- The trees of the clauses, as those of the body of a `case`. -/
theorem orCasePattern_of_ne_nil (h : f ≠ []) : orCasePattern f = f := by
  cases f with
  | nil => exact absurd rfl h
  | cons => rfl

theorem Derives.isTree (h : Derives false greedy p q r ts f us) : IsTree r f := by
  induction h with
  | commandList _ _ ih ih' =>
    obtain ⟨c, rfl⟩ := ih
    rcases ih' with rfl | ⟨cs, rfl⟩
    · exact ⟨.last c, rfl⟩
    · exact ⟨.cons c cs, rfl⟩
  | listEnd => exact .inl rfl
  | listNext _ _ _ _ hfull _ _ ih ih' =>
    obtain ⟨c, rfl⟩ := ih
    obtain rfl := hfull.resolve_left Bool.false_ne_true
    rcases ih' with rfl | ⟨cs, rfl⟩
    · exact .inr ⟨.last c, rfl⟩
    · exact .inr ⟨.cons c cs, rfl⟩
  | listLevel1 _ _ ih ih' =>
    obtain ⟨c, rfl⟩ := ih
    exact ih' ⟨.command c, rfl⟩
  | logicEnd => exact id
  | @logicNext _ _ _ _ _ _ _ _ _ _ _ _ _ _ hop _ _ _ ih ih' =>
    rintro ⟨l, rfl⟩
    obtain ⟨c, rfl⟩ := ih
    cases hop with
    | and => exact ih' ⟨.logic true l c, rfl⟩
    | or => exact ih' ⟨.logic false l c, rfl⟩
  | pipeline _ _ _ hfull _ ih ih' =>
    obtain ⟨rfl, hbang⟩ := hfull.resolve_left Bool.false_ne_true
    exact ih' ▸ isTree_prefixed ih hbang
  | pipeEnd => rfl
  | pipeNext hfull => cases hfull
  | command _ ih => exact isTree_command [] ih
  | redirected _ _ hfull ih =>
    obtain ⟨hredirs, rfl⟩ := hfull.resolve_left Bool.false_ne_true
    obtain ⟨redirs, rfl⟩ := hredirs.exists_map
    rw [List.append_nil]
    exact isTree_command redirs ih
  | compound _ ih => exact .inr ih
  | functionWord | functionParens | definitions => exact isTree_simple rfl
  | definitionsCommand hname =>
    rw [List.append_assoc]
    exact isTree_simple (hname.isSimple _)
  | @declaration _ c => exact isTree_simple c.2
  | simple _ _ hname => exact hname.isTree _
  | argumentsEnd | argumentsNext => trivial
  | terminatedList _ _ ih | doGroup _ _ ih => exact ih
  | subshell hfull | select hfull => cases hfull
  | currentShell _ _ ih =>
    obtain ⟨c, rfl⟩ := ih
    exact ⟨.currentShell c, rfl⟩
  | @arithmetic _ e => exact ⟨.arith e, rfl⟩
  | @condition _ c => exact ⟨.cond c, rfl⟩
  | @whileLoop _ _ _ _ _ _ _ _ _ _ _ negate _ _ _ _ ih ih' =>
    obtain ⟨c, rfl⟩ := ih
    obtain ⟨b, rfl⟩ := ih'
    exact ⟨.loop negate c b, rfl⟩
  | forEach _ hl _ _ ih ih' =>
    obtain ⟨words, rfl⟩ := ih
    obtain ⟨b, rfl⟩ := ih'
    rw [nameToken_of_eq_some hl]
    exact ⟨.forEach _ words b, rfl⟩
  | forIn _ _ _ ih => exact ih
  | forSemic | forSpace | valuesEnd => exact ⟨[], rfl⟩
  | valuesNext _ hv _ ih =>
    obtain ⟨w, rfl⟩ := hv.isWord
    obtain ⟨words, rfl⟩ := ih
    exact ⟨w :: words, rfl⟩
  | @cfor _ _ _ _ _ _ _ init cond mod _ _ _ _ _ _ _ _ _ _ _ _ _ _ ih =>
    obtain ⟨b, rfl⟩ := ih
    exact ⟨.cfor init cond mod b, rfl⟩
  | ifPart _ _ _ ih ih' =>
    obtain ⟨c, rfl⟩ := ih
    obtain ⟨b, rfl⟩ := ih'
    exact ⟨c, b, rfl⟩
  | ifStatement _ _ _ ih ih' =>
    obtain ⟨c, b, rfl⟩ := ih
    obtain ⟨rest, rfl⟩ := ih'
    exact ⟨.ifStatement c b rest, rfl⟩
  | fi => exact ⟨.fi, rfl⟩
  | elseFi _ _ ih =>
    obtain ⟨b, rfl⟩ := ih
    exact ⟨.elsePart b, rfl⟩
  | elif _ _ ih ih' =>
    obtain ⟨c, b, rfl⟩ := ih
    obtain ⟨rest, rfl⟩ := ih'
    exact ⟨.elif c b rest, rfl⟩
  | caseOf hword _ _ ih =>
    obtain ⟨w, rfl⟩ := hword.isWord
    obtain ⟨cs, rfl⟩ := ih
    exact ⟨.caseOf w cs, rfl⟩
  | noClause => exact ⟨.esac, rfl⟩
  | clauses _ ih =>
    obtain ⟨cs, rfl, hne⟩ := ih
    exact ⟨cs, (orCasePattern_of_ne_nil hne).symm⟩
  | @clause _ _ b _ _ _ _ _ _ _ _ ih =>
    obtain ⟨p, hp⟩ := isTree_clause b ih
    exact fun rest => ⟨.empty p rest, by simp [Clauses.trees, hp], by simp [Clauses.trees]⟩
  | @clauseCommands _ _ _ b _ _ _ _ _ _ _ _ _ _ _ _ _ ih ih' =>
    obtain ⟨p, hp⟩ := isTree_clause b ih
    obtain ⟨c, rfl⟩ := ih'
    exact fun rest => ⟨.commands p c rest, by simp [Clauses.trees, CommandList.tree, hp],
      by simp [Clauses.trees]⟩
  | patternsEnd =>
    intro t ht
    cases ht
  | @patternsNext _ _ b _ _ _ _ _ _ _ _ ih =>
    intro t ht
    rcases List.mem_cons.mp ht with rfl | ht
    · exact b.2
    · exact ih t ht
  | lastClause _ _ _ _ ih | unterminated _ _ _ ih | esac _ _ _ _ ih =>
    obtain ⟨cs, hcs, hne⟩ := ih .esac
    rw [Clauses.trees, List.append_nil] at hcs
    exact ⟨cs, hcs, hcs ▸ hne⟩
  | moreClauses _ _ _ _ ih ih' =>
    obtain ⟨rest, rfl, -⟩ := ih'
    obtain ⟨cs, hcs, hne⟩ := ih rest
    exact ⟨cs, hcs, hcs ▸ hne⟩

theorem Script.isTree (h : Script false greedy ts f) :
    ∃ c : CommandList rawLeaves, f = [c.tree] := by
  obtain ⟨-, -, -, hlist, -, -⟩ := h
  exact hlist.isTree

end CommandParser

/-! ## Parsing and walking -/

/-- The constructor of `bash_ast` and `interpret_with`: the tokens of a script are parsed
with rules that are `d` calls deep, and the rule `start` of the walker goes over the stream of
the tree. A script with a syntax error has no tree. -/
def interpretTokens (sem : LeafSem rawLeaves S) (crash : Nat → S → Exn → Nat) (n d : Nat)
    (ts : CommandTokens) : Comp Exn S Unit :=
  match start d ts with
  | some f => fun s => withoutCursor (commandList (forestStream f) sem crash n d ⟨0, s⟩)
  | none => throw (.error .parse "Something wrong happened while parsing")

/-- A word of one token. -/
def wordLexeme (text : String) : CommandLexeme := .part (.node ⟨.name, text⟩ [])

/-- The words of a command, in front of other tokens. -/
def wordTokens (name : String) : List String → CommandTokens → CommandTokens
  | [], ts => wordLexeme name :: ts
  | arg :: args, ts => wordLexeme name :: .blank :: wordTokens arg args ts

section Words

variable {full greedy : Bool} {p q : Tail} {ts us : CommandTokens} {f : List AstNode}

theorem derives_arguments (arg : String) (args : List String) (ts : CommandTokens) :
    Derives full greedy p .arguments .arguments (.blank :: wordTokens arg args ts)
      ((arg :: args).map stringNode) ts := by
  induction args generalizing arg p with
  | nil => exact .argumentsNext (.mk rfl .nil) .argumentsEnd
  | cons next args ih => exact .argumentsNext (.mk rfl .nil) (ih next)

/-- A command with words only. -/
theorem derives_words {name : String} (hname : name ≠ "function") (args : List String)
    (ts : CommandTokens) : Derives full greedy p .arguments .command (wordTokens name args ts)
      [astNode .command (stringNode name :: args.map stringNode)] ts := by
  have hfunction : (wordLexeme name).isFunction = false := by
    simp [wordLexeme, CommandLexeme.isFunction, hname]
  cases args with
  | nil =>
    exact .command (.simple rfl (startsFunction_cons hfunction ts) (.word (.mk rfl .nil))
      .argumentsEnd)
  | cons arg args =>
    exact .command (.simple rfl (startsFunction_cons hfunction _) (.word (.mk rfl .nil))
      (derives_arguments arg args ts))

/-- A command is a pipeline. -/
theorem derives_pipeline (h : Derives full greedy .closed q .command ts f us)
    (hbang : headIs (· matches .word .bang _) ts = false) :
    Derives full greedy p q .pipeline ts f us := by
  have hrest : Derives full greedy q q (.pipeRest (prefixed ([] ++ []) f)) us f us := by
    rw [List.append_nil, prefixed_nil]
    exact .pipeEnd
  exact .pipeline .none (.none hbang) h (.inr ⟨rfl, .inl rfl⟩) hrest

/-- Words as a list that ends where `semiel` begins. -/
theorem derives_terminatedList {name : String} (hname : name ≠ "function") (args : List String)
    (ts : CommandTokens) : Derives full greedy p .closed .terminatedList
      (wordTokens name args (.mark .semic :: .blank :: ts))
        [listNode [astNode .command (stringNode name :: args.map stringNode)]] ts := by
  have hbang : headIs (· matches .word .bang _)
      (wordTokens name args (.mark .semic :: .blank :: ts)) = false := by
    cases args <;> rfl
  exact .terminatedList (.commandList (.listLevel1
    (derives_pipeline (derives_words hname args _) hbang) .logicEnd) .listEnd)
    (.mk .none (.inl rfl) (.more rfl .none))

end Words

/-- `while :; do break 1; done; : && return 4` -/
def whileBreak (t : AstNode) : CommandTokens :=
  .word .whileTok t :: .blank :: wordTokens ":" [] (.mark .semic :: .blank :: .word .doTok t ::
    .blank :: wordTokens "break" ["1"] (.mark .semic :: .blank :: .word .doneTok t ::
      .mark .semic :: .blank :: wordTokens ":" [] (.blank :: .mark .logicAnd :: .blank ::
        wordTokens "return" ["4"] [])))

def whileBreakList : CommandList rawLeaves :=
  .cons (.command (.compound [] (.loop false (simpleList ":" []) (simpleList "break" ["1"]))))
    (.last (.logic true (.command (.simple [] ⟨[stringNode ":"], rfl⟩))
      (.simple [] ⟨[stringNode "return", stringNode "4"], rfl⟩)))

theorem script_whileBreak (t : AstNode) :
    Script false true (whileBreak t) [whileBreakList.tree] := by
  have hw : WordToken.whileTok = if false then .untilTok else .whileTok := rfl
  have hloop : Derives false true .closed .closed .command (whileBreak t) _ _ :=
    .command (.compound (.whileLoop hw (.more rfl .none) (derives_terminatedList (by decide) [] _)
      (.doGroup (.mk rfl .none) (derives_terminatedList (by decide) ["1"] _))))
  have hreturn : Derives false true .closed .arguments .listLevel1 (wordTokens ":" []
      (.blank :: .mark .logicAnd :: .blank :: wordTokens "return" ["4"] [])) _ [] :=
    .listLevel1 (derives_pipeline (derives_words (by decide) [] _) rfl)
      (.logicNext .blank .and (.more rfl .none)
        (derives_pipeline (derives_words (by decide) ["4"] []) rfl) .logicEnd)
  have hlist : Derives false true .closed .arguments .commandList (whileBreak t) _ [] :=
    .commandList (.listLevel1 (derives_pipeline hloop rfl) .logicEnd)
      (.listNext (fun _ => trivial) .none rfl (.last .blank) (.inr rfl) hreturn .listEnd)
  exact .mk (.none rfl) .nil .none hlist .none (.inl rfl)

/-- `done` begins no command. -/
theorem not_script_done (t : AstNode) : ¬ ∃ f, Script true true [.word .doneTok t] f := by
  rintro ⟨f, hline, heols, hblank, hlist, -, -⟩
  cases hline
  cases heols
  cases hblank
  have hbegins := hlist.begins
  cases hbegins

end Libbash
