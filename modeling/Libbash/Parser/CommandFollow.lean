import Libbash.Parser.CommandSoundness

/-!
# What may follow a rule

The parser finds what the grammar derives as long as no loop of a rule can go on
into the tokens behind it. `EndsAtom` to `EndsList` say so of the rules from
`command_atom` to `command_list`; the lemmas show it of what the grammar puts behind
them.
-/

namespace Libbash

open Lib CommandLexeme

namespace CommandParser

variable {q : Tail} {l : CommandLexeme} {ts us vs : CommandTokens} {f : List AstNode}
  {first? node? : CommandLexeme → Option AstNode}

/-! ## Space, words and the like -/

@[simp] theorem headIs_cons (p : CommandLexeme → Bool) (l : CommandLexeme) (ts : CommandTokens) :
    headIs p (l :: ts) = p l := rfl

@[simp] theorem headIs_nil (p : CommandLexeme → Bool) : headIs p [] = false := rfl

theorem not_isWSpace_of_startsCommand (h : l.startsCommand = true) : l.isWSpace = false := by
  cases l with
  | mark m => cases m <;> first | rfl | cases h
  | _ => rfl

/-- The next token begins a command, so it is no space. -/
theorem headIs_isWSpace_of_command (h : headIs startsCommand ts = true) :
    headIs isWSpace ts = false := by
  obtain ⟨l, us, rfl, hl⟩ := headIs_eq_true.mp h
  exact not_isWSpace_of_startsCommand hl

theorem skipBlank_of_optBlank (h : OptBlank ts us) (hus : us.head? ≠ some .blank) :
    skipBlank ts = us := by
  cases h with
  | blank => rfl
  | none =>
    unfold skipBlank
    split
    · simp at hus
    · rfl

theorem head_ne_blank (h : headIs isWSpace ts = false) : ts.head? ≠ some .blank := by
  cases ts with
  | nil => simp
  | cons l ts =>
    intro heq
    cases heq
    cases h

theorem skipSpace_cons (hl : l.isWSpace = true) (ts : CommandTokens) :
    skipSpace (l :: ts) = skipSpace ts :=
  List.dropWhile_cons_of_pos hl

theorem skipSpace_eq_self (h : headIs isWSpace ts = false) : skipSpace ts = ts := by
  cases ts with
  | nil => rfl
  | cons l ts => exact List.dropWhile_cons_of_neg (by simpa using h)

theorem skipSpace_of_spaces (h : Spaces ts us) (hus : headIs isWSpace us = false) :
    skipSpace ts = us := by
  induction h with
  | none => exact skipSpace_eq_self hus
  | more hl _ ih => rw [skipSpace_cons hl, ih hus]

theorem readSpace_of_wspace (h : WSpace ts us) (hus : headIs isWSpace us = false) :
    readSpace ts = some us := by
  cases h with
  | mk hl h => simp [readSpace, hl, skipSpace_cons hl, skipSpace_of_spaces h hus]

theorem skipSpace_of_readSpace (h : readSpace ts = some us) :
    headIs isWSpace ts = true ∧ skipSpace ts = us := by
  unfold readSpace at h
  split_ifs at h with hhead
  exact ⟨hhead, by simpa using h⟩

theorem WSpace.spaces (h : WSpace ts us) : Spaces ts us := by
  cases h with
  | mk hl h => exact .more hl h

theorem Lines.spaces (h : Lines ts us) : Spaces ts us := by
  induction h with
  | last h => cases h with
    | none => exact .none
    | blank => exact .more rfl .none
  | line h _ ih => cases h with
    | none => exact .more rfl ih
    | blank => exact .more rfl (.more rfl ih)

/-- Only the first token that is no space counts for what is behind the lines. -/
theorem skipLines_startsCommand (h : Spaces ts us) (hus : headIs isWSpace us = false)
    (hcommand : headIs startsCommand us = false) : headIs startsCommand (skipLines ts) = false := by
  by_contra hne
  have hstarts : headIs startsCommand (skipLines ts) = true := by simpa using hne
  have hskip := skipSpace_of_spaces (lines_skipLines ts).spaces (headIs_isWSpace_of_command hstarts)
  rw [← hskip, skipSpace_of_spaces h hus, hcommand] at hstarts
  cases hstarts

theorem skipLines_eq_self (h : headIs isWSpace ts = false) : skipLines ts = ts := by
  unfold skipLines
  split <;> first | rfl | cases h

theorem skipLines_blank (h : headIs isWSpace ts = false) : skipLines (.blank :: ts) = ts := by
  unfold skipLines
  split
  · next heq =>
    cases heq
    cases h
  · next heq => cases heq
  · next heq =>
    cases heq
    rfl
  · next _ _ hne => exact absurd rfl (hne ts)

theorem skipLines_of_lines (h : Lines ts us) (hus : headIs isWSpace us = false) :
    skipLines ts = us := by
  induction h with
  | last h => cases h with
    | none => exact skipLines_eq_self hus
    | blank => exact skipLines_blank hus
  | line h _ ih => cases h with
    | none => exact ih hus
    | blank => exact ih hus

/-- The next token has no node of this kind. -/
def noNode (node? : CommandLexeme → Option AstNode) (ts : CommandTokens) : Bool :=
  !headIs (fun l => (node? l).isSome) ts

theorem readRun_of_run (h : Run node? ts f us) (hus : noNode node? us = true) :
    readRun node? ts = (f, us) := by
  induction h with
  | @nil ts =>
    cases ts with
    | nil => rfl
    | cons l ts =>
      have hl : node? l = none := by simpa [noNode] using hus
      simp [readRun, hl]
  | cons hl _ ih => simp [readRun, hl, ih hus]

theorem readString_of_str (h : Str first? node? ts f us) (hus : noNode node? us = true) :
    readString first? node? ts = some (f, us) := by
  cases h with
  | mk hl h => simp [readString, hl, readRun_of_run h hus]

theorem commandName_eq (h : CommandName ts f us) (hus : noNode stringPart? us = true) :
    commandName ts = some (f, us) := by
  cases h with
  | redirection => rfl
  | word h =>
    have hread : stringExprNoReservedWord ts = some (f, us) := readString_of_str h hus
    unfold commandName
    split
    · obtain ⟨hl, -⟩ := h
      cases hl
    · exact hread

/-- The next token is no here document. -/
def noHereDocument (ts : CommandTokens) : Bool := !headIs (· matches .hereDocument _) ts

theorem hereDocument_eq {doc : List AstNode} (h : OptHereDocument ts doc us)
    (hus : noHereDocument us = true) : hereDocument ts = (doc, us) := by
  cases h with
  | some => rfl
  | none =>
    unfold hereDocument
    split
    · cases hus
    · rfl

theorem redirection_of_redirected {redirs doc : List AstNode} (h : Redirected ts redirs doc us)
    (hus : noNode redirection? us = true) (hdoc : noHereDocument us = true) :
    ∃ vs, redirection ts = (redirs, vs) ∧ hereDocument vs = (doc, us) := by
  cases h with
  | hereDocument => exact ⟨_, rfl, rfl⟩
  | redirection hl h hopt =>
    refine ⟨_, readRun_of_run (.cons hl h) ?_, hereDocument_eq hopt hdoc⟩
    cases hopt with
    | none => exact hus
    | some => rfl

theorem readMark_none_of_head {m m' : CommandMark} (h : m' ≠ m) (ts : CommandTokens) :
    readMark m (.mark m' :: ts) = none := by
  simp [readMark, h]

theorem optArithmetics_eq {e : Option rawLeaves.Arith} (h : OptArithmetics ts e us)
    (hus : e = none → headIs (· matches .arithmetics _) (skipBlank us) = false) :
    readArithmetics ts = (e, us) := by
  unfold readArithmetics
  cases h with
  | none =>
    have hnone := hus rfl
    split
    · next heq =>
      rw [heq] at hnone
      cases hnone
    · rfl
  | some h => rw [skipBlank_of_optBlank h (by simp)]

theorem forArithmetics_eq {e : Option rawLeaves.Arith} (h : ForArithmetics ts e us)
    (hus : us.head? ≠ some .blank) (harith : headIs (· matches .arithmetics _) us = false) :
    forArithmetics ts = (e, us) := by
  obtain ⟨h, hblank⟩ := h
  have hskip := skipBlank_of_optBlank hblank hus
  rw [forArithmetics, optArithmetics_eq h fun _ => by rw [hskip, harith], hskip]

theorem forCondition_eq {e : Option rawLeaves.Arith} (h : ForCondition ts e us) :
    forCondition ts = some (e, us) := by
  cases h with
  | doubleSemic => rfl
  | semics h =>
    have hread := forArithmetics_eq h (by simp) rfl
    simp [forCondition, hread, readMark]

theorem readMark_eol_of_optEol (h : OptEol ts us) (hus : us.head? ≠ some .eol) :
    (readMark .eol ts).getD ts = us := by
  cases h with
  | eol => rfl
  | none =>
    cases hread : readMark .eol ts with
    | none => rfl
    | some vs =>
      rw [readMark_eq_some] at hread
      rw [hread] at hus
      simp at hus

/-! ## What the end of a rule asks of the tokens behind it -/

/-- The tokens do not go on with what `command_atom` ends with. -/
structure EndsAtom (q : Tail) (ts : CommandTokens) : Prop where
  tail : TailEnds q ts
  word : noNode argumentAtom? ts = true
  name : startsWordAfterBlank name? ts = false
  parens : readParens ts = none

structure EndsCommand (q : Tail) (ts : CommandTokens) : Prop extends EndsAtom q ts where
  redirection : noNode redirection? ts = true
  hereDocument : noHereDocument ts = true

structure EndsPipeline (q : Tail) (ts : CommandTokens) : Prop extends EndsCommand q ts where
  pipe : readMark .pipe (skipBlank ts) = none

structure EndsLogic (q : Tail) (ts : CommandTokens) : Prop extends EndsPipeline q ts where
  logic : logicOperator ts = none

structure EndsList (q : Tail) (ts : CommandTokens) : Prop extends EndsLogic q ts where
  next : nextCommand ts = none

/-- Nothing of a command can begin here. -/
def quiet : CommandTokens → Bool
  | [] => true
  | .mark m :: _ => m ≠ .lparen
  | .word .esacTok _ :: _ => true
  | _ => false

theorem endsCommand_of_quiet (htail : TailEnds q ts) (hword : noNode argumentAtom? ts = true)
    (hquiet : quiet (skipBlank ts) = true) : EndsCommand q ts where
  tail := htail
  word := hword
  name := by
    unfold startsWordAfterBlank
    split
    · next l us =>
      have hl : quiet (l :: us) = true := hquiet
      cases l with
      | mark m => rfl
      | word w t => cases w <;> first | rfl | cases hl
      | _ => cases hl
    · rfl
  parens := by
    unfold readParens
    cases hmark : readMark .lparen (skipBlank ts) with
    | none => rfl
    | some us =>
      rw [readMark_eq_some] at hmark
      rw [hmark] at hquiet
      cases hquiet
  redirection := by
    cases ts with
    | nil => rfl
    | cons l ts => cases l with
      | redirection | processSubstitution => cases hquiet
      | _ => rfl
  hereDocument := by
    cases ts with
    | nil => rfl
    | cons l ts => cases l with
      | hereDocument => cases hquiet
      | _ => rfl

/-! ### A mark behind the command -/

theorem endsCommand_of_mark {m : CommandMark} (h : OptBlank ts (.mark m :: us)) (hm : m ≠ .blank)
    (hparen : m ≠ .lparen) (htail : TailEnds q ts) : EndsCommand q ts := by
  have hskip : skipBlank ts = .mark m :: us := skipBlank_of_optBlank h (by simpa using hm)
  refine endsCommand_of_quiet htail ?_ ?_
  · cases h <;> rfl
  · rw [hskip]
    simpa [quiet] using hparen

/-- A mark that is no space is nothing that a loop at the end would take. -/
theorem tailEnds_of_mark {m : CommandMark} (h : OptBlank ts (.mark m :: us)) (hm : m ≠ .blank)
    (heol : m ≠ .eol) (hparen : m ≠ .lparen) : TailEnds q ts := by
  cases q with
  | closed => trivial
  | arguments => cases h <;> cases m <;> first | rfl | contradiction
  | clauses => cases h <;> cases m <;> first | rfl | contradiction

/-- The end of a line, and behind it a token that neither begins a clause nor is `ESAC`. -/
theorem tailEnds_of_eol (h : OptBlank ts (.eol :: us)) (hspace : Spaces us vs)
    (hvs : headIs isWSpace vs = false) (hclause : headIs startsClause vs = false)
    (hesac : readWord .esacTok vs = none) : TailEnds q ts := by
  have hskip : skipSpace ts = vs := by
    cases h with
    | none => exact skipSpace_of_spaces (.more rfl hspace) hvs
    | blank => exact skipSpace_of_spaces (.more rfl (.more rfl hspace)) hvs
  have hread : readSpace ts = some vs := by
    rw [readSpace, hskip]
    cases h <;> rfl
  cases q with
  | closed => trivial
  | arguments => cases h <;> rfl
  | clauses => simp [TailEnds, clausesEnd, readEsac, hread, hskip, hclause, hesac]

/-- A separator, with no clause and no `ESAC` behind it. -/
theorem tailEnds_of_separator {m : CommandMark} (h : OptBlank ts (.mark m :: us))
    (hm : m = .semic ∨ m = .eol ∨ m = .amp) (hspace : Spaces us vs)
    (hvs : headIs isWSpace vs = false) (hclause : headIs startsClause vs = false)
    (hesac : readWord .esacTok vs = none) : TailEnds q ts := by
  rcases hm with rfl | rfl | rfl
  · exact tailEnds_of_mark h (by simp) (by simp) (by simp)
  · exact tailEnds_of_eol h hspace hvs hclause hesac
  · exact tailEnds_of_mark h (by simp) (by simp) (by simp)

theorem endsCommand_of_pipe (h : OptBlank ts (.mark .pipe :: us)) : EndsCommand q ts :=
  endsCommand_of_mark h nofun nofun (tailEnds_of_mark h nofun nofun nofun)

theorem endsPipeline_of_logic {m : CommandMark} {ty : TokenType}
    (h : OptBlank ts (.mark m :: us)) (hm : LogicMark m ty) : EndsPipeline q ts := by
  have hne : m ≠ .blank ∧ m ≠ .eol ∧ m ≠ .lparen ∧ m ≠ .pipe := by
    cases hm <;> exact ⟨nofun, nofun, nofun, nofun⟩
  obtain ⟨hblank, heol, hparen, hpipe⟩ := hne
  have hskip := skipBlank_of_optBlank h (by simpa using hblank)
  exact {
    toEndsCommand := endsCommand_of_mark h hblank hparen (tailEnds_of_mark h hblank heol hparen)
    pipe := by rw [hskip, readMark_none_of_head hpipe] }

/-- The marks of `command_separator`. -/
theorem commandSeparator_eq_some {sep : List AstNode} (h : commandSeparator ts = some (sep, us)) :
    ∃ m, ts = .mark m :: us ∧ (m = .semic ∨ m = .eol ∨ m = .amp) := by
  unfold commandSeparator at h
  split at h <;> simp_all

theorem endsLogic_of_mark {m : CommandMark} (h : OptBlank ts (.mark m :: us))
    (hm : m = .semic ∨ m = .eol ∨ m = .amp ∨ m = .doubleSemic) (htail : TailEnds q ts) :
    EndsLogic q ts := by
  have hblank : m ≠ .blank := by rcases hm with rfl | rfl | rfl | rfl <;> nofun
  have hskip := skipBlank_of_optBlank h (by simpa using hblank)
  exact {
    toEndsCommand := endsCommand_of_mark h hblank
      (by rcases hm with rfl | rfl | rfl | rfl <;> nofun) htail
    pipe := by
      rw [hskip, readMark_none_of_head (by rcases hm with rfl | rfl | rfl | rfl <;> nofun)]
    logic := by
      unfold logicOperator
      rw [hskip]
      rcases hm with rfl | rfl | rfl | rfl <;> rfl }

/-- A separator, when the loop at the end is over. -/
theorem endsLogic_of_separator {sep : List AstNode} (h : OptBlank ts us)
    (hsep : commandSeparator us = some (sep, vs)) (htail : TailEnds q ts) : EndsLogic q ts := by
  obtain ⟨m, rfl, hm⟩ := commandSeparator_eq_some hsep
  exact endsLogic_of_mark h (by tauto) htail

/-! ### The ends of lists -/

/-- The words that stand behind `command_list semiel`. -/
def closesList : CommandLexeme → Bool
  | .word w _ =>
    match w with
    | .thenTok | .doTok | .doneTok | .elifTok | .elseTok | .fiTok | .rbrace => true
    | _ => false
  | _ => false

/-- No list goes on with a word that closes it. -/
theorem closesList_spec (h : headIs closesList ts = true) :
    headIs isWSpace ts = false ∧ headIs startsCommand ts = false ∧
      headIs startsClause ts = false ∧ readWord .esacTok ts = none := by
  obtain ⟨l, us, rfl, hl⟩ := headIs_eq_true.mp h
  cases l with
  | word w t => cases w <;> first | exact ⟨rfl, rfl, rfl, rfl⟩ | cases hl
  | _ => cases hl

theorem nextCommand_of_mark {m : CommandMark} (h : OptBlank ts (.mark m :: us))
    (hspace : Spaces us vs) (hvs : headIs isWSpace vs = false)
    (hcommand : headIs startsCommand vs = false) (hm : m ≠ .blank) : nextCommand ts = none := by
  have hlines := skipLines_startsCommand hspace hvs hcommand
  unfold nextCommand
  rw [skipBlank_of_optBlank h (by simpa using hm)]
  cases m <;> simp [commandSeparator, hlines]

theorem endsList_of_semiel (h : Semiel ts us) (hus : headIs closesList us = true) :
    EndsList q ts := by
  obtain ⟨hnotSpace, hcommand, hclause, hesac⟩ := closesList_spec hus
  obtain ⟨hblank, hm, hspace⟩ := h
  have htail : TailEnds q ts :=
    tailEnds_of_separator hblank (by tauto) hspace hnotSpace hclause hesac
  exact {
    toEndsLogic := endsLogic_of_mark hblank (by tauto) htail
    next := nextCommand_of_mark hblank hspace hnotSpace hcommand
      (by rcases hm with rfl | rfl <;> nofun) }

/-- The tokens that close a clause or a subshell. -/
def closesClause : CommandLexeme → Bool
  | .mark .doubleSemic | .mark .rparen | .word .esacTok _ => true
  | _ => false

/-- Behind `BLANK?` there is the token that closes the list, or more space. -/
theorem skipBlank_of_spaces (h : Spaces ts (l :: us)) (hl : closesClause l = true) :
    ∃ l' vs, skipBlank ts = l' :: vs ∧
      (l' = l ∧ vs = us ∨ l'.isWSpace = true ∧ Spaces vs (l :: us)) := by
  have hblank : l ≠ .blank := by
    rintro rfl
    cases hl
  cases h with
  | none => exact ⟨l, us, skipBlank_of_optBlank .none (by simpa using hblank), .inl ⟨rfl, rfl⟩⟩
  | @more l' vs _ hl' h =>
    by_cases hb : l' = .blank
    · rw [hb]
      cases h with
      | none => exact ⟨l, us, rfl, .inl ⟨rfl, rfl⟩⟩
      | more hl' h => exact ⟨_, _, rfl, .inr ⟨hl', h⟩⟩
    · exact ⟨l', vs, skipBlank_of_optBlank .none (by simpa using hb), .inr ⟨hl', h⟩⟩

theorem closesClause_spec (hl : closesClause l = true) :
    l.isWSpace = false ∧ l.startsCommand = false := by
  cases l with
  | mark m => cases m <;> first | exact ⟨rfl, rfl⟩ | cases hl
  | word w t => cases w <;> first | exact ⟨rfl, rfl⟩ | cases hl
  | _ => cases hl

/-- Nothing of a command begins with a token that closes its list or with space. -/
theorem quiet_of_closer (ts : CommandTokens) (hl : closesClause l = true ∨ l.isWSpace = true) :
    quiet (l :: ts) = true ∧ l ≠ .mark .pipe ∧ l ≠ .mark .logicAnd ∧ l ≠ .mark .logicOr ∧
      (l = .eol ∨ commandSeparator (l :: ts) = none) := by
  cases l with
  | mark m => cases m <;> simp_all [closesClause, isWSpace, quiet, commandSeparator]
  | word w t => cases w <;> simp_all [closesClause, isWSpace, quiet, commandSeparator]
  | _ => simp [closesClause, isWSpace] at hl

theorem endsList_of_closesClause (h : Spaces ts (l :: us)) (hl : closesClause l = true)
    (htail : TailEnds q ts) (hword : noNode argumentAtom? ts = true) : EndsList q ts := by
  obtain ⟨l', vs, hskip, hcases⟩ := skipBlank_of_spaces h hl
  have hl' : closesClause l' = true ∨ l'.isWSpace = true := by
    rcases hcases with ⟨rfl, -⟩ | ⟨hl', -⟩
    · exact .inl hl
    · exact .inr hl'
  obtain ⟨hquiet, hpipe, hand, hor, hsep⟩ := quiet_of_closer vs hl'
  exact {
    toEndsCommand := endsCommand_of_quiet htail hword (by rw [hskip]; exact hquiet)
    pipe := by
      rw [hskip]
      unfold readMark
      split <;> simp_all
    logic := by
      unfold logicOperator
      rw [hskip]
      split <;> simp_all
    next := by
      unfold nextCommand
      rw [hskip]
      rcases hsep with rfl | hsep
      · rcases hcases with ⟨rfl, -⟩ | ⟨-, hvs⟩
        · cases hl
        · have hlines := skipLines_startsCommand hvs
            (closesClause_spec hl).1 (closesClause_spec hl).2
          simp [commandSeparator, hlines]
      · simp [hsep] }

theorem noNode_of_wspace (h : WSpace ts us) : noNode argumentAtom? ts = true := by
  cases h with
  | @mk l _ _ hl _ => cases l with
    | mark m => rfl
    | _ => cases hl

theorem noNode_of_mark {m : CommandMark} (h : Spaces ts (.mark m :: us)) :
    noNode argumentAtom? ts = true := by
  cases h with
  | none => rfl
  | more hl h => exact noNode_of_wspace (.mk hl h)

theorem tailEnds_of_closer {m : CommandMark} (h : Spaces ts (.mark m :: us))
    (hm : m = .doubleSemic ∨ m = .rparen) : TailEnds q ts := by
  have hskip : skipSpace ts = .mark m :: us :=
    skipSpace_of_spaces h (by rcases hm with rfl | rfl <;> rfl)
  cases q with
  | closed => trivial
  | arguments =>
    cases h with
    | none => rcases hm with rfl | rfl <;> rfl
    | more hl h =>
      have hnone := noNode_of_mark h
      simp only [TailEnds, startsWordAfterBlank]
      split
      · next heq =>
        cases heq
        simpa [noNode] using hnone
      · rfl
  | clauses =>
    simp only [TailEnds, clausesEnd, readEsac, readSpace, hskip]
    rcases hm with rfl | rfl <;> split <;> rfl

/-- The end of a list in a clause or a subshell. -/
theorem endsList_of_closer {m : CommandMark} (h : Spaces ts (.mark m :: us))
    (hm : m = .doubleSemic ∨ m = .rparen) : EndsList q ts :=
  endsList_of_closesClause h (by rcases hm with rfl | rfl <;> rfl) (tailEnds_of_closer h hm)
    (noNode_of_mark h)

/-- What `subshell` has behind its list. -/
theorem endsList_of_subshell (hsemic : OptSemic ts us) (h : Spaces us (.mark .rparen :: vs)) :
    EndsList q ts := by
  cases hsemic with
  | none => exact endsList_of_closer h (.inr rfl)
  | semic hblank =>
    have htail : TailEnds q ts := tailEnds_of_separator hblank (.inl rfl) h rfl rfl rfl
    exact {
      toEndsLogic := endsLogic_of_mark hblank (.inl rfl) htail
      next := nextCommand_of_mark hblank h rfl rfl (by simp) }

/-- What stands behind the commands of a clause. -/
structure EndsClause (q : Tail) (ts : CommandTokens) : Prop extends EndsList q ts where
  commands : headIs startsCommand (skipSpace ts) = false

theorem endsClause_of_doubleSemic (h : Spaces ts (.mark .doubleSemic :: us)) :
    EndsClause q ts where
  toEndsList := endsList_of_closer h (.inl rfl)
  commands := by
    rw [skipSpace_of_spaces h rfl]
    rfl

theorem endsClause_of_esac {t : AstNode} (h : WSpace ts (.word .esacTok t :: us))
    (htail : TailEnds q ts) : EndsClause q ts where
  toEndsList := endsList_of_closesClause h.spaces rfl htail (noNode_of_wspace h)
  commands := by
    rw [skipSpace_of_spaces h.spaces rfl]
    rfl

/-- `BLANK? (SEMIC|AMP|EOL)? EOF`. -/
theorem endsList_of_endOfScript (h : OptBlank ts us)
    (hus : us = [] ∨ ∃ m, us = [.mark m] ∧ (m = .semic ∨ m = .amp ∨ m = .eol)) :
    EndsList q ts := by
  rcases hus with rfl | ⟨m, rfl, hm⟩
  · have hskip : skipBlank ts = [] := skipBlank_of_optBlank h (by simp)
    have htail : TailEnds q ts := by
      cases q with
      | closed => trivial
      | arguments => cases h <;> rfl
      | clauses => cases h <;> rfl
    exact {
      toEndsCommand := endsCommand_of_quiet htail (by cases h <;> rfl) (by rw [hskip]; rfl)
      pipe := by rw [hskip]; rfl
      logic := by rw [logicOperator, hskip]
      next := by rw [nextCommand, hskip]; rfl }
  · have htail : TailEnds q ts := tailEnds_of_separator h (by tauto) .none rfl rfl rfl
    have hblank : m ≠ .blank := by
      rcases hm with rfl | rfl | rfl <;> simp
    exact {
      toEndsLogic := endsLogic_of_mark h (by tauto) htail
      next := nextCommand_of_mark h .none rfl rfl hblank }

/-- The redirections and the here document of the command. -/
theorem endsAtom_of_redirected {redirs doc : List AstNode} (h : Redirected ts redirs doc us) :
    EndsAtom q ts := by
  cases h with
  | hereDocument => exact ⟨by cases q <;> trivial, rfl, rfl, rfl⟩
  | @redirection l _ _ _ _ _ _ hl _ _ =>
    unfold redirection? at hl
    split at hl
    · exact ⟨by cases q <;> trivial, rfl, rfl, rfl⟩
    · exact ⟨by cases q <;> trivial, rfl, rfl, rfl⟩
    · cases hl

end CommandParser

end Libbash
