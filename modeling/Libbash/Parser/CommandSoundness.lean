import Libbash.Parser.CommandGrammar

/-!
# The parser accepts only what the grammar derives

Each rule is sound when the rules it calls are (`body_sound`), so those of any
depth are, and `start_sound` is what they make of a script.
-/

namespace Libbash

open Lib CommandLexeme

namespace CommandParser

variable {greedy : Bool} {ts us vs : CommandTokens} {f : List AstNode}
  {first? node? : CommandLexeme → Option AstNode}

/-! ## Space, words and the like -/

theorem optBlank_skipBlank (ts : CommandTokens) : OptBlank ts (skipBlank ts) := by
  unfold skipBlank
  split
  · exact .blank
  · exact .none

theorem spaces_skipSpace (ts : CommandTokens) : Spaces ts (skipSpace ts) := by
  induction ts with
  | nil => exact .none
  | cons l ts ih =>
    unfold skipSpace at ih ⊢
    by_cases hl : l.isWSpace = true
    · rw [List.dropWhile_cons_of_pos hl]
      exact .more hl ih
    · rw [List.dropWhile_cons_of_neg hl]
      exact .none

theorem readMark_eq_some {m : CommandMark} : readMark m ts = some us ↔ ts = .mark m :: us := by
  unfold readMark
  split
  · split_ifs with hm
    · simp [hm]
    · simp [hm]
  · next hne => simpa using hne m us

@[simp] theorem readMark_self (m : CommandMark) (ts : CommandTokens) :
    readMark m (.mark m :: ts) = some ts := by
  rw [readMark_eq_some]

theorem readWord_eq_some {w : WordToken} :
    readWord w ts = some us ↔ ∃ t, ts = .word w t :: us := by
  unfold readWord
  split
  · split_ifs with hw
    · simp [hw]
    · simp [hw]
  · next hne => simpa using fun t => hne w t us

@[simp] theorem readWord_self (w : WordToken) (t : AstNode) (ts : CommandTokens) :
    readWord w (.word w t :: ts) = some ts :=
  readWord_eq_some.mpr ⟨t, rfl⟩

theorem headIs_eq_true {p : CommandLexeme → Bool} :
    headIs p ts = true ↔ ∃ l us, ts = l :: us ∧ p l = true := by
  cases ts with
  | nil => simp [headIs]
  | cons l us => simp [headIs]

theorem wspace_of_readSpace (h : readSpace ts = some us) : WSpace ts us := by
  unfold readSpace at h
  split_ifs at h with hhead
  obtain ⟨l, vs, rfl, hl⟩ := headIs_eq_true.mp hhead
  cases h
  unfold skipSpace
  rw [List.dropWhile_cons_of_pos hl]
  exact .mk hl (spaces_skipSpace vs)

theorem lines_skipLines (ts : CommandTokens) : Lines ts (skipLines ts) := by
  fun_induction skipLines ts with
  | case1 ts ih => exact .line .blank ih
  | case2 ts ih => exact .line .none ih
  | case3 ts => exact .last .blank
  | case4 ts => exact .last .none

theorem semiel_of_eq_some (h : semiel ts = some us) : Semiel ts us := by
  unfold semiel at h
  have hblank := optBlank_skipBlank ts
  cases hskip : skipBlank ts with
  | nil => simp [hskip, readEnd] at h
  | cons l vs =>
    rw [hskip] at h hblank
    unfold readEnd at h
    split at h <;> simp_all
    · exact .mk hblank (.inl rfl) (h ▸ spaces_skipSpace _)
    · exact .mk hblank (.inr rfl) (h ▸ spaces_skipSpace _)

theorem parens_of_readParens (h : readParens ts = some us) : Parens ts us := by
  unfold readParens at h
  simp only [Option.bind_eq_bind, Option.bind_eq_some_iff, readMark_eq_some] at h
  obtain ⟨vs, hl, hr⟩ := h
  exact .mk (hl ▸ optBlank_skipBlank ts) (hr ▸ optBlank_skipBlank vs)

theorem run_readRun (node? : CommandLexeme → Option AstNode) (ts : CommandTokens) :
    Run node? ts (readRun node? ts).1 (readRun node? ts).2 := by
  fun_induction readRun node? ts with
  | case1 => exact .nil
  | case2 l ts t hl ih => exact .cons hl ih
  | case3 l ts hl => exact .nil

theorem str_of_readString (h : readString first? node? ts = some (f, us)) :
    Str first? node? ts f us := by
  unfold readString at h
  split at h
  · cases h
  · next l ts =>
    split at h
    · next t hl =>
      cases h
      exact .mk hl (run_readRun node? ts)
    · cases h

theorem commandName_of_eq_some (h : commandName ts = some (f, us)) : CommandName ts f us := by
  unfold commandName at h
  split at h
  · cases h
    exact .redirection
  · exact .word (str_of_readString h)

theorem optHereDocument_hereDocument (ts : CommandTokens) :
    OptHereDocument ts (hereDocument ts).1 (hereDocument ts).2 := by
  unfold hereDocument
  split
  · exact .some
  · exact .none

theorem timePosix_eq_some {t : AstNode} (h : timePosix ts = some (t, us)) :
    ∃ m l, ts = m :: l :: .blank :: us ∧ m.isMinus = true ∧ l.letter? = some t := by
  unfold timePosix at h
  split at h
  · next m l vs =>
    split_ifs at h with hm
    obtain ⟨u, hl, heq⟩ := Option.map_eq_some_iff.mp h
    cases heq
    exact ⟨m, l, rfl, hm, hl⟩
  · cases h

theorem timePrefix_of_eq_some (h : timePrefix ts = some (f, us)) : TimePrefix ts f us := by
  unfold timePrefix at h
  split at h
  · simp only [Option.bind_eq_bind, Option.bind_eq_some_iff, readMark_eq_some] at h
    obtain ⟨vs, rfl, h⟩ := h
    split at h
    · next hposix =>
      cases h
      obtain ⟨m, l, rfl, hm, hl⟩ := timePosix_eq_some hposix
      exact .posix hm hl
    · next hposix =>
      cases h
      exact .time hposix
  · cases h
    exact .none

theorem bangPrefix_of_eq_some (h : bangPrefix ts = some (f, us)) : BangPrefix ts f us := by
  unfold bangPrefix at h
  split at h
  · simp only [Option.bind_eq_bind, Option.bind_eq_some_iff, readMark_eq_some] at h
    obtain ⟨vs, rfl, h⟩ := h
    cases h
    exact .bang
  · next hbang =>
    cases h
    refine .none ?_
    cases ts with
    | nil => rfl
    | cons l ts => cases l <;> simp_all [headIs]

theorem selectWord_of_eq_some (h : selectWord ts = some (f, us)) : SelectWord ts f us := by
  unfold selectWord at h
  split at h
  · next hspace =>
    simp only [Option.bind_eq_bind, Option.bind_eq_some_iff, readMark_eq_some] at h
    obtain ⟨vs, rfl, h⟩ := h
    exact .word (wspace_of_readSpace hspace) (str_of_readString h)
  · cases h
    exact .none

theorem optSemic_readMark (ts : CommandTokens) :
    OptSemic ts ((readMark .semic (skipBlank ts)).getD ts) := by
  cases h : readMark .semic (skipBlank ts) with
  | none => exact .none
  | some us =>
    rw [readMark_eq_some] at h
    exact .semic (h ▸ optBlank_skipBlank ts)

theorem optArithmetics_readArithmetics (ts : CommandTokens) :
    OptArithmetics ts (readArithmetics ts).1 (readArithmetics ts).2 := by
  unfold readArithmetics
  split
  · next e us heq => exact .some (heq ▸ optBlank_skipBlank ts)
  · exact .none

theorem forArithmetics_spec (ts : CommandTokens) :
    ForArithmetics ts (forArithmetics ts).1 (forArithmetics ts).2 :=
  .mk (optArithmetics_readArithmetics ts) (optBlank_skipBlank _)

theorem forCondition_of_eq_some {e : Option rawLeaves.Arith}
    (h : forCondition ts = some (e, us)) : ForCondition ts e us := by
  unfold forCondition at h
  split at h
  · next ts =>
    simp only [Option.bind_eq_bind, Option.bind_eq_some_iff, readMark_eq_some, Option.some.injEq,
      Prod.mk.injEq] at h
    obtain ⟨vs, hsemic, rfl, rfl⟩ := h
    exact .semics (hsemic ▸ forArithmetics_spec ts)
  · cases h
    exact .doubleSemic
  · cases h

theorem optEol_readMark (ts : CommandTokens) : OptEol ts ((readMark .eol ts).getD ts) := by
  cases h : readMark .eol ts with
  | none => exact .none
  | some us =>
    rw [readMark_eq_some] at h
    rw [h]
    exact .eol

/-! ## Rules -/

/-- The grammar derives it, and the loop at its end is over. -/
def Derivable (greedy : Bool) : Derivation CommandRule CommandLexeme (List AstNode) :=
  fun r ts f us => ∀ p, TailEnds p ts → ∃ q, Derives true greedy p q r ts f us ∧ TailEnds q us

theorem nextCommand_eq_some {sep : List AstNode} (hnext : nextCommand ts = some (sep, us)) :
    ∃ vs ws, OptBlank ts vs ∧ commandSeparator vs = some (sep, ws) ∧ Lines ws us := by
  simp only [nextCommand, Option.bind_eq_bind, Option.bind_eq_some_iff, Prod.exists] at hnext
  obtain ⟨f, ws, hsep, hif⟩ := hnext
  split_ifs at hif
  cases hif
  exact ⟨_, ws, optBlank_skipBlank ts, hsep, lines_skipLines ws⟩

theorem logicOperator_eq_some {ty : TokenType} (hop : logicOperator ts = some (ty, us)) :
    ∃ m, OptBlank ts (.mark m :: us) ∧ LogicMark m ty := by
  have hblank := optBlank_skipBlank ts
  unfold logicOperator at hop
  split at hop
  · next heq =>
    cases hop
    exact ⟨_, heq ▸ hblank, .and⟩
  · next heq =>
    cases hop
    exact ⟨_, heq ▸ hblank, .or⟩
  · cases hop

theorem functionParens_of_eq_some (hread : functionParens ts = some us) :
    FunctionParens ts us := by
  unfold functionParens at hread
  split at hread
  · next vs hparens =>
    cases hread
    exact .parens (parens_of_readParens hparens) (spaces_skipSpace vs)
  · exact .wspace (wspace_of_readSpace hread)

theorem optLparen_skipLparen (ts : CommandTokens) : OptLparen ts (skipLparen ts) := by
  unfold skipLparen
  split
  · exact .lparen (optBlank_skipBlank _)
  · exact .none

theorem esac_of_readEsac (hread : readEsac ts = some us) :
    ∃ t, WSpace ts (.word .esacTok t :: us) := by
  simp only [readEsac, Option.bind_eq_bind, Option.bind_eq_some_iff, readWord_eq_some] at hread
  obtain ⟨_, hspace, t, rfl⟩ := hread
  exact ⟨t, wspace_of_readSpace hspace⟩

section Rules

variable {rules : Rules CommandRule CommandLexeme (List AstNode)}
  (h : rules.Sound (Derivable greedy))

include h

/-! ### Lists and pipelines -/

theorem commandList_sound (hread : commandList rules ts = some (f, us)) :
    Derivable greedy .commandList ts f us := by
  intro p hp
  simp only [commandList, Option.bind_eq_bind, Option.bind_eq_some_iff, Prod.exists,
    Option.some.injEq, Prod.mk.injEq] at hread
  obtain ⟨l, vs, hfirst, cs, ws, hrest, rfl, rfl⟩ := hread
  obtain ⟨q, hq, hqe⟩ := h hfirst .closed trivial
  obtain ⟨r, hr, hre⟩ := h hrest q hqe
  exact ⟨r, .commandList hq hr, hre⟩

theorem listRest_sound (hread : listRest rules ts = some (f, us)) :
    Derivable greedy .listRest ts f us := by
  intro p hp
  unfold listRest at hread
  split at hread
  · next sep vs hnext =>
    simp only [Option.bind_eq_bind, Option.bind_eq_some_iff, Prod.exists, Option.some.injEq,
      Prod.mk.injEq] at hread
    obtain ⟨l, ws, hfirst, cs, xs, hrest, rfl, rfl⟩ := hread
    obtain ⟨_, _, hblank, hsep, hlines⟩ := nextCommand_eq_some hnext
    obtain ⟨q, hq, hqe⟩ := h hfirst .closed trivial
    obtain ⟨r, hr, hre⟩ := h hrest q hqe
    exact ⟨r, .listNext (fun _ => hp) hblank hsep hlines (.inl rfl) hq hr, hre⟩
  · cases hread
    exact ⟨p, .listEnd, hp⟩

theorem listLevel1_sound (hread : listLevel1 rules ts = some (f, us)) :
    Derivable greedy .listLevel1 ts f us := by
  intro p hp
  simp only [listLevel1, Option.bind_eq_bind, Option.bind_eq_some_iff, Prod.exists] at hread
  obtain ⟨l, vs, hfirst, hrest⟩ := hread
  obtain ⟨q, hq, hqe⟩ := h hfirst .closed trivial
  obtain ⟨r, hr, hre⟩ := h hrest q hqe
  exact ⟨r, .listLevel1 hq hr, hre⟩

theorem logicRest_sound {l : List AstNode} (hread : logicRest rules l ts = some (f, us)) :
    Derivable greedy (.logicRest l) ts f us := by
  intro p hp
  unfold logicRest at hread
  split at hread
  · next ty vs hop =>
    simp only [Option.bind_eq_bind, Option.bind_eq_some_iff, Prod.exists] at hread
    obtain ⟨f', ws, hnext, hrest⟩ := hread
    obtain ⟨m, hblank, hm⟩ := logicOperator_eq_some hop
    obtain ⟨q, hq, hqe⟩ := h hnext .closed trivial
    obtain ⟨r, hr, hre⟩ := h hrest q hqe
    exact ⟨r, .logicNext hblank hm (spaces_skipSpace vs) hq hr, hre⟩
  · cases hread
    exact ⟨p, .logicEnd, hp⟩

theorem pipeline_sound (hread : pipeline rules ts = some (f, us)) :
    Derivable greedy .pipeline ts f us := by
  intro p hp
  simp only [pipeline, Option.bind_eq_bind, Option.bind_eq_some_iff, Prod.exists] at hread
  obtain ⟨time, vs, htime, bang, ws, hbang, c, xs, hfirst, hrest⟩ := hread
  obtain ⟨q, hq, hqe⟩ := h hfirst .closed trivial
  obtain ⟨r, hr, hre⟩ := h hrest q hqe
  exact ⟨r, .pipeline (timePrefix_of_eq_some htime) (bangPrefix_of_eq_some hbang) hq (.inl rfl) hr,
    hre⟩

theorem pipeRest_sound {l : List AstNode} (hread : pipeRest rules l ts = some (f, us)) :
    Derivable greedy (.pipeRest l) ts f us := by
  intro p hp
  unfold pipeRest at hread
  split at hread
  · next vs hpipe =>
    simp only [Option.bind_eq_bind, Option.bind_eq_some_iff, Prod.exists] at hread
    obtain ⟨f', ws, hnext, hrest⟩ := hread
    rw [readMark_eq_some] at hpipe
    obtain ⟨q, hq, hqe⟩ := h hnext .closed trivial
    obtain ⟨r, hr, hre⟩ := h hrest q hqe
    exact ⟨r, .pipeNext rfl (hpipe ▸ optBlank_skipBlank ts) (spaces_skipSpace vs) hq hr, hre⟩
  · cases hread
    exact ⟨p, .pipeEnd, hp⟩

/-! ### Commands -/

theorem command_sound (hread : command rules ts = some (f, us)) :
    Derivable greedy .command ts f us := by
  intro p hp
  simp only [command, Option.bind_eq_bind, Option.bind_eq_some_iff, Prod.exists,
    Option.some.injEq, Prod.mk.injEq] at hread
  obtain ⟨a, vs, hatom, rfl, rfl⟩ := hread
  obtain ⟨q, hq, hqe⟩ := h hatom .closed trivial
  have hredirs : Run redirection? vs (redirection vs).1 (redirection vs).2 := run_readRun _ vs
  have hdoc := optHereDocument_hereDocument (redirection vs).2
  generalize hereDocument (redirection vs).2 = out at hdoc ⊢
  generalize redirection vs = out' at hredirs hdoc ⊢
  obtain ⟨doc, xs⟩ := out
  obtain ⟨rs, ws⟩ := out'
  cases hredirs with
  | cons hl hredirs =>
    exact ⟨.closed, .redirected hq (.redirection hl hredirs hdoc) (.inl rfl), trivial⟩
  | nil =>
    cases hdoc with
    | some => exact ⟨.closed, .redirected hq .hereDocument (.inl rfl), trivial⟩
    | none =>
      refine ⟨q, ?_, hqe⟩
      rw [List.nil_append, List.append_nil]
      exact .command hq

theorem functionDefinition_sound {l : CommandLexeme} (hl : l.isFunction = true)
    (hread : functionDefinition rules ts = some (f, us)) :
    Derivable greedy .commandAtom (l :: .blank :: ts) f us := by
  intro p hp
  simp only [functionDefinition, Option.bind_eq_bind, Option.bind_eq_some_iff, Prod.exists,
    Option.some.injEq, Prod.mk.injEq] at hread
  obtain ⟨name, vs, hname, ws, hparens, c, xs, hbody, rfl, rfl⟩ := hread
  obtain ⟨q, hq, hqe⟩ := h hbody .closed trivial
  exact ⟨q, .functionWord hl (str_of_readString hname) (functionParens_of_eq_some hparens) hq, hqe⟩

theorem definitionsCommand_sound {trees : List AstNode}
    (hread : definitionsCommand rules trees ts = some (f, us)) :
    Derivable greedy .commandAtom (.definitions trees :: ts) f us := by
  intro p hp
  unfold definitionsCommand at hread
  split_ifs at hread with hblank
  · simp only [bashCommand, Option.bind_eq_bind, Option.bind_eq_some_iff, Prod.exists,
      Option.some.injEq, Prod.mk.injEq] at hread
    obtain ⟨_, _, ⟨name, vs, hname, args, ws, hargs, rfl, rfl⟩, rfl, rfl⟩ := hread
    obtain ⟨q, hq, hqe⟩ := h hargs .closed trivial
    unfold startsWordAfterBlank at hblank
    split at hblank
    · exact ⟨q, .definitionsCommand (str_of_readString hname) hq, hqe⟩
    · cases hblank
  · cases hread
    exact ⟨.closed, .definitions, trivial⟩

theorem namedCommand_sound (hcompound : headIs CommandLexeme.startsCompound ts = false)
    (hfunction : startsFunction ts = false) (hread : namedCommand rules ts = some (f, us)) :
    Derivable greedy .commandAtom ts f us := by
  intro p hp
  simp only [namedCommand, Option.bind_eq_bind, Option.bind_eq_some_iff, Prod.exists] at hread
  obtain ⟨name, vs, hname, hread⟩ := hread
  have hstr := commandName_of_eq_some hname
  split at hread
  · next ws hparens =>
    simp only [Option.bind_eq_some_iff, Prod.exists, Option.some.injEq, Prod.mk.injEq] at hread
    obtain ⟨c, xs, hbody, rfl, rfl⟩ := hread
    obtain ⟨q, hq, hqe⟩ := h hbody .closed trivial
    exact ⟨q, .functionParens hcompound hfunction hstr (parens_of_readParens hparens)
      (spaces_skipSpace ws) hq, hqe⟩
  · simp only [Option.bind_eq_some_iff, Prod.exists, Option.some.injEq, Prod.mk.injEq] at hread
    obtain ⟨args, ws, hargs, rfl, rfl⟩ := hread
    obtain ⟨q, hq, hqe⟩ := h hargs .closed trivial
    exact ⟨q, .simple hcompound hfunction hstr hq, hqe⟩

theorem commandAtom_sound (hread : commandAtom rules ts = some (f, us)) :
    Derivable greedy .commandAtom ts f us := by
  unfold commandAtom at hread
  split_ifs at hread with hcompound hfunction
  · intro p hp
    obtain ⟨q, hq, hqe⟩ := h hread .closed trivial
    exact ⟨q, .compound hq, hqe⟩
  · unfold startsFunction at hfunction
    split at hfunction
    · exact functionDefinition_sound h hfunction hread
    · cases hfunction
  · split at hread
    · exact definitionsCommand_sound h hread
    · cases hread
      exact fun p hp => ⟨.closed, .declaration, trivial⟩
    · exact namedCommand_sound h (by simpa using hcompound) (by simpa using hfunction) hread

theorem arguments_sound (hread : arguments rules ts = some (f, us)) :
    Derivable greedy .arguments ts f us := by
  intro p hp
  unfold arguments at hread
  split_ifs at hread with hblank
  · simp only [Option.bind_eq_bind, Option.bind_eq_some_iff, Prod.exists, Option.some.injEq,
      Prod.mk.injEq] at hread
    obtain ⟨a, vs, ha, args, ws, hrest, rfl, rfl⟩ := hread
    obtain ⟨q, hq, hqe⟩ := h hrest .closed trivial
    unfold startsWordAfterBlank at hblank
    split at hblank
    · exact ⟨q, .argumentsNext (str_of_readString ha) hq, hqe⟩
    · cases hblank
  · cases hread
    exact ⟨.arguments, .argumentsEnd, by simpa [TailEnds] using hblank⟩

/-! ### Compound commands -/

theorem terminatedList_sound (hread : terminatedList rules ts = some (f, us)) :
    Derivable greedy .terminatedList ts f us := by
  intro p hp
  simp only [terminatedList, Option.bind_eq_bind, Option.bind_eq_some_iff, Prod.exists,
    Option.some.injEq, Prod.mk.injEq] at hread
  obtain ⟨l, vs, hlist, ws, hend, rfl, rfl⟩ := hread
  obtain ⟨q, hq, hqe⟩ := h hlist .closed trivial
  exact ⟨.closed, .terminatedList hq (semiel_of_eq_some hend), trivial⟩

theorem block_sound {w : WordToken} (hread : block rules w ts = some (f, us)) :
    ∃ q t vs, WSpace ts vs ∧
      Derives true greedy .closed q .terminatedList vs f (.word w t :: us) := by
  simp only [block, Option.bind_eq_bind, Option.bind_eq_some_iff, Prod.exists, readWord_eq_some,
    Option.some.injEq, Prod.mk.injEq] at hread
  obtain ⟨vs, hspace, l, ws, hlist, xs, ⟨t, rfl⟩, rfl, rfl⟩ := hread
  obtain ⟨q, hq, hqe⟩ := h hlist .closed trivial
  exact ⟨q, t, vs, wspace_of_readSpace hspace, hq⟩

theorem doGroup_sound (hread : doGroup rules ts = some (f, us)) :
    Derivable greedy .doGroup ts f us := by
  intro p hp
  simp only [doGroup, Option.bind_eq_bind, Option.bind_eq_some_iff, readWord_eq_some] at hread
  obtain ⟨vs, ⟨t, rfl⟩, hblock⟩ := hread
  obtain ⟨q, t', ws, hspace, hq⟩ := block_sound h hblock
  exact ⟨.closed, .doGroup hspace hq, trivial⟩

theorem whileExpr_sound {negate : Bool} {w : WordToken} {t : AstNode}
    (hw : w = if negate then .untilTok else .whileTok)
    (hread : whileExpr rules negate ts = some (f, us)) :
    Derivable greedy .compoundCommand (.word w t :: ts) f us := by
  intro p hp
  simp only [whileExpr, Option.bind_eq_bind, Option.bind_eq_some_iff, Prod.exists,
    Option.some.injEq, Prod.mk.injEq] at hread
  obtain ⟨c, vs, hcond, b, ws, hbody, rfl, rfl⟩ := hread
  obtain ⟨q, hq, hqe⟩ := h hcond .closed trivial
  obtain ⟨r, hr, hre⟩ := h hbody .closed trivial
  exact ⟨.closed, .whileLoop hw (spaces_skipSpace ts) hq hr, trivial⟩

theorem forEachList_sound (hread : forEachList rules ts = some (f, us)) :
    Derivable greedy .forEachList ts f us := by
  intro p hp
  have hspaces := spaces_skipSpace ts
  unfold forEachList at hread
  split at hread
  · next t vs heq =>
    split_ifs at hread with hspace
    simp only [Option.bind_eq_bind, Option.bind_eq_some_iff, Prod.exists, Option.some.injEq,
      Prod.mk.injEq] at hread
    obtain ⟨values, ws, hvalues, xs, hend, rfl, rfl⟩ := hread
    obtain ⟨q, hq, hqe⟩ := h hvalues .closed trivial
    have hwspace : WSpace ts (skipSpace ts) := wspace_of_readSpace (by simp [readSpace, hspace])
    exact ⟨.closed, .forIn (heq ▸ hwspace) hq (semiel_of_eq_some hend), trivial⟩
  · next vs heq =>
    cases hread
    exact ⟨.closed, .forSemic (heq ▸ hspaces) (spaces_skipSpace vs), trivial⟩
  · split_ifs at hread with hspace
    cases hread
    exact ⟨.closed, .forSpace (wspace_of_readSpace (by simp [readSpace, hspace])), trivial⟩

theorem forEachValues_sound (hread : forEachValues rules ts = some (f, us)) :
    Derivable greedy .forEachValues ts f us := by
  intro p hp
  unfold forEachValues at hread
  split at hread
  · next ts =>
    split_ifs at hread with hend
    · cases hread
      exact ⟨.closed, .valuesEnd, trivial⟩
    · simp only [Option.bind_eq_bind, Option.bind_eq_some_iff, Prod.exists, Option.some.injEq,
        Prod.mk.injEq] at hread
      obtain ⟨v, vs, hv, values, ws, hrest, rfl, rfl⟩ := hread
      obtain ⟨q, hq, hqe⟩ := h hrest .closed trivial
      exact ⟨.closed, .valuesNext (by simpa using hend) (str_of_readString hv) hq, trivial⟩
  · cases hread
    exact ⟨.closed, .valuesEnd, trivial⟩

theorem forExpr_sound {t : AstNode} (hread : forExpr rules ts = some (f, us)) :
    Derivable greedy .compoundCommand (.word .forTok t :: ts) f us := by
  intro p hp
  have hblank := optBlank_skipBlank ts
  unfold forExpr at hread
  split at hread
  · cases hread
  · next l vs heq =>
    rw [heq] at hblank
    split at hread
    · next token htoken =>
      simp only [Option.bind_eq_bind, Option.bind_eq_some_iff, Prod.exists, Option.some.injEq,
        Prod.mk.injEq] at hread
      obtain ⟨values, ws, hvalues, b, xs, hbody, rfl, rfl⟩ := hread
      obtain ⟨q, hq, hqe⟩ := h hvalues .closed trivial
      obtain ⟨r, hr, hre⟩ := h hbody .closed trivial
      exact ⟨.closed, .forEach hblank htoken hq hr, trivial⟩
    · split at hread
      · simp only [cforExpr, Option.bind_eq_bind, Option.bind_eq_some_iff, Prod.exists,
          Option.some.injEq, Prod.mk.injEq, readMark_eq_some] at hread
        obtain ⟨cond, ws, hcond, xs, hr₁, ys, rfl, zs, hend, b, zs', hbody, rfl, rfl⟩ := hread
        obtain ⟨q, hq, hqe⟩ := h hbody .closed trivial
        exact ⟨.closed, .cfor hblank (optEol_readMark vs) (forArithmetics_spec _)
          (forCondition_of_eq_some hcond) (optArithmetics_readArithmetics ws)
          (hr₁ ▸ spaces_skipSpace _) (semiel_of_eq_some hend) hq, trivial⟩
      · cases hread

theorem selectExpr_sound {t : AstNode} (hread : selectExpr rules ts = some (f, us)) :
    Derivable greedy .compoundCommand (.word .selectTok t :: ts) f us := by
  intro p hp
  simp only [selectExpr, Option.bind_eq_bind, Option.bind_eq_some_iff, readMark_eq_some] at hread
  obtain ⟨vs, rfl, hread⟩ := hread
  split at hread
  · cases hread
  · simp only [Option.bind_eq_some_iff, Prod.exists, Option.some.injEq, Prod.mk.injEq] at hread
    obtain ⟨token, htoken, word, ws, hword, xs, hend, b, ys, hbody, rfl, rfl⟩ := hread
    obtain ⟨q, hq, hqe⟩ := h hbody .closed trivial
    exact ⟨.closed, .select rfl htoken (selectWord_of_eq_some hword) (semiel_of_eq_some hend) hq,
      trivial⟩

theorem subshell_sound (hread : subshell rules ts = some (f, us)) :
    Derivable greedy .compoundCommand (.mark .lparen :: ts) f us := by
  intro p hp
  simp only [subshell, Option.bind_eq_bind, Option.bind_eq_some_iff, Prod.exists, readMark_eq_some,
    Option.some.injEq, Prod.mk.injEq] at hread
  obtain ⟨l, vs, hlist, ws, hclose, rfl, rfl⟩ := hread
  obtain ⟨q, hq, hqe⟩ := h hlist .closed trivial
  exact ⟨.closed, .subshell rfl (spaces_skipSpace ts) hq (optSemic_readMark vs)
    (hclose ▸ spaces_skipSpace _), trivial⟩

theorem ifPart_sound (hread : ifPart rules ts = some (f, us)) :
    Derivable greedy .ifPart ts f us := by
  intro p hp
  simp only [ifPart, Option.bind_eq_bind, Option.bind_eq_some_iff, Prod.exists, readWord_eq_some,
    Option.some.injEq, Prod.mk.injEq] at hread
  obtain ⟨c, _, hcond, vs, ⟨t, rfl⟩, ws, hspace, b, xs, hbody, rfl, rfl⟩ := hread
  obtain ⟨q, hq, hqe⟩ := h hcond .closed trivial
  obtain ⟨r, hr, hre⟩ := h hbody .closed trivial
  exact ⟨.closed, .ifPart hq (wspace_of_readSpace hspace) hr, trivial⟩

theorem ifExpr_sound {t : AstNode} (hread : ifExpr rules ts = some (f, us)) :
    Derivable greedy .compoundCommand (.word .ifTok t :: ts) f us := by
  intro p hp
  simp only [ifExpr, Option.bind_eq_bind, Option.bind_eq_some_iff, Prod.exists,
    Option.some.injEq, Prod.mk.injEq] at hread
  obtain ⟨vs, hspace, c, ws, hfirst, rest, xs, hrest, rfl, rfl⟩ := hread
  obtain ⟨q, hq, hqe⟩ := h hfirst .closed trivial
  obtain ⟨r, hr, hre⟩ := h hrest .closed trivial
  exact ⟨.closed, .ifStatement (wspace_of_readSpace hspace) hq hr, trivial⟩

theorem elifs_sound (hread : elifs rules ts = some (f, us)) : Derivable greedy .elifs ts f us := by
  intro p hp
  unfold elifs at hread
  split at hread
  · simp only [Option.bind_eq_bind, Option.bind_eq_some_iff, Prod.exists, readMark_eq_some,
      Option.some.injEq, Prod.mk.injEq] at hread
    obtain ⟨vs, rfl, c, ws, hfirst, rest, xs, hrest, rfl, rfl⟩ := hread
    obtain ⟨q, hq, hqe⟩ := h hfirst .closed trivial
    obtain ⟨r, hr, hre⟩ := h hrest .closed trivial
    exact ⟨.closed, .elif hq hr, trivial⟩
  · simp only [Option.bind_eq_bind, Option.bind_eq_some_iff, Prod.exists, Option.some.injEq,
      Prod.mk.injEq] at hread
    obtain ⟨l, vs, hblock, rfl, rfl⟩ := hread
    obtain ⟨q, t', ws, hspace, hq⟩ := block_sound h hblock
    exact ⟨.closed, .elseFi hspace hq, trivial⟩
  · simp only [Option.bind_eq_bind, Option.bind_eq_some_iff, readWord_eq_some, Option.some.injEq,
      Prod.mk.injEq] at hread
    obtain ⟨vs, ⟨t, rfl⟩, rfl, rfl⟩ := hread
    exact ⟨.closed, .fi, trivial⟩

theorem caseExpr_sound {t : AstNode} (hread : caseExpr rules ts = some (f, us)) :
    Derivable greedy .compoundCommand (.word .caseTok t :: ts) f us := by
  intro p hp
  simp only [caseExpr, Option.bind_eq_bind, Option.bind_eq_some_iff, Prod.exists, readMark_eq_some,
    readWord_eq_some, Option.some.injEq, Prod.mk.injEq] at hread
  obtain ⟨vs, rfl, w, ws, hword, _, hspace, xs, ⟨t', rfl⟩, b, ys, hbody, rfl, rfl⟩ := hread
  obtain ⟨q, hq, hqe⟩ := h hbody .closed trivial
  exact ⟨q, .caseOf (str_of_readString hword) (wspace_of_readSpace hspace) hq, hqe⟩

theorem caseBody_sound (hread : caseBody rules ts = some (f, us)) :
    Derivable greedy .caseBody ts f us := by
  intro p hp
  unfold caseBody at hread
  split at hread
  · next vs hesac =>
    cases hread
    obtain ⟨t, hspace⟩ := esac_of_readEsac hesac
    exact ⟨.closed, .noClause hspace, trivial⟩
  · obtain ⟨q, hq, hqe⟩ := h hread .closed trivial
    exact ⟨q, .clauses hq, hqe⟩

theorem clause_sound (hread : clause rules ts = some (f, us)) :
    Derivable greedy .clause ts f us := by
  intro p hp
  have hopen := optLparen_skipLparen ts
  unfold clause at hread
  split at hread
  · next b vs heq =>
    rw [heq] at hopen
    simp only [Option.bind_eq_bind, Option.bind_eq_some_iff, Prod.exists, readMark_eq_some] at hread
    obtain ⟨ps, ws, hpatterns, xs, hclose, hread⟩ := hread
    obtain ⟨q, hq, hqe⟩ := h hpatterns .closed trivial
    have hblank : OptBlank ws (.mark .rparen :: xs) := hclose ▸ optBlank_skipBlank ws
    split_ifs at hread with hcommands
    · simp only [Option.bind_eq_some_iff, Prod.exists, Option.some.injEq, Prod.mk.injEq] at hread
      obtain ⟨l, ys, hlist, rfl, rfl⟩ := hread
      obtain ⟨r, hr, hre⟩ := h hlist .closed trivial
      simp only [Bool.and_eq_true] at hcommands
      have hspace : WSpace xs (skipSpace xs) :=
        wspace_of_readSpace (by simp [readSpace, hcommands.1])
      exact ⟨r, .clauseCommands hopen hq hblank hspace hr, hre⟩
    · cases hread
      exact ⟨.closed, .clause hopen hq hblank, trivial⟩
  · cases hread

theorem patterns_sound (hread : patterns rules ts = some (f, us)) :
    Derivable greedy .patterns ts f us := by
  intro p hp
  unfold patterns at hread
  split at hread
  · next vs hpipe =>
    rw [readMark_eq_some] at hpipe
    have hafter := optBlank_skipBlank vs
    split at hread
    · next b ws heq =>
      simp only [Option.bind_eq_bind, Option.bind_eq_some_iff, Prod.exists, Option.some.injEq,
        Prod.mk.injEq] at hread
      obtain ⟨ps, xs, hrest, rfl, rfl⟩ := hread
      obtain ⟨q, hq, hend⟩ := h hrest .closed trivial
      exact ⟨.closed, .patternsNext (hpipe ▸ optBlank_skipBlank ts) (heq ▸ hafter) hq, trivial⟩
    · cases hread
  · cases hread
    exact ⟨.closed, .patternsEnd, trivial⟩

theorem caseStatements_sound (hread : caseStatements rules ts = some (f, us)) :
    Derivable greedy .caseStatements ts f us := by
  intro p hp
  simp only [caseStatements, Option.bind_eq_bind, Option.bind_eq_some_iff, Prod.exists] at hread
  obtain ⟨c, vs, hclause, hread⟩ := hread
  obtain ⟨q, hq, hqe⟩ := h hclause .closed trivial
  have hspace := spaces_skipSpace ts
  split at hread
  · next ws hsemic =>
    rw [readMark_eq_some] at hsemic
    have hend : Spaces vs (.mark .doubleSemic :: ws) := hsemic ▸ spaces_skipSpace vs
    split at hread
    · next xs hesac =>
      cases hread
      obtain ⟨t, ht⟩ := esac_of_readEsac hesac
      exact ⟨.closed, .lastClause hspace hq hend ht, trivial⟩
    · next hesac =>
      split_ifs at hread with hmore
      · simp only [Option.bind_eq_some_iff, Prod.exists, Option.some.injEq, Prod.mk.injEq] at hread
        obtain ⟨cs, xs, hrest, rfl, rfl⟩ := hread
        obtain ⟨r, hr, hre⟩ := h hrest .closed trivial
        exact ⟨r, .moreClauses hspace hq hend hr, hre⟩
      · cases hread
        refine ⟨.clauses, .unterminated hspace hq hend, ?_⟩
        simp [TailEnds, clausesEnd, hesac, hmore]
  · simp only [Option.bind_eq_some_iff, Option.some.injEq, Prod.mk.injEq] at hread
    obtain ⟨ws, hesac, rfl, rfl⟩ := hread
    obtain ⟨t, ht⟩ := esac_of_readEsac hesac
    exact ⟨.closed, .esac hspace hq ht (fun _ => hqe), trivial⟩

theorem compoundCommand_sound (hread : compoundCommand rules ts = some (f, us)) :
    Derivable greedy .compoundCommand ts f us := by
  unfold compoundCommand at hread
  split at hread
  · exact forExpr_sound h hread
  · exact selectExpr_sound h hread
  · exact ifExpr_sound h hread
  · exact whileExpr_sound h rfl hread
  · exact whileExpr_sound h rfl hread
  · exact caseExpr_sound h hread
  · exact subshell_sound h hread
  · simp only [Option.bind_eq_bind, Option.bind_eq_some_iff, Prod.exists, Option.some.injEq,
      Prod.mk.injEq] at hread
    obtain ⟨l, vs, hblock, rfl, rfl⟩ := hread
    obtain ⟨q, t, ws, hspace, hq⟩ := block_sound h hblock
    exact fun p hp => ⟨.closed, .currentShell hspace hq, trivial⟩
  · next ts =>
    have hspace := spaces_skipSpace ts
    split at hread
    · next e vs heq =>
      simp only [Option.bind_eq_bind, Option.bind_eq_some_iff, readMark_eq_some, Option.some.injEq,
        Prod.mk.injEq] at hread
      obtain ⟨ws, hr₁, _, rfl, rfl, rfl⟩ := hread
      have hend := spaces_skipSpace vs
      exact fun p hp => ⟨.closed, .arithmetic (heq ▸ hspace) (hr₁ ▸ hend), trivial⟩
    · cases hread
  · cases hread
    exact fun p hp => ⟨.closed, .condition, trivial⟩
  · cases hread

end Rules

/-! ### All rules together -/

theorem body_sound (rules : Rules CommandRule CommandLexeme (List AstNode))
    (h : rules.Sound (Derivable greedy)) : (body rules).Sound (Derivable greedy) := by
  intro r ts f us hread
  cases r with
  | commandList => exact commandList_sound h hread
  | listRest => exact listRest_sound h hread
  | listLevel1 => exact listLevel1_sound h hread
  | logicRest l => exact logicRest_sound h hread
  | pipeline => exact pipeline_sound h hread
  | pipeRest l => exact pipeRest_sound h hread
  | command => exact command_sound h hread
  | commandAtom => exact commandAtom_sound h hread
  | arguments => exact arguments_sound h hread
  | compoundCommand => exact compoundCommand_sound h hread
  | terminatedList => exact terminatedList_sound h hread
  | doGroup => exact doGroup_sound h hread
  | forEachList => exact forEachList_sound h hread
  | forEachValues => exact forEachValues_sound h hread
  | ifPart => exact ifPart_sound h hread
  | elifs => exact elifs_sound h hread
  | caseBody => exact caseBody_sound h hread
  | caseStatements => exact caseStatements_sound h hread
  | clause => exact clause_sound h hread
  | patterns => exact patterns_sound h hread

/-! ## Scripts -/

theorem firstLine_of_eq_some (h : firstLineComment ts = some us) : FirstLine ts us := by
  unfold firstLineComment at h
  split at h
  · next ts =>
    rw [readMark_eq_some] at h
    have hcut : ts.takeWhile (!isEol ·) ++ ts.dropWhile (!isEol ·) = ts :=
      List.takeWhile_append_dropWhile
    rw [h] at hcut
    rw [← hcut]
    refine .comment fun l hl => ?_
    simpa using (List.all_eq_true.mp (List.all_takeWhile) l hl)
  · next hpound =>
    cases h
    refine .none ?_
    cases ts with
    | nil => rfl
    | cons l ts => cases l with
      | mark m => cases m <;> simp_all [headIs]
      | _ => rfl

theorem eq_eol_of_isEol {l : CommandLexeme} (h : l.isEol = true) : l = .eol := by
  unfold isEol at h
  split at h
  · rfl
  · cases h

theorem eols_dropWhile (ts : CommandTokens) : Eols ts (ts.dropWhile isEol) := by
  induction ts with
  | nil => exact .nil
  | cons l ts ih =>
    rw [List.dropWhile_cons]
    split_ifs with hl
    · rw [eq_eol_of_isEol hl]
      exact .cons ih
    · exact .nil

theorem endOfScript_spec (h : endOfScript ts = true) :
    ∃ us, OptBlank ts us ∧
      (us = [] ∨ ∃ m, us = [.mark m] ∧ (m = .semic ∨ m = .amp ∨ m = .eol)) := by
  refine ⟨skipBlank ts, optBlank_skipBlank ts, ?_⟩
  unfold endOfScript at h
  split at h <;> simp_all

/-- A script that the parser accepts is one of the grammar, whether its loops are greedy or not,
with the tree the grammar gives it. -/
theorem start_sound (greedy : Bool) (d : Nat) (ts : CommandTokens) (f : List AstNode)
    (h : start d ts = some f) : Script true greedy ts f := by
  simp only [start, Option.bind_eq_bind, Option.bind_eq_some_iff, Prod.exists] at h
  obtain ⟨us, hline, l, vs, hlist, hend⟩ := h
  split_ifs at hend with heof
  cases hend
  obtain ⟨q, hq, -⟩ := descend_sound (@body_sound greedy) d hlist .closed trivial
  obtain ⟨ys, hblank, hys⟩ := endOfScript_spec heof
  exact .mk (firstLine_of_eq_some hline) (eols_dropWhile us) (optBlank_skipBlank _) hq hblank hys

end CommandParser

end Libbash
