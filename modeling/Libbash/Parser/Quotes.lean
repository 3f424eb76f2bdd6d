import Mathlib.Data.List.Infix
import Libbash.Interp.Api
import Libbash.Parser.Lexer

/-!
# Single quotes

A `'` outside of double quotes starts a token that ends with the next `'`, whatever
stands between them. Here are the lexer of `bashast.g` on texts that are plain outside of
such tokens, and its rule `start` on the tokens of an assignment; what else there is, is
parsed elsewhere.
-/

namespace Libbash

/-! ## Escaped line ends -/

/-- No backslash stands directly before a line end. -/
def NoContinuation (cs : List Char) : Prop := ¬['\\', '\n'] <:+: cs

theorem eraseContinuations_cons {c : Char} {cs : List Char}
    (h : c = '\\' → cs.head? ≠ some '\n') :
    eraseContinuations (c :: cs) = c :: eraseContinuations cs := by
  rw [eraseContinuations.eq_def]
  split
  · next heq =>
    obtain ⟨rfl, rfl⟩ := List.cons.inj heq
    exact absurd rfl (h rfl)
  · next heq =>
    obtain ⟨rfl, rfl⟩ := List.cons.inj heq
    rfl
  · next heq => cases heq

theorem eraseContinuations_sublist (cs : List Char) : (eraseContinuations cs).Sublist cs := by
  fun_induction eraseContinuations cs with
  | case1 cs ih => exact (ih.cons _).cons _
  | case2 c cs h ih => exact ih.cons_cons _
  | case3 => exact .slnil

/-- Behind a character that is no line end nothing changes. -/
theorem eraseContinuations_append {c : Char} (hc : c ≠ '\n') (cs ds : List Char) :
    eraseContinuations (cs ++ c :: ds) = eraseContinuations cs ++ eraseContinuations (c :: ds) := by
  fun_induction eraseContinuations cs with
  | case1 cs ih => exact ih
  | case2 d cs h ih =>
    rw [List.cons_append, eraseContinuations_cons, ih, List.cons_append]
    rintro rfl hhead
    cases cs with
    | nil => exact hc (Option.some.inj hhead)
    | cons e cs => exact h cs rfl (by rw [Option.some.inj hhead])
  | case3 => rfl

/-- `erase_all` leaves just the texts as they are that have nothing for it to erase. -/
theorem eraseContinuations_eq_self_iff (cs : List Char) :
    eraseContinuations cs = cs ↔ NoContinuation cs := by
  unfold NoContinuation
  fun_induction eraseContinuations cs with
  | case1 cs ih =>
    have hlen := (eraseContinuations_sublist cs).length_le
    refine ⟨fun h => ?_, fun h => absurd ⟨[], cs, rfl⟩ h⟩
    rw [h, List.length_cons, List.length_cons] at hlen
    omega
  | case2 c cs h ih =>
    rw [List.cons.injEq, eq_self, true_and, ih, List.infix_cons_iff, not_or]
    refine ⟨fun hrest => ⟨fun hprefix => ?_, hrest⟩, fun hboth => hboth.2⟩
    obtain ⟨ds, hds⟩ := hprefix
    obtain ⟨rfl, rfl⟩ := List.cons.inj hds
    exact h ds rfl rfl
  | case3 => simp

/-! ## Tokens -/

/-- The tokens of a text with single quotes. -/
inductive ScriptToken where
  | plain (t : ArithToken)
  /-- `SINGLE_QUOTED_STRING_TOKEN`, with its quotes. -/
  | singleQuoted (text : List Char)

/-- The next token and the characters after it. The flag `double_quoted` changes only at a
double quote outside of single ones, and a text with one of these is lexed elsewhere. -/
def nextScriptToken (c : Char) (cs : List Char) : Option (ScriptToken × List Char) :=
  if c = '\'' then
    match cs.span (· != '\'') with
    | (text, quote :: rest) => some (.singleQuoted (c :: text ++ [quote]), rest)
    | (_, []) => none
  else if isPlain [c] && c != '"' then some (.plain (nextToken c cs).1, (nextToken c cs).2)
  else none

/-- The tokens of a text, at most so many. -/
def scriptTokensFrom : Nat → List Char → Option (List ScriptToken)
  | _, [] => some []
  | 0, _ :: _ => none
  | n + 1, c :: cs => do
    let next ← nextScriptToken c cs
    let ts ← scriptTokensFrom n next.2
    pure (next.1 :: ts)

/-- The lexer. -/
def scriptTokens (cs : List Char) : Option (List ScriptToken) := scriptTokensFrom cs.length cs

/-! ## Assignments -/

/-- `get_single_quoted_string`: as many characters from behind `start` as there are
between `start` and `stop`. -/
def getSingleQuotedString (token : List Char) : List Char :=
  (token.drop 1).take (token.length - 1 - 1)

/-- `string_expr_part*`, of tokens in single quotes. -/
def quotedParts : List ScriptToken → Option (List WordPart)
  | [] => some []
  | .singleQuoted token :: ts =>
    (quotedParts ts).map (.part (.singleQuoted (.ofList (getSingleQuotedString token))) :: ·)
  | .plain _ :: _ => none

/-- `start`, on `name EQUALS string_expr`. -/
def assignmentTree : List ScriptToken → Option Tree
  | .plain (.name text) :: .plain .equals :: .singleQuoted token :: ts =>
    if h : isIdentifier text = true then
      (quotedParts (.singleQuoted token :: ts)).map fun parts =>
        .script (.ofSimple
          (.variableDefinitions false [.scalar (.base ⟨text, h⟩) (some (.string parts))]) []) []
    else none
  | _ => none

/-- The host whose parser reads assignments of texts in single quotes. -/
def Host.quoting (host : Host) : Host :=
  { host with
    parse := fun rule text =>
      match rule with
      | .start =>
        match (scriptTokens text.toList).bind assignmentTree with
        | some t => .ok t
        | none => host.parse .start text
      | rule => host.parse rule text }

section Assignment

variable {text : List Char}

theorem span_quote (h : '\'' ∉ text) (rest : List Char) :
    (text ++ '\'' :: rest).span (· != '\'') = (text, '\'' :: rest) := by
  have hall : ∀ c ∈ text, (c != '\'') = true := fun c hc => by
    rw [bne_iff_ne]
    rintro rfl
    exact h hc
  rw [List.span_eq_takeWhile_dropWhile, List.takeWhile_append_of_pos hall,
    List.dropWhile_append_of_pos hall]
  simp

theorem nextScriptToken_quote (h : '\'' ∉ text) (rest : List Char) :
    nextScriptToken '\'' (text ++ '\'' :: rest) =
      some (.singleQuoted ('\'' :: text ++ ['\'']), rest) := by
  unfold nextScriptToken
  rw [if_pos rfl, span_quote h]

theorem getSingleQuotedString_quoted (text : List Char) :
    getSingleQuotedString ('\'' :: text ++ ['\'']) = text := by
  unfold getSingleQuotedString
  simp

/-- `x='s'` -/
def assignmentScript (text : List Char) : List Char := 'x' :: '=' :: '\'' :: text ++ ['\'']

theorem scriptTokensFrom_cons {n : Nat} {c : Char} {cs rest : List Char} {t : ScriptToken}
    (h : nextScriptToken c cs = some (t, rest)) :
    scriptTokensFrom (n + 1) (c :: cs) = (scriptTokensFrom n rest).map (t :: ·) := by
  rw [scriptTokensFrom, h]
  cases hrest : scriptTokensFrom n rest with
  | none =>
    show (scriptTokensFrom n rest).bind _ = _
    rw [hrest]
    rfl
  | some ts =>
    show (scriptTokensFrom n rest).bind _ = _
    rw [hrest]
    rfl

theorem scriptTokens_assignment (h : '\'' ∉ text) :
    scriptTokens (assignmentScript text) =
      some [.plain (.name "x"), .plain .equals, .singleQuoted ('\'' :: text ++ ['\''])] := by
  have hname : nextScriptToken 'x' ('=' :: '\'' :: text ++ ['\'']) =
      some (.plain (.name "x"), '=' :: '\'' :: text ++ ['\'']) := rfl
  have hequals : nextScriptToken '=' ('\'' :: text ++ ['\'']) =
      some (.plain .equals, '\'' :: text ++ ['\'']) := rfl
  have hlen : (assignmentScript text).length = text.length + 1 + 1 + 1 + 1 := by
    simp [assignmentScript]
  unfold scriptTokens
  rw [hlen]
  show scriptTokensFrom _ ('x' :: ('=' :: '\'' :: text ++ ['\''])) = _
  rw [scriptTokensFrom_cons hname]
  show (scriptTokensFrom _ ('=' :: ('\'' :: text ++ ['\'']))).map _ = _
  rw [scriptTokensFrom_cons hequals]
  show ((scriptTokensFrom _ ('\'' :: (text ++ ['\'']))).map _).map _ = _
  rw [scriptTokensFrom_cons (nextScriptToken_quote h []), scriptTokensFrom]
  rfl

/-- The tree of the assignment. -/
def assignmentOf (text : List Char) : Tree :=
  .script (.ofSimple (.variableDefinitions false
    [.scalar (.base ⟨"x", isIdentifier_x⟩) (some (.string [.part (.singleQuoted (.ofList text))]))]) [])
    []

theorem parse_assignment (host : Host) (h : '\'' ∉ text) :
    host.quoting.parse .start (.ofList (assignmentScript text)) = .ok (assignmentOf text) := by
  show (match (scriptTokens (String.ofList (assignmentScript text)).toList).bind assignmentTree with
    | some t => Except.ok t
    | none => host.parse .start (.ofList (assignmentScript text))) = _
  have htree : assignmentTree [.plain (.name "x"), .plain .equals,
      .singleQuoted ('\'' :: text ++ ['\''])] = some (assignmentOf text) := by
    unfold assignmentTree
    dsimp only
    rw [dif_pos (by decide), quotedParts, getSingleQuotedString_quoted]
    rfl
  rw [String.toList_ofList, scriptTokens_assignment h, Option.bind_some, htree]

/-- What `read_script` makes of the assignment. -/
theorem readScript_assignment (text : List Char) :
    readScript true (.ofList (assignmentScript text)) =
      .ofList (assignmentScript (eraseContinuations text)) := by
  have herase : eraseContinuations (assignmentScript text) =
      assignmentScript (eraseContinuations text) := by
    show eraseContinuations ('x' :: '=' :: '\'' :: (text ++ ['\''])) = _
    have hquote : eraseContinuations (text ++ ['\'']) = eraseContinuations text ++ ['\''] :=
      eraseContinuations_append (by decide) text []
    rw [eraseContinuations_cons fun h => absurd h (by decide),
      eraseContinuations_cons fun h => absurd h (by decide),
      eraseContinuations_cons fun h => absurd h (by decide), hquote]
    rfl
  have hlast : (assignmentScript (eraseContinuations text)).getLast? = some '\'' :=
    List.getLast?_concat
  show String.ofList (trimIf isBlank (eraseContinuations (String.ofList _).toList)) = _
  rw [String.toList_ofList, herase, trimIf_isBlank]
  · intro c hc
    cases hc
    decide
  · intro c hc
    rw [hlast] at hc
    cases hc
    decide

end Assignment

end Libbash
