import Libbash.Walker.ConditionParser

/-!
# The parser finds the tree of a condition

One lemma per rule of the grammar says what the rule makes of what was written:
the tree, or nothing when the lexer has joined two parentheses. A rule is
followed by something that none of the rules above it takes for its own
(`Ends`, `EndsAnd`, `EndsOr`). `Test.parses` is the rule `condition_expr`.
-/

namespace Libbash

open Lib ConditionParser

/-! ## Look-ahead -/

namespace ConditionParser

@[simp] theorem startsWith_nil (ts : List Lexeme) : startsWith [] ts = true := rfl

@[simp] theorem startsWith_cons_nil (ty : TokenType) (tys : List TokenType) :
    startsWith (ty :: tys) [] = false := rfl

@[simp] theorem startsWith_cons (ty : TokenType) (tys : List TokenType) (l : Lexeme)
    (ts : List Lexeme) :
    startsWith (ty :: tys) (l :: ts) = (l.type? == some ty && startsWith tys ts) := by
  simp [startsWith]

@[simp] theorem readToken_tok (t : Token) (ts : List Lexeme) :
    readToken t.type (.tok t :: ts) = some (t, ts) := by
  simp [readToken]

end ConditionParser

namespace Written

@[simp] theorem Space.isSpace (s : Space) : s.lexeme.isSpace = true := by
  cases s <;> rfl

@[simp] theorem Space.isLparen (s : Space) : s.lexeme.isLparen = false := by
  cases s <;> rfl

/-- Nothing that counts as space is left in front of `ts`. -/
theorem skipSpace_spaces {ts : List Lexeme} (s : List Space)
    (h : ∀ l ∈ ts.head?, l.isSpace = false) : skipSpace (spaces s ++ ts) = ts := by
  unfold skipSpace
  induction s with
  | nil =>
    cases ts with
    | nil => rfl
    | cons l ts => simp [spaces, h l rfl]
  | cons x s ih =>
    show ((x.lexeme :: (spaces s ++ ts)).dropWhile Lexeme.isSpace) = ts
    rw [List.dropWhile_cons_of_pos x.isSpace]
    exact ih

theorem readSpace_spaces {ts : List Lexeme} (x : Space) (s : List Space)
    (h : ∀ l ∈ ts.head?, l.isSpace = false) :
    readSpace (spaces (x :: s) ++ ts) = some ((), ts) := by
  have hskip := skipSpace_spaces (x :: s) h
  have hread : readSpace (spaces (x :: s) ++ ts) = some ((), skipSpace (spaces (x :: s) ++ ts)) := by
    show (if x.lexeme.isSpace = true then _ else none) = _
    rw [if_pos x.isSpace]
  rw [hread, hskip]

theorem skipBlank_blanks {ts : List Lexeme} (present : Bool)
    (h : ∀ l ∈ ts.head?, l.isSpace = false) : skipBlank (blanks present ++ ts) = ts := by
  cases present with
  | true => rfl
  | false =>
    cases ts with
    | nil => rfl
    | cons l ts =>
      have hl : (l.type? == some .blank) = false := by
        have := h l rfl
        simp only [Lexeme.isSpace, Bool.or_eq_false_iff] at this
        exact this.1
      simp [blanks, skipBlank, hl]

/-! ## Joined parentheses -/

theorem joinParens_cons {l : Lexeme} (ts : List Lexeme) (h : l.isLparen = false) :
    joinParens (l :: ts) = l :: joinParens ts := by
  cases ts with
  | nil => rfl
  | cons b ts => simp [joinParens, h]

/-- Nothing is joined across a boundary with something else than a parenthesis
after it. -/
theorem joinParens_append (xs : List Lexeme) {ys : List Lexeme}
    (h : ∀ l ∈ ys.head?, l.isLparen = false) :
    joinParens (xs ++ ys) = joinParens xs ++ joinParens ys := by
  induction xs using joinParens.induct with
  | case1 a b xs hab ih => simp [joinParens, hab, ih]
  | case2 a b xs hab ih =>
    have hjoin : ∀ zs, joinParens (a :: b :: zs) = a :: joinParens (b :: zs) := by
      intro zs
      simp [joinParens, hab]
    rw [List.cons_append, List.cons_append, hjoin, hjoin, ← List.cons_append, ih]
    rfl
  | case3 xs hxs =>
    cases xs with
    | nil => rfl
    | cons a xs =>
      cases xs with
      | nil =>
        cases ys with
        | nil => rfl
        | cons y ys => simp [joinParens, h y rfl]
      | cons b xs => exact absurd rfl (hxs a b xs)

/-- Without an opening parenthesis there is nothing to join. -/
theorem joinParens_append_right {xs : List Lexeme} (ys : List Lexeme)
    (h : ∀ l ∈ xs, l.isLparen = false) : joinParens (xs ++ ys) = xs ++ joinParens ys := by
  induction xs with
  | nil => rfl
  | cons x xs ih =>
    have hxs : ∀ l ∈ xs, l.isLparen = false := fun l hl => h l (List.mem_cons_of_mem x hl)
    rw [List.cons_append, joinParens_cons _ (h x List.mem_cons_self), ih hxs, List.cons_append]

theorem spaces_not_lparen (s : List Space) : ∀ l ∈ spaces s, l.isLparen = false := by
  intro l hl
  obtain ⟨x, -, rfl⟩ := List.mem_map.mp hl
  exact x.isLparen

/-! ## Words and operators -/

/-- A part of a word does not end a regular expression. -/
theorem patternStep_stringPart {l : Lexeme} (h : l.isStringPart = true) :
    patternStep 0 l = some 0 := by
  cases l with
  | part t => rfl
  | tok t =>
    obtain ⟨type, text⟩ := t
    cases type <;> first | rfl | cases h

theorem notPart_of_stops {l : Lexeme} (h : patternStep 0 l = none) : l.isStringPart = false := by
  cases hpart : l.isStringPart with
  | true =>
    rw [patternStep_stringPart hpart] at h
    cases h
  | false => rfl

/-- A part of a word is no space and no parenthesis. -/
theorem type_of_stringPart {l : Lexeme} (h : l.isStringPart = true) {ty : TokenType}
    (hty : (Lexeme.tok ⟨ty, ""⟩).isStringPart = false) : (l.type? == some ty) = false := by
  cases l with
  | part t => rfl
  | tok t =>
    by_contra htype
    have heq : t.type = ty := by simpa [Lexeme.type?] using htype
    subst heq
    have hsame : (Lexeme.tok ⟨t.type, ""⟩).isStringPart = (Lexeme.tok t).isStringPart := rfl
    rw [hsame, h] at hty
    cases hty

namespace WordTokens

theorem exists_head (w : WordTokens) :
    ∃ l ts, w.lexemes = l :: ts ∧ l.isStringPart = true := by
  obtain ⟨l, ts, hw⟩ := List.exists_cons_of_ne_nil w.nonempty
  exact ⟨l, ts, hw, w.parts l (hw ▸ List.mem_cons_self)⟩

theorem not_space (w : WordTokens) (rest : List Lexeme) :
    ∀ l ∈ (w.lexemes ++ rest).head?, l.isSpace = false := by
  obtain ⟨l, ts, hw, hl⟩ := w.exists_head
  rw [hw]
  intro l' hl'
  cases hl'
  rw [Lexeme.isSpace, type_of_stringPart hl rfl, type_of_stringPart hl rfl]
  rfl

theorem not_lparen (w : WordTokens) : ∀ l ∈ w.lexemes, l.isLparen = false :=
  fun l hl => type_of_stringPart (w.parts l hl) rfl

end WordTokens

/-- A word ends where no part of a word follows. -/
theorem conditionPart_word (w : WordTokens) {rest : List Lexeme}
    (h : ∀ l ∈ rest.head?, l.isStringPart = false) :
    conditionPart (w.lexemes ++ rest) = some (wordTree w.lexemes, rest) := by
  have hrest : rest.takeWhile Lexeme.isStringPart = [] ∧
      rest.dropWhile Lexeme.isStringPart = rest := by
    cases rest with
    | nil => exact ⟨rfl, rfl⟩
    | cons l ts =>
      have hl : ¬l.isStringPart = true := by
        rw [h l rfl]
        exact Bool.false_ne_true
      exact ⟨List.takeWhile_cons_of_neg hl, List.dropWhile_cons_of_neg hl⟩
  obtain ⟨l, ts, hw, -⟩ := w.exists_head
  unfold conditionPart
  rw [List.takeWhile_append_of_pos w.parts, List.dropWhile_append_of_pos w.parts, hrest.1, hrest.2,
    List.append_nil, hw]
  rfl

/-- A regular expression ends where its parentheses are closed. -/
theorem patternTokens_append {rest : List Lexeme} (ts : List Lexeme) (parens : Nat)
    (hbalanced : ts.foldlM patternStep parens = some 0)
    (h : ∀ l ∈ rest.head?, patternStep 0 l = none) :
    patternTokens parens (ts ++ rest) = (ts.map Lexeme.leaf, rest) := by
  induction ts generalizing parens with
  | nil =>
    obtain rfl : parens = 0 := Option.some.inj hbalanced
    cases rest with
    | nil => rfl
    | cons l rest =>
      show patternTokens 0 (l :: rest) = _
      rw [patternTokens, h l rfl]
      rfl
  | cons l ts ih =>
    rw [List.foldlM_cons] at hbalanced
    cases hstep : patternStep parens l with
    | none =>
      rw [hstep] at hbalanced
      cases hbalanced
    | some parens' =>
      rw [hstep] at hbalanced
      rw [List.cons_append, patternTokens, hstep]
      simp only [ih parens' hbalanced, List.map_cons]

theorem bashPatternPart_regex (r : RegexTokens) {rest : List Lexeme}
    (h : ∀ l ∈ rest.head?, patternStep 0 l = none) :
    bashPatternPart (r.lexemes ++ rest) = some (wordTree r.lexemes, rest) := by
  obtain ⟨l, ts, hr⟩ := List.exists_cons_of_ne_nil r.nonempty
  unfold bashPatternPart
  rw [patternTokens_append r.lexemes 0 r.balanced h, hr]
  rfl

/-- The right operand is read up to what ends a primary. -/
theorem rightOperand_operand {op : BinaryOperator} (r : Operand op) {rest : List Lexeme}
    (h : ∀ l ∈ rest.head?, patternStep 0 l = none) :
    rightOperand op (r.lexemes ++ rest) = some (wordTree r.lexemes, rest) := by
  have hword : ∀ w : WordTokens,
      conditionPart (w.lexemes ++ rest) = some (wordTree w.lexemes, rest) := by
    intro w
    exact conditionPart_word w fun l hl => notPart_of_stops (h l hl)
  cases op with
  | matchRegularExpression => exact bashPatternPart_regex r h
  | _ => exact hword r

/-- The operator is recognised by its tokens. -/
theorem readOperator_operator {op : BinaryOperator} (before after : Bool) (r : Operand op)
    (rest : List Lexeme) :
    readOperator (operatorLexemes before after op ++ (r.lexemes ++ rest)) =
      some (op, r.lexemes ++ rest) := by
  have hskip : ∀ w : WordTokens,
      skipBlank (blanks after ++ (w.lexemes ++ rest)) = w.lexemes ++ rest := by
    intro w
    exact skipBlank_blanks after (w.not_space rest)
  cases op with
  | matchRegularExpression => rfl
  | named op => rfl
  | notMatchPattern => rfl
  | matchPattern => rfl
  | equals => rfl
  | lessThan =>
    have hread : readOperator (operatorLexemes before after .lessThan ++ (r.lexemes ++ rest)) =
        some (.lessThan, skipBlank (blanks after ++ (r.lexemes ++ rest))) := by
      cases before <;> rfl
    rw [hread]
    exact congrArg (fun ts => some (BinaryOperator.lessThan, ts)) (hskip r)
  | greaterThan =>
    have hread : readOperator (operatorLexemes before after .greaterThan ++ (r.lexemes ++ rest)) =
        some (.greaterThan, skipBlank (blanks after ++ (r.lexemes ++ rest))) := by
      cases before <;> rfl
    rw [hread]
    exact congrArg (fun ts => some (BinaryOperator.greaterThan, ts)) (hskip r)

/-- No word goes on into an operator. -/
theorem operatorLexemes_notPart {op : BinaryOperator} (before after : Bool) (ts : List Lexeme) :
    ∀ l ∈ (operatorLexemes before after op ++ ts).head?, l.isStringPart = false := by
  intro l hl
  cases op <;> cases before <;> cases hl <;> rfl

/-! ## Primaries without connectives -/

/-- What may follow a primary. -/
structure Ends (rest : List Lexeme) : Prop where
  stops : ∀ l ∈ rest.head?, patternStep 0 l = none
  noOperator : readOperator rest = none

theorem Ends.notPart {rest : List Lexeme} (h : Ends rest) :
    ∀ l ∈ rest.head?, l.isStringPart = false := fun l hl => notPart_of_stops (h.stops l hl)

/-- A first word is the beginning of a binary condition. -/
theorem keywordConditionPrimary_firstWord (w : FirstWord) (d : Nat) {rest : List Lexeme}
    (h : ∀ l ∈ rest.head?, l.isStringPart = false) :
    keywordConditionPrimary (d + 1) (w.lexemes ++ rest) =
      keywordConditionBinary (w.lexemes ++ rest) := by
  obtain ⟨l, ts, hw, hl⟩ := w.exists_head
  have hlparen : startsWith [.lparen] (w.lexemes ++ rest) = false := by
    rw [hw, List.cons_append, startsWith_cons, type_of_stringPart hl rfl, Bool.false_and]
  have hbang : startsWith [.bang] (w.lexemes ++ rest) = false := by
    have := w.notBang
    rw [hw] at this ⊢
    simpa using this
  have hunary : startsWith [.minus, .letter] (w.lexemes ++ rest) = false := by
    have := w.notUnary
    rw [hw] at this ⊢
    cases ts with
    | cons l' ts => simpa using this
    | nil =>
      cases rest with
      | nil => simp
      | cons l' rest =>
        have hletter : (l'.type? == some .letter) = false := by
          by_contra htype
          have hpart := h l' rfl
          cases l' with
          | part t => cases hpart
          | tok t =>
            have htype' : t.type = .letter := by simpa [Lexeme.type?] using htype
            simp [Lexeme.isStringPart, htype'] at hpart
        simp [hletter]
  rw [keywordConditionPrimary, if_neg (by simp [hlparen]), if_neg (by simp [hbang]),
    if_neg (by simp [hunary])]

/-- A primary without connectives is read up to its end. -/
theorem Leaf.parses (l : Leaf) (d : Nat) {rest : List Lexeme} (h : Ends rest) :
    keywordConditionPrimary (d + 1) (l.lexemes ++ rest) = some (l.tree, rest) := by
  cases l with
  | unary op w =>
    have hunary : keywordConditionPrimary (d + 1) ((Leaf.unary op w).lexemes ++ rest) =
        keywordConditionUnary ((Leaf.unary op w).lexemes ++ rest) := by
      rw [keywordConditionPrimary]
      simp [Leaf.lexemes, Lexeme.type?]
    rw [hunary]
    unfold keywordConditionUnary
    simp only [Leaf.lexemes, List.cons_append, readToken, if_true, Option.bind_eq_bind,
      Option.bind_some, conditionPart_word w h.notPart]
    rfl
  | string w =>
    rw [Leaf.lexemes, keywordConditionPrimary_firstWord w d h.notPart]
    unfold keywordConditionBinary
    simp only [conditionPart_word w.toWordTokens h.notPart, Option.bind_eq_bind, Option.bind_some,
      h.noOperator]
    rfl
  | binary op before after left right =>
    have hpart := @operatorLexemes_notPart op before after (right.lexemes ++ rest)
    rw [Leaf.lexemes, List.append_assoc, List.append_assoc,
      keywordConditionPrimary_firstWord left d hpart]
    unfold keywordConditionBinary
    simp only [conditionPart_word left.toWordTokens hpart, Option.bind_eq_bind, Option.bind_some,
      readOperator_operator before after right rest, rightOperand_operand right h.stops]
    rfl

/-- The lexer leaves a primary without connectives as it is. -/
theorem Leaf.joinParens (l : Leaf) : joinParens l.lexemes = l.lexemes := by
  have hself : ∀ ts : List Lexeme, (∀ l ∈ ts, l.isLparen = false) → Libbash.joinParens ts = ts := by
    intro ts h
    simpa [Libbash.joinParens] using joinParens_append_right [] h
  cases l with
  | unary op w =>
    rw [Leaf.lexemes, joinParens_cons _ rfl, joinParens_cons _ rfl, joinParens_cons _ rfl,
      hself _ w.not_lparen]
  | string w => exact hself _ w.not_lparen
  | binary op before after left right =>
    have hop : ∀ l ∈ operatorLexemes before after op, l.isLparen = false := by
      intro l hl
      cases op <;> cases before <;> cases after <;>
        simp [operatorLexemes, blanks] at hl <;> aesop
    have hright : Libbash.joinParens right.lexemes = right.lexemes := by
      cases op with
      | matchRegularExpression => exact RegexTokens.joined right
      | _ => exact hself _ (WordTokens.not_lparen right)
    rw [Leaf.lexemes, joinParens_append_right _ left.not_lparen, joinParens_append_right _ hop,
      hright]

/-! ## What a rule makes of a stretch of tokens -/

/-- A rule of the parser, with its bound. -/
abbrev Rule : Type := Nat → List Lexeme → Option (AstNode × List Lexeme)

/-- In front of what `F` allows, the rule reads the tokens and finds the tree;
or it finds nothing at all. -/
def Reads (rule : Rule) (F : List Lexeme → Prop) (ts : List Lexeme) (ok : Bool) (tree : AstNode) :
    Prop :=
  ∃ bound, ∀ d, bound ≤ d → ∀ rest, F rest →
    rule d (ts ++ rest) = if ok then some (tree, rest) else none

/-- Operands of one rule joined by an operator, as another rule with its loop
reads them. -/
structure Chain (op : Token) (operand whole : Rule) (loop : AstNode → Rule)
    (F G : List Lexeme → Prop) : Prop where
  whole_succ : ∀ d ts, whole (d + 1) ts = (operand d ts).bind fun x => loop x.1 d x.2
  loop_succ : ∀ l d ts, loop l (d + 1) ts =
    match readToken op.type (skipSpace ts) with
    | some (t, rest) => (operand d (skipSpace rest)).bind fun x => loop (.node t [l, x.1]) d x.2
    | none => some (l, ts)
  ends : ∀ rest, G rest → F rest
  stops : ∀ rest, G rest → readToken op.type (skipSpace rest) = none
  goesOn : ∀ s ts, F (spaces s ++ .tok op :: ts)
  notSpace : (Lexeme.tok op).isSpace = false

namespace Chain

variable {op : Token} {operand whole : Rule} {loop : AstNode → Rule} {F G : List Lexeme → Prop}
  {ts us : List Lexeme} {ok ok' : Bool} {tree tree' : AstNode}

/-- The loop without another operand. -/
theorem loop_stops (h : Chain op operand whole loop F G) (l : AstNode) (d : Nat)
    {rest : List Lexeme} (hrest : G rest) : loop l (d + 1) rest = some (l, rest) := by
  rw [h.loop_succ, h.stops rest hrest]

/-- One operand alone. -/
theorem last (h : Chain op operand whole loop F G) (ht : Reads operand F ts ok tree) :
    Reads whole G ts ok tree := by
  obtain ⟨bound, ht⟩ := ht
  refine ⟨bound + 2, fun d hd rest hrest => ?_⟩
  obtain ⟨d, rfl⟩ : ∃ k, d = k + 2 := ⟨d - 2, by omega⟩
  rw [h.whole_succ, ht (d + 1) (by omega) rest (h.ends rest hrest)]
  cases ok with
  | true => exact h.loop_stops tree d hrest
  | false => rfl

/-- The first operand, and the loop over the others. -/
theorem cons (h : Chain op operand whole loop F G) (ht : Reads operand F ts ok tree)
    (hF : ∀ rest, F (us ++ rest)) (hu : Reads (loop tree) G us ok' tree') :
    Reads whole G (ts ++ us) (ok && ok') tree' := by
  obtain ⟨bound, ht⟩ := ht
  obtain ⟨bound', hu⟩ := hu
  refine ⟨bound + bound' + 1, fun d hd rest hrest => ?_⟩
  obtain ⟨d, rfl⟩ : ∃ k, d = k + 1 := ⟨d - 1, by omega⟩
  rw [h.whole_succ, List.append_assoc, ht d (by omega) _ (hF rest)]
  cases ok with
  | true => exact hu d (by omega) rest hrest
  | false => rfl

/-- A pass of the loop: the operator with its space, and an operand. -/
theorem pass (h : Chain op operand whole loop F G) (l : AstNode) (d : Nat)
    (before after : List Space) {ts : List Lexeme} (hts : ∀ l ∈ ts.head?, l.isSpace = false) :
    loop l (d + 1) (spaces before ++ .tok op :: (spaces after ++ ts)) =
      (operand d ts).bind fun x => loop (.node op [l, x.1]) d x.2 := by
  have hhead : ∀ l ∈ (Lexeme.tok op :: (spaces after ++ ts)).head?, l.isSpace = false := by
    intro l hl
    cases hl
    exact h.notSpace
  rw [h.loop_succ, skipSpace_spaces before hhead, readToken_tok]
  simp only [skipSpace_spaces after hts]

/-- The last operand of the loop. -/
theorem loop_last (h : Chain op operand whole loop F G) (l : AstNode)
    (before after : List Space) (hts : ∀ rest, ∀ l ∈ (ts ++ rest).head?, l.isSpace = false)
    (ht : Reads operand F ts ok tree) :
    Reads (loop l) G (spaces before ++ .tok op :: (spaces after ++ ts)) ok (.node op [l, tree]) := by
  obtain ⟨bound, ht⟩ := ht
  refine ⟨bound + 2, fun d hd rest hrest => ?_⟩
  obtain ⟨d, rfl⟩ : ∃ k, d = k + 2 := ⟨d - 2, by omega⟩
  have hpass := h.pass l (d + 1) before after (hts rest)
  rw [ht (d + 1) (by omega) rest (h.ends rest hrest)] at hpass
  simp only [List.append_assoc, List.cons_append]
  rw [hpass]
  cases ok with
  | true => exact h.loop_stops _ d hrest
  | false => rfl

/-- An operand of the loop that others follow. -/
theorem loop_cons (h : Chain op operand whole loop F G) (l : AstNode)
    (before after : List Space) (hts : ∀ rest, ∀ l ∈ (ts ++ rest).head?, l.isSpace = false)
    (ht : Reads operand F ts ok tree) (hF : ∀ rest, F (us ++ rest))
    (hu : Reads (loop (.node op [l, tree])) G us ok' tree') :
    Reads (loop l) G (spaces before ++ .tok op :: (spaces after ++ (ts ++ us))) (ok && ok')
      tree' := by
  obtain ⟨bound, ht⟩ := ht
  obtain ⟨bound', hu⟩ := hu
  refine ⟨bound + bound' + 1, fun d hd rest hrest => ?_⟩
  obtain ⟨d, rfl⟩ : ∃ k, d = k + 1 := ⟨d - 1, by omega⟩
  have hpass := h.pass l d before after (hts (us ++ rest))
  rw [ht d (by omega) _ (hF rest)] at hpass
  simp only [List.append_assoc, List.cons_append]
  rw [hpass]
  cases ok with
  | true => exact hu d (by omega) rest hrest
  | false => rfl

end Chain

/-! ## What follows a rule -/

/-- What may follow a conjunction. -/
structure EndsAnd (rest : List Lexeme) : Prop extends Ends rest where
  noAnd : readToken .logicAnd (skipSpace rest) = none

/-- What may follow a condition. -/
structure EndsOr (rest : List Lexeme) : Prop extends EndsAnd rest where
  noOr : readToken .logicOr (skipSpace rest) = none

/-- Tokens that end a primary also after space. -/
def isCloser (t : Token) : Bool :=
  t.type == .logicAnd || t.type == .logicOr || t.type == .rparen

theorem isCloser_cases {t : Token} (h : isCloser t = true) :
    t.type = .logicAnd ∨ t.type = .logicOr ∨ t.type = .rparen := by
  simp only [isCloser, Bool.or_eq_true, beq_iff_eq, or_assoc] at h
  exact h

/-- Space is no operator. -/
theorem readOperator_spaces (s : List Space) {t : Token} (ts : List Lexeme)
    (h : isCloser t = true ∨ s ≠ [] ∧ t.type = .rsquare) :
    readOperator (spaces s ++ .tok t :: ts) = none := by
  have htype : t.type = .logicAnd ∨ t.type = .logicOr ∨ t.type = .rparen ∨ t.type = .rsquare := by
    rcases h with h | h
    · rcases isCloser_cases h with h | h | h
      · exact .inl h
      · exact .inr (.inl h)
      · exact .inr (.inr (.inl h))
    · exact .inr (.inr (.inr h.2))
  have hone : ∀ x : Space, ∀ l : Lexeme,
      (l.type? = some .logicAnd ∨ l.type? = some .logicOr ∨ l.type? = some .rparen ∨
        l.type? = some .rsquare ∨ l.type? = some .blank ∨ l.type? = some .eol) →
        ∀ us, readOperator (x.lexeme :: l :: us) = none := by
    intro x l hl us
    cases x <;> rcases hl with hl | hl | hl | hl | hl | hl <;>
      simp [readOperator, skipBlank, Space.lexeme, Lexeme.type?] <;> simp [Lexeme.type?] at hl <;>
      simp [hl]
  cases s with
  | nil =>
    have hclose := h.resolve_right fun h => h.1 rfl
    rcases isCloser_cases hclose with ht | ht | ht <;>
      simp [spaces, readOperator, skipBlank, Lexeme.type?, ht]
  | cons x s =>
    cases s with
    | nil =>
      apply hone
      rcases htype with ht | ht | ht | ht <;> simp [Lexeme.type?, ht]
    | cons y s =>
      apply hone
      cases y <;> simp [Space.lexeme, Lexeme.type?]

theorem ends_spaces (s : List Space) {t : Token} (ts : List Lexeme)
    (h : isCloser t = true ∨ s ≠ [] ∧ t.type = .rsquare) : Ends (spaces s ++ .tok t :: ts) where
  stops := by
    cases s with
    | nil =>
      intro l hl
      cases hl
      rcases isCloser_cases (h.resolve_right fun h => h.1 rfl) with ht | ht | ht <;>
        simp [patternStep, Lexeme.type?, ht]
    | cons x s =>
      intro l hl
      cases hl
      cases x <;> rfl
  noOperator := readOperator_spaces s ts h

/-- The next token after the space. -/
theorem readToken_spaces (s : List Space) {t : Token} {ty : TokenType} (ts : List Lexeme)
    (hspace : (Lexeme.tok t).isSpace = false) (hty : t.type ≠ ty) :
    readToken ty (skipSpace (spaces s ++ .tok t :: ts)) = none := by
  have hhead : ∀ l ∈ (Lexeme.tok t :: ts).head?, l.isSpace = false := by
    intro l hl
    cases hl
    exact hspace
  rw [skipSpace_spaces s hhead, readToken, if_neg hty]

theorem endsAnd_logicOr (s : List Space) (ts : List Lexeme) :
    EndsAnd (spaces s ++ .logicOr :: ts) where
  toEnds := ends_spaces s ts (.inl rfl)
  noAnd := readToken_spaces s ts rfl (by decide)

/-- The end of a group. -/
theorem endsOr_rparen (after : Bool) (ts : List Lexeme) :
    EndsOr (blanks after ++ .rparen :: ts) := by
  have hspaces : ∃ s, blanks after = spaces s := by
    cases after with
    | true => exact ⟨[.blank], rfl⟩
    | false => exact ⟨[], rfl⟩
  obtain ⟨s, hs⟩ := hspaces
  rw [hs]
  exact ⟨⟨ends_spaces s ts (.inl rfl), readToken_spaces s ts rfl (by decide)⟩,
    readToken_spaces s ts rfl (by decide)⟩

/-- The end of a test. -/
theorem endsOr_rsquare (x : Space) (s : List Space) (ts : List Lexeme) :
    EndsOr (spaces (x :: s) ++ .rsquare :: ts) :=
  ⟨⟨ends_spaces (x :: s) ts (.inr ⟨List.cons_ne_nil x s, rfl⟩),
    readToken_spaces (x :: s) ts rfl (by decide)⟩, readToken_spaces (x :: s) ts rfl (by decide)⟩

theorem andChain : Chain ⟨.logicAnd, "&&"⟩ keywordConditionPrimary keywordConditionAnd
    (fun l d ts => andOperands d l ts) Ends EndsAnd where
  whole_succ d ts := by
    rw [keywordConditionAnd]
    rfl
  loop_succ l d ts := by
    rw [andOperands]
    rfl
  ends _ h := h.toEnds
  stops _ h := h.noAnd
  goesOn s ts := ends_spaces s ts (.inl rfl)
  notSpace := rfl

theorem orChain : Chain ⟨.logicOr, "||"⟩ keywordConditionAnd keywordCondition
    (fun l d ts => orOperands d l ts) EndsAnd EndsOr where
  whole_succ d ts := by
    rw [keywordCondition]
    rfl
  loop_succ l d ts := by
    rw [orOperands]
    rfl
  ends _ h := h.toEndsAnd
  stops _ h := h.noOr
  goesOn := endsAnd_logicOr
  notSpace := rfl

/-! ## Where an operand begins -/

/-- The first token, and whether it is a parenthesis. -/
def Begins (group : Bool) (ts : List Lexeme) : Prop :=
  ∃ l us, ts = l :: us ∧ l.isSpace = false ∧ l.isLparen = group

theorem Leaf.begins (l : Leaf) : Begins false l.lexemes := by
  have hword : ∀ (w : WordTokens) (ts : List Lexeme), Begins false (w.lexemes ++ ts) := by
    intro w ts
    obtain ⟨l, us, hw, hl⟩ := w.exists_head
    have hspace := w.not_space ts l
    rw [hw] at hspace ⊢
    exact ⟨l, us ++ ts, rfl, hspace rfl, type_of_stringPart hl rfl⟩
  cases l with
  | unary op w => exact ⟨.minus, _, rfl, rfl, rfl⟩
  | string w => simpa [Leaf.lexemes] using hword w.toWordTokens []
  | binary op before after left right => exact hword left.toWordTokens _

theorem Primary.begins (p : Primary) : Begins p.startsGroup p.lexemes := by
  cases p with
  | group before c after =>
    rw [Primary.lexemes]
    exact ⟨.lparen, _, rfl, rfl, rfl⟩
  | negation p =>
    rw [Primary.lexemes]
    exact ⟨.bang, _, rfl, rfl, rfl⟩
  | leaf l =>
    rw [Primary.lexemes]
    exact l.begins

theorem Begins.append {group : Bool} {ts : List Lexeme} (h : Begins group ts) (us : List Lexeme) :
    Begins group (ts ++ us) := by
  obtain ⟨l, vs, rfl, hl⟩ := h
  exact ⟨l, vs ++ us, rfl, hl⟩

theorem Conjunction.begins (a : Conjunction) : Begins a.startsGroup a.lexemes := by
  cases a with
  | last p =>
    rw [Conjunction.lexemes]
    exact p.begins
  | cons p before after rest =>
    rw [Conjunction.lexemes]
    exact p.begins.append _

theorem Condition.begins (c : Condition) : Begins c.startsGroup c.lexemes := by
  cases c with
  | last a =>
    rw [Condition.lexemes]
    exact a.begins
  | cons a before after rest =>
    rw [Condition.lexemes]
    exact a.begins.append _

/-- Joining parentheses leaves something that is no space in front. -/
theorem Begins.not_space {group : Bool} {ts : List Lexeme} (h : Begins group ts)
    (rest : List Lexeme) : ∀ l ∈ (joinParens ts ++ rest).head?, l.isSpace = false := by
  obtain ⟨l, us, rfl, hspace, -⟩ := h
  intro l' hl'
  cases us with
  | nil =>
    cases hl'
    exact hspace
  | cons b us =>
    rw [joinParens] at hl'
    split_ifs at hl'
    · cases hl'
      rfl
    · cases hl'
      exact hspace

/-! ## Every rule finds its tree -/

/-- An operator between two operands keeps their parentheses apart. -/
theorem joinParens_operator (ts : List Lexeme) (before after : List Space) {op : Token}
    (us : List Lexeme) (hop : (Lexeme.tok op).isLparen = false) :
    joinParens (ts ++ (spaces before ++ .tok op :: (spaces after ++ us))) =
      joinParens ts ++ (spaces before ++ .tok op :: (spaces after ++ joinParens us)) := by
  have hhead : ∀ l ∈ (spaces before ++ .tok op :: (spaces after ++ us)).head?,
      l.isLparen = false := by
    intro l hl
    cases before with
    | nil =>
      cases hl
      exact hop
    | cons x s =>
      cases hl
      exact x.isLparen
  rw [joinParens_append ts hhead, joinParens_append_right _ (spaces_not_lparen before),
    joinParens_cons _ hop, joinParens_append_right _ (spaces_not_lparen after)]

/-- Nothing begins with two parentheses. -/
theorem keywordConditionPrimary_llparen (d : Nat) (ts : List Lexeme) :
    keywordConditionPrimary d (.llparen :: ts) = none := by
  cases d with
  | zero => rw [keywordConditionPrimary]
  | succ d =>
    rw [keywordConditionPrimary]
    simp [Lexeme.type?, keywordConditionBinary, conditionPart, Lexeme.isStringPart]

/-- The tokens between the parentheses of a group. -/
theorem joinParens_group (c : Condition) (after : Bool) :
    joinParens (c.lexemes ++ (blanks after ++ [.rparen])) =
      joinParens c.lexemes ++ (blanks after ++ [.rparen]) := by
  cases after <;> exact joinParens_append _ (fun l hl => by cases hl; rfl)

theorem group_parses {before : Bool} {c : Condition} (after : Bool)
    (hc : Reads keywordCondition EndsOr (joinParens c.lexemes) c.spaced c.tree) :
    Reads keywordConditionPrimary Ends (joinParens (Primary.group before c after).lexemes)
      (Primary.group before c after).spaced (Primary.group before c after).tree := by
  obtain ⟨l, us, hl, hspace, hparen⟩ := c.begins
  rw [Primary.lexemes, Primary.spaced, Primary.tree]
  -- A parenthesis that the group begins with is joined to its own one unless a blank parts them.
  cases hbefore : before || !c.startsGroup with
  | true =>
    have hjoin : joinParens
        (.lparen :: (blanks before ++ (c.lexemes ++ (blanks after ++ [.rparen])))) =
          .lparen :: (blanks before ++ (joinParens c.lexemes ++ (blanks after ++ [.rparen]))) := by
      rw [← joinParens_group]
      cases before with
      | true => simp [blanks, hl, joinParens, Lexeme.isLparen, Lexeme.type?]
      | false =>
        rw [Bool.false_or, Bool.not_eq_true'] at hbefore
        rw [hbefore] at hparen
        simp [blanks, hl, joinParens, hparen]
    obtain ⟨bound, hc⟩ := hc
    refine ⟨bound + 1, fun d hd rest hrest => ?_⟩
    obtain ⟨d, rfl⟩ : ∃ k, d = k + 1 := ⟨d - 1, by omega⟩
    have hinner := hc d (by omega) _ (endsOr_rparen after rest)
    have hskip : skipBlank (blanks before ++ (joinParens c.lexemes ++
        (blanks after ++ .rparen :: rest))) =
          joinParens c.lexemes ++ (blanks after ++ .rparen :: rest) :=
      skipBlank_blanks before (c.begins.not_space _)
    have hclose : skipBlank (blanks after ++ .rparen :: rest) = .rparen :: rest :=
      skipBlank_blanks after (fun l hl => by cases hl; rfl)
    rw [hjoin, keywordConditionPrimary]
    simp only [List.cons_append, List.append_assoc, List.nil_append, startsWith_cons,
      startsWith_nil, Lexeme.type?, beq_self_eq_true, Bool.and_self, if_true, List.drop_succ_cons,
      List.drop_zero, hskip, hinner, Bool.true_and, Option.bind_eq_bind]
    cases c.spaced with
    | true =>
      simp only [if_true, Option.bind_some, hclose]
      rfl
    | false => rfl
  | false =>
    rw [Bool.or_eq_false_iff, Bool.not_eq_false'] at hbefore
    rw [hbefore.2] at hparen
    refine ⟨0, fun d _ rest _ => ?_⟩
    have hjoin : ∃ ts, joinParens
        (.lparen :: (blanks before ++ (c.lexemes ++ (blanks after ++ [.rparen])))) =
          .llparen :: ts := by
      have hfirst : Lexeme.isLparen .lparen = true := rfl
      refine ⟨joinParens (us ++ (blanks after ++ [.rparen])), ?_⟩
      simp only [hbefore.1, hl, blanks, Bool.false_eq_true, if_false, List.nil_append,
        List.cons_append, joinParens, hparen, hfirst, Bool.and_self, if_true]
    obtain ⟨ts, hjoin⟩ := hjoin
    rw [hjoin]
    exact keywordConditionPrimary_llparen d _

theorem negation_parses {p : Primary}
    (hp : Reads keywordConditionPrimary Ends (joinParens p.lexemes) p.spaced p.tree) :
    Reads keywordConditionPrimary Ends (joinParens (Primary.negation p).lexemes)
      (Primary.negation p).spaced (Primary.negation p).tree := by
  obtain ⟨bound, hp⟩ := hp
  refine ⟨bound + 1, fun d hd rest hrest => ?_⟩
  obtain ⟨d, rfl⟩ : ∃ k, d = k + 1 := ⟨d - 1, by omega⟩
  rw [Primary.lexemes, Primary.spaced, Primary.tree, joinParens_cons _ rfl, joinParens_cons _ rfl,
    keywordConditionPrimary]
  have hinner := hp d (by omega) rest hrest
  simp only [List.cons_append, startsWith_cons, startsWith_nil, Lexeme.type?, Bool.and_true,
    List.drop_succ_cons, List.drop_zero, readToken, if_true, Option.bind_eq_bind,
    Option.bind_some, hinner]
  cases p.spaced with
  | true => rfl
  | false => rfl

mutual

theorem Primary.parses : (p : Primary) →
    Reads keywordConditionPrimary Ends (joinParens p.lexemes) p.spaced p.tree
  | .group before c after => group_parses after c.parses
  | .negation p => negation_parses p.parses
  | .leaf l => by
    refine ⟨1, fun d hd rest hrest => ?_⟩
    obtain ⟨d, rfl⟩ : ∃ k, d = k + 1 := ⟨d - 1, by omega⟩
    rw [Primary.lexemes, Primary.spaced, Primary.tree, l.joinParens]
    exact l.parses d hrest

theorem Conjunction.parses : (a : Conjunction) →
    Reads keywordConditionAnd EndsAnd (joinParens a.lexemes) a.spaced a.tree
  | .last p => by
    rw [Conjunction.lexemes, Conjunction.spaced, Conjunction.tree]
    exact andChain.last p.parses
  | .cons p before after rest => by
    rw [Conjunction.lexemes, Conjunction.spaced, Conjunction.tree,
      joinParens_operator _ _ _ _ rfl]
    refine andChain.cons p.parses (fun ts => ?_) (rest.parsesFrom p.tree before after)
    rw [List.append_assoc, List.cons_append]
    exact andChain.goesOn before _

/-- The loop of `keyword_condition_and`. -/
theorem Conjunction.parsesFrom : (a : Conjunction) → (l : AstNode) →
    (before after : List Space) → Reads (fun d ts => andOperands d l ts) EndsAnd
      (spaces before ++ .logicAnd :: (spaces after ++ joinParens a.lexemes)) a.spaced (a.treeFrom l)
  | .last p, l, before, after => by
    rw [Conjunction.lexemes, Conjunction.spaced, Conjunction.treeFrom]
    exact andChain.loop_last l before after p.begins.not_space p.parses
  | .cons p before' after' rest, l, before, after => by
    rw [Conjunction.lexemes, Conjunction.spaced, Conjunction.treeFrom,
      joinParens_operator _ _ _ _ rfl]
    refine andChain.loop_cons l before after p.begins.not_space p.parses (fun ts => ?_)
      (rest.parsesFrom _ before' after')
    rw [List.append_assoc, List.cons_append]
    exact andChain.goesOn before' _

theorem Condition.parses : (c : Condition) →
    Reads keywordCondition EndsOr (joinParens c.lexemes) c.spaced c.tree
  | .last a => by
    rw [Condition.lexemes, Condition.spaced, Condition.tree]
    exact orChain.last a.parses
  | .cons a before after rest => by
    rw [Condition.lexemes, Condition.spaced, Condition.tree, joinParens_operator _ _ _ _ rfl]
    refine orChain.cons a.parses (fun ts => ?_) (rest.parsesFrom a.tree before after)
    rw [List.append_assoc, List.cons_append]
    exact orChain.goesOn before _

/-- The loop of `keyword_condition`. -/
theorem Condition.parsesFrom : (c : Condition) → (l : AstNode) →
    (before after : List Space) → Reads (fun d ts => orOperands d l ts) EndsOr
      (spaces before ++ .logicOr :: (spaces after ++ joinParens c.lexemes)) c.spaced (c.treeFrom l)
  | .last a, l, before, after => by
    rw [Condition.lexemes, Condition.spaced, Condition.treeFrom]
    exact orChain.loop_last l before after a.begins.not_space a.parses
  | .cons a before' after' rest, l, before, after => by
    rw [Condition.lexemes, Condition.spaced, Condition.treeFrom, joinParens_operator _ _ _ _ rfl]
    refine orChain.loop_cons l before after a.begins.not_space a.parses (fun ts => ?_)
      (rest.parsesFrom _ before' after')
    rw [List.append_assoc, List.cons_append]
    exact orChain.goesOn before' _

end

namespace Test

/-- The lexer changes nothing but the condition. -/
theorem tokens_eq (t : Test) :
    t.tokens = .lsquare :: .lsquare :: (spaces (t.before :: t.moreBefore) ++
      (joinParens t.condition.lexemes ++ (spaces (t.after :: t.moreAfter) ++
        [.rsquare, .rsquare]))) := by
  have hend : ∀ l ∈ (spaces (t.after :: t.moreAfter) ++ [Lexeme.rsquare, .rsquare]).head?,
      l.isLparen = false := by
    intro l hl
    cases hl
    exact t.after.isLparen
  have hself : joinParens (spaces (t.after :: t.moreAfter) ++ [.rsquare, .rsquare]) =
      spaces (t.after :: t.moreAfter) ++ [.rsquare, .rsquare] :=
    joinParens_append_right _ (spaces_not_lparen _)
  rw [tokens, lexemes, joinParens_cons _ rfl, joinParens_cons _ rfl,
    joinParens_append_right _ (spaces_not_lparen _), joinParens_append _ hend, hself]

/-- `condition_expr` reads the whole test and finds its tree, or nothing. -/
theorem parses (t : Test) :
    ∃ bound, ∀ d, bound ≤ d →
      conditionExpr d t.tokens = if t.condition.spaced then some (t.tree, []) else none := by
  obtain ⟨bound, hc⟩ := t.condition.parses
  refine ⟨bound, fun d hd => ?_⟩
  have hinner := hc d hd _ (endsOr_rsquare t.after t.moreAfter [.rsquare])
  have hbefore := readSpace_spaces t.before t.moreBefore
    (t.condition.begins.not_space (spaces (t.after :: t.moreAfter) ++ [.rsquare, .rsquare]))
  have hafter : readSpace (spaces (t.after :: t.moreAfter) ++ [.rsquare, .rsquare]) =
      some ((), [.rsquare, .rsquare]) :=
    readSpace_spaces t.after t.moreAfter (fun l hl => by cases hl; rfl)
  rw [t.tokens_eq]
  unfold conditionExpr
  simp only [readToken, if_true, Option.bind_eq_bind, Option.bind_some, hbefore, hinner]
  cases t.condition.spaced with
  | true =>
    simp only [if_true, Option.bind_some, hafter]
    rfl
  | false => rfl

end Test

/-- With a large enough bound, the rule `condition_expr` makes the tree of the
whole text. -/
def Parses (ts : List Lexeme) (tree : AstNode) : Prop :=
  ∃ bound, ∀ d, bound ≤ d → conditionExpr d ts = some (tree, [])

theorem parses_tree {t : Test} (h : t.condition.spaced = true) : Parses t.tokens t.tree := by
  obtain ⟨bound, hparse⟩ := t.parses
  refine ⟨bound, fun d hd => ?_⟩
  rw [hparse d hd, if_pos h]

/-- A test has no tree but its own, and that only if no parentheses are
joined. -/
theorem Parses.spaced {t : Test} {tree : AstNode} (h : Parses t.tokens tree) :
    t.condition.spaced = true ∧ tree = t.tree := by
  obtain ⟨bound, hparse⟩ := t.parses
  obtain ⟨bound', h⟩ := h
  have hone := hparse (bound + bound') (by omega)
  rw [h (bound + bound') (by omega)] at hone
  cases hspaced : t.condition.spaced with
  | true =>
    rw [hspaced, if_pos rfl] at hone
    cases hone
    exact ⟨rfl, rfl⟩
  | false =>
    rw [hspaced] at hone
    cases hone

end Written

end Libbash
