import Mathlib.Data.List.Chain
import Libbash.Lib.Brackets

/-!
# The token of a command substitution

`COMMAND_SUBSTITUTION_PAREN` counts parentheses up to the one that closes the substitution.
It knows single quotes, and a backslash before a parenthesis. Double quotes it does not know,
and of single quotes only those for which the substitution itself is not in double ones.
`spansExactly_iff` says for which texts the token ends where the substitution does, and
`Plainly.codeBalanced_iff` which texts the code reads as the shell does.
-/

namespace Libbash

open Lib

/-! ## The code -/

/-- Characters of a token before what is found behind them. -/
def putBefore (text : List Char) (r : Option (List Char × List Char)) :
    Option (List Char × List Char) :=
  r.map fun found => (text ++ found.1, found.2)

/-- The loop of `COMMAND_SUBSTITUTION_PAREN`: the characters of the token, and those behind it.
`quoted` is set within a `SINGLE_QUOTED_STRING_TOKEN`, and there is none without an end. A text
that ends before `paren_level` is 0 ends the loop. -/
def parenLoop (doubleQuoted : Bool) : Bool → Nat → List Char → Option (List Char × List Char)
  | true, _, [] => none
  | true, parenLevel, c :: cs => putBefore [c] (parenLoop doubleQuoted (c != '\'') parenLevel cs)
  | false, _, [] => some ([], [])
  -- `ESC_LPAREN` and `ESC_RPAREN`
  | false, parenLevel, '\\' :: '(' :: cs =>
    putBefore ['\\', '('] (parenLoop doubleQuoted false parenLevel cs)
  | false, parenLevel, '\\' :: ')' :: cs =>
    putBefore ['\\', ')'] (parenLoop doubleQuoted false parenLevel cs)
  | false, parenLevel, '(' :: cs =>
    putBefore ['('] (parenLoop doubleQuoted false (parenLevel + 1) cs)
  | false, parenLevel, ')' :: cs =>
    if parenLevel - 1 = 0 then some ([')'], cs)
    else putBefore [')'] (parenLoop doubleQuoted false (parenLevel - 1) cs)
  -- In double quotes the predicate of the token fails, and the quote is a character.
  | false, parenLevel, '\'' :: cs =>
    putBefore ['\''] (parenLoop doubleQuoted (!doubleQuoted) parenLevel cs)
  | false, parenLevel, c :: cs => putBefore [c] (parenLoop doubleQuoted false parenLevel cs)

/-- `COMMAND_SUBSTITUTION_PAREN`: the token and the characters behind it, if there is such a
token here. -/
def commandSubstitutionParen (doubleQuoted : Bool) : List Char → Option (List Char × List Char)
  | '$' :: '(' :: cs =>
    if cs.head? = some '(' ∨ cs = [] then none
    else putBefore ['$', '('] (parenLoop doubleQuoted false 1 cs)
  | _ => none

/-! ## What the token should be -/

/-- How the shell takes the next character. -/
inductive Quoting where
  | unquoted | escaped | single | double | doubleEscaped
  deriving DecidableEq, Repr

/-- What a parenthesis means that is not quoted. -/
def parenMark : Char → Mark
  | '(' => .opening
  | ')' => .closing
  | _ => .plain

/-- Behind a character that is not quoted. -/
def quotingBehind : Char → Quoting
  | '\\' => .escaped
  | '\'' => .single
  | '"' => .double
  | _ => .unquoted

/-- Behind a character in double quotes. -/
def doubleBehind : Char → Quoting
  | '\\' => .doubleEscaped
  | '"' => .unquoted
  | _ => .double

/-- The quoting rules of the shell. -/
def shellReader : Reader Quoting Char where
  mark
    | .unquoted, c => parenMark c
    | _, _ => .plain
  next
    | .unquoted, c => quotingBehind c
    | .escaped, _ => .unquoted
    | .single, c => if c = '\'' then .unquoted else .single
    | .double, c => doubleBehind c
    | .doubleEscaped, _ => .double

/-- The parentheses of a text are balanced, without the escaped and the quoted ones. -/
def ShellBalanced (t : List Char) : Prop := shellReader.Balanced .unquoted t

instance (t : List Char) : Decidable (ShellBalanced t) :=
  inferInstanceAs (Decidable (shellReader.Balanced .unquoted t))

/-- The token of `$(t)` ends with the parenthesis behind `t`, whatever follows. -/
def SpansExactly (doubleQuoted : Bool) (t : List Char) : Prop :=
  ∀ rest, commandSubstitutionParen doubleQuoted ('$' :: '(' :: (t ++ ')' :: rest)) =
    some ('$' :: '(' :: (t ++ [')']), rest)

/-! ## How the code reads -/

/-- How the code takes the next character. -/
inductive Place where
  | plain | behindBackslash | singleQuoted
  deriving DecidableEq, Repr

/-- What the code makes of a character outside of single quotes. -/
def placeBehind (doubleQuoted : Bool) : Char → Place
  | '\\' => .behindBackslash
  | '\'' => if doubleQuoted then .plain else .singleQuoted
  | _ => .plain

/-- A backslash is undone by any character behind it but a parenthesis, and a single quote is
one unless the substitution is in double quotes. -/
def codeReader (doubleQuoted : Bool) : Reader Place Char where
  mark
    | .plain, c => parenMark c
    | _, _ => .plain
  next
    | .plain, c => placeBehind doubleQuoted c
    | .behindBackslash, c => placeBehind doubleQuoted c
    | .singleQuoted, c => if c = '\'' then .plain else .singleQuoted

/-- The parentheses of a text are balanced in the reading of the code. -/
def CodeBalanced (doubleQuoted : Bool) (t : List Char) : Prop :=
  (codeReader doubleQuoted).Balanced .plain t

instance (doubleQuoted : Bool) (t : List Char) : Decidable (CodeBalanced doubleQuoted t) :=
  inferInstanceAs (Decidable ((codeReader doubleQuoted).Balanced .plain t))

/-- The place of the loop. -/
def placeOf : Bool → Place
  | true => .singleQuoted
  | false => .plain

/-- What the loop finds when so many characters end with the parenthesis that it looks for, or
when there is none. -/
def loopResult (cs : List Char) (last : Place) : Option Nat → Option (List Char × List Char)
  | some n => some (cs.take n, cs.drop n)
  | none => if last = .singleQuoted then none else some (cs, [])

theorem putBefore_loopResult (c : Char) (cs : List Char) (last : Place) (o : Option Nat) :
    putBefore [c] (loopResult cs last o) = loopResult (c :: cs) last (o.map (· + 1)) := by
  cases o with
  | some n => rfl
  | none =>
    show putBefore [c] (if last = .singleQuoted then none else some (cs, [])) =
      if last = .singleQuoted then none else some (c :: cs, [])
    split <;> rfl

variable (doubleQuoted : Bool)

/-- A character that is no parenthesis to the reader is passed over. -/
theorem loopResult_cons (place : Place) {c : Char}
    (h : (codeReader doubleQuoted).mark place c = .plain) (level : Nat) (cs : List Char) :
    loopResult (c :: cs) ((codeReader doubleQuoted).after place (c :: cs))
        ((codeReader doubleQuoted).scan place level (c :: cs)) =
      putBefore [c] (loopResult cs
        ((codeReader doubleQuoted).after ((codeReader doubleQuoted).next place c) cs)
        ((codeReader doubleQuoted).scan ((codeReader doubleQuoted).next place c) level cs)) := by
  rw [putBefore_loopResult, Reader.after_cons, Reader.scan, h]

/-- Before a character that is no parenthesis the backslash does not matter. -/
theorem loopResult_behindBackslash {cs : List Char} (h : ∀ c ∈ cs.head?, parenMark c = .plain)
    (level : Nat) :
    loopResult cs ((codeReader doubleQuoted).after .behindBackslash cs)
        ((codeReader doubleQuoted).scan .behindBackslash level cs) =
      loopResult cs ((codeReader doubleQuoted).after .plain cs)
        ((codeReader doubleQuoted).scan .plain level cs) := by
  cases cs with
  | nil => rfl
  | cons c cs =>
    have hmark : (codeReader doubleQuoted).mark .plain c = .plain := h c rfl
    rw [loopResult_cons doubleQuoted _ hmark,
      loopResult_cons doubleQuoted .behindBackslash rfl]
    rfl

theorem putBefore_append (text text' : List Char) (r : Option (List Char × List Char)) :
    putBefore text (putBefore text' r) = putBefore (text ++ text') r := by
  cases r with
  | none => rfl
  | some found =>
    show some (text ++ (text' ++ found.1), found.2) = some (text ++ text' ++ found.1, found.2)
    rw [List.append_assoc]

theorem parenMark_eq_plain {c : Char} (hopen : c ≠ '(') (hclose : c ≠ ')') :
    parenMark c = .plain := by
  unfold parenMark
  split
  · exact absurd rfl hopen
  · exact absurd rfl hclose
  · rfl

theorem placeBehind_eq_plain {c : Char} (hescape : c ≠ '\\') (hquote : c ≠ '\'') :
    placeBehind doubleQuoted c = .plain := by
  unfold placeBehind
  split
  · exact absurd rfl hescape
  · exact absurd rfl hquote
  · rfl

/-- The loop counts along its reading of the text. -/
theorem parenLoop_eq (quoted : Bool) (level : Nat) (cs : List Char) :
    parenLoop doubleQuoted quoted level cs =
      loopResult cs ((codeReader doubleQuoted).after (placeOf quoted) cs)
        ((codeReader doubleQuoted).scan (placeOf quoted) level cs) := by
  fun_induction parenLoop doubleQuoted quoted level cs with
  | case1 => rfl
  | case2 level c cs ih =>
    -- Within single quotes any character is passed over, and a quote ends them.
    have hnext : (codeReader doubleQuoted).next .singleQuoted c = placeOf (c != '\'') := by
      show (if c = '\'' then Place.plain else .singleQuoted) = _
      split
      · next h =>
        rw [h]
        rfl
      · next h =>
        rw [bne_iff_ne.mpr h]
        rfl
    rw [placeOf, loopResult_cons doubleQuoted _ rfl, hnext, ih]
  | case3 => rfl
  | case4 level cs ih | case5 level cs ih =>
    -- The backslash and the parenthesis behind it are two characters of the reading.
    rw [placeOf, loopResult_cons doubleQuoted _ rfl, loopResult_cons doubleQuoted _ rfl,
      putBefore_append, ih]
    rfl
  | case6 level cs ih =>
    rw [ih, putBefore_loopResult]
    rfl
  | case7 level cs h =>
    show _ = loopResult (')' :: cs) _ (if level - 1 = 0 then _ else _)
    rw [if_pos h]
    rfl
  | case8 level cs h ih =>
    rw [ih, putBefore_loopResult]
    show _ = loopResult (')' :: cs) _ (if level - 1 = 0 then _ else _)
    rw [if_neg h]
    rfl
  | case9 level cs ih =>
    rw [placeOf, loopResult_cons doubleQuoted _ rfl, ih]
    cases doubleQuoted with
    | false => rfl
    | true => rfl
  | case10 level c cs hopen hclose h1 h2 h3 ih =>
    have hmark : (codeReader doubleQuoted).mark .plain c = .plain := parenMark_eq_plain h1 h2
    rw [placeOf, loopResult_cons doubleQuoted _ hmark, ih]
    by_cases hescape : c = '\\'
    · -- The reader remembers the backslash, which no parenthesis follows.
      subst hescape
      have hhead : ∀ d ∈ cs.head?, parenMark d = .plain := by
        intro d hd
        obtain ⟨ds, rfl⟩ := List.head?_eq_some_iff.mp hd
        apply parenMark_eq_plain
        · rintro rfl
          exact hopen ds rfl rfl
        · rintro rfl
          exact hclose ds rfl rfl
      exact congrArg (putBefore _) (loopResult_behindBackslash doubleQuoted hhead level).symm
    · have hnext : (codeReader doubleQuoted).next .plain c = .plain :=
        placeBehind_eq_plain doubleQuoted hescape h3
      rw [hnext]
      rfl

/-! ## Where the token ends -/

/-- What the parenthesis behind a text means to the code. -/
theorem mark_close {place : Place} :
    (codeReader doubleQuoted).mark place ')' = .closing ↔ place = .plain := by
  cases place with
  | plain => exact iff_of_true rfl rfl
  | behindBackslash => exact iff_of_false nofun nofun
  | singleQuoted => exact iff_of_false nofun nofun

/-- The count ends with the parenthesis behind a text that the code reads as balanced. -/
theorem scan_eq_iff_codeBalanced (t rest : List Char) :
    (codeReader doubleQuoted).scan .plain 1 (t ++ ')' :: rest) = some (t.length + 1) ↔
      CodeBalanced doubleQuoted t := by
  rw [Reader.scan_eq_iff, mark_close]
  exact ⟨fun h => ⟨h.1, h.2⟩, fun h => ⟨h.1, h.2⟩⟩

theorem loopResult_length (text rest : List Char) (last : Place) :
    loopResult (text ++ rest) last (some text.length) = some (text, rest) := by
  rw [loopResult, List.take_left, List.drop_left]

/-- When something is left behind the token, it has ended at a parenthesis. -/
theorem eq_length_of_loopResult {text rest : List Char} {last : Place} {o : Option Nat}
    (hrest : rest ≠ []) (h : loopResult (text ++ rest) last o = some (text, rest)) :
    o = some text.length := by
  cases o with
  | none =>
    rw [loopResult] at h
    split at h
    · cases h
    · exact absurd (Prod.mk.inj (Option.some.inj h)).2.symm hrest
  | some n =>
    have hdrop : (text ++ rest).drop n = rest := (Prod.mk.inj (Option.some.inj h)).2
    have hlen := congrArg List.length hdrop
    have hpos := List.length_pos_iff.mpr hrest
    rw [List.length_drop, List.length_append] at hlen
    rw [show n = text.length by omega]

theorem putBefore_eq_some_iff (text : List Char) {found rest : List Char}
    {r : Option (List Char × List Char)} :
    putBefore text r = some (text ++ found, rest) ↔ r = some (found, rest) := by
  cases r with
  | none => exact iff_of_false nofun nofun
  | some x =>
    show some (text ++ x.1, x.2) = _ ↔ _
    rw [Option.some.injEq, Prod.mk.injEq, List.append_cancel_left_eq, Option.some.injEq,
      Prod.ext_iff]

/-- The predicate of the token is about the first character of the text. -/
theorem commandSubstitutionParen_eq (t rest : List Char) :
    commandSubstitutionParen doubleQuoted ('$' :: '(' :: (t ++ ')' :: rest)) =
      if t.head? = some '(' then none
      else putBefore ['$', '('] (parenLoop doubleQuoted false 1 (t ++ ')' :: rest)) := by
  have hgate : ((t ++ ')' :: rest).head? = some '(' ∨ t ++ ')' :: rest = []) ↔
      t.head? = some '(' := by
    cases t with
    | nil => simp
    | cons c t => simp
  rw [commandSubstitutionParen]
  simp only [hgate]

/-- The token ends with its own parenthesis just if the text starts with no other one, and
its parentheses are balanced in the reading of the code. -/
theorem spansExactly_iff (t : List Char) :
    SpansExactly doubleQuoted t ↔ t.head? ≠ some '(' ∧ CodeBalanced doubleQuoted t := by
  unfold SpansExactly
  by_cases hhead : t.head? = some '('
  · refine iff_of_false ?_ (fun hboth => hboth.1 hhead)
    intro h
    have hnone := h []
    rw [commandSubstitutionParen_eq, if_pos hhead] at hnone
    cases hnone
  · have htoken : ∀ rest, commandSubstitutionParen doubleQuoted
        ('$' :: '(' :: (t ++ ')' :: rest)) = some ('$' :: '(' :: (t ++ [')']), rest) ↔
        loopResult ((t ++ [')']) ++ rest)
          ((codeReader doubleQuoted).after .plain (t ++ ')' :: rest))
          ((codeReader doubleQuoted).scan .plain 1 (t ++ ')' :: rest)) =
            some (t ++ [')'], rest) := by
      intro rest
      rw [commandSubstitutionParen_eq, if_neg hhead, parenLoop_eq, List.append_cons]
      exact putBefore_eq_some_iff ['$', '(']
    simp only [htoken, ne_eq, hhead, not_false_eq_true, true_and]
    constructor
    · intro h
      -- A character behind the parenthesis shows that the token does not go on.
      have hscan := eq_length_of_loopResult (List.cons_ne_nil 'x' []) (h ['x'])
      rw [List.length_append] at hscan
      exact (scan_eq_iff_codeBalanced doubleQuoted t _).mp hscan
    · intro h rest
      have hscan := (scan_eq_iff_codeBalanced doubleQuoted t rest).mpr h
      rw [hscan, show t.length + 1 = (t ++ [')']).length by rw [List.length_append]; rfl]
      exact loopResult_length _ _ _

/-- In double quotes a parenthesis is counted, and ends the token of `$(echo ")")`. -/
theorem not_spansExactly_doubleQuotes :
    ¬ ∀ doubleQuoted t, ShellBalanced t → SpansExactly doubleQuoted t := by
  intro h
  have hends := h false "echo \")\"".toList (by decide) []
  exact absurd hends (by decide)

/-- So it is in single quotes when the substitution stands in double ones. -/
example : ShellBalanced "echo ')'".toList ∧ ¬ CodeBalanced true "echo ')'".toList := by decide

/-- A pattern of `sed` is read as it should be. -/
example : ShellBalanced "sed 's/(\"\\([^\"]*\\)\",.*/p'".toList ∧
    CodeBalanced false "sed 's/(\"\\([^\"]*\\)\",.*/p'".toList := by decide

/-! ## Texts that both read alike -/

/-- No double quotes, no single ones within double ones, and no backslash that takes away the
meaning of another one or of a quote. -/
structure Plainly (t : List Char) : Prop where
  noDouble : '"' ∉ t
  noSingle : doubleQuoted = true → '\'' ∉ t
  escapes : t.IsChain fun a b => a = '\\' → b ≠ '\\' ∧ b ≠ '\''

variable {doubleQuoted}

theorem Plainly.tail {c : Char} {t : List Char} (h : Plainly doubleQuoted (c :: t)) :
    Plainly doubleQuoted t where
  noDouble := fun hmem => h.noDouble (List.mem_cons_of_mem c hmem)
  noSingle := fun hdouble hmem => h.noSingle hdouble (List.mem_cons_of_mem c hmem)
  escapes := (List.isChain_cons.mp h.escapes).2

variable (doubleQuoted) in
/-- The shell and the code are at the same place of such a text. -/
inductive Alike : Quoting → Place → List Char → Prop where
  | unquoted {t : List Char} (h : Plainly doubleQuoted t) : Alike .unquoted .plain t
  | escaped {t : List Char} (hhead : ∀ c ∈ t.head?, c ≠ '\\' ∧ c ≠ '\'')
      (h : Plainly doubleQuoted t) : Alike .escaped .behindBackslash t
  | single {t : List Char} (hdouble : doubleQuoted = false) (h : Plainly doubleQuoted t) :
      Alike .single .singleQuoted t

/-- A character outside of quotes that is not escaped. -/
theorem Plainly.next {c : Char} {t : List Char} (h : Plainly doubleQuoted (c :: t)) :
    Alike doubleQuoted (shellReader.next .unquoted c)
      ((codeReader doubleQuoted).next .plain c) t := by
  have hdouble : c ≠ '"' := fun heq => h.noDouble (heq ▸ List.mem_cons_self)
  by_cases hescape : c = '\\'
  · subst hescape
    exact .escaped (fun d hd => (List.isChain_cons.mp h.escapes).1 d hd rfl) h.tail
  · by_cases hsingle : c = '\''
    · subst hsingle
      have hfalse : doubleQuoted = false := by
        cases doubleQuoted with
        | false => rfl
        | true => exact absurd List.mem_cons_self (h.noSingle rfl)
      subst hfalse
      exact .single rfl h.tail
    · have hcode : (codeReader doubleQuoted).next .plain c = .plain :=
        placeBehind_eq_plain doubleQuoted hescape hsingle
      have hshell : shellReader.next .unquoted c = .unquoted := by
        show quotingBehind c = .unquoted
        unfold quotingBehind
        split
        · exact absurd rfl hescape
        · exact absurd rfl hsingle
        · exact absurd rfl hdouble
        · rfl
      rw [hcode, hshell]
      exact .unquoted h.tail

/-- One character keeps both at the same place, and means the same to them. -/
theorem Alike.step {quoting : Quoting} {place : Place} {c : Char} {t : List Char}
    (h : Alike doubleQuoted quoting place (c :: t)) :
    shellReader.mark quoting c = (codeReader doubleQuoted).mark place c ∧
      Alike doubleQuoted (shellReader.next quoting c)
        ((codeReader doubleQuoted).next place c) t := by
  cases h with
  | unquoted h => exact ⟨rfl, h.next⟩
  | escaped hhead h =>
    obtain ⟨hescape, hsingle⟩ := hhead c rfl
    have hcode : (codeReader doubleQuoted).next .behindBackslash c = .plain :=
      placeBehind_eq_plain doubleQuoted hescape hsingle
    rw [hcode]
    exact ⟨rfl, .unquoted h.tail⟩
  | single hdouble h =>
    refine ⟨rfl, ?_⟩
    show Alike doubleQuoted (if c = '\'' then .unquoted else .single)
      (if c = '\'' then .plain else .singleQuoted) t
    split
    · exact .unquoted h.tail
    · exact .single hdouble h.tail

/-- Of such a text the code counts what the shell counts. -/
theorem Plainly.codeBalanced_iff {t : List Char} (h : Plainly doubleQuoted t) :
    CodeBalanced doubleQuoted t ↔ ShellBalanced t := by
  obtain ⟨hmarks, hends⟩ := Reader.marks_eq shellReader (codeReader doubleQuoted)
    (R := Alike doubleQuoted) (fun _ _ _ _ => Alike.step) (.unquoted h)
  have hplace : (codeReader doubleQuoted).after .plain t = .plain ↔
      shellReader.after .unquoted t = .unquoted := by
    generalize (codeReader doubleQuoted).after .plain t = place at hends
    generalize shellReader.after .unquoted t = quoting at hends
    cases hends with
    | unquoted => exact iff_of_true rfl rfl
    | escaped => exact iff_of_false nofun nofun
    | single => exact iff_of_false nofun nofun
  constructor
  · intro hcode
    refine ⟨?_, hplace.mp hcode.ends⟩
    rw [hmarks]
    exact hcode.marks
  · intro hshell
    refine ⟨?_, hplace.mpr hshell.ends⟩
    rw [← hmarks]
    exact hshell.marks

end Libbash
