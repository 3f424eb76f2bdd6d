import Libbash.Lib.ActionParsers
import Libbash.Interp.Expand

/-!
# The grammar of escapes

`transform_escapes` runs a grammar whose actions write while it matches, and it takes
back nothing of an alternative that it leaves. `Scans` is the output of one pass over
the text from left to right that looks at every character once. `parseEscapes_iff`: the
grammar writes just that, because an alternative that fails has written nothing.
-/

namespace Libbash

open Lib Lib.ActionParser

/-! ## The grammar -/

/-- A part of the grammar; the only thing it throws is `suppress_output`. -/
abbrev EscapeRule (A : Type) := ActionParser Char Char Unit A

/-- `qi::uint_parser` with one digit at least and `most + 1` at most. -/
def uintParser (digit : Char → Option Nat) (base most : Nat) : EscapeRule Nat := fun input out =>
  match input with
  | [] => (.failed, out)
  | c :: cs =>
    match digit c with
    | some k =>
      (.matched (readDigits digit base most k cs).1 (readDigits digit base most k cs).2, out)
    | none => (.failed, out)

/-- The alternative of one letter. -/
def letterRule (c : Char) (text : List Char) : Char × EscapeRule Unit :=
  (c, writes (lit c) fun _ => text)

/-- The alternative of a code. -/
def codeRule (c : Char) (digit : Char → Option Nat) (base most : Nat) : Char × EscapeRule Unit :=
  (c, seq (lit c) (writes (uintParser digit base most) fun n => [charCode n]))

/-- The alternatives after a backslash, each with the character that it starts with. -/
def escapeRules (ansiC : Bool) : List (Char × EscapeRule Unit) :=
  [letterRule 'a' [Char.ofNat 7], letterRule 'b' [Char.ofNat 8], letterRule 'e' [Char.ofNat 27],
    letterRule 'E' [Char.ofNat 27], letterRule 'f' [Char.ofNat 12], letterRule 'n' ['\n'],
    letterRule 'r' ['\r'], letterRule 't' ['\t'], letterRule 'v' [Char.ofNat 11],
    letterRule '\'' (if ansiC then ['\''] else ['\\', '\'']),
    letterRule '"' (if ansiC then ['"'] else ['\\', '"']),
    ('c', throws (lit 'c') ()),
    letterRule '\\' ['\\'],
    codeRule '0' octalDigit 8 2,
    codeRule 'x' hexDigit 16 1]

/-- What the grammar repeats. -/
def escapeUnit (ansiC : Bool) : EscapeRule Unit :=
  alt (seq (lit '\\') (choice ((escapeRules ansiC).map Prod.snd))) (writes anyOne fun c => [c])

/-- `escape_parser`. -/
def escapeParser (ansiC : Bool) : EscapeRule Unit := plus (escapeUnit ansiC)

/-- `transform_escapes`: what is written, and whether `suppress_output` is thrown. -/
def parseEscapes (ansiC : Bool) (text : String) : String × Bool :=
  match escapeParser ansiC text.toList [] with
  | (.thrown _, out) => (String.ofList out, true)
  | (_, out) => (String.ofList out, false)

/-! ## The scan -/

/-- The longest run of digits, of at most `most`, in front of `rest`. -/
structure DigitRun (digit : Char → Option Nat) (most : Nat) (ds rest : List Char) : Prop where
  nonempty : ds ≠ []
  atMost : ds.length ≤ most
  areDigits : ∀ d ∈ ds, (digit d).isSome = true
  longest : ds.length = most ∨ ∀ d ∈ rest.head?, digit d = none

/-- The number that digits stand for. -/
def digitsValue (digit : Char → Option Nat) (base : Nat) (ds : List Char) : Nat :=
  ds.foldl (fun n d => base * n + (digit d).getD 0) 0

/-- A complete escape stands after a backslash. -/
def startsEscape (ansiC : Bool) : List Char → Bool
  | [] => false
  | c :: cs =>
    (escapeChar ansiC c).isSome || c == 'c' ||
      (c == '0' && (cs.head?.bind octalDigit).isSome) ||
      (c == 'x' && (cs.head?.bind hexDigit).isSome)

/-- One pass over a text: what it writes, and whether `\c` has stopped it. -/
inductive Scans (ansiC : Bool) : List Char → List Char → Bool → Prop
  | done : Scans ansiC [] [] false
  | copy {c : Char} {cs out : List Char} {stopped : Bool} (hc : c ≠ '\\')
      (h : Scans ansiC cs out stopped) : Scans ansiC (c :: cs) (c :: out) stopped
  | letter {c : Char} {text cs out : List Char} {stopped : Bool}
      (hc : escapeChar ansiC c = some text) (h : Scans ansiC cs out stopped) :
      Scans ansiC ('\\' :: c :: cs) (text ++ out) stopped
  | octal {ds cs out : List Char} {stopped : Bool} (hds : DigitRun octalDigit 3 ds cs)
      (h : Scans ansiC cs out stopped) :
      Scans ansiC ('\\' :: '0' :: ds ++ cs) (charCode (digitsValue octalDigit 8 ds) :: out) stopped
  | hex {ds cs out : List Char} {stopped : Bool} (hds : DigitRun hexDigit 2 ds cs)
      (h : Scans ansiC cs out stopped) :
      Scans ansiC ('\\' :: 'x' :: ds ++ cs) (charCode (digitsValue hexDigit 16 ds) :: out) stopped
  | verbatim {cs out : List Char} {stopped : Bool} (hcs : startsEscape ansiC cs = false)
      (h : Scans ansiC cs out stopped) : Scans ansiC ('\\' :: cs) ('\\' :: out) stopped
  | stop (cs : List Char) : Scans ansiC ('\\' :: 'c' :: cs) [] true

/-! ## What one round of the grammar does -/

section Rounds

variable {ansiC : Bool} {c : Char} {cs rest text : List Char}

theorem does_uintParser {digit : Char → Option Nat} (base most : Nat) {k : Nat}
    (h : digit c = some k) :
    Does (uintParser digit base most) (c :: cs)
      (.matched (readDigits digit base most k cs).1 (readDigits digit base most k cs).2) [] := by
  intro out
  simp [uintParser, h]

theorem does_uintParser_failed {digit : Char → Option Nat} (base most : Nat)
    (h : cs.head?.bind digit = none) : Does (uintParser digit base most) cs .failed [] := by
  intro out
  cases cs with
  | nil => simp [uintParser]
  | cons c cs =>
    have hc : digit c = none := h
    simp [uintParser, hc]

theorem startsWith_letterRule (c : Char) (text : List Char) :
    StartsWith (letterRule c text).2 (letterRule c text).1 := startsWith_writes _ startsWith_lit

theorem startsWith_codeRule (c : Char) (digit : Char → Option Nat) (base most : Nat) :
    StartsWith (codeRule c digit base most).2 (codeRule c digit base most).1 :=
  startsWith_seq startsWith_lit

theorem startsWith_escapeRules (ansiC : Bool) : ∀ e ∈ escapeRules ansiC, StartsWith e.2 e.1 := by
  have hstop : StartsWith (throws (lit 'c') () : EscapeRule Unit) 'c' :=
    startsWith_throws () startsWith_lit
  simp only [escapeRules, List.forall_mem_cons]
  simp [startsWith_letterRule, startsWith_codeRule, hstop]

/-- The characters that an escape can start with. -/
theorem keys_escapeRules (ansiC : Bool) :
    (escapeRules ansiC).map Prod.fst =
      ['a', 'b', 'e', 'E', 'f', 'n', 'r', 't', 'v', '\'', '"', 'c', '\\', '0', 'x'] := rfl

theorem nodup_escapeRules (ansiC : Bool) : ((escapeRules ansiC).map Prod.fst).Nodup := by
  rw [keys_escapeRules]
  decide

theorem letterRule_mem (h : escapeChar ansiC c = some text) :
    letterRule c text ∈ escapeRules ansiC := by
  unfold escapeChar at h
  split at h <;> cases h <;> simp [escapeRules]

theorem not_mem_escapeRules (hchar : escapeChar ansiC c = none) (hc : c ≠ 'c') (h0 : c ≠ '0')
    (hx : c ≠ 'x') : c ∉ (escapeRules ansiC).map Prod.fst := by
  have hkeys : ∀ k ∈ (escapeRules ansiC).map Prod.fst,
      k = 'c' ∨ k = '0' ∨ k = 'x' ∨ (escapeChar ansiC k).isSome = true := by
    intro k hk
    rw [keys_escapeRules] at hk
    simp only [List.mem_cons, List.not_mem_nil, or_false] at hk
    rcases hk with rfl | rfl | rfl | rfl | rfl | rfl | rfl | rfl | rfl | rfl | rfl | rfl | rfl |
      rfl | rfl <;> cases ansiC <;> decide
  intro hmem
  obtain h | h | h | h := hkeys c hmem
  · exact hc h
  · exact h0 h
  · exact hx h
  · rw [hchar] at h
    cases h

/-- The alternatives after a backslash. -/
abbrev afterBackslash (ansiC : Bool) : EscapeRule Unit :=
  choice ((escapeRules ansiC).map Prod.snd)

theorem does_letter (h : escapeChar ansiC c = some text) :
    Does (afterBackslash ansiC) (c :: rest) (.matched () rest) text := by
  have hrule : Does (letterRule c text).2 (c :: rest) (.matched () rest) ([] ++ text) :=
    does_writes _ (does_lit c rest)
  exact does_choice (startsWith_escapeRules ansiC) (nodup_escapeRules ansiC) (letterRule_mem h)
    hrule nofun

theorem does_stop : Does (afterBackslash ansiC) ('c' :: rest) (.thrown ()) [] := by
  have hmem : ('c', throws (lit 'c') ()) ∈ escapeRules ansiC := by simp [escapeRules]
  exact does_choice (startsWith_escapeRules ansiC) (nodup_escapeRules ansiC) hmem
    (does_throws () (does_lit 'c' rest)) nofun

/-- A code that is complete. -/
theorem does_code {digit : Char → Option Nat} {base most k : Nat} {d : Char}
    (hmem : codeRule c digit base most ∈ escapeRules ansiC) (hd : digit d = some k)
    (rest : List Char) :
    Does (afterBackslash ansiC) (c :: d :: rest)
      (.matched () (readDigits digit base most k rest).2)
      [charCode (readDigits digit base most k rest).1] := by
  have hrule := does_seq (does_lit c (d :: rest))
    (does_writes (fun n => [charCode n]) (does_uintParser base most hd))
  exact does_choice (startsWith_escapeRules ansiC) (nodup_escapeRules ansiC) hmem hrule
    nofun

theorem octal_mem_escapeRules : codeRule '0' octalDigit 8 2 ∈ escapeRules ansiC := by
  simp [escapeRules]

theorem hex_mem_escapeRules : codeRule 'x' hexDigit 16 1 ∈ escapeRules ansiC := by
  simp [escapeRules]

/-- A code without a digit. -/
theorem does_code_failed {digit : Char → Option Nat} {base most : Nat}
    (hmem : codeRule c digit base most ∈ escapeRules ansiC) (h : rest.head?.bind digit = none) :
    Does (afterBackslash ansiC) (c :: rest) .failed [] := by
  have hrule := does_seq (does_lit c rest)
    (does_writes_failed (fun n => [charCode n]) (does_uintParser_failed base most h))
  exact does_choice (startsWith_escapeRules ansiC) (nodup_escapeRules ansiC) hmem hrule fun _ => rfl

/-- What is no complete escape is left without a trace. -/
theorem does_afterBackslash_failed (h : startsEscape ansiC cs = false) :
    Does (afterBackslash ansiC) cs .failed [] := by
  cases cs with
  | nil => exact does_choice_none (startsWith_escapeRules ansiC) fun _ _ => by simp
  | cons c cs =>
    simp only [startsEscape, Bool.or_eq_false_iff, Bool.and_eq_false_iff] at h
    obtain ⟨⟨⟨hchar, hc⟩, h0⟩, hx⟩ := h
    by_cases hzero : c = '0'
    · subst hzero
      exact does_code_failed octal_mem_escapeRules (by simpa using h0)
    · by_cases hex : c = 'x'
      · subst hex
        exact does_code_failed hex_mem_escapeRules (by simpa using hx)
      · have hnot := not_mem_escapeRules (by simpa using hchar) (by simpa using hc) hzero hex
        refine does_choice_none (startsWith_escapeRules ansiC) fun e he heq => hnot ?_
        exact List.mem_map.mpr ⟨e, he, (Option.some.inj heq).symm⟩

/-- A round that starts with a backslash does what the alternatives do. -/
theorem does_escapeUnit {a : Attempt Char Unit Unit} {w : List Char}
    (h : Does (afterBackslash ansiC) cs a w) (ha : a ≠ .failed) :
    Does (escapeUnit ansiC) ('\\' :: cs) a w :=
  does_alt_left (does_seq (does_lit '\\' cs) h) ha

theorem does_escapeUnit_verbatim (h : startsEscape ansiC cs = false) :
    Does (escapeUnit ansiC) ('\\' :: cs) (.matched () cs) ['\\'] :=
  does_alt_right (does_seq (does_lit '\\' cs) (does_afterBackslash_failed h))
    (does_writes _ (does_anyOne '\\' cs))

theorem does_escapeUnit_copy (h : c ≠ '\\') :
    Does (escapeUnit ansiC) (c :: cs) (.matched () cs) [c] := by
  have hhead : (c :: cs).head? ≠ some '\\' := fun heq => h (Option.some.inj heq)
  exact does_alt_right (does_seq_failed (does_lit_ne hhead)) (does_writes _ (does_anyOne c cs))

theorem does_escapeUnit_nil : Does (escapeUnit ansiC) [] .failed [] :=
  does_alt_right (does_seq_failed (does_lit_ne (by simp))) (does_writes_failed _ does_anyOne_nil)

end Rounds

/-! ## Digits -/

section Digits

variable {digit : Char → Option Nat} {base most : Nat} {ds rest : List Char}

theorem readDigits_run (base n : Nat) (hlen : ds.length ≤ most)
    (hds : ∀ d ∈ ds, (digit d).isSome = true)
    (hlongest : ds.length = most ∨ ∀ d ∈ rest.head?, digit d = none) :
    readDigits digit base most n (ds ++ rest) =
      (ds.foldl (fun n d => base * n + (digit d).getD 0) n, rest) := by
  induction ds generalizing most n with
  | nil =>
    cases most with
    | zero => rfl
    | succ most =>
      cases rest with
      | nil => rfl
      | cons d rest =>
        have hd : digit d = none := (hlongest.resolve_left (by simp)) d rfl
        simp [readDigits, hd]
  | cons d ds ih =>
    obtain ⟨most, rfl⟩ := Nat.exists_eq_succ_of_ne_zero (Nat.ne_zero_of_lt hlen)
    rw [List.forall_mem_cons] at hds
    obtain ⟨k, hk⟩ := Option.isSome_iff_exists.mp hds.1
    have hrest := ih (base * n + k) (Nat.le_of_succ_le_succ hlen) hds.2
      (hlongest.imp_left Nat.succ.inj)
    rw [List.cons_append, readDigits, hk]
    simpa [hk] using hrest

/-- The value of a run, read digit by digit. -/
theorem DigitRun.readDigits {d : Char} {k : Nat} (h : DigitRun digit (most + 1) (d :: ds) rest)
    (base : Nat) (hd : digit d = some k) :
    Libbash.readDigits digit base most k (ds ++ rest) =
      (digitsValue digit base (d :: ds), rest) := by
  have hrun := readDigits_run base k (Nat.le_of_succ_le_succ h.atMost)
    (List.forall_mem_cons.mp h.areDigits).2 (h.longest.imp_left Nat.succ.inj)
  rw [hrun]
  simp [digitsValue, hd]

/-- A text that starts with a digit starts with a longest run. -/
theorem exists_digitRun (digit : Char → Option Nat) (most : Nat) {c : Char}
    (hc : (digit c).isSome = true) (cs : List Char) :
    ∃ ds rest, c :: cs = ds ++ rest ∧ DigitRun digit (most + 1) ds rest := by
  induction most generalizing c cs with
  | zero => exact ⟨[c], cs, rfl, by simp, by simp, by simpa using hc, .inl rfl⟩
  | succ most ih =>
    cases cs with
    | nil => exact ⟨[c], [], rfl, by simp, by simp, by simpa using hc, .inr (by simp)⟩
    | cons d cs =>
      cases hd : digit d with
      | none =>
        exact ⟨[c], d :: cs, rfl, by simp, by simp, by simpa using hc, .inr (by simpa using hd)⟩
      | some k =>
        obtain ⟨ds, rest, heq, hrun⟩ := ih (c := d) (by rw [hd]; rfl) cs
        refine ⟨c :: ds, rest, by rw [heq]; rfl, by simp, Nat.succ_le_succ hrun.atMost, ?_, ?_⟩
        · exact List.forall_mem_cons.mpr ⟨hc, hrun.areDigits⟩
        · exact hrun.longest.imp_left fun h => congrArg Nat.succ h

theorem lt_length_codeRun (c : Char) (ds rest : List Char) :
    rest.length < ('\\' :: c :: ds ++ rest).length := by
  simp only [List.cons_append, List.length_cons, List.length_append]
  omega

/-- A round for a code takes the whole run. -/
theorem does_codeRun {ansiC : Bool} {c : Char}
    (hmem : codeRule c digit base most ∈ escapeRules ansiC)
    (h : DigitRun digit (most + 1) ds rest) :
    Does (escapeUnit ansiC) ('\\' :: c :: ds ++ rest) (.matched () rest)
      [charCode (digitsValue digit base ds)] := by
  obtain ⟨d, ds, rfl⟩ := List.exists_cons_of_ne_nil h.nonempty
  obtain ⟨k, hk⟩ := Option.isSome_iff_exists.mp (h.areDigits d List.mem_cons_self)
  have hround := does_escapeUnit (does_code hmem hk (ds ++ rest)) nofun
  rw [h.readDigits base hk] at hround
  exact hround

end Digits

/-! ## The scan of a text -/

section Scans

variable {ansiC : Bool} {cs out : List Char} {stopped : Bool}

/-- How the rounds end. -/
def endOf (stopped : Bool) : Attempt Char Unit Unit :=
  if stopped then .thrown () else .matched () []

/-- The rounds of the grammar are the steps of the scan. -/
theorem Scans.repeats (h : Scans ansiC cs out stopped) :
    Repeats (escapeUnit ansiC) cs (endOf stopped) out := by
  induction h with
  | done => exact .stop does_escapeUnit_nil
  | copy hc h ih => exact .step (does_escapeUnit_copy hc) (by simp) ih
  | letter hc h ih =>
    exact .step (does_escapeUnit (does_letter hc) nofun) (Nat.lt_succ_of_lt (Nat.lt_succ_self _)) ih
  | octal hds h ih =>
    exact .step (does_codeRun octal_mem_escapeRules hds) (lt_length_codeRun _ _ _) ih
  | hex hds h ih => exact .step (does_codeRun hex_mem_escapeRules hds) (lt_length_codeRun _ _ _) ih
  | verbatim hcs h ih => exact .step (does_escapeUnit_verbatim hcs) (by simp) ih
  | stop cs => exact .thrown (does_escapeUnit does_stop nofun)

/-- Every text has a scan. -/
theorem exists_scans (ansiC : Bool) (cs : List Char) :
    ∃ out stopped, Scans ansiC cs out stopped := by
  induction hn : cs.length using Nat.strong_induction_on generalizing cs with
  | _ n ih =>
    subst hn
    match cs with
    | [] => exact ⟨[], false, .done⟩
    | c :: cs =>
      by_cases hc : c = '\\'
      · subst hc
        cases hstart : startsEscape ansiC cs with
        | false =>
          obtain ⟨out, stopped, h⟩ := ih cs.length (by simp) cs rfl
          exact ⟨_, _, .verbatim hstart h⟩
        | true =>
          match cs with
          | d :: cs =>
            simp only [startsEscape, Bool.or_eq_true, Bool.and_eq_true, beq_iff_eq] at hstart
            rcases hstart with ((hchar | rfl) | ⟨rfl, h0⟩) | ⟨rfl, hx⟩
            · obtain ⟨text, htext⟩ := Option.isSome_iff_exists.mp hchar
              have hlt : cs.length < cs.length + 2 := Nat.lt_succ_of_lt (Nat.lt_succ_self _)
              obtain ⟨out, stopped, h⟩ := ih cs.length hlt cs rfl
              exact ⟨_, _, .letter htext h⟩
            · exact ⟨_, _, .stop cs⟩
            · match cs with
              | e :: cs =>
                obtain ⟨ds, rest, heq, hrun⟩ := exists_digitRun octalDigit 2 h0 cs
                have hlen : rest.length ≤ (e :: cs).length := by simp [heq]
                obtain ⟨out, stopped, h⟩ := ih rest.length (by simp at hlen ⊢; omega) rest rfl
                rw [heq]
                exact ⟨_, _, .octal hrun h⟩
            · match cs with
              | e :: cs =>
                obtain ⟨ds, rest, heq, hrun⟩ := exists_digitRun hexDigit 1 hx cs
                have hlen : rest.length ≤ (e :: cs).length := by simp [heq]
                obtain ⟨out, stopped, h⟩ := ih rest.length (by simp at hlen ⊢; omega) rest rfl
                rw [heq]
                exact ⟨_, _, .hex hrun h⟩
      · obtain ⟨out, stopped, h⟩ := ih cs.length (by simp) cs rfl
        exact ⟨_, _, .copy hc h⟩

/-- The grammar writes what a scan writes. -/
theorem Scans.parse {text : String} (h : Scans ansiC text.toList out stopped) :
    parseEscapes ansiC text = (String.ofList out, stopped) := by
  unfold parseEscapes escapeParser
  rcases h.repeats.plus_apply [] with hplus | ⟨hplus, hend⟩
  · rw [hplus]
    cases stopped <;> rfl
  · rw [hplus]
    cases stopped with
    | false => rfl
    | true => cases hend

/-! ## The scan by recursion -/

theorem escapeSequence_letter {c : Char} {text : List Char} (h : escapeChar ansiC c = some text)
    (cs : List Char) : escapeSequence ansiC (c :: cs) = some (text, cs) := by
  have h0 : c ≠ '0' := by
    rintro rfl
    cases h
  have hx : c ≠ 'x' := by
    rintro rfl
    cases h
  unfold escapeSequence
  split
  · next heq =>
    cases heq
    exact absurd rfl h0
  · next heq =>
    cases heq
    exact absurd rfl hx
  · next heq =>
    cases heq
    rw [h]
    rfl
  · next heq => cases heq

theorem escapeSequence_none (h : startsEscape ansiC cs = false) :
    escapeSequence ansiC cs = none := by
  unfold startsEscape at h
  unfold escapeSequence
  split
  · next d ds => simp_all
  · next d ds => simp_all
  · next c cs _ _ => simp_all
  · rfl

theorem escapeSequence_octal {ds : List Char} (h : DigitRun octalDigit 3 ds cs) :
    escapeSequence ansiC ('0' :: ds ++ cs) =
      some ([charCode (digitsValue octalDigit 8 ds)], cs) := by
  obtain ⟨d, ds, rfl⟩ := List.exists_cons_of_ne_nil h.nonempty
  obtain ⟨k, hk⟩ := Option.isSome_iff_exists.mp (h.areDigits d List.mem_cons_self)
  have hread := h.readDigits 8 hk
  simp only [List.cons_append, escapeSequence, hk, Option.map_some, hread]

theorem escapeSequence_hex {ds : List Char} (h : DigitRun hexDigit 2 ds cs) :
    escapeSequence ansiC ('x' :: ds ++ cs) =
      some ([charCode (digitsValue hexDigit 16 ds)], cs) := by
  obtain ⟨d, ds, rfl⟩ := List.exists_cons_of_ne_nil h.nonempty
  obtain ⟨k, hk⟩ := Option.isSome_iff_exists.mp (h.areDigits d List.mem_cons_self)
  have hread := h.readDigits 16 hk
  simp only [List.cons_append, escapeSequence, hk, Option.map_some, hread]

/-- A backslash before anything but a `c`. -/
theorem transformChars_escape (fuel : Nat) (h : cs.head? ≠ some 'c') :
    transformChars ansiC (fuel + 1) ('\\' :: cs) =
      match escapeSequence ansiC cs with
      | some (text, rest) =>
        (text ++ (transformChars ansiC fuel rest).1, (transformChars ansiC fuel rest).2)
      | none => ('\\' :: (transformChars ansiC fuel cs).1, (transformChars ansiC fuel cs).2) := by
  cases cs with
  | nil => rfl
  | cons c cs =>
    have hc : ∀ rest, c :: cs = 'c' :: rest → False := fun _ heq =>
      h (congrArg some (List.cons.inj heq).1)
    exact transformChars.eq_4 ansiC fuel (c :: cs) hc

theorem transformChars_of_scans (h : Scans ansiC cs out stopped) {fuel : Nat}
    (hfuel : cs.length ≤ fuel) : transformChars ansiC fuel cs = (out, stopped) := by
  induction h generalizing fuel with
  | done => cases fuel <;> rfl
  | @copy c cs out stopped hc h ih =>
    obtain ⟨fuel, rfl⟩ := Nat.exists_eq_succ_of_ne_zero (Nat.ne_zero_of_lt hfuel)
    rw [transformChars, ih (Nat.le_of_succ_le_succ hfuel)]
    · exact fun _ h => absurd h hc
    · exact fun h => absurd h hc
  | @letter c text cs out stopped hc h ih =>
    obtain ⟨fuel, rfl⟩ := Nat.exists_eq_succ_of_ne_zero (Nat.ne_zero_of_lt hfuel)
    have hhead : (c :: cs).head? ≠ some 'c' := by
      intro heq
      rw [Option.some.inj heq] at hc
      cases hc
    simp only [List.length_cons] at hfuel
    rw [transformChars_escape fuel hhead, escapeSequence_letter hc]
    have hrest := @ih fuel (by omega)
    simp only [hrest]
  | @octal ds cs out stopped hds h ih =>
    obtain ⟨fuel, rfl⟩ := Nat.exists_eq_succ_of_ne_zero (Nat.ne_zero_of_lt hfuel)
    have hrest := @ih fuel (by simp at hfuel; omega)
    show transformChars ansiC (fuel + 1) ('\\' :: ('0' :: ds ++ cs)) = _
    rw [transformChars_escape fuel (by simp), escapeSequence_octal hds]
    simp only [hrest, List.singleton_append]
  | @hex ds cs out stopped hds h ih =>
    obtain ⟨fuel, rfl⟩ := Nat.exists_eq_succ_of_ne_zero (Nat.ne_zero_of_lt hfuel)
    have hrest := @ih fuel (by simp at hfuel; omega)
    show transformChars ansiC (fuel + 1) ('\\' :: ('x' :: ds ++ cs)) = _
    rw [transformChars_escape fuel (by simp), escapeSequence_hex hds]
    simp only [hrest, List.singleton_append]
  | @verbatim cs out stopped hcs h ih =>
    obtain ⟨fuel, rfl⟩ := Nat.exists_eq_succ_of_ne_zero (Nat.ne_zero_of_lt hfuel)
    have hhead : cs.head? ≠ some 'c' := by
      intro heq
      obtain ⟨ds, rfl⟩ := List.head?_eq_some_iff.mp heq
      simp [startsEscape] at hcs
    rw [transformChars_escape fuel hhead, escapeSequence_none hcs]
    simp only [ih (Nat.le_of_succ_le_succ hfuel)]
  | stop cs =>
    obtain ⟨fuel, rfl⟩ := Nat.exists_eq_succ_of_ne_zero (Nat.ne_zero_of_lt hfuel)
    rfl

/-- The grammar and the recursion write the same. -/
theorem parseEscapes_eq (ansiC : Bool) (text : String) :
    parseEscapes ansiC text = transformEscapes ansiC text := by
  obtain ⟨out, stopped, h⟩ := exists_scans ansiC text.toList
  have hrec := transformChars_of_scans h (le_of_eq String.length_toList)
  show _ = (String.ofList (transformChars ansiC text.length text.toList).1,
    (transformChars ansiC text.length text.toList).2)
  rw [h.parse, hrec]

/-- The output of `transform_escapes` is the one of the scan, which takes every character
of the text into account once; the rest of the development uses the same function. -/
theorem parseEscapes_iff (ansiC : Bool) (text : String) :
    (∀ out stopped, parseEscapes ansiC text = (out, stopped) ↔
      Scans ansiC text.toList out.toList stopped) ∧
      transformEscapes ansiC text = parseEscapes ansiC text := by
  obtain ⟨out', stopped', hscan⟩ := exists_scans ansiC text.toList
  refine ⟨fun out stopped => ⟨fun h => ?_, fun h => ?_⟩, (parseEscapes_eq ansiC text).symm⟩
  · rw [hscan.parse] at h
    obtain ⟨rfl, rfl⟩ := Prod.mk.inj h
    rwa [String.toList_ofList]
  · rw [h.parse, String.ofList_toList]

end Scans

end Libbash
