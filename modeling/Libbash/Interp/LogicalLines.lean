import Mathlib.Data.List.Infix
import Mathlib.Data.List.TakeDrop
import Mathlib.Data.List.TakeWhile
import Libbash.Interp.EscapeGrammar
import Libbash.Interp.Positional
import Libbash.Interp.Reads

/-!
# Logical lines

A logical line is what stands before the first line end that no backslash escapes,
without the escaped line ends (`logicalLine`). `read` joins lines as long as the last
character is a backslash, whether that backslash is escaped or not, returns before it
assigns when there is no text, and lets an escape stop it. `readsLogicalLine_iff` says
for which texts it assigns the logical line.
-/

namespace Libbash

open Lib Lib.Comp Lib.Program

/-! ## The logical line of a text -/

/-- A line, what stands behind it, and whether a line end ended it. -/
structure LogicalLine where
  line : List Char
  rest : List Char
  newline : Bool

/-- A backslash and the character behind it belong together; a line end behind a
backslash goes with it, and so does a backslash at the end of the text. -/
def logicalLine : List Char → LogicalLine
  | [] => ⟨[], [], false⟩
  | c :: cs =>
    if c = '\\' then
      match cs with
      | [] => ⟨[], [], false⟩
      | d :: cs =>
        if d = '\n' then logicalLine cs
        else { logicalLine cs with line := c :: d :: (logicalLine cs).line }
    else if c = '\n' then ⟨[], cs, true⟩
    else { logicalLine cs with line := c :: (logicalLine cs).line }

/-- A text ends in a backslash that is not escaped. -/
def endsOpen : List Char → Bool
  | [] => false
  | c :: cs =>
    if c = '\\' then
      match cs with
      | [] => true
      | _ :: cs => endsOpen cs
    else endsOpen cs

section Lines

variable {cs rest : List Char}

theorem ne_nil_of_endsOpen (h : endsOpen cs = true) : cs ≠ [] := by
  rintro rfl
  cases h

theorem getLast?_of_endsOpen (h : endsOpen cs = true) : cs.getLast? = some '\\' := by
  fun_induction endsOpen cs with
  | case1 => cases h
  | case2 => rfl
  | case3 c cs ih =>
    rw [List.getLast?_cons_cons, List.getLast?_cons, ih h]
    rfl
  | case4 c cs _ ih =>
    rw [List.getLast?_cons, ih h]
    rfl

theorem endsOpen_char {c : Char} (hc : c ≠ '\\') (cs : List Char) :
    endsOpen (c :: cs) = endsOpen cs := by
  rw [endsOpen.eq_def]
  exact if_neg hc

/-- Without the backslash nothing is open. -/
theorem endsOpen_dropLast (h : endsOpen cs = true) : endsOpen cs.dropLast = false := by
  fun_induction endsOpen cs with
  | case1 => cases h
  | case2 => rfl
  | case3 d cs ih =>
    obtain ⟨e, es, rfl⟩ := List.exists_cons_of_ne_nil (ne_nil_of_endsOpen h)
    exact ih h
  | case4 c cs hc ih =>
    obtain ⟨e, es, rfl⟩ := List.exists_cons_of_ne_nil (ne_nil_of_endsOpen h)
    rw [List.dropLast_cons_cons, endsOpen_char hc]
    exact ih h

theorem logicalLine_pair {d : Char} (hd : d ≠ '\n') (cs : List Char) :
    logicalLine ('\\' :: d :: cs) =
      { logicalLine cs with line := '\\' :: d :: (logicalLine cs).line } := by
  rw [logicalLine.eq_def]
  exact if_neg hd

theorem logicalLine_newline (cs : List Char) : logicalLine ('\n' :: cs) = ⟨[], cs, true⟩ := by
  rw [logicalLine.eq_def]
  dsimp only
  rw [if_neg (by decide), if_pos rfl]

theorem logicalLine_char {c : Char} (hc : c ≠ '\\') (hnl : c ≠ '\n') (cs : List Char) :
    logicalLine (c :: cs) = { logicalLine cs with line := c :: (logicalLine cs).line } := by
  rw [logicalLine.eq_def]
  dsimp only
  rw [if_neg hc, if_neg hnl]

/-- A line end behind an open text joins what follows to it; behind any other text it ends
the line. -/
theorem logicalLine_append_newline (hcs : '\n' ∉ cs) (rest : List Char) :
    logicalLine (cs ++ '\n' :: rest) =
      if endsOpen cs then logicalLine (cs.dropLast ++ rest) else ⟨cs, rest, true⟩ := by
  fun_induction endsOpen cs with
  | case1 => exact logicalLine_newline rest
  | case2 => rfl
  | case3 d cs ih =>
    simp only [List.mem_cons, not_or] at hcs
    have hd := Ne.symm hcs.2.1
    rw [List.cons_append, List.cons_append, logicalLine_pair hd, ih hcs.2.2]
    cases hopen : endsOpen cs with
    | true =>
      obtain ⟨e, es, rfl⟩ := List.exists_cons_of_ne_nil (ne_nil_of_endsOpen hopen)
      exact (logicalLine_pair hd _).symm
    | false => rfl
  | case4 c cs hc ih =>
    simp only [List.mem_cons, not_or] at hcs
    have hnl := Ne.symm hcs.1
    rw [List.cons_append, logicalLine_char hc hnl, ih hcs.2]
    cases hopen : endsOpen cs with
    | true =>
      obtain ⟨e, es, rfl⟩ := List.exists_cons_of_ne_nil (ne_nil_of_endsOpen hopen)
      exact (logicalLine_char hc hnl _).symm
    | false => rfl

/-- The end of the text takes an open backslash away. -/
theorem logicalLine_of_noNewline (hcs : '\n' ∉ cs) :
    logicalLine cs = ⟨if endsOpen cs then cs.dropLast else cs, [], false⟩ := by
  fun_induction endsOpen cs with
  | case1 => rfl
  | case2 => rfl
  | case3 d cs ih =>
    simp only [List.mem_cons, not_or] at hcs
    rw [logicalLine_pair (Ne.symm hcs.2.1), ih hcs.2.2]
    cases hopen : endsOpen cs with
    | true =>
      obtain ⟨e, es, rfl⟩ := List.exists_cons_of_ne_nil (ne_nil_of_endsOpen hopen)
      rfl
    | false => rfl
  | case4 c cs hc ih =>
    simp only [List.mem_cons, not_or] at hcs
    rw [logicalLine_char hc (Ne.symm hcs.1), ih hcs.2]
    cases hopen : endsOpen cs with
    | true =>
      obtain ⟨e, es, rfl⟩ := List.exists_cons_of_ne_nil (ne_nil_of_endsOpen hopen)
      rfl
    | false => rfl

end Lines

/-! ## The lines of a stream -/

/-- A stream that has failed has come to its end, and then nothing is left. -/
structure InputStream.Sound (i : InputStream) : Prop where
  ended : i.eof = true → i.text = []
  failed : i.fail = true → i.eof = true

/-- The text that a line and the stream behind it stand for. -/
def InputStream.behind (i : InputStream) (cs : List Char) : List Char :=
  cs ++ if i.eof then [] else '\n' :: i.text

section Getline

variable {i : InputStream}

/-- `getline` at the end of a stream. -/
theorem getline_of_eof (h : i.eof = true) : getline i = ([], { i with fail := true }) := by
  unfold getline
  rw [h]
  rfl

theorem span_newline (cs : List Char) :
    cs.span (· != '\n') = (cs.takeWhile (· != '\n'), cs.dropWhile (· != '\n')) :=
  List.span_eq_takeWhile_dropWhile _ cs

/-- What `getline` takes from a stream that has not ended. -/
theorem getline_of_good (hsound : i.Sound) (heof : i.eof = false) :
    '\n' ∉ (getline i).1 ∧ (getline i).2.Sound ∧
      (getline i).2.behind (getline i).1 = i.text ∧
      ((getline i).2.eof = true ∨ (getline i).2.text.length < i.text.length) ∧
      (getline i).1.length + (getline i).2.text.length ≤ i.text.length := by
  have hfail : i.fail = false := by
    cases hf : i.fail with
    | false => rfl
    | true =>
      rw [hsound.failed hf] at heof
      cases heof
  have hline : '\n' ∉ i.text.takeWhile (· != '\n') := fun hmem => by
    have hne := List.mem_takeWhile_imp hmem
    exact absurd hne (by decide)
  have happend := List.takeWhile_append_dropWhile (p := (· != '\n')) (l := i.text)
  unfold getline
  rw [heof, hfail, Bool.or_self, if_neg Bool.false_ne_true, span_newline]
  -- Either no line end is left and the stream ends, or the line is ended by the first one.
  cases hrest : i.text.dropWhile (· != '\n') with
  | nil =>
    rw [hrest, List.append_nil] at happend
    refine ⟨hline, ⟨fun _ => rfl, fun _ => rfl⟩, ?_, .inl rfl, ?_⟩
    · show i.text.takeWhile (· != '\n') ++ [] = i.text
      rw [List.append_nil, happend]
    · show (i.text.takeWhile (· != '\n')).length + 0 ≤ i.text.length
      rw [happend]
      exact Nat.le_refl _
  | cons c rest =>
    have hc : c = '\n' := by
      have hhead := List.head?_dropWhile_not (· != '\n') i.text
      rw [hrest] at hhead
      simpa using hhead
    subst hc
    rw [hrest] at happend
    have hlen := congrArg List.length happend
    rw [List.length_append, List.length_cons] at hlen
    refine ⟨hline, ⟨fun h => ?_, fun h => ?_⟩, ?_, .inr ?_, ?_⟩
    · cases h
    · cases h
    · unfold InputStream.behind
      dsimp only
      rw [if_neg Bool.false_ne_true]
      exact happend
    · show rest.length < i.text.length
      omega
    · show (i.text.takeWhile (· != '\n')).length + rest.length ≤ i.text.length
      omega

end Getline

/-! ## Joining lines -/

/-- The loop over the lines stands before a text that it goes on with. -/
structure Joining (i : InputStream) (cs : List Char) : Prop where
  sound : i.Sound
  noNewline : '\n' ∉ cs
  nonempty : cs ≠ []
  notLone : cs ≠ ['\\']

section Joining

variable {i : InputStream} {cs : List Char} {fuel : Nat}

theorem joinLines_stop (h : cs.getLast? ≠ some '\\') :
    joinLines (fuel + 1) cs i = (some cs, i) := by
  rw [joinLines, if_neg h]

theorem dropLast_ne_nil (hlone : cs ≠ ['\\']) (hlast : cs.getLast? = some '\\') :
    cs.dropLast ≠ [] := by
  intro hnil
  have hcs := List.dropLast_append_getLast? '\\' hlast
  rw [hnil] at hcs
  exact hlone hcs.symm

theorem joinLines_step (hlone : cs ≠ ['\\']) (hlast : cs.getLast? = some '\\') :
    joinLines (fuel + 1) cs i =
      joinLines fuel (cs.dropLast ++ (getline i).1) (getline i).2 := by
  rw [joinLines, if_pos hlast]
  dsimp only
  rw [if_neg (by simpa using dropLast_ne_nil hlone hlast)]

/-- The logical line of what a line and the stream behind it stand for. -/
theorem logicalLine_behind (hsound : i.Sound) (hcs : '\n' ∉ cs) :
    logicalLine (i.behind cs) =
      if endsOpen cs then logicalLine (cs.dropLast ++ i.text) else ⟨cs, i.text, !i.eof⟩ := by
  unfold InputStream.behind
  cases heof : i.eof with
  | true =>
    have hdrop : '\n' ∉ cs.dropLast := fun hmem => hcs (List.mem_of_mem_dropLast hmem)
    rw [if_pos rfl, List.append_nil, logicalLine_of_noNewline hcs, hsound.ended heof,
      List.append_nil]
    cases hopen : endsOpen cs with
    | true =>
      rw [if_pos rfl, if_pos rfl, logicalLine_of_noNewline hdrop, endsOpen_dropLast hopen]
      rfl
    | false => rfl
  | false => exact logicalLine_append_newline hcs i.text

/-- What the stream behind a line stands for is what is left to read. -/
theorem getline_behind (hsound : i.Sound) :
    (getline i).2.Sound ∧ '\n' ∉ (getline i).1 ∧
      (getline i).2.behind (getline i).1 = i.text ∧
      (getline i).1.length + (getline i).2.text.length ≤ i.text.length := by
  cases heof : i.eof with
  | true =>
    have htext := hsound.ended heof
    rw [getline_of_eof heof]
    refine ⟨⟨fun _ => htext, fun _ => heof⟩, by simp, ?_, by simp⟩
    unfold InputStream.behind
    dsimp only
    rw [heof, htext]
    rfl
  | false =>
    obtain ⟨hline, hsound', hbehind, -, hlen⟩ := getline_of_good hsound heof
    exact ⟨hsound', hline, hbehind, hlen⟩

theorem behind_append (i : InputStream) (cs line : List Char) :
    i.behind (cs ++ line) = cs ++ i.behind line := List.append_assoc ..

/-- A pass of the loop keeps the logical line. -/
theorem Joining.step (h : Joining i cs) (hopen : endsOpen cs = true) :
    Joining (getline i).2 (cs.dropLast ++ (getline i).1) ∧
      logicalLine ((getline i).2.behind (cs.dropLast ++ (getline i).1)) =
        logicalLine (i.behind cs) := by
  have hlast := getLast?_of_endsOpen hopen
  have hdrop := dropLast_ne_nil h.notLone hlast
  obtain ⟨hsound, hline, hbehind, -⟩ := getline_behind h.sound
  refine ⟨⟨hsound, ?_, ?_, ?_⟩, ?_⟩
  · rw [List.mem_append, not_or]
    exact ⟨fun hmem => h.noNewline (List.mem_of_mem_dropLast hmem), hline⟩
  · exact List.append_ne_nil_of_left_ne_nil hdrop _
  · intro hlone
    -- the text before the line is the lone backslash, which is not escaped
    have hclosed := endsOpen_dropLast hopen
    obtain ⟨c, ds, hcons⟩ := List.exists_cons_of_ne_nil hdrop
    rw [hcons, List.cons_append, List.cons.injEq, List.append_eq_nil_iff] at hlone
    rw [hcons, hlone.1, hlone.2.1] at hclosed
    cases hclosed
  · rw [behind_append, hbehind, logicalLine_behind h.sound h.noNewline, if_pos hopen]

/-- The loop stops at the logical line when that does not end in a backslash. -/
theorem joinLines_agrees (h : Joining i cs) (hfuel : cs.length + i.text.length < fuel)
    (hlast : (logicalLine (i.behind cs)).line.getLast? ≠ some '\\') :
    ∃ i', joinLines fuel cs i = (some (logicalLine (i.behind cs)).line, i') ∧
      i'.text = (logicalLine (i.behind cs)).rest ∧
      i'.eof = !(logicalLine (i.behind cs)).newline := by
  induction fuel generalizing cs i with
  | zero => exact absurd hfuel (Nat.not_lt_zero _)
  | succ fuel ih =>
    cases hopen : endsOpen cs with
    | true =>
      have hend := getLast?_of_endsOpen hopen
      obtain ⟨hjoin, hsame⟩ := h.step hopen
      obtain ⟨-, -, -, hlen⟩ := getline_behind h.sound
      have hpos := List.length_pos_iff.mpr h.nonempty
      rw [joinLines_step h.notLone hend, ← hsame]
      refine ih hjoin ?_ (by rwa [hsame])
      rw [List.length_append, List.length_dropLast]
      omega
    | false =>
      have hline := logicalLine_behind h.sound h.noNewline
      rw [hopen, if_neg Bool.false_ne_true] at hline
      rw [hline] at hlast ⊢
      exact ⟨i, joinLines_stop hlast, rfl, (Bool.not_not _).symm⟩

/-- A line and what is left behind it are no longer than what there was. -/
theorem getline_shrinks (i : InputStream) :
    (getline i).1.length + (getline i).2.text.length ≤ i.text.length ∧
      (i.eof = true → (getline i).2.eof = true) := by
  unfold getline
  split_ifs with hend
  · exact ⟨by simp, id⟩
  · have hlen := congrArg List.length
      (List.takeWhile_append_dropWhile (p := (· != '\n')) (l := i.text))
    rw [List.length_append] at hlen
    rw [span_newline]
    split
    · next line hspan =>
      obtain ⟨rfl, hrest⟩ := Prod.mk.inj hspan
      exact ⟨by simp only [List.length_nil]; omega, fun _ => rfl⟩
    · next line c rest hspan =>
      obtain ⟨rfl, hrest⟩ := Prod.mk.inj hspan
      rw [hrest, List.length_cons] at hlen
      have hle : (i.text.takeWhile (· != '\n')).length + rest.length ≤ i.text.length := by omega
      exact ⟨hle, id⟩

/-- The loop stops where the text does not end in a backslash. -/
theorem joinLines_ends (hfuel : cs.length + i.text.length < fuel) {line : List Char}
    (h : (joinLines fuel cs i).1 = some line) : line.getLast? ≠ some '\\' := by
  induction fuel generalizing cs i with
  | zero => exact absurd hfuel (Nat.not_lt_zero _)
  | succ fuel ih =>
    by_cases hlast : cs.getLast? = some '\\'
    · by_cases hlone : cs = ['\\']
      · rw [hlone] at h
        cases h
      · rw [joinLines_step hlone hlast] at h
        refine ih ?_ h
        have hlen := (getline_shrinks i).1
        have hpos : 0 < cs.length := List.length_pos_iff.mpr fun hnil => by
          rw [hnil] at hlast
          cases hlast
        rw [List.length_append, List.length_dropLast]
        omega
    · rw [joinLines_stop hlast] at h
      exact Option.some.inj h ▸ hlast

theorem joinLines_shrinks (fuel : Nat) (cs : List Char) (i : InputStream) :
    (joinLines fuel cs i).2.text.length ≤ i.text.length ∧
      (i.eof = true → (joinLines fuel cs i).2.eof = true) := by
  induction fuel generalizing cs i with
  | zero => exact ⟨Nat.le_refl _, id⟩
  | succ fuel ih =>
    obtain ⟨hlen, heof⟩ := getline_shrinks i
    rw [joinLines]
    split_ifs with hlast
    · dsimp only
      split_ifs with hnil
      · exact ⟨Nat.le_trans (Nat.le_add_left ..) hlen, heof⟩
      · obtain ⟨hlen', heof'⟩ := ih (cs.dropLast ++ (getline i).1) (getline i).2
        exact ⟨by omega, fun h => heof' (heof h)⟩
    · exact ⟨Nat.le_refl _, id⟩

/-- At the end of the stream the loop takes all backslashes at the end of the text away. -/
theorem joinLines_ended (heof : i.eof = true) (hne : cs ≠ []) (hfuel : cs.length < fuel) :
    ∃ as k, cs = as ++ List.replicate k '\\' ∧ as.getLast? ≠ some '\\' ∧
      (joinLines fuel cs i).1 = if as = [] then none else some as := by
  induction fuel generalizing cs i with
  | zero => exact absurd hfuel (Nat.not_lt_zero _)
  | succ fuel ih =>
    by_cases hlast : cs.getLast? = some '\\'
    · by_cases hlone : cs = ['\\']
      · subst hlone
        exact ⟨[], 1, rfl, nofun, rfl⟩
      · have hdrop := dropLast_ne_nil hlone hlast
        have hlen : cs.dropLast.length < fuel := by
          have hpos := List.length_pos_iff.mpr hne
          rw [List.length_dropLast]
          omega
        obtain ⟨as, k, hcs, hclosed, hjoin⟩ :=
          @ih { i with fail := true } cs.dropLast heof hdrop hlen
        refine ⟨as, k + 1, ?_, hclosed, ?_⟩
        · rw [List.replicate_succ', ← List.append_assoc, ← hcs]
          exact (List.dropLast_append_getLast? '\\' hlast).symm
        · rw [joinLines_step hlone hlast, getline_of_eof heof, List.append_nil]
          exact hjoin
    · refine ⟨cs, 0, (List.append_nil cs).symm, hlast, ?_⟩
      rw [joinLines_stop hlast, if_neg hne]

/-- When the logical line ends in a backslash, the loop reads on behind it or takes its
backslashes away. -/
theorem joinLines_overruns (h : Joining i cs) (hfuel : cs.length + i.text.length < fuel)
    (hlast : (logicalLine (i.behind cs)).line.getLast? = some '\\') :
    ¬((joinLines fuel cs i).2.text = (logicalLine (i.behind cs)).rest ∧
        (joinLines fuel cs i).2.eof = !(logicalLine (i.behind cs)).newline) ∨
      ∃ as k, (logicalLine (i.behind cs)).line = as ++ List.replicate (k + 1) '\\' ∧
        as.getLast? ≠ some '\\' ∧
        (joinLines fuel cs i).1 = if as = [] then none else some as := by
  induction fuel generalizing cs i with
  | zero => exact absurd hfuel (Nat.not_lt_zero _)
  | succ fuel ih =>
    obtain ⟨hsound, -, -, hlen⟩ := getline_behind h.sound
    have hpos := List.length_pos_iff.mpr h.nonempty
    have hmeasure : (cs.dropLast ++ (getline i).1).length + (getline i).2.text.length < fuel := by
      rw [List.length_append, List.length_dropLast]
      omega
    cases hopen : endsOpen cs with
    | true =>
      obtain ⟨hjoin, hsame⟩ := h.step hopen
      rw [joinLines_step h.notLone (getLast?_of_endsOpen hopen), ← hsame]
      exact ih hjoin hmeasure (by rwa [hsame])
    | false =>
      have hline := logicalLine_behind h.sound h.noNewline
      rw [hopen, if_neg Bool.false_ne_true] at hline
      rw [hline] at hlast ⊢
      cases heof : i.eof with
      | true =>
        obtain ⟨as, k, hcs, hclosed, hjoin⟩ :=
          @joinLines_ended i cs (fuel + 1) heof h.nonempty (by omega)
        cases k with
        | zero =>
          rw [List.replicate_zero, List.append_nil] at hcs
          exact absurd (hcs ▸ hlast) hclosed
        | succ k => exact .inr ⟨as, k, hcs, hclosed, hjoin⟩
      | false =>
        refine .inl fun ⟨htext, hend⟩ => ?_
        rw [joinLines_step h.notLone hlast] at htext hend
        obtain ⟨hshorter, hended⟩ :=
          joinLines_shrinks fuel (cs.dropLast ++ (getline i).1) (getline i).2
        have hnotEnded : (joinLines fuel (cs.dropLast ++ (getline i).1) (getline i).2).2.eof ≠
            true := by
          rw [hend]
          exact Bool.false_ne_true
        obtain ⟨-, -, -, hless | hless, -⟩ := getline_of_good h.sound heof
        · exact hnotEnded (hended hless)
        · have hsame : (joinLines fuel (cs.dropLast ++ (getline i).1) (getline i).2).2.text.length =
              i.text.length := congrArg List.length htext
          omega

end Joining

/-! ## Backslashes at the end of a line -/

section Backslashes

variable {ansiC : Bool} {as out : List Char}

theorem getLast?_of_append (as : List Char) {cs : List Char} {c : Char}
    (h : (as ++ cs).getLast? ≠ some c) : cs.getLast? ≠ some c := by
  intro hlast
  rw [List.getLast?_append, hlast] at h
  exact h rfl

theorem DigitRun.append_backslash {digit : Char → Option Nat} {most : Nat} {ds cs : List Char}
    (h : DigitRun digit most ds cs) (hdigit : digit '\\' = none) (tail : List Char) :
    DigitRun digit most ds (cs ++ '\\' :: tail) where
  nonempty := h.nonempty
  atMost := h.atMost
  areDigits := h.areDigits
  longest := h.longest.imp_right fun hhead => by
    cases cs with
    | nil => simpa using hdigit
    | cons c cs => exact hhead

theorem startsEscape_append_backslash {cs : List Char} (hne : cs ≠ [])
    (h : startsEscape ansiC cs = false) (tail : List Char) :
    startsEscape ansiC (cs ++ '\\' :: tail) = false := by
  obtain ⟨c, cs, rfl⟩ := List.exists_cons_of_ne_nil hne
  cases cs with
  | nil =>
    have hoctal : octalDigit '\\' = none := by decide
    have hhex : hexDigit '\\' = none := by decide
    simpa [startsEscape, hoctal, hhex] using h
  | cons d cs => exact h

/-- A backslash behind a text that does not end in one starts an escape of its own. -/
theorem Scans.append_backslash {stopped stopped' : Bool} (h : Scans ansiC as out stopped)
    (hgoes : stopped = false) (hlast : as.getLast? ≠ some '\\') {tail out' : List Char}
    (htail : Scans ansiC ('\\' :: tail) out' stopped') :
    Scans ansiC (as ++ '\\' :: tail) (out ++ out') stopped' := by
  induction h with
  | done => exact htail
  | @copy c cs out stopped hc h ih => exact .copy hc (ih hgoes (getLast?_of_append [c] hlast))
  | @letter c text cs out stopped hc h ih =>
    rw [List.append_assoc]
    exact .letter hc (ih hgoes (getLast?_of_append ['\\', c] hlast))
  | @octal ds cs out stopped hds h ih =>
    have hrest := ih hgoes (getLast?_of_append _ hlast)
    rw [List.append_assoc]
    exact .octal (hds.append_backslash (by decide) tail) hrest
  | @hex ds cs out stopped hds h ih =>
    have hrest := ih hgoes (getLast?_of_append _ hlast)
    rw [List.append_assoc]
    exact .hex (hds.append_backslash (by decide) tail) hrest
  | @verbatim cs out stopped hcs h ih =>
    have hne : cs ≠ [] := by
      rintro rfl
      exact hlast rfl
    exact .verbatim (startsEscape_append_backslash hne hcs tail)
      (ih hgoes (getLast?_of_append ['\\'] hlast))
  | stop cs => cases hgoes

/-- Of backslashes some are left. -/
theorem exists_scans_backslashes (ansiC : Bool) (k : Nat) :
    ∃ out, Scans ansiC (List.replicate k '\\') out false ∧ (k ≠ 0 → out ≠ []) ∧
      ' ' ∉ out := by
  induction k using Nat.twoStepInduction with
  | zero => exact ⟨[], .done, fun h => absurd rfl h, List.not_mem_nil⟩
  | one => exact ⟨['\\'], .verbatim rfl .done, fun _ => List.cons_ne_nil _ _, by decide⟩
  | more k ih _ =>
    obtain ⟨out, hscan, -, hspace⟩ := ih
    refine ⟨'\\' :: out, ?_, fun _ => List.cons_ne_nil _ _, ?_⟩
    · have hchar : escapeChar ansiC '\\' = some ['\\'] := rfl
      exact .letter hchar hscan
    · rw [List.mem_cons, not_or]
      exact ⟨by decide, hspace⟩

theorem transformEscapes_of_scans {stopped : Bool} (h : Scans ansiC as out stopped) :
    transformEscapes ansiC (String.ofList as) = (String.ofList out, stopped) := by
  rw [← parseEscapes_eq]
  exact Scans.parse (by rwa [String.toList_ofList])

theorem length_splitAt (p : Char → Bool) (cs : List Char) :
    (splitAt p cs).length = cs.countP p + 1 := by
  induction cs with
  | nil => rfl
  | cons c cs ih =>
    rw [splitAt, List.countP_cons]
    cases hp : p c with
    | true =>
      rw [if_pos rfl, if_pos rfl, List.length_cons, ih]
    | false =>
      rw [if_neg Bool.false_ne_true, if_neg Bool.false_ne_true]
      cases hsplit : splitAt p cs with
      | nil =>
        rw [hsplit] at ih
        exact absurd ih (by simp)
      | cons token tokens =>
        rw [hsplit] at ih
        exact ih

/-- Without the backslashes at its end a line decodes to a text with as many pieces, which
is another one. -/
theorem transformEscapes_backslashes (hlast : as.getLast? ≠ some '\\') (k : Nat)
    (hgoes : (transformEscapes ansiC (String.ofList as)).2 = false) :
    (transformEscapes ansiC (String.ofList (as ++ List.replicate (k + 1) '\\'))).1 ≠
        (transformEscapes ansiC (String.ofList as)).1 ∧
      (splitSpaces
          (transformEscapes ansiC (String.ofList (as ++ List.replicate (k + 1) '\\'))).1).length =
        (splitSpaces (transformEscapes ansiC (String.ofList as)).1).length := by
  obtain ⟨out, stopped, hscan⟩ := exists_scans ansiC as
  obtain ⟨out', htail, hne, hspace⟩ := exists_scans_backslashes ansiC (k + 1)
  rw [transformEscapes_of_scans hscan] at hgoes ⊢
  have hall := transformEscapes_of_scans (hscan.append_backslash hgoes hlast htail)
  rw [← List.replicate_succ] at hall
  rw [hall]
  refine ⟨fun heq => hne (Nat.succ_ne_zero k) ?_, ?_⟩
  · exact List.append_right_eq_self.mp (String.ofList_injective heq)
  · have hcount : out'.countP (· == ' ') = 0 := by
      rw [List.countP_eq_zero]
      intro c hc heq
      exact hspace (eq_of_beq heq ▸ hc)
    unfold splitSpaces
    rw [List.length_map, List.length_map, length_splitAt, length_splitAt, String.toList_ofList,
      String.toList_ofList, List.countP_append, hcount, Nat.add_zero]

/-- Texts with equally many pieces are told apart by what the variables get. -/
theorem eq_of_assignments {names : List String} (hne : names ≠ []) {text text' : String}
    (hlen : (splitSpaces text).length = (splitSpaces text').length)
    (h : assignments names (splitSpaces text) = assignments names (splitSpaces text')) :
    text = text' := by
  have hpos := List.length_pos_iff.mpr hne
  have hshares : ∀ i, i < names.length →
      share names.length (splitSpaces text) i = share names.length (splitSpaces text') i := by
    intro i hi
    have hget := congrArg (fun ws : List StoreWrite => ws[i]?) h
    simp only [assignments, List.getElem?_mapIdx, List.getElem?_eq_getElem hi, Option.map_some,
      Option.some.injEq, StoreWrite.setValue.injEq, Value.str.injEq] at hget
    exact hget.2.1
  rw [← intercalate_splitSpaces text, ← intercalate_splitSpaces text',
    ← intercalate_shares hpos (splitSpaces_ne_nil text),
    ← intercalate_shares hpos (splitSpaces_ne_nil text'), hlen]
  congr 1
  refine List.map_congr_left fun i hi => hshares i ?_
  rw [List.mem_range] at hi
  omega

end Backslashes

/-! ## `read` -/

/-- What the variables get: the line with its escapes replaced. -/
def LogicalLine.decoded (l : LogicalLine) : String :=
  (transformEscapes false (String.ofList l.line)).1

/-- `read` takes the line from its stream and nothing else, gives every variable its share
of it, and returns 0 only for a line that a line end ended. -/
structure ReadsLogicalLine (host : Host) (n d : Nat) (args : List String) (s : Interpreter)
    (l : LogicalLine) : Prop where
  assigns : ∃ i' : InputStream, i'.text = l.rest ∧ i'.eof = !l.newline ∧
    runShell host n d ((WriteCommand.read args).operands host) s =
      some (.ok (assignments (readNames args) (splitSpaces l.decoded)),
        { s with inputs := s.inputs.set s.streams.inp i' })
  returns : ∀ r s', runShell host n d (Shell.readBuiltin args) s = some (.ok r, s') →
    (r ≠ 0 ↔ l.newline = false)

/-- The first line before a line end is not empty and not a lone backslash, the logical
line does not end in a backslash, and no `\c` stops its escapes. -/
structure PlainLine (text : List Char) : Prop where
  nonempty : text.takeWhile (· != '\n') ≠ []
  notLone : text.takeWhile (· != '\n') ≠ ['\\']
  closed : (logicalLine text).line.getLast? ≠ some '\\'
  notStopped : (transformEscapes false (String.ofList (logicalLine text).line)).2 = false

section Read

variable {host : Host} {n d : Nat} {args : List String} {s : Interpreter} {i : InputStream}

theorem readNames_ne_nil (args : List String) : readNames args ≠ [] := by
  unfold readNames
  split_ifs with h
  · exact List.cons_ne_nil _ _
  · simpa using h

theorem assignments_ne_nil {names : List String} (hne : names ≠ []) (words : List String) :
    assignments names words ≠ [] := by
  intro h
  exact hne (List.mapIdx_eq_nil_iff.mp h)

/-- The state behind the calls of `getline`. -/
def Interpreter.readOn (s : Interpreter) (i : InputStream) : Interpreter :=
  { s with inputs := s.inputs.set s.streams.inp i }

theorem readOn_injective (h : s.inputs[s.streams.inp]? = some i) {j k : InputStream}
    (hjk : s.readOn j = s.readOn k) : j = k := by
  have hlt : s.streams.inp < s.inputs.length := (List.getElem?_eq_some_iff.mp h).1
  have hget := congrArg (fun t : Interpreter => t.inputs[s.streams.inp]?) hjk
  simp only [Interpreter.readOn, List.getElem?_set_self hlt, Option.some.injEq] at hget
  exact hget

theorem run_readInput (h : s.inputs[s.streams.inp]? = some i) :
    runShell host n d (perform .readInput) s =
      some (.ok ((readLines i).1.map String.ofList, if (readLines i).2.eof then 1 else 0),
        s.readOn (readLines i).2) := by
  have hget : s.inputs[s.streams.inp]?.getD { text := [], fail := true } = i := by rw [h]; rfl
  rw [runShell_perform, performOp, ← hget]
  rfl

/-- `read` without a text. -/
theorem run_operands_none (h : s.inputs[s.streams.inp]? = some i) (hnone : (readLines i).1 = none) :
    runShell host n d ((WriteCommand.read args).operands host) s =
      some (.ok [], s.readOn (readLines i).2) := by
  rw [WriteCommand.operands, runShell_bind, bind_of_ok (run_readInput h), hnone]
  rfl

/-- `read` with a text. -/
theorem run_operands_some (h : s.inputs[s.streams.inp]? = some i) {line : List Char}
    (hline : (readLines i).1 = some line) :
    runShell host n d ((WriteCommand.read args).operands host) s =
      some (if (transformEscapes false (String.ofList line)).2 then .error .suppressOutput
        else .ok (assignments (readNames args)
          (splitSpaces (transformEscapes false (String.ofList line)).1)),
        s.readOn (readLines i).2) := by
  rw [WriteCommand.operands, runShell_bind, bind_of_ok (run_readInput h), hline]
  simp only [Option.map_some, runShell_bind, Shell.escaped]
  cases hstop : (transformEscapes false (String.ofList line)).2 with
  | true => rfl
  | false =>
    rw [← processWrites_eq]
    rfl

/-- What `read` returns when it does not throw. -/
theorem readBuiltin_returns (h : s.inputs[s.streams.inp]? = some i) {r : Int} {s' : Interpreter}
    (hrun : runShell host n d (Shell.readBuiltin args) s = some (.ok r, s')) :
    r = if (readLines i).2.eof then 1 else 0 := by
  rw [Shell.readBuiltin, runShell_bind, bind_of_ok (run_readInput h)] at hrun
  cases hline : (readLines i).1 with
  | none =>
    rw [hline] at hrun
    cases hrun
    rfl
  | some line =>
    rw [hline] at hrun
    simp only [Option.map_some, runShell_bind] at hrun
    obtain ⟨text, s₁, -, hprocess⟩ | ⟨e, -, herror⟩ := bind_cases hrun
    · obtain ⟨⟨⟩, s₂, -, hpure⟩ | ⟨e, -, herror⟩ := bind_cases hprocess
      · cases hpure
        rfl
      · cases herror
    · cases herror

theorem getline_takeWhile (hsound : i.Sound) :
    (getline i).1 = i.text.takeWhile (· != '\n') := by
  unfold getline
  split_ifs with hend
  · have heof : i.eof = true := by
      rcases Bool.or_eq_true_iff.mp hend with heof | hfail
      · exact heof
      · exact hsound.failed hfail
    rw [hsound.ended heof]
    rfl
  · rw [span_newline]
    split
    · next line hspan => exact (Prod.mk.inj hspan).1.symm
    · next line c rest hspan => exact (Prod.mk.inj hspan).1.symm

theorem readLines_of_empty (hsound : i.Sound) (h : i.text.takeWhile (· != '\n') = []) :
    (readLines i).1 = none := by
  unfold readLines
  dsimp only
  rw [getline_takeWhile hsound, h]
  rfl

theorem readLines_of_lone (hsound : i.Sound) (h : i.text.takeWhile (· != '\n') = ['\\']) :
    (readLines i).1 = none := by
  unfold readLines
  dsimp only
  rw [getline_takeWhile hsound, h]
  rfl

/-- The loop over the lines starts with the first line. -/
theorem readLines_joining (hsound : i.Sound) (hne : i.text.takeWhile (· != '\n') ≠ [])
    (hlone : i.text.takeWhile (· != '\n') ≠ ['\\']) :
    Joining (getline i).2 (getline i).1 ∧ (getline i).2.behind (getline i).1 = i.text ∧
      (getline i).1.length + (getline i).2.text.length < i.text.length + 1 ∧
      readLines i = joinLines (i.text.length + 1) (getline i).1 (getline i).2 := by
  obtain ⟨hsound', hline, hbehind, hlen⟩ := getline_behind hsound
  rw [← getline_takeWhile hsound] at hne hlone
  refine ⟨⟨hsound', hline, hne, hlone⟩, hbehind, Nat.lt_succ_of_le hlen, ?_⟩
  unfold readLines
  dsimp only
  rw [if_neg (by simpa using hne)]

/-- The loop over the lines comes to its end. -/
theorem readLines_ends (i : InputStream) {line : List Char} (h : (readLines i).1 = some line) :
    line.getLast? ≠ some '\\' := by
  unfold readLines at h
  dsimp only at h
  split_ifs at h with hnil
  exact joinLines_ends (Nat.lt_succ_of_le (getline_shrinks i).1) h

theorem PlainLine.reads (hsound : i.Sound) (h : s.inputs[s.streams.inp]? = some i)
    (hplain : PlainLine i.text) : ReadsLogicalLine host n d args s (logicalLine i.text) := by
  obtain ⟨hjoin, hbehind, hfuel, hread⟩ := readLines_joining hsound hplain.nonempty hplain.notLone
  obtain ⟨i', hline, htext, heof⟩ :=
    joinLines_agrees hjoin hfuel (by rw [hbehind]; exact hplain.closed)
  rw [← hread, hbehind] at hline
  rw [hbehind] at htext heof
  refine ⟨⟨i', htext, heof, ?_⟩, fun r s' hrun => ?_⟩
  · rw [run_operands_some h (congrArg Prod.fst hline), hplain.notStopped,
      if_neg Bool.false_ne_true, hline]
    rfl
  · rw [readBuiltin_returns h hrun, hline, heof]
    cases (logicalLine i.text).newline <;> decide

theorem ReadsLogicalLine.plain (hsound : i.Sound) (h : s.inputs[s.streams.inp]? = some i)
    (hreads : ReadsLogicalLine host n d args s (logicalLine i.text)) : PlainLine i.text := by
  obtain ⟨i', htext, heof, hrun⟩ := hreads.assigns
  -- without a text there is nothing that `read` assigns
  have hsome : (readLines i).1 ≠ none := by
    intro hnone
    rw [run_operands_none h hnone] at hrun
    have hnil := Except.ok.inj (Prod.mk.inj (Option.some.inj hrun)).1
    exact assignments_ne_nil (readNames_ne_nil args) _ hnil.symm
  have hne : i.text.takeWhile (· != '\n') ≠ [] := fun hnil => hsome (readLines_of_empty hsound hnil)
  have hlone : i.text.takeWhile (· != '\n') ≠ ['\\'] := fun hl =>
    hsome (readLines_of_lone hsound hl)
  obtain ⟨hjoin, hbehind, hfuel, hread⟩ := readLines_joining hsound hne hlone
  have hstream : (readLines i).2 = i' := by
    obtain ⟨line, hline⟩ := Option.ne_none_iff_exists'.mp hsome
    rw [run_operands_some h hline] at hrun
    exact readOn_injective h (Prod.mk.inj (Option.some.inj hrun)).2
  have hclosed : (logicalLine i.text).line.getLast? ≠ some '\\' := by
    intro hlast
    have hover := joinLines_overruns hjoin hfuel (by rw [hbehind]; exact hlast)
    rw [← hread, hbehind, hstream] at hover
    rcases hover with hfar | ⟨as, k, hline, has, hjoined⟩
    · exact hfar ⟨htext, heof⟩
    · by_cases hnil : as = []
      · rw [if_pos hnil] at hjoined
        exact hsome hjoined
      · rw [if_neg hnil] at hjoined
        rw [run_operands_some h hjoined] at hrun
        have hwritten := (Prod.mk.inj (Option.some.inj hrun)).1
        cases hstop : (transformEscapes false (String.ofList as)).2 with
        | true =>
          rw [hstop, if_pos rfl] at hwritten
          cases hwritten
        | false =>
          rw [hstop, if_neg Bool.false_ne_true] at hwritten
          obtain ⟨hother, hpieces⟩ := @transformEscapes_backslashes false as has k hstop
          rw [← hline] at hother hpieces
          exact hother (eq_of_assignments (readNames_ne_nil args) hpieces
            (Except.ok.inj hwritten).symm)
  refine ⟨hne, hlone, hclosed, ?_⟩
  obtain ⟨i'', hline, -, -⟩ :=
    joinLines_agrees hjoin hfuel (by rw [hbehind]; exact hclosed)
  rw [← hread, hbehind] at hline
  rw [run_operands_some h (congrArg Prod.fst hline)] at hrun
  cases hstop : (transformEscapes false (String.ofList (logicalLine i.text).line)).2 with
  | true =>
    rw [hstop, if_pos rfl] at hrun
    cases (Prod.mk.inj (Option.some.inj hrun)).1
  | false => rfl

/-- `read` evaluates its operands and then assigns, its loop comes to its end, what it
assigns to the variables is the decoded line when it is joined again, and it reads the
logical line just when that is a plain one. -/
theorem readsLogicalLine_iff (host : Host) (n d : Nat) (args : List String) (s : Interpreter)
    (i : InputStream) (hsound : i.Sound) (h : s.inputs[s.streams.inp]? = some i) :
    runShell host n d (Shell.discard (Shell.readBuiltin args)) =
        runShell host n d ((WriteCommand.read args).operands host) >>=
          (fun ws => runShell host n d (performWrites ws)) ∧
      (∀ line, (readLines i).1 = some line → line.getLast? ≠ some '\\') ∧
      (∀ line : String, " ".intercalate
          ((List.range (min (readNames args).length (splitSpaces line).length)).map
            (share (readNames args).length (splitSpaces line))) = line) ∧
      (ReadsLogicalLine host n d args s (logicalLine i.text) ↔ PlainLine i.text) := by
  refine ⟨run_writeCommand _ (.read args), fun line => readLines_ends i, fun line => ?_,
    ⟨ReadsLogicalLine.plain hsound h, PlainLine.reads hsound h⟩⟩
  have hpos := List.length_pos_iff.mpr (readNames_ne_nil args)
  rw [intercalate_shares hpos (splitSpaces_ne_nil line), intercalate_splitSpaces]

end Read

theorem readsLogicalLine_iff_joined :
    ReadsLogicalLine (.ofTexts [] []) 0 0 ["x", "y"]
      (.initial ['a', '\\', '\n', 'b', ' ', 'c', '\n', 'd'])
      (logicalLine ['a', '\\', '\n', 'b', ' ', 'c', '\n', 'd']) := by
  have hplain : PlainLine ['a', '\\', '\n', 'b', ' ', 'c', '\n', 'd'] :=
    ⟨by decide, by decide, by decide, by decide +kernel⟩
  have hsound (text : List Char) : InputStream.Sound { text := text } :=
    { ended := nofun, failed := nofun }
  have hinput (text : List Char) : (Interpreter.initial text).inputs[
      (Interpreter.initial text).streams.inp]? = some { text := text } := rfl
  exact (readsLogicalLine_iff (.ofTexts [] []) 0 0 ["x", "y"] _ _ (hsound _) (hinput _)).2.2.2.mpr
    hplain

/-- An empty line leaves the variable as it is. -/
theorem readBuiltin_emptyLine :
    ¬ReadsLogicalLine (.ofTexts [] []) 0 0 ["x"] (.initial "\n".toList)
      (logicalLine "\n".toList) := by
  intro hreads
  obtain ⟨i', -, -, hrun⟩ := hreads.assigns
  cases hrun

end Libbash
