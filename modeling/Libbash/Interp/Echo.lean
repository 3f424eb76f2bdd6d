import Mathlib.Data.List.TakeWhile
import Libbash.Interp.Reading

/-!
# `echo`

What `echo` should print for a list of arguments is `echoText`: the options are
the arguments before the first one that does not have the form of an option, and
the rest is laid out with a space between two arguments. The code takes an empty
argument for an option, ends without a newline when it has seen options only, and
with `-e` leaves the spaces out. `printsText_iff` says for which lists of
arguments that is no difference.
-/

namespace Libbash

open Lib Lib.Comp Lib.Program

/-! ## Escapes -/

section Escapes

variable {ansiC : Bool}

theorem readDigits_length (digit : Char → Option Nat) (base most n : Nat) (cs : List Char) :
    (readDigits digit base most n cs).2.length ≤ cs.length := by
  induction most generalizing n cs with
  | zero => exact le_refl _
  | succ most ih =>
    cases cs with
    | nil => exact le_refl _
    | cons c cs =>
      rw [readDigits]
      cases digit c with
      | none => exact le_refl _
      | some k => exact Nat.le_trans (ih _ _) (Nat.le_succ _)

/-- An escape is not shorter than its text. -/
theorem escapeSequence_length {cs text rest : List Char}
    (h : escapeSequence ansiC cs = some (text, rest)) :
    text.length + rest.length ≤ cs.length + 1 ∧ rest.length < cs.length := by
  unfold escapeSequence at h
  split at h
  · rename_i d cs
    obtain ⟨k, -, heq⟩ := Option.map_eq_some_iff.mp h
    obtain ⟨rfl, rfl⟩ := Prod.mk.inj heq
    have hlen := readDigits_length octalDigit 8 2 k cs
    simp only [List.length_cons, List.length_nil]
    omega
  · rename_i d cs
    obtain ⟨k, -, heq⟩ := Option.map_eq_some_iff.mp h
    obtain ⟨rfl, rfl⟩ := Prod.mk.inj heq
    have hlen := readDigits_length hexDigit 16 1 k cs
    simp only [List.length_cons, List.length_nil]
    omega
  · rename_i c cs _ _
    obtain ⟨text', hchar, heq⟩ := Option.map_eq_some_iff.mp h
    obtain ⟨rfl, rfl⟩ := Prod.mk.inj heq
    have htext : text'.length ≤ 2 := by
      unfold escapeChar at hchar
      split at hchar <;> cases hchar <;> cases ansiC <;> simp
    simp only [List.length_cons]
    omega
  · cases h

/-- Escape processing makes no text longer. -/
theorem transformChars_length (ansiC : Bool) (fuel : Nat) (cs : List Char) :
    (transformChars ansiC fuel cs).1.length ≤ cs.length := by
  fun_induction transformChars ansiC fuel cs with
  | case1 cs => exact Nat.zero_le _
  | case2 fuel => exact le_refl _
  | case3 fuel cs => exact Nat.zero_le _
  | case4 fuel cs hc text rest hseq ih =>
    have hlen := escapeSequence_length hseq
    simp only [List.length_append, List.length_cons]
    omega
  | case5 fuel cs hc hseq ih =>
    simp only [List.length_cons]
    omega
  | case6 fuel c cs hc hbackslash ih =>
    simp only [List.length_cons]
    omega

/-- What stands before the first backslash is printed as it is. -/
theorem takeWhile_prefix_transformChars (fuel : Nat) (cs : List Char) (hfuel : cs.length ≤ fuel) :
    cs.takeWhile (· != '\\') <+: (transformChars ansiC fuel cs).1 := by
  induction fuel generalizing cs with
  | zero =>
    rw [List.length_eq_zero_iff.mp (Nat.le_zero.mp hfuel)]
    exact List.prefix_refl _
  | succ fuel ih =>
    cases cs with
    | nil => exact List.nil_prefix
    | cons c cs =>
      by_cases hc : c = '\\'
      · subst hc
        rw [List.takeWhile_cons_of_neg (by decide)]
        exact List.nil_prefix
      · have hstep : (transformChars ansiC (fuel + 1) (c :: cs)).1 =
            c :: (transformChars ansiC fuel cs).1 := by
          rw [transformChars]
          · exact fun _ heq => absurd heq hc
          · exact hc
        rw [List.takeWhile_cons_of_pos (by simpa using hc), hstep]
        exact List.cons_prefix_cons.mpr ⟨rfl, ih cs (Nat.le_of_succ_le_succ hfuel)⟩

/-- Without a backslash there is nothing to do. -/
theorem transformChars_of_noBackslash (fuel : Nat) (cs : List Char) (hfuel : cs.length ≤ fuel)
    (h : '\\' ∉ cs) : transformChars ansiC fuel cs = (cs, false) := by
  induction fuel generalizing cs with
  | zero =>
    rw [List.length_eq_zero_iff.mp (Nat.le_zero.mp hfuel)]
    rfl
  | succ fuel ih =>
    cases cs with
    | nil => rfl
    | cons c cs =>
      obtain ⟨hc, hcs⟩ := not_or.mp (mt List.mem_cons.mpr h)
      rw [transformChars, ih cs (Nat.le_of_succ_le_succ hfuel) hcs]
      · exact fun _ heq => absurd heq.symm hc
      · exact fun heq => hc heq.symm

end Escapes

/-! ## What `echo` should print -/

/-- The form of an option: `-`, and then letters among `n`, `e` and `E`. -/
def isEchoOption (arg : String) : Bool :=
  match arg.toList with
  | '-' :: c :: cs => (c :: cs).all fun c => c == 'n' || c == 'e' || c == 'E'
  | _ => false

/-- There is an `n` among the options. -/
def suppressesNl (options : List String) : Bool :=
  (options.flatMap String.toList).contains 'n'

/-- The last `e` or `E` among the options. -/
def lastEscapeLetter (options : List String) : Option Char :=
  (options.flatMap String.toList).reverse.find? fun c => c == 'e' || c == 'E'

/-- What happens to an argument: its text, and whether nothing may follow. -/
def processArgument (escapes : Bool) (arg : String) : String × Bool :=
  if escapes then transformEscapes false arg else (arg, false)

/-- The arguments with a space between two of them, up to one that stops the
output. -/
def layOut (escapes : Bool) : List String → String × Bool
  | [] => ("", false)
  | [arg] => processArgument escapes arg
  | arg :: arg' :: args =>
    if (processArgument escapes arg).2 then processArgument escapes arg
    else ((processArgument escapes arg).1 ++ " " ++ (layOut escapes (arg' :: args)).1,
      (layOut escapes (arg' :: args)).2)

/-- The newline at the end, unless the output has stopped. -/
def ended (out : String × Bool) (suppressNl : Bool) : String :=
  if out.2 || suppressNl then out.1 else out.1 ++ "\n"

def echoText (args : List String) : String :=
  ended (layOut (lastEscapeLetter (args.takeWhile isEchoOption) == some 'e')
      (args.dropWhile isEchoOption))
    (suppressesNl (args.takeWhile isEchoOption))

/-! ## What `echo` prints -/

/-- The arguments that `determine_options` takes for options. -/
def isSkipped (arg : String) : Bool := arg.isEmpty || isEchoOption arg

/-- The arguments one after the other, up to one that stops the output. -/
def squeezed : List String → String × Bool
  | [] => ("", false)
  | arg :: args =>
    if (transformEscapes false arg).2 then transformEscapes false arg
    else ((transformEscapes false arg).1 ++ (squeezed args).1, (squeezed args).2)

namespace EchoOptions

/-- The options after the given arguments. -/
def after (o : EchoOptions) (args : List String) : EchoOptions where
  suppressNl := o.suppressNl || suppressesNl args
  enableEscapes := ((lastEscapeLetter args).map (· == 'e')).getD o.enableEscapes

theorem after_nil (o : EchoOptions) : o.after [] = o := by
  cases o
  simp [after, suppressesNl, lastEscapeLetter]

theorem after_cons (o : EchoOptions) (arg : String) (args : List String) :
    o.after (arg :: args) = (o.after [arg]).after args := by
  simp only [after, suppressesNl, lastEscapeLetter, List.flatMap_cons, List.flatMap_nil,
    List.append_nil, List.reverse_append, List.find?_append, List.contains_append, Bool.or_assoc]
  congr 1
  cases (args.flatMap String.toList).reverse.find? fun c => c == 'e' || c == 'E' with
  | none => rfl
  | some c => rfl

theorem determine_eq (o : EchoOptions) (arg : String) :
    o.determine arg = if isSkipped arg then some (o.after [arg]) else none := by
  have hafter : o.after [arg] =
      { suppressNl := o.suppressNl || arg.toList.contains 'n'
        enableEscapes :=
          ((arg.toList.reverse.find? fun c => c == 'e' || c == 'E').map (· == 'e')).getD
            o.enableEscapes } := by
    simp [after, suppressesNl, lastEscapeLetter]
  have hempty : arg.isEmpty = arg.toList.isEmpty := by
    rw [Bool.eq_iff_iff, String.isEmpty_iff, List.isEmpty_iff, String.toList_eq_nil_iff]
  rw [hafter, isSkipped, isEchoOption, determine, hempty]
  split
  · rename_i hnil
    simp [hnil]
  · rename_i c cs harg
    rw [harg]
    have hfind : ('-' :: c :: cs).reverse.find? (fun c => c == 'e' || c == 'E') =
        (c :: cs).reverse.find? fun c => c == 'e' || c == 'E' := by
      rw [List.reverse_cons, List.find?_append]
      exact Option.or_none
    by_cases hall : ((c :: cs).all fun c => c == 'n' || c == 'e' || c == 'E') = true
    · simp only [List.isEmpty_cons, Bool.false_or, hall, if_true, hfind]
      congr 2
      cases (c :: cs).reverse.find? fun c => c == 'e' || c == 'E' with
      | none => rfl
      | some c => rfl
    · simp only [List.isEmpty_cons, Bool.false_or, hall, Bool.false_eq_true, if_false]
  · rename_i hnil hdash
    have hne : arg.toList.isEmpty = false := Bool.eq_false_iff.mpr (mt List.isEmpty_iff.mp hnil)
    rw [hne]
    split
    · rename_i c cs heq
      exact absurd heq (hdash c cs)
    · rfl

/-- What `echo` writes for the arguments after the options. -/
def write (o : EchoOptions) (args : List String) : String :=
  ended (if o.enableEscapes then squeezed args else (" ".intercalate args, false)) o.suppressNl

end EchoOptions

/-- What `echo` writes. -/
def echoWritten (args : List String) : String :=
  if args = [] then "\n"
  else if args.dropWhile isSkipped = [] then ""
  else (EchoOptions.after {} (args.takeWhile isSkipped)).write (args.dropWhile isSkipped)

section Run

variable (host : Host) (n d : Nat)

theorem writeTo_empty (s : Interpreter) (k : Nat) : s.writeTo k "" = s := by
  have hmodify : s.outputs.modify k (· ++ "") = s.outputs := by
    simp only [String.append_empty]
    exact List.modify_id k s.outputs
  rw [Interpreter.writeTo, hmodify]

theorem writeTo_writeTo (s : Interpreter) (k : Nat) (a b : String) :
    (s.writeTo k a).writeTo k b = s.writeTo k (a ++ b) := by
  simp [Interpreter.writeTo, List.modify_modify_eq, Function.comp_def, String.append_assoc]

theorem run_write (text : String) (s : Interpreter) :
    runShell host n d (perform (.write text)) s = some (.ok (), s.writeTo s.streams.out text) := rfl

theorem run_echoEscaped (args : List String) (s : Interpreter) :
    runShell host n d (Shell.echoEscaped args) s =
      some (.ok (!(squeezed args).2), s.writeTo s.streams.out (squeezed args).1) := by
  induction args generalizing s with
  | nil =>
    rw [squeezed, writeTo_empty]
    rfl
  | cons arg args ih =>
    rw [Shell.echoEscaped, runShell_bind, bind_of_ok (run_write host n d _ s), squeezed]
    cases hstop : (transformEscapes false arg).2 with
    | true =>
      simp only [if_true, hstop]
      rfl
    | false =>
      simp only [Bool.false_eq_true, if_false]
      rw [ih, ← writeTo_writeTo]
      rfl

theorem run_echoArguments (o : EchoOptions) (args : List String) (s : Interpreter) :
    runShell host n d (Shell.echoArguments o args) s =
      some (.ok (), s.writeTo s.streams.out (o.write args)) := by
  rw [Shell.echoArguments, EchoOptions.write, Shell.echoNewline, ended]
  cases o.enableEscapes with
  | true =>
    simp only [if_true]
    rw [runShell_bind, bind_of_ok (run_echoEscaped host n d args s)]
    cases hstop : (squeezed args).2 with
    | true => rfl
    | false =>
      cases o.suppressNl with
      | true => rfl
      | false => exact congrArg (fun t => some (Except.ok (), t)) (writeTo_writeTo ..)
  | false =>
    simp only [Bool.false_eq_true, if_false, Bool.false_or]
    rw [runShell_bind, bind_of_ok (run_write host n d _ s)]
    cases o.suppressNl with
    | true => rfl
    | false => exact congrArg (fun t => some (Except.ok (), t)) (writeTo_writeTo ..)

theorem run_echoLoop (o : EchoOptions) (args : List String) (s : Interpreter) :
    runShell host n d (Shell.echoLoop o args) s =
      some (.ok (), s.writeTo s.streams.out
        (if args.dropWhile isSkipped = [] then ""
          else (o.after (args.takeWhile isSkipped)).write (args.dropWhile isSkipped))) := by
  induction args generalizing o with
  | nil =>
    rw [List.dropWhile_nil, if_pos rfl, writeTo_empty]
    rfl
  | cons arg args ih =>
    rw [Shell.echoLoop, EchoOptions.determine_eq]
    by_cases harg : isSkipped arg = true
    · rw [if_pos harg, List.dropWhile_cons_of_pos harg, List.takeWhile_cons_of_pos harg,
        EchoOptions.after_cons o arg (args.takeWhile isSkipped)]
      exact ih _
    · rw [if_neg harg, List.dropWhile_cons_of_neg harg, List.takeWhile_cons_of_neg harg,
        EchoOptions.after_nil, if_neg (List.cons_ne_nil _ _)]
      exact run_echoArguments host n d o (arg :: args) s

/-- One run of `echo` writes one text. -/
theorem run_echoBuiltin (args : List String) (s : Interpreter) :
    runShell host n d (Shell.echoBuiltin args) s =
      some (.ok 0, s.writeTo s.streams.out (echoWritten args)) := by
  cases args with
  | nil => rfl
  | cons arg args =>
    rw [Shell.echoBuiltin, runShell_bind, bind_of_ok (run_echoLoop host n d {} (arg :: args) s)]
    · rfl
    · exact fun h => List.cons_ne_nil _ _ h

end Run

/-! ## The two layouts -/

section Layout

theorem ended_length (out : String × Bool) (b : Bool) :
    (ended out b).length = out.1.length + if out.2 || b then 0 else 1 := by
  unfold ended
  split
  · rfl
  · exact String.length_append ..

theorem length_transformEscapes (arg : String) :
    (transformEscapes false arg).1.length ≤ arg.length := by
  have hlen := transformChars_length false arg.length arg.toList
  rw [String.length_toList] at hlen
  show (String.ofList _).length ≤ arg.length
  rwa [String.length_ofList]

theorem transformEscapes_of_noBackslash {arg : String} (h : '\\' ∉ arg.toList) :
    transformEscapes false arg = (arg, false) := by
  show (String.ofList (transformChars false arg.length arg.toList).1,
    (transformChars false arg.length arg.toList).2) = (arg, false)
  rw [transformChars_of_noBackslash _ _ (le_of_eq String.length_toList) h, String.ofList_toList]

theorem intercalate_cons_cons (arg arg' : String) (args : List String) :
    " ".intercalate (arg :: arg' :: args) = arg ++ " " ++ " ".intercalate (arg' :: args) :=
  String.intercalate_cons_cons

theorem layOut_false (args : List String) :
    layOut false args = (" ".intercalate args, false) := by
  fun_induction layOut false args with
  | case1 => rfl
  | case2 arg => rw [String.intercalate_singleton]; rfl
  | case3 arg arg' args h => exact absurd h Bool.false_ne_true
  | case4 arg arg' args h ih => rw [ih, intercalate_cons_cons]; rfl

/-- Arguments that are printed as they are, before others. -/
theorem layOut_append {escapes : Bool} {skipped args : List String}
    (h : ∀ arg ∈ skipped, processArgument escapes arg = (arg, false)) (hskipped : skipped ≠ [])
    (hargs : args ≠ []) :
    layOut escapes (skipped ++ args) =
      (" ".intercalate skipped ++ " " ++ (layOut escapes args).1, (layOut escapes args).2) := by
  induction skipped with
  | nil => exact absurd rfl hskipped
  | cons x xs ih =>
    have hx := h x List.mem_cons_self
    cases xs with
    | nil =>
      obtain ⟨arg, args, rfl⟩ := List.exists_cons_of_ne_nil hargs
      rw [List.singleton_append, layOut, hx, String.intercalate_singleton]
      rfl
    | cons y ys =>
      have hrest := ih (fun arg harg => h arg (List.mem_cons_of_mem _ harg)) (List.cons_ne_nil _ _)
      rw [List.cons_append] at hrest
      rw [List.cons_append, List.cons_append, layOut, hx, hrest, intercalate_cons_cons]
      simp only [Bool.false_eq_true, if_false, String.append_assoc]

theorem layOut_of_noBackslash {args : List String} (h : '\\' ∉ (" ".intercalate args).toList) :
    layOut true args = (" ".intercalate args, false) := by
  fun_induction layOut true args with
  | case1 => rfl
  | case2 arg =>
    rw [String.intercalate_singleton] at h ⊢
    exact transformEscapes_of_noBackslash h
  | case3 arg arg' args hstop =>
    rw [intercalate_cons_cons, String.toList_append, String.toList_append, List.append_assoc] at h
    have harg : processArgument true arg = (arg, false) :=
      transformEscapes_of_noBackslash fun hmem => h (List.mem_append_left _ hmem)
    rw [harg] at hstop
    cases hstop
  | case4 arg arg' args hstop ih =>
    rw [intercalate_cons_cons, String.toList_append, String.toList_append] at h
    have harg : processArgument true arg = (arg, false) :=
      transformEscapes_of_noBackslash fun hmem =>
        h (List.mem_append_left _ (List.mem_append_left _ hmem))
    rw [ih fun hmem => h (List.mem_append_right _ hmem), harg, intercalate_cons_cons]

section Steps

variable {arg arg' : String} {args : List String}

theorem squeezed_of_stop (h : (transformEscapes false arg).2 = true) :
    squeezed (arg :: args) = transformEscapes false arg := by
  rw [squeezed, if_pos h]

theorem squeezed_of_go (h : (transformEscapes false arg).2 = false) :
    squeezed (arg :: args) =
      ((transformEscapes false arg).1 ++ (squeezed args).1, (squeezed args).2) := by
  rw [squeezed, if_neg (Bool.eq_false_iff.mp h)]

theorem layOut_singleton : layOut true [arg] = transformEscapes false arg := rfl

theorem layOut_of_stop (h : (transformEscapes false arg).2 = true) :
    layOut true (arg :: args) = transformEscapes false arg := by
  cases args with
  | nil => rfl
  | cons arg' args => rw [layOut, processArgument, if_pos rfl, if_pos h]

theorem layOut_of_go (h : (transformEscapes false arg).2 = false) :
    layOut true (arg :: arg' :: args) =
      ((transformEscapes false arg).1 ++ " " ++ (layOut true (arg' :: args)).1,
        (layOut true (arg' :: args)).2) := by
  rw [layOut, processArgument, if_pos rfl, if_neg (Bool.eq_false_iff.mp h)]

end Steps

theorem takeWhile_noBackslash {cs ds : List Char} (h : '\\' ∉ cs) :
    (cs ++ ds).takeWhile (· != '\\') = cs ++ ds.takeWhile (· != '\\') := by
  refine List.takeWhile_append_of_pos fun c hc => ?_
  rw [bne_iff_ne]
  rintro rfl
  exact h hc

theorem takeWhile_backslash {cs ds : List Char} (h : '\\' ∈ cs) :
    (cs ++ ds).takeWhile (· != '\\') = cs.takeWhile (· != '\\') := by
  rw [List.takeWhile_append, if_neg]
  intro hlen
  have hwhole := (List.takeWhile_prefix (· != '\\')).eq_of_length hlen
  rw [← hwhole] at h
  exact absurd (List.mem_takeWhile_imp h) (by decide)

/-- What stands before the first backslash of all arguments is printed as it is. -/
theorem takeWhile_prefix_layOut (args : List String) :
    (" ".intercalate args).toList.takeWhile (· != '\\') <+: (layOut true args).1.toList := by
  have hprocess : ∀ arg : String,
      arg.toList.takeWhile (· != '\\') <+: (processArgument true arg).1.toList := by
    intro arg
    show _ <+: (String.ofList (transformChars false arg.length arg.toList).1).toList
    rw [String.toList_ofList]
    exact takeWhile_prefix_transformChars _ _ (le_of_eq String.length_toList)
  induction args with
  | nil => exact List.prefix_refl _
  | cons arg args ih =>
    cases args with
    | nil =>
      rw [String.intercalate_singleton]
      exact hprocess arg
    | cons arg' args =>
      rw [intercalate_cons_cons, String.toList_append, String.toList_append, List.append_assoc]
      by_cases hmem : '\\' ∈ arg.toList
      · rw [takeWhile_backslash hmem]
        refine (hprocess arg).trans ?_
        rw [layOut]
        split
        · exact List.prefix_refl _
        · rw [String.toList_append, String.toList_append, List.append_assoc]
          exact List.prefix_append _ _
      · have harg : processArgument true arg = (arg, false) := transformEscapes_of_noBackslash hmem
        have hlay : (layOut true (arg :: arg' :: args)).1 =
            arg ++ " " ++ (layOut true (arg' :: args)).1 := by
          rw [layOut, harg]
          rfl
        rw [takeWhile_noBackslash hmem, takeWhile_noBackslash (by decide), hlay,
          String.toList_append, String.toList_append, List.append_assoc]
        exact (List.prefix_append_right_inj _).mpr ((List.prefix_append_right_inj _).mpr ih)

theorem squeezed_length (args : List String) :
    (squeezed args).1.length ≤ (" ".intercalate args).length := by
  induction args with
  | nil => exact le_refl _
  | cons arg args ih =>
    have harg := length_transformEscapes arg
    have hlen : arg.length + (" ".intercalate args).length ≤
        (" ".intercalate (arg :: args)).length := by
      cases args with
      | nil =>
        rw [String.intercalate_singleton]
        exact le_refl _
      | cons arg' args =>
        rw [intercalate_cons_cons, String.length_append, String.length_append]
        omega
    rw [squeezed]
    split
    · omega
    · rw [String.length_append]
      omega

/-- The two layouts stop together, and the one without the spaces is not longer. -/
theorem squeezed_layOut (args : List String) :
    (squeezed args).2 = (layOut true args).2 ∧
      (squeezed args).1.length ≤ (layOut true args).1.length := by
  induction args with
  | nil => exact ⟨rfl, le_refl _⟩
  | cons arg args ih =>
    cases hstop : (transformEscapes false arg).2 with
    | true =>
      rw [squeezed_of_stop hstop, layOut_of_stop hstop]
      exact ⟨rfl, le_refl _⟩
    | false =>
      rw [squeezed_of_go hstop]
      cases args with
      | nil =>
        rw [layOut_singleton, hstop, squeezed, String.append_empty]
        exact ⟨rfl, le_refl _⟩
      | cons arg' args =>
        rw [layOut_of_go hstop, String.length_append, String.length_append, String.length_append]
        exact ⟨ih.1, by omega⟩

/-- The spaces make a difference where two arguments are printed. -/
theorem ended_squeezed_iff (arg : String) (args : List String) (b : Bool) :
    ended (squeezed (arg :: args)) b = ended (layOut true (arg :: args)) b ↔
      args = [] ∨ (transformEscapes false arg).2 = true := by
  cases hstop : (transformEscapes false arg).2 with
  | true =>
    rw [squeezed_of_stop hstop, layOut_of_stop hstop]
    exact iff_of_true rfl (.inr rfl)
  | false =>
    cases args with
    | nil =>
      refine iff_of_true ?_ (.inl rfl)
      rw [squeezed_of_go hstop, layOut_singleton, squeezed, String.append_empty]
      exact congrArg (ended · b) (Prod.ext rfl hstop.symm)
    | cons arg' args =>
      refine iff_of_false (fun heq => ?_) (by simp)
      obtain ⟨hstops, hlen⟩ := squeezed_layOut (arg' :: args)
      have hlength := congrArg String.length heq
      rw [squeezed_of_go hstop, layOut_of_go hstop, ended_length, ended_length, hstops,
        String.length_append, String.length_append, String.length_append] at hlength
      have hspace : " ".length = 1 := rfl
      simp only at hlength
      omega

/-- The code goes on to an argument behind some that should be printed. -/
theorem ended_ne_of_skipped {before : String} (hbefore : '\\' ∉ before.toList)
    (hne : before ≠ "") (args : List String) {e e' b b' : Bool} (hb : b = true → b' = true) :
    ended (if e' then squeezed args else (" ".intercalate args, false)) b' ≠
      ended (before ++ (layOut e args).1, (layOut e args).2) b := by
  intro heq
  have hpos : 0 < before.length := by
    rw [Nat.pos_iff_ne_zero]
    exact fun h => hne (String.length_eq_zero_iff.mp h)
  have hend : ∀ stop : Bool, (if (stop || b') = true then 0 else 1) ≤
      if (stop || b) = true then 0 else 1 := by
    intro stop
    cases stop <;> cases b <;> cases b' <;> simp_all
  -- The skipped text makes the output longer, whatever the options do with the rest.
  have hlength := congrArg String.length heq
  rw [ended_length, ended_length, String.length_append] at hlength
  cases e' with
  | true =>
    obtain ⟨hstops, hlen⟩ := squeezed_layOut args
    have hplain := squeezed_length args
    cases e with
    | true =>
      have hend := hend (layOut true args).2
      simp only [if_true, hstops] at hlength
      omega
    | false =>
      have hend := hend false
      rw [layOut_false] at hlength
      have hstop : (if ((squeezed args).2 || b') = true then 0 else 1) ≤
          if (false || b') = true then 0 else 1 := by
        cases (squeezed args).2 <;> cases b' <;> simp
      simp only [if_true] at hlength
      omega
  | false =>
    have hend := hend false
    simp only [Bool.false_eq_true, if_false] at hlength
    cases e with
    | false =>
      rw [layOut_false] at hlength
      simp only at hlength
      omega
    | true =>
      by_cases hmem : '\\' ∈ (" ".intercalate args).toList
      · -- the first backslash would be at two places
        have hends : ∀ (out : String × Bool) (b : Bool), ∃ nl,
            (ended out b).toList = out.1.toList ++ nl := by
          intro out b
          unfold ended
          split
          · exact ⟨[], (List.append_nil _).symm⟩
          · exact ⟨_, String.toList_append ..⟩
        obtain ⟨nl, hcode⟩ := hends (" ".intercalate args, false) b'
        obtain ⟨nl', hspec⟩ := hends (before ++ (layOut true args).1, (layOut true args).2) b
        obtain ⟨rest, hrest⟩ := takeWhile_prefix_layOut args
        have hfirst := congrArg (fun text : String => (text.toList.takeWhile (· != '\\')).length) heq
        simp only [Bool.false_eq_true, if_false] at hfirst
        rw [hcode, hspec, takeWhile_backslash hmem, String.toList_append, ← hrest,
          List.append_assoc, List.append_assoc, takeWhile_noBackslash hbefore,
          takeWhile_noBackslash, List.length_append, List.length_append,
          String.length_toList] at hfirst
        · omega
        · exact fun h => absurd (List.mem_takeWhile_imp h) (by decide)
      · rw [layOut_of_noBackslash hmem] at hlength
        simp only at hlength
        omega

end Layout

/-! ## Where the code prints what it should -/

/-- There are no arguments; or there are options only, and `n` is among them, at
most with an empty argument after them; or there is another argument, and either
escapes are not processed or it is the only one that is printed. -/
def EchoFaithful (args : List String) : Prop :=
  args = [] ∨
    match args.dropWhile isEchoOption with
    | [] => suppressesNl (args.takeWhile isEchoOption) = true
    | arg :: rest =>
      if arg = "" then rest = [] ∧ suppressesNl (args.takeWhile isEchoOption) = true
      else lastEscapeLetter (args.takeWhile isEchoOption) = some 'e' →
        rest = [] ∨ (transformEscapes false arg).2 = true

/-- At most one argument is printed, and not for want of any, or its options have
an `e` or `E` of their own. -/
def EscapesIdle (args : List String) : Prop :=
  match args.dropWhile isSkipped with
  | [] => args ≠ []
  | _ :: rest => rest = [] ∨ (lastEscapeLetter (args.takeWhile isSkipped)).isSome = true

theorem noBackslash_of_isSkipped {arg : String} (h : isSkipped arg = true) :
    '\\' ∉ arg.toList := by
  unfold isSkipped isEchoOption at h
  rw [Bool.or_eq_true, String.isEmpty_iff] at h
  rcases h with rfl | h
  · exact List.not_mem_nil
  · split at h
    · rename_i c cs harg
      rw [harg]
      intro hmem
      rcases List.mem_cons.mp hmem with hdash | hmem
      · exact absurd hdash (by decide)
      · exact absurd (List.all_eq_true.mp h _ hmem) (by decide)
    · cases h

theorem isSkipped_of_isEchoOption {arg : String} (h : isEchoOption arg = true) :
    isSkipped arg = true := by
  rw [isSkipped, h, Bool.or_true]

theorem isEchoOption_of_isSkipped {arg : String} (h : isSkipped arg = true) (hne : arg ≠ "") :
    isEchoOption arg = true := by
  rw [isSkipped, Bool.or_eq_true, String.isEmpty_iff] at h
  exact h.resolve_left hne

/-- The options come first among the arguments that are taken for options. -/
theorem skipped_eq (args : List String) :
    args.takeWhile isSkipped = args.takeWhile isEchoOption ++
        (args.dropWhile isEchoOption).takeWhile isSkipped ∧
      args.dropWhile isSkipped = (args.dropWhile isEchoOption).dropWhile isSkipped := by
  induction args with
  | nil => exact ⟨rfl, rfl⟩
  | cons arg args ih =>
    by_cases harg : isEchoOption arg = true
    · have hskip := isSkipped_of_isEchoOption harg
      rw [List.takeWhile_cons_of_pos harg, List.dropWhile_cons_of_pos harg,
        List.takeWhile_cons_of_pos hskip, List.dropWhile_cons_of_pos hskip, ih.1, ih.2]
      exact ⟨rfl, rfl⟩
    · rw [List.takeWhile_cons_of_neg harg, List.dropWhile_cons_of_neg harg]
      exact ⟨rfl, rfl⟩

/-- The options of the code, before any argument. -/
theorem after_default (options : List String) :
    (EchoOptions.after {} options).suppressNl = suppressesNl options ∧
      (EchoOptions.after {} options).enableEscapes = (lastEscapeLetter options == some 'e') := by
  refine ⟨Bool.false_or _, ?_⟩
  show ((lastEscapeLetter options).map (· == 'e')).getD false = _
  cases lastEscapeLetter options with
  | none => rfl
  | some c => rfl

theorem suppressesNl_append (options options' : List String) :
    suppressesNl (options ++ options') = (suppressesNl options || suppressesNl options') := by
  rw [suppressesNl, List.flatMap_append, List.contains_append]
  rfl

theorem processArgument_of_noBackslash {escapes : Bool} {arg : String}
    (h : '\\' ∉ arg.toList) : processArgument escapes arg = (arg, false) := by
  cases escapes with
  | true => exact transformEscapes_of_noBackslash h
  | false => rfl

theorem noBackslash_intercalate {args : List String} (h : ∀ arg ∈ args, '\\' ∉ arg.toList) :
    '\\' ∉ (" ".intercalate args).toList := by
  induction args with
  | nil => exact List.not_mem_nil
  | cons arg args ih =>
    have harg := h arg List.mem_cons_self
    have hrest := ih fun x hx => h x (List.mem_cons_of_mem _ hx)
    cases args with
    | nil => rwa [String.intercalate_singleton]
    | cons arg' args =>
      rw [intercalate_cons_cons, String.toList_append, String.toList_append]
      intro hmem
      rcases List.mem_append.mp hmem with hmem | hmem
      · rcases List.mem_append.mp hmem with hmem | hmem
        · exact harg hmem
        · exact absurd hmem (by decide)
      · exact hrest hmem

theorem ended_layOut_empty_iff (rest : List String) (e b : Bool) :
    "" = ended (layOut e ("" :: rest)) b ↔ rest = [] ∧ b = true := by
  have hempty : processArgument e "" = ("", false) :=
    processArgument_of_noBackslash List.not_mem_nil
  cases rest with
  | nil =>
    rw [layOut, hempty]
    cases b <;> decide
  | cons arg rest =>
    refine iff_of_false (fun heq => ?_) fun h => List.cons_ne_nil _ _ h.1
    have hlength := congrArg String.length heq
    rw [layOut, hempty, ended_length] at hlength
    simp only [Bool.false_eq_true, if_false, String.length_append] at hlength
    have hspace : " ".length = 1 := rfl
    have hnone : "".length = 0 := rfl
    omega

/-- The options are followed by an empty argument. -/
theorem echoWritten_empty_iff {args rest : List String}
    (h : args.dropWhile isEchoOption = "" :: rest) :
    echoWritten args = echoText args ↔
      rest = [] ∧ suppressesNl (args.takeWhile isEchoOption) = true := by
  obtain ⟨htake, hdrop⟩ := skipped_eq args
  have hargs : args ≠ [] := by
    rintro rfl
    cases h
  have hempty : isSkipped "" = true := by decide
  rw [echoWritten, if_neg hargs, htake, hdrop, h, List.takeWhile_cons_of_pos hempty,
    List.dropWhile_cons_of_pos hempty, echoText, h]
  by_cases hnone : rest.dropWhile isSkipped = []
  · rw [if_pos hnone]
    exact ended_layOut_empty_iff rest _ _
  · rw [if_neg hnone]
    refine iff_of_false ?_ fun hrest => hnone (by rw [hrest.1]; rfl)
    have hskipped : ∀ arg ∈ "" :: rest.takeWhile isSkipped, '\\' ∉ arg.toList := by
      intro arg harg
      rcases List.mem_cons.mp harg with rfl | harg
      · exact List.not_mem_nil
      · exact noBackslash_of_isSkipped (List.mem_takeWhile_imp harg)
    have hsplit : "" :: rest = ("" :: rest.takeWhile isSkipped) ++ rest.dropWhile isSkipped := by
      rw [List.cons_append, List.takeWhile_append_dropWhile]
    rw [hsplit, layOut_append (fun arg harg => processArgument_of_noBackslash (hskipped arg harg))
      (List.cons_ne_nil _ _) hnone]
    refine ended_ne_of_skipped ?_ (fun hnil => ?_) _ fun hb => ?_
    · rw [String.toList_append]
      exact fun hmem => (List.mem_append.mp hmem).elim (noBackslash_intercalate hskipped)
        (by decide)
    · have hlength := congrArg String.length hnil
      rw [String.length_append] at hlength
      exact absurd hlength (Nat.succ_ne_zero _)
    · rw [(after_default _).1, suppressesNl_append, hb, Bool.true_or]

/-- The code prints the text if and only if the condition holds. -/
theorem echoWritten_eq_iff (args : List String) :
    echoWritten args = echoText args ↔ EchoFaithful args := by
  cases hargs : args with
  | nil => exact iff_of_true rfl (.inl rfl)
  | cons x xs =>
    rw [← hargs]
    have hne : args ≠ [] := by
      rw [hargs]
      exact List.cons_ne_nil _ _
    unfold EchoFaithful
    rw [or_iff_right hne]
    cases hrest : args.dropWhile isEchoOption with
    | nil =>
      rw [echoWritten, if_neg hne, (skipped_eq args).2, hrest, List.dropWhile_nil, if_pos rfl,
        echoText, hrest]
      cases suppressesNl (args.takeWhile isEchoOption) with
      | true => exact iff_of_true rfl rfl
      | false =>
        refine iff_of_false ?_ Bool.false_ne_true
        show "" ≠ "" ++ "\n"
        decide
    | cons arg rest =>
      by_cases harg : arg = ""
      · subst harg
        rw [echoWritten_empty_iff hrest]
        simp only [if_true]
      · have hhead := List.head?_dropWhile_not isEchoOption args
        rw [hrest] at hhead
        have hskip : ¬isSkipped arg = true := fun hskip =>
          Bool.false_ne_true (hhead.symm.trans (isEchoOption_of_isSkipped hskip harg))
        obtain ⟨htake, hdrop⟩ := skipped_eq args
        rw [hrest, List.takeWhile_cons_of_neg hskip, List.append_nil] at htake
        rw [hrest, List.dropWhile_cons_of_neg hskip] at hdrop
        simp only [if_neg harg]
        rw [echoWritten, if_neg hne, hdrop, if_neg (List.cons_ne_nil _ _), htake,
          EchoOptions.write, (after_default _).1, (after_default _).2, echoText, hrest]
        by_cases he : lastEscapeLetter (args.takeWhile isEchoOption) = some 'e'
        · rw [beq_iff_eq.mpr he, if_pos rfl, ended_squeezed_iff]
          exact ⟨fun h _ => h, fun h => h he⟩
        · rw [beq_eq_false_iff_ne.mpr he, if_neg Bool.false_ne_true, layOut_false]
          exact iff_of_true rfl fun heq => absurd heq he

/-- `-e` before arguments without a backslash. -/
theorem echoWritten_escapes_iff {args : List String} (h : ∀ arg ∈ args, '\\' ∉ arg.toList) :
    echoWritten ("-e" :: args) = echoWritten args ↔ EscapesIdle args := by
  have hoption : isSkipped "-e" = true := by decide
  have hfirst : EchoOptions.after {} ["-e"] = { enableEscapes := true } := rfl
  unfold EscapesIdle
  rw [echoWritten, if_neg (List.cons_ne_nil _ _), List.dropWhile_cons_of_pos hoption,
    List.takeWhile_cons_of_pos hoption, EchoOptions.after_cons, hfirst, echoWritten]
  cases hrest : args.dropWhile isSkipped with
  | nil =>
    rw [if_pos rfl, if_pos rfl]
    by_cases hargs : args = []
    · rw [if_pos hargs]
      exact iff_of_false (by decide) fun hne => hne hargs
    · rw [if_neg hargs]
      exact iff_of_true rfl hargs
  | cons arg rest =>
    have hargs : args ≠ [] := by
      rintro rfl
      cases hrest
    rw [if_neg (List.cons_ne_nil _ _), if_neg hargs, if_neg (List.cons_ne_nil _ _)]
    have hsub : ∀ x ∈ arg :: rest, '\\' ∉ x.toList := fun x hx =>
      h x ((List.dropWhile_sublist _).subset (hrest ▸ hx))
    cases hletter : lastEscapeLetter (args.takeWhile isSkipped) with
    | some c =>
      refine iff_of_true ?_ (.inr rfl)
      rw [EchoOptions.write, EchoOptions.write, EchoOptions.after, EchoOptions.after, hletter]
      rfl
    | none =>
      have harg := transformEscapes_of_noBackslash (hsub arg List.mem_cons_self)
      have hplain := layOut_of_noBackslash (noBackslash_intercalate hsub)
      rw [EchoOptions.write, EchoOptions.write, EchoOptions.after, EchoOptions.after, hletter]
      show ended (squeezed (arg :: rest)) _ = ended (" ".intercalate (arg :: rest), false) _ ↔ _
      rw [← hplain, ended_squeezed_iff, harg]
      exact Iff.rfl

theorem writeTo_inj {s : Interpreter} {k : Nat} {a b : String} (hk : k < s.outputs.length) :
    s.writeTo k a = s.writeTo k b ↔ a = b := by
  refine ⟨fun h => ?_, fun h => congrArg (s.writeTo k) h⟩
  have hget := congrArg (fun t : Interpreter => t.outputs[k]?) h
  simp only [Interpreter.writeTo, List.getElem?_modify_eq, List.getElem?_eq_getElem hk] at hget
  exact String.append_right_inj _ |>.mp (Option.some.inj hget)

/-- For every list of arguments, in every state that has an output; and what it says
of `-e`. -/
theorem printsText_iff (host : Host) (n d : Nat) (args : List String) (s : Interpreter)
    (hout : s.streams.out < s.outputs.length) :
    (runShell host n d (Shell.echoBuiltin args) s =
        some (.ok 0, s.writeTo s.streams.out (echoText args)) ↔ EchoFaithful args) ∧
      ((∀ arg ∈ args, '\\' ∉ arg.toList) →
        (runShell host n d (Shell.echoBuiltin ("-e" :: args)) s =
          runShell host n d (Shell.echoBuiltin args) s ↔ EscapesIdle args)) := by
  have hrun : ∀ text text' : String,
      (some (.ok 0, s.writeTo s.streams.out text) : Option (Except Exn Int × Interpreter)) =
        some (.ok 0, s.writeTo s.streams.out text') ↔ text = text' := by
    intro text text'
    rw [Option.some_inj, Prod.mk.injEq, writeTo_inj hout]
    exact and_iff_right rfl
  constructor
  · rw [run_echoBuiltin, hrun]
    exact echoWritten_eq_iff args
  · intro h
    rw [run_echoBuiltin, run_echoBuiltin, hrun]
    exact echoWritten_escapes_iff h

/-- `echo -n x`. -/
theorem printsText_suppressed :
    (runShell (.ofTexts [] []) 0 0 (Shell.echoBuiltin ["-n", "x"]) (.initial []) =
        some (.ok 0, (Interpreter.initial []).writeTo 0 (echoText ["-n", "x"])) ↔
      EchoFaithful ["-n", "x"]) ∧
    ((∀ arg ∈ ["-n", "x"], '\\' ∉ arg.toList) →
      (runShell (.ofTexts [] []) 0 0 (Shell.echoBuiltin ["-e", "-n", "x"]) (.initial []) =
        runShell (.ofTexts [] []) 0 0 (Shell.echoBuiltin ["-n", "x"]) (.initial []) ↔
      EscapesIdle ["-n", "x"])) :=
  printsText_iff (.ofTexts [] []) 0 0 ["-n", "x"] (.initial []) (by decide)

/-- `echo -e a b` prints `ab`. -/
theorem not_printsText_escapes :
    runShell (.ofTexts [] []) 0 0 (Shell.echoBuiltin ["-e", "a", "b"]) (.initial []) =
        some (.ok 0, (Interpreter.initial []).writeTo 0 "ab\n") ∧
      echoText ["-e", "a", "b"] = "a b\n" ∧
      ¬∀ (host : Host) (n d : Nat) (args : List String) (s : Interpreter),
        runShell host n d (Shell.echoBuiltin args) s =
          some (.ok 0, s.writeTo s.streams.out (echoText args)) := by
  have hcode : echoWritten ["-e", "a", "b"] = "ab\n" := by decide +kernel
  have hspec : echoText ["-e", "a", "b"] = "a b\n" := by decide +kernel
  refine ⟨?_, hspec, fun h => ?_⟩
  · rw [run_echoBuiltin, hcode]
    rfl
  · have hrun := h (.ofTexts [] []) 0 0 ["-e", "a", "b"] (.initial [])
    rw [run_echoBuiltin, Option.some_inj, Prod.mk.injEq, writeTo_inj (by decide), hcode,
      hspec] at hrun
    exact absurd hrun.2 (by decide)

end Libbash
