import Libbash.Arith.Elements
import Libbash.Interp.Echo
import Libbash.Interp.StoreSteps
import Libbash.Lib.Rounds

/-!
# `printf`

`exec` feeds the arguments to a `boost::format` one after the other. When it has no place
left it prints what it has, parses the format again and feeds the same argument again,
and what is thrown there leaves it. `printf_recycles`: what is printed or stored is the
format once for every portion of the arguments, unless the format has no place for any.
-/

namespace Libbash

open Lib Lib.Comp Lib.Program

/-! ## Formats -/

/-- What a format is made of. -/
inductive FormatPart where
  | char (c : Char) (notMark : c ≠ '%')
  /-- `%%` -/
  | percent
  /-- `%s` -/
  | placeholder

def FormatPart.source : FormatPart → List Char
  | char c _ => [c]
  | percent => ['%', '%']
  | placeholder => ['%', 's']

/-- The text that the parts are read from. -/
def formatText (parts : List FormatPart) : String := .ofList (parts.flatMap FormatPart.source)

/-- How many arguments a format has a place for. -/
def placeholders : List FormatPart → Nat
  | [] => 0
  | .placeholder :: parts => placeholders parts + 1
  | _ :: parts => placeholders parts

/-- The text with the arguments in their places; a missing one is empty. -/
def instantiate : List FormatPart → List String → String
  | [], _ => ""
  | .char c _ :: parts, args => .singleton c ++ instantiate parts args
  | .percent :: parts, args => "%" ++ instantiate parts args
  | .placeholder :: parts, args => args.headD "" ++ instantiate parts args.tail

/-! ## `boost::format` -/

/-- What `boost::format` throws. -/
inductive FormatException where
  | tooManyArgs
  | other

/-- `boost::format` with all exceptions but `too_few_args`. -/
structure BoostFormat where
  Formatter : Type
  /-- The constructor, and `parse`, which clears what has been fed. -/
  parse : String → Except FormatException Formatter
  /-- `%` -/
  feed : Formatter → String → Except FormatException Formatter
  /-- `<<` -/
  print : Formatter → String

namespace BoostFormat

variable (b : BoostFormat)

/-- The loop of `exec` over the arguments. -/
def feedAll (formatString : String) :
    b.Formatter → String → List String → Except FormatException String
  | formatter, output, [] => .ok (output ++ b.print formatter)
  | formatter, output, arg :: args =>
    match b.feed formatter arg with
    | .ok formatter => feedAll formatString formatter output args
    | .error .tooManyArgs => do
      -- the handler feeds again, and nothing catches what it throws
      let again ← b.parse formatString
      let again ← b.feed again arg
      feedAll formatString again (output ++ b.print formatter) args
    | .error .other => .error .other

/-- What `printf` makes of its format, without its escapes, and its arguments. -/
def output (formatString : String) (args : List String) : Except FormatException String := do
  let formatter ← b.parse formatString
  b.feedAll formatString formatter "" args

/-- A formatter stands for the parts of its format and what has been fed to it. -/
structure Formats (Stands : b.Formatter → List FormatPart → List String → Prop) : Prop where
  parse : ∀ parts, ∃ f, b.parse (formatText parts) = .ok f ∧ Stands f parts []
  feed : ∀ {f parts fed} (arg : String), Stands f parts fed → fed.length < placeholders parts →
    ∃ f', b.feed f arg = .ok f' ∧ Stands f' parts (fed ++ [arg])
  feed_beyond : ∀ {f parts fed} (arg : String), Stands f parts fed →
    placeholders parts ≤ fed.length → b.feed f arg = .error .tooManyArgs
  print : ∀ {f parts fed}, Stands f parts fed → b.print f = instantiate parts fed

end BoostFormat

/-- The host whose `printf` runs the loop over the formatter. -/
def Host.formatting (host : Host) (b : BoostFormat) : Host :=
  { host with
    format := fun formatString args =>
      (b.output formatString args).mapError fun _ => .formatError }

theorem formatting_format (host : Host) (b : BoostFormat) (formatString : String)
    (args : List String) : (host.formatting b).format formatString args =
      (b.output formatString args).mapError fun _ => .formatError := rfl

/-! ## Rounds of a format -/

/-- The format once for every portion of the arguments. -/
def recycled (parts : List FormatPart) (args : List String) : String :=
  .join ((portions (placeholders parts) args).map (instantiate parts))

section Rounds

variable {b : BoostFormat} {Stands : b.Formatter → List FormatPart → List String → Prop}
  {parts : List FormatPart} {args : List String}

theorem BoostFormat.feedAll_next (b : BoostFormat) {formatString output arg : String}
    {f f' : b.Formatter} (hfeed : b.feed f arg = .ok f') :
    b.feedAll formatString f output (arg :: args) = b.feedAll formatString f' output args := by
  rw [BoostFormat.feedAll, hfeed]

/-- A round is over, and the argument starts the next one. -/
theorem BoostFormat.feedAll_beyond (b : BoostFormat) {formatString output arg : String}
    {f f₁ f₂ : b.Formatter} (hbeyond : b.feed f arg = .error .tooManyArgs)
    (hparse : b.parse formatString = .ok f₁) (hfeed : b.feed f₁ arg = .ok f₂) :
    b.feedAll formatString f output (arg :: args) =
      b.feedAll formatString f₂ (output ++ b.print f) args := by
  rw [BoostFormat.feedAll, hbeyond, hparse]
  show (b.feed f₁ arg >>= fun again => _) = _
  rw [hfeed]
  rfl

/-- The loop goes on with a formatter that has taken part of a round. -/
theorem BoostFormat.Formats.feedAll_eq (h : b.Formats Stands) (hplaces : 0 < placeholders parts)
    {f : b.Formatter} {fed : List String} (hf : Stands f parts fed)
    (hfed : fed.length ≤ placeholders parts) (output : String) (args : List String) :
    b.feedAll (formatText parts) f output args = .ok (output ++ recycled parts (fed ++ args)) := by
  induction args generalizing f fed output with
  | nil =>
    unfold recycled
    rw [BoostFormat.feedAll, h.print hf, List.append_nil, portions_of_le hplaces hfed]
    simp
  | cons arg args ih =>
    rcases Nat.lt_or_eq_of_le hfed with hroom | hfull
    · obtain ⟨f', hfeed, hf'⟩ := h.feed arg hf hroom
      have hrest := ih hf' (by rw [List.length_append, List.length_singleton]; exact hroom) output
      rw [b.feedAll_next hfeed, hrest, List.append_assoc, List.singleton_append]
    · obtain ⟨f₁, hparse, hf₁⟩ := h.parse parts
      obtain ⟨f₂, hfeed, hf₂⟩ := h.feed arg hf₁ hplaces
      have hrest := ih hf₂ hplaces (output ++ b.print f)
      have hbeyond := h.feed_beyond arg hf (Nat.le_of_eq hfull.symm)
      rw [b.feedAll_beyond hbeyond hparse hfeed, hrest]
      unfold recycled
      rw [portions_append hplaces hfull (List.cons_ne_nil arg args), List.map_cons,
        String.join_cons, ← h.print hf, String.append_assoc]
      rfl

theorem BoostFormat.Formats.output_eq (h : b.Formats Stands)
    (hplaced : args = [] ∨ 0 < placeholders parts) :
    b.output (formatText parts) args = .ok (recycled parts args) := by
  obtain ⟨f, hparse, hf⟩ := h.parse parts
  have hout : b.output (formatText parts) args = b.feedAll (formatText parts) f "" args := by
    unfold BoostFormat.output
    rw [hparse]
    rfl
  rw [hout]
  rcases Nat.eq_zero_or_pos (placeholders parts) with hzero | hpos
  · obtain rfl := hplaced.resolve_right (by omega)
    unfold recycled
    rw [BoostFormat.feedAll, h.print hf, hzero, portions_zero]
    simp
  · have hall := h.feedAll_eq hpos hf (Nat.zero_le _) "" args
    simpa using hall

/-- Without a place the second feeding throws what the first one has thrown. -/
theorem BoostFormat.Formats.output_error (h : b.Formats Stands) (hnone : placeholders parts = 0)
    (hargs : args ≠ []) : b.output (formatText parts) args = .error .tooManyArgs := by
  obtain ⟨f, hparse, hf⟩ := h.parse parts
  obtain ⟨arg, args, rfl⟩ := List.exists_cons_of_ne_nil hargs
  have hfeed := h.feed_beyond arg hf (by simp [hnone])
  unfold BoostFormat.output
  rw [hparse]
  show b.feedAll (formatText parts) f "" (arg :: args) = _
  rw [BoostFormat.feedAll, hfeed, hparse]
  show (b.feed f arg >>= fun again => _) = _
  rw [hfeed]
  rfl

end Rounds

/-! ## Commands -/

/-- A command line of `printf`. -/
inductive PrintfCall where
  | print (format : String) (args : List String) (notStore : format ≠ "-v")
  | store (name format : String) (args : List String)

namespace PrintfCall

def arguments : PrintfCall → List String
  | print format args _ => format :: args
  | store name format args => "-v" :: name :: format :: args

def format : PrintfCall → String
  | print format _ _ => format
  | store _ format _ => format

def args : PrintfCall → List String
  | print _ args _ => args
  | store _ _ args => args

/-- The first argument is taken for an option that `printf` does not have. -/
def isOption : PrintfCall → Bool
  | print format _ _ => format.toList.head? == some '-'
  | store .. => false

/-- Print the text or store it. -/
def deliver (text : String) : PrintfCall → Shell Int
  | print .. => do
    perform (.write text)
    pure 0
  | store name _ _ => do
    perform (.setValue name (.str text) 0)
    pure 0

/-- No `\c` stops the escapes of the format, the format is not taken for an option, and it
has a place for the arguments when there are any. -/
structure Accepted (call : PrintfCall) (parts : List FormatPart) : Prop where
  notStopped : (transformEscapes false call.format).2 = false
  notOption : call.isOption = false
  placed : call.args = [] ∨ 0 < placeholders parts

end PrintfCall

section Run

variable {host : Host} {n d : Nat} {s s' : Interpreter}

/-- `set_value` throws no exception but the one for a readonly variable. -/
theorem setValue_throws {name text : String} {e : Exn}
    (h : runShell host n d (perform (.setValue name (.str text) 0)) s = some (.error e, s')) :
    ∃ what, e = .error .readonly what := by
  rw [runShell_perform, performOp, reads_bind_apply] at h
  cases hv : s.store.resolveVariable name with
  | none =>
    dsimp only [id] at h
    rw [writing_of_ok (Arith.setValue_define hv (.str text) 0)] at h
    cases h
  | some v =>
    have hset := Arith.setValue_run hv (.str text) 0
    dsimp only [id] at h
    cases hro : v.readonly with
    | true =>
      rw [hro, if_pos rfl] at hset
      rw [writing_of_error hset] at h
      exact ⟨_, (Except.error.inj (Prod.mk.inj (Option.some.inj h)).1).symm⟩
    | false =>
      rw [hro, if_neg Bool.false_ne_true] at hset
      rw [writing_of_ok hset] at h
      cases h

theorem PrintfCall.deliver_throws {call : PrintfCall} {text : String} {e : Exn}
    (h : runShell host n d (call.deliver text) s = some (.error e, s')) :
    ∃ what, e = .error .readonly what := by
  cases call with
  | print format args hv => cases h
  | store name format args =>
    rw [PrintfCall.deliver, runShell_bind] at h
    rcases bind_cases h with ⟨⟨⟩, s₁, -, hpure⟩ | ⟨e', hset, heq⟩
    · cases hpure
    · cases heq
      exact setValue_throws hset

/-- `printf` makes its text and then delivers it. -/
theorem run_printf (call : PrintfCall) (hoption : call.isOption = false) :
    runShell host n d (Shell.printfBuiltin host call.arguments) =
      runShell host n d (Shell.formatted host call.format call.args) >>= fun text =>
        runShell host n d (call.deliver text) := by
  cases call with
  | print format args hv =>
    have hsign : format.toList.head? ≠ some '-' := by simpa [PrintfCall.isOption] using hoption
    unfold PrintfCall.arguments Shell.printfBuiltin
    dsimp only
    rw [if_neg hv]
    simp only [if_neg hsign]
    rfl
  | store name format args =>
    rw [PrintfCall.arguments, Shell.printfBuiltin, if_pos rfl]
    rfl

/-- A format that is taken for an option. -/
theorem run_printf_option {call : PrintfCall} (hoption : call.isOption = true) {text : String}
    (h : runShell host n d (Shell.formatted host call.format call.args) s = some (.ok text, s)) :
    runShell host n d (Shell.printfBuiltin host call.arguments) s =
      some (.error (.error .illegalArgument ("printf: invalid option: " ++ call.format)), s) := by
  cases call with
  | print format args hv =>
    have hsign : format.toList.head? = some '-' := by simpa [PrintfCall.isOption] using hoption
    unfold PrintfCall.arguments Shell.printfBuiltin
    dsimp only
    rw [if_neg hv]
    simp only [if_pos hsign]
    rw [runShell_bind]
    exact bind_of_ok h _
  | store name format args => cases hoption

/-- What makes the text of `printf` fail. -/
theorem printf_throws (call : PrintfCall) {e : Exn}
    (h : runShell host n d (Shell.formatted host call.format call.args) s = some (.error e, s)) :
    runShell host n d (Shell.printfBuiltin host call.arguments) s = some (.error e, s) := by
  cases call with
  | print format args hv =>
    unfold PrintfCall.arguments Shell.printfBuiltin
    dsimp only
    rw [if_neg hv, runShell_bind]
    exact bind_of_error h _
  | store name format args =>
    rw [PrintfCall.arguments, Shell.printfBuiltin, if_pos rfl, runShell_bind]
    exact bind_of_error h _

theorem run_formatted (format : String) (args : List String)
    (hgoes : (transformEscapes false format).2 = false) {text : String}
    (h : host.format (transformEscapes false format).1 args = .ok text) :
    runShell host n d (Shell.formatted host format args) s = some (.ok text, s) := by
  unfold Shell.formatted Shell.escaped
  rw [hgoes, if_neg Bool.false_ne_true, runShell_bind, runShell_pure, pure_bind, h]
  rfl

theorem run_formatted_stopped (format : String) (args : List String)
    (hstop : (transformEscapes false format).2 = true) :
    runShell host n d (Shell.formatted host format args) s = some (.error .suppressOutput, s) := by
  unfold Shell.formatted Shell.escaped
  rw [hstop, if_pos rfl]
  rfl

theorem run_formatted_error (format : String) (args : List String)
    (hgoes : (transformEscapes false format).2 = false) {e : Exn}
    (h : host.format (transformEscapes false format).1 args = .error e) :
    runShell host n d (Shell.formatted host format args) s = some (.error e, s) := by
  unfold Shell.formatted Shell.escaped
  rw [hgoes, if_neg Bool.false_ne_true, runShell_bind, runShell_pure, pure_bind, h]
  rfl

end Run

/-! ## A formatter -/

/-- The parts of a format that has no other directives. -/
def readFormat : List Char → Option (List FormatPart)
  | [] => some []
  | c :: cs =>
    if h : c = '%' then
      match cs with
      | '%' :: cs => (readFormat cs).map (.percent :: ·)
      | 's' :: cs => (readFormat cs).map (.placeholder :: ·)
      | _ => none
    else (readFormat cs).map (.char c h :: ·)

theorem readFormat_source (parts : List FormatPart) :
    readFormat (parts.flatMap FormatPart.source) = some parts := by
  induction parts with
  | nil => rfl
  | cons part parts ih =>
    rw [List.flatMap_cons]
    cases part with
    | char c h =>
      show readFormat (c :: parts.flatMap FormatPart.source) = _
      rw [readFormat.eq_def]
      dsimp only
      rw [dif_neg h, ih]
      rfl
    | percent =>
      show (readFormat (parts.flatMap FormatPart.source)).map (.percent :: ·) = _
      rw [ih]
      rfl
    | placeholder =>
      show (readFormat (parts.flatMap FormatPart.source)).map (.placeholder :: ·) = _
      rw [ih]
      rfl

/-- A formatter that keeps its parts and what it has been fed. -/
def BoostFormat.ofParts : BoostFormat where
  Formatter := List FormatPart × List String
  parse text :=
    match readFormat text.toList with
    | some parts => .ok (parts, [])
    | none => .error .other
  feed f arg :=
    if f.2.length < placeholders f.1 then .ok (f.1, f.2 ++ [arg]) else .error .tooManyArgs
  print f := instantiate f.1 f.2

theorem BoostFormat.ofParts_formats :
    BoostFormat.ofParts.Formats fun f parts fed => f = (parts, fed) where
  parse parts := by
    refine ⟨(parts, []), ?_, rfl⟩
    show (match readFormat (formatText parts).toList with
      | some parts => Except.ok (parts, [])
      | none => Except.error FormatException.other) = _
    rw [formatText, String.toList_ofList, readFormat_source]
    rfl
  feed := by
    rintro f parts fed arg rfl hroom
    exact ⟨(parts, fed ++ [arg]), if_pos hroom, rfl⟩
  feed_beyond := by
    rintro f parts fed arg rfl hfull
    exact if_neg (Nat.not_lt.mpr hfull)
  print := by
    rintro f parts fed rfl
    rfl

/-! ## Recycling -/

/-- The portions take every argument once and in order, and there are as many as the
rounds; `printf` does what printing or storing the recycled format does just when it
accepts the command. -/
theorem printf_recycles (host : Host) (b : BoostFormat)
    (Stands : b.Formatter → List FormatPart → List String → Prop) (h : b.Formats Stands)
    (n d : Nat) (s : Interpreter) (call : PrintfCall) (parts : List FormatPart)
    (htext : (transformEscapes false call.format).1 = formatText parts) :
    (0 < placeholders parts →
      (portions (placeholders parts) call.args).flatten = call.args) ∧
    (portions (placeholders parts) call.args).length =
      rounds (placeholders parts) call.args.length ∧
    (runShell (host.formatting b) n d
          (Shell.printfBuiltin (host.formatting b) call.arguments) s =
        runShell (host.formatting b) n d (call.deliver (recycled parts call.args)) s ↔
      call.Accepted parts) := by
  have hformatted (hgoes : (transformEscapes false call.format).2 = false)
      (hplaced : call.args = [] ∨ 0 < placeholders parts) :
      runShell (host.formatting b) n d
          (Shell.formatted (host.formatting b) call.format call.args) s =
        some (.ok (recycled parts call.args), s) := by
    refine run_formatted _ _ hgoes ?_
    rw [formatting_format, htext, h.output_eq hplaced]
    rfl
  refine ⟨fun hpos => flatten_portions hpos _, length_portions _ _, fun hrun => ?_, fun hok => ?_⟩
  · -- what is thrown is never what delivering a text throws
    have hnever (e : Exn) (hkind : ∀ what, e ≠ .error .readonly what) :
        runShell (host.formatting b) n d
          (Shell.formatted (host.formatting b) call.format call.args) s ≠ some (.error e, s) := by
      intro hthrow
      rw [printf_throws call hthrow] at hrun
      obtain ⟨what, hwhat⟩ := PrintfCall.deliver_throws hrun.symm
      exact hkind what hwhat
    have hgoes : (transformEscapes false call.format).2 = false := by
      cases hstop : (transformEscapes false call.format).2 with
      | false => rfl
      | true => exact absurd (run_formatted_stopped _ _ hstop) (hnever _ nofun)
    have hplaced : call.args = [] ∨ 0 < placeholders parts := by
      by_contra hnone
      rw [not_or] at hnone
      have herror : (host.formatting b).format (transformEscapes false call.format).1 call.args =
          .error .formatError := by
        rw [formatting_format, htext, h.output_error (Nat.eq_zero_of_not_pos hnone.2) hnone.1]
        rfl
      exact absurd (run_formatted_error _ _ hgoes herror) (hnever _ nofun)
    refine ⟨hgoes, ?_, hplaced⟩
    cases hoption : call.isOption with
    | false => rfl
    | true =>
      rw [run_printf_option hoption (hformatted hgoes hplaced)] at hrun
      obtain ⟨what, hwhat⟩ := PrintfCall.deliver_throws hrun.symm
      cases hwhat
  · rw [run_printf call hok.notOption, bind_of_ok (hformatted hok.notStopped hok.placed)]

theorem printf_recycles_threeArguments :
    runShell ((Host.ofTexts [] []).formatting .ofParts) 0 0
        (Shell.printfBuiltin ((Host.ofTexts [] []).formatting .ofParts) ["%s-%s.", "a", "b", "c"])
        (.initial []) =
      runShell ((Host.ofTexts [] []).formatting .ofParts) 0 0
        (PrintfCall.deliver "a-b.c-." (.print "%s-%s." ["a", "b", "c"] (by decide)))
        (.initial []) := by
  have hrecycled : recycled [.placeholder, .char '-' (by decide), .placeholder,
      .char '.' (by decide)] ["a", "b", "c"] = "a-b.c-." := by decide +kernel
  rw [← hrecycled]
  exact (printf_recycles (.ofTexts [] []) .ofParts _ BoostFormat.ofParts_formats 0 0 (.initial [])
    (.print "%s-%s." ["a", "b", "c"] (by decide)) [.placeholder, .char '-' (by decide),
      .placeholder, .char '.' (by decide)] (by decide +kernel)).2.2.mpr
    ⟨by decide +kernel, by decide +kernel, .inr (by decide)⟩

/-- A format without a place, with an argument. -/
theorem printf_withoutPlace :
    runShell ((Host.ofTexts [] []).formatting .ofParts) 0 0
        (Shell.printfBuiltin ((Host.ofTexts [] []).formatting .ofParts) ["a", "b"])
        (.initial []) ≠
      runShell ((Host.ofTexts [] []).formatting .ofParts) 0 0
        (PrintfCall.deliver "a" (.print "a" ["b"] (by decide))) (.initial []) := by
  have htext : (transformEscapes false "a").1 = formatText [.char 'a' (by decide)] := by
    decide +kernel
  have herror : ((Host.ofTexts [] []).formatting .ofParts).format (transformEscapes false "a").1
      ["b"] = .error .formatError := by
    rw [formatting_format, htext, BoostFormat.ofParts_formats.output_error rfl (List.cons_ne_nil "b" [])]
    rfl
  have hformatted := @run_formatted_error ((Host.ofTexts [] []).formatting .ofParts) 0 0
    (.initial []) "a" ["b"] (by decide +kernel) _ herror
  intro hrun
  have hthrow := printf_throws (.print "a" ["b"] (by decide)) hformatted
  rw [PrintfCall.arguments] at hthrow
  rw [hthrow] at hrun
  cases hrun

end Libbash
