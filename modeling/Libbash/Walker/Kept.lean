import Libbash.Walker.Exec

/-!
# Relations that command trees keep

`J` relates the state before a rule to the state after it, however the rule
ends; `W` is a weaker relation, for redirections, which are undone at the end of
their command. When the rules below the command level keep them, so does the
execution of every command tree (`execCommand_keeps` to `execClauses_keeps`).
-/

namespace Libbash

open Lib Lib.Comp

variable {X : Leaves} {S : Type}

structure LeafSem.Respects (sem : LeafSem X S) (J W : S → S → Prop) : Prop where
  refl : ∀ s, J s s
  trans : ∀ a b c, J a b → J b c → J a c
  weaken : ∀ a b, J a b → W a b
  transWeak : ∀ a b c, W a b → W b c → W a c
  /-- The end of a command puts its streams back. -/
  restore : ∀ s s', W s s' → J s (sem.setStreams (sem.getStreams s) s')
  setStatus : ∀ status s, J s (sem.setStatus status s)
  redirect : ∀ r, Keeps W (sem.redirect r)
  simple : ∀ c, Keeps J (sem.simple c)
  cond : ∀ c, Keeps J (sem.cond c)
  arith : ∀ e, Keeps J (sem.arith e)
  forWord : ∀ w, Keeps J (sem.forWord w)
  positional : Keeps J sem.positional
  setValue : ∀ name value, Keeps J (sem.setValue name value)
  caseWord : ∀ w, Keeps J (sem.caseWord w)
  matchPattern : ∀ p target, Keeps J (sem.matchPattern p target)

namespace LeafSem.Respects

variable {sem : LeafSem X S} {J W : S → S → Prop} (h : sem.Respects J W)

include h

/-! ## Combinators -/

theorem bind {α β : Type} {m : Comp Exn S α} {f : α → Comp Exn S β} (hm : Keeps J m)
    (hf : ∀ a, Keeps J (f a)) : Keeps J (m >>= f) :=
  keeps_bind (fun {a b c} => h.trans a b c) hm hf

theorem pure {α : Type} (a : α) : Keeps J (Pure.pure a : Comp Exn S α) := keeps_pure h.refl a

theorem readStatus : Keeps J (Libbash.getStatus sem) := keeps_reads h.refl _

theorem writeStatus (status : Int) : Keeps J (Libbash.setStatus sem status) :=
  keeps_update (h.setStatus status)

theorem reflWeak (s : S) : W s s := h.weaken s s (h.refl s)

/-- A command between the saving and the restoring of the streams. -/
theorem streams {α : Type} {body : Comp Exn S α} (hbody : Keeps W body) :
    Keeps J (withStreams sem body) := by
  intro s r s' hrun
  obtain ⟨s₁, hin, rfl⟩ := bracket_cases hrun
  exact h.restore s s₁ (hbody _ _ _ hin)

theorem runRedirects (rs : List X.Redirect) : Keeps W (Libbash.runRedirects sem rs) := by
  induction rs with
  | nil => exact keeps_pure h.reflWeak ()
  | cons r rs ih =>
    exact keeps_bind (fun {a b c} => h.transWeak a b c) (h.redirect r) fun _ => ih

/-- Redirections and then the command itself. -/
theorem redirected {body : Comp Exn S Unit} (rs : List X.Redirect) (hbody : Keeps J body) :
    Keeps J (withStreams sem do
      Libbash.runRedirects sem rs
      body) := by
  refine h.streams (keeps_bind (fun {a b c} => h.transWeak a b c) (h.runRedirects rs) fun _ => ?_)
  intro s r s' hrun
  exact h.weaken _ _ (hbody _ _ _ hrun)

/-! ## Loops -/

theorem rethrow (kind : LoopControl) (count : Int) :
    Keeps J (rethrowUnlessCorrectFrame kind count : Comp Exn S Unit) := by
  unfold rethrowUnlessCorrectFrame
  split_ifs
  · exact keeps_throw h.refl _
  · exact h.pure ()

theorem loopBody {body : Comp Exn S Unit} (hbody : Keeps J body) :
    Keeps J (Libbash.loopBody body) := by
  refine keeps_tryCatch (fun {a b c} => h.trans a b c) (h.bind hbody fun _ => h.pure true) fun e => ?_
  cases e with
  | loopControl kind count =>
    cases kind <;> exact h.bind (h.rethrow _ _) fun _ => h.pure _
  | _ => exact keeps_throw h.refl _

theorem splitWords (splitted : List String) (ws : List X.Word) :
    Keeps J (Libbash.splitWords sem splitted ws) := by
  induction ws generalizing splitted with
  | nil => exact h.pure _
  | cons w ws ih => exact h.bind (h.forWord w) fun _ => ih _

theorem loopTest (negate : Bool) {cond : Comp Exn S Unit} (hcond : Keeps J cond) :
    Keeps J (Libbash.loopTest sem negate cond) :=
  h.bind hcond fun _ => h.bind h.readStatus fun _ => h.pure _

theorem whileLoop (negate : Bool) {cond body : Comp Exn S Unit} (hcond : Keeps J cond)
    (hbody : Keeps J body) (n : Nat) : Keeps J (Libbash.whileLoop sem negate cond body n) := by
  induction n with
  | zero => exact keeps_diverge
  | succ n ih =>
    refine h.bind (h.loopTest negate hcond) fun holds => ?_
    split_ifs
    · refine h.bind (h.loopBody hbody) fun again => ?_
      split_ifs
      · exact ih
      · exact h.pure ()
    · exact h.pure ()

theorem forLoop (name : String) {body : Comp Exn S Unit} (hbody : Keeps J body)
    (values : List String) : Keeps J (Libbash.forLoop sem name body values) := by
  induction values with
  | nil => exact h.pure ()
  | cons value values ih =>
    refine h.bind (h.setValue name value) fun _ => h.bind (h.loopBody hbody) fun again => ?_
    split_ifs
    · exact ih
    · exact h.pure ()

theorem runArith (e : Option X.Arith) : Keeps J (Libbash.runArith sem e) := by
  cases e with
  | none => exact h.pure ()
  | some e => exact h.bind (h.arith e) fun _ => h.pure ()

theorem cforTest (e : Option X.Arith) : Keeps J (Libbash.cforTest sem e) := by
  cases e with
  | none => exact h.pure true
  | some e => exact h.bind (h.arith e) fun _ => h.pure _

theorem cforLoop (cond mod : Option X.Arith) {body : Comp Exn S Unit} (hbody : Keeps J body)
    (n : Nat) : Keeps J (Libbash.cforLoop sem cond mod body n) := by
  induction n with
  | zero => exact keeps_diverge
  | succ n ih =>
    refine h.bind (h.cforTest cond) fun holds => ?_
    split_ifs
    · refine h.bind (h.loopBody hbody) fun again => ?_
      split_ifs
      · exact h.bind (h.runArith mod) fun _ => ih
      · exact h.pure ()
    · exact h.pure ()

theorem elifTest {cond : Comp Exn S Unit} (hcond : Keeps J cond) :
    Keeps J (Libbash.elifTest sem cond) :=
  h.bind hcond fun _ => h.bind h.readStatus fun _ => h.pure _

theorem forValues (words : List X.Word) (splitted : List String) :
    Keeps J (Libbash.forValues sem words splitted) := by
  unfold Libbash.forValues
  split_ifs
  · exact h.positional
  · exact h.pure _

end LeafSem.Respects

/-! ## Command trees -/

section Trees

variable {sem : LeafSem X S} {J W : S → S → Prop} (h : sem.Respects J W) (n : Nat)

include h

mutual

theorem execCommand_keeps (c : Command X) : Keeps J (execCommand sem n c) := by
  cases c with
  | simple redirs c =>
    rw [execCommand]
    exact h.redirected redirs (h.simple c)
  | compound redirs c =>
    rw [execCommand]
    exact h.redirected redirs (execCompound_keeps c)

theorem execCompound_keeps (c : Compound X) : Keeps J (execCompound sem n c) := by
  cases c with
  | currentShell body =>
    rw [execCompound]
    exact execList_keeps body
  | cond c =>
    rw [execCompound]
    exact h.bind (h.cond c) fun _ => h.writeStatus _
  | arith e =>
    rw [execCompound]
    exact h.bind (h.arith e) fun _ => h.pure ()
  | forEach name words body =>
    rw [execCompound]
    refine h.bind (h.splitWords [] words) fun splitted => ?_
    split_ifs
    · exact h.writeStatus 0
    · exact h.bind (h.forValues words splitted) fun values =>
        h.forLoop name (execList_keeps body) values
  | cfor init cond mod body =>
    rw [execCompound]
    exact h.bind (h.runArith init) fun _ => h.cforLoop cond mod (execList_keeps body) n
  | loop negate cond body =>
    rw [execCompound]
    exact h.whileLoop negate (execList_keeps cond) (execList_keeps body) n
  | ifStatement cond body rest =>
    rw [execCompound]
    refine h.bind (h.elifTest (execList_keeps cond)) fun holds => ?_
    split_ifs
    · exact execList_keeps body
    · exact execElse_keeps rest
  | caseOf w clauses =>
    rw [execCompound]
    exact h.bind (h.caseWord w) fun target => execClauses_keeps target clauses

theorem execLogic_keeps (c : LogicCommand X) : Keeps J (execLogic sem n c) := by
  cases c with
  | command c =>
    rw [execLogic]
    exact execCommand_keeps c
  | logic isAnd left right =>
    rw [execLogic]
    refine h.bind (execLogic_keeps left) fun _ => h.bind h.readStatus fun status => ?_
    split_ifs
    · exact execCommand_keeps right
    · exact h.pure ()

theorem execList_keeps (c : CommandList X) : Keeps J (execList sem n c) := by
  cases c with
  | last c =>
    rw [execList]
    exact execLogic_keeps c
  | cons c rest =>
    rw [execList]
    exact h.bind (execLogic_keeps c) fun _ => execList_keeps rest

theorem execElse_keeps (parts : ElseParts X) : Keeps J (execElse sem n parts) := by
  cases parts with
  | fi =>
    rw [execElse]
    exact h.pure ()
  | elsePart body =>
    rw [execElse]
    exact execList_keeps body
  | elif cond body rest =>
    rw [execElse]
    refine h.bind (h.elifTest (execList_keeps cond)) fun holds => ?_
    split_ifs
    · exact execList_keeps body
    · exact execElse_keeps rest

theorem execClauses_keeps (target : String) (clauses : Clauses X) :
    Keeps J (execClauses sem n target clauses) := by
  cases clauses with
  | esac =>
    rw [execClauses]
    exact h.pure ()
  | empty p rest =>
    rw [execClauses]
    refine h.bind (h.matchPattern p target) fun matched => ?_
    split_ifs
    · exact h.pure ()
    · exact execClauses_keeps target rest
  | commands p body rest =>
    rw [execClauses]
    refine h.bind (h.matchPattern p target) fun matched => ?_
    split_ifs
    · exact execList_keeps body
    · exact execClauses_keeps target rest

end

end Trees

end Libbash
