import Libbash.Interp.Reading

/-!
# `set` and the options

`set -X` and `set +X` for the letters that `set_builtin::exec` accepts. All of
them share the body of the case `u`, and `$-` is a variable that only the
constructor of the interpreter writes. `setsExactly_iff` says for which sequences
of commands, and from which states, that is no difference to a `set` that
switches the letter it is given.
-/

namespace Libbash

open Lib Lib.Comp Lib.Program

/-! ## The text of `$-` -/

/-- The text has the letters that are on, in their order. -/
structure Options.Shows (o : Options) (text : String) : Prop where
  sorted : text.toList.Pairwise (· < ·)
  mem_iff : ∀ c, c ∈ text.toList ↔ o.value[c]? = some true

namespace Options

variable {o : Options} {c c' : Char} {value value' : Bool} {text text' : String}

theorem get_set_self : (o.set c value).value[c]? = some value := by
  show (o.value.insert c value)[c]? = some value
  rw [Std.ExtTreeMap.getElem?_insert_self]

theorem get_set_of_ne (h : c' ≠ c) : (o.set c value).value[c']? = o.value[c']? := by
  show (o.value.insert c value)[c']? = o.value[c']?
  rw [Std.ExtTreeMap.getElem?_insert, if_neg]
  intro heq
  exact h (Std.LawfulEqCmp.eq_of_compare heq).symm

theorem get_set_set (x : Char) :
    ((o.set c value).set c value').value[x]? = (o.set c value').value[x]? := by
  by_cases hx : x = c
  · subst hx
    rw [get_set_self, get_set_self]
  · rw [get_set_of_ne hx, get_set_of_ne hx, get_set_of_ne hx]

/-- `get_options` walks the map in the order of its keys. -/
theorem shows_getOptions (o : Options) : o.Shows (getOptions o) where
  sorted := by
    have hkeys := Std.ExtTreeMap.ordered_keys_toList (t := o.value)
    rw [getOptions, String.toList_ofList, List.pairwise_map]
    refine List.Pairwise.imp ?_ (hkeys.filter _)
    intro a b hab
    exact compareOfLessAndEq_eq_lt.mp hab
  mem_iff := by
    intro c
    rw [getOptions, String.toList_ofList, List.mem_map]
    constructor
    · rintro ⟨⟨x, v⟩, hmem, rfl⟩
      obtain ⟨hmem, hv⟩ := List.mem_filter.mp hmem
      rw [Std.ExtTreeMap.mem_toList_iff_getElem?_eq_some] at hmem
      show o.value[x]? = some true
      rw [hmem, show v = true from hv]
    · intro hc
      refine ⟨(c, true), List.mem_filter.mpr ⟨?_, rfl⟩, rfl⟩
      rwa [Std.ExtTreeMap.mem_toList_iff_getElem?_eq_some]

/-- There is one such text. -/
theorem Shows.eq (h : o.Shows text) (h' : o.Shows text') : text = text' := by
  have hperm : text.toList.Perm text'.toList := by
    rw [List.perm_ext_iff_of_nodup (h.sorted.imp fun hlt => Char.ne_of_lt hlt)
      (h'.sorted.imp fun hlt => Char.ne_of_lt hlt)]
    intro c
    rw [h.mem_iff, h'.mem_iff]
  have hlist : text.toList = text'.toList :=
    hperm.eq_of_pairwise (fun a b _ _ hab hba => absurd hab (Char.lt_asymm hba)) h.sorted h'.sorted
  rw [← String.ofList_toList (s := text), hlist, String.ofList_toList]

theorem shows_iff : o.Shows text ↔ text = getOptions o := by
  constructor
  · exact fun h => h.eq o.shows_getOptions
  · rintro rfl
    exact o.shows_getOptions

end Options

/-! ## Sequences of `set` -/

/-- `set -X`, or `set +X` when `on` is not set; `set --` is another command. -/
structure SetCommand where
  on : Bool
  letter : Char
  notDash : letter ≠ '-'

namespace SetCommand

def argument (c : SetCommand) : String := String.ofList [if c.on then '-' else '+', c.letter]

/-- The letters that `set_builtin::exec` has an action for. -/
def acceptedLetters : List Char := "abefhkmnptu".toList

def Accepted (c : SetCommand) : Prop := c.letter ∈ acceptedLetters

instance (c : SetCommand) : Decidable c.Accepted := inferInstanceAs (Decidable (_ ∈ _))

def run (host : Host) (n d : Nat) (c : SetCommand) : Comp Exn Interpreter Unit :=
  runShell host n d (Shell.executeBuiltin host "set" [c.argument])

end SetCommand

/-- The state after a command that is accepted. -/
def Interpreter.afterSet (c : SetCommand) (s : Interpreter) : Interpreter :=
  { s with options := s.options.set 'u' c.on, status := 0 }

/-- What an accepted command has to do: from `s` to `s'`. -/
structure SwitchesOnly (host : Host) (n d : Nat) (c : SetCommand) (s s' : Interpreter) :
    Prop where
  requested : s'.options.value[c.letter]? = some c.on
  others : ∀ x, x ≠ c.letter → s'.options.value[x]? = s.options.value[x]?
  shown : ∃ text, runShell host n d (Shell.varRef host (.var .minus)) s' = some (.ok text, s') ∧
    s'.options.Shows text

/-- The commands of a sequence do what they say, one after the other. -/
def SetsExactly (host : Host) (n d : Nat) : List SetCommand → Interpreter → Prop
  | [], _ => True
  | c :: cs, s =>
    if c.Accepted then
      ∃ s', c.run host n d s = some (.ok (), s') ∧ SwitchesOnly host n d c s s' ∧
        SetsExactly host n d cs s'
    else (∃ e, c.run host n d s = some (.error e, s)) ∧ SetsExactly host n d cs s

/-- The text that `$-` is expanded to. -/
def Interpreter.dash (s : Interpreter) : String := (s.store.parameter "-" 0).getD ""

/-- Where switching `u` is the same as switching the letter, and the text that
`$-` has all the time is the right one. -/
structure SetsAgree (cs : List SetCommand) (s : Interpreter) : Prop where
  shown : ∀ c ∈ cs, c.Accepted → s.dash = getOptions (s.options.set 'u' c.on)
  named : ∀ c ∈ cs, c.Accepted → c.letter = 'u' ∨ s.options.value[c.letter]? = some c.on
  first : ∀ c ∈ cs.find? (·.Accepted), c.letter = 'u' ∨ s.options.value['u']? = some c.on

section Set

variable {host : Host} {n d : Nat} {c : SetCommand} {cs : List SetCommand} {s : Interpreter}

theorem setBuiltin_argument :
    Shell.setBuiltin [c.argument] =
      Shell.setLetter (if c.on then '-' else '+') c.letter c.argument [] := by
  have hargument : c.argument.toList = [if c.on then '-' else '+', c.letter] :=
    String.toList_ofList
  rw [Shell.setBuiltin, hargument]
  dsimp only
  rw [if_neg (by cases c.on <;> decide)]
  rfl

/-- The letters share the action of `u`. -/
theorem setBuiltin_of_accepted (h : c.Accepted) :
    Shell.setBuiltin [c.argument] = (do
      perform (.setOption 'u' c.on)
      pure 0) := by
  have hletter : "abefhkmnptu".toList.contains c.letter = true := List.contains_iff_mem.mpr h
  rw [setBuiltin_argument, Shell.setLetter, if_neg c.notDash, if_pos hletter]
  cases c.on <;> rfl

theorem setBuiltin_of_not_accepted (h : ¬c.Accepted) :
    ∃ e, Shell.setBuiltin [c.argument] = throw e := by
  have hletter : ¬"abefhkmnptu".toList.contains c.letter = true := fun hc =>
    h (List.contains_iff_mem.mp hc)
  rw [setBuiltin_argument, Shell.setLetter, if_neg c.notDash, if_neg hletter]
  split_ifs
  · exact ⟨_, rfl⟩
  · exact ⟨_, rfl⟩

theorem run_set_of_accepted (h : c.Accepted) :
    c.run host n d s = some (.ok (), s.afterSet c) := by
  obtain ⟨u, hu⟩ := Option.isSome_iff_exists.mp (s.options.known 'u' (by decide))
  have hoption : performOp host (reentry host n d) (.setOption 'u' c.on) s =
      some (.ok (), { s with options := s.options.set 'u' c.on }) := by
    rw [performOp, reads_bind_apply, hu]
    rfl
  have hbuiltin : (Shell.builtins host).lookup "set" = some Shell.setBuiltin := rfl
  rw [SetCommand.run, run_executeBuiltin hbuiltin, setBuiltin_of_accepted h, runShell_bind,
    runShell_perform, bind_of_ok (bind_of_ok hoption _)]
  rfl

theorem run_set_of_not_accepted (h : ¬c.Accepted) :
    ∃ e, c.run host n d s = some (.error e, s) := by
  obtain ⟨e, he⟩ := setBuiltin_of_not_accepted h
  have hbuiltin : (Shell.builtins host).lookup "set" = some Shell.setBuiltin := rfl
  rw [SetCommand.run, run_executeBuiltin hbuiltin, he]
  exact ⟨e, rfl⟩

theorem run_varRef_minus :
    runShell host n d (Shell.varRef host (.var .minus)) s =
      runShell host n d (Shell.resolveString "-" 0) s := by
  rw [Shell.varRef, Shell.varName]
  rfl

/-- `$-` shows the letters that are on exactly when its text is that of
`get_options`; an unset `$-` shows no letter, and raises when `u` is on. -/
theorem shown_iff :
    (∃ text, runShell host n d (Shell.varRef host (.var .minus)) s = some (.ok text, s) ∧
      s.options.Shows text) ↔ s.dash = getOptions s.options := by
  rw [run_varRef_minus]
  by_cases hbound : s.Bound "-" 0
  · rw [run_resolveString_of_bound hbound]
    constructor
    · rintro ⟨text, htext, hshows⟩
      have hdash := Except.ok.inj (Prod.mk.inj (Option.some.inj htext)).1
      rw [Interpreter.dash, hdash]
      exact Options.shows_iff.mp hshows
    · intro h
      exact ⟨_, rfl, Options.shows_iff.mpr h⟩
  · obtain ⟨e, he⟩ := run_resolveString_of_unbound host n d hbound
    rw [he]
    constructor
    · rintro ⟨text, htext, -⟩
      cases htext
    · intro h
      obtain ⟨hu, hp⟩ := Classical.not_imp.mp hbound
      have hnone : s.store.parameter "-" 0 = none := by simpa using hp
      -- with `u` on, the right text is not empty
      have hon : s.options.value['u']? = some true := by
        obtain ⟨u, hsome⟩ := Option.isSome_iff_exists.mp (s.options.known 'u' (by decide))
        rw [Interpreter.nounset, hsome] at hu
        rw [hsome, show u = true from hu]
      have hmem := (s.options.shows_getOptions.mem_iff 'u').mpr hon
      rw [← h, Interpreter.dash, hnone] at hmem
      cases hmem

theorem switchesOnly_iff :
    SwitchesOnly host n d c s (s.afterSet c) ↔
      s.dash = getOptions (s.options.set 'u' c.on) ∧
        (c.letter = 'u' ∨
          s.options.value[c.letter]? = some c.on ∧ s.options.value['u']? = some c.on) := by
  have hshown : (∃ text, runShell host n d (Shell.varRef host (.var .minus)) (s.afterSet c) =
      some (.ok text, s.afterSet c) ∧ (s.afterSet c).options.Shows text) ↔
        s.dash = getOptions (s.options.set 'u' c.on) := shown_iff
  have hself : (s.afterSet c).options.value['u']? = some c.on := Options.get_set_self
  constructor
  · intro h
    refine ⟨hshown.mp h.shown, ?_⟩
    by_cases hu : c.letter = 'u'
    · exact .inl hu
    · have hletter : (s.afterSet c).options.value[c.letter]? = s.options.value[c.letter]? :=
        Options.get_set_of_ne hu
      refine .inr ⟨?_, ?_⟩
      · rw [← hletter, h.requested]
      · rw [← h.others 'u' (Ne.symm hu), hself]
  · rintro ⟨htext, hletter⟩
    refine ⟨?_, ?_, hshown.mpr htext⟩
    · rcases hletter with hu | ⟨hon, -⟩
      · rw [hu, hself]
      · by_cases hu : c.letter = 'u'
        · rw [hu, hself]
        · exact (Options.get_set_of_ne hu).trans hon
    · intro x hx
      by_cases hu : x = 'u'
      · rcases hletter with hu' | ⟨-, hon⟩
        · exact absurd (hu.trans hu'.symm) hx
        · rw [hu, hself, hon]
      · exact Options.get_set_of_ne hu

theorem getOptions_set_set (o : Options) (value value' : Bool) :
    getOptions ((o.set 'u' value).set 'u' value') = getOptions (o.set 'u' value') := by
  have h := ((o.set 'u' value).set 'u' value').shows_getOptions
  refine Options.shows_iff.mp ⟨h.sorted, ?_⟩
  intro c
  rw [h.mem_iff, Options.get_set_set]

/-- The texts for the two values of `u` differ. -/
theorem getOptions_set_inj {o : Options} {value value' : Bool}
    (h : getOptions (o.set 'u' value) = getOptions (o.set 'u' value')) : value = value' := by
  have hmem := (o.set 'u' value).shows_getOptions.mem_iff 'u'
  rw [h, (o.set 'u' value').shows_getOptions.mem_iff, Options.get_set_self,
    Options.get_set_self] at hmem
  cases value <;> cases value' <;> simp at hmem ⊢

end Set

/-! ## Whole sequences -/

section Sequences

variable (host : Host) (n d : Nat)

theorem setsAgree_cons_of_not_accepted {c : SetCommand} {cs : List SetCommand} {s : Interpreter}
    (hc : ¬c.Accepted) : SetsAgree (c :: cs) s ↔ SetsAgree cs s := by
  have hfind : (c :: cs).find? (·.Accepted) = cs.find? (·.Accepted) := by
    rw [List.find?_cons_of_neg (by simpa using hc)]
  constructor
  · intro h
    refine ⟨fun c' hc' => h.shown c' (.tail _ hc'), fun c' hc' => h.named c' (.tail _ hc'), ?_⟩
    rw [← hfind]
    exact h.first
  · intro h
    refine ⟨?_, ?_, ?_⟩
    · intro c' hc' haccepted
      rcases List.mem_cons.mp hc' with rfl | hc'
      · exact absurd haccepted hc
      · exact h.shown c' hc' haccepted
    · intro c' hc' haccepted
      rcases List.mem_cons.mp hc' with rfl | hc'
      · exact absurd haccepted hc
      · exact h.named c' hc' haccepted
    · rw [hfind]
      exact h.first

/-- One command more: the text is the same from the start on, so all commands ask
for the value of `u` that the first one leaves. -/
theorem setsAgree_cons {c : SetCommand} {cs : List SetCommand} {s : Interpreter}
    (hc : c.Accepted) : SetsAgree (c :: cs) s ↔
      (s.dash = getOptions (s.options.set 'u' c.on) ∧
        (c.letter = 'u' ∨
          s.options.value[c.letter]? = some c.on ∧ s.options.value['u']? = some c.on)) ∧
        SetsAgree cs (s.afterSet c) := by
  have hfind : (c :: cs).find? (·.Accepted) = some c :=
    List.find?_cons_of_pos (by simpa using hc)
  have hdash : (s.afterSet c).dash = s.dash := rfl
  have htext : ∀ value, getOptions ((s.afterSet c).options.set 'u' value) =
      getOptions (s.options.set 'u' value) := fun value => getOptions_set_set s.options c.on value
  have hself : (s.afterSet c).options.value['u']? = some c.on := Options.get_set_self
  have hothers : ∀ x, x ≠ 'u' → (s.afterSet c).options.value[x]? = s.options.value[x]? :=
    fun x hx => Options.get_set_of_ne hx
  constructor
  · intro h
    have hshown := h.shown c (.head _) hc
    -- `$-` shows one text, so the commands that it agrees with all set the same value.
    have hsame : ∀ c' ∈ cs, c'.Accepted → c'.on = c.on := by
      intro c' hc' haccepted
      apply getOptions_set_inj (o := s.options)
      rw [← h.shown c' (.tail _ hc') haccepted, ← hshown]
    refine ⟨⟨hshown, ?_⟩, ?_, ?_, ?_⟩
    · rcases h.named c (.head _) hc with hu | hon
      · exact .inl hu
      · rcases h.first c hfind with hu | hon'
        · exact .inl hu
        · exact .inr ⟨hon, hon'⟩
    · intro c' hc' haccepted
      rw [hdash, htext, h.shown c' (.tail _ hc') haccepted]
    · intro c' hc' haccepted
      by_cases hu : c'.letter = 'u'
      · exact .inl hu
      · rw [hothers _ hu]
        exact h.named c' (.tail _ hc') haccepted
    · intro c' hc'
      have hmem := List.mem_of_find?_eq_some hc'
      have haccepted : c'.Accepted := by simpa using List.find?_some hc'
      rw [hself, hsame c' hmem haccepted]
      exact .inr rfl
  · rintro ⟨⟨hshown, hletter⟩, hrest⟩
    refine ⟨?_, ?_, ?_⟩
    · intro c' hc' haccepted
      rcases List.mem_cons.mp hc' with rfl | hc'
      · exact hshown
      · rw [← hdash, ← htext]
        exact hrest.shown c' hc' haccepted
    · intro c' hc' haccepted
      rcases List.mem_cons.mp hc' with rfl | hc'
      · exact hletter.imp id And.left
      · rcases hrest.named c' hc' haccepted with hu | hon
        · exact .inl hu
        · by_cases hu : c'.letter = 'u'
          · exact .inl hu
          · rw [hothers _ hu] at hon
            exact .inr hon
    · intro c' hc'
      rw [hfind] at hc'
      cases hc'
      exact hletter.imp id And.right

/-- For every sequence of commands and from every state. -/
theorem setsExactly_iff (cs : List SetCommand) (s : Interpreter) :
    SetsExactly host n d cs s ↔ SetsAgree cs s := by
  induction cs generalizing s with
  | nil =>
    constructor
    · intro _
      refine ⟨?_, ?_, ?_⟩
      · intro c hc
        cases hc
      · intro c hc
        cases hc
      · intro c hc
        cases hc
    · exact fun _ => trivial
  | cons c cs ih =>
    by_cases hc : c.Accepted
    · have hrun : c.run host n d s = some (.ok (), s.afterSet c) := run_set_of_accepted hc
      have hstep : SetsExactly host n d (c :: cs) s ↔
          SwitchesOnly host n d c s (s.afterSet c) ∧ SetsExactly host n d cs (s.afterSet c) := by
        show (if c.Accepted then _ else _) ↔ _
        rw [if_pos hc, hrun]
        constructor
        · rintro ⟨s', h, hswitch, hrest⟩
          cases h
          exact ⟨hswitch, hrest⟩
        · exact fun ⟨hswitch, hrest⟩ => ⟨_, rfl, hswitch, hrest⟩
      rw [hstep, switchesOnly_iff, ih]
      exact (setsAgree_cons hc).symm
    · have hrun : ∃ e, c.run host n d s = some (.error e, s) := run_set_of_not_accepted hc
      have hstep : SetsExactly host n d (c :: cs) s ↔ SetsExactly host n d cs s := by
        show (if c.Accepted then _ else _) ↔ _
        rw [if_neg hc]
        exact and_iff_right hrun
      rw [hstep, ih]
      exact (setsAgree_cons_of_not_accepted hc).symm

end Sequences

/-- `set -e`. -/
def setE : SetCommand := ⟨true, 'e', by decide⟩

/-- `set -e` in a new interpreter switches `u`. -/
theorem not_setsExactly_setE :
    (∃ s', setE.run (.ofTexts [] []) 0 0 (Interpreter.initial []) = some (.ok (), s') ∧
      s'.options.value['e']? = some false ∧ s'.options.value['u']? = some true) ∧
      ¬SetsExactly (.ofTexts [] []) 0 0 [setE] (Interpreter.initial []) := by
  have haccepted : setE.Accepted := by decide
  have hrun : setE.run (.ofTexts [] []) 0 0 (Interpreter.initial []) =
      some (.ok (), (Interpreter.initial []).afterSet setE) := run_set_of_accepted haccepted
  have he : ((Interpreter.initial []).afterSet setE).options.value['e']? = some false := by
    decide +kernel
  have hu : ((Interpreter.initial []).afterSet setE).options.value['u']? = some true :=
    Options.get_set_self
  refine ⟨⟨_, hrun, he, hu⟩, ?_⟩
  intro h
  obtain ⟨s', hs', hswitch, -⟩ := (if_pos haccepted).mp h
  rw [hrun] at hs'
  cases hs'
  have hrequested := hswitch.requested
  rw [show setE.letter = 'e' from rfl, he] at hrequested
  cases hrequested

end Libbash
