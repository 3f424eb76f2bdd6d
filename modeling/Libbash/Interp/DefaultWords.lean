import Libbash.Interp.Reading

/-!
# Default words

`raw_string` expands the word of `${p-w}`, `${p=w}` and `${p+w}` before their
actions test the parameter, so the word is expanded whether it is wanted or not.
`wordsOnDemand_iff` says when that leaves no trace.
-/

namespace Libbash

open Lib Lib.Comp Lib.Program

/-- What an expansion with a default word does with it. -/
inductive WordUse where
  | default | assign | alternate
  deriving DecidableEq

namespace WordUse

/-- The six expansions. -/
def expansion (u : WordUse) (orNull : Bool) (n : ParameterName) (w : RawString) : VarExpansion :=
  match u with
  | default => .useDefault orNull n w
  | assign => .assignDefault orNull n w
  | alternate => .useAlternate orNull n w

/-- What `var_expansion` does after the word has been expanded. -/
def finish (u : WordUse) (orNull : Bool) (p : String × UInt32) (word : String) : Shell String :=
  match u with
  | default => Shell.defaultExpansion orNull p word
  | assign => Shell.assignExpansion orNull p word
  | alternate => Shell.alternateExpansion orNull p word

end WordUse

/-- The test of the parameter, with or without the colon. -/
def Store.lacks (t : Store) (orNull : Bool) (p : String × UInt32) : Bool :=
  if orNull then ((t.resolveVariable p.1).map fun v => v.isNull p.2).getD true
  else t.members[p.1]?.isNone

namespace WordUse

/-- The word is used. -/
def wants (u : WordUse) (orNull : Bool) (p : String × UInt32) (t : Store) : Bool :=
  match u with
  | default | assign => t.lacks orNull p
  | alternate => !t.lacks orNull p

/-- The expansion where the word is not used. -/
def without (u : WordUse) (p : String × UInt32) : Shell String :=
  match u with
  | default | assign => Shell.resolveString p.1 p.2
  | alternate => pure ""

end WordUse

/-- The variables, the functions, the output and the status are as before. -/
structure Unchanged (s t : Interpreter) : Prop where
  store : t.store = s.store
  functions : t.functions = s.functions
  outputs : ∀ k < s.outputs.length, t.outputs[k]? = s.outputs[k]?
  status : t.status = s.status

/-- The operations that walk another tree. -/
def Op.Interprets : {α : Type} → Op α → Prop
  | _, .interpretScript .. => True
  | _, .interpretWord .. => True
  | _, .interpretArithmetics .. => True
  | _, .interpret .. => True
  | _, .callFunction .. => True
  | _, _ => False

section Words

variable (host : Host) (n d : Nat) (u : WordUse) (orNull : Bool) (name : ParameterName)
variable (w : RawString) (p : String × UInt32) (s : Interpreter)

/-- One expansion of the word, in the state that naming the parameter has left,
and then nothing that walks another tree. -/
def ExpandedOnce (s₁ : Interpreter) : Prop :=
  ∃ k : String → Shell String, (∀ word, Uses (fun o => ¬ o.Interprets) (k word)) ∧
    runShell host n d (Shell.varExpansion host (u.expansion orNull name w)) s =
      (runShell host n d (Shell.rawString w) >>= fun word => runShell host n d (k word)) s₁

/-- The expansion ends as without its word, and has changed nothing since the
parameter has been named. -/
def WordUnseen (s₁ : Interpreter) : Prop :=
  ∃ r t, runShell host n d (u.without p) s₁ = some (r, s₁) ∧
    runShell host n d (Shell.varExpansion host (u.expansion orNull name w)) s = some (r, t) ∧
    Unchanged s₁ t

/-- The word is expanded once where it is used, and otherwise leaves no trace. -/
def WordsOnDemand : Prop :=
  ∀ p s₁, runShell host n d (Shell.varName host name) s = some (.ok p, s₁) →
    if u.wants orNull p s₁.store then ExpandedOnce host n d u orNull name w s s₁
    else WordUnseen host n d u orNull name w p s s₁

/-- Expanding the word ends, in a state where the parameter reads as before, and
leaves no trace; or it fails as reading the parameter does; or what it takes from
the parameter is what the assignment after it gives back. -/
inductive WordIdle : Prop where
  | ends (word : String) (s₂ : Interpreter)
      (run : runShell host n d (Shell.rawString w) s = some (.ok word, s₂))
      (unchanged : Unchanged s s₂)
      (reads : (runShell host n d (u.without p) s₂).map Prod.fst =
        (runShell host n d (u.without p) s).map Prod.fst)
  | fails (e : Exn) (s₂ : Interpreter)
      (run : runShell host n d (Shell.rawString w) s = some (.error e, s₂))
      (unchanged : Unchanged s s₂)
      (reads : runShell host n d (u.without p) s = some (.error e, s))
  | restores (word : String) (s₂ t : Interpreter) (r : Except Exn String)
      (run : runShell host n d (Shell.rawString w) s = some (.ok word, s₂))
      (assigns : u = .assign) (lost : u.wants orNull p s₂.store = true)
      (write : runShell host n d (Shell.setString p.1 word p.2) s₂ = some (r, t))
      (unchanged : Unchanged s t)
      (reads : runShell host n d (u.without p) s = some (r, s))

end Words

section Words

variable {host : Host} {n d : Nat} {u : WordUse} {orNull : Bool} {name : ParameterName}
variable {w : RawString} {p : String × UInt32} {s s₁ : Interpreter}

theorem run_unsetTest :
    runShell host n d (Shell.unsetTest orNull p.1 p.2) s =
      some (.ok (s.store.lacks orNull p), s) := by
  unfold Shell.unsetTest Store.lacks
  cases orNull with
  | true => rfl
  | false => rfl

/-- The parameter is named, then the word is expanded, and then the parameter is
tested. -/
theorem run_expansion :
    runShell host n d (Shell.varExpansion host (u.expansion orNull name w)) =
      runShell host n d (Shell.varName host name) >>= fun p =>
        runShell host n d (Shell.rawString w) >>= fun word =>
          runShell host n d (u.finish orNull p word) := by
  cases u with
  | default | assign | alternate =>
    rw [WordUse.expansion, Shell.varExpansion]
    rfl

theorem run_finish (word : String) :
    runShell host n d (u.finish orNull p word) s =
      if u.wants orNull p s.store then
        if u = .assign then runShell host n d (Shell.setString p.1 word p.2) s
        else some (.ok word, s)
      else runShell host n d (u.without p) s := by
  cases u with
  | default =>
    show runShell host n d (Shell.defaultExpansion orNull p word) s = _
    unfold Shell.defaultExpansion Shell.doDefaultExpansion WordUse.wants
    rw [runShell_bind, bind_of_ok run_unsetTest]
    cases s.store.lacks orNull p <;> rfl
  | assign =>
    show runShell host n d (Shell.assignExpansion orNull p word) s = _
    unfold Shell.assignExpansion Shell.doAssignExpansion WordUse.wants
    rw [runShell_bind, bind_of_ok run_unsetTest]
    cases s.store.lacks orNull p <;> rfl
  | alternate =>
    show runShell host n d (Shell.alternateExpansion orNull p word) s = _
    unfold Shell.alternateExpansion Shell.doAlternateExpansion WordUse.wants
    rw [runShell_bind, bind_of_ok run_unsetTest]
    cases s.store.lacks orNull p <;> rfl

/-- Reading the parameter changes nothing. -/
theorem run_without (host : Host) (n d : Nat) (u : WordUse) (p : String × UInt32)
    (s : Interpreter) : ∃ r, runShell host n d (u.without p) s = some (r, s) := by
  have hresolve : ∃ r, runShell host n d (Shell.resolveString p.1 p.2) s = some (r, s) := by
    rw [run_resolveString]
    split
    · exact ⟨_, rfl⟩
    · exact ⟨_, rfl⟩
  cases u with
  | default | assign => exact hresolve
  | alternate => exact ⟨.ok "", rfl⟩

theorem uses_resolveString (name : String) (index : UInt32) :
    Uses (fun o => ¬ o.Interprets) (Shell.resolveString name index) := by
  refine uses_bind (uses_perform fun h => h) fun v => ?_
  cases v with
  | none =>
    refine uses_bind (uses_bind (uses_perform fun h => h) fun on => ?_) fun _ => uses_pure _
    exact uses_ite (uses_throw _) (uses_pure _)
  | some v =>
    exact uses_bind (uses_perform fun h => h) fun on => uses_ite (uses_throw _) (uses_pure _)

theorem uses_finish (u : WordUse) (orNull : Bool) (p : String × UInt32) (word : String) :
    Uses (fun o => ¬ o.Interprets) (u.finish orNull p word) := by
  have htest : Uses (fun o => ¬ o.Interprets) (Shell.unsetTest orNull p.1 p.2) :=
    uses_ite (uses_bind (uses_perform fun h => h) fun _ => uses_pure _) (uses_perform fun h => h)
  cases u with
  | default =>
    exact uses_bind htest fun _ => uses_ite (uses_pure _) (uses_resolveString _ _)
  | assign =>
    refine uses_bind htest fun _ => uses_ite ?_ (uses_resolveString _ _)
    exact uses_bind (uses_perform fun h => h) fun _ => uses_pure _
  | alternate => exact uses_bind htest fun _ => uses_pure _

theorem Unchanged.wants {s t : Interpreter} (h : Unchanged s t) :
    u.wants orNull p t.store = u.wants orNull p s.store := by rw [h.store]

/-- A word that is not used leaves no trace if and only if it is idle. -/
theorem wordUnseen_iff (hname : runShell host n d (Shell.varName host name) s = some (.ok p, s₁))
    (hwants : u.wants orNull p s₁.store = false) :
    WordUnseen host n d u orNull name w p s s₁ ↔ WordIdle host n d u orNull w p s₁ := by
  have hrun : runShell host n d (Shell.varExpansion host (u.expansion orNull name w)) s =
      (runShell host n d (Shell.rawString w) >>= fun word =>
        runShell host n d (u.finish orNull p word)) s₁ := by
    rw [run_expansion, bind_of_ok hname]
  unfold WordUnseen
  rw [hrun]
  constructor
  · rintro ⟨r, t, hreads, hend, hunchanged⟩
    rcases bind_cases hend with ⟨word, s₂, hword, hfinish⟩ | ⟨e, hword, rfl⟩
    · rw [run_finish] at hfinish
      -- The test comes after the word, and the word may have made it succeed.
      by_cases hlost : u.wants orNull p s₂.store = true
      · rw [if_pos hlost] at hfinish
        by_cases hassign : u = .assign
        · rw [if_pos hassign] at hfinish
          exact .restores word s₂ t r hword hassign hlost hfinish hunchanged hreads
        · rw [if_neg hassign] at hfinish
          cases hfinish
          rw [hunchanged.wants, hwants] at hlost
          cases hlost
      · rw [if_neg hlost] at hfinish
        obtain ⟨r₂, hr₂⟩ := run_without host n d u p s₂
        obtain ⟨rfl, rfl⟩ := Prod.mk.inj (Option.some.inj (hr₂.symm.trans hfinish))
        exact .ends word s₂ hword hunchanged (by rw [hr₂, hreads]; rfl)
    · exact .fails e t hword hunchanged hreads
  · rintro (⟨word, s₂, hword, hunchanged, hreads⟩ | ⟨e, s₂, hword, hunchanged, hreads⟩ |
      ⟨word, s₂, t, r, hword, hassign, hlost, hwrite, hunchanged, hreads⟩)
    · obtain ⟨r, hr⟩ := run_without host n d u p s₁
      obtain ⟨r₂, hr₂⟩ := run_without host n d u p s₂
      rw [hr, hr₂] at hreads
      cases hreads
      refine ⟨r, s₂, hr, ?_, hunchanged⟩
      rw [bind_of_ok hword, run_finish, hunchanged.wants, hwants, if_neg Bool.false_ne_true, hr₂]
    · exact ⟨.error e, s₂, hreads, bind_of_error hword _, hunchanged⟩
    · refine ⟨r, t, hreads, ?_, hunchanged⟩
      rw [bind_of_ok hword, run_finish, if_pos hlost, if_pos hassign, hwrite]

/-- A parameter without an index is named without an effect. -/
theorem run_varName_base (x : Identifier) :
    runShell host n d (Shell.varName host (.name (.base x))) s = some (.ok (x.text, 0), s) := by
  rw [Shell.varName, Shell.nameRule]
  rfl

end Words

/-- For every word, whatever it expands and assigns, and every state. -/
theorem wordsOnDemand_iff (host : Host) (n d : Nat) (u : WordUse) (orNull : Bool)
    (name : ParameterName) (w : RawString) (s : Interpreter) :
    WordsOnDemand host n d u orNull name w s ↔
      ∀ p s₁, runShell host n d (Shell.varName host name) s = some (.ok p, s₁) →
        u.wants orNull p s₁.store = true ∨ WordIdle host n d u orNull w p s₁ := by
  unfold WordsOnDemand
  refine forall_congr' fun p => forall_congr' fun s₁ => imp_congr_right fun hname => ?_
  by_cases hwants : u.wants orNull p s₁.store = true
  · rw [if_pos hwants]
    refine iff_of_true ⟨fun word => u.finish orNull p word, uses_finish u orNull p, ?_⟩ (.inl hwants)
    rw [run_expansion, bind_of_ok hname]
  · rw [if_neg hwants, wordUnseen_iff hname (Bool.not_eq_true _ |>.mp hwants)]
    simp only [hwants, Bool.false_eq_true, false_or]

def variableP : Identifier := ⟨"p", by decide⟩

/-- `$((q=1))` as a word. -/
def assigningWord : String := "$((q=1))"

def assigningHost : Host :=
  .ofTexts [((.allExpansions, assigningWord),
    .word (.string [.part (.arith (.parts [.equals (.name (.base ⟨"q", by decide⟩)) (.num "1")]))]))]
    []

/-- `p` is `v`. -/
def valueOfP : Interpreter :=
  { Interpreter.initial [] with
    store := ⟨(∅ : Scope).insert "p" (.new "p" (.scalar (.str "v") 0) false), []⟩ }

/-- `${p:-$((q=1))}` assigns, though `p` is set. -/
theorem not_wordsOnDemand_assigning :
    (runShell assigningHost 1 1 (Shell.varExpansion assigningHost
        (WordUse.default.expansion true (.name (.base variableP)) assigningWord)) valueOfP).bind
      (fun out => out.2.store.parameter "q" 0) = some "1" ∧
    ¬WordsOnDemand assigningHost 1 1 .default true (.name (.base variableP)) assigningWord
      valueOfP := by
  have hcode : (runShell assigningHost 1 1 (Shell.varExpansion assigningHost
        (WordUse.default.expansion true (.name (.base variableP)) assigningWord)) valueOfP).bind
      (fun out => out.2.store.parameter "q" 0) = some "1" := by decide +kernel
  refine ⟨hcode, fun h => ?_⟩
  have hunseen := h ("p", 0) valueOfP (run_varName_base variableP)
  rw [if_neg (by decide +kernel)] at hunseen
  obtain ⟨r, t, -, hrun, hunchanged⟩ := hunseen
  rw [hrun, Option.bind_some, hunchanged.store] at hcode
  exact absurd hcode (by decide +kernel)

end Libbash
