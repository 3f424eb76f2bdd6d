import Libbash.Interp.Assignments
import Libbash.Interp.Calls
import Libbash.Interp.Functions
import Libbash.Interp.Reading
import Libbash.Parser.Declarations

/-!
# Declarations of locals

`local x` is parsed as `local x=$x`: the value is looked up through all active frames before
the local is there. `startsFresh_iff` says when that makes no difference. `AfterLocal` is what
a function may do after the declaration, and `Shadows` what stays true of `x` meanwhile.
-/

namespace Libbash

open Lib Lib.Comp Lib.Program

/-! ## After the declaration -/

/-- What may happen in a function, and in what it calls, after the declaration of a local
in its frame: runs that leave the name alone, frames that are pushed and popped for calls,
and scalar or element assignments to the name. -/
inductive AfterLocal (x : String) (depth : Nat) (assigns : Bool) :
    Interpreter → Interpreter → Prop where
  | refl (s : Interpreter) : AfterLocal x depth assigns s s
  | trans {s₁ s₂ s₃ : Interpreter} (h₁ : AfterLocal x depth assigns s₁ s₂)
      (h₂ : AfterLocal x depth assigns s₂ s₃) : AfterLocal x depth assigns s₁ s₃
  | run {cur : AstId} {s t : Interpreter} (h : Evolves false cur s t)
      (hx : ∀ how level, Event.wrote how x level ∉ s.since t) : AfterLocal x depth assigns s t
  | enter (s : Interpreter) : AfterLocal x depth assigns s (acquire .localScope s)
  | leave {s : Interpreter} (h : depth < s.store.localMembers.length) :
      AfterLocal x depth assigns s (release .localScope s s)
  | assign {host : Host} {re : Reentry} {s t : Interpreter} {value : Value} {index : UInt32}
      {r : Except Exn Unit} (hassigns : assigns = true)
      (h : performOp host re (.setValue x value index) s = some (r, t)) :
      AfterLocal x depth assigns s t

/-- What a step keeps of the bindings of a name below a frame that shadows them. -/
structure KeepsOuter (x : String) (depth : Nat) (s t : Store) : Prop where
  shadows : Shadows x depth t
  outer : ∀ level, level < depth → t.valueAt x level = s.valueAt x level

section AfterLocal

variable {x : String} {depth : Nat} {assigns : Bool} {s t : Interpreter}

/-- A run that does not write a name keeps all of its bindings. -/
theorem Evolves.valueAt_eq {b : Bool} {cur : AstId} (h : Evolves b cur s t)
    (hx : ∀ how level, Event.wrote how x level ∉ s.since t) :
    t.store.localMembers.length = s.store.localMembers.length ∧
      ∀ level, t.store.valueAt x level = s.store.valueAt x level := by
  obtain ⟨new, hframed⟩ := h.framed
  rw [since_eq hframed.log] at hx
  refine ⟨hframed.depth, fun level => ?_⟩
  by_cases hle : level ≤ s.store.localMembers.length
  · exact hframed.unwritten x level hle fun how => hx how level
  · have hlt := Nat.lt_of_not_le hle
    exact (Bindings.valueAt_of_lt _ _ (hframed.depth.trans_lt hlt)).trans
      (Bindings.valueAt_of_lt _ _ hlt).symm

/-- An assignment writes the binding that shadows the others. -/
theorem keepsOuter_assign {host : Host} {re : Reentry} {value : Value} {index : UInt32}
    {r : Except Exn Unit} (hx : x.isEmpty = false) (hs : Shadows x depth s.store)
    (h : performOp host re (.setValue x value index) s = some (r, t)) :
    KeepsOuter x depth s.store t.store := by
  rw [performOp, reads_bind_apply] at h
  have hset := writing_store h
  cases r with
  | error e =>
    rw [setValue_error hset]
    exact ⟨hs, fun _ _ => rfl⟩
  | ok =>
    have hstep := storeStep_setValue value index hset
    rw [hs.level hx] at hstep
    have hothers : ∀ level, level ≠ depth → t.store.valueAt x level = s.store.valueAt x level :=
      fun level hne => hstep.only.others x level (.inr hne)
    refine ⟨⟨hstep.depth ▸ hs.depth_le, ?_, fun level hlt => ?_⟩, fun level hlt => ?_⟩
    · obtain ⟨v, hv⟩ := hs.own
      refine hstep.kept ?_ v hv
      unfold setHow
      split_ifs <;> simp
    · rw [hothers level (Nat.ne_of_gt hlt), hs.above level hlt]
    · exact hothers level (Nat.ne_of_lt hlt)

/-- Whatever follows, the bindings of the enclosing scopes are the same. -/
theorem AfterLocal.keepsOuter (h : AfterLocal x depth assigns s t) (hx : x.isEmpty = false)
    (hs : Shadows x depth s.store) : KeepsOuter x depth s.store t.store := by
  induction h with
  | refl s => exact ⟨hs, fun _ _ => rfl⟩
  | trans _ _ ih₁ ih₂ =>
    obtain ⟨hs₂, houter₁⟩ := ih₁ hs
    obtain ⟨hs₃, houter₂⟩ := ih₂ hs₂
    exact ⟨hs₃, fun level hlt => (houter₂ level hlt).trans (houter₁ level hlt)⟩
  | run h hx =>
    obtain ⟨hdepth, hsame⟩ := h.valueAt_eq hx
    refine ⟨⟨hdepth ▸ hs.depth_le, ?_, fun level hlt => ?_⟩, fun level _ => hsame level⟩
    · rw [hsame]
      exact hs.own
    · rw [hsame, hs.above level hlt]
  | enter s =>
    have hsame := valueAt_acquire s x
    refine ⟨⟨Nat.le_succ_of_le hs.depth_le, ?_, fun level hlt => ?_⟩, fun level _ => hsame level⟩
    · rw [hsame]
      exact hs.own
    · rw [hsame, hs.above level hlt]
  | @leave s hdepth =>
    have hlength : (release .localScope s s).store.localMembers.length =
        s.store.localMembers.length - 1 := List.length_tail
    have hsame : ∀ level, level < s.store.localMembers.length →
        (release .localScope s s).store.valueAt x level = s.store.valueAt x level :=
      fun level hlt => valueAt_release hlt x
    refine ⟨⟨?_, ?_, fun level hlt => ?_⟩, fun level hlt => hsame level (hlt.trans hdepth)⟩
    · rw [hlength]
      omega
    · rw [hsame depth hdepth]
      exact hs.own
    · by_cases hlevel : level < s.store.localMembers.length
      · rw [hsame level hlevel, hs.above level hlt]
      · refine Bindings.valueAt_of_lt _ _ (lt_of_eq_of_lt hlength ?_)
        omega
  | assign _ h => exact keepsOuter_assign hx hs h

/-- Without an assignment the local keeps its value, too. -/
theorem AfterLocal.own_eq (h : AfterLocal x depth false s t) (hx : x.isEmpty = false)
    (hs : Shadows x depth s.store) : t.store.valueAt x depth = s.store.valueAt x depth := by
  induction h with
  | refl s => rfl
  | trans h₁ _ ih₁ ih₂ => exact (ih₂ (h₁.keepsOuter hx hs).shadows).trans (ih₁ hs)
  | run h hx => exact (h.valueAt_eq hx).2 depth
  | enter s => exact valueAt_acquire s x depth
  | leave hdepth => exact valueAt_release hdepth x
  | assign hassigns => cases hassigns

end AfterLocal

/-! ## The declaration -/

section Declaration

variable {host : Host} {n d : Nat} {x : Identifier} {s : Interpreter}

/-- What the name means before the declaration, or the empty text. -/
def Interpreter.outerValue (x : Identifier) (s : Interpreter) : String :=
  (s.store.parameter x.text 0).getD ""

/-- The local that a bare declaration makes. -/
def Interpreter.localCopy (x : Identifier) (s : Interpreter) : Variable :=
  .new x.text (.scalar (.str (s.outerValue x)) 0) false

theorem run_optionalWord_bare {r : Except Exn String}
    (h : runShell host n d (Shell.resolveString x.text 0) s = some (r, s)) :
    runShell host n d
      (Shell.optionalWord host (some (.unquoted (.var (.name (.base x)))))) s = some (r, s) := by
  have hvarRef : runShell host n d (Shell.varRef host (.var (.name (.base x)))) s =
      some (r, s) := by
    rw [Shell.varRef, Shell.varName, Shell.nameRule]
    exact h
  rw [Shell.optionalWord, runShell_bind]
  cases r with
  | error e =>
    have hpart : runShell host n d (Shell.stringPart host (.varRef (.var (.name (.base x))))) s =
        some (.error e, s) := by
      rw [Shell.stringPart, runShell_bind]
      exact bind_of_error hvarRef _
    exact bind_of_error (run_singlePart_error hpart) _
  | ok value =>
    have hpart : runShell host n d (Shell.stringPart host (.varRef (.var (.name (.base x))))) s =
        some (.ok { value := value, isRawString := false }, s) := by
      rw [Shell.stringPart, runShell_bind, bind_of_ok hvarRef]
      rfl
    exact bind_of_ok (run_singlePart hpart) _

/-- The declaration is the definition of a local with the value that the name has had. -/
theorem run_varDefs_bare (hbound : s.Bound x.text 0) :
    runShell host n d (Shell.varDefs host true [bareDefinition x]) s =
      runShell host n d
        (perform (.defineLocal x.text (.scalar (.str (s.outerValue x)) 0) false)) s := by
  have hword := @run_optionalWord_bare host n d x s _ (run_resolveString_of_bound hbound)
  rw [Shell.varDefs, Shell.varDefs, bareDefinition, Shell.varDef, Shell.nameRule]
  simp only [runShell_bind, runShell_pure, pure_bind]
  rw [bind_assoc, bind_of_ok hword]
  exact congrFun (bind_pure_unit (m := Comp Exn Interpreter)) _

theorem run_varDefs_bare_unbound (hbound : ¬s.Bound x.text 0) :
    ∃ e, runShell host n d (Shell.varDefs host true [bareDefinition x]) s = some (.error e, s) := by
  obtain ⟨e, herror⟩ := run_resolveString_of_unbound host n d hbound
  have hword := run_optionalWord_bare herror
  refine ⟨e, ?_⟩
  rw [Shell.varDefs, Shell.varDefs, bareDefinition, Shell.varDef, Shell.nameRule]
  simp only [runShell_bind, runShell_pure, pure_bind]
  rw [bind_assoc, bind_of_error hword]

/-- The state in which the text of the declaration is walked. -/
def Interpreter.declaring (x : Identifier) (s : Interpreter) : Interpreter :=
  { s with
    asts := s.asts ++ [declarationOf true x]
    astStack := s.asts.length :: s.astStack }

/-- The command `local x` is the definition. -/
theorem builtinCommand_local {r : Except Exn Unit} {s₁ : Interpreter}
    (hkeyword : keywords.contains x.text = false) (hlive : s.asts.length ∉ s.destroyed)
    (hbudget : s.budget ≠ some 0)
    (hdefs : runShell host.declaring n d (Shell.varDefs host.declaring true [bareDefinition x])
      { s.declaring x with budget := s.budget.map (· - 1) } = some (r, s₁)) :
    ∃ s', builtinCommand host.declaring n (d + 1) "local" [x.text] s = some (r, s') ∧
      s'.store = s₁.store := by
  have hparse : host.declaring.parse (.builtinVariableDefinitions true)
      (readScript true x.text) = .ok (declarationOf true x) := by
    rw [readScript_name]
    exact parse_declaration host true x hkeyword
  have hlist := @list_variableDefinitions host.declaring n d (s.declaring x) s₁ s.asts.length true
    [bareDefinition x] r hbudget hdefs
  have hscript := performOp_interpretScript hparse hlive hlist
  have hjoin : String.join [x.text] = x.text := String.empty_append
  have hexec : runShell host.declaring n (d + 1) (Shell.localBuiltin [x.text]) =
      performOp host.declaring (reentry host.declaring n (d + 1))
        (.interpretScript (.builtinVariableDefinitions true) x.text) >>= fun _ => pure 0 := by
    rw [Shell.localBuiltin, hjoin]
    rfl
  rw [builtinCommand, Shell.inScope, if_pos (by decide), run_executeBuiltin rfl, hexec, bind_assoc]
  cases r with
  | error e => exact ⟨_, bind_of_error hscript _, rfl⟩
  | ok => exact ⟨_, bind_of_ok hscript _, rfl⟩

/-- A local that starts fresh. -/
structure StartsFresh (x : String) (s s₁ : Interpreter) : Prop where
  /-- Until it is assigned it is unset or empty, in the function and in what it calls. -/
  empty : ∀ t, AfterLocal x s.store.localMembers.length false s₁ t →
    ∀ v, t.store.resolveVariable x = some v → ∀ i, v.getValueString i = ""
  /-- The bindings of the enclosing scopes stay as they are. -/
  outer : ∀ t, AfterLocal x s.store.localMembers.length true s₁ t →
    ∀ level, level < s.store.localMembers.length →
      t.store.valueAt x level = s.store.valueAt x level
  /-- At the end of the function the name means what it has meant around it. -/
  ended : ∀ t, AfterLocal x s.store.localMembers.length true s₁ t →
    t.store.localMembers.length = s.store.localMembers.length →
      (release .localScope t t).store.resolveVariable x =
        (release .localScope s s).store.resolveVariable x

/-- What the definition of a local does to the bindings of its name. -/
theorem defineLocal_keepsOuter {t : Store} {frame : Scope} {frames : List Scope} (y : String)
    (v : Variable) (hs : t.localMembers = frame :: frames) :
    KeepsOuter y t.localMembers.length t
        { t with localMembers := frame.insert y v :: frames } ∧
      Store.valueAt { t with localMembers := frame.insert y v :: frames } y t.localMembers.length =
        some v := by
  have hstep := @storeStep_top t y frame frames hs v
  have hown : Store.valueAt { t with localMembers := frame.insert y v :: frames } y
      t.localMembers.length = some v := by
    rw [Store.valueAt, bindings_defineLocal hs]
    exact Bindings.valueAt_bindLocal _ _ _
  refine ⟨⟨⟨Nat.le_of_eq hstep.depth.symm, ⟨v, hown⟩, fun level hlt => ?_⟩, fun level hlt => ?_⟩,
    hown⟩
  · exact Bindings.valueAt_of_lt _ _ (hstep.depth.trans_lt hlt)
  · exact hstep.only.others y level (.inr (Nat.ne_of_lt hlt))

theorem getValueString_empty (y : String) (i : UInt32) :
    (Variable.new y (.scalar (.str "") 0) false).getValueString i = "" := by
  rw [getValueString_eq]
  show (((∅ : Values).insert 0 (.str ""))[i]?.map Value.toStr).getD "" = ""
  rw [Std.ExtTreeMap.getElem?_insert]
  split_ifs
  · rfl
  · rw [Std.ExtTreeMap.getElem?_empty]
    rfl

/-- A local that is empty where it is declared. -/
theorem startsFresh_of_empty {s₁ : Interpreter} (hframe : s.store.localMembers ≠ [])
    (hown : s₁.store.valueAt x.text s.store.localMembers.length =
      some (.new x.text (.scalar (.str "") 0) false))
    (hkeeps : KeepsOuter x.text s.store.localMembers.length s.store s₁.store) :
    StartsFresh x.text s s₁ := by
  have houter : ∀ t, AfterLocal x.text s.store.localMembers.length true s₁ t →
      ∀ level, level < s.store.localMembers.length →
        t.store.valueAt x.text level = s.store.valueAt x.text level := fun t ht level hlt =>
    ((ht.keepsOuter x.nonempty hkeeps.shadows).outer level hlt).trans (hkeeps.outer level hlt)
  constructor
  · intro t ht v hv i
    have hshadows := (ht.keepsOuter x.nonempty hkeeps.shadows).shadows
    rw [hshadows.resolve x.nonempty, ht.own_eq x.nonempty hkeeps.shadows, hown] at hv
    cases hv
    exact getValueString_empty x.text i
  · exact houter
  · intro t ht hdepth
    have hpositive : 0 < s.store.localMembers.length := List.length_pos_iff.mpr hframe
    have hgone : ∀ s' : Interpreter, s'.store.localMembers.length = s.store.localMembers.length →
        ∀ level, ¬level < s.store.localMembers.length →
          (release .localScope s' s').store.valueAt x.text level = none := by
      intro s' hs' level hlevel
      have hlength : (release .localScope s' s').store.localMembers.length =
          s'.store.localMembers.length - 1 := List.length_tail
      exact Bindings.valueAt_of_lt _ _ (lt_of_eq_of_lt hlength (by omega))
    refine resolve_congr x.nonempty fun level => ?_
    by_cases hlt : level < s.store.localMembers.length
    · have ht' : (release .localScope t t).store.valueAt x.text level =
          t.store.valueAt x.text level := valueAt_release (hdepth ▸ hlt) _
      have hs' : (release .localScope s s).store.valueAt x.text level =
          s.store.valueAt x.text level := valueAt_release hlt _
      rw [ht', hs', houter t ht level hlt]
    · rw [hgone t hdepth level hlt, hgone s rfl level hlt]

/-- The local that the declaration makes in a function. -/
theorem builtinCommand_local_of_bound {frame : Scope} {frames : List Scope}
    (hkeyword : keywords.contains x.text = false) (hlive : s.asts.length ∉ s.destroyed)
    (hbudget : s.budget ≠ some 0) (hs : s.store.localMembers = frame :: frames)
    (hbound : s.Bound x.text 0) :
    ∃ s₁, builtinCommand host.declaring n (d + 1) "local" [x.text] s = some (.ok (), s₁) ∧
      s₁.store =
        { s.store with localMembers := frame.insert x.text (s.localCopy x) :: frames } := by
  let s₀ : Interpreter := { s.declaring x with budget := s.budget.map (· - 1) }
  have hs₀ : s₀.store.localMembers = frame :: frames := hs
  obtain ⟨s₂, hdefs, hstore₂⟩ : ∃ s₂, runShell host.declaring n d
      (Shell.varDefs host.declaring true [bareDefinition x]) s₀ = some (.ok (), s₂) ∧
        s₂.store =
          { s.store with localMembers := frame.insert x.text (s.localCopy x) :: frames } := by
    rw [run_varDefs_bare (s := s₀) hbound, runShell_perform, performOp]
    exact ⟨_, writing_of_ok (defineLocal_cons hs₀ _ _), rfl⟩
  obtain ⟨s₁, hrun, hstore⟩ := builtinCommand_local hkeyword hlive hbudget hdefs
  exact ⟨s₁, hrun, hstore.trans hstore₂⟩

/-- A local starts with what the name has meant. -/
theorem outerValue_of_startsFresh {s₁ : Interpreter} {frame : Scope} {frames : List Scope}
    (hs : s.store.localMembers = frame :: frames)
    (hstore : s₁.store =
      { s.store with localMembers := frame.insert x.text (s.localCopy x) :: frames })
    (hfresh : StartsFresh x.text s s₁) : s.outerValue x = "" := by
  obtain ⟨hkeeps, hown⟩ := defineLocal_keepsOuter x.text (s.localCopy x) hs
  rw [← hstore] at hkeeps hown
  have hempty := hfresh.empty s₁ (.refl s₁) _ ((hkeeps.shadows.resolve x.nonempty).trans hown) 0
  have hvalue : (s.localCopy x).value[(0 : UInt32)]? = some (.str (s.outerValue x)) :=
    Std.ExtTreeMap.getElem?_insert_self
  rw [getValueString_eq, hvalue] at hempty
  exact hempty

/-- For every name, in every state of a function and of the scopes around it. -/
theorem startsFresh_iff (host : Host) (n d : Nat) (x : Identifier) (s : Interpreter)
    (hkeyword : keywords.contains x.text = false) (htraced : Traced s) (hbudget : s.budget ≠ some 0)
    (hframe : s.store.localMembers ≠ []) :
    (∃ s₁, builtinCommand host.declaring n (d + 1) "local" [x.text] s = some (.ok (), s₁) ∧
      StartsFresh x.text s s₁) ↔ s.Bound x.text 0 ∧ s.outerValue x = "" := by
  have hlive := htraced.fresh
  by_cases hbound : s.Bound x.text 0
  · obtain ⟨frame, frames, hs⟩ := List.exists_cons_of_ne_nil hframe
    obtain ⟨s₁, hrun, hstore⟩ :=
      @builtinCommand_local_of_bound host n d x s frame frames hkeyword hlive hbudget hs hbound
    constructor
    · rintro ⟨s₂, hrun₂, hfresh⟩
      rw [hrun] at hrun₂
      cases hrun₂
      exact ⟨hbound, outerValue_of_startsFresh hs hstore hfresh⟩
    · rintro ⟨-, hvalue⟩
      obtain ⟨hkeeps, hown⟩ := defineLocal_keepsOuter x.text (s.localCopy x) hs
      rw [← hstore] at hkeeps hown
      rw [Interpreter.localCopy, hvalue] at hown
      exact ⟨s₁, hrun, startsFresh_of_empty hframe hown hkeeps⟩
  · let s₀ : Interpreter := { s.declaring x with budget := s.budget.map (· - 1) }
    obtain ⟨e, herror⟩ := @run_varDefs_bare_unbound host.declaring n d x s₀ hbound
    obtain ⟨s₁, hrun, -⟩ := builtinCommand_local hkeyword hlive hbudget herror
    refine iff_of_false ?_ fun h => hbound h.1
    rintro ⟨s₂, hrun₂, -⟩
    rw [hrun] at hrun₂
    cases hrun₂

end Declaration

/-- In a function that is called at the start of a script; outside of it there are these
variables. -/
def inFunction (members : Scope) : Interpreter :=
  { Interpreter.initial [] with store := { members := members, localMembers := [∅] } }

theorem traced_inFunction (members : Scope) : Traced (inFunction members) :=
  (traced_initial [] none).silent rfl rfl rfl List.prefix_rfl fun _ ha => .inl ha

/-- `f() { local a; }; f` -/
theorem startsFresh_iff_unset :
    (∃ s₁, builtinCommand (Host.ofTexts [] []).declaring 0 1 "local" ["a"]
        (inFunction initialMembers) = some (.ok (), s₁) ∧
      StartsFresh "a" (inFunction initialMembers) s₁) ↔
    (inFunction initialMembers).Bound "a" 0 ∧
      (inFunction initialMembers).outerValue identifierA = "" :=
  startsFresh_iff (.ofTexts [] []) 0 0 identifierA (inFunction initialMembers) (by decide)
    (traced_inFunction _) nofun (List.cons_ne_nil _ _)

/-- `a=1; f() { local a; }; f` -/
theorem not_startsFresh_set :
    ¬∃ s₁, builtinCommand (Host.ofTexts [] []).declaring 0 1 "local" ["a"]
        (inFunction (initialMembers.insert "a" (.new "a" (.scalar (.str "1") 0) false))) =
          some (.ok (), s₁) ∧
      StartsFresh "a"
        (inFunction (initialMembers.insert "a" (.new "a" (.scalar (.str "1") 0) false))) s₁ := by
  let s := inFunction (initialMembers.insert "a" (.new "a" (.scalar (.str "1") 0) false))
  have hvalue : s.outerValue identifierA = "1" := by decide +kernel
  have hbound : s.Bound identifierA.text 0 := fun _ => by decide +kernel
  obtain ⟨s₁, hrun, hstore⟩ := @builtinCommand_local_of_bound (.ofTexts [] []) 0 0 identifierA s ∅
    [] (by decide) (traced_inFunction _).fresh nofun rfl hbound
  rintro ⟨s₂, hrun₂, hfresh⟩
  cases hrun.symm.trans hrun₂
  have hempty := @outerValue_of_startsFresh identifierA s s₁ ∅ [] rfl hstore hfresh
  rw [hvalue] at hempty
  exact absurd hempty (by decide)

end Libbash
