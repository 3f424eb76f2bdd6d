import Libbash.Interp.Assignments
import Libbash.Interp.Positional

/-!
# Assignment prefixes

The prefixes of a command are defined in the frame on top of the stack. The command rule
pushes that frame for every command but `local`, `set`, `declare` and `eval`: with those
names the prefixes stay in the frame of the enclosing function, and outside of functions
there is no frame to define them in (`prefixesLast_iff`).
-/

namespace Libbash

open Lib Lib.Comp Lib.Program

/-! ## Prefixes and their values -/

/-- A prefix `name=word`; the word may be missing. -/
structure AssignmentPrefix where
  name : Identifier
  word : Option Word

def AssignmentPrefix.varDef (p : AssignmentPrefix) : VarDef := .scalar (.base p.name) p.word

/-- The variable that a prefix defines. -/
def prefixVariable (x value : String) : Variable := .new x (.scalar (.str value) 0) false

/-- How often a name is assigned. -/
def timesAssigned (x : String) (ps : List AssignmentPrefix) : Nat :=
  ps.countP fun p => p.name.text == x

/-- The value that the last prefix for a name assigns. -/
def assignedValue (x : String) : List AssignmentPrefix → List String → Option String
  | p :: ps, v :: vs => (assignedValue x ps vs).or (if p.name.text = x then some v else none)
  | _, _ => none

/-- The words have these values, each one where it is evaluated: after the prefixes before
it have been defined. -/
inductive Assigned (host : Host) (n d : Nat) :
    List AssignmentPrefix → Interpreter → List String → Prop where
  | nil (s : Interpreter) : Assigned host n d [] s []
  | cons {p : AssignmentPrefix} {ps : List AssignmentPrefix} {s s₁ : Interpreter} {v : String}
      {vs : List String}
      (word : runShell host n d (Shell.optionalWord host p.word) s = some (.ok v, s₁))
      (rest : ∀ s₂, runShell host n d
          (perform (.defineLocal p.name.text (.scalar (.str v) 0) false)) s₁ = some (.ok (), s₂) →
        Assigned host n d ps s₂ vs) :
      Assigned host n d (p :: ps) s (v :: vs)

/-- An event that writes a name. -/
def Event.writes (x : String) : Event → Bool
  | .wrote _ name _ => name == x
  | _ => false

/-- How often a run has written a name. -/
def Interpreter.timesWritten (x : String) (s s' : Interpreter) : Nat :=
  (s.since s').countP (Event.writes x)

theorem not_mem_of_unwritten {x : String} {new : List Event}
    (h : new.countP (Event.writes x) = 0) (how : Write) (level : Nat) :
    Event.wrote how x level ∉ new := fun hmem =>
  List.countP_eq_zero.mp h _ hmem (beq_self_eq_true x)

theorem timesWritten_eq {x : String} {s s' : Interpreter} {new : List Event}
    (h : FramedBy new s s') : s.timesWritten x s' = new.countP (Event.writes x) := by
  rw [Interpreter.timesWritten, since_eq h.log]

/-! ## The definitions -/

section Run

variable {host : Host} {n d : Nat} {s : Interpreter}

/-- A prefix is its word and one definition in the top frame. -/
theorem run_varDef_assignment (p : AssignmentPrefix) :
    runShell host n d (Shell.varDef host true p.varDef) =
      runShell host n d (Shell.optionalWord host p.word) >>= fun v =>
        runShell host n d (perform (.defineLocal p.name.text (.scalar (.str v) 0) false)) := rfl

theorem performOp_defineLocal_cons {re : Reentry} {frame : Scope} {frames : List Scope}
    (hs : s.store.localMembers = frame :: frames) (x v : String) :
    performOp host re (.defineLocal x (.scalar (.str v) 0) false) s =
      some (.ok (), Interpreter.record (.wrote .define x s.store.localMembers.length)
        { s with store := { s.store with
            localMembers := frame.insert x (prefixVariable x v) :: frames } }) := by
  rw [performOp]
  exact writing_of_ok (defineLocal_cons hs _ _)

theorem performOp_defineLocal_nil {re : Reentry} (hs : s.store.localMembers = []) (x v : String) :
    performOp host re (.defineLocal x (.scalar (.str v) 0) false) s =
      some (.error (.error .runtime "Define local variables outside function scope"), s) := by
  rw [performOp]
  exact writing_of_error (defineLocal_nil hs _ _)

/-- The definition that a prefix makes in a frame. -/
theorem defineLocal_framed {frame : Scope} {frames : List Scope}
    (hs : s.store.localMembers = frame :: frames) (x v : String) :
    ∃ s₂, runShell host n d (perform (.defineLocal x (.scalar (.str v) 0) false)) s =
        some (.ok (), s₂) ∧
      FramedBy [.wrote .define x s.store.localMembers.length] s s₂ ∧
      s₂.store.valueAt x s.store.localMembers.length = some (prefixVariable x v) := by
  refine ⟨_, @performOp_defineLocal_cons host s (reentry host n d) frame frames hs x v,
    .of_storeStep (storeStep_top hs _), ?_⟩
  show Bindings.valueAt (Store.bindings { s.store with localMembers := _ }) x _ = _
  rw [bindings_defineLocal hs]
  exact Bindings.valueAt_bindLocal _ _ _

/-- What a name means after its prefixes, unless something else has written it. -/
structure PrefixesDefined (x : String) (ps : List AssignmentPrefix) (vs : List String)
    (s t : Interpreter) : Prop where
  top : t.store.valueAt x s.store.localMembers.length =
    ((assignedValue x ps vs).map (prefixVariable x)).or
      (s.store.valueAt x s.store.localMembers.length)
  below : ∀ level, level < s.store.localMembers.length →
    t.store.valueAt x level = s.store.valueAt x level

/-- One more prefix, whose word does not write the name. -/
theorem PrefixesDefined.cons {x v : String} {p : AssignmentPrefix} {ps : List AssignmentPrefix}
    {vs : List String} {s₁ s₂ t : Interpreter} {new : List Event}
    (hword : FramedBy new s s₁) (hnew : new.countP (Event.writes x) = 0)
    (hdefine : FramedBy [.wrote .define p.name.text s₁.store.localMembers.length] s₁ s₂)
    (hvalue : s₂.store.valueAt p.name.text s₁.store.localMembers.length =
      some (prefixVariable p.name.text v))
    (hrest : PrefixesDefined x ps vs s₂ t) : PrefixesDefined x (p :: ps) (v :: vs) s t := by
  have hdepth : s₂.store.localMembers.length = s.store.localMembers.length :=
    hdefine.depth.trans hword.depth
  have hkept : ∀ level, level ≤ s.store.localMembers.length →
      s₁.store.valueAt x level = s.store.valueAt x level := fun level hle =>
    hword.unwritten x level hle fun how => not_mem_of_unwritten hnew how level
  constructor
  · have htop := hrest.top
    rw [hdepth] at htop
    rw [htop, assignedValue]
    cases assignedValue x ps vs with
    | some w => rfl
    | none =>
      by_cases hx : p.name.text = x
      · subst hx
        rw [if_pos rfl, ← hword.depth]
        exact hvalue
      · rw [if_neg hx, ← hkept _ (Nat.le_refl _)]
        refine hdefine.unwritten x _ (Nat.le_of_eq hword.depth.symm) fun how hmem => ?_
        injection List.mem_singleton.mp hmem with _ hname
        exact hx hname.symm
  · intro level hlt
    rw [hrest.below level (hdepth ▸ hlt), ← hkept level (Nat.le_of_lt hlt)]
    refine hdefine.unwritten x level (hword.depth ▸ Nat.le_of_lt hlt) fun how hmem => ?_
    cases List.mem_singleton.mp hmem
    exact absurd (hword.depth ▸ hlt) (Nat.lt_irrefl _)

theorem timesAssigned_cons (x : String) (p : AssignmentPrefix) (ps : List AssignmentPrefix) :
    timesAssigned x (p :: ps) = timesAssigned x ps + if p.name.text = x then 1 else 0 := by
  unfold timesAssigned
  rw [List.countP_cons]
  simp only [beq_iff_eq]

/-- In a frame every prefix is defined. -/
theorem run_varDefs_prefixes {ps : List AssignmentPrefix} {vs : List String}
    (h : Assigned host n d ps s vs) (hframe : s.store.localMembers ≠ []) :
    ∃ t new, runShell host n d (Shell.varDefs host true (ps.map (·.varDef))) s =
        some (.ok (), t) ∧
      FramedBy new s t ∧ ∀ x, timesAssigned x ps ≤ new.countP (Event.writes x) ∧
        (new.countP (Event.writes x) ≤ timesAssigned x ps → PrefixesDefined x ps vs s t) := by
  induction h with
  | nil s =>
    refine ⟨s, [], rfl, .refl s, fun x => ⟨Nat.le_refl _, fun _ => ⟨?_, fun _ _ => rfl⟩⟩⟩
    rfl
  | @cons p ps s s₁ v vs hword _ ih =>
    have hevolves : Evolves false 0 s s₁ := runShell_evolves host n d 0 _ _ _ _ hword
    obtain ⟨new₁, hframed₁⟩ := hevolves.framed
    obtain ⟨frame, frames, hs₁⟩ := List.exists_cons_of_ne_nil (l := s₁.store.localMembers)
      (fun hnil => hframe (List.eq_nil_of_length_eq_zero (by rw [← hframed₁.depth, hnil]; rfl)))
    -- The word is expanded, which keeps the frame, and the variable is defined in it.
    obtain ⟨s₂, hdefine, hframed₂, hvalue⟩ :=
      @defineLocal_framed host n d s₁ frame frames hs₁ p.name.text v
    have hframe₂ : s₂.store.localMembers ≠ [] := fun hnil => by
      have hlen := hframed₂.depth
      rw [hnil, hs₁] at hlen
      cases hlen
    obtain ⟨t, new, hrun, hframed, hrest⟩ := ih s₂ hdefine hframe₂
    refine ⟨t, _, ?_, (hframed₁.trans hframed₂).trans hframed, fun x => ?_⟩
    · rw [List.map_cons, Shell.varDefs, runShell_bind, run_varDef_assignment]
      have hvarDef : (runShell host n d (Shell.optionalWord host p.word) >>= fun v =>
          runShell host n d (perform (.defineLocal p.name.text (.scalar (.str v) 0) false))) s =
            some (.ok (), s₂) := by
        rw [bind_of_ok hword, hdefine]
      rw [bind_of_ok hvarDef]
      exact hrun
    · obtain ⟨hle, hdefined⟩ := hrest x
      have hone : (Event.writes x (.wrote .define p.name.text s₁.store.localMembers.length)) =
          decide (p.name.text = x) := rfl
      rw [timesAssigned_cons, List.countP_append, List.countP_append, List.countP_singleton, hone]
      simp only [decide_eq_true_eq]
      refine ⟨by omega, fun hwritten => ?_⟩
      have hnew₁ : new₁.countP (Event.writes x) = 0 := by omega
      exact .cons hframed₁ hnew₁ hframed₂ hvalue (hdefined (by omega))

/-- Without a frame the first definition raises. -/
theorem run_varDefs_prefixes_nil {p : AssignmentPrefix} {ps : List AssignmentPrefix}
    {vs : List String} (h : Assigned host n d (p :: ps) s vs) (hframe : s.store.localMembers = []) :
    ∃ t, runShell host n d (Shell.varDefs host true ((p :: ps).map (·.varDef))) s =
      some (.error (.error .runtime "Define local variables outside function scope"), t) := by
  cases h with
  | @cons _ _ _ s₁ v vs hword _ =>
    have hevolves : Evolves false 0 s s₁ := runShell_evolves host n d 0 _ _ _ _ hword
    obtain ⟨new, hframed⟩ := hevolves.framed
    have hnil : s₁.store.localMembers = [] :=
      List.eq_nil_of_length_eq_zero (by rw [hframed.depth, hframe]; rfl)
    have hvarDef : runShell host n d (Shell.varDef host true p.varDef) s =
        some (.error (.error .runtime "Define local variables outside function scope"), s₁) := by
      rw [run_varDef_assignment, bind_of_ok hword]
      exact @performOp_defineLocal_nil host s₁ (reentry host n d) hnil p.name.text v
    refine ⟨s₁, ?_⟩
    rw [List.map_cons, Shell.varDefs, runShell_bind]
    exact bind_of_error hvarDef _

end Run

/-! ## The command -/

/-- The rest of a command, after its prefixes. -/
def prefixedCommand (host : Host) (name : String) (args : List String) (bang : Bool) :
    Shell Unit := do
  Shell.dispatch host (if name.isEmpty then ":" else name) args
  Shell.negateStatus bang

section Command

variable (host : Host) (n d : Nat) (name : String) (args : List String)
  (ps : List AssignmentPrefix) (vs : List String) (bang : Bool)

/-- The prefixes of a command that ends in `s'` have been there for it, and for it only. -/
structure PrefixesLast (s : Interpreter) (r : Except Exn Unit) (s' : Interpreter) : Prop where
  /-- The command starts where the prefixes have been defined, and sees the values that no
  word after them has written over. -/
  runs : ∃ t t', runShell host n d (Shell.varDefs host true (ps.map (·.varDef))) (s.enter name) =
      some (.ok (), t) ∧
    (∀ x v, assignedValue x ps vs = some v →
      (s.enter name).timesWritten x t ≤ timesAssigned x ps →
        t.store.resolveVariable x = some (prefixVariable x v)) ∧
    runShell host n d (prefixedCommand host name args bang) t = some (r, t')
  /-- A name that nothing but its prefixes has written means what it meant. -/
  restored : ∀ x v, assignedValue x ps vs = some v →
    s.timesWritten x s' ≤ timesAssigned x ps →
      s'.store.resolveVariable x = s.store.resolveVariable x

variable {host n d name args ps vs bang} {s s' : Interpreter} {r : Except Exn Unit}

theorem nonempty_of_assignedValue {x v : String} (h : assignedValue x ps vs = some v) :
    x.isEmpty = false := by
  induction ps generalizing vs with
  | nil => cases h
  | cons p ps ih =>
    cases vs with
    | nil => cases h
    | cons w vs =>
      rw [assignedValue] at h
      by_cases hx : p.name.text = x
      · exact hx ▸ p.name.nonempty
      · rw [if_neg hx, Option.or_none] at h
        exact ih h

/-- What the top frame binds is found. -/
theorem resolve_of_top {t : Store} {x : String} {v : Variable} (hx : x.isEmpty = false)
    (h : t.valueAt x t.localMembers.length = some v) : t.resolveVariable x = some v := by
  rw [resolve_of_nonempty hx]
  refine Bindings.resolve_eq_some_of_valueAt _ _ h fun level w hw => ?_
  exact Nat.le_trans (Bindings.level_le_of_valueAt _ _ hw) (Bindings.level_le _ _)

/-- The two parts of a command that has a frame for its prefixes. -/
theorem executeCommand_prefixes (hvalues : Assigned host n d ps (s.enter name) vs)
    (hframe : (s.enter name).store.localMembers ≠ [])
    (hrun : runShell host n d
      (Shell.executeCommand host name args (ps.map (·.varDef)) bang) s = some (r, s')) :
    ∃ t t' new new', runShell host n d (Shell.varDefs host true (ps.map (·.varDef)))
        (s.enter name) = some (.ok (), t) ∧
      runShell host n d (prefixedCommand host name args bang) t = some (r, t') ∧
      s' = t'.leave name ∧ FramedBy new (s.enter name) t ∧ FramedBy new' t t' ∧
      ∀ x, timesAssigned x ps ≤ new.countP (Event.writes x) ∧
        (new.countP (Event.writes x) ≤ timesAssigned x ps →
          PrefixesDefined x ps vs (s.enter name) t) := by
  obtain ⟨t, new, hdefs, hframed, hdefined⟩ := run_varDefs_prefixes hvalues hframe
  obtain ⟨t', hbody, rfl⟩ := inScope_cases hrun
  rw [runShell_bind, bind_of_ok hdefs] at hbody
  have hevolves : Evolves false 0 t t' := runShell_evolves host n d 0 _ _ _ _ hbody
  obtain ⟨new', hframed'⟩ := hevolves.framed
  exact ⟨t, t', new, new', hdefs, hbody, rfl, hframed, hframed', hdefined⟩

/-- In a frame of its own, or of the enclosing function, a command runs and sees the values
of its prefixes. -/
theorem runs_of_frame (hvalues : Assigned host n d ps (s.enter name) vs)
    (hframe : (s.enter name).store.localMembers ≠ [])
    (hrun : runShell host n d
      (Shell.executeCommand host name args (ps.map (·.varDef)) bang) s = some (r, s')) :
    ∃ t t', runShell host n d (Shell.varDefs host true (ps.map (·.varDef))) (s.enter name) =
        some (.ok (), t) ∧
      (∀ x v, assignedValue x ps vs = some v →
        (s.enter name).timesWritten x t ≤ timesAssigned x ps →
          t.store.resolveVariable x = some (prefixVariable x v)) ∧
      runShell host n d (prefixedCommand host name args bang) t = some (r, t') := by
  obtain ⟨t, t', new, _, hdefs, hbody, -, hframed, -, hdefined⟩ :=
    executeCommand_prefixes hvalues hframe hrun
  refine ⟨t, t', hdefs, fun x v hv hwritten => ?_, hbody⟩
  rw [timesWritten_eq hframed] at hwritten
  refine resolve_of_top (nonempty_of_assignedValue hv) ?_
  rw [hframed.depth, ((hdefined x).2 hwritten).top, hv]
  rfl

/-- What a name means at the end of a command that has not written it. -/
theorem valueAt_of_prefixes {t t' : Interpreter} {new new' : List Event} {x : String}
    (hframed : FramedBy new (s.enter name) t) (hframed' : FramedBy new' t t')
    (hdefined : timesAssigned x ps ≤ new.countP (Event.writes x) ∧
      (new.countP (Event.writes x) ≤ timesAssigned x ps →
        PrefixesDefined x ps vs (s.enter name) t))
    (hwritten : (s.enter name).timesWritten x t' ≤ timesAssigned x ps) :
    PrefixesDefined x ps vs (s.enter name) t' := by
  rw [timesWritten_eq (hframed.trans hframed'), List.countP_append] at hwritten
  have hnew' : new'.countP (Event.writes x) = 0 := by omega
  obtain ⟨htop, hbelow⟩ := hdefined.2 (by omega)
  have hkept : ∀ level, level ≤ (s.enter name).store.localMembers.length →
      t'.store.valueAt x level = t.store.valueAt x level := fun level hle =>
    hframed'.unwritten x level (hframed.depth ▸ hle) fun how => not_mem_of_unwritten hnew' how level
  refine ⟨?_, fun level hlt => ?_⟩
  · rw [hkept _ (Nat.le_refl _), htop]
  · rw [hkept level (Nat.le_of_lt hlt), hbelow level hlt]

/-- The end of its own frame takes the prefixes away. -/
theorem restored_of_scope {t' : Interpreter} {x : String} (hexempt : Shell.isExempt name = false)
    (hx : x.isEmpty = false) (hdepth : t'.store.localMembers.length =
      (s.enter name).store.localMembers.length)
    (h : PrefixesDefined x ps vs (s.enter name) t') :
    (t'.leave name).store.resolveVariable x = s.store.resolveVariable x := by
  rw [Interpreter.enter, hexempt, if_neg Bool.false_ne_true] at hdepth h
  rw [Interpreter.leave, hexempt, if_neg Bool.false_ne_true]
  have hdepth' : t'.store.localMembers.length = s.store.localMembers.length + 1 := hdepth
  refine resolve_congr hx fun level => ?_
  by_cases hle : level < s.store.localMembers.length + 1
  · have hrelease : (release .localScope t' t').store.valueAt x level = t'.store.valueAt x level :=
      valueAt_release (hdepth'.symm ▸ hle) x
    rw [hrelease, h.below level hle, valueAt_acquire]
  · have hreleased : (release .localScope t' t').store.localMembers.length =
        s.store.localMembers.length := by
      show (List.tail _).length = _
      rw [List.length_tail, hdepth', Nat.add_sub_cancel]
    have hlt : s.store.localMembers.length < level :=
      Nat.lt_of_not_le fun h => hle (Nat.lt_succ_of_le h)
    exact (Bindings.valueAt_of_lt _ _ (hreleased.trans_lt hlt)).trans
      (Bindings.valueAt_of_lt _ _ hlt).symm

theorem timesWritten_leave (x : String) (t' : Interpreter) :
    s.timesWritten x (t'.leave name) = (s.enter name).timesWritten x t' := by
  unfold Interpreter.enter Interpreter.leave
  split_ifs <;> rfl

/-- For every command and every list of prefixes. A command without a frame of its own has
to find, in a function, the values of its prefixes already there. -/
theorem prefixesLast_iff (hvalues : Assigned host n d ps (s.enter name) vs)
    (hrun : runShell host n d
      (Shell.executeCommand host name args (ps.map (·.varDef)) bang) s = some (r, s')) :
    PrefixesLast host n d name args ps vs bang s r s' ↔
      Shell.isExempt name = false ∨ ps = [] ∨ (s.store.localMembers ≠ [] ∧
        ∀ x v, assignedValue x ps vs = some v → s.timesWritten x s' ≤ timesAssigned x ps →
          s.store.resolveVariable x = some (prefixVariable x v)) := by
  by_cases hframe : (s.enter name).store.localMembers = []
  · -- no frame of its own, and none around it
    have hexempt : Shell.isExempt name = true := by
      by_contra hexempt
      rw [Interpreter.enter, if_neg hexempt] at hframe
      cases hframe
    rw [Interpreter.enter, if_pos hexempt] at hframe hvalues
    simp only [hexempt, hframe, ne_eq, not_true_eq_false, false_and, or_false, Bool.true_eq_false,
      false_or]
    cases ps with
    | nil =>
      refine ⟨fun _ => rfl, fun _ => ⟨?_, fun x v hv => nomatch hv⟩⟩
      obtain ⟨t', hbody, -⟩ := inScope_cases hrun
      exact ⟨s.enter name, t', rfl, fun x v hv => (nomatch hv), hbody⟩
    | cons p ps =>
      refine ⟨fun h => ?_, fun h => nomatch h⟩
      obtain ⟨t, -, hdefs, -⟩ := h.runs
      obtain ⟨t', herror⟩ := run_varDefs_prefixes_nil hvalues hframe
      rw [Interpreter.enter, if_pos hexempt, herror] at hdefs
      cases hdefs
  · have hruns := runs_of_frame hvalues hframe hrun
    obtain ⟨t, t', new, new', -, -, rfl, hframed, hframed', hdefined⟩ :=
      executeCommand_prefixes hvalues hframe hrun
    have hend : ∀ x, s.timesWritten x (t'.leave name) ≤ timesAssigned x ps →
        PrefixesDefined x ps vs (s.enter name) t' := fun x hwritten =>
      valueAt_of_prefixes hframed hframed' (hdefined x) (timesWritten_leave x t' ▸ hwritten)
    have hdepth := hframed'.depth.trans hframed.depth
    cases hexempt : Shell.isExempt name with
    | false =>
      refine ⟨fun _ => .inl rfl, fun _ => ⟨hruns, fun x v hv hwritten => ?_⟩⟩
      exact restored_of_scope hexempt (nonempty_of_assignedValue hv) hdepth (hend x hwritten)
    | true =>
      -- the prefixes stay in the frame that was on top
      rw [Interpreter.enter, if_pos hexempt] at hframe hdepth
      have hleft : ∀ x v, assignedValue x ps vs = some v →
          s.timesWritten x (t'.leave name) ≤ timesAssigned x ps →
            (t'.leave name).store.resolveVariable x = some (prefixVariable x v) := by
        intro x v hv hwritten
        have htop := (hend x hwritten).top
        rw [Interpreter.enter, if_pos hexempt, hv, ← hdepth] at htop
        rw [Interpreter.leave, if_pos hexempt]
        exact resolve_of_top (nonempty_of_assignedValue hv) htop
      constructor
      · intro h
        refine .inr (.inr ⟨hframe, fun x v hv hwritten => ?_⟩)
        rw [← h.restored x v hv hwritten]
        exact hleft x v hv hwritten
      · intro h
        refine ⟨hruns, fun x v hv hwritten => ?_⟩
        rw [hleft x v hv hwritten]
        rcases h with h | rfl | ⟨-, h⟩
        · cases h
        · cases hv
        · exact (h x v hv hwritten).symm

end Command

/-- The prefix `a=1`. -/
def prefixA : AssignmentPrefix := ⟨identifierA, some (.literal "1")⟩

theorem assigned_prefixA (s : Interpreter) : Assigned (.ofTexts [] []) 0 0 [prefixA] s ["1"] :=
  .cons rfl fun _ _ => .nil _

/-- `a=1 echo x`. -/
theorem prefixesLast_iff_echo :
    ∃ r s', runShell (.ofTexts [] []) 0 0 (Shell.executeCommand (.ofTexts [] []) "echo" ["x"]
        ([prefixA].map (·.varDef)) false) (.initial []) = some (r, s') ∧
      (PrefixesLast (.ofTexts [] []) 0 0 "echo" ["x"] [prefixA] ["1"] false (.initial []) r s' ↔
        Shell.isExempt "echo" = false ∨ [prefixA] = [] ∨
          ((Interpreter.initial []).store.localMembers ≠ [] ∧
            ∀ x v, assignedValue x [prefixA] ["1"] = some v →
              (Interpreter.initial []).timesWritten x s' ≤ timesAssigned x [prefixA] →
                (Interpreter.initial []).store.resolveVariable x = some (prefixVariable x v))) := by
  have hends : (runShell (.ofTexts [] []) 0 0 (Shell.executeCommand (.ofTexts [] []) "echo" ["x"]
      ([prefixA].map (·.varDef)) false) (.initial [])).isSome = true := by decide +kernel
  obtain ⟨⟨r, s'⟩, hrun⟩ := Option.isSome_iff_exists.mp hends
  exact ⟨r, s', hrun, prefixesLast_iff (assigned_prefixA _) hrun⟩

/-- `a=1 eval x`, outside of functions. -/
theorem not_prefixesLast_eval :
    ∃ r s', runShell (.ofTexts [] []) 0 0 (Shell.executeCommand (.ofTexts [] []) "eval" ["x"]
        ([prefixA].map (·.varDef)) false) (.initial []) = some (r, s') ∧
      ¬PrefixesLast (.ofTexts [] []) 0 0 "eval" ["x"] [prefixA] ["1"] false (.initial []) r s' := by
  have hends : (runShell (.ofTexts [] []) 0 0 (Shell.executeCommand (.ofTexts [] []) "eval" ["x"]
      ([prefixA].map (·.varDef)) false) (.initial [])).isSome = true := by decide +kernel
  obtain ⟨⟨r, s'⟩, hrun⟩ := Option.isSome_iff_exists.mp hends
  refine ⟨r, s', hrun, fun h => ?_⟩
  obtain ⟨t, -, hdefs, -⟩ := h.runs
  obtain ⟨t', herror⟩ := run_varDefs_prefixes_nil (assigned_prefixA (.initial [])) rfl
  have henter : (Interpreter.initial []).enter "eval" = .initial [] := if_pos (by decide)
  rw [henter, herror] at hdefs
  cases hdefs

end Libbash
