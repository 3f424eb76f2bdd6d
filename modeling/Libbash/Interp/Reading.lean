import Libbash.Interp.Api

/-!
# Reading parameters and words

What `resolve<std::string>` gives: the value of a parameter that is set, and for
one that is not either the empty text or, under the option `u`, an error. None of
them changes the state. A word of a single part has the value of that part.
-/

namespace Libbash

open Lib Lib.Comp Lib.Program

/-- The value that resolving a name and an index finds. -/
def Store.parameter (t : Store) (name : String) (index : UInt32) : Option String :=
  (t.resolveVariable name).bind fun v => v.value[index]?.map Value.toStr

/-- The option `u`. -/
def Interpreter.nounset (s : Interpreter) : Bool := s.options.value['u']?.getD false

/-- Resolving the parameter raises no error. -/
def Interpreter.Bound (s : Interpreter) (name : String) (index : UInt32) : Prop :=
  s.nounset = true → (s.store.parameter name index).isSome = true

theorem performOp_tick {host : Host} {re : Reentry} {s : Interpreter} (hbudget : s.budget ≠ some 0) :
    performOp host re .tick s = some (.ok (), { s with budget := s.budget.map (· - 1) }) := by
  rw [performOp, reads_bind_apply]
  cases hb : s.budget with
  | none =>
    show some (Except.ok (), s) = _
    rw [Option.map_none, ← hb]
  | some k =>
    cases k with
    | zero => exact absurd hb hbudget
    | succ k => rfl

/-- A step that is not the last one of the budget. -/
theorem performOp_tick_ok {host : Host} {re : Reentry} {s s' : Interpreter}
    (h : performOp host re .tick s = some (.ok (), s')) :
    s' = { s with budget := s.budget.map (· - 1) } := by
  by_cases hbudget : s.budget = some 0
  · rw [performOp, reads_bind_apply, hbudget] at h
    cases h
  · rw [performOp_tick hbudget] at h
    cases h
    rfl

section Resolve

variable {host : Host} {n d : Nat} {name : String} {index : UInt32} {s : Interpreter}

theorem performOp_getOption_u {re : Reentry} :
    performOp host re (.getOption 'u') s = some (.ok s.nounset, s) := by
  obtain ⟨u, hu⟩ := Option.isSome_iff_exists.mp (s.options.known 'u' (by decide))
  rw [performOp, reads_bind_apply, Interpreter.nounset, hu]
  rfl

theorem parameter_of_resolve {t : Store} {v : Variable} (h : t.resolveVariable name = some v) :
    t.parameter name index = v.value[index]?.map Value.toStr := by
  rw [Store.parameter, h, Option.bind_some]

theorem getValueString_eq (v : Variable) (index : UInt32) :
    v.getValueString index = (v.value[index]?.map Value.toStr).getD "" := by
  unfold Variable.getValueString
  cases v.value[index]? with
  | none => rfl
  | some value => rfl

theorem isUnset_eq (v : Variable) (index : UInt32) :
    v.isUnset index = !(v.value[index]?.map Value.toStr).isSome := by
  unfold Variable.isUnset
  rw [Option.isSome_map, Option.not_isSome]

theorem run_isValid_none :
    runShell host n d (Shell.isValid none name) s =
      if s.nounset then some (.error (.error .unsupported (name ++ ": unbound variable")), s)
      else some (.ok false, s) := by
  rw [Shell.isValid, runShell_bind, runShell_perform, bind_of_ok performOp_getOption_u]
  cases s.nounset <;> rfl

/-- What follows is run when unset parameters may be read. -/
theorem bind_isValid_none {α : Type} (k : Bool → Comp Exn Interpreter α) :
    (runShell host n d (Shell.isValid none name) >>= k) s =
      if s.nounset then some (.error (.error .unsupported (name ++ ": unbound variable")), s)
      else k false s := by
  by_cases hu : s.nounset = true
  · rw [if_pos hu, bind_of_error (by rw [run_isValid_none, if_pos hu])]
  · rw [if_neg hu, bind_of_ok (by rw [run_isValid_none, if_neg hu])]

/-- The three outcomes in one equation. -/
theorem run_resolveString :
    runShell host n d (Shell.resolveString name index) s =
      if s.nounset && !(s.store.parameter name index).isSome then
        some (.error (.error .unsupported
          ((if (s.store.resolveVariable name).isSome then Shell.elementText name index else name) ++
            ": unbound variable")), s)
      else some (.ok ((s.store.parameter name index).getD ""), s) := by
  have hresolve : performOp host (reentry host n d) (.resolveVariable name) s =
      some (.ok (s.store.resolveVariable name), s) := by
    rw [performOp, reads_apply]
  rw [Shell.resolveString, Shell.resolve, runShell_bind, runShell_perform, bind_of_ok hresolve]
  cases hv : s.store.resolveVariable name with
  | none =>
    have hparam : s.store.parameter name index = none := by rw [Store.parameter, hv, Option.bind_none]
    rw [hparam, Option.isSome_none, Bool.not_false, Bool.and_true]
    exact bind_isValid_none _
  | some v =>
    simp only [runShell_bind, runShell_perform]
    rw [bind_of_ok performOp_getOption_u, parameter_of_resolve hv, isUnset_eq, getValueString_eq]
    cases s.nounset && !(v.value[index]?.map Value.toStr).isSome <;> rfl

theorem run_resolveString_of_bound (h : s.Bound name index) :
    runShell host n d (Shell.resolveString name index) s =
      some (.ok ((s.store.parameter name index).getD ""), s) := by
  have hbound : (s.nounset && !(s.store.parameter name index).isSome) = false := by
    cases hu : s.nounset with
    | false => rfl
    | true => rw [h hu]; rfl
  rw [run_resolveString, hbound, if_neg Bool.false_ne_true]

/-- A parameter that is set is resolved to its value, with and without the
option `u`. -/
theorem run_resolveString_of_set {value : String}
    (h : s.store.parameter name index = some value) :
    runShell host n d (Shell.resolveString name index) s = some (.ok value, s) := by
  have hbound : s.Bound name index := fun _ => by rw [h]; rfl
  rw [run_resolveString_of_bound hbound, h]
  rfl

theorem run_resolveString_of_unbound (host : Host) (n d : Nat) (h : ¬s.Bound name index) :
    ∃ e, runShell host n d (Shell.resolveString name index) s = some (.error e, s) := by
  have hbound : (s.nounset && !(s.store.parameter name index).isSome) = true := by
    unfold Interpreter.Bound at h
    obtain ⟨hu, hp⟩ := Classical.not_imp.mp h
    rw [hu, Bool.not_eq_true _ |>.mp hp]
    rfl
  rw [run_resolveString, hbound, if_pos rfl]
  exact ⟨_, rfl⟩

end Resolve

/-! ## Arrays -/

/-- The text that joins the elements of an array. -/
def Interpreter.delimiter (s : Interpreter) : String :=
  String.ofList (((s.store.parameter "IFS" 0).getD "").toList.take 1)

section Arrays

variable {host : Host} {n d : Nat} {name : String} {s : Interpreter}

theorem run_joiner_of_bound (h : s.Bound "IFS" 0) :
    runShell host n d Shell.joiner s = some (.ok s.delimiter, s) := by
  unfold Shell.joiner
  rw [runShell_bind, bind_of_ok (run_resolveString_of_bound h)]
  rfl

theorem run_joiner_of_unbound (host : Host) (n d : Nat) (h : ¬s.Bound "IFS" 0) :
    ∃ e, runShell host n d Shell.joiner s = some (.error e, s) := by
  obtain ⟨e, he⟩ := run_resolveString_of_unbound host n d h
  unfold Shell.joiner
  rw [runShell_bind]
  exact ⟨e, bind_of_error he _⟩

theorem run_resolveArray {v : Variable} (h : s.store.resolveVariable name = some v) :
    runShell host n d (Shell.resolveArray name) s = some (.ok (some v.getAllValues), s) := by
  have hresolve : performOp host (reentry host n d) (.resolveVariable name) s =
      some (.ok (some v), s) := by
    rw [performOp, reads_apply, h]
  unfold Shell.resolveArray
  rw [runShell_bind, runShell_perform, bind_of_ok hresolve]
  rfl

theorem run_resolveArray_none (h : s.store.resolveVariable name = none) :
    runShell host n d (Shell.resolveArray name) s =
      if s.nounset then some (.error (.error .unsupported (name ++ ": unbound variable")), s)
      else some (.ok none, s) := by
  have hresolve : performOp host (reentry host n d) (.resolveVariable name) s =
      some (.ok none, s) := by
    rw [performOp, reads_apply, h]
  unfold Shell.resolveArray
  rw [runShell_bind, runShell_perform, bind_of_ok hresolve]
  exact bind_isValid_none _

end Arrays

/-! ## Words of one part -/

section Words

variable {host : Host} {n d : Nat} {s s' : Interpreter}

theorem run_singlePart {p : StringPart} {v : PartValue}
    (h : runShell host n d (Shell.stringPart host p) s = some (.ok v, s')) :
    runShell host n d (Shell.stringExpr host (.string [.part p])) s =
      some (.ok ⟨v.value, v.quoted⟩, s') := by
  have hparts : runShell host n d (Shell.wordParts host {} [.part p]) s =
      some (.ok (({} : StringState).addPart v), s') := by
    rw [Shell.wordParts, runShell_bind, bind_of_ok h, Shell.wordParts]
    rfl
  have hfinish : (({} : StringState).addPart v).finish = pure ⟨v.value, v.quoted⟩ := by
    simp [StringState.finish, StringState.addPart]
  rw [Shell.stringExpr, runShell_bind, bind_of_ok hparts, hfinish]
  rfl

theorem run_singlePart_error {p : StringPart} {e : Exn}
    (h : runShell host n d (Shell.stringPart host p) s = some (.error e, s')) :
    runShell host n d (Shell.stringExpr host (.string [.part p])) s = some (.error e, s') := by
  rw [Shell.stringExpr, runShell_bind, Shell.wordParts, runShell_bind]
  exact bind_of_error (bind_of_error h _) _

theorem run_quotedPart {v : VarRef} {text : String}
    (h : runShell host n d (Shell.varRef host v) s = some (.ok text, s')) :
    runShell host n d (Shell.stringPart host (.doubleQuoted [.varRef v])) s =
      some (.ok { value := text, quoted := true }, s') := by
  rw [Shell.stringPart, Shell.quotedParts, runShell_bind, Shell.doubleQuotedString, bind_of_ok h,
    Shell.quotedParts, String.empty_append]
  rfl

theorem run_quotedPart_error {v : VarRef} {e : Exn}
    (h : runShell host n d (Shell.varRef host v) s = some (.error e, s')) :
    runShell host n d (Shell.stringPart host (.doubleQuoted [.varRef v])) s =
      some (.error e, s') := by
  rw [Shell.stringPart, Shell.quotedParts, runShell_bind, Shell.doubleQuotedString]
  exact bind_of_error h _

theorem run_literalWord (text : String) :
    runShell host n d (Shell.stringExpr host (.literal text)) s = some (.ok ⟨text, false⟩, s) := by
  have hpart : runShell host n d (Shell.stringPart host (.text text)) s =
      some (.ok { value := text }, s) := rfl
  exact run_singlePart hpart

end Words

/-! ## Trees -/

section Trees

variable {host : Host} {n d : Nat} {s s' : Interpreter}

/-- A tree that is alive is walked. -/
theorem interpretWith_of_body {α : Type} {a : AstId} {t : Tree}
    {walk : Tree → Comp Exn Interpreter α} {r : Except Exn α} {s₁ : Interpreter}
    (ht : ({ s with astStack := a :: s.astStack } : Interpreter).tree a = some t)
    (hwalk : walk t { s with astStack := a :: s.astStack } = some (r, s₁)) :
    interpretWith a walk s = some (r, { s₁ with astStack := s₁.astStack.tail }) := by
  unfold interpretWith
  refine bracket_of_body ?_
  rw [reads_bind_apply, id, ht]
  exact hwalk

/-- A text that is parsed to a script is walked and forgotten. -/
theorem performOp_interpretScript {re : Reentry} {rule : ParserRule} {source : String}
    {main : CommandList shell} {bodies : List (Compound shell)} {r : Except Exn Unit}
    (hparse : host.parse rule (readScript true source) = .ok (.script main bodies))
    (hlive : s.asts.length ∉ s.destroyed)
    (hlist : re.list s.asts.length main
      { s with
        asts := s.asts ++ [.script main bodies]
        astStack := s.asts.length :: s.astStack } = some (r, s')) :
    performOp host re (.interpretScript rule source) s =
      some (r, Interpreter.destroy s.asts.length { s' with astStack := s'.astStack.tail }) := by
  have hnew : constructAst host rule (readScript true source) s =
      some (.ok s.asts.length, { s with asts := s.asts ++ [.script main bodies] }) := by
    unfold constructAst
    rw [hparse]
    rfl
  have htree : ({ s with
      asts := s.asts ++ [.script main bodies]
      astStack := s.asts.length :: s.astStack } : Interpreter).tree s.asts.length =
        some (.script main bodies) := by
    rw [Interpreter.tree, if_neg hlive]
    exact List.getElem?_concat_length
  rw [performOp, interpretTemporary, bind_of_ok hnew]
  exact bracket_of_body (interpretWith_of_body htree hlist)

/-- A list that is one command of variable definitions. -/
theorem list_variableDefinitions {a : AstId} {isLocal : Bool} {defs : List VarDef}
    {r : Except Exn Unit} (hbudget : s.budget ≠ some 0)
    (hdefs : runShell host n d (Shell.varDefs host isLocal defs)
      { s with budget := s.budget.map (· - 1) } = some (r, s')) :
    (reentry host n (d + 1)).list a (.ofSimple (.variableDefinitions isLocal defs) []) s =
      some (r, { s' with streams := s.streams }) := by
  have hstep : walkStep host (reentry host n d) (Shell.varDefs host isLocal defs) s =
      some (r, s') := by
    show (performOp host (reentry host n d) .tick >>= fun _ => runShell host n d _) s = _
    rw [bind_of_ok (performOp_tick hbudget), hdefs]
  show withStreams (leafSem host (reentry host n d) a)
    (walkStep host (reentry host n d) (Shell.varDefs host isLocal defs)) s = _
  exact bracket_of_body hstep

end Trees

end Libbash
