import Libbash.Arith.Operators

/-!
# What the arithmetic rules do on each node

`Follows` places a rule beside the computation it carries out, from a position
in the stream to another. For every node that the rule `arithmetic` has an
alternative for, a lemma turns what `arithmetics` does on the operands into
what it does on the node.
-/

namespace Libbash

open Lib Lib.Comp

section Follows

variable {S α β : Type} {i j k : Nat} {w w' : Walk S α} {m : Comp Exn S α}

/-- Where `m` ends, the rule `w` from `i` on ends the same way, and at `j` when
the end is a normal one. -/
def Follows (i j : Nat) (w : Walk S α) (m : Comp Exn S α) : Prop :=
  ∀ s r t, m s = some (r, t) → ∃ p, w ⟨i, s⟩ = some (r, ⟨p, t⟩) ∧ ∀ a, r = .ok a → p = j

theorem Follows.finishes (h : Follows i j w m) {s t : S} {a : α} (hm : m s = some (.ok a, t)) :
    w ⟨i, s⟩ = some (.ok a, ⟨j, t⟩) := by
  obtain ⟨p, hw, hp⟩ := h s _ t hm
  rw [hw, hp a rfl]

theorem Follows.raises (h : Follows i j w m) {s t : S} {e : Exn} (hm : m s = some (.error e, t)) :
    ∃ p, w ⟨i, s⟩ = some (.error e, ⟨p, t⟩) := by
  obtain ⟨p, hw, -⟩ := h s _ t hm
  exact ⟨p, hw⟩

theorem Follows.intro
    (hok : ∀ s a t, m s = some (.ok a, t) → w ⟨i, s⟩ = some (.ok a, ⟨j, t⟩))
    (herr : ∀ s e t, m s = some (.error e, t) → ∃ p, w ⟨i, s⟩ = some (.error e, ⟨p, t⟩)) :
    Follows i j w m := by
  intro s r t hm
  cases r with
  | ok a => exact ⟨j, hok s a t hm, fun _ _ => rfl⟩
  | error e =>
    obtain ⟨p, hw⟩ := herr s e t hm
    exact ⟨p, hw, fun _ h => nomatch h⟩

theorem Follows.to (h : Follows i j w m) (hj : j = k) : Follows i k w m := hj ▸ h

theorem Follows.congr (h : Follows i j w m) (hw : ∀ s, w' ⟨i, s⟩ = w ⟨i, s⟩) :
    Follows i j w' m := by
  intro s r t hm
  rw [hw]
  exact h s r t hm

/-- A rule follows every computation that has fewer outcomes. -/
theorem Follows.weaken {m' : Comp Exn S α} (h : Follows i j w m)
    (hm : ∀ s r t, m' s = some (r, t) → m s = some (r, t)) : Follows i j w m' :=
  fun s r t hs => h s r t (hm s r t hs)

theorem follows_pure_iff {a : α} :
    Follows i j w (pure a) ↔ ∀ s, w ⟨i, s⟩ = some (.ok a, ⟨j, s⟩) := by
  constructor
  · intro h s
    exact h.finishes rfl
  · intro h
    refine Follows.intro ?_ ?_
    · rintro s b t hm
      cases hm
      exact h s
    · rintro s e t hm
      cases hm

theorem follows_action (m : Comp Exn S α) : Follows i i (action m) m := by
  intro s r t hm
  exact ⟨i, by simp [action, hm], fun _ _ => rfl⟩

theorem follows_bind {f : α → Walk S β} {g : α → Comp Exn S β} (h : Follows i j w m)
    (hk : ∀ a s t, m s = some (.ok a, t) → Follows j k (f a) (g a)) :
    Follows i k (w >>= f) (m >>= g) := by
  intro s r t hm
  rcases bind_cases hm with ⟨a, s₁, h₁, h₂⟩ | ⟨e, h₁, rfl⟩
  · rw [bind_of_ok (h.finishes h₁)]
    exact hk a s s₁ h₁ s₁ r t h₂
  · obtain ⟨p, hw⟩ := h.raises h₁
    exact ⟨p, bind_of_error hw f, fun _ h => nomatch h⟩

/-- A step of the walker alone. -/
theorem follows_step {f : α → Walk S β} {m : Comp Exn S β} (a : α)
    (hw : ∀ s, w ⟨i, s⟩ = some (.ok a, ⟨j, s⟩)) (hk : Follows j k (f a) m) :
    Follows i k (w >>= f) m := by
  intro s r t hm
  rw [bind_of_ok (hw s)]
  exact hk s r t hm

theorem follows_ret (a : α) : Follows (S := S) i i (pure a) (pure a) :=
  follows_pure_iff.mpr fun _ => rfl

/-! ### In one state -/

/-- A rule has ended like a computation, and at `j` when the end is a normal one;
or neither has ended. -/
def Lands (j : Nat) (out : Option (Except Exn α × Cursor S)) (res : Option (Except Exn α × S)) :
    Prop :=
  out.map (Prod.map id Cursor.inner) = res ∧ ∀ a c, out = some (.ok a, c) → c.index = j

theorem lands_bind {f : α → Walk S β} {g : α → Comp Exn S β} {c : Cursor S} {s : S}
    (h : Lands j (w c) (m s)) (hk : ∀ a t, m s = some (.ok a, t) → Lands k (f a ⟨j, t⟩) (g a t)) :
    Lands k ((w >>= f) c) ((m >>= g) s) := by
  obtain ⟨hout, hindex⟩ := h
  cases hw : w c with
  | none =>
    rw [hw] at hout
    rw [bind_of_none hw, bind_of_none hout.symm]
    exact ⟨rfl, fun _ _ h => nomatch h⟩
  | some out =>
    obtain ⟨r, p, t⟩ := out
    rw [hw] at hout
    cases r with
    | error e =>
      rw [bind_of_error hw, bind_of_error hout.symm]
      exact ⟨rfl, fun _ _ h => nomatch h⟩
    | ok a =>
      obtain rfl : p = j := hindex a _ hw
      rw [bind_of_ok hw, bind_of_ok hout.symm]
      exact hk a t hout.symm

theorem lands_action (m : Comp Exn S α) (s : S) : Lands i (action m ⟨i, s⟩) (m s) := by
  unfold action
  cases hm : m s with
  | none => exact ⟨rfl, fun _ _ h => nomatch h⟩
  | some out =>
    obtain ⟨r, t⟩ := out
    refine ⟨rfl, fun a c h => ?_⟩
    cases h
    rfl

theorem lands_ret (a : α) (s : S) :
    Lands i ((pure a : Walk S α) ⟨i, s⟩) ((pure a : Comp Exn S α) s) :=
  ⟨rfl, fun _ _ h => by cases h; rfl⟩

/-- A computation that ends is followed to its end. -/
theorem Follows.lands (h : Follows i j w m) {s : S} (hends : m s ≠ none) :
    Lands j (w ⟨i, s⟩) (m s) := by
  cases hm : m s with
  | none => exact absurd hm hends
  | some out =>
    obtain ⟨r, t⟩ := out
    obtain ⟨p, hw, hp⟩ := h s r t hm
    rw [hw]
    refine ⟨rfl, fun a c heq => ?_⟩
    cases heq
    exact hp a rfl

end Follows

section Steps

variable {S β : Type} {toks : NodeStream} {i j : Nat} {rest : NodeStream} {m : Comp Exn S β}

/-- The children of a node, and the `UP` after them. -/
theorem OnTree.children {t : Token} {cs : List AstNode} (hcs : cs ≠ [])
    (h : OnTree toks i ((NodeTree.node t cs).stream ++ rest)) :
    OnTree toks (i + 2) (forestStream cs ++ .up :: rest) := by
  rw [stream_node hcs] at h
  simp only [List.cons_append, List.append_assoc, List.nil_append] at h
  exact h.tail.tail

theorem OnTree.root {t : AstNode} (h : OnTree toks i (t.stream ++ rest)) :
    OnTree toks i (.tok t.label :: (enclose (forestStream t.children) ++ rest)) := by
  rwa [stream_eq_cons, List.cons_append] at h

theorem follows_open {ty : TokenType} {cs : List AstNode} {f : Walk S β} (hcs : cs ≠ [])
    (h : OnTree toks i ((astNode ty cs).stream ++ rest))
    (hk : OnTree toks (i + 2) (forestStream cs ++ .up :: rest) → Follows (i + 2) j f m) :
    Follows i j (matchToken toks ty >>= fun _ => matchDown toks >>= fun _ => f) m := by
  have hkids := h.children hcs
  rw [stream_node hcs] at h
  exact follows_step _ (fun s => matchToken_step s h)
    (follows_step () (fun s => matchDown_step s h.tail) (hk hkids))

theorem follows_up {f : Unit → Walk S β} (h : OnTree toks i (.up :: rest))
    (hk : Follows (i + 1) j (f ()) m) : Follows i j (matchUp toks >>= f) m :=
  follows_step () (fun s => matchUp_step s h) hk

/-- `skip_next_token_or_tree` passes the tree at the cursor. -/
theorem skipNextTokenOrTree_step {t : AstNode} (s : S) (h : OnTree toks i (t.stream ++ rest))
    (hrest : NoDown rest) :
    skipNextTokenOrTree toks ⟨i, s⟩ =
      some (.ok (), (⟨i + t.stream.length, s⟩ : Cursor S)) := by
  obtain ⟨t, cs⟩ := t
  unfold skipNextTokenOrTree
  rw [bind_of_ok (la_step s h 1)]
  by_cases hcs : cs = []
  · subst hcs
    rw [stream_leaf] at h ⊢
    have hnext : ([Sym.tok t] ++ rest)[1]? ≠ some .down := by
      cases rest with
      | nil => simp
      | cons x rest => simpa [NoDown] using hrest
    rw [if_pos hnext, bind_of_ok (index_step s)]
    rfl
  · have hnext : ((NodeTree.node t cs).stream ++ rest)[1]? = some .down := by
      rw [stream_node hcs]
      rfl
    rw [if_neg (not_not.mpr hnext)]
    exact seekToNextTree_step s hcs h

end Steps

namespace Arith

variable {env : ArithEnv} {toks : NodeStream} {arith : Walk Store Int64}
variable {evalArith : String → Comp Exn Store Int64} {i j : Nat} {rest : NodeStream}

/-! ## Names -/

/-- The node of a variable name. -/
abbrev nameNode (x : String) : AstNode := .node (nameToken x) []

/-- A variable as an operand. -/
abbrev varNode (x : String) : AstNode := astNode .varRef [nameNode x]

theorem name_step {x : String} (s : Store) (h : OnTree toks i (.tok (nameToken x) :: rest))
    (hrest : NoDown rest) :
    name toks arith ⟨i, s⟩ = some (.ok (x, 0), (⟨i + 1, s⟩ : Cursor Store)) := by
  unfold name
  rw [bind_of_ok (la_step s h 1)]
  have hnext : (Sym.tok (nameToken x) :: rest)[1]? ≠ some .down := by
    cases rest with
    | nil => simp
    | cons y rest => simpa [NoDown] using hrest
  rw [if_neg hnext, bind_of_ok (nameBase_step s h)]
  rfl

/-- The target of an assignment. -/
theorem primary_name_step {x : String} (s : Store)
    (h : OnTree toks i (.tok (nameToken x) :: rest)) (hrest : NoDown rest) :
    primary env toks arith ⟨i, s⟩ = some (.ok (x, 0), (⟨i + 1, s⟩ : Cursor Store)) := by
  unfold primary
  rw [bind_of_ok (laType_step s h 0)]
  simp only [List.getElem?_cons_zero]
  rcases nameToken_isName x with hx | hx | hx
  all_goals
    rw [hx]
    exact name_step s h hrest

/-- A variable that is read. -/
theorem primary_var_step {x : String} (s : Store)
    (h : OnTree toks i ((varNode x).stream ++ rest)) :
    primary env toks arith ⟨i, s⟩ =
      some (.ok (x, 0), (⟨i + (varNode x).stream.length, s⟩ : Cursor Store)) := by
  have hstream : (varNode x).stream ++ rest =
      .tok ⟨.varRef, ""⟩ :: .down :: .tok (nameToken x) :: .up :: rest := by
    rw [stream_node (List.cons_ne_nil _ _)]
    simp
  rw [hstream] at h
  have hlen : (varNode x).stream.length = 4 := by
    rw [length_stream_node (List.cons_ne_nil _ _)]
    simp
  have hinside : (nameToken x).type ≠ .varRef := by
    rcases nameToken_isName x with hx | hx | hx <;> simp [hx]
  unfold primary
  rw [bind_of_ok (laType_step s h 0)]
  simp only [List.getElem?_cons_zero]
  rw [bind_of_ok (laType_step s h 2)]
  simp only [List.getElem?_cons_succ, List.getElem?_cons_zero]
  rw [bind_of_ok (matchToken_step s h), bind_of_ok (matchDown_step s h.tail),
    if_neg (by simpa using hinside),
    bind_of_ok (name_step s h.tail.tail (noDown_up rest)),
    bind_of_ok (matchUp_step s h.tail.tail.tail), hlen]
  rfl

/-! ## Dispatch -/

/-- What the next type is not. -/
theorem laIs_step_of_ne {t : AstNode} {ty : TokenType} (s : Store)
    (h : OnTree toks i (t.stream ++ rest)) (ht : t.label.type ≠ ty) :
    laIs toks ty ⟨i, s⟩ = some (.ok false, (⟨i, s⟩ : Cursor Store)) := by
  have hla : laType toks 1 ⟨i, s⟩ = some (.ok (some t.label.type), (⟨i, s⟩ : Cursor Store)) :=
    laType_step s h.root 0
  unfold laIs
  rw [bind_of_ok hla]
  simp only [Option.some.injEq, ht, beq_eq_false_iff_ne.mpr, ne_eq, not_false_eq_true]
  rfl

/-- On a node that is not `ARITHMETIC`, `arithmetics` is the alternative for
that node. -/
theorem arithmetics_eq_alternative {d : Nat} {t : AstNode} (s : Store)
    (h : OnTree toks i (t.stream ++ rest)) (ht : t.label.type ≠ .arithmetic) :
    arithmetics env (d + 1) toks ⟨i, s⟩ =
      alternative env toks (arithmetics env d toks) (evalArithmetic env d) (some t.label.type)
        ⟨i, s⟩ := by
  have hla : laType toks 1 ⟨i, s⟩ = some (.ok (some t.label.type), (⟨i, s⟩ : Cursor Store)) :=
    laType_step s h.root 0
  rw [arithmetics, arithmeticsRule, bind_of_ok (laIs_step_of_ne s h ht)]
  show (laType toks 1 >>= _) _ = _
  rw [bind_of_ok hla]
  rfl

theorem follows_arithmetics {d : Nat} {t : AstNode} {m : Comp Exn Store Int64}
    (h : OnTree toks i (t.stream ++ rest)) (ht : t.label.type ≠ .arithmetic)
    (hw : Follows i j (alternative env toks (arithmetics env d toks) (evalArithmetic env d)
      (some t.label.type)) m) :
    Follows i j (arithmetics env (d + 1) toks) m :=
  hw.congr fun s => arithmetics_eq_alternative s h ht

section Alternatives

variable (env toks arith evalArith)

theorem alternative_unary (op : UnaryOp) :
    alternative env toks arith evalArith (some op.type) =
      unaryNode toks arith op.type op.act := by
  cases op <;> rfl

theorem alternative_binary (op : BinaryOp) :
    alternative env toks arith evalArith (some op.type) =
      binaryNode toks arith op.type op.act := by
  cases op <;> rfl

theorem alternative_logic (op : LogicOp) :
    alternative env toks arith evalArith (some op.type) =
      logicNode toks arith op.type op.short op.shortValue := by
  cases op <;> rfl

theorem alternative_assign (op : AssignOp) :
    alternative env toks arith evalArith (some op.type) =
      assignNode env toks arith op.type op.binary.act := by
  cases op <;> rfl

end Alternatives

/-! ## Operands -/

theorem literal_follows (l : Literal)
    (h : OnTree toks i (l.node.stream ++ rest)) :
    Follows i (i + l.node.stream.length)
      (alternative env toks arith evalArith (some l.token.type))
      (pure (parseInteger env l.token)) := by
  have hread : ∀ s : Store, (matchToken toks l.token.type >>= fun t => pure (parseInteger env t))
      ⟨i, s⟩ = some (.ok (parseInteger env l.token), ⟨i + l.node.stream.length, s⟩) := by
    intro s
    have hroot : OnTree toks i (.tok l.token :: rest) := by
      rwa [Literal.node, stream_leaf] at h
    rw [bind_of_ok (matchToken_step s hroot)]
    simp only [Literal.node, stream_leaf, List.length_singleton]
    rfl
  refine follows_pure_iff.mpr fun s => ?_
  rcases l.token_type with ht | ht
  all_goals
    have := hread s
    rw [ht] at this ⊢
    exact this

theorem unaryNode_follows {ty : TokenType} {f : Int64 → Int64} {cs : List AstNode}
    {m : Comp Exn Store Int64} (hcs : cs ≠ [])
    (h : OnTree toks i ((astNode ty cs).stream ++ rest))
    (hl : OnTree toks (i + 2) (forestStream cs ++ .up :: rest) →
      Follows (i + 2) (i + 2 + (forestStream cs).length) arith m) :
    Follows i (i + (astNode ty cs).stream.length) (unaryNode toks arith ty f)
      (m >>= fun l => pure (f l)) := by
  rw [length_stream_node hcs]
  refine follows_open hcs h fun hkids => ?_
  refine follows_bind (hl hkids) fun l _ _ _ => ?_
  exact follows_up hkids.advance ((follows_ret _).to (by omega))

variable {ty : TokenType} {ls rs : List AstNode} {ml mr : Comp Exn Store Int64}

/-- The two operands of a node, one after the other. -/
theorem OnTree.operands (h : OnTree toks i (forestStream (ls ++ rs) ++ rest)) :
    OnTree toks i (forestStream ls ++ (forestStream rs ++ rest)) := by
  rwa [forestStream_append, List.append_assoc] at h

theorem binaryNode_follows {f : Int64 → Int64 → Comp Exn Store Int64} (hls : ls ≠ [])
    (h : OnTree toks i ((astNode ty (ls ++ rs)).stream ++ rest))
    (hl : OnTree toks (i + 2) (forestStream ls ++ (forestStream rs ++ .up :: rest)) →
      Follows (i + 2) (i + 2 + (forestStream ls).length) arith ml)
    (hr : OnTree toks (i + 2 + (forestStream ls).length) (forestStream rs ++ .up :: rest) →
      Follows (i + 2 + (forestStream ls).length)
        (i + 2 + (forestStream ls).length + (forestStream rs).length) arith mr) :
    Follows i (i + (astNode ty (ls ++ rs)).stream.length) (binaryNode toks arith ty f)
      (ml >>= fun l => mr >>= fun r => f l r) := by
  have hcs : ls ++ rs ≠ [] := by simp [hls]
  rw [length_stream_node hcs, forestStream_append, List.length_append]
  refine follows_open hcs h fun hkids => ?_
  have hops := OnTree.operands hkids
  refine follows_bind (hl hops) fun l _ _ _ => ?_
  refine follows_bind (hr hops.advance) fun r _ _ _ => ?_
  exact follows_up hops.advance.advance ((follows_action _).to (by omega))

/-- `skip_next_token_or_tree` when the left value settles the result: the right
operand has to be one node. -/
theorem logicRight_short {t : AstNode} {v : Int64} (h : OnTree toks i (t.stream ++ rest))
    (hrest : NoDown rest) :
    Follows i (i + t.stream.length) (logicRight toks arith true v) (pure v) :=
  follows_step () (fun s => skipNextTokenOrTree_step s h hrest) (follows_ret v)

theorem logicRight_long {v : Int64} {m : Comp Exn Store Int64} (h : Follows i j arith m) :
    Follows i j (logicRight toks arith false v) (m >>= fun r => pure (ofBool (r != 0))) :=
  follows_bind h fun _ _ _ _ => follows_ret _

theorem logicNode_follows {short : Int64 → Bool} {value : Int64} {g : Int64 → Comp Exn Store Int64}
    (hls : ls ≠ []) (h : OnTree toks i ((astNode ty (ls ++ rs)).stream ++ rest))
    (hl : OnTree toks (i + 2) (forestStream ls ++ (forestStream rs ++ .up :: rest)) →
      Follows (i + 2) (i + 2 + (forestStream ls).length) arith ml)
    (hr : OnTree toks (i + 2 + (forestStream ls).length) (forestStream rs ++ .up :: rest) →
      ∀ l s t, ml s = some (.ok l, t) → Follows (i + 2 + (forestStream ls).length)
        (i + 2 + (forestStream ls).length + (forestStream rs).length)
        (logicRight toks arith (short l) value) (g l)) :
    Follows i (i + (astNode ty (ls ++ rs)).stream.length) (logicNode toks arith ty short value)
      (ml >>= g) := by
  have hcs : ls ++ rs ≠ [] := by simp [hls]
  rw [length_stream_node hcs, forestStream_append, List.length_append]
  refine follows_open hcs h fun hkids => ?_
  have hops := OnTree.operands hkids
  refine follows_bind (hl hops) fun l s t hls => ?_
  rw [← bind_pure (g l)]
  refine follows_bind (hr hops.advance l s t hls) fun r _ _ _ => ?_
  exact follows_up hops.advance.advance ((follows_ret r).to (by omega))

/-- The condition and both branches are walked. -/
theorem conditionNode_follows {cs ts fs : List AstNode} {mc mt mf : Comp Exn Store Int64}
    (hcs : cs ≠ []) (h : OnTree toks i ((astNode .arithmeticCondition (cs ++ (ts ++ fs))).stream ++
      rest))
    (hc : OnTree toks (i + 2) (forestStream cs ++ (forestStream (ts ++ fs) ++ .up :: rest)) →
      Follows (i + 2) (i + 2 + (forestStream cs).length) arith mc)
    (ht : OnTree toks (i + 2 + (forestStream cs).length)
      (forestStream ts ++ (forestStream fs ++ .up :: rest)) →
      Follows (i + 2 + (forestStream cs).length)
        (i + 2 + (forestStream cs).length + (forestStream ts).length) arith mt)
    (hf : OnTree toks (i + 2 + (forestStream cs).length + (forestStream ts).length)
      (forestStream fs ++ .up :: rest) →
      Follows (i + 2 + (forestStream cs).length + (forestStream ts).length)
        (i + 2 + (forestStream cs).length + (forestStream ts).length + (forestStream fs).length)
        arith mf) :
    Follows i (i + (astNode .arithmeticCondition (cs ++ (ts ++ fs))).stream.length)
      (conditionNode toks arith)
      (mc >>= fun c => mt >>= fun t => mf >>= fun f => pure (if c ≠ 0 then t else f)) := by
  have hne : cs ++ (ts ++ fs) ≠ [] := by simp [hcs]
  rw [length_stream_node hne, forestStream_append, forestStream_append, List.length_append,
    List.length_append]
  refine follows_open hne h fun hkids => ?_
  have hops := OnTree.operands hkids
  have hbranches := OnTree.operands hops.advance
  refine follows_bind (hc hops) fun c _ _ _ => ?_
  refine follows_bind (ht hbranches) fun t _ _ _ => ?_
  refine follows_bind (hf hbranches.advance) fun f _ _ _ => ?_
  exact follows_up hbranches.advance.advance ((follows_ret _).to (by omega))

/-! ## Parts -/

/-- What ends the loop of `arithmetics`: anything but an `ARITHMETIC` node. -/
def NoPart (rest : NodeStream) : Prop :=
  ∀ t : Token, rest.head? = some (.tok t) → t.type ≠ .arithmetic

@[simp] theorem noPart_up (rest : NodeStream) : NoPart (.up :: rest) := by simp [NoPart]

@[simp] theorem noPart_nil : NoPart [] := by simp [NoPart]

/-- The test of the loop of `arithmetics`. -/
def atPart (rest : NodeStream) : Bool :=
  match rest with
  | .tok t :: _ => t.type == .arithmetic
  | _ => false

theorem laIs_arithmetic_step (s : Store) (h : OnTree toks i rest) :
    laIs toks .arithmetic ⟨i, s⟩ = some (.ok (atPart rest), ⟨i, s⟩) := by
  unfold laIs
  rw [bind_of_ok (laType_step s h 0)]
  cases rest with
  | nil => rfl
  | cons x rest => cases x <;> rfl

theorem atPart_eq_false (h : NoPart rest) : atPart rest = false := by
  cases rest with
  | nil => rfl
  | cons x rest =>
    cases x with
    | tok t => simpa [atPart] using h t rfl
    | down => rfl
    | up => rfl

theorem arithmeticPart_follows {cs : List AstNode} {m : Comp Exn Store Int64} (hcs : cs ≠ [])
    (h : OnTree toks i ((astNode .arithmetic cs).stream ++ rest))
    (hl : OnTree toks (i + 2) (forestStream cs ++ .up :: rest) →
      Follows (i + 2) (i + 2 + (forestStream cs).length) arith m) :
    Follows i (i + (astNode .arithmetic cs).stream.length) (arithmeticPart toks arith) m := by
  rw [length_stream_node hcs, ← bind_pure m]
  refine follows_open hcs h fun hkids => ?_
  refine follows_bind (hl hkids) fun l _ _ _ => ?_
  exact follows_up hkids.advance ((follows_ret l).to (by omega))

theorem moreParts_stop {n : Nat} (v : Int64) (h : OnTree toks i rest) (hrest : NoPart rest) :
    Follows i i (moreParts toks arith (n + 1) v) (pure v) := by
  refine follows_step false (fun s => ?_) (follows_ret v)
  rw [laIs_arithmetic_step s h, atPart_eq_false hrest]

theorem moreParts_part {n : Nat} {v : Int64} {cs : List AstNode} {m g : Comp Exn Store Int64}
    (hcs : cs ≠ []) (h : OnTree toks i ((astNode .arithmetic cs).stream ++ rest))
    (hl : OnTree toks (i + 2) (forestStream cs ++ .up :: rest) →
      Follows (i + 2) (i + 2 + (forestStream cs).length) arith m)
    (hmore : ∀ v, Follows (i + (astNode .arithmetic cs).stream.length) j
      (moreParts toks arith n v) g) :
    Follows i j (moreParts toks arith (n + 1) v) (m >>= fun _ => g) := by
  refine follows_step (j := i) true (fun s => ?_) ?_
  · rw [laIs_arithmetic_step s h.root]
    rfl
  · exact follows_bind (arithmeticPart_follows hcs h hl) fun v _ _ _ => hmore v

/-- On an `ARITHMETIC` node, `arithmetics` is its loop. -/
theorem arithmetics_part {d : Nat} {cs : List AstNode} (v : Int64) (s : Store)
    (h : OnTree toks i ((astNode .arithmetic cs).stream ++ rest)) :
    arithmetics env (d + 1) toks ⟨i, s⟩ =
      moreParts toks (arithmetics env d toks) (toks.length + 1) v ⟨i, s⟩ := by
  have hla : laIs toks .arithmetic (⟨i, s⟩ : Cursor Store) = some (.ok true, ⟨i, s⟩) := by
    rw [laIs_arithmetic_step s h.root]
    rfl
  rw [arithmetics, arithmeticsRule, moreParts, bind_of_ok hla, bind_of_ok hla]
  rfl

/-! ## Variables -/

theorem varNode_follows {x : String} (h : OnTree toks i ((varNode x).stream ++ rest)) :
    Follows i (i + (varNode x).stream.length)
      (alternative env toks arith evalArith (some .varRef)) (primaryValue env evalArith x 0) := by
  have hchild : ∀ s : Store, laType toks 3 ⟨i, s⟩ = some (.ok (some (nameToken x).type), ⟨i, s⟩) := by
    intro s
    rw [stream_node (List.cons_ne_nil _ _)] at h
    have := laType_step s h 2
    simpa using this
  refine follows_step _ hchild ?_
  have hread : Follows i (i + (varNode x).stream.length) (primaryOperand env toks arith evalArith)
      (primaryValue env evalArith x 0) :=
    follows_step _ (fun s => primary_var_step s h) (follows_action _)
  rcases nameToken_isName x with hx | hx | hx
  all_goals
    rw [hx]
    exact hread

/-- An assignment finds its target, walks its right side and then acts. -/
theorem assignment_follows {x : String} (act : String → UInt32 → Int64 → Comp Exn Store Int64)
    (hrs : rs ≠ []) (h : OnTree toks i ((astNode ty (nameNode x :: rs)).stream ++ rest))
    (hr : OnTree toks (i + 3) (forestStream rs ++ .up :: rest) →
      Follows (i + 3) (i + 3 + (forestStream rs).length) arith mr) :
    Follows i (i + (astNode ty (nameNode x :: rs)).stream.length)
      (do
        let _ ← matchToken toks ty
        matchDown toks
        let p ← primary env toks arith
        let l ← arith
        matchUp toks
        action (act p.1 p.2 l))
      (mr >>= fun l => act x 0 l) := by
  rw [length_stream_node (List.cons_ne_nil _ _), forestStream_cons, stream_leaf]
  refine follows_open (List.cons_ne_nil _ _) h fun hkids => ?_
  rw [forestStream_cons, stream_leaf, List.append_assoc] at hkids
  have hright : OnTree toks (i + 3) (forestStream rs ++ .up :: rest) := hkids.tail
  refine follows_step _ (fun s => primary_name_step s hkids ?_) ?_
  · obtain ⟨r, rs, rfl⟩ := List.exists_cons_of_ne_nil hrs
    rw [forestStream_cons, List.append_assoc]
    exact noDown_stream _ _
  · refine follows_bind (hr hright) fun l _ _ _ => ?_
    refine follows_up hright.advance ((follows_action _).to ?_)
    simp only [List.length_append, List.length_singleton]
    omega

end Arith

end Libbash
