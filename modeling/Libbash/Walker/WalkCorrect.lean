import Libbash.Walker.Refinement

/-!
# Every rule walks its tree

`Walks t w m` says that the rule `w`, standing on the stream of `t`, does what
`m` does and ends right after the stream. There is one lemma per rule of the
grammar, `*_walks`, which takes the command lists below the rule as `Walks`
hypotheses; `commandTree_walks` and its companions put them together by
induction on the tree.
-/

namespace Libbash

open Lib Lib.Comp

variable {S : Type} {toks : NodeStream} {sem : LeafSem rawLeaves S}
  {crash : Nat → S → Exn → Nat} {n d : Nat}

/-- `w` on the stream of `t` does what `m` does and passes the stream. -/
def Walks (toks : NodeStream) (t : AstNode) (w : Walk S Unit) (m : Comp Exn S Unit) : Prop :=
  ∀ i rest, OnTree toks i (t.stream ++ rest) → Moves i (i + t.stream.length) w m

theorem CommandList.trees_ne_nil (c : CommandList rawLeaves) : c.trees ≠ [] := by
  cases c <;> simp [CommandList.trees]

theorem CommandList.tree_children (c : CommandList rawLeaves) : c.tree.children ≠ [] :=
  c.trees_ne_nil

theorem Command.tree_children (c : Command rawLeaves) : c.tree.children ≠ [] := by
  cases c with
  | simple redirs c =>
    have hne : c.1 ≠ [] := fun h => by simpa [h, isSimpleForest] using c.2
    simp [Command.tree, NodeTree.children, hne]
  | compound redirs c => simp [Command.tree, NodeTree.children]

/-! ## Logic commands -/

theorem logicCommand_walks {isAnd : Bool} {left : LogicCommand rawLeaves}
    {right : Command rawLeaves}
    (hleft : Walks toks left.tree (logicCommandList toks sem crash n d) (execLogic sem n left))
    (hright : Walks toks right.tree (command toks sem crash n d) (execCommand sem n right)) :
    Walks toks (LogicCommand.logic isAnd left right).tree
      (logicCommand toks sem crash n (d + 1) isAnd) (execLogic sem n (.logic isAnd left right)) := by
  intro i rest h
  simp only [LogicCommand.tree] at h ⊢
  unfold logicCommand execLogic
  have hlen : (astNode (if isAnd then .logicAnd else .logicOr)
      [left.tree, right.tree]).stream.length =
        2 + left.tree.stream.length + right.tree.stream.length + 1 := by
    simp [stream_node_cons]
    omega
  rw [hlen]
  refine moves_open (by simp) h fun h => ?_
  simp only [forestStream_cons, forestStream_nil, List.append_nil, List.append_assoc] at h
  refine moves_bind (hleft _ _ h) fun _ => moves_bind (moves_action _) fun status => ?_
  have hr := h.advance
  cases logicRuns isAnd status with
  | true => exact (moves_thenUp (hright _ _ hr) hr.advance).to (by omega)
  | false =>
    refine (moves_thenUp ?_ hr.advance).to (by omega)
    exact moves_passTree right.tree_children hr

/-! ## Loops -/

theorem whileExpr_walks (negate : Bool) {cond body : CommandList rawLeaves}
    (hcond : Walks toks cond.tree (commandList toks sem crash n d) (execList sem n cond))
    (hbody : Walks toks body.tree (commandList toks sem crash n d) (execList sem n body)) :
    Walks toks (Compound.loop negate cond body).tree (whileExpr toks sem crash n (d + 1) negate)
      (execCompound sem n (.loop negate cond body)) := by
  intro i rest h
  simp only [Compound.tree] at h ⊢
  unfold whileExpr execCompound
  have hlen : (astNode (if negate then .untilTok else .whileTok)
      [listNode cond.trees, listNode body.trees]).stream.length =
        2 + cond.tree.stream.length + body.tree.stream.length + 1 := by
    simp [stream_node_cons, CommandList.tree]
    omega
  rw [hlen]
  refine moves_openSeek (by simp) h fun h => ?_
  simp only [forestStream_cons, forestStream_nil, List.append_nil, List.append_assoc] at h
  refine moves_step _ (fun s => index_step s) ?_
  have hb : OnTree toks (i + 2 + cond.tree.stream.length) (body.tree.stream ++ .up :: rest) :=
    h.advance
  have hloop := whilePasses_moves sem (hcond _ _ h) (hbody _ _ hb) negate n
  rw [← bind_pure (whileLoop _ _ _ _ _)]
  exact moves_bind hloop fun _ => moves_skipTree body.tree_children hb (moves_passBy 1 (by omega))

/-- `FOR` as the rule computes it, with `in_array` next to the values. -/
theorem execCompound_forEach (name : String) (words : List rawLeaves.Word)
    (body : CommandList rawLeaves) :
    execCompound sem n (.forEach name words body) =
      ((splitWords sem [] words >>= fun values => pure (values, false || !words.isEmpty)) >>=
        fun (splitted, inArray) =>
          if splitted.isEmpty && inArray then setStatus sem 0
          else (if inArray then pure splitted else sem.positional) >>=
            forLoop sem name (execList sem n body)) := by
  simp only [execCompound, bind_assoc, pure_bind, Bool.false_or, forValues]
  cases words.isEmpty <;> rfl

theorem forArray_moves {i : Nat} (splitted : List String) (inArray : Bool) :
    Moves i i (forArray sem splitted inArray)
      (if inArray then pure splitted else sem.positional) := by
  cases inArray with
  | true => exact moves_pure splitted
  | false => exact moves_action _

theorem forExpr_walks {name : String} {words : List rawLeaves.Word}
    {body : CommandList rawLeaves} (hwords : words.length < d)
    (hbody : Walks toks body.tree (commandList toks sem crash n d) (execList sem n body)) :
    Walks toks (Compound.forEach name words body).tree (forExpr toks sem crash n (d + 1))
      (execCompound sem n (.forEach name words body)) := by
  intro i rest h
  simp only [Compound.tree] at h ⊢
  unfold forExpr
  have hlen : (astNode .forTok (.node (nameToken name) [] ::
      (words.map Subtype.val ++ [listNode body.trees]))).stream.length =
        2 + 1 + (forestStream (words.map Subtype.val)).length + body.tree.stream.length + 1 := by
    simp [stream_node_cons, CommandList.tree]
    omega
  rw [hlen]
  refine moves_open (by simp) h fun h => ?_
  simp only [forestStream_cons, forestStream_append, forestStream_nil, stream_leaf,
    List.append_nil, List.append_assoc, List.cons_append, List.nil_append] at h
  refine moves_step name (fun s => nameBase_step s h) ?_
  have hw := h.tail
  have hb := hw.advance
  have hlist := hw
  rw [stream_eq_cons (listNode body.trees), List.cons_append] at hlist
  -- The words are expanded up to the tree of the body, where each pass starts and ends.
  have hsplit := forWords_moves sem crash (by simp [NodeTree.label]) words [] false hlist
    hwords
  rw [execCompound_forEach]
  refine moves_bind hsplit fun out => ?_
  obtain ⟨splitted, inArray⟩ := out
  dsimp only
  cases splitted.isEmpty && inArray with
  | true =>
    refine moves_skipTree body.tree_children hb ?_
    exact (moves_thenUp (moves_action _) hb.advance).to (by simp [CommandList.tree]; omega)
  | false =>
    refine moves_bind (forArray_moves splitted inArray) fun values => moves_step _ (fun s => index_step s) ?_
    have hloop := forPasses_moves sem (hbody _ _ hb) name values
    rw [← bind_pure (forLoop _ _ _ _)]
    refine moves_bind hloop fun _ => moves_skipTree body.tree_children hb ?_
    exact moves_passUp hb.advance (by simp [CommandList.tree]; omega)

section OptionalPart

variable {ty : TokenType} {o : Option rawLeaves.Arith} {i j : Nat} {s : NodeStream}

/-- Whether an optional part is there shows in its token type. -/
theorem moves_laIs_option {f : Bool → Walk S Unit} {m : Comp Exn S Unit}
    (hs : ∀ t : Token, s.head? = some (.tok t) → t.type ≠ ty) (hdown : NoDown s) (hne : s ≠ [])
    (h : OnTree toks i (forestStream (optionTree ty o) ++ s)) (hk : Moves i j (f o.isSome) m) :
    Moves i j (laIs toks ty >>= f) m := by
  cases o with
  | none =>
    simp only [optionTree, forestStream_nil, List.nil_append] at h
    cases s with
    | nil => exact absurd rfl hne
    | cons x s =>
      cases x with
      | tok t =>
        refine moves_laIs_tok h ?_
        rwa [beq_eq_false_iff_ne.mpr (hs t rfl)]
      | down => exact absurd rfl hdown
      | up => exact moves_laIs_up h hk
  | some e =>
    simp only [optionTree, forestStream_cons, forestStream_nil, List.append_nil] at h
    rw [stream_eq_cons, List.cons_append] at h
    refine moves_laIs_tok h ?_
    simpa [NodeTree.label] using hk

/-- Skip an optional part when it is there. -/
theorem moves_skipOption {f : Unit → Walk S Unit} {m : Comp Exn S Unit}
    (h : OnTree toks i (forestStream (optionTree ty o) ++ s))
    (hk : Moves (i + (forestStream (optionTree ty o)).length) j (f ()) m) :
    Moves i j (seekToNextTreeIf toks o.isSome >>= f) m := by
  cases o with
  | none => exact hk
  | some e =>
    simp only [optionTree, forestStream_cons, forestStream_nil, List.append_nil] at h hk
    exact moves_skipTree (t := astNode ty e.1) e.2 h hk

end OptionalPart

variable (sem crash) in
theorem forMod_moves {mod : Option rawLeaves.Arith} {i : Nat} {rest : NodeStream}
    (h : OnTree toks i (forestStream (optionTree .forMod mod) ++ rest)) :
    ∀ e, mod = some e → Moves i (i + (forestStream (optionTree .forMod mod)).length)
      (forPart toks sem crash .forMod) (sem.arith e) := by
  rintro e rfl
  simp only [optionTree, forestStream_cons, forestStream_nil, List.append_nil] at h ⊢
  exact forPart_moves .forMod e h

/-- `CFOR` from its condition on. -/
theorem cforRest_moves {cond mod : Option rawLeaves.Arith} {body : CommandList rawLeaves}
    {i : Nat} {rest : NodeStream}
    (hbody : Walks toks body.tree (commandList toks sem crash n d) (execList sem n body))
    (h : OnTree toks i (forestStream (optionTree .forCond cond) ++ (body.tree.stream ++
      (forestStream (optionTree .forMod mod) ++ .up :: rest)))) :
    Moves i (i + (forestStream (optionTree .forCond cond)).length + body.tree.stream.length +
        (forestStream (optionTree .forMod mod)).length + 1)
      (cforRest toks sem crash n (d + 1)) (cforLoop sem cond mod (execList sem n body) n) := by
  unfold cforRest
  have hb := h.advance
  have hm := hb.advance
  have hlist : ∀ (t : Token), (body.tree.stream ++ (forestStream (optionTree .forMod mod) ++
      Sym.up :: rest)).head? = some (.tok t) → t.type ≠ .forCond := by
    simp [stream_eq_cons, NodeTree.label, CommandList.tree]
  refine moves_step i (fun s => index_step s) ?_
  refine moves_laIs_option hlist (by simp) (by simp [stream_ne_nil]) h ?_
  refine moves_skipOption h (moves_skipTree body.tree_children hb ?_)
  refine moves_laIs_option (by simp) (by simp) (by simp) hm ?_
  refine moves_step _ (fun s => index_step s) (moves_step () (fun s => seek_step s i) ?_)
  have hmod := forMod_moves sem crash hm
  have hloop := cforPasses_moves (forCondition_moves sem crash cond h)
    (hbody _ _ hb) hmod n
  rw [← bind_pure (cforLoop _ _ _ _ _)]
  refine moves_bind hloop fun _ => moves_skipTree body.tree_children hb ?_
  refine moves_laIs_option (by simp) (by simp) (by simp) hm (moves_skipOption hm ?_)
  exact moves_passBy 1 rfl

theorem cforExpr_walks {init cond mod : Option rawLeaves.Arith} {body : CommandList rawLeaves}
    (hbody : Walks toks body.tree (commandList toks sem crash n d) (execList sem n body)) :
    Walks toks (Compound.cfor init cond mod body).tree (cforExpr toks sem crash n (d + 2))
      (execCompound sem n (.cfor init cond mod body)) := by
  intro i rest h
  simp only [Compound.tree] at h ⊢
  unfold cforExpr execCompound
  have hlen : (astNode .cfor (optionTree .forInit init ++ (optionTree .forCond cond ++
      (listNode body.trees :: optionTree .forMod mod)))).stream.length =
        2 + (forestStream (optionTree .forInit init)).length +
          ((forestStream (optionTree .forCond cond)).length + body.tree.stream.length +
            (forestStream (optionTree .forMod mod)).length + 1) := by
    rw [stream_node (by simp)]
    simp [CommandList.tree]
    omega
  rw [hlen]
  refine moves_openSeek (by simp) h fun h => ?_
  simp only [forestStream_append, forestStream_cons, List.append_assoc] at h
  have hrest := cforRest_moves hbody h.advance
  refine moves_laIs_option ?_ ?_ ?_ h ?_
  · cases cond <;> simp [optionTree, stream_eq_cons, NodeTree.label]
  · cases cond <;> simp [optionTree]
  · simp [stream_ne_nil]
  cases init with
  | none => exact hrest.to (by simp only [optionTree, forestStream_nil, List.length_nil]; omega)
  | some e =>
    simp only [optionTree, forestStream_cons, forestStream_nil, List.append_nil] at h hrest ⊢
    simp only [Option.isSome_some, if_true, runArith, bind_assoc, pure_bind]
    refine moves_bind (forPart_moves .forInit e h) fun _ => hrest.to (by omega)

/-! ## if -/

/-- Running what is guarded and remembering that it matched, as the rules do, is
a plain conditional. -/
theorem runMatched_bind (test : Comp Exn S Bool) (guarded other : Comp Exn S Unit) :
    ((test >>= fun matched => if matched then guarded >>= fun _ => pure true else pure false) >>=
      fun matched => if matched then pure () else other) =
        test >>= fun matched => if matched then guarded else other := by
  rw [bind_assoc]
  congr 1
  funext matched
  cases matched <;> simp

theorem elifExpr_moves {cond body : CommandList rawLeaves} {i : Nat} {rest : NodeStream}
    (hcond : Walks toks cond.tree (commandList toks sem crash n d) (execList sem n cond))
    (hbody : Walks toks body.tree (commandList toks sem crash n d) (execList sem n body))
    (h : OnTree toks i ((astNode .ifTok [listNode cond.trees, listNode body.trees]).stream ++
      rest)) :
    Moves i (i + (astNode .ifTok [listNode cond.trees, listNode body.trees]).stream.length)
      (elifExpr toks sem crash n (d + 1))
      (elifTest sem (execList sem n cond) >>= fun matched =>
        if matched then execList sem n body >>= fun _ => pure true else pure false) := by
  have hlen : (astNode .ifTok [listNode cond.trees, listNode body.trees]).stream.length =
      2 + cond.tree.stream.length + body.tree.stream.length + 1 := by
    simp [stream_node_cons, CommandList.tree]
    omega
  rw [hlen]
  unfold elifExpr elifTest
  simp only [bind_assoc, pure_bind]
  refine moves_openSeek (by simp) h fun h => ?_
  simp only [forestStream_cons, forestStream_nil, List.append_nil, List.append_assoc] at h
  refine moves_bind (hcond _ _ h) fun _ => moves_bind (moves_action _) fun status => ?_
  have hb : OnTree toks (i + 2 + cond.tree.stream.length) (body.tree.stream ++ .up :: rest) :=
    h.advance
  cases elifMatches status with
  | true =>
    refine moves_bind (hbody _ _ hb) fun _ => moves_seekBy 1 ((moves_pure true).to ?_)
    omega
  | false =>
    refine moves_skipTree body.tree_children hb (moves_seekBy 1 ((moves_pure false).to ?_))
    omega

/-- Once a part has matched, the remaining parts are skipped. -/
theorem ifParts_matched : ∀ (parts : ElseParts rawLeaves) {d i : Nat} {rest : NodeStream},
    OnTree toks i (forestStream parts.trees ++ .up :: rest) →
      (forestStream parts.trees).length ≤ d →
        Moves i (i + (forestStream parts.trees).length)
          (ifParts toks sem crash n (d + 1) true) (pure ())
  | .fi, d, i, rest, h, hd => by
    simp only [ElseParts.trees, forestStream_nil, List.nil_append] at h ⊢
    exact moves_laType_up h (moves_pure ())
  | .elsePart body, d, i, rest, h, hd => by
    simp only [ElseParts.trees, forestStream_cons, forestStream_nil, List.append_nil] at h ⊢
    exact moves_laType_node h (moves_passTree (by simp [NodeTree.children]) h)
  | .elif cond body parts, d, i, rest, h, hd => by
    simp only [ElseParts.trees, forestStream_cons, List.append_assoc, List.length_append] at h hd ⊢
    have hpos := List.length_pos_iff.mpr
      (stream_ne_nil (astNode .ifTok [listNode cond.trees, listNode body.trees]))
    obtain ⟨d, rfl⟩ : ∃ k, d = k + 1 := Nat.exists_eq_succ_of_ne_zero (by omega)
    refine moves_laType_node h (moves_skipTree (by simp [NodeTree.children]) h ?_)
    exact (ifParts_matched parts h.advance (by omega)).to (by omega)

theorem elsePart_moves {body : CommandList rawLeaves} {i : Nat} {rest : NodeStream}
    (hbody : Walks toks body.tree (commandList toks sem crash n d) (execList sem n body))
    (h : OnTree toks i (forestStream (ElseParts.elsePart body).trees ++ .up :: rest)) :
    Moves i (i + (forestStream (ElseParts.elsePart body).trees).length)
      (ifParts toks sem crash n (d + 1) false) (execElse sem n (.elsePart body)) := by
  simp only [ElseParts.trees, forestStream_cons, forestStream_nil, List.append_nil] at h ⊢
  refine moves_laType_node h ?_
  rw [stream_node_cons] at h ⊢
  simp only [forestStream_nil, List.nil_append, List.cons_append, List.append_assoc] at h ⊢
  refine moves_seekBy 2 ?_
  unfold execElse
  rw [← bind_pure (execList _ _ _)]
  refine moves_bind (hbody _ _ h.tail.tail) fun _ => moves_passBy 1 ?_
  simp [CommandList.tree]
  omega

theorem elif_moves {cond body : CommandList rawLeaves} {parts : ElseParts rawLeaves} {i : Nat}
    {rest : NodeStream}
    (hcond : Walks toks cond.tree (commandList toks sem crash n d) (execList sem n cond))
    (hbody : Walks toks body.tree (commandList toks sem crash n d) (execList sem n body))
    (hparts : ∀ j rest, OnTree toks j (forestStream parts.trees ++ .up :: rest) →
      Moves j (j + (forestStream parts.trees).length) (ifParts toks sem crash n (d + 1) false)
        (execElse sem n parts))
    (hd : (forestStream parts.trees).length ≤ d)
    (h : OnTree toks i (forestStream (ElseParts.elif cond body parts).trees ++ .up :: rest)) :
    Moves i (i + (forestStream (ElseParts.elif cond body parts).trees).length)
      (ifParts toks sem crash n (d + 2) false) (execElse sem n (.elif cond body parts)) := by
  simp only [ElseParts.trees, forestStream_cons, List.append_assoc, List.length_append] at h ⊢
  refine moves_laType_node h ?_
  rw [execElse, ← runMatched_bind]
  refine moves_bind (elifExpr_moves hcond hbody h) fun matched => ?_
  cases matched with
  | true => exact (ifParts_matched parts h.advance hd).to (by omega)
  | false => exact (hparts _ _ h.advance).to (by omega)

theorem ifExpr_walks {cond body : CommandList rawLeaves} {parts : ElseParts rawLeaves}
    (hparts : ∀ j rest, OnTree toks j
      (forestStream (ElseParts.elif cond body parts).trees ++ .up :: rest) →
      Moves j (j + (forestStream (ElseParts.elif cond body parts).trees).length)
        (ifParts toks sem crash n d false) (execElse sem n (.elif cond body parts))) :
    Walks toks (Compound.ifStatement cond body parts).tree (ifExpr toks sem crash n (d + 1))
      (execCompound sem n (.ifStatement cond body parts)) := by
  intro i rest h
  have hexec : execCompound sem n (.ifStatement cond body parts) =
      execElse sem n (.elif cond body parts) := by
    rw [execCompound, execElse]
  rw [hexec]
  simp only [Compound.tree] at h ⊢
  unfold ifExpr
  refine moves_openSeek (by simp) h fun h => ?_
  rw [← bind_pure (execElse _ _ _)]
  refine moves_bind (hparts _ _ h) fun _ => moves_passBy 1 ?_
  rw [stream_node (by simp)]
  simp [ElseParts.trees]
  omega

/-! ## case -/

/-- A clause whose pattern has been matched against the target. -/
theorem caseClause_empty {p : rawLeaves.Pattern} {target : String} {i : Nat} {rest : NodeStream}
    (h : OnTree toks i ((astNode .casePattern p.1).stream ++ rest)) :
    Moves i (i + (astNode .casePattern p.1).stream.length)
      (caseClause toks sem crash n (d + 1) target) (sem.matchPattern p target) := by
  have hla := h
  rw [stream_node p.2.1] at hla
  simp only [List.cons_append] at hla
  have hlen : (astNode .casePattern p.1).stream.length = 2 + (forestStream p.1).length + 1 := by
    rw [stream_node p.2.1]
    simp
    omega
  unfold caseClause
  refine moves_step _ (fun s => la_step s hla 1) ?_
  simp only [List.getElem?_cons_succ, List.getElem?_cons_zero, if_true]
  rw [← bind_pure (sem.matchPattern p target), hlen]
  refine moves_open p.2.1 h fun h => ?_
  refine moves_bind (compositePattern_moves p target h (by simp) (by simp)) fun matched => ?_
  have hup := h.advance
  cases matched with
  | true => exact moves_laIs_up hup (moves_up hup ((moves_pure true).to (by omega)))
  | false => exact moves_laIs_up hup (moves_up hup ((moves_pure false).to (by omega)))

theorem caseClause_commands {p : rawLeaves.Pattern} {target : String}
    {body : CommandList rawLeaves} {i : Nat} {rest : NodeStream}
    (hbody : Walks toks body.tree (commandList toks sem crash n d) (execList sem n body))
    (h : OnTree toks i ((astNode .casePattern
      (p.1 ++ [astNode .caseCommand [], listNode body.trees])).stream ++ rest)) :
    Moves i (i + (astNode .casePattern
        (p.1 ++ [astNode .caseCommand [], listNode body.trees])).stream.length)
      (caseClause toks sem crash n (d + 1) target)
      (sem.matchPattern p target >>= fun matched =>
        if matched then execList sem n body >>= fun _ => pure true else pure false) := by
  have hla := h
  rw [stream_node (by simp)] at hla
  simp only [List.cons_append] at hla
  have hlen : (astNode .casePattern
      (p.1 ++ [astNode .caseCommand [], listNode body.trees])).stream.length =
        2 + (forestStream p.1).length + 1 + body.tree.stream.length + 1 := by
    rw [stream_node (by simp)]
    simp [CommandList.tree]
    omega
  unfold caseClause
  refine moves_step _ (fun s => la_step s hla 1) ?_
  simp only [List.getElem?_cons_succ, List.getElem?_cons_zero, if_true]
  rw [hlen]
  refine moves_open (by simp) h fun h => ?_
  simp only [forestStream_append, forestStream_cons, forestStream_nil, stream_leaf,
    List.append_nil, List.append_assoc, List.cons_append, List.nil_append] at h
  refine moves_bind (compositePattern_moves p target h (by simp [NoDown]) (by simp)) fun matched => ?_
  have hcmd := h.advance
  have hup := hcmd.tail.advance
  cases matched with
  | true =>
    refine moves_laIs_tok hcmd (moves_seekBy 1 ?_)
    refine moves_bind (hbody _ _ hcmd.tail) fun _ => moves_up hup ((moves_pure true).to ?_)
    simp only [CommandList.tree]
    omega
  | false =>
    refine moves_laIs_tok hcmd ?_
    refine moves_skipLeafAndTree body.trees_ne_nil hcmd (moves_up hup ((moves_pure false).to ?_))
    simp only [CommandList.tree, listNode, astNode]
    omega

/-- After a match, the clauses that are left are skipped. -/
theorem skipClauses_moves : ∀ (clauses : Clauses rawLeaves) {d i : Nat} {rest : NodeStream},
    OnTree toks i (forestStream clauses.trees ++ .up :: rest) →
      (forestStream clauses.trees).length ≤ d →
        Moves (S := S) i (i + (forestStream clauses.trees).length) (skipClauses toks (d + 1))
          (pure ())
  | .esac, d, i, rest, h, hd => by
    simp only [Clauses.trees, forestStream_nil, List.nil_append] at h ⊢
    exact moves_laIs_up h (moves_pure ())
  | .empty p clauses, d, i, rest, h, hd => by
    simp only [Clauses.trees, forestStream_cons, List.append_assoc, List.length_append] at h hd ⊢
    have hpos := List.length_pos_iff.mpr (stream_ne_nil (astNode .casePattern p.1))
    obtain ⟨d, rfl⟩ : ∃ k, d = k + 1 := Nat.exists_eq_succ_of_ne_zero (by omega)
    have hroot := h
    rw [stream_eq_cons, List.cons_append] at hroot
    refine moves_laIs_tok hroot (moves_skipTree (t := astNode .casePattern p.1) p.2.1 h ?_)
    exact (skipClauses_moves clauses h.advance (by omega)).to (by omega)
  | .commands p body clauses, d, i, rest, h, hd => by
    simp only [Clauses.trees, forestStream_cons, List.append_assoc, List.length_append] at h hd ⊢
    have hpos := List.length_pos_iff.mpr (stream_ne_nil (astNode .casePattern
      (p.1 ++ [astNode .caseCommand [], listNode body.trees])))
    obtain ⟨d, rfl⟩ : ∃ k, d = k + 1 := Nat.exists_eq_succ_of_ne_zero (by omega)
    have hroot := h
    rw [stream_eq_cons, List.cons_append] at hroot
    refine moves_laIs_tok hroot (moves_skipTree (by simp [NodeTree.children]) h ?_)
    exact (skipClauses_moves clauses h.advance (by omega)).to (by omega)

/-- One clause, and then the clauses after it or, if it has matched, none. -/
theorem clauses_moves (clauses : Clauses rawLeaves) {t : AstNode} {target : String}
    {m : Comp Exn S Bool} {i : Nat} {rest : NodeStream} (ht : t.label.type = .casePattern)
    (hclause : Moves i (i + t.stream.length) (caseClause toks sem crash n (d + 1) target) m)
    (hclauses : ∀ j rest, OnTree toks j (forestStream clauses.trees ++ .up :: rest) →
      Moves j (j + (forestStream clauses.trees).length)
        (caseClauses toks sem crash n (d + 1) target) (execClauses sem n target clauses))
    (hd : (forestStream clauses.trees).length ≤ d)
    (h : OnTree toks i (t.stream ++ (forestStream clauses.trees ++ .up :: rest))) :
    Moves i (i + (t.stream.length + (forestStream clauses.trees).length))
      (caseClauses toks sem crash n (d + 2) target)
      (m >>= fun matched => if matched then pure () else execClauses sem n target clauses) := by
  have hroot := h
  rw [stream_eq_cons, List.cons_append] at hroot
  unfold caseClauses
  refine moves_laIs_tok hroot ?_
  simp only [ht, BEq.rfl, if_true]
  refine moves_bind hclause fun matched => ?_
  have hrest := h.advance
  cases matched with
  | true =>
    simp only [skipClausesIf, if_true]
    rw [← pure_bind () fun _ => (pure () : Comp Exn S Unit)]
    refine moves_bind (skipClauses_moves clauses hrest hd) fun _ => ?_
    unfold caseClauses
    exact moves_laIs_up hrest.advance ((moves_pure ()).to (by omega))
  | false => exact (hclauses _ _ hrest).to (by omega)

/-- The node `CASE_PATTERN` that stands for no clause is passed. -/
theorem caseClauses_none {target : String} {i : Nat} {rest : NodeStream}
    (h : OnTree toks i ((astNode .casePattern []).stream ++ .up :: rest)) :
    Moves i (i + 1) (caseClauses toks sem crash n (d + 2) target)
      (execClauses sem n target .esac) := by
  simp only [stream_leaf, List.cons_append, List.nil_append] at h
  unfold caseClauses
  refine moves_laIs_tok h ?_
  simp only [BEq.rfl, if_true, execClauses]
  unfold caseClause
  simp only [bind_assoc]
  refine moves_step _ (fun s => la_step s h 1) ?_
  simp only [List.getElem?_cons_succ, List.getElem?_cons_zero, Option.some.injEq, reduceCtorEq,
    if_false, bind_assoc, pure_bind, skipClausesIf, Bool.false_eq_true]
  refine moves_step _ (fun s => matchToken_step s h) ?_
  unfold caseClauses
  exact moves_laIs_up h.tail (moves_pure ())

theorem caseExpr_walks {w : rawLeaves.Word} {clauses : Clauses rawLeaves}
    (hclauses : ∀ target j rest, OnTree toks j (forestStream clauses.trees ++ .up :: rest) →
      Moves j (j + (forestStream clauses.trees).length)
        (caseClauses toks sem crash n (d + 2) target) (execClauses sem n target clauses)) :
    Walks toks (Compound.caseOf w clauses).tree (caseExpr toks sem crash n (d + 3))
      (execCompound sem n (.caseOf w clauses)) := by
  intro i rest h
  simp only [Compound.tree] at h ⊢
  have hlen : (astNode .caseTok (w.1 :: orCasePattern clauses.trees)).stream.length =
      2 + w.1.stream.length + (forestStream (orCasePattern clauses.trees)).length + 1 := by
    simp [stream_node_cons]
    omega
  rw [hlen]
  unfold caseExpr execCompound
  refine moves_open (by simp) h fun h => ?_
  simp only [forestStream_cons, List.append_assoc] at h
  refine moves_bind (word_moves w h (noDown_forest _ (by simp))) fun target => ?_
  have hc := h.advance
  have hparts : Moves (i + 2 + w.1.stream.length)
      (i + 2 + w.1.stream.length + (forestStream (orCasePattern clauses.trees)).length)
      (caseClauses toks sem crash n (d + 2) target) (execClauses sem n target clauses) := by
    cases clauses with
    | esac =>
      simp only [Clauses.trees, orCasePattern, forestStream_cons, forestStream_nil,
        List.append_nil] at hc ⊢
      exact caseClauses_none hc
    | empty p clauses => exact hclauses target _ _ hc
    | commands p body clauses => exact hclauses target _ _ hc
  exact (moves_thenUp hparts hc.advance).to (by omega)

/-! ## Commands -/

theorem Compound.tree_startsCompound (c : Compound rawLeaves) :
    startsCompound (rootType c.tree) = true := by
  cases c with
  | loop negate cond body => cases negate <;> rfl
  | _ => rfl

theorem Compound.tree_startsRedirect (c : Compound rawLeaves) :
    startsRedirect (rootType c.tree) = false := by
  cases c with
  | loop negate cond body => cases negate <;> rfl
  | _ => rfl

theorem command_simple_walks {redirs : List rawLeaves.Redirect} {c : rawLeaves.Simple}
    (hd : redirs.length < d + 1) :
    Walks toks (Command.simple redirs c).tree (command toks sem crash n (d + 2))
      (execCommand sem n (.simple redirs c)) := by
  intro i rest h
  simp only [Command.tree] at h ⊢
  obtain ⟨t, ts, hts⟩ : ∃ t ts, c.1 = t :: ts := by
    cases hc : c.1 with
    | nil => simpa [hc, isSimpleForest] using c.2
    | cons t ts => exact ⟨t, ts, rfl⟩
  have hroot : startsRedirect t.label.type = false ∧ startsCompound t.label.type = false := by
    simpa [hts, isSimpleForest, rootType] using c.2
  have hne : redirs.map Subtype.val ++ c.1 ≠ [] := by simp [hts]
  rw [stream_node hne]
  rw [show (Sym.tok ⟨.command, ""⟩ :: .down ::
    (forestStream (redirs.map Subtype.val ++ c.1) ++ [.up])).length =
      2 + (forestStream (redirs.map Subtype.val)).length + (forestStream c.1).length + 1 by
    simp; omega]
  unfold command execCommand
  refine moves_savingStreams (moves_open hne h fun h => ?_)
  simp only [forestStream_append, List.append_assoc] at h
  have hfirst := h
  rw [hts, forestStream_cons, stream_eq_cons, List.cons_append, List.cons_append] at hfirst
  refine moves_bind (redirects_moves hroot.1 redirs hfirst hd) fun _ => ?_
  have hc := h.advance
  have hctok := hfirst.advance
  refine (moves_thenUp ?_ hc.advance).to (by omega)
  unfold commandAtom
  refine moves_laType_tok hctok ?_
  simp only [hroot.2, Bool.false_eq_true, if_false]
  exact simpleCommand_moves c hc

theorem command_compound_walks {redirs : List rawLeaves.Redirect} {c : Compound rawLeaves}
    (hc : Walks toks c.tree (compoundCommand toks sem crash n d) (execCompound sem n c))
    (hd : redirs.length < d + 1) :
    Walks toks (Command.compound redirs c).tree (command toks sem crash n (d + 2))
      (execCommand sem n (.compound redirs c)) := by
  intro i rest h
  simp only [Command.tree] at h ⊢
  rw [stream_node (by simp)]
  rw [show (Sym.tok ⟨.command, ""⟩ :: .down ::
    (forestStream (redirs.map Subtype.val ++ [c.tree]) ++ [.up])).length =
      2 + (forestStream (redirs.map Subtype.val)).length + c.tree.stream.length + 1 by
    simp; omega]
  unfold command execCommand
  refine moves_savingStreams (moves_open (by simp) h fun h => ?_)
  simp only [forestStream_append, forestStream_cons, forestStream_nil, List.append_nil,
    List.append_assoc] at h
  have hfirst := h
  rw [stream_eq_cons, List.cons_append] at hfirst
  refine moves_bind (redirects_moves c.tree_startsRedirect redirs hfirst hd) fun _ => ?_
  have htree := h.advance
  refine (moves_thenUp ?_ htree.advance).to (by omega)
  unfold commandAtom
  refine moves_laType_tok hfirst.advance ?_
  simp only [show startsCompound c.tree.label.type = true from c.tree_startsCompound, if_true]
  exact hc _ _ htree

/-! ## Lists -/

/-- `logic_command_list+` on the trees of `c` does what `execList` does. -/
def ListWalks (toks : NodeStream) (sem : LeafSem rawLeaves S) (crash : Nat → S → Exn → Nat)
    (n : Nat) (c : CommandList rawLeaves) : Prop :=
  ∀ d i rest, (forestStream c.trees).length + 2 ≤ d →
    OnTree toks i (forestStream c.trees ++ .up :: rest) →
      Moves i (i + (forestStream c.trees).length) (logicCommandLists toks sem crash n d)
        (execList sem n c)

theorem CommandList.length_tree (c : CommandList rawLeaves) :
    c.tree.stream.length = (forestStream c.trees).length + 3 := by
  rw [CommandList.tree, stream_node c.trees_ne_nil]
  simp

theorem ListWalks.commandList {c : CommandList rawLeaves} (h : ListWalks toks sem crash n c)
    (hd : c.tree.stream.length ≤ d) :
    Walks toks c.tree (commandList toks sem crash n d) (execList sem n c) := by
  intro i rest hon
  have hlen := c.length_tree
  obtain ⟨d, rfl⟩ : ∃ k, d = k + 1 := Nat.exists_eq_succ_of_ne_zero (by omega)
  unfold Libbash.commandList
  refine moves_open c.trees_ne_nil hon fun hon => ?_
  exact (moves_thenUp (h d _ _ (by omega) hon) hon.advance).to (by omega)

theorem LogicCommand.root_type (c : LogicCommand rawLeaves) :
    c.tree.label.type = .command ∨ c.tree.label.type = .logicAnd ∨
      c.tree.label.type = .logicOr := by
  cases c with
  | command c => cases c <;> simp [LogicCommand.tree, Command.tree, NodeTree.label]
  | logic isAnd left right => cases isAnd <;> simp [LogicCommand.tree, NodeTree.label]

theorem listWalks_last {c : LogicCommand rawLeaves}
    (hc : ∀ d, c.tree.stream.length < d →
      Walks toks c.tree (logicCommandList toks sem crash n d) (execLogic sem n c)) :
    ListWalks toks sem crash n (.last c) := by
  intro d i rest hd h
  simp only [CommandList.trees, forestStream_cons, forestStream_nil, List.append_nil] at h hd ⊢
  obtain ⟨d, rfl⟩ : ∃ k, d = k + 1 := Nat.exists_eq_succ_of_ne_zero (by omega)
  unfold logicCommandLists execList
  rw [← bind_pure (execLogic _ _ _)]
  refine moves_bind (hc d (by omega) _ _ h) fun _ => ?_
  exact moves_laType_up h.advance (moves_pure ())

/-- Every tree of a list starts a logic command. -/
theorem CommandList.head_tree (c : CommandList rawLeaves) : ∃ t ts, c.trees = t :: ts ∧
    (t.label.type = .command ∨ t.label.type = .logicAnd ∨ t.label.type = .logicOr) := by
  cases c with
  | last c => exact ⟨_, _, rfl, c.root_type⟩
  | cons c rest => exact ⟨_, _, rfl, c.root_type⟩

theorem listWalks_cons {c : LogicCommand rawLeaves} {cs : CommandList rawLeaves}
    (hc : ∀ d, c.tree.stream.length < d →
      Walks toks c.tree (logicCommandList toks sem crash n d) (execLogic sem n c))
    (hcs : ListWalks toks sem crash n cs) : ListWalks toks sem crash n (.cons c cs) := by
  intro d i rest hd h
  have hpos := List.length_pos_iff.mpr (stream_ne_nil c.tree)
  simp only [CommandList.trees, forestStream_cons, List.append_assoc, List.length_append] at h hd ⊢
  obtain ⟨d, rfl⟩ : ∃ k, d = k + 1 := Nat.exists_eq_succ_of_ne_zero (by omega)
  unfold logicCommandLists execList
  refine moves_bind (hc d (by omega) _ _ h) fun _ => ?_
  have hnext := hcs d _ _ (by omega) h.advance
  obtain ⟨t, ts, hts, ht⟩ := cs.head_tree
  have hroot := h.advance
  rw [hts, forestStream_cons, stream_eq_cons t, List.cons_append, List.cons_append] at hroot
  refine moves_laType_tok hroot ?_
  rcases ht with ht | ht | ht <;>
  · rw [ht]
    exact hnext.to (by omega)

theorem logicCommandList_command {c : Command rawLeaves}
    (hc : Walks toks c.tree (command toks sem crash n d) (execCommand sem n c)) :
    Walks toks (LogicCommand.command c).tree (logicCommandList toks sem crash n (d + 1))
      (execLogic sem n (.command c)) := by
  intro i rest h
  simp only [LogicCommand.tree] at h ⊢
  unfold logicCommandList execLogic
  have hroot := h
  rw [stream_eq_cons, List.cons_append] at hroot
  refine moves_laType_tok hroot ?_
  rw [show c.tree.label.type = .command by cases c <;> rfl]
  exact hc _ _ h

theorem logicCommandList_logic {isAnd : Bool} {left : LogicCommand rawLeaves}
    {right : Command rawLeaves}
    (hc : Walks toks (LogicCommand.logic isAnd left right).tree
      (logicCommand toks sem crash n d isAnd) (execLogic sem n (.logic isAnd left right))) :
    Walks toks (LogicCommand.logic isAnd left right).tree
      (logicCommandList toks sem crash n (d + 1)) (execLogic sem n (.logic isAnd left right)) := by
  intro i rest h
  have hroot := h
  rw [stream_eq_cons, List.cons_append] at hroot
  unfold logicCommandList
  refine moves_laType_tok hroot ?_
  cases isAnd <;> exact hc _ _ h

/-! ## Compound commands without a rule of their own -/

theorem currentShell_walks {body : CommandList rawLeaves}
    (hbody : Walks toks body.tree (commandList toks sem crash n d) (execList sem n body)) :
    Walks toks (Compound.currentShell body).tree (compoundCommand toks sem crash n (d + 1))
      (execCompound sem n (.currentShell body)) := by
  intro i rest h
  simp only [Compound.tree] at h ⊢
  rw [length_stream_node (by simp)]
  unfold compoundCommand execCompound
  refine moves_laType_node h (moves_open (by simp) h fun h => ?_)
  simp only [forestStream_cons, forestStream_nil, List.append_nil] at h ⊢
  refine (moves_thenUp (hbody _ _ h) h.advance).to ?_
  simp only [CommandList.tree]
  omega

theorem compoundCond_walks {c : rawLeaves.Cond} :
    Walks toks (Compound.cond c).tree (compoundCommand toks sem crash n (d + 1))
      (execCompound sem n (.cond c)) := by
  intro i rest h
  simp only [Compound.tree] at h ⊢
  rw [length_stream_node (by simp)]
  unfold compoundCommand execCompound
  refine moves_laType_node h (moves_open (by simp) h fun h => ?_)
  simp only [forestStream_cons, forestStream_nil, List.append_nil] at h ⊢
  refine moves_bind (condExpr_moves c h) fun holds => ?_
  exact (moves_thenUp (moves_action _) h.advance).to (by omega)

theorem arithmeticExpression_walks {e : rawLeaves.Arith} :
    Walks toks (Compound.arith e).tree (compoundCommand toks sem crash n (d + 1))
      (execCompound sem n (.arith e)) := by
  intro i rest h
  simp only [Compound.tree] at h ⊢
  rw [length_stream_node e.2]
  unfold compoundCommand execCompound
  refine moves_laType_node h (moves_open e.2 h fun h => ?_)
  exact moves_bind (arithmetics_moves e h) fun _ => moves_passUp h.advance (by omega)

/-! ## All rules -/

theorem CommandList.listNode_trees (c : CommandList rawLeaves) : listNode c.trees = c.tree := rfl

theorem length_orCasePattern (ts : List AstNode) :
    0 < (forestStream (orCasePattern ts)).length ∧
      (forestStream ts).length ≤ (forestStream (orCasePattern ts)).length := by
  cases ts with
  | nil => simp [orCasePattern]
  | cons t ts =>
    have hpos := List.length_pos_iff.mpr (stream_ne_nil t)
    simp only [orCasePattern, forestStream_cons, List.length_append]
    omega

mutual

theorem command_walks : ∀ (c : Command rawLeaves) {d : Nat}, c.tree.stream.length ≤ d →
    Walks toks c.tree (command toks sem crash n d) (execCommand sem n c)
  | .simple redirs c, d, hd => by
    have hlen := length_le_forestStream (redirs.map Subtype.val)
    have hne : redirs.map Subtype.val ++ c.1 ≠ [] := (Command.simple redirs c).tree_children
    rw [Command.tree, length_stream_node hne, forestStream_append, List.length_append] at hd
    rw [List.length_map] at hlen
    obtain ⟨d, rfl⟩ : ∃ k, d = k + 2 := ⟨d - 2, by omega⟩
    exact command_simple_walks (by omega)
  | .compound redirs c, d, hd => by
    have hlen := length_le_forestStream (redirs.map Subtype.val)
    rw [Command.tree, length_stream_node (by simp), forestStream_append, List.length_append,
      forestStream_cons, forestStream_nil, List.append_nil] at hd
    rw [List.length_map] at hlen
    obtain ⟨d, rfl⟩ : ∃ k, d = k + 2 := ⟨d - 2, by omega⟩
    exact command_compound_walks (compoundCommand_walks c (by omega)) (by omega)

theorem compoundCommand_walks : ∀ (c : Compound rawLeaves) {d : Nat}, c.tree.stream.length < d →
    Walks toks c.tree (compoundCommand toks sem crash n d) (execCompound sem n c)
  -- Each rule is walked on the walks of its parts. The depth of the recursion is bounded by the
  -- length of the stream, of which a part has less than the whole.
  | .currentShell body, d, hd => by
    rw [Compound.tree, length_stream_node (by simp), forestStream_cons, List.length_append,
      body.listNode_trees] at hd
    obtain ⟨d, rfl⟩ : ∃ k, d = k + 1 := ⟨d - 1, by omega⟩
    exact currentShell_walks ((logicCommandLists_walk body).commandList (by omega))
  | .cond c, d, hd => by
    obtain ⟨d, rfl⟩ : ∃ k, d = k + 1 := ⟨d - 1, by omega⟩
    exact compoundCond_walks
  | .arith e, d, hd => by
    obtain ⟨d, rfl⟩ : ∃ k, d = k + 1 := ⟨d - 1, by omega⟩
    exact arithmeticExpression_walks
  | .forEach name words body, d, hd => by
    have hlen := length_le_forestStream (words.map Subtype.val)
    simp only [Compound.tree, length_stream_node (List.cons_ne_nil _ _), forestStream_cons,
      forestStream_append, forestStream_nil, List.length_append, body.listNode_trees] at hd
    rw [List.length_map] at hlen
    obtain ⟨d, rfl⟩ : ∃ k, d = k + 2 := ⟨d - 2, by omega⟩
    have hbody := (logicCommandLists_walk body).commandList (d := d) (by omega)
    exact fun i rest h => moves_laType_root h (forExpr_walks (by omega) hbody i rest h)
  | .cfor init cond mod body, d, hd => by
    rw [Compound.tree, length_stream_node (by simp)] at hd
    simp only [forestStream_cons, forestStream_append, List.length_append,
      body.listNode_trees] at hd
    obtain ⟨d, rfl⟩ : ∃ k, d = k + 3 := ⟨d - 3, by omega⟩
    have hbody := (logicCommandLists_walk body).commandList (d := d) (by omega)
    exact fun i rest h => moves_laType_root h (cforExpr_walks hbody i rest h)
  | .loop negate cond body, d, hd => by
    simp only [Compound.tree, length_stream_node (List.cons_ne_nil _ _), forestStream_cons,
      List.length_append, cond.listNode_trees, body.listNode_trees] at hd
    obtain ⟨d, rfl⟩ : ∃ k, d = k + 2 := ⟨d - 2, by omega⟩
    have hcond := (logicCommandLists_walk cond).commandList (d := d) (by omega)
    have hbody := (logicCommandLists_walk body).commandList (d := d) (by omega)
    intro i rest h
    refine moves_laType_root h ?_
    have hloop := whileExpr_walks negate hcond hbody i rest h
    cases negate <;> exact hloop
  | .ifStatement cond body parts, d, hd => by
    simp only [Compound.tree, length_stream_node (List.cons_ne_nil _ _), forestStream_cons,
      forestStream_nil, List.length_append, List.append_nil, cond.listNode_trees,
      body.listNode_trees] at hd
    obtain ⟨d, rfl⟩ : ∃ k, d = k + 4 := ⟨d - 4, by omega⟩
    have hparts := fun j rest (h : OnTree toks j
        (forestStream (ElseParts.elif cond body parts).trees ++ .up :: rest)) =>
      elif_moves ((logicCommandLists_walk cond).commandList (by omega))
        ((logicCommandLists_walk body).commandList (by omega))
        (fun _ _ h => ifParts_walk parts (by omega) h) (by omega) h (d := d)
    exact fun i rest h => moves_laType_root h (ifExpr_walks hparts i rest h)
  | .caseOf w clauses, d, hd => by
    simp only [Compound.tree, length_stream_node (List.cons_ne_nil _ _), forestStream_cons,
      List.length_append] at hd
    have hlen := length_orCasePattern clauses.trees
    obtain ⟨d, rfl⟩ : ∃ k, d = k + 4 := ⟨d - 4, by omega⟩
    have hclauses := fun target j rest (h : OnTree toks j
        (forestStream clauses.trees ++ .up :: rest)) =>
      caseClauses_walk clauses target (d := d + 1) (by omega) h
    exact fun i rest h => moves_laType_root h (caseExpr_walks hclauses i rest h)

theorem logicCommandList_walks : ∀ (c : LogicCommand rawLeaves) {d : Nat},
    c.tree.stream.length < d →
      Walks toks c.tree (logicCommandList toks sem crash n d) (execLogic sem n c)
  | .command c, d, hd => by
    obtain ⟨d, rfl⟩ : ∃ k, d = k + 1 := ⟨d - 1, by omega⟩
    exact logicCommandList_command (command_walks c (Nat.le_of_lt_succ hd))
  | .logic isAnd left right, d, hd => by
    have hlen := hd
    simp only [LogicCommand.tree, length_stream_node (List.cons_ne_nil _ _), forestStream_cons,
      forestStream_nil, List.length_append, List.append_nil] at hlen
    obtain ⟨d, rfl⟩ : ∃ k, d = k + 2 := ⟨d - 2, by omega⟩
    exact logicCommandList_logic (logicCommand_walks (logicCommandList_walks left (by omega))
      (command_walks right (by omega)))

theorem logicCommandLists_walk : ∀ c : CommandList rawLeaves, ListWalks toks sem crash n c
  | .last c => listWalks_last fun _ hd => logicCommandList_walks c hd
  | .cons c rest =>
    listWalks_cons (fun _ hd => logicCommandList_walks c hd) (logicCommandLists_walk rest)

theorem ifParts_walk : ∀ (parts : ElseParts rawLeaves) {d i : Nat} {rest : NodeStream},
    (forestStream parts.trees).length ≤ d →
      OnTree toks i (forestStream parts.trees ++ .up :: rest) →
        Moves i (i + (forestStream parts.trees).length)
          (ifParts toks sem crash n (d + 1) false) (execElse sem n parts)
  | .fi, d, i, rest, hd, h => moves_laType_up h (moves_pure ())
  | .elsePart body, d, i, rest, hd, h => by
    simp only [ElseParts.trees, length_stream_node (List.cons_ne_nil _ _), forestStream_cons,
      forestStream_nil, List.append_nil, body.listNode_trees] at hd
    exact elsePart_moves ((logicCommandLists_walk body).commandList (by omega)) h
  | .elif cond body parts, d, i, rest, hd, h => by
    simp only [ElseParts.trees, length_stream_node (List.cons_ne_nil _ _), forestStream_cons,
      forestStream_nil, List.append_nil, List.length_append, cond.listNode_trees,
      body.listNode_trees] at hd
    obtain ⟨d, rfl⟩ : ∃ k, d = k + 1 := ⟨d - 1, by omega⟩
    exact elif_moves ((logicCommandLists_walk cond).commandList (by omega))
      ((logicCommandLists_walk body).commandList (by omega))
      (fun _ _ h => ifParts_walk parts (by omega) h) (by omega) h

theorem caseClauses_walk : ∀ (clauses : Clauses rawLeaves) {d i : Nat} {rest : NodeStream}
    (target : String), (forestStream clauses.trees).length ≤ d →
      OnTree toks i (forestStream clauses.trees ++ .up :: rest) →
        Moves i (i + (forestStream clauses.trees).length)
          (caseClauses toks sem crash n (d + 1) target) (execClauses sem n target clauses)
  | .esac, d, i, rest, target, hd, h => moves_laIs_up h (moves_pure ())
  | .empty p clauses, d, i, rest, target, hd, h => by
    simp only [Clauses.trees, length_stream_node p.2.1, forestStream_cons,
      List.length_append] at hd
    obtain ⟨d, rfl⟩ : ∃ k, d = k + 1 := ⟨d - 1, by omega⟩
    simp only [Clauses.trees, forestStream_cons, List.append_assoc] at h
    have hrest := clauses_moves clauses rfl (caseClause_empty h)
      (fun _ _ h => caseClauses_walk clauses target (by omega) h) (by omega) h (n := n) (d := d)
    rw [execClauses]
    simpa only [Clauses.trees, forestStream_cons, List.length_append] using hrest
  | .commands p body clauses, d, i, rest, target, hd, h => by
    simp only [Clauses.trees, forestStream_cons, List.length_append] at hd
    rw [length_stream_node (by simp)] at hd
    simp only [forestStream_cons, forestStream_append, List.length_append,
      body.listNode_trees] at hd
    obtain ⟨d, rfl⟩ : ∃ k, d = k + 1 := ⟨d - 1, by omega⟩
    simp only [Clauses.trees, forestStream_cons, List.append_assoc] at h
    have hbody := (logicCommandLists_walk body).commandList (d := d) (by omega)
    have hrest := clauses_moves clauses rfl (caseClause_commands hbody h)
      (fun _ _ h => caseClauses_walk clauses target (by omega) h) (by omega) h (n := n) (d := d)
    rw [execClauses, ← runMatched_bind]
    simpa only [Clauses.trees, forestStream_cons, List.length_append] using hrest

end

/-! ## The walk as a whole -/

theorem commandList_walks (c : CommandList rawLeaves) (d : Nat) :
    Walks toks c.tree (commandList toks sem crash n (c.tree.stream.length + d))
      (execList sem n c) :=
  (logicCommandLists_walk c).commandList (by omega)

/-- The walker on the stream of a command tree, wherever the stream stands,
diverges, ends or raises as structural execution of the tree does and in the
same state; when it ends, its cursor stands right after the tree. -/
theorem commandList_refines_execList (sem : LeafSem rawLeaves S) (crash : Nat → S → Exn → Nat)
    (n d : Nat) (c : CommandList rawLeaves) (before after : NodeStream) (s : S) :
    let toks := before ++ (c.tree.stream ++ after)
    let walk := commandList toks sem crash n (c.tree.stream.length + d) ⟨before.length, s⟩
    match execList sem n c s with
    | none => walk = none
    | some (.ok (), s') =>
      walk = some (.ok (), ⟨before.length + c.tree.stream.length, s'⟩)
    | some (.error e, s') => ∃ p, walk = some (.error e, ⟨p, s'⟩) := by
  intro toks walk
  have hwalk : Moves before.length _ (commandList toks sem crash n (c.tree.stream.length + d))
      (execList sem n c) :=
    commandList_walks c d _ _ (onTree_append before (c.tree.stream ++ after))
  have hat : At before.length (⟨before.length, s⟩ : Cursor S) s := ⟨rfl, rfl⟩
  rcases hexec : execList sem n c s with _ | ⟨e | ⟨⟩, s'⟩
  · exact hwalk.diverges hat hexec
  · obtain ⟨⟨p, s''⟩, hw, rfl⟩ := hwalk.raises hat hexec
    exact ⟨p, hw⟩
  · obtain ⟨⟨⟩, ⟨p, s''⟩, hw, -, rfl, rfl⟩ := hwalk.finishes hat hexec
    exact hw

end Libbash
