import Libbash.Walker.Rules

/-!
# The cursor walk refines structural execution

`commandList` on the stream of a tree does what `execList` does on the tree:
the same state, status and exception, and after a normal end the cursor
stands right after the tree's last symbol. The proof has one lemma per rule,
`*_moves`, by induction on the tree; the loops are inductions on their passes
(`forPasses_moves`, `whilePasses_moves`, `cforPasses_moves`), and an exception
that leaves the cursor anywhere is taken up by the `SEEK` of the handler that
catches it.
-/

namespace Libbash

open Lib Lib.Comp

variable {S : Type} {α β : Type} {toks : NodeStream} {sem : LeafSem rawLeaves S}
  {crash : Nat → S → Exn → Nat} {n i j : Nat} {rest : NodeStream}

/-! ## Rules below the command level -/

theorem moves_leaf {read : NodeStream → Option α} {run : α → Comp Exn S β} {a : α}
    (stream : α → NodeStream) (h : OnTree toks i (stream a ++ rest))
    (hread : read (stream a ++ rest) = some a) :
    Moves i (i + (stream a).length) (leaf toks crash read stream run) (run a) := by
  have hdrop : read (toks.drop i) = some a := by rw [show toks.drop i = _ from h, hread]
  refine Sim.intro ?_ ?_ ?_
  · rintro ⟨_, _⟩ s ⟨rfl, rfl⟩ hm
    simp only at hdrop hm
    simp only [leaf, hdrop, hm]
  · rintro ⟨p, _⟩ s b s' ⟨rfl, rfl⟩ hm
    simp only at hdrop hm
    exact ⟨b, ⟨p + (stream a).length, s'⟩, by simp only [leaf, hdrop, hm], rfl, rfl, rfl⟩
  · rintro ⟨p, _⟩ s e s' ⟨rfl, rfl⟩ hm
    simp only at hdrop hm
    exact ⟨⟨crash p s' e, s'⟩, by simp only [leaf, hdrop, hm], rfl⟩

theorem readRedirect_stream (r : rawLeaves.Redirect) (h : NoDown rest) :
    readRedirect (r.1.stream ++ rest) = some r := by
  unfold readRedirect
  rw [readTree_stream r.1 h (by simp)]
  simp only [dif_pos r.2]

theorem readSimple_stream (c : rawLeaves.Simple) (h : NoDown rest) (hc : AtClose rest) :
    readSimple (forestStream c.1 ++ rest) = some c := by
  unfold readSimple
  rw [readForest_stream c.1 h hc (by simp)]
  simp only [dif_pos c.2]

theorem readWord_stream (w : rawLeaves.Word) (h : NoDown rest) :
    readWord (w.1.stream ++ rest) = some w := by
  unfold readWord
  rw [readTree_stream w.1 h (by simp)]
  simp only [dif_pos w.2]

theorem readArith_stream (e : rawLeaves.Arith) (h : NoDown rest) (hc : AtClose rest) :
    readArith (forestStream e.1 ++ rest) = some e := by
  unfold readArith
  rw [readForest_stream e.1 h hc (by simp)]
  simp only [dif_pos e.2]

theorem readCond_stream (c : rawLeaves.Cond) (h : NoDown rest) :
    readCond (c.stream ++ rest) = some c := by
  unfold readCond
  rw [readTree_stream c h (by simp)]
  rfl

theorem readPattern_stream (p : rawLeaves.Pattern) (h : NoDown rest)
    (hstop : ∀ t : Token, rest.head? = some (.tok t) → t.type ≠ .branch) :
    readPattern (forestStream p.1 ++ rest) = some p := by
  have hwhile := readWhile_stream (fun t : Token => t.type == .branch) p.1
    (n := (forestStream p.1 ++ rest).length + 1) (s := rest)
    (fun t ht => beq_iff_eq.mpr (p.2.2 t ht)) h
    (fun t ht => beq_eq_false_iff_ne.mpr (hstop t ht)) (by simp)
  unfold readPattern
  simp only [hwhile, dif_pos p.2]

theorem redirect_moves (r : rawLeaves.Redirect) (h : OnTree toks i (r.1.stream ++ rest))
    (hrest : NoDown rest) :
    Moves i (i + r.1.stream.length) (redirect toks sem crash) (sem.redirect r) :=
  moves_leaf (fun r : rawLeaves.Redirect => r.1.stream) h (readRedirect_stream r hrest)

theorem simpleCommand_moves (c : rawLeaves.Simple)
    (h : OnTree toks i (forestStream c.1 ++ .up :: rest)) :
    Moves i (i + (forestStream c.1).length) (simpleCommand toks sem crash) (sem.simple c) :=
  moves_leaf (fun c : rawLeaves.Simple => forestStream c.1) h
    (readSimple_stream c (noDown_up _) (atClose_up _))

theorem condExpr_moves (c : rawLeaves.Cond) (h : OnTree toks i (c.stream ++ .up :: rest)) :
    Moves i (i + c.stream.length) (condExpr toks sem crash) (sem.cond c) :=
  moves_leaf (fun c : rawLeaves.Cond => NodeTree.stream c) h (readCond_stream c (noDown_up _))

theorem arithmetics_moves (e : rawLeaves.Arith)
    (h : OnTree toks i (forestStream e.1 ++ .up :: rest)) :
    Moves i (i + (forestStream e.1).length) (arithmeticsRule toks sem crash) (sem.arith e) :=
  moves_leaf (fun e : rawLeaves.Arith => forestStream e.1) h
    (readArith_stream e (noDown_up _) (atClose_up _))

theorem forWord_moves (w : rawLeaves.Word) (h : OnTree toks i (w.1.stream ++ rest))
    (hrest : NoDown rest) :
    Moves i (i + w.1.stream.length) (forWord toks sem crash) (sem.forWord w) :=
  moves_leaf (fun w : rawLeaves.Word => w.1.stream) h (readWord_stream w hrest)

theorem word_moves (w : rawLeaves.Word) (h : OnTree toks i (w.1.stream ++ rest))
    (hrest : NoDown rest) :
    Moves i (i + w.1.stream.length) (word toks sem crash) (sem.caseWord w) :=
  moves_leaf (fun w : rawLeaves.Word => w.1.stream) h (readWord_stream w hrest)

theorem compositePattern_moves (p : rawLeaves.Pattern) (target : String)
    (h : OnTree toks i (forestStream p.1 ++ rest)) (hrest : NoDown rest)
    (hstop : ∀ t : Token, rest.head? = some (.tok t) → t.type ≠ .branch) :
    Moves i (i + (forestStream p.1).length) (compositePattern toks sem crash target)
      (sem.matchPattern p target) :=
  moves_leaf (fun p : rawLeaves.Pattern => forestStream p.1) h (readPattern_stream p hrest hstop)

/-! ## The stream guard -/

theorem moves_savingStreams {w : Walk S α} {m : Comp Exn S α} (h : Moves i j w m) :
    Moves i j (savingStreams sem w) (withStreams sem m) := by
  intro c s hc
  have hs := h c s hc
  obtain ⟨-, rfl⟩ := hc
  cases hm : m c.inner with
  | none =>
    rw [hm] at hs
    simp only [withStreams, savingStreams, bracket, hm, hs]
  | some out =>
    obtain ⟨r, s'⟩ := out
    rw [hm] at hs
    cases r with
    | ok b =>
      obtain ⟨a, ⟨p, s''⟩, hw, rfl, rfl, rfl⟩ := hs
      simp only [withStreams, savingStreams, bracket, hm, hw]
      exact ⟨_, _, rfl, rfl, rfl, rfl⟩
    | error e =>
      obtain ⟨⟨p, s''⟩, hw, rfl⟩ := hs
      simp only [withStreams, savingStreams, bracket, hm, hw]
      exact ⟨_, rfl, rfl⟩

/-! ## Actions inside handlers -/

@[simp] theorem action_pure (a : α) : action (pure a : Comp Exn S α) = pure a := rfl

@[simp] theorem action_throw (e : Exn) : action (throw e : Comp Exn S α) = throw e := rfl

theorem rethrow_one (kind : LoopControl) :
    (rethrowUnlessCorrectFrame kind 1 : Comp Exn S Unit) = pure () := rfl

theorem rethrow_ne {kind : LoopControl} {count : Int} (h : count ≠ 1) :
    (rethrowUnlessCorrectFrame kind count : Comp Exn S Unit) =
      throw (.loopControl kind (count - 1)) := if_pos h

/-! ## Loops -/

section Passes

variable {body : Walk S Unit} {m : Comp Exn S Unit} {k : Nat}

/-- A pass that goes on with the next one from `l`, and that a `break` ends at `j`. -/
theorem pass_moves {next : Walk S Unit} {rest : Comp Exn S Unit} {l : Nat}
    (hbody : Moves i k body m) (hnext : Moves l j next rest) :
    Moves i j
      (tryCatch (do body; pure true) (fun
          | .loopControl .continueException count => do
            action (rethrowUnlessCorrectFrame .continueException count)
            pure true
          | .loopControl .breakException count => do
            action (rethrowUnlessCorrectFrame .breakException count)
            seek j
            pure false
          | e => throw e) >>= fun again =>
        if again then do
          seek l
          next
        else pure ())
      (loopBody m >>= fun again => if again then rest else pure ()) := by
  refine sim_tryCatch_bind hbody ?_ ?_
  · exact fun _ _ => Sim.before (sim_seek hnext) fun _ _ h => h.2.anywhere
  · intro e
    cases e with
    | loopControl kind count =>
      cases kind <;> by_cases hc : count = 1
      · subst hc
        simp only [rethrow_one, action_pure, pure_bind, if_true]
        exact sim_seek hnext
      · simp only [rethrow_ne hc, action_throw, throw_bind]
        exact sim_throw fun _ _ h => h
      · subst hc
        simp only [rethrow_one, action_pure, pure_bind, bind_assoc]
        exact sim_seek (moves_pure ())
      · simp only [rethrow_ne hc, action_throw, throw_bind]
        exact sim_throw fun _ _ h => h
    | _ => exact sim_throw fun _ _ h => h

variable (sem) in
/-- The `for` loop starts and ends each pass on the command list. -/
theorem forPasses_moves (hbody : Moves i j body m) (name : String) (values : List String) :
    Moves i i (forPasses sem body name i values) (forLoop sem name m values) := by
  induction values with
  | nil => exact moves_pure ()
  | cons value values ih =>
    unfold forPasses forLoop
    exact moves_bind (moves_action _) fun _ => pass_moves hbody ih

variable (sem) in
/-- The `while` loop starts each pass on the condition list at `i` and ends on
the command list at `j`. -/
theorem whilePasses_moves {cond : Comp Exn S Unit} {w : Walk S Unit} (hcond : Moves i j w cond)
    (hbody : Moves j k w m) (negate : Bool) (passes : Nat) :
    Moves i j (whilePasses sem w negate i passes) (whileLoop sem negate cond m passes) := by
  induction passes with
  | zero => exact moves_diverge
  | succ passes ih =>
    unfold whilePasses whileLoop loopTest
    simp only [bind_assoc, pure_bind]
    refine moves_bind hcond fun _ => moves_bind (moves_action _) fun status => ?_
    cases hstop : loopStops negate status with
    | true =>
      simp only [Bool.not_true, Bool.false_eq_true, if_true, if_false]
      exact moves_pure ()
    | false =>
      simp only [Bool.not_false, Bool.false_eq_true, if_true, if_false]
      exact moves_step j (fun s => index_step s) (pass_moves hbody ih)

/-- The C-style loop starts each pass on its condition at `i`, or on the command
list when it has none, and ends on the command list at `j`. -/
theorem cforPasses_moves {w : Walk S Unit} {cond mod : Option rawLeaves.Arith} {l : Nat}
    (hcond : Moves i j (forCondition toks sem crash cond.isSome) (cforTest sem cond))
    (hbody : Moves j k w m)
    (hmod : ∀ e, mod = some e → Moves k l (forPart toks sem crash .forMod) (sem.arith e))
    (passes : Nat) :
    Moves i j (cforPasses toks sem crash w cond.isSome mod.isSome i k passes)
      (cforLoop sem cond mod m passes) := by
  induction passes with
  | zero => exact moves_diverge
  | succ passes ih =>
    -- the modification from `k` and the return to the condition
    have hnext : Moves k j (if mod.isSome then do
          let _ ← forPart toks sem crash .forMod
          seek i
          cforPasses toks sem crash w cond.isSome mod.isSome i k passes
        else do
          seek i
          cforPasses toks sem crash w cond.isSome mod.isSome i k passes)
        (runArith sem mod >>= fun _ => cforLoop sem cond mod m passes) := by
      cases mod with
      | none => exact moves_step () (fun s => seek_step s i) ih
      | some e =>
        simp only [Option.isSome_some, if_true, runArith, bind_assoc, pure_bind]
        exact moves_bind (hmod e rfl) fun _ => moves_step () (fun s => seek_step s i) ih
    unfold cforPasses cforLoop loopBody
    refine moves_bind hcond fun holds => ?_
    cases holds with
    | false => exact moves_pure ()
    | true =>
      refine moves_step j (fun s => index_step s) (sim_tryCatch_bind hbody ?_ ?_)
      · exact fun _ _ => Sim.before hnext fun _ _ h => h.2
      · intro e
        cases e with
        | loopControl kind count =>
          cases kind <;> by_cases hc : count = 1
          · subst hc
            simp only [rethrow_one, action_pure, pure_bind, if_true]
            cases mod with
            | none =>
              simp only [Option.isSome_none, Bool.false_eq_true, if_false, runArith, bind_assoc,
                pure_bind] at ih ⊢
              exact sim_seek ih
            | some e =>
              simp only [Option.isSome_some, if_true, runArith, bind_assoc, pure_bind] at hnext ⊢
              exact sim_seek hnext
          · simp only [rethrow_ne hc, action_throw, throw_bind]
            exact sim_throw fun _ _ h => h
          · subst hc
            simp only [rethrow_one, action_pure, pure_bind, bind_assoc]
            exact sim_seek (moves_pure ())
          · simp only [rethrow_ne hc, action_throw, throw_bind]
            exact sim_throw fun _ _ h => h
        | _ => exact sim_throw fun _ _ h => h

end Passes

/-! ## Rules that read a sequence of leaves -/

theorem redirects_moves {t : Token} {s : NodeStream} (ht : startsRedirect t.type = false)
    (redirs : List rawLeaves.Redirect) {d : Nat}
    (h : OnTree toks i (forestStream (redirs.map Subtype.val) ++ .tok t :: s))
    (hd : redirs.length < d) :
    Moves i (i + (forestStream (redirs.map Subtype.val)).length) (redirects toks sem crash d)
      (runRedirects sem redirs) := by
  induction redirs generalizing i d with
  | nil =>
    obtain ⟨d, rfl⟩ : ∃ k, d = k + 1 := Nat.exists_eq_succ_of_ne_zero (by simp at hd; omega)
    refine moves_laType_tok h ?_
    simp only [ht, Bool.false_eq_true, if_false]
    exact moves_pure ()
  | cons r redirs ih =>
    obtain ⟨d, rfl⟩ : ∃ k, d = k + 1 := Nat.exists_eq_succ_of_ne_zero (by simp at hd; omega)
    simp only [List.map_cons, forestStream_cons, List.append_assoc] at h
    have hroot := h
    rw [stream_eq_cons, List.cons_append] at hroot
    refine moves_laType_tok hroot ?_
    simp only [show startsRedirect r.1.label.type = true from r.2, if_true]
    have hnext : NoDown (forestStream (redirs.map Subtype.val) ++ Sym.tok t :: s) :=
      noDown_forest _ (by simp [NoDown])
    refine moves_bind (redirect_moves r h hnext) fun _ => (ih h.advance (by simp at hd; omega)).to ?_
    simp only [List.map_cons, forestStream_cons, List.length_append]
    omega

variable (sem crash) in
/-- `forWords` runs up to the command list and says whether there was a word. -/
theorem forWords_moves {t : Token} {s : NodeStream} (ht : t.type ≠ .string)
    (words : List rawLeaves.Word) {d : Nat} (splitted : List String) (inArray : Bool)
    (h : OnTree toks i (forestStream (words.map Subtype.val) ++ .tok t :: s))
    (hd : words.length < d) :
    Moves i (i + (forestStream (words.map Subtype.val)).length)
      (forWords toks sem crash d splitted inArray)
      (splitWords sem splitted words >>= fun values =>
        pure (values, inArray || !words.isEmpty)) := by
  induction words generalizing i d splitted inArray with
  | nil =>
    obtain ⟨d, rfl⟩ : ∃ k, d = k + 1 := Nat.exists_eq_succ_of_ne_zero (by simp at hd; omega)
    refine moves_laIs_tok h ?_
    simp only [beq_eq_false_iff_ne.mpr ht, Bool.false_eq_true, if_false, splitWords, pure_bind,
      List.isEmpty_nil, Bool.not_true, Bool.or_false]
    exact moves_pure _
  | cons w words ih =>
    obtain ⟨d, rfl⟩ : ∃ k, d = k + 1 := Nat.exists_eq_succ_of_ne_zero (by simp at hd; omega)
    simp only [List.map_cons, forestStream_cons, List.append_assoc] at h
    have hroot := h
    rw [stream_eq_cons, List.cons_append] at hroot
    refine moves_laIs_tok hroot ?_
    simp only [show w.1.label.type = .string from w.2, BEq.rfl, if_true, splitWords, bind_assoc]
    have hnext : NoDown (forestStream (words.map Subtype.val) ++ Sym.tok t :: s) :=
      noDown_forest _ (by simp [NoDown])
    refine moves_bind (forWord_moves w h hnext) fun values => ?_
    have hrest := ih (splitted ++ values) true h.advance (d := d) (by simp at hd; omega)
    simp only [Bool.true_or, List.isEmpty_cons, Bool.not_false, Bool.or_true] at hrest ⊢
    refine hrest.to ?_
    simp only [List.map_cons, forestStream_cons, List.length_append]
    omega

theorem forPart_moves (ty : TokenType) (e : rawLeaves.Arith)
    (h : OnTree toks i ((astNode ty e.1).stream ++ rest)) :
    Moves i (i + (astNode ty e.1).stream.length) (forPart toks sem crash ty) (sem.arith e) := by
  unfold forPart
  rw [← bind_pure (sem.arith e)]
  refine moves_open (t := ⟨ty, ""⟩) e.2 h fun h => ?_
  refine moves_bind (arithmetics_moves e h) fun value => moves_up h.advance ((moves_pure value).to ?_)
  rw [stream_node e.2]
  simp
  omega

variable (sem crash) in
theorem forCondition_moves (cond : Option rawLeaves.Arith)
    (h : OnTree toks i (forestStream (optionTree .forCond cond) ++ rest)) :
    Moves i (i + (forestStream (optionTree .forCond cond)).length)
      (forCondition toks sem crash cond.isSome) (cforTest sem cond) := by
  cases cond with
  | none => exact moves_pure true
  | some e =>
    simp only [optionTree, forestStream_cons, forestStream_nil, List.append_nil] at h ⊢
    exact moves_bind (forPart_moves .forCond e h) fun value => moves_pure (value != 0)

end Libbash
