import Libbash.Walker.Token
import Libbash.Lib.Simulation

/-!
# The cursor of the tree parser

A walker rule runs over a node stream and a cursor into it. The macros of the
ANTLR runtime (`LA`, `SEEK`, `INDEX`, `CONSUME`, `MATCHT`) are state
operations, and `seek_to_next_tree` and `skip_next_token_or_tree` are built
from them as in the `@members` section of `libbashWalker.g`. `name_base` is the
one rule that command lists and arithmetic share.

`OnTree` places a stretch of stream at the cursor; the lemmas of the second
half say where each operation leaves the cursor on it.
-/

namespace Libbash

open Lib Lib.Comp

variable {S α β : Type}

/-- A walker's cursor together with the state its actions work on. -/
structure Cursor (S : Type) where
  index : Nat
  inner : S

/-- A walker rule. -/
abbrev Walk (S α : Type) : Type := Comp Exn (Cursor S) α

/-- An action of the grammar: it works on the state and leaves the cursor. -/
def action (m : Comp Exn S α) : Walk S α := fun c =>
  match m c.inner with
  | none => none
  | some (r, s) => some (r, ⟨c.index, s⟩)

section Rules

variable (toks : NodeStream)

/-- `LA(k)`; beyond the end of the stream there is no symbol. -/
def la (k : Nat) : Walk S (Option (Sym Token)) := reads fun c => toks[c.index + k - 1]?

/-- The token type `LA(k)`, when there is a token. -/
def laType (k : Nat) : Walk S (Option TokenType) := reads fun c =>
  match toks[c.index + k - 1]? with
  | some (.tok t) => some t.type
  | _ => none

/-- `LA(1) == ty`. -/
def laIs (ty : TokenType) : Walk S Bool := do pure ((← laType toks 1) == some ty)

/-- `INDEX()`. -/
def index : Walk S Nat := reads Cursor.index

/-- `SEEK(i)`. -/
def seek (i : Nat) : Walk S Unit := update fun c => { c with index := i }

/-- `CONSUME()`. -/
def consume : Walk S Unit := update fun c => { c with index := c.index + 1 }

/-- `MATCHT` of a token type. -/
def matchToken (ty : TokenType) : Walk S Token := do
  match ← la toks 1 with
  | some (.tok t) => if t.type = ty then do consume; pure t else throw .recognition
  | _ => throw .recognition

/-- `MATCHT` of the imaginary `DOWN`. -/
def matchDown : Walk S Unit := do
  if (← la toks 1) = some .down then consume else throw .recognition

/-- `MATCHT` of the imaginary `UP`. -/
def matchUp : Walk S Unit := do
  if (← la toks 1) = some .up then consume else throw .recognition

/-- The loop of `seek_to_next_tree`: from look-ahead `ahead` with `depth` open
trees, the look-ahead after the symbol that closed the last of them. Past the
end of the stream the loop never ends, which its bound turns into `none`. -/
def scanDepth (p : Nat) : Nat → Nat → Nat → Option Nat
  | _, 0, ahead => some ahead
  | 0, _ + 1, _ => none
  | n + 1, depth + 1, ahead =>
    match toks[p + ahead - 1]? with
    | some .down => scanDepth p n (depth + 2) (ahead + 1)
    | some .up => scanDepth p n depth (ahead + 1)
    | _ => scanDepth p n (depth + 1) (ahead + 1)

/-- The look-ahead at which the loop of `seek_to_next_tree` stops. -/
def scanFromLA4 : Walk S Nat := fun c =>
  match scanDepth toks c.index (toks.length + 1) 1 4 with
  | none => none
  | some ahead => some (.ok ahead, c)

/-- `seek_to_next_tree`. -/
def seekToNextTree : Walk S Unit := do
  let stop ← scanFromLA4 toks
  seek ((← index) + stop - 2)
  consume

/-- `if(b) seek_to_next_tree(ctx)`. -/
def seekToNextTreeIf (b : Bool) : Walk S Unit := if b then seekToNextTree toks else pure ()

/-- `skip_next_token_or_tree`. -/
def skipNextTokenOrTree : Walk S Unit := do
  if (← la toks 2) ≠ some .down then seek ((← index) + 1) else seekToNextTree toks

/-- `name_base`. -/
def nameBase : Walk S String := do
  match ← la toks 1 with
  | some (.tok t) =>
    if t.type = .name ∨ t.type = .letter ∨ t.type = .underscore then do
      consume
      pure t.text
    else throw .recognition
  | _ => throw .recognition

end Rules

/-! ## Where the cursor stands -/

/-- The rest of the stream at position `i`. -/
def OnTree (toks : NodeStream) (i : Nat) (rest : NodeStream) : Prop := toks.drop i = rest

variable {toks : NodeStream} {i : Nat} {rest : NodeStream}

theorem OnTree.getElem? (h : OnTree toks i rest) (k : Nat) : toks[i + k]? = rest[k]? := by
  rw [← h, List.getElem?_drop]

theorem OnTree.advance {s : NodeStream} (h : OnTree toks i (s ++ rest)) :
    OnTree toks (i + s.length) rest := by
  unfold OnTree at h ⊢
  rw [← List.drop_drop, h, List.drop_left]

theorem OnTree.tail {x : Sym Token} (h : OnTree toks i (x :: rest)) :
    OnTree toks (i + 1) rest :=
  OnTree.advance (s := [x]) h

theorem onTree_append (pre s : NodeStream) : OnTree (pre ++ s) pre.length s := List.drop_left

theorem OnTree.length_le (h : OnTree toks i rest) : rest.length ≤ toks.length := by
  rw [← h, List.length_drop]
  omega

/-- The cursor at `i`, both sides in the same state. -/
def At (i : Nat) (c : Cursor S) (s : S) : Prop := c.index = i ∧ c.inner = s

/-- The cursor anywhere, both sides in the same state. -/
def Anywhere (c : Cursor S) (s : S) : Prop := c.inner = s

/-- Both sides ended with one result, the cursor at `j`. -/
def EndsAt (j : Nat) (a b : α) (c : Cursor S) (s : S) : Prop := a = b ∧ At j c s

/-- A rule that starts at `i` does what `m` does and ends at `j`; an exception
may leave the cursor anywhere. -/
def Moves (i j : Nat) (w : Walk S α) (m : Comp Exn S α) : Prop :=
  Sim (At i) (EndsAt j) Anywhere w m

theorem At.anywhere {c : Cursor S} {s : S} (h : At i c s) : Anywhere c s := h.2

/-! ## Composition of moves -/

section Moves

variable {i j k : Nat} {w : Walk S α} {m : Comp Exn S α}

theorem moves_pure (a : α) : Moves (S := S) i i (pure a) (pure a) :=
  sim_pure fun _ _ h => ⟨rfl, h⟩

theorem moves_diverge : Moves (S := S) (α := α) i j diverge diverge := sim_diverge

theorem moves_action (m : Comp Exn S α) : Moves i i (action m) m := by
  refine Sim.intro ?_ ?_ ?_
  · rintro ⟨_, _⟩ s ⟨rfl, rfl⟩ h
    simp [action, h]
  · rintro ⟨p, _⟩ s b s' ⟨rfl, rfl⟩ h
    exact ⟨b, ⟨p, s'⟩, by simp [action, h], rfl, rfl, rfl⟩
  · rintro ⟨p, _⟩ s e s' ⟨rfl, rfl⟩ h
    exact ⟨⟨p, s'⟩, by simp [action, h], rfl⟩

theorem moves_bind {f : α → Walk S β} {g : α → Comp Exn S β} (h : Moves i j w m)
    (hk : ∀ a, Moves j k (f a) (g a)) : Moves i k (w >>= f) (m >>= g) :=
  sim_bind h fun a b => by
    intro c s hc
    obtain ⟨rfl, hat⟩ := hc
    exact hk a c s hat

/-- A step of the walker alone, from a known cursor. -/
theorem moves_step {f : α → Walk S β} {m : Comp Exn S β} (a : α)
    (hw : ∀ s, w ⟨i, s⟩ = some (.ok a, ⟨j, s⟩)) (hk : Moves j k (f a) m) :
    Moves i k (w >>= f) m :=
  sim_step (R := fun b c s => b = a ∧ At j c s)
    (by rintro ⟨_, _⟩ s ⟨rfl, rfl⟩; exact ⟨a, _, hw _, rfl, rfl, rfl⟩)
    (by rintro b c s ⟨rfl, hat⟩; exact hk c s hat)

/-- The last step of a rule made by the walker alone. -/
theorem moves_finish {w : Walk S Unit} {m : Comp Exn S Unit} {v : Walk S Unit}
    (h : Moves i j w m) (hv : ∀ s, v ⟨j, s⟩ = some (.ok (), ⟨k, s⟩)) :
    Moves i k (w >>= fun _ => v) m := by
  refine Sim.intro ?_ ?_ ?_
  · intro c s hc hm
    exact bind_of_none (h.diverges hc hm) _
  · intro c s b s' hc hm
    obtain ⟨a, ⟨p, s''⟩, hw, -, hp, hs⟩ := h.finishes hc hm
    cases hp
    cases hs
    exact ⟨(), ⟨k, s''⟩, by rw [bind_of_ok hw]; exact hv s'', rfl, rfl, rfl⟩
  · intro c s e s' hc hm
    obtain ⟨c', hw, hx⟩ := h.raises hc hm
    exact ⟨c', bind_of_error hw _, hx⟩

/-- From anywhere, a `SEEK` puts the cursor back. -/
theorem sim_seek {Q : β → β → Cursor S → S → Prop} {f : Unit → Walk S β} {m : Comp Exn S β}
    (hk : Sim (At j) Q Anywhere (f ()) m) : Sim Anywhere Q Anywhere (seek j >>= f) m :=
  sim_step (R := fun _ c s => At j c s)
    (by rintro ⟨_, _⟩ s rfl; exact ⟨(), _, rfl, rfl, rfl⟩) (fun _ => hk)

end Moves

/-! ## The cursor operations on a stretch of stream -/

section Steps

variable {toks : NodeStream} {i : Nat} {rest : NodeStream} (s : S)

theorem index_step : index ⟨i, s⟩ = some (.ok i, (⟨i, s⟩ : Cursor S)) := rfl

theorem seek_step (j : Nat) : seek j ⟨i, s⟩ = some (.ok (), (⟨j, s⟩ : Cursor S)) := rfl

theorem la_step (h : OnTree toks i rest) (k : Nat) :
    la toks (k + 1) ⟨i, s⟩ = some (.ok rest[k]?, (⟨i, s⟩ : Cursor S)) := by
  simp only [la, reads_apply, h.getElem? k, ← Nat.add_assoc, Nat.add_sub_cancel]

theorem laType_step (h : OnTree toks i rest) (k : Nat) :
    laType toks (k + 1) ⟨i, s⟩ = some (.ok (match rest[k]? with
      | some (.tok t) => some t.type
      | _ => none), (⟨i, s⟩ : Cursor S)) := by
  simp only [laType, reads_apply, h.getElem? k, ← Nat.add_assoc, Nat.add_sub_cancel]

theorem matchToken_step {t : Token} (h : OnTree toks i (.tok t :: rest)) :
    matchToken toks t.type ⟨i, s⟩ = some (.ok t, (⟨i + 1, s⟩ : Cursor S)) := by
  unfold matchToken
  rw [bind_of_ok (la_step s h 0)]
  simp only [List.getElem?_cons_zero, if_true]
  rfl

theorem matchDown_step (h : OnTree toks i (.down :: rest)) :
    matchDown toks ⟨i, s⟩ = some (.ok (), (⟨i + 1, s⟩ : Cursor S)) := by
  unfold matchDown
  rw [bind_of_ok (la_step s h 0)]
  simp only [List.getElem?_cons_zero, if_true]
  rfl

theorem matchUp_step (h : OnTree toks i (.up :: rest)) :
    matchUp toks ⟨i, s⟩ = some (.ok (), (⟨i + 1, s⟩ : Cursor S)) := by
  unfold matchUp
  rw [bind_of_ok (la_step s h 0)]
  simp only [List.getElem?_cons_zero, if_true]
  rfl

theorem nameBase_step {name : String} (s : S)
    (h : OnTree toks i (.tok (nameToken name) :: rest)) :
    nameBase toks ⟨i, s⟩ = some (.ok name, (⟨i + 1, s⟩ : Cursor S)) := by
  unfold nameBase
  rw [bind_of_ok (la_step s h 0)]
  simp only [List.getElem?_cons_zero, if_pos (nameToken_isName name)]
  rw [bind_of_ok (show consume (⟨i, s⟩ : Cursor S) = some (.ok (), ⟨i + 1, s⟩) from rfl),
    nameToken_text]
  rfl

/-- The scan follows `closeAt` on the rest of the stream. -/
theorem scanDepth_eq (p : Nat) : ∀ (n depth ahead : Nat) {l : Nat} {s : NodeStream},
    OnTree toks (p + ahead) s → closeAt depth s = some l → l ≤ n →
      scanDepth toks p n depth (ahead + 1) = some (ahead + 1 + l) := by
  -- The scan runs along the stream, one symbol and one unit of fuel at a time.
  intro n
  induction n with
  | zero =>
    intro depth ahead l s hs hl hn
    obtain rfl : l = 0 := Nat.le_zero.mp hn
    cases depth with
    | zero => simp [scanDepth]
    | succ d =>
      cases s with
      | nil => cases hl
      | cons x s => cases x <;> simp [closeAt] at hl
  | succ n ih =>
    intro depth ahead l s hs hl hn
    cases depth with
    | zero =>
      simp only [closeAt, Option.some.injEq] at hl
      simp [scanDepth, ← hl]
    | succ d =>
      cases s with
      | nil => cases hl
      | cons x s =>
        have hget : toks[p + (ahead + 1) - 1]? = some x := by
          have := hs.getElem? 0
          simpa using this
        have hnext : OnTree toks (p + (ahead + 1)) s := hs.tail
        cases x with
        | down =>
          simp only [closeAt, Option.map_eq_some_iff] at hl
          obtain ⟨l', hl', rfl⟩ := hl
          simp only [scanDepth, hget]
          rw [ih (d + 2) (ahead + 1) hnext hl' (by omega)]
          simp only [Option.some.injEq]
          omega
        | up =>
          simp only [closeAt, Option.map_eq_some_iff] at hl
          obtain ⟨l', hl', rfl⟩ := hl
          simp only [scanDepth, hget]
          rw [ih d (ahead + 1) hnext hl' (by omega)]
          simp only [Option.some.injEq]
          omega
        | tok t =>
          simp only [closeAt, Option.map_eq_some_iff] at hl
          obtain ⟨l', hl', rfl⟩ := hl
          simp only [scanDepth, hget]
          rw [ih (d + 1) (ahead + 1) hnext hl' (by omega)]
          simp only [Option.some.injEq]
          omega

/-- When the symbols from `LA(3)` on close one tree after `l` more of them,
`seek_to_next_tree` ends right after that tree. -/
theorem seekToNextTree_of_closeAt {x y z : Sym Token} {l : Nat}
    (h : OnTree toks i (x :: y :: z :: rest)) (hl : closeAt 1 rest = some l) :
    seekToNextTree toks ⟨i, s⟩ = some (.ok (), (⟨i + 3 + l, s⟩ : Cursor S)) := by
  have hrest : OnTree toks (i + 3) rest := h.tail.tail.tail
  have hlen : l ≤ toks.length + 1 := by
    have := closeAt_le hl
    have := hrest.length_le
    omega
  have hscan : scanFromLA4 toks (⟨i, s⟩ : Cursor S) = some (.ok (3 + 1 + l), ⟨i, s⟩) := by
    simp only [scanFromLA4, scanDepth_eq i (toks.length + 1) 1 3 hrest hl hlen]
  unfold seekToNextTree
  rw [bind_of_ok hscan, bind_of_ok (index_step s), bind_of_ok (seek_step s _)]
  simp only [consume, update_apply, Option.some.injEq, Prod.mk.injEq, true_and, Cursor.mk.injEq,
    and_true]
  omega

/-- On the root of a tree with children, `seek_to_next_tree` passes the tree. -/
theorem seekToNextTree_step {t : Token} {cs : List AstNode} (hcs : cs ≠ [])
    (h : OnTree toks i ((NodeTree.node t cs).stream ++ rest)) :
    seekToNextTree toks ⟨i, s⟩ =
      some (.ok (), (⟨i + (NodeTree.node t cs).stream.length, s⟩ : Cursor S)) := by
  obtain ⟨c, cs, rfl⟩ := List.exists_cons_of_ne_nil hcs
  rw [stream_node hcs, forestStream_cons, stream_eq_cons] at h ⊢
  by_cases hkids : c.children = []
  · simp only [hkids, forestStream_nil, enclose, List.cons_append, List.nil_append,
      List.append_assoc] at h
    rw [seekToNextTree_of_closeAt s h (closeAt_children cs rest)]
    simp [hkids, enclose]
    omega
  · rw [enclose_of_ne_nil (forestStream_ne_nil hkids)] at h ⊢
    have hclose : closeAt 1 (.down :: (forestStream c.children ++ .up ::
        (forestStream cs ++ .up :: rest))) =
        some ((forestStream c.children).length + 2 + (forestStream cs).length + 1) := by
      simp only [closeAt, closeAt_forest, Option.map_some, Option.some.injEq]
      omega
    simp only [List.cons_append, List.append_assoc, List.nil_append] at h
    rw [seekToNextTree_of_closeAt s h hclose]
    simp
    omega

end Steps

/-! ## Moves along a tree -/

section Along

variable {toks : NodeStream} {i j k : Nat} {rest : NodeStream} {m : Comp Exn S β}

theorem Moves.to {w : Walk S β} (h : Moves i j w m) (hj : j = k) : Moves i k w m := hj ▸ h

/-- `SEEK(INDEX() + k)`. -/
theorem moves_seekBy {f : Unit → Walk S β} (k : Nat) (h : Moves (i + k) j (f ()) m) :
    Moves i j (index >>= fun p => seek (p + k) >>= f) m :=
  moves_step i (fun s => index_step s) (moves_step () (fun s => seek_step s (i + k)) h)

/-- `SEEK(INDEX() + k)` as the last action of a rule. -/
theorem moves_passBy (k : Nat) (hj : i + k = j) :
    Moves (S := S) i j (index >>= fun p => seek (p + k)) (pure ()) := by
  subst hj
  rw [← bind_pure (index >>= _)]
  simp only [bind_assoc]
  exact moves_seekBy k (moves_pure ())

theorem moves_laType_tok {t : Token} {f : Option TokenType → Walk S β}
    (h : OnTree toks i (.tok t :: rest)) (hk : Moves i j (f (some t.type)) m) :
    Moves i j (laType toks 1 >>= f) m :=
  moves_step _ (fun s => laType_step s h 0) hk

theorem moves_laIs_tok {t : Token} {ty : TokenType} {f : Bool → Walk S β}
    (h : OnTree toks i (.tok t :: rest)) (hk : Moves i j (f (t.type == ty)) m) :
    Moves i j (laIs toks ty >>= f) m := by
  unfold laIs
  rw [bind_assoc]
  exact moves_laType_tok h hk

theorem moves_laIs_up {ty : TokenType} {f : Bool → Walk S β} (h : OnTree toks i (.up :: rest))
    (hk : Moves i j (f false) m) : Moves i j (laIs toks ty >>= f) m := by
  unfold laIs
  rw [bind_assoc]
  exact moves_step _ (fun s => laType_step s h 0) hk

theorem moves_laType_up {f : Option TokenType → Walk S β} (h : OnTree toks i (.up :: rest))
    (hk : Moves i j (f none) m) : Moves i j (laType toks 1 >>= f) m :=
  moves_step _ (fun s => laType_step s h 0) hk

theorem moves_laType_node {t : Token} {cs : List AstNode} {f : Option TokenType → Walk S β}
    (h : OnTree toks i ((NodeTree.node t cs).stream ++ rest)) (hk : Moves i j (f (some t.type)) m) :
    Moves i j (laType toks 1 >>= f) m := by
  rw [NodeTree.stream, List.cons_append] at h
  exact moves_laType_tok h hk

theorem moves_laType_root {t : AstNode} {f : Option TokenType → Walk S β}
    (h : OnTree toks i (t.stream ++ rest)) (hk : Moves i j (f (some t.label.type)) m) :
    Moves i j (laType toks 1 >>= f) m := by
  rw [stream_eq_cons, List.cons_append] at h
  exact moves_laType_tok h hk

/-- `MATCHT(ty); MATCHT(DOWN)` on a node with children. -/
theorem moves_open {t : Token} {cs : List AstNode} {f : Walk S β} (hcs : cs ≠ [])
    (h : OnTree toks i ((NodeTree.node t cs).stream ++ rest))
    (hk : OnTree toks (i + 2) (forestStream cs ++ .up :: rest) → Moves (i + 2) j f m) :
    Moves i j (matchToken toks t.type >>= fun _ => matchDown toks >>= fun _ => f) m := by
  rw [stream_node hcs] at h
  simp only [List.cons_append, List.append_assoc, List.nil_append] at h
  exact moves_step t (fun s => matchToken_step s h)
    (moves_step () (fun s => matchDown_step s h.tail) (hk h.tail.tail))

/-- `MATCHT(ty); SEEK(INDEX() + 1)` on a node with children. -/
theorem moves_openSeek {t : Token} {cs : List AstNode} {f : Unit → Walk S β} (hcs : cs ≠ [])
    (h : OnTree toks i ((NodeTree.node t cs).stream ++ rest))
    (hk : OnTree toks (i + 2) (forestStream cs ++ .up :: rest) → Moves (i + 2) j (f ()) m) :
    Moves i j (matchToken toks t.type >>= fun _ => index >>= fun p => seek (p + 1) >>= f) m := by
  rw [stream_node hcs] at h
  simp only [List.cons_append, List.append_assoc, List.nil_append] at h
  exact moves_step t (fun s => matchToken_step s h) (moves_seekBy 1 (hk h.tail.tail))

/-- `MATCHT(UP)` at the end of a rule. -/
theorem moves_thenUp {w : Walk S Unit} {m : Comp Exn S Unit} (h : Moves i j w m)
    (hj : OnTree toks j (.up :: rest)) : Moves i (j + 1) (w >>= fun _ => matchUp toks) m :=
  moves_finish h fun s => matchUp_step s hj

theorem moves_passUp (h : OnTree toks i (.up :: rest)) (hj : i + 1 = j) :
    Moves (S := S) i j (matchUp toks) (pure ()) := by
  subst hj
  rw [← bind_pure (matchUp toks)]
  exact moves_step () (fun s => matchUp_step s h) (moves_pure ())

theorem moves_up {f : Unit → Walk S β} (h : OnTree toks i (.up :: rest))
    (hk : Moves (i + 1) j (f ()) m) : Moves i j (matchUp toks >>= f) m :=
  moves_step () (fun s => matchUp_step s h) hk

theorem moves_skipTree {t : AstNode} {f : Unit → Walk S β} (ht : t.children ≠ [])
    (h : OnTree toks i (t.stream ++ rest)) (hk : Moves (i + t.stream.length) j (f ()) m) :
    Moves i j (seekToNextTree toks >>= f) m := by
  cases t
  exact moves_step () (fun s => seekToNextTree_step s ht h) hk

/-- `seek_to_next_tree` as the last action of a rule. -/
theorem moves_passTree {t : AstNode} (ht : t.children ≠ [])
    (h : OnTree toks i (t.stream ++ rest)) :
    Moves (S := S) i (i + t.stream.length) (seekToNextTree toks) (pure ()) := by
  rw [← bind_pure (seekToNextTree toks)]
  exact moves_skipTree ht h (moves_pure ())

/-- On a leaf, `seek_to_next_tree` passes the leaf and the tree after it. -/
theorem moves_skipLeafAndTree {t u : Token} {cs : List AstNode} {f : Unit → Walk S β}
    (hcs : cs ≠ []) (h : OnTree toks i (.tok t :: ((NodeTree.node u cs).stream ++ rest)))
    (hk : Moves (i + 1 + (NodeTree.node u cs).stream.length) j (f ()) m) :
    Moves i j (seekToNextTree toks >>= f) m := by
  rw [stream_node hcs] at h hk
  simp only [List.cons_append, List.append_assoc, List.nil_append] at h
  refine moves_step () (fun s => seekToNextTree_of_closeAt s h (closeAt_children cs rest)) ?_
  rwa [show i + 3 + ((forestStream cs).length + 1) =
    i + 1 + (Sym.tok u :: .down :: (forestStream cs ++ [.up])).length by simp; omega]

end Along

end Libbash
