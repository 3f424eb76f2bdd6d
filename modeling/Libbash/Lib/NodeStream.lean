import Mathlib.Data.List.Basic
import Mathlib.Tactic.Basic
import Mathlib.Tactic.SplitIfs

/-!
# Node streams of ordered trees

A tree is written as a flat stream: its root, and, when it has children,
`down`, the streams of the children in order, and `up`. A leaf is its root
alone. Everything a cursor needs to navigate the stream without building the
tree again is here:

* **`closeAt`** — how far the `up` is that closes the innermost of `d` open
  trees; a balanced stretch of stream is passed over (`closeAt_forest`);
* **`Closes`** — which `up` closes the tree that a `down` opens: the last symbol of
  the stream of a tree, wherever the tree stands (`closes_stream`);
* **`readTree`, `readForest`** — the inverse of the serialisation
  (`readTree_stream`, `readForest_stream`).
-/

namespace Lib

/-- A symbol of a node stream. -/
inductive Sym (T : Type) where
  | tok (t : T)
  | down
  | up
  deriving DecidableEq, Repr

/-- An ordered tree with labels in `T`. -/
inductive NodeTree (T : Type) where
  | node (label : T) (children : List (NodeTree T))

variable {T : Type}

def NodeTree.label : NodeTree T → T
  | .node t _ => t

def NodeTree.children : NodeTree T → List (NodeTree T)
  | .node _ cs => cs

/-- Put a non-empty stretch of stream between `down` and `up`. -/
def enclose : List (Sym T) → List (Sym T)
  | [] => []
  | x :: xs => .down :: (x :: xs ++ [.up])

mutual

/-- The node stream of a tree. -/
def NodeTree.stream : NodeTree T → List (Sym T)
  | .node t cs => .tok t :: enclose (forestStream cs)

/-- The node streams of a list of trees, one after the other. -/
def forestStream : List (NodeTree T) → List (Sym T)
  | [] => []
  | t :: ts => t.stream ++ forestStream ts

end

@[simp] theorem forestStream_nil : forestStream ([] : List (NodeTree T)) = [] := by
  simp only [forestStream]

@[simp] theorem forestStream_cons (t : NodeTree T) (ts : List (NodeTree T)) :
    forestStream (t :: ts) = t.stream ++ forestStream ts := by
  simp only [forestStream]

@[simp] theorem forestStream_append (ts us : List (NodeTree T)) :
    forestStream (ts ++ us) = forestStream ts ++ forestStream us := by
  induction ts with
  | nil => simp
  | cons t ts ih => simp [ih]

@[simp] theorem forestStream_singleton (t : NodeTree T) : forestStream [t] = t.stream := by
  rw [forestStream_cons, forestStream_nil, List.append_nil]

@[simp] theorem stream_leaf (t : T) : (NodeTree.node t []).stream = [.tok t] := by
  simp only [NodeTree.stream, forestStream, enclose]

/-- A stream starts with the token of its root. -/
theorem stream_eq_cons (t : NodeTree T) :
    t.stream = .tok t.label :: enclose (forestStream t.children) := by
  cases t
  simp only [NodeTree.stream, NodeTree.label, NodeTree.children]

theorem stream_ne_nil (t : NodeTree T) : t.stream ≠ [] := by
  rw [stream_eq_cons]
  exact List.cons_ne_nil _ _

theorem enclose_of_ne_nil {s : List (Sym T)} (h : s ≠ []) :
    enclose s = .down :: (s ++ [.up]) := by
  cases s with
  | nil => exact absurd rfl h
  | cons x xs => rfl

theorem forestStream_ne_nil {ts : List (NodeTree T)} (h : ts ≠ []) :
    forestStream ts ≠ [] := by
  cases ts with
  | nil => exact absurd rfl h
  | cons t ts => simp [stream_ne_nil]

/-- The stream of a tree that has children. -/
theorem stream_node {t : T} {cs : List (NodeTree T)} (h : cs ≠ []) :
    (NodeTree.node t cs).stream = .tok t :: .down :: (forestStream cs ++ [.up]) := by
  rw [NodeTree.stream, enclose_of_ne_nil (forestStream_ne_nil h)]

theorem stream_node_cons (t : T) (c : NodeTree T) (cs : List (NodeTree T)) :
    (NodeTree.node t (c :: cs)).stream =
      .tok t :: .down :: (c.stream ++ (forestStream cs ++ [.up])) := by
  rw [stream_node (List.cons_ne_nil _ _), forestStream_cons, List.append_assoc]

theorem length_le_forestStream (ts : List (NodeTree T)) : ts.length ≤ (forestStream ts).length := by
  induction ts with
  | nil => simp
  | cons t ts ih =>
    have := List.length_pos_iff.mpr (stream_ne_nil t)
    simp only [List.length_cons, forestStream_cons, List.length_append]
    omega

theorem length_stream_node {t : T} {cs : List (NodeTree T)} (h : cs ≠ []) :
    (NodeTree.node t cs).stream.length = (forestStream cs).length + 3 := by
  rw [stream_node h]
  simp

/-- Induction on a tree and on the list of its children together. -/
theorem NodeTree.induct {P : NodeTree T → Prop} {Q : List (NodeTree T) → Prop}
    (node : ∀ t cs, Q cs → P (.node t cs)) (nil : Q [])
    (cons : ∀ t ts, P t → Q ts → Q (t :: ts)) : (∀ t, P t) ∧ ∀ ts, Q ts :=
  ⟨@NodeTree.rec T P Q node nil cons, @NodeTree.rec_1 T P Q node nil cons⟩

/-! ## Passing over balanced stretches -/

/-- The number of symbols up to and including the `up` that closes the last
of `depth` open trees. -/
def closeAt : Nat → List (Sym T) → Option Nat
  | 0, _ => some 0
  | _ + 1, [] => none
  | d + 1, .down :: s => (closeAt (d + 2) s).map (· + 1)
  | d + 1, .up :: s => (closeAt d s).map (· + 1)
  | d + 1, .tok _ :: s => (closeAt (d + 1) s).map (· + 1)

private theorem map_add (o : Option Nat) (a b : Nat) :
    (o.map (· + a)).map (· + b) = o.map (· + (a + b)) := by
  cases o <;> simp [Nat.add_assoc]

/-- A forest is passed over at any depth. -/
theorem closeAt_tree_forest :
    (∀ (t : NodeTree T) (d : Nat) (s : List (Sym T)),
      closeAt (d + 1) (t.stream ++ s) = (closeAt (d + 1) s).map (· + t.stream.length)) ∧
    ∀ (ts : List (NodeTree T)) (d : Nat) (s : List (Sym T)),
      closeAt (d + 1) (forestStream ts ++ s) =
        (closeAt (d + 1) s).map (· + (forestStream ts).length) := by
  apply NodeTree.induct
  · intro t cs ih d s
    by_cases hcs : cs = []
    · subst hcs
      simp [closeAt]
    · rw [stream_node hcs]
      simp only [List.cons_append, List.append_assoc, closeAt, List.nil_append,
        ih (d + 1), map_add, List.length_cons, List.length_append, List.length_nil]
      congr 2
      funext x
      omega
  · intro d s
    simp
  · intro t ts iht ihts d s
    rw [forestStream_cons, List.append_assoc, iht, ihts, map_add, List.length_append,
      Nat.add_comm (forestStream ts).length]

theorem closeAt_forest (ts : List (NodeTree T)) (d : Nat) (s : List (Sym T)) :
    closeAt (d + 1) (forestStream ts ++ s) =
      (closeAt (d + 1) s).map (· + (forestStream ts).length) :=
  closeAt_tree_forest.2 ts d s

/-- From inside a tree, past its remaining children, the closing `up`. -/
theorem closeAt_children (ts : List (NodeTree T)) (s : List (Sym T)) :
    closeAt 1 (forestStream ts ++ .up :: s) = some ((forestStream ts).length + 1) := by
  rw [closeAt_forest]
  simp only [closeAt, Option.map_some, Option.some.injEq]
  omega

/-- The closing `up` lies inside the stream. -/
theorem closeAt_le : ∀ {d : Nat} {s : List (Sym T)} {l : Nat}, closeAt d s = some l →
    l ≤ s.length
  | 0, _, l, h => by
    simp only [closeAt, Option.some.injEq] at h
    omega
  | d + 1, [], l, h => by cases h
  | d + 1, x :: s, l, h => by
    cases x <;>
      (simp only [closeAt, Option.map_eq_some_iff] at h
       obtain ⟨l', hl', rfl⟩ := h
       have := closeAt_le hl'
       simp only [List.length_cons]
       omega)

/-! ## The symbol that closes a tree -/

/-- How many more trees are open after a stretch of stream than before it. -/
def level : List (Sym T) → Int
  | [] => 0
  | .down :: s => level s + 1
  | .up :: s => level s - 1
  | .tok _ :: s => level s

theorem level_append (s u : List (Sym T)) : level (s ++ u) = level s + level u := by
  induction s with
  | nil => simp [level]
  | cons x s ih =>
    cases x with
    | tok t => simp only [List.cons_append, level, ih]
    | down =>
      simp only [List.cons_append, level, ih]
      omega
    | up =>
      simp only [List.cons_append, level, ih]
      omega

/-- The `up` at `j` closes the tree that the `down` at `k` opens: as many trees are open
after it as before the `down`, and nowhere between them. -/
structure Closes (s : List (Sym T)) (k j : Nat) : Prop where
  isDown : s[k]? = some .down
  isUp : s[j]? = some .up
  isOpen : ∀ m, k < m → m ≤ j → 0 < level ((s.take m).drop k)
  isClosed : level ((s.take (j + 1)).drop k) = 0

/-- Inside the streams of whole trees no more trees have been closed than opened. -/
theorem level_tree_forest :
    (∀ t : NodeTree T, level t.stream = 0 ∧ ∀ n, 0 ≤ level (t.stream.take n)) ∧
    ∀ ts : List (NodeTree T),
      level (forestStream ts) = 0 ∧ ∀ n, 0 ≤ level ((forestStream ts).take n) := by
  apply NodeTree.induct
  · intro t cs ih
    by_cases hcs : cs = []
    · subst hcs
      constructor
      · simp [level]
      · intro n
        rw [stream_leaf]
        cases n <;> simp [level]
    · rw [stream_node hcs]
      constructor
      · simp only [level, level_append, ih.1]
        omega
      · intro n
        match n with
        | 0 => simp [level]
        | 1 => simp [level]
        | n + 2 =>
          have hinner := ih.2 n
          simp only [List.take_succ_cons, List.take_append, level, level_append]
          -- the last `up` is taken or not
          cases n - (forestStream cs).length with
          | zero =>
            simp only [List.take_zero, level]
            omega
          | succ k =>
            simp only [List.take_succ_cons, List.take_nil, level]
            omega
  · constructor
    · simp [level]
    · intro n
      simp [level]
  · intro t ts iht ihts
    rw [forestStream_cons]
    constructor
    · rw [level_append, iht.1, ihts.1]
      rfl
    · intro n
      have ht := iht.2 n
      have hts := ihts.2 (n - t.stream.length)
      rw [List.take_append, level_append]
      omega

/-- The last symbol of a serialised tree closes it, wherever the tree stands. -/
theorem closes_stream (before after : List (Sym T)) {t : T} {cs : List (NodeTree T)}
    (hcs : cs ≠ []) :
    Closes (before ++ (NodeTree.node t cs).stream ++ after) (before.length + 1)
      (before.length + 2 + (forestStream cs).length) := by
  have hsplit : before ++ (NodeTree.node t cs).stream ++ after =
      (before ++ [.tok t]) ++ (.down :: (forestStream cs ++ .up :: after)) := by
    rw [stream_node hcs]
    simp
  have hlen : before.length + 1 = (before ++ [Sym.tok t]).length := by simp
  -- Behind the token there are the symbol that opens the tree, the children, and what closes it.
  have hdrop : ∀ m, ((before ++ (NodeTree.node t cs).stream ++ after).take m).drop
      (before.length + 1) =
        (Sym.down :: (forestStream cs ++ .up :: after)).take (m - (before.length + 1)) := by
    intro m
    rw [List.drop_take, hsplit, hlen, List.drop_left]
  refine ⟨?_, ?_, ?_, ?_⟩
  · rw [hsplit, hlen, List.getElem?_append_right (Nat.le_refl _), Nat.sub_self]
    rfl
  · rw [hsplit, List.getElem?_append_right (by simp; omega)]
    have hsub : before.length + 2 + (forestStream cs).length - (before ++ [Sym.tok t]).length =
        (forestStream cs).length + 1 := by
      simp
      omega
    rw [hsub, List.getElem?_cons_succ, List.getElem?_append_right (Nat.le_refl _), Nat.sub_self]
    rfl
  · intro m hm hmj
    obtain ⟨n, rfl⟩ : ∃ n, m = before.length + 1 + (n + 1) :=
      ⟨m - (before.length + 2), by omega⟩
    have hinner := level_tree_forest.2 cs |>.2 n
    rw [hdrop, Nat.add_sub_cancel_left, List.take_succ_cons,
      List.take_append_of_le_length (by omega)]
    show 0 < level ((forestStream cs).take n) + 1
    omega
  · have hsub : before.length + 2 + (forestStream cs).length + 1 - (before.length + 1) =
        ((forestStream cs).length + 1) + 1 := by omega
    have htake : ((forestStream cs).take ((forestStream cs).length + 1)) = forestStream cs :=
      List.take_of_length_le (by omega)
    rw [hdrop, hsub, List.take_succ_cons, List.take_append, htake]
    simp [level, level_append, (level_tree_forest.2 cs).1]

/-! ## Reading trees back -/

mutual

/-- Read one tree off the front of a stream. -/
def readTree : Nat → List (Sym T) → Option (NodeTree T × List (Sym T))
  | n + 1, .tok t :: .down :: s =>
    match readForest n s with
    | some (cs, .up :: s') => some (.node t cs, s')
    | _ => none
  | _ + 1, .tok t :: s => some (.node t [], s)
  | _, _ => none

/-- Read the trees at the front of a stream, up to an `up` or the end. -/
def readForest : Nat → List (Sym T) → Option (List (NodeTree T) × List (Sym T))
  | 0, _ => none
  | n + 1, .tok t :: s =>
    match readTree n (.tok t :: s) with
    | some (c, s') =>
      match readForest n s' with
      | some (cs, s'') => some (c :: cs, s'')
      | none => none
    | none => none
  | _ + 1, s => some ([], s)

end

/-- What may follow a tree: anything but the `down` of children. -/
def NoDown (s : List (Sym T)) : Prop := s.head? ≠ some .down

/-- What may follow a whole forest: an `up` or nothing. -/
def AtClose (s : List (Sym T)) : Prop := ∀ t, s.head? ≠ some (.tok t)

@[simp] theorem noDown_up (s : List (Sym T)) : NoDown (.up :: s) := by simp [NoDown]

@[simp] theorem noDown_nil : NoDown ([] : List (Sym T)) := by simp [NoDown]

@[simp] theorem noDown_stream (t : NodeTree T) (s : List (Sym T)) : NoDown (t.stream ++ s) := by
  rw [stream_eq_cons]
  simp [NoDown]

@[simp] theorem atClose_up (s : List (Sym T)) : AtClose (.up :: s) := by simp [AtClose]

theorem noDown_forest (ts : List (NodeTree T)) {s : List (Sym T)} (h : NoDown s) :
    NoDown (forestStream ts ++ s) := by
  cases ts with
  | nil => simpa using h
  | cons t ts => rw [forestStream_cons, List.append_assoc]; exact noDown_stream t _

theorem read_tree_forest :
    (∀ (t : NodeTree T) (n : Nat) (s : List (Sym T)), NoDown s → t.stream.length ≤ n →
      readTree n (t.stream ++ s) = some (t, s)) ∧
    ∀ (ts : List (NodeTree T)) (n : Nat) (s : List (Sym T)), NoDown s → AtClose s →
      (forestStream ts).length + 1 ≤ n →
        readForest n (forestStream ts ++ s) = some (ts, s) := by
  apply NodeTree.induct
  · intro t cs ih n s hs hn
    obtain ⟨n, rfl⟩ : ∃ k, n = k + 1 :=
      Nat.exists_eq_succ_of_ne_zero (by rw [NodeTree.stream] at hn; simp at hn; omega)
    by_cases hcs : cs = []
    · subst hcs
      cases s with
      | nil => simp [readTree]
      | cons x s =>
        cases x with
        | tok u => simp [readTree]
        | up => simp [readTree]
        | down => exact absurd rfl hs
    · rw [stream_node hcs] at hn ⊢
      simp only [List.length_cons, List.length_append, List.length_nil] at hn
      have hread := ih n (.up :: s) (noDown_up s) (atClose_up s) (by omega)
      simp only [List.cons_append, List.append_assoc, List.nil_append, readTree, hread]
  · intro n s hs hc hn
    obtain ⟨n, rfl⟩ : ∃ k, n = k + 1 := Nat.exists_eq_succ_of_ne_zero (by simp at hn; omega)
    cases s with
    | nil => simp [readForest]
    | cons x s =>
      cases x with
      | tok u => exact absurd rfl (hc u)
      | up => simp [readForest]
      | down => exact absurd rfl hs
  · intro t ts iht ihts n s hs hc hn
    obtain ⟨n, rfl⟩ : ∃ k, n = k + 1 :=
      Nat.exists_eq_succ_of_ne_zero (by simp only [forestStream_cons, List.length_append] at hn; omega)
    have hpos : 0 < t.stream.length := List.length_pos_iff.mpr (stream_ne_nil t)
    simp only [forestStream_cons, List.length_append] at hn
    have h₁ := iht n (forestStream ts ++ s) (noDown_forest ts hs) (by omega)
    have h₂ := ihts n s hs hc (by omega)
    rw [forestStream_cons, List.append_assoc]
    rw [stream_eq_cons, List.cons_append] at h₁ ⊢
    simp only [readForest, h₁, h₂]

theorem readTree_stream (t : NodeTree T) {n : Nat} {s : List (Sym T)} (hs : NoDown s)
    (hn : t.stream.length ≤ n) : readTree n (t.stream ++ s) = some (t, s) :=
  read_tree_forest.1 t n s hs hn

theorem readForest_stream (ts : List (NodeTree T)) {n : Nat} {s : List (Sym T)}
    (hs : NoDown s) (hc : AtClose s) (hn : (forestStream ts).length + 1 ≤ n) :
    readForest n (forestStream ts ++ s) = some (ts, s) :=
  read_tree_forest.2 ts n s hs hc hn

/-- Read trees off the front of a stream while their root satisfies `p`. -/
def readWhile (p : T → Bool) : Nat → List (Sym T) → List (NodeTree T) × List (Sym T)
  | n + 1, .tok t :: s =>
    if p t then
      match readTree n (.tok t :: s) with
      | some (c, s') => ((c :: (readWhile p n s').1), (readWhile p n s').2)
      | none => ([], .tok t :: s)
    else ([], .tok t :: s)
  | _, s => ([], s)

theorem readWhile_stream (p : T → Bool) (ts : List (NodeTree T)) {n : Nat}
    {s : List (Sym T)} (hp : ∀ t ∈ ts, p t.label = true) (hs : NoDown s)
    (hstop : ∀ t, s.head? = some (.tok t) → p t = false)
    (hn : (forestStream ts).length + 1 ≤ n) :
    readWhile p n (forestStream ts ++ s) = (ts, s) := by
  induction ts generalizing n with
  | nil =>
    obtain ⟨n, rfl⟩ : ∃ k, n = k + 1 := Nat.exists_eq_succ_of_ne_zero (by omega)
    cases s with
    | nil => simp [readWhile]
    | cons x s =>
      cases x with
      | tok u => simp [readWhile, hstop u rfl]
      | up => simp [readWhile]
      | down => exact absurd rfl hs
  | cons t ts ih =>
    obtain ⟨n, rfl⟩ : ∃ k, n = k + 1 := Nat.exists_eq_succ_of_ne_zero (by omega)
    have hpos : 0 < t.stream.length := List.length_pos_iff.mpr (stream_ne_nil t)
    simp only [forestStream_cons, List.length_append] at hn
    have h₁ := readTree_stream t (n := n) (noDown_forest ts hs) (by omega)
    have h₂ := ih (n := n) (fun u hu => hp u (List.mem_cons_of_mem _ hu)) (by omega)
    have hpt := hp t List.mem_cons_self
    rw [forestStream_cons, List.append_assoc]
    rw [stream_eq_cons, List.cons_append] at h₁ ⊢
    simp only [readWhile, hpt, if_true, h₁, h₂]

end Lib
