import Libbash.Arith.Nodes

/-!
# Where a skip ends

`seek_to_next_tree` counts the `DOWN`s and `UP`s from `LA(4)` on, as if one tree were
open, and turns the look-ahead at which it stops into a position. For a tree with
children this position is the one right after the `UP` that closes the tree, whatever
stands around it (`seekToNextTree_lands`). From the leaf in front of a tree the scan
starts one symbol earlier in the tree, and closes it all the same.
-/

namespace Libbash

open Lib Lib.Comp

variable {S : Type}

section Skips

variable {toks : NodeStream} {i : Nat} {rest : NodeStream} (s : S)

/-- From a leaf, `seek_to_next_tree` passes the leaf and the tree after it. -/
theorem seekToNextTree_leaf_step {u t : Token} {cs : List AstNode} (hcs : cs ≠ [])
    (h : OnTree toks i (.tok u :: ((NodeTree.node t cs).stream ++ rest))) :
    seekToNextTree toks ⟨i, s⟩ =
      some (.ok (), (⟨i + 1 + (NodeTree.node t cs).stream.length, s⟩ : Cursor S)) := by
  have hlen := length_stream_node (t := t) hcs
  rw [stream_node hcs] at h
  simp only [List.cons_append, List.append_assoc, List.nil_append] at h
  rw [seekToNextTree_of_closeAt s h (closeAt_children cs rest), hlen]
  simp only [Option.some.injEq, Prod.mk.injEq, true_and, Cursor.mk.injEq, and_true]
  omega

end Skips

/-- `seek_to_next_tree` on the root of a tree with children ends one past the `UP` that
closes the tree, and on the leaf in front of one (the `CASE_COMMAND` of a command list)
one past that tree; `skip_next_token_or_tree` passes one tree, or one leaf. -/
theorem seekToNextTree_lands (before after : NodeStream) (t leaf : Token) (c : AstNode)
    (cs : List AstNode) (s : S) :
    (∃ close, Closes (before ++ (NodeTree.node t (c :: cs)).stream ++ after)
        (before.length + 1) close ∧
      close + 1 = before.length + (NodeTree.node t (c :: cs)).stream.length ∧
      seekToNextTree (before ++ (NodeTree.node t (c :: cs)).stream ++ after)
        ⟨before.length, s⟩ = some (.ok (), (⟨close + 1, s⟩ : Cursor S))) ∧
    seekToNextTree (before ++ (.tok leaf :: ((NodeTree.node t (c :: cs)).stream ++ after)))
        ⟨before.length, s⟩ =
      some (.ok (), (⟨before.length + 1 + (NodeTree.node t (c :: cs)).stream.length, s⟩ :
        Cursor S)) ∧
    skipNextTokenOrTree (before ++ (NodeTree.node t (c :: cs)).stream ++ after)
        ⟨before.length, s⟩ =
      some (.ok (), (⟨before.length + (NodeTree.node t (c :: cs)).stream.length, s⟩ :
        Cursor S)) ∧
    (NoDown after → skipNextTokenOrTree (before ++ (.tok leaf :: after)) ⟨before.length, s⟩ =
      some (.ok (), (⟨before.length + 1, s⟩ : Cursor S))) := by
  have hcs : c :: cs ≠ [] := List.cons_ne_nil c cs
  have hlen := length_stream_node (t := t) hcs
  have htree : OnTree (before ++ (NodeTree.node t (c :: cs)).stream ++ after) before.length
      ((NodeTree.node t (c :: cs)).stream ++ after) := by
    rw [List.append_assoc]
    exact onTree_append _ _
  refine ⟨⟨_, closes_stream before after hcs, ?_, ?_⟩, ?_, ?_, ?_⟩
  · omega
  · rw [seekToNextTree_step s hcs htree]
    simp only [Option.some.injEq, Prod.mk.injEq, true_and, Cursor.mk.injEq, and_true]
    omega
  · exact seekToNextTree_leaf_step s hcs (onTree_append before _)
  · -- the symbol after the root is the `DOWN` of its children
    unfold skipNextTokenOrTree
    have hdown : ((NodeTree.node t (c :: cs)).stream ++ after)[1]? = some .down := by
      rw [stream_node hcs]
      rfl
    rw [bind_of_ok (la_step s htree 1), if_neg (not_not.mpr hdown)]
    exact seekToNextTree_step s hcs htree
  · intro hafter
    have hleaf : OnTree (before ++ (.tok leaf :: after)) before.length
        ((NodeTree.node leaf ([] : List AstNode)).stream ++ after) := by
      rw [stream_leaf]
      exact onTree_append _ _
    rw [skipNextTokenOrTree_step s hleaf hafter, stream_leaf]
    rfl

theorem seekToNextTree_lands_caseCommand :
    skipNextTokenOrTree [.tok ⟨.caseCommand, ""⟩, .up] ⟨0, ()⟩ =
      some (.ok (), (⟨1, ()⟩ : Cursor Unit)) :=
  (seekToNextTree_lands [] [.up] ⟨.list, ""⟩ ⟨.caseCommand, ""⟩ (astNode .command []) [] ()).2.2.2
    (noDown_up [])

end Libbash
