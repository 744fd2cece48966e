import IndexResearch.BLinkTree.Descent

/-!
# Searches

They are those of the list of all entries.
-/

namespace IndexResearch.BLinkTree

open LinkedLevels

variable {K V : Type} [LinearOrder K]

theorem BLinkNode.Embodies.isBefore_eq_false {size : Nat} {node : BLinkNode K V} {leaf : Leaf K V}
    {key : K} (embodies : node.Embodies size leaf) (upTo : (key : WithTop K) ≤ leaf.bound) :
    node.isBefore key = .ok false := by
  apply embodies.toHoldsKeys.isBefore_eq
  intro hasSibling
  cases link : leaf.link with
  | none =>
    rw [embodies.sibling_eq, link] at hasSibling
    exact absurd rfl hasSibling
  | some sibling =>
    obtain ⟨last, lastEq, boundEq⟩ :=
      Leaf.bound_of_link link (embodies.filled (by rw [link]; nofun))
    rw [boundEq, WithTop.coe_le_coe] at upTo
    refine ⟨last.1, ?_, not_lt_of_ge upTo⟩
    rw [List.getLast?_map, lastEq]
    rfl

namespace Tree.Represents

variable {params : Parameters} {tree : Tree K V} {leaves front back : List (Leaf K V)}
  {leaf : Leaf K V} {rows : List (List (Branch (WithTop K) Ptr))} {key : K}

section Located

variable (represents : tree.Represents params leaves rows)
  (located : Located leaves front leaf back key)
include represents located

theorem leafNode : ∃ node, tree.nodes leaf.id = some node ∧
    node.Embodies params.leafNodeSize leaf ∧ node.isBefore key = .ok false := by
  obtain ⟨node, found, embodies⟩ := represents.leafStored leaf located.listed
  exact ⟨node, found, embodies, embodies.isBefore_eq_false located.upTo⟩

theorem rank_lt (linked : leaf.link ≠ none) :
    rankIn Prod.fst leaf.entries key < leaf.entries.length := by
  obtain ⟨sibling, link⟩ := Option.ne_none_iff_exists'.mp linked
  obtain ⟨last, lastEq, boundEq⟩ :=
    Leaf.bound_of_link link (represents.filled leaf located.listed linked)
  have upTo := located.upTo
  rw [boundEq, WithTop.coe_le_coe] at upTo
  rw [List.getLast?_eq_getElem?] at lastEq
  have notAll : ¬leaf.entries.length - 1 < rankIn Prod.fst leaf.entries key := fun below =>
    absurd (((represents.entries_ascending located).lt_rankIn_iff lastEq).mp below)
      (not_lt_of_ge upTo)
  obtain ⟨positive, _⟩ := List.getElem?_eq_some_iff.mp lastEq
  omega

theorem moveRight_eq {fuel : Nat} (enough : 0 < fuel) :
    tree.moveRight key fuel leaf.id = .ok leaf.id := by
  obtain ⟨node, found, _, stays⟩ := represents.leafNode located
  obtain ⟨fuel, rfl⟩ := Nat.exists_eq_succ_of_ne_zero (Nat.ne_of_gt enough)
  rw [moveRight, nodeAt_eq found]
  simp only [ok_bind, stays, Bool.false_eq_true, if_false]
  rfl

theorem leafOf_eq : tree.leafOf key = .ok leaf.id := by
  obtain ⟨stack, _, path, fuel⟩ := represents.exists_path located
  obtain ⟨node, found, embodies, _⟩ := represents.leafNode located
  obtain ⟨more, fresh_eq⟩ := Nat.exists_eq_add_of_le (Nat.le_of_lt fuel)
  have arrived : tree.traverseInner key tree.fresh tree.root = .ok leaf.id := by
    rw [fresh_eq, Nat.add_assoc, path.traverseInner_eq, Nat.add_comm 1, traverseInner,
      nodeAt_eq found]
    simp only [ok_bind, embodies.kind, if_true]
    rfl
  rw [leafOf, arrived]
  exact represents.moveRight_eq located (by omega)

end Located

theorem search_eq (represents : tree.Represents params leaves rows) (key : K) :
    tree.search key = .ok ((findKey Prod.fst (leaves.flatMap Leaf.entries) key).map Prod.snd) := by
  obtain ⟨front, leaf, back, located⟩ := represents.exists_located key
  obtain ⟨node, found, embodies, _⟩ := represents.leafNode located
  rw [search, represents.leafOf_eq located, represents.findKey_eq located]
  simp only [ok_bind, nodeAt_eq found]
  exact embodies.toIsLeaf.valueIn_eq (represents.entries_ascending located) key

theorem searchUnsafe_eq (represents : tree.Represents params leaves rows) (key : K) :
    tree.searchUnsafe key = .ok
    ((findKey Prod.fst (leaves.flatMap Leaf.entries) key).map Prod.snd):= by
  obtain ⟨front, leaf, back, located⟩ := represents.exists_located key
  obtain ⟨stack, _, path, fuel⟩ := represents.exists_path located
  obtain ⟨node, found, embodies, stays⟩ := represents.leafNode located
  obtain ⟨more, fresh_eq⟩ := Nat.exists_eq_add_of_le (Nat.le_of_lt fuel)
  rw [searchUnsafe, fresh_eq, Nat.add_assoc, path.searchUnsafeFrom_eq, Nat.add_comm 1,
    searchUnsafeFrom, represents.findKey_eq located]
  simp only [ok_bind, nodeAt_eq found, stays, embodies.kind, if_true, Bool.false_eq_true,
    if_false]
  exact embodies.toIsLeaf.valueIn_eq (represents.entries_ascending located) key

end Tree.Represents

end IndexResearch.BLinkTree
