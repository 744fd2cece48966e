import IndexResearch.FBTree.StringNode.Insertion

/-!
# Removing from a string node

Removal of a separator, absorption of the right sibling, border removal and anchor update
are the corresponding operations on the views, whatever the separators are.
-/

namespace IndexResearch.FBTree.StringNode

open InnerNode

variable {size : NodeSize} {node other right : StringNode size} {key : Anchor} {index : Nat}
  {this : Ptr}

abbrev Matches (node right : StringNode size) :=
  NodeView.Matches (fun _ => True) view id control node right

theorem removeInner_view (inside : index < node.knum - 1)
    (result : node.removeInner index = .ok other) :
    other.view = ⟨node.view.seps.eraseIdx index, node.view.kids.eraseIdx (index + 1),
      node.view.link⟩ ∧ other.control = node.control := by
  have seps : tabulate (node.knum - 1)
      (moveForward node.anchors (index + 1) index (node.knum - index - 1)) =
      (tabulate node.knum node.anchors).eraseIdx index := by
    rw [moveForward_eq_copy _ (Nat.le_succ index), ← tabulate_erased _ (by omega)]
    exact tabulate_congr fun column within => copy_eq_erased _ within
  have kids : kidsOf node.control.sibling _ node.next = _ :=
    kidsOf_moveForward node.children node.next inside
  rw [removeInner] at result
  split at result
  · obtain ⟨rebuiltView, control, _, _⟩ := rebuild_view result
    refine ⟨?_, control⟩
    rw [rebuiltView]
    simp only [view, seps, kids]
  · cases result
    refine ⟨?_, rfl⟩
    simp only [view, seps, kids]

/-! ## Absorbing the right sibling -/

theorem inherit_view {merged : StringNode size} {next : Ptr}
    (sibling : merged.control.sibling = true) :
    (merged.inherit right next).view =
      ⟨merged.view.seps, kidsOf right.control.sibling (tabulate merged.knum merged.children) next,
        linkOf right.control.sibling next⟩ := by
  have flag : (merged.inherit right next).control.sibling = right.control.sibling :=
    sibling_inherited sibling
  simp only [view, flag]
  rfl

theorem absorb_seps (node right : StringNode size) (pos src count : Nat) :
    tabulate (pos + right.knum) (node.absorb right pos src count (pos + right.knum)).anchors =
      tabulate pos node.anchors ++ right.view.seps := by
  apply tabulate_append
  · exact fun column inside => copy_of_not_mem (by omega)
  · intro column inside
    simp only [absorb]
    rw [copy_of_mem (by omega)]
    congr 1
    omega

theorem dropLast_view_seps (last : index + 1 = node.knum) :
    node.view.seps.dropLast = tabulate index node.anchors := by
  rw [view, ← last, tabulate_succ, List.dropLast_concat]

theorem view_kids_of_sibling (sibling : node.control.sibling = true) :
    node.view.kids = tabulate node.knum node.children := by
  simp only [view, sibling, kidsOf, if_true]

theorem merge_views (right : StringNode size) (sibling : node.control.sibling = true) (this : Ptr)
    (key : Anchor) (positive : 0 < node.knum) :
    ∃ removed, node.merge right this key = .ok removed ∧
      Matches node right (node.view.merge size key (some right.view)) removed := by
  rw [merge, if_pos sibling, if_neg (by omega), NodeView.merge]
  simp only [length_view_seps]
  split
  · obtain ⟨merged, result⟩ := exists_rebuild (show 0 <
      (node.absorb right node.knum 0 right.knum (node.knum + right.knum)).knum from
        Nat.add_pos_left positive _)
    obtain ⟨mergedView, control, _, mergedChildren⟩ := rebuild_view result
    have mergedSibling : merged.control.sibling = true :=
      (congrArg Control.sibling control).trans sibling
    have count : merged.knum = node.knum + right.knum := (rebuild_frame result).1
    rw [result]
    refine ⟨_, rfl, trivial, ?_, ?_, fun _ none => (by cases none), ⟨rfl, rfl, ?_⟩, fun _ => rfl⟩
    · exact (deleted_inherited _ _).trans (congrArg Control.deleted control)
    · have seps : merged.view.seps = node.view.seps ++ right.view.seps := by
        rw [mergedView]
        exact absorb_seps node right node.knum 0 right.knum
      simp only [inherit_view mergedSibling, seps, count, mergedChildren, absorb]
      rw [tabulate_copy_behind, ← append_kidsOf, view_kids_of_sibling sibling]
      rfl
    · rw [view, getLastD_tabulate positive]
      rfl
  · refine ⟨_, rfl, trivial, rfl, rfl, ?_, ⟨rfl, rfl⟩, fun absurdity => (by cases absurdity)⟩
    intro view same
    cases same
    exact ⟨trivial, rfl, rfl⟩

theorem boundMerge_views (sibling : node.control.sibling = true) (this : Ptr) (key : Anchor)
    (last : index + 1 = node.knum) (nonempty : ¬(index = 0 ∧ right.knum = 0))
    (rightNonempty : right.control.sibling = true → 0 < right.knum) :
    ∃ removed, node.boundMerge right this key index = .ok removed ∧
      Matches node right
        ⟨⟨node.view.seps.dropLast ++ right.view.seps, node.view.kids ++ right.view.kids.tail,
          right.view.link⟩, none, .merged key⟩ removed := by
  have total : node.knum + right.knum - 1 = index + right.knum := by omega
  have positive : 0 < index + right.knum := by omega
  obtain ⟨merged, result⟩ := exists_rebuild (show 0 <
    (node.absorb right index 1 (right.knum - 1) (index + right.knum)).knum from positive)
  obtain ⟨mergedView, control, _, mergedChildren⟩ := rebuild_view result
  have mergedSibling : merged.control.sibling = true :=
    (congrArg Control.sibling control).trans sibling
  have count : merged.knum = index + right.knum := (rebuild_frame result).1
  rw [boundMerge, total, result]
  refine ⟨_, rfl, trivial, ?_, ?_, fun _ none => (by cases none), ⟨rfl, rfl, rfl⟩, fun _ => rfl⟩
  · exact (deleted_inherited _ _).trans (congrArg Control.deleted control)
  · have seps : merged.view.seps = node.view.seps.dropLast ++ right.view.seps := by
      rw [mergedView, dropLast_view_seps last]
      exact absorb_seps node right index 1 (right.knum - 1)
    simp only [inherit_view mergedSibling, seps, count, mergedChildren, absorb]
    obtain ⟨kids, link⟩ := kidsOf_copy_tail node.children right.children right.next last
      rightNonempty
    rw [view_kids_of_sibling sibling, link]
    exact congrArg (NodeView.mk _ · _) kids

theorem handOver_views (sibling : node.control.sibling = true) (key : Anchor)
    (last : index + 1 = node.knum) (positive : 0 < index) (rightPositive : 0 < right.knum) :
    ∃ removed, node.handOver right index = .ok removed ∧
      Matches node right
        ⟨⟨node.view.seps.dropLast, node.view.kids.dropLast, node.view.link⟩,
          some ⟨right.view.seps, node.view.kids.getLastD nullptr :: right.view.kids.tail,
            right.view.link⟩,
          .renamed (node.view.seps.dropLast.getLastD key)⟩ removed := by
  have count : node.knum - 1 = index := by omega
  obtain ⟨rebuilt, result⟩ := exists_rebuild (show 0 <
    ({ node with knum := node.knum - 1 } : StringNode size).knum from Nat.sub_pos_of_lt (by omega))
  obtain ⟨rebuiltView, control, _, _⟩ := rebuild_view result
  rw [handOver, result]
  refine ⟨_, rfl, trivial, congrArg Control.deleted control, ?_, ?_, ⟨rfl, rfl, ?_⟩,
    fun absurdity => (by cases absurdity)⟩
  · rw [rebuiltView, dropLast_view_seps last, view_kids_of_sibling sibling, ← last, tabulate_succ,
      List.dropLast_concat]
    simp only [view, sibling, kidsOf, if_true, ← last, Nat.add_sub_cancel]
  · intro view same
    cases same
    refine ⟨trivial, ?_, rfl⟩
    rw [view_kids_of_sibling sibling, getLastD_tabulate (by omega), count]
    exact congrArg (NodeView.mk _ · _) (kidsOf_update_first _ _ _ rightPositive)
  · rw [dropLast_view_seps last, getLastD_tabulate positive]
    rfl

theorem removeLast_views (alone : node.control.sibling = false) (last : index + 1 = node.knum)
    (result : node.removeLast index = .ok other) :
    other.view = ⟨node.view.seps.dropLast, node.view.kids.dropLast, none⟩ ∧
      other.control = node.control := by
  have count : node.knum - 1 = index := by omega
  have base :
    ({ node with next := node.children index, knum := node.knum - 1 } : StringNode size).view =
      ⟨node.view.seps.dropLast, node.view.kids.dropLast, none⟩ := by
    rw [dropLast_view_seps last]
    simp only [view, count, alone, dropLast_kidsOf _ _ last]
    rfl
  rw [removeLast] at result
  split at result
  · cases result
    exact ⟨base, rfl⟩
  · obtain ⟨rebuiltView, control, _, _⟩ := rebuild_view result
    exact ⟨rebuiltView.trans base, control⟩

/-! ## `bound_remove` and `remove` -/

def rightView (node right : StringNode size) : Option (NodeView Anchor) :=
  if node.control.sibling then some right.view else none

theorem boundRemove_views (last : index + 1 = node.knum)
    (nonempty : node.control.sibling = true → right.control.sibling = true → 0 < right.knum) :
    Follows .noSeparator (fun removed removal => Matches node right removal removed)
      (node.boundRemove right this key index)
      (node.view.boundRemove size key index (rightView node right)) := by
  rw [boundRemove, rightView]
  by_cases sibling : node.control.sibling = true
  · rw [if_pos sibling, if_pos sibling, NodeView.boundRemove]
    simp only [length_view_seps]
    have count : right.updateVersion.knum = right.knum := rfl
    by_cases small : index + right.knum ≤ size.half ∨ index = 0 ∨ right.knum = 0 ∨ right.knum = 1
    · rw [count, if_pos small, if_pos small]
      by_cases empty : index = 0 ∧ right.knum = 0
      · have none : (node.absorb right.updateVersion index 1 (right.updateVersion.knum - 1)
            (node.knum + right.updateVersion.knum - 1)).knum = 0 :=
          show node.knum + right.knum - 1 = 0 by omega
        rw [if_pos empty, boundMerge, contentRebuild, if_pos none]
        rfl
      · rw [if_neg empty]
        obtain ⟨removed, result, spec⟩ := boundMerge_views sibling this key last
          (show ¬(index = 0 ∧ right.updateVersion.knum = 0) from empty) (nonempty sibling)
        exact ⟨removed, result, { spec with }⟩
    · rw [count, if_neg small, if_neg small]
      obtain ⟨removed, result, spec⟩ := handOver_views sibling key last (by omega)
        (show 0 < right.updateVersion.knum by omega)
      exact ⟨removed, result, { spec with }⟩
  · have alone := eq_false_of_ne_true sibling
    obtain ⟨removed, result⟩ := removeLast_returns node index
    obtain ⟨removedView, control⟩ := removeLast_views alone last result
    rw [if_neg sibling, if_neg sibling, NodeView.boundRemove, result]
    exact ⟨_, rfl, trivial, congrArg Control.deleted control,
      removedView, fun _ none => (by cases none), ⟨rfl, rfl⟩, fun absurdity => (by cases absurdity)⟩

theorem removeAt_views (this : Ptr) (key : Anchor) (inside : index < node.knum)
    (nonempty : node.control.sibling = true → right.control.sibling = true → 0 < right.knum) :
    Follows .noSeparator (fun removed removal => Matches node right removal removed)
      (node.removeAt right this key index)
      (node.view.remove size (rightView node right) key index) := by
  rw [removeAt, NodeView.remove, length_view_seps, if_neg (Nat.not_le_of_lt inside)]
  by_cases inner : index < node.knum - 1
  · obtain ⟨removed, result⟩ := removeInner_returns inner
    obtain ⟨removedView, control⟩ := removeInner_view inner result
    have count := (removeInner_frame result).1
    rw [if_pos inner, if_pos (by omega), result, ← removedView]
    by_cases sibling : node.control.sibling = true
    · obtain ⟨merged, mergeResult, spec⟩ := merge_views right
        ((congrArg Control.sibling control).trans sibling) this key (by omega)
      rw [rightView, if_pos sibling]
      exact ⟨merged, mergeResult, { spec with
        deleted_eq := spec.deleted_eq.trans (congrArg Control.deleted control) }⟩
    · rw [rightView, if_neg sibling]
      refine ⟨⟨removed, right, false, false, key⟩, ?_, trivial, congrArg Control.deleted control,
        rfl, fun _ none => (by cases none), ⟨rfl, rfl⟩, fun absurdity => (by cases absurdity)⟩
      exact if_neg (control ▸ sibling)
  · rw [if_neg inner, if_neg (by omega)]
    exact boundRemove_views (by omega) nonempty

/-- Removal from a node is removal from its view; it fails when the two nodes together
would lose their last separator. -/
theorem remove_views (right : StringNode size) (this : Ptr) (key : Anchor)
    (inside : index < node.knum)
    (nonempty : node.control.sibling = true → right.control.sibling = true → 0 < right.knum) :
    Follows .noSeparator (fun removed removal => Matches node right removal removed)
      (node.remove right this key index)
      (node.view.remove size (rightView node right) key index) := by
  have stamped := removeAt_views this key
    (show index < node.updateVersion.knum from inside) nonempty
  have same : node.updateVersion.view.remove size (rightView node.updateVersion right) key index =
      node.view.remove size (rightView node right) key index := rfl
  rw [same] at stamped
  revert stamped
  cases node.view.remove size (rightView node right) key index with
  | none => exact id
  | some removal =>
    rintro ⟨removed, result, spec⟩
    exact ⟨removed, result, { spec with }⟩

/-! ## `anchor_update` -/

theorem anchorUpdate_views (key : Anchor) (inside : index < node.knum) :
    ∃ updated up, node.anchorUpdate key index = .ok (updated, up) ∧
      updated.control.deleted = node.control.deleted ∧
      (updated.view, up) = node.view.anchorUpdate key index := by
  let base : StringNode size :=
    { node.updateVersion with anchors := Function.update node.anchors index key }
  have baseView : (base.view, node.control.sibling && node.knum - 1 == index) =
      node.view.anchorUpdate key index := by
    rw [NodeView.anchorUpdate, length_view_seps]
    have sibling : base.control.sibling = node.control.sibling := rfl
    simp only [view, sibling, linkOf]
    simp only [base, updateVersion, tabulate_update]
    cases node.control.sibling with
    | true => rfl
    | false => rfl
  rw [anchorUpdate, if_neg (Nat.not_le_of_lt inside)]
  dsimp only
  split
  · obtain ⟨rebuilt, result⟩ := exists_rebuild (show 0 < base.knum from Nat.zero_lt_of_lt inside)
    obtain ⟨rebuiltView, control, _, _⟩ := rebuild_view result
    refine ⟨rebuilt, _, congrArg (Except.map _) result, ?_, ?_⟩
    · rw [control]
      rfl
    · rw [rebuiltView]
      exact baseView
  · exact ⟨_, _, rfl, rfl, baseView⟩

/-! ## Contents of the remaining node -/

structure Fresh (node : StringNode size) : Prop where
  current : node.Current
  empty : node.knum = 0 → node.plen = 0

theorem Fresh.of_rebuild (result : node.contentRebuild = .ok other) : other.Fresh := by
  refine ⟨.of_rebuild result, fun empty => ?_⟩
  have count := (rebuild_frame result).1
  rw [contentRebuild, if_pos (count.symm.trans empty)] at result
  cases result

theorem Fresh.inherit (fresh : node.Fresh) (next : Ptr) : (node.inherit right next).Fresh :=
  ⟨fresh.current.congr rfl rfl rfl rfl rfl rfl, fresh.empty⟩

theorem removeLast_fresh (result : node.removeLast index = .ok other) : other.Fresh := by
  rw [removeLast] at result
  dsimp only at result
  split at result
  · rename_i empty
    cases result
    exact ⟨.of_empty empty, fun _ => rfl⟩
  · exact .of_rebuild result

theorem remove_fresh (current : node.Current) {removed : Removed (StringNode size) Anchor}
    (result : node.remove right this key index = .ok removed) : removed.node.Fresh := by
  have renewed : node.updateVersion.Current := current.congr rfl rfl rfl rfl rfl rfl
  rw [remove, removeAt] at result
  split at result
  · cases result
  · split at result
    · rename_i inner
      obtain ⟨erased, erases, merges⟩ := bind_eq_ok.mp result
      have fresh : erased.Fresh := by
        refine ⟨removeInner_current renewed inner erases, fun empty => ?_⟩
        have count := (removeInner_frame erases).1
        omega
      rw [merge] at merges
      split at merges
      · split at merges
        · cases merges
        · split at merges
          · obtain ⟨rebuilt, rebuilds, rfl⟩ := map_eq_ok.mp merges
            exact (Fresh.of_rebuild rebuilds).inherit _
          · cases merges
            exact fresh
      · cases merges
        exact fresh
    · rw [boundRemove] at result
      split at result
      · dsimp only at result
        split at result
        · obtain ⟨rebuilt, rebuilds, rfl⟩ := map_eq_ok.mp result
          exact (Fresh.of_rebuild rebuilds).inherit _
        · obtain ⟨rebuilt, rebuilds, rfl⟩ := map_eq_ok.mp result
          exact .of_rebuild rebuilds
      · obtain ⟨last, removes, rfl⟩ := map_eq_ok.mp result
        exact removeLast_fresh removes

end IndexResearch.FBTree.StringNode
