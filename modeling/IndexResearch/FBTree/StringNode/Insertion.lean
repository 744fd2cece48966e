import IndexResearch.FBTree.StringNode.Upkeep

/-!
# Inserting into a string node

The arrays of a string node are shuffled in the same way whatever the separators are, so
that the effect of an insertion on the view needs no order of the separators.  The order
and the prefix are settled afterwards from the view.
-/

namespace IndexResearch.FBTree.StringNode

open InnerNode Function

variable {size : NodeSize} {node other rebuilt raw : StringNode size} {key : Anchor} {index : Nat}
  {address lchild rchild : Ptr}

/-! ## Well-formedness, read off the view -/

theorem rebuild_view (result : node.contentRebuild = .ok rebuilt) :
    rebuilt.view = node.view ∧ rebuilt.control = node.control ∧ rebuilt.next = node.next ∧
      rebuilt.children = node.children := by
  rw [contentRebuild] at result
  split at result
  · cases result
  · cases result
    exact ⟨rfl, rfl, rfl, rfl⟩

theorem increasing_iff : Increasing node.anchors node.knum ↔ Ascending Anchor.text node.view.seps :=
  ascending_tabulate.symm

theorem WellFormed.current (formed : node.WellFormed) : node.Current where
  plen_eq := formed.plen_eq
  huge_eq := formed.huge_eq
  tiny_eq _ := formed.tiny_eq
  features_eq := formed.features_eq

theorem Current.wellFormed (current : node.Current) (bounded : node.knum ≤ size.slots)
    (rising : Ascending Anchor.text node.view.seps) (empty : node.knum = 0 → node.plen = 0) :
    node.WellFormed where
  knum_le := bounded
  increasing := increasing_iff.mpr rising
  plen_empty := empty
  plen_eq := current.plen_eq
  huge_eq := current.huge_eq
  tiny_eq fits pos inside := by
    have positive : 0 < node.knum := by
      apply Nat.pos_of_ne_zero
      intro none
      rw [empty none] at inside
      exact Nat.not_lt_zero _ inside
    exact current.tiny_eq positive fits pos inside
  features_eq := current.features_eq

/-! ## Insertion into a node with space -/

theorem insertSeps_view (bounded : index ≤ node.knum) :
    node.view.insertSeps key index =
      tabulate (node.knum + 1) (InnerNode.inserted node.anchors key index) := by
  rw [NodeView.insertSeps, insertAt, view, tabulate_inserted _ _ bounded]

theorem insertKids_view (inside : index < node.knum) :
    node.view.insertKids lchild rchild index = kidsOf node.control.sibling
      (tabulate (node.knum + 1) (InnerNode.inserted node.children rchild (index + 1))) node.next :=
  insertKids_inner (length_view_seps node) lchild rchild rfl inside

theorem insertKids_view_last (lchild rchild : Ptr) (rightmost : node.control.sibling = false) :
    node.view.insertKids lchild rchild node.knum =
      tabulate node.knum node.children ++ [lchild, rchild] := by
  have kids : node.view.kids = kidsOf false _ node.next := congrArg (kidsOf · _ _) rightmost
  exact insertKids_last (length_view_seps node) lchild rchild kids

theorem place_view (bounded : index ≤ node.knum)
    (rightmost : node.control.sibling = true → index < node.knum) :
    (node.place lchild rchild key index).view =
      ⟨node.view.insertSeps key index, node.view.insertKids lchild rchild index,
        node.view.link⟩ := by
  have seps : tabulate (node.knum + 1) (node.place lchild rchild key index).anchors =
      node.view.insertSeps key index := by
    rw [insertSeps_view bounded]
    exact tabulate_congr fun column inside =>
      anchors_place lchild rchild key index (Nat.le_of_lt_succ inside)
  by_cases last : index = node.knum
  · have alone : node.control.sibling = false := by
      by_contra sibling
      exact Nat.lt_irrefl _ (last ▸ rightmost (Bool.eq_true_of_not_eq_false sibling))
    subst last
    rw [insertKids_view_last lchild rchild alone, ← seps]
    simp [view, place, alone, kidsOf, linkOf, tabulate_update_last]
  · have inside : index < node.knum := Nat.lt_of_le_of_ne bounded last
    rw [insertKids_view inside, ← seps]
    simp only [view, place, if_pos last]
    rw [tabulate_congr fun column within => children_inserted rchild within]

/-! ## Splits -/

/-- What a split returns.  `sep` and `kids` list the separators and children after the
insertion, `point` is the number of separators of the left node. -/
structure SplitAt (node : StringNode size) (address : Ptr) (sep : Nat → Anchor) (kids : List Ptr)
    (point : Nat) (result : StringNode size × StringNode size × Anchor) : Prop where
  left_deleted : result.1.control.deleted = node.control.deleted
  right_deleted : result.2.1.control.deleted = false
  left_view : result.1.view = ⟨tabulate point sep, kids.take point, some address⟩
  right_view : result.2.1.view =
    ⟨tabulate (size.slots + 1 - point) fun column => sep (point + column), kids.drop point,
      node.view.link⟩
  mid_eq : result.2.2 = sep (point - 1)

theorem deleted_newSibling (node raw : StringNode size) :
    (node.newSibling raw).control.deleted = false := by
  simp only [newSibling]
  split <;> rfl

theorem sibling_newSibling (node raw : StringNode size) :
    (node.newSibling raw).control.sibling = node.control.sibling := by
  simp only [newSibling]
  cases node.control.sibling with
  | true => rfl
  | false => rfl

theorem SplitAt.of_rebuild (raw : StringNode size) (point : Nat)
    {leftBase rightBase left right : StringNode size} {sep : Nat → Anchor} {children : Nat → Ptr}
    (leftResult : leftBase.contentRebuild = .ok left)
    (rightResult : rightBase.contentRebuild = .ok right)
    (leftCount : leftBase.knum = point) (rightCount : rightBase.knum = size.slots + 1 - point)
    (inside : 0 < point ∧ point ≤ size.slots + 1)
    (leftControl : leftBase.control = node.control.setSibling) (leftNext : leftBase.next = address)
    (rightControl : rightBase.control = (node.newSibling raw).control)
    (rightNext : rightBase.next = node.next)
    (leftAnchors : ∀ column < point, leftBase.anchors column = sep column)
    (rightAnchors : ∀ column < size.slots + 1 - point,
      rightBase.anchors column = sep (point + column))
    (leftChildren : ∀ column < point, leftBase.children column = children column)
    (rightChildren : ∀ column < size.slots + 1 - point,
      rightBase.children column = children (point + column)) :
    SplitAt node address sep
      (kidsOf node.control.sibling (tabulate (size.slots + 1) children) node.next) point
      (left, right, left.anchors (point - 1)) := by
  have bounded : point ≤ (tabulate (size.slots + 1) children).length := by simpa using inside.2
  obtain ⟨leftView, leftSame, _, _⟩ := rebuild_view leftResult
  obtain ⟨rightView, rightSame, _, _⟩ := rebuild_view rightResult
  refine ⟨?_, ?_, ?_, ?_, ?_⟩
  · simp only [leftSame, leftControl, Control.setSibling]
  · simp only [rightSame, rightControl, deleted_newSibling]
  · rw [leftView]
    simp only [view, leftCount, leftControl, leftNext]
    rw [tabulate_congr leftAnchors, tabulate_congr leftChildren, take_kidsOf bounded,
      take_tabulate _ inside.2]
    rfl
  · rw [rightView]
    simp only [view, rightCount, rightControl, rightNext, sibling_newSibling]
    rw [tabulate_congr rightAnchors, tabulate_congr rightChildren, drop_kidsOf bounded,
      drop_tabulate _ inside.2]
  · rw [(rebuild_frame leftResult).2]
    exact leftAnchors (point - 1) (by omega)

variable {result : StringNode size × StringNode size × Anchor}

theorem split_last (full : node.knum = size.slots) (rightmost : node.control.sibling = false)
    (returns : node.split raw address lchild rchild key size.slots = .ok result) :
    SplitAt node address (InnerNode.inserted node.anchors key size.slots)
      (tabulate size.slots node.children ++ [lchild, rchild]) size.slots result := by
  have half := size.eight_le_half
  have slots := size.slots_eq
  have kept : ∀ column < size.slots, InnerNode.inserted node.anchors key size.slots column =
      node.anchors column := fun column inside => inserted_of_lt inside
  simp only [split, if_pos] at returns
  obtain ⟨right, rightResult, ends⟩ := bind_eq_ok.mp returns
  cases ends
  obtain ⟨rightView, rightControl, _, _⟩ := rebuild_view rightResult
  have alone : (node.newSibling raw).control.sibling = false :=
    (sibling_newSibling node raw).trans rightmost
  refine ⟨rfl, ?_, ?_, ?_, ?_⟩
  · simp only [rightControl]
    exact deleted_newSibling node raw
  · rw [List.take_left' (length_tabulate _ _), tabulate_congr kept, ← full]
    rfl
  · rw [rightView, List.drop_left' (length_tabulate _ _), Nat.add_sub_cancel_left]
    simp [view, lastRight, alone, rightmost, kidsOf, linkOf, tabulate]
  · exact (kept (size.slots - 1) (by omega)).symm

theorem split_low (low : index < size.half)
    (returns : node.split raw address lchild rchild key index = .ok result) :
    SplitAt node address (InnerNode.inserted node.anchors key index)
      (kidsOf node.control.sibling
        (tabulate (size.slots + 1) (InnerNode.inserted node.children rchild (index + 1))) node.next)
      (size.half + 1) result := by
  have half := size.eight_le_half
  have slots := size.slots_eq
  simp only [split] at returns
  rw [if_neg (by omega), if_pos low] at returns
  obtain ⟨left, leftResult, rest⟩ := bind_eq_ok.mp returns
  obtain ⟨right, rightResult, ends⟩ := bind_eq_ok.mp rest
  cases ends
  apply SplitAt.of_rebuild raw (size.half + 1) leftResult rightResult rfl
  · simp only [lowRight]
    omega
  · omega
  · rfl
  · rfl
  · rfl
  · rfl
  · intro column inside
    simp only [lowLeft]
    rw [moveBackward_eq_copy _ (Nat.le_succ index)]
    exact update_copy_eq_inserted _ _ (Nat.le_of_lt_succ inside)
  · intro column inside
    simp only [lowRight]
    rw [copy_of_mem (by omega), inserted_of_gt (by omega)]
    simp only [linkTo]
    congr 1
    omega
  · exact fun column inside => children_opened rchild (Nat.le_of_lt low) inside
  · intro column inside
    simp only [lowRight]
    rw [copy_of_mem (by omega), inserted_of_gt (by omega)]
    simp only [linkTo]
    congr 1
    omega

theorem split_high (high : size.half ≤ index) (inside : index < size.slots)
    (returns : node.split raw address lchild rchild key index = .ok result) :
    SplitAt node address (InnerNode.inserted node.anchors key index)
      (kidsOf node.control.sibling
        (tabulate (size.slots + 1) (InnerNode.inserted node.children rchild (index + 1))) node.next)
      size.half result := by
  have half := size.eight_le_half
  have slots := size.slots_eq
  simp only [split] at returns
  rw [if_neg (by omega), if_neg (by omega)] at returns
  obtain ⟨left, leftResult, rest⟩ := bind_eq_ok.mp returns
  obtain ⟨right, rightResult, ends⟩ := bind_eq_ok.mp rest
  cases ends
  apply SplitAt.of_rebuild raw size.half leftResult rightResult rfl
  · simp only [highRight]
    omega
  · omega
  · rfl
  · rfl
  · rfl
  · rfl
  · intro column columnInside
    rw [inserted_of_lt (by omega)]
    rfl
  · intro column columnInside
    simp only [highRight]
    rcases Nat.lt_trichotomy (size.half + column) index with before | same | after
    · rw [update_of_ne (by omega), copy_of_not_mem (by omega), copy_of_mem (by omega),
        inserted_of_lt before]
      simp only [linkTo]
      congr 1
      omega
    · rw [show column = index - size.half by omega, update_self,
        show size.half + (index - size.half) = index by omega, inserted_self]
    · rw [update_of_ne (by omega), copy_of_mem (by omega), inserted_of_gt after]
      simp only [linkTo]
      congr 1
      omega
  · intro column columnInside
    rw [inserted_of_lt (by omega)]
    rfl
  · intro column columnInside
    simp only [highRight]
    rcases Nat.lt_trichotomy (size.half + column) (index + 1) with before | same | after
    · rw [update_of_ne (by omega), copy_of_not_mem (by omega), copy_of_mem (by omega),
        inserted_of_lt before]
      simp only [linkTo]
      congr 1
      omega
    · rw [show column = index - size.half + 1 by omega, update_self,
        show size.half + (index - size.half + 1) = index + 1 by omega, inserted_self]
    · rw [update_of_ne (by omega), copy_of_mem (by omega), inserted_of_gt after]
      simp only [linkTo]
      congr 1
      omega

theorem split_spec (full : node.knum = size.slots) (bounded : index ≤ node.knum)
    (rightmost : node.control.sibling = true → index < node.knum)
    (returns : node.split raw address lchild rchild key index = .ok result) :
    SplitAt node address (InnerNode.inserted node.anchors key index)
      (node.view.insertKids lchild rchild index) (NodeView.splitPoint size index) result := by
  rw [NodeView.splitPoint]
  by_cases last : index = size.slots
  · subst last
    have alone : node.control.sibling = false := by
      by_contra sibling
      exact Nat.lt_irrefl _ (full ▸ rightmost (Bool.eq_true_of_not_eq_false sibling))
    have kids := insertKids_view_last lchild rchild alone
    rw [full] at kids
    rw [if_pos rfl, kids]
    exact split_last full alone returns
  · have inside : index < size.slots := Nat.lt_of_le_of_ne (full ▸ bounded) last
    rw [if_neg last, insertKids_view (full.symm ▸ inside), full]
    split
    · rename_i low
      exact split_low low returns
    · rename_i high
      exact split_high (not_lt.mp high) inside returns

/-! ## `insert` -/

theorem insert_views (limit : node.knum ≤ size.slots) (bounded : index ≤ node.knum)
    (rightmost : node.control.sibling = true → index < node.knum)
    {result : StringNode size × Option (StringNode size) × Anchor}
    (returns : node.insert raw address lchild rchild key index = .ok result) :
    node.view.insert size address lchild rchild key index =
        (result.1.view, result.2.1.map fun right => (right.view, result.2.2)) ∧
      result.1.control.deleted = node.control.deleted ∧
      ∀ right, result.2.1 = some right → right.control.deleted = false := by
  have within : ¬node.updateVersion.knum < index := Nat.not_lt.mpr bounded
  rw [insert, if_neg within] at returns
  rw [NodeView.insert, length_view_seps]
  by_cases small : node.knum < size.slots
  · have room : node.updateVersion.knum < size.slots := small
    rw [if_pos room] at returns
    have placed : (node.updateVersion.place lchild rchild key index).view = _ :=
      place_view bounded rightmost
    rw [if_pos small]
    split at returns
    · obtain ⟨rebuilt, rebuilds, rfl⟩ := map_eq_ok.mp returns
      obtain ⟨rebuiltView, control, _, _⟩ := rebuild_view rebuilds
      refine ⟨?_, (congrArg Control.deleted control).trans rfl,
        fun right absurdity => (by cases absurdity)⟩
      simp only [rebuiltView, placed]
      rfl
    · cases returns
      refine ⟨?_, rfl, fun right absurdity => (by cases absurdity)⟩
      have columns :
        ((node.updateVersion.place lchild rchild key index).insertColumn key index).view =
          (node.updateVersion.place lchild rchild key index).view := rfl
      simp only [columns, placed]
      rfl
  · have full : node.updateVersion.knum = size.slots :=
      Nat.le_antisymm limit (not_lt.mp small)
    rw [if_neg (by rw [full]; exact Nat.lt_irrefl _)] at returns
    obtain ⟨⟨left, right, mid⟩, returned, rfl⟩ := map_eq_ok.mp returns
    have split := split_spec full bounded rightmost returned
    have positive := NodeView.splitPoint_pos size index
    have short : NodeView.splitPoint size index ≤ size.slots + 1 :=
      Nat.le_succ_of_le (NodeView.splitPoint_le size index)
    have count : node.knum = size.slots := full
    refine ⟨?_, split.left_deleted, ?_⟩
    · have midEq : mid = InnerNode.inserted node.anchors key index
        (NodeView.splitPoint size index - 1) :=
        split.mid_eq
      simp only [Option.map_some]
      rw [if_neg small, insertSeps_view bounded, count, take_tabulate _ short,
        drop_tabulate _ short, getLastD_tabulate positive, split.left_view, split.right_view, midEq]
      rfl
    · intro other same
      cases same
      exact split.right_deleted

end IndexResearch.FBTree.StringNode
