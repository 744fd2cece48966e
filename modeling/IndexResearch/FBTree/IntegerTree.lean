import IndexResearch.FBTree.InnerNode.Removal
import IndexResearch.FBTree.Tree.Insertion

/-!
# The tree with integer keys

`FBTree<K, V>` for the integer key types: its inner nodes satisfy the laws that the tree
needs.
-/

namespace IndexResearch.FBTree

open Function

variable {size : NodeSize} {type : KeyType}

/-- The operations of `FBTree<K, V>`, for any hash function. -/
def integerOps (size : NodeSize) (type : KeyType) (hash : Key type → Byte) :
    NodeOps (Key type) (Key type) (Encoded type) (InnerNode size type) where
  hash := hash
  noHigh := ⟨0⟩
  makeHigh _ key := key
  highKey := id
  announces := false
  new := InnerNode.new
  control := InnerNode.control
  next := InnerNode.next
  toNext node key := node.toNext (encodeConvert key)
  indexOrSibling := InnerNode.indexOrSibling
  insert := InnerNode.insert
  remove := InnerNode.remove
  anchorUpdate := InnerNode.anchorUpdate
  rootRemove := InnerNode.rootRemove
  midOf := encodeConvert

namespace InnerNode

variable {node right : InnerNode size type} {mid : Encoded type}

theorem WellFormed.ascending (formed : node.WellFormed) : Ascending id node.view.seps :=
  ascending_tabulate.mpr fun first second before inside =>
    (encodeReconvert_lt_iff _ _).mpr (formed.increasing first second before inside)

theorem WellFormed.fits (formed : node.WellFormed)
    (absent : ∀ sep ∈ node.view.seps, sep ≠ encodeReconvert mid) :
    Fits node.separator node.knum mid (rankIn id node.view.seps (encodeReconvert mid)) := by
  have bounded : rankIn id node.view.seps (encodeReconvert mid) ≤ node.view.seps.length :=
    rankIn_le_length _ _
  have smaller := formed.ascending.take_lt (encodeReconvert mid)
  have notSmaller := formed.ascending.drop_not_lt (encodeReconvert mid)
  generalize rankIn id node.view.seps (encodeReconvert mid) = index at *
  rw [length_view_seps] at bounded
  have column : ∀ pos < node.knum,
      node.view.seps[pos]? = some (encodeReconvert (node.separator pos)) :=
    fun pos inside => getElem?_tabulate _ inside
  refine ⟨bounded, ?_, ?_⟩
  · intro pos before
    have listed : encodeReconvert (node.separator pos) ∈ node.view.seps.take index := by
      apply List.mem_of_getElem? (i := pos)
      rw [List.getElem?_take_of_lt before, column pos (by omega)]
    exact (encodeReconvert_lt_iff _ _).mp (smaller _ listed)
  · intro pos notBefore inside
    have listed : encodeReconvert (node.separator pos) ∈ node.view.seps.drop index := by
      apply List.mem_of_getElem? (i := pos - index)
      rw [List.getElem?_drop, Nat.add_sub_cancel' notBefore, column pos inside]
    have above := lt_of_le_of_ne (le_of_not_gt (notSmaller _ listed))
      (Ne.symm (absent _ (List.mem_of_mem_drop listed)))
    exact (encodeReconvert_lt_iff _ _).mp above

theorem sibling_iff : node.control.sibling = true ↔ node.view.link ≠ none := linkOf_ne_none

theorem rightView_eq : rightView node right =
    if node.view.link.isSome then some right.view else none := by
  rw [rightView, show node.view.link.isSome = _ from isSome_linkOf _ _]

theorem neighbours_of_ascending (formed : right.WellFormed)
    (rising : Ascending id (node.view.seps ++ right.view.seps))
    (nonempty : right.view.link ≠ none → right.view.seps ≠ []) : Neighbours node right where
  wellFormed := formed
  before column inside other otherInside := by
    obtain ⟨_, _, across⟩ := ascending_append.mp rising
    apply (encodeReconvert_lt_iff _ _).mp
    apply across
    · exact mem_tabulate.mpr ⟨column, inside, rfl⟩
    · exact mem_tabulate.mpr ⟨other, otherInside, rfl⟩
  nonempty sibling := by
    have some := List.length_pos_of_ne_nil (nonempty (sibling_iff.mp sibling))
    rwa [length_view_seps] at some

end InnerNode

abbrev integerReading (size : NodeSize) (type : KeyType) :
    NodeReading (Key type) (Key type) (Encoded type) (InnerNode size type) where
  view := InnerNode.view
  WellFormed := InnerNode.WellFormed
  decode := encodeReconvert
  Valid _ := True

namespace InnerNode

variable {node right : InnerNode size type} {mid : Encoded type} {index : Nat}

theorem toNext_law (formed : node.WellFormed) (alive : node.control.deleted = false)
    (key : Key type) : node.toNext (encodeConvert key) = .ok (node.view.toNext id key) := by
  have spec := toNext_spec formed alive (encodeConvert key)
  rwa [encodeReconvert_encodeConvert] at spec

theorem indexOrSibling_law (formed : node.WellFormed) (alive : node.control.deleted = false)
    (nonempty : node.view.link ≠ none → node.view.seps ≠ []) :
    node.indexOrSibling mid = .ok (node.view.indexOrSibling id (encodeReconvert mid)) := by
  apply indexOrSibling_spec formed alive
  intro sibling
  have some := List.length_pos_of_ne_nil (nonempty (sibling_iff.mp sibling))
  rwa [length_view_seps] at some

theorem insert_law (raw : InnerNode size type) (address lchild rchild : Ptr)
    (formed : node.WellFormed) (absent : ∀ sep ∈ node.view.seps, sep ≠ encodeReconvert mid)
    (last : rankIn id node.view.seps (encodeReconvert mid) = node.view.seps.length →
      node.view.link = none) :
    ∃ result, node.insert raw address lchild rchild mid
        (rankIn id node.view.seps (encodeReconvert mid)) = .ok result ∧
      Inserted node address lchild rchild mid
        (rankIn id node.view.seps (encodeReconvert mid)) result := by
  have rightmost : node.control.sibling = true →
      rankIn id node.view.seps (encodeReconvert mid) < node.knum := by
    intro sibling
    apply Nat.lt_of_le_of_ne
    · rw [← length_view_seps node]
      exact rankIn_le_length _ _
    · intro all
      rw [← length_view_seps node] at all
      exact sibling_iff.mp sibling (last all)
  exact insert_spec raw address lchild rchild formed (formed.fits absent) rightmost

theorem remove_law (this : Ptr) (mid : Encoded type) (formed : node.WellFormed)
    (inside : index < node.view.seps.length)
    (neighbours : node.view.link ≠ none → (integerReading size type).Neighbours id node right) :
    Follows .noSeparator (fun removed removal => Matches node right removal removed)
      (node.remove right this mid index)
      (node.view.remove size (if node.view.link.isSome then some right.view else none)
        (encodeReconvert mid) index) := by
  rw [length_view_seps] at inside
  have adjacent : node.control.sibling = true → Adjacent node right index := by
    intro sibling
    obtain ⟨rightWellFormed, rising, nonempty⟩ := neighbours (sibling_iff.mp sibling)
    exact (neighbours_of_ascending rightWellFormed rising nonempty).adjacent index
  rw [← rightView_eq]
  exact remove_spec formed adjacent this mid inside

theorem anchorUpdate_law (formed : node.WellFormed) (inside : index < node.view.seps.length)
    (rising : Ascending id (node.view.seps.set index (encodeReconvert mid))) :
    ∃ updated up, node.anchorUpdate mid index = .ok (updated, up) ∧ updated.WellFormed ∧
      updated.control.deleted = node.control.deleted ∧
      (updated.view, up) = node.view.anchorUpdate (encodeReconvert mid) index := by
  rw [length_view_seps] at inside
  apply anchorUpdate_spec formed inside
  have updated : node.view.seps.set index (encodeReconvert mid) = tabulate node.knum
      fun column => encodeReconvert (update node.separator index mid column) := by
    rw [view, ← tabulate_update]
    apply tabulate_congr
    intro column _
    by_cases same : column = index
    · subst same
      rw [update_self, update_self]
    · rw [update_of_ne same, update_of_ne same]
  have ordered : Ascending id (tabulate node.knum fun column =>
      encodeReconvert (update node.separator index mid column)) := updated ▸ rising
  intro first second before within
  apply (encodeReconvert_lt_iff _ _).mp
  exact ascending_tabulate.mp ordered first second before within

theorem rootRemove_law (last : node.view.link = none) :
    if node.view.seps = [] then
      node.view.kids = [node.next] ∧ node.rootRemove.2 = some node.next ∧
      node.rootRemove.1.control.deleted = true
    else node.rootRemove.2 = none := by
  have alone : node.control.sibling = false := by
    apply eq_false_of_ne_true
    exact fun sibling => sibling_iff.mp sibling last
  have seps : node.view.seps = [] ↔ node.knum = 0 := by
    rw [← List.length_eq_zero_iff, length_view_seps]
  by_cases empty : node.knum = 0
  · simp [view, kidsOf, tabulate, alone, rootRemove, empty, Control.setDelete]
  · simp [seps, rootRemove, empty]

end InnerNode

def integerLaws (size : NodeSize) (type : KeyType) (hash : Key type → Byte) :
    (integerOps size type hash).Laws size where
  view := InnerNode.view
  WellFormed := InnerNode.WellFormed
  decode := encodeReconvert
  Valid _ := True
  decode_midOf := encodeReconvert_encodeConvert
  highKey_makeHigh _ _ := rfl
  link_eq _ := rfl
  new_spec _ := ⟨.of_empty rfl rfl, rfl, rfl⟩
  toNext_spec _ key formed alive _ := InnerNode.toNext_law formed alive key
  indexOrSibling_spec _ _ formed alive nonempty _ :=
    InnerNode.indexOrSibling_law formed alive nonempty
  insert_spec _ raw address lchild rchild _ formed _ absent last :=
    InnerNode.insert_law raw address lchild rchild formed absent last
  remove_spec _ _ this mid _ formed inside neighbours :=
    InnerNode.remove_law this mid formed inside neighbours
  anchorUpdate_spec _ _ _ formed inside _ rising :=
    InnerNode.anchorUpdate_law formed inside rising
  rootRemove_spec _ _ last := InnerNode.rootRemove_law last

end IndexResearch.FBTree
