import IndexResearch.FBTree.InnerNode.Insertion
import IndexResearch.Loop

/-!
# Removing from an inner node

Removal of a separator, absorption of the right sibling, border removal and anchor
update, on the column layout, are the corresponding operations on the views.
-/

namespace IndexResearch.FBTree.InnerNode

open List Function

variable {size : NodeSize} {type : KeyType} {node right : InnerNode size type}
  {sep : Nat → Encoded type} {count index : Nat} {mid : Encoded type} {this : Ptr}

def erased {Value : Type} (array : Nat → Value) (index : Nat) : Nat → Value :=
  fun pos => if pos < index then array pos else array (pos + 1)

theorem copy_eq_erased {Value : Type} (array : Nat → Value) {pos : Nat} (inside : pos < count - 1) :
    copy array array index (index + 1) (count - index - 1) pos = erased array index pos := by
  rw [erased]
  split
  · exact copy_of_not_mem (by omega)
  · rw [copy_of_mem (by omega)]
    congr 1
    omega

theorem tabulate_erased {Value : Type} (array : Nat → Value) (inside : index < count) :
    tabulate (count - 1) (erased array index) = (tabulate count array).eraseIdx index := by
  apply tabulate_erase inside
  · exact fun pos before => if_pos before
  · exact fun pos after _ => if_neg (by omega)

theorem Increasing.erased (increasing : Increasing sep count) :
    Increasing (erased sep index) (count - 1) := by
  intro first second before inside
  unfold InnerNode.erased
  split
  · split
    · exact increasing first second before (by omega)
    · exact increasing first (second + 1) (by omega) (by omega)
  · rw [if_neg (by omega)]
    exact increasing (first + 1) (second + 1) (by omega) (by omega)

/-- One array behind the first `count` elements of another. -/
def joined {Value : Type} (left : Nat → Value) (count : Nat) (right : Nat → Value) : Nat → Value :=
  fun pos => if pos < count then left pos else right (pos - count)

theorem tabulate_joined {Value : Type} (left right : Nat → Value) (count more : Nat) :
    tabulate (count + more) (joined left count right) =
      tabulate count left ++ tabulate more right := by
  apply tabulate_append
  · exact fun pos before => if_pos before
  · intro pos _
    rw [joined, if_neg (by omega), Nat.add_sub_cancel_left]

theorem tabulate_map_joined {Value Image : Type} (image : Value → Image) (left right : Nat → Value)
    (count more : Nat) :
    (tabulate (count + more) fun pos => image (joined left count right pos)) =
      (tabulate count fun pos => image (left pos)) ++
        tabulate more fun pos => image (right pos) := by
  rw [← tabulate_joined]
  apply tabulate_congr
  intro pos _
  unfold joined
  split <;> rfl

def Before (node right : InnerNode size type) : Prop :=
  ∀ column < node.knum, ∀ other < right.knum,
    lexRank (node.separator column) < lexRank (right.separator other)

theorem Increasing.joined {left right : Nat → Encoded type} {more : Nat}
    (leftIncreasing : Increasing left count) (rightIncreasing : Increasing right more)
    (before : ∀ column < count, ∀ other < more, lexRank (left column) < lexRank (right other)) :
    Increasing (joined left count right) (count + more) := by
  intro first second ordered inside
  unfold InnerNode.joined
  split
  · rename_i firstLeft
    split
    · rename_i secondLeft
      exact leftIncreasing first second ordered secondLeft
    · exact before first firstLeft (second - count) (by omega)
  · rw [if_neg (by omega)]
    exact rightIncreasing (first - count) (second - count) (by omega) (by omega)

/-! ## `key_remove` -/

theorem keyRemove_stores (formed : node.WellFormed) (inside : index < node.knum - 1) :
    ∃ removed, node.keyRemove index = .ok removed ∧
      Stores removed (erased node.separator index) (node.knum - 1) ∧
      removed.control = node.control ∧ removed.next = node.next := by
  have stores := formed.stores
  have plenBound := stores.plen_le
  rw [keyRemove, if_neg (by omega)]
  generalize shiftedEq : ({ node with
    features := mapRows (type.size - node.plen)
      (fun _ row => copy row row index (index + 1) (node.knum - index - 1))
      node.features } : InnerNode size type) = shifted
  have plenEq : shifted.plen = node.plen := by rw [← shiftedEq]
  have columns : ∀ column < node.knum - 1,
      shifted.separator column = erased node.separator index column := by
    intro column columnInside
    apply eq_of_byteAt_eq
    intro rid within
    rw [byteAt_separator _ _ within, plenEq]
    by_cases inPrefix : rid < node.plen
    · rw [if_pos inPrefix, ← shiftedEq]
      unfold erased
      split <;> exact stores.prefixBytes_eq (by omega) inPrefix
    · have row : rid - node.plen + node.plen = rid := by omega
      rw [if_neg inPrefix, ← shiftedEq]
      simp only [mapRows]
      rw [if_pos (by omega), copy_eq_erased _ columnInside]
      unfold erased
      split
      · rw [stores.features_eq (by omega) (by omega), row]
      · rw [stores.features_eq (by omega) (by omega), row]
  simp only
  split
  · refine ⟨_, rfl, ?_, ?_, ?_⟩
    · exact prefixExtension_spec (by omega) (plenEq ▸ plenBound) columns formed.increasing.erased
    · rw [← shiftedEq]
      rfl
    · rw [← shiftedEq]
      rfl
  · rename_i notFirst
    refine ⟨_, rfl, ⟨plenEq ▸ plenBound, columns, ?_, fun zero => by omega⟩, ?_, ?_⟩
    · intro _ short
      rw [plenEq] at short ⊢
      have last : node.knum - 1 - 1 + 1 = node.knum - 1 := by omega
      rw [erased, if_pos (by omega), erased, if_neg (by omega), last]
      exact stores.maximal (by omega) short
    · rw [← shiftedEq]
    · rw [← shiftedEq]

theorem eraseIdx_kidsOf {sibling : Bool} {children : List Ptr} {next : Ptr}
    (inside : index < children.length) :
    (kidsOf sibling children next).eraseIdx index = kidsOf sibling
    (children.eraseIdx index) next:= by
  cases sibling with
  | true => rfl
  | false => exact eraseIdx_append_of_lt_length inside [next]

/-! ## Children in memory -/

section Children

variable {sibling : Bool} (left right : Nat → Ptr) (next : Ptr)

theorem kidsOf_moveForward (inside : index < count - 1) :
    kidsOf sibling (tabulate (count - 1)
        (moveForward left (index + 2) (index + 1) (count - index - 2))) next =
      (kidsOf sibling (tabulate count left) next).eraseIdx (index + 1) := by
  rw [eraseIdx_kidsOf (by simp; omega), moveForward_eq_copy _ (Nat.le_succ (index + 1))]
  congr 1
  apply tabulate_erase (by omega)
  · exact fun pos before => copy_of_not_mem (by omega)
  · intro pos after last
    rw [copy_of_mem (by omega)]
    congr 1
    omega

theorem tabulate_copy_behind (src more : Nat) :
    tabulate (count + more) (copy left right count src more) =
      tabulate count left ++ tabulate more fun pos => right (pos + src) := by
  apply tabulate_append
  · exact fun pos inside => copy_of_not_mem (by omega)
  · intro pos inside
    rw [copy_of_mem (by omega)]
    congr 1
    omega

theorem tail_kidsOf {fewer : Nat} :
    (kidsOf sibling (tabulate (fewer + 1) left) next).tail =
      kidsOf sibling (tabulate fewer fun pos => left (pos + 1)) next := by
  rw [tabulate_succ_left]
  cases sibling with
  | true => rfl
  | false => rfl

/-- The children of `right` but the first one, behind all those of `left`. -/
theorem kidsOf_copy_tail {more : Nat} (last : index + 1 = count)
    (nonempty : sibling = true → 0 < more) :
    kidsOf sibling (tabulate (index + more) (copy left right count 1 (more - 1)))
        (if more ≠ 0 then next else copy left right count 1 (more - 1) index) =
      tabulate count left ++ (kidsOf sibling (tabulate more right) next).tail ∧
    linkOf sibling (if more ≠ 0 then next else copy left right count 1 (more - 1) index) =
      linkOf sibling next := by
  cases more with
  | zero =>
    have alone : sibling = false := by
      by_contra other
      exact Nat.lt_irrefl 0 (nonempty (Bool.eq_true_of_not_eq_false other))
    have children : tabulate index (copy left right count 1 0) ++
        [copy left right count 1 0 index] = tabulate count left := by
      rw [← tabulate_succ, last]
      exact tabulate_congr fun pos inside => copy_of_not_mem (by omega)
    subst alone
    exact ⟨by simpa [kidsOf, tabulate] using children, rfl⟩
  | succ fewer =>
    refine ⟨?_, rfl⟩
    rw [tail_kidsOf, append_kidsOf, ← tabulate_copy_behind, if_pos (Nat.succ_ne_zero fewer),
      Nat.add_sub_cancel, show index + (fewer + 1) = count + fewer by omega]

theorem kidsOf_update_first (child : Ptr) (positive : 0 < count) :
    kidsOf sibling (tabulate count (update left 0 child)) next =
      child :: (kidsOf sibling (tabulate count left) next).tail := by
  obtain ⟨fewer, rfl⟩ := Nat.exists_eq_add_one_of_ne_zero (Nat.ne_of_gt positive)
  rw [tail_kidsOf, tabulate_succ_left, update_self]
  cases sibling with
  | true | false => rfl

theorem dropLast_kidsOf (last : index + 1 = count) :
    (kidsOf false (tabulate count left) next).dropLast =
      kidsOf false (tabulate index left) (left index) := by
  simp only [kidsOf]
  rw [if_neg Bool.false_ne_true, dropLast_concat, ← last, tabulate_succ]
  rfl

end Children

theorem sibling_inherited {control other : Control} (sibling : control.sibling = true) :
    (if other.sibling then control else control.clearSibling).sibling = other.sibling := by
  cases other.sibling with
  | true => simp [sibling]
  | false => rfl

theorem deleted_inherited (control other : Control) :
    (if other.sibling then control else control.clearSibling).deleted = control.deleted := by
  split <;> rfl

theorem removeInner_spec (formed : node.WellFormed) (inside : index < node.knum - 1) :
    ∃ removed, node.removeInner index = .ok removed ∧ removed.WellFormed ∧
      removed.control = node.control ∧ removed.knum = node.knum - 1 ∧ removed.next = node.next ∧
      (∀ column < node.knum - 1, removed.separator column = erased node.separator index column) ∧
      removed.view = ⟨node.view.seps.eraseIdx index, node.view.kids.eraseIdx (index + 1),
        node.view.link⟩ := by
  have bounded := formed.knum_le
  obtain ⟨removed, result, stores, control, next⟩ := keyRemove_stores formed inside
  rw [removeInner, result]
  have finalStores : Stores ({ removed with
      children := moveForward node.children (index + 2) (index + 1) (node.knum - index - 2)
      knum := node.knum - 1 } : InnerNode size type) _ _ := stores.congr rfl rfl rfl
  refine ⟨_, rfl, ⟨by simp only; omega, ?_, ?_⟩, control, rfl, next, finalStores.separator_eq, ?_⟩
  · exact formed.increasing.erased.congr finalStores.separator_eq
  · exact finalStores.congr_sep finalStores.separator_eq
  · rw [InnerNode.view_eq _ (node.knum - 1) (erased (fun column =>
      encodeReconvert (node.separator column)) index) _ rfl ?_ (fun _ _ => rfl)]
    · simp only [control, next, view]
      rw [tabulate_erased _ (by omega), kidsOf_moveForward _ _ inside]
    · intro column columnInside
      rw [finalStores.separator_eq column columnInside]
      unfold erased
      split <;> rfl

/-! ## Absorbing the right sibling -/

abbrev Matches (node right : InnerNode size type) :=
  NodeView.Matches WellFormed view encodeReconvert control node right

theorem absorb_rebuilt {pos : Nat} (src more : Nat) (formed : node.WellFormed)
    (rightWellFormed : right.WellFormed) (before : Before node right)
    (bounded : pos ≤ node.knum) (positive : 0 < pos + right.knum)
    (fits : pos + right.knum ≤ size.slots) :
    ∃ merged, (node.absorb right pos src more (pos + right.knum)).memoryShrink =
        .ok merged ∧
      Rebuilt (node.absorb right pos src more (pos + right.knum))
        (joined node.separator pos right.separator) merged := by
  have limit := formed.knum_le
  apply memoryShrink_rebuilt _ _ positive fits
  · intro column inside
    simp only [absorb] at inside
    apply eq_of_byteAt_eq
    intro rid within
    rw [byteAt_expanded _ _ within]
    simp only [absorb, mapRows, joined]
    rw [if_pos within]
    split
    · rename_i own
      rw [copy_of_not_mem (by omega),
        features_memoryExpand formed.stores.plen_le within (by omega)]
    · rename_i other
      rw [copy_of_mem (by omega), Nat.add_zero,
        features_memoryExpand rightWellFormed.stores.plen_le within (by omega)]
  · apply (formed.increasing.mono bounded).joined rightWellFormed.increasing
    exact fun column inside => before column (by omega)

theorem inherit_view {merged : InnerNode size type} {next : Ptr}
    (sibling : merged.control.sibling = true) :
    (merged.inherit right next).view =
      ⟨merged.view.seps, kidsOf right.control.sibling (tabulate merged.knum merged.children) next,
        linkOf right.control.sibling next⟩ := by
  have flag : (merged.inherit right next).control.sibling = right.control.sibling :=
    sibling_inherited sibling
  rw [view_eq (merged.inherit right next) merged.knum _ merged.children rfl (fun _ _ => rfl)
    (fun _ _ => rfl), flag]
  rfl

theorem dropLast_view_seps (last : index + 1 = node.knum) :
    node.view.seps.dropLast =
      tabulate index fun column => encodeReconvert (node.separator column) := by
  rw [view, ← last, tabulate_succ, dropLast_concat]

section Merge

variable (formed : node.WellFormed) (sibling : node.control.sibling = true)
  (rightWellFormed : right.WellFormed) (before : Before node right)

include sibling in

theorem view_kids_of_sibling : node.view.kids = tabulate node.knum node.children := by
  simp only [view, sibling, kidsOf, if_true]

include formed sibling rightWellFormed before

theorem merge_spec (this : Ptr) (mid : Encoded type) (positive : 0 < node.knum) :
    ∃ removed, node.merge right this mid = .ok removed ∧
      Matches node right (node.view.merge size (encodeReconvert mid) (some right.view))
        removed := by
  have limit := formed.knum_le
  have half := size.eight_le_half
  have slots := size.slots_eq
  rw [merge, if_pos sibling, if_neg (by omega), NodeView.merge]
  simp only [length_view_seps]
  split
  · rename_i small
    obtain ⟨merged, result, spec⟩ := absorb_rebuilt 0 right.knum formed rightWellFormed before
      le_rfl (by omega) (by omega)
    have mergedSibling : merged.control.sibling = true :=
      (congrArg Control.sibling spec.control_eq).trans sibling
    rw [result]
    refine ⟨_, rfl, spec.wellFormed.congr rfl rfl rfl rfl, ?_, ?_, fun _ none => (by cases none),
      ⟨rfl, rfl, ?_⟩, fun _ => rfl⟩
    · exact (deleted_inherited _ _).trans (congrArg Control.deleted spec.control_eq)
    · simp only [inherit_view mergedSibling, spec.view_eq, spec.knum_eq, spec.children_eq, absorb]
      rw [tabulate_map_joined, tabulate_copy_behind, ← append_kidsOf, view_kids_of_sibling sibling]
      rfl
    · rw [view, getLastD_tabulate positive]
  · refine ⟨_, rfl, formed, rfl, rfl, ?_, ⟨rfl, rfl⟩, fun absurdity => (by cases absurdity)⟩
    intro view same
    cases same
    exact ⟨rightWellFormed, rfl, rfl⟩

theorem boundMerge_spec (this : Ptr) (mid : Encoded type) (last : index + 1 = node.knum)
    (small : index + right.knum ≤ size.half ∨ index = 0 ∨ right.knum = 0 ∨ right.knum = 1)
    (nonempty : ¬(index = 0 ∧ right.knum = 0))
    (rightNonempty : right.control.sibling = true → 0 < right.knum) :
    ∃ removed, node.boundMerge right this mid index = .ok removed ∧
      Matches node right
        ⟨⟨node.view.seps.dropLast ++ right.view.seps, node.view.kids ++ right.view.kids.tail,
          right.view.link⟩, none, .merged (encodeReconvert mid)⟩ removed := by
  have limit := formed.knum_le
  have rightLimit := rightWellFormed.knum_le
  have half := size.eight_le_half
  have slots := size.slots_eq
  have count : node.knum + right.knum - 1 = index + right.knum := by omega
  obtain ⟨merged, result, spec⟩ := absorb_rebuilt 1 (right.knum - 1) formed rightWellFormed
    before (by omega) (by omega : 0 < index + right.knum) (by omega)
  have mergedSibling : merged.control.sibling = true :=
    (congrArg Control.sibling spec.control_eq).trans sibling
  rw [boundMerge, count, result]
  refine ⟨_, rfl, spec.wellFormed.congr rfl rfl rfl rfl, ?_, ?_, fun _ none => (by cases none),
    ⟨rfl, rfl, rfl⟩, fun _ => rfl⟩
  · exact (deleted_inherited _ _).trans (congrArg Control.deleted spec.control_eq)
  · simp only [inherit_view mergedSibling, spec.view_eq, spec.knum_eq, spec.children_eq, absorb]
    obtain ⟨kids, link⟩ := kidsOf_copy_tail node.children right.children right.next last
      rightNonempty
    rw [tabulate_map_joined, dropLast_view_seps last, view_kids_of_sibling sibling, link]
    exact congrArg (NodeView.mk _ · _) kids

omit sibling rightWellFormed before in
theorem boundExtension_stores (kept : InnerNode size type) (positive : 0 < kept.knum)
    (samePlen : kept.plen = node.plen) (samePrefix : kept.prefixBytes = node.prefixBytes)
    (sameFeatures : kept.features = node.features) (bounded : kept.knum ≤ node.knum) :
    ∃ rebuilt, kept.boundExtension = .ok rebuilt ∧ rebuilt.WellFormed ∧
      (∀ column < kept.knum, rebuilt.separator column = node.separator column) ∧
      rebuilt.control = kept.control ∧ rebuilt.knum = kept.knum ∧ rebuilt.next = kept.next ∧
      rebuilt.children = kept.children := by
  have increasing := formed.increasing.mono bounded
  have stores := prefixExtension_spec positive (samePlen ▸ formed.stores.plen_le)
    (fun column _ => separator_congr samePlen samePrefix sameFeatures column) increasing
  rw [boundExtension, if_neg (by omega)]
  refine ⟨_, rfl, ⟨Nat.le_trans bounded formed.knum_le, ?_, ?_⟩, stores.separator_eq, rfl, rfl,
    rfl, rfl⟩
  · exact increasing.congr stores.separator_eq
  · exact stores.congr_sep stores.separator_eq

omit before in
theorem handOver_spec (mid : Encoded type) (last : index + 1 = node.knum) (positive : 0 < index)
    (rightPositive : 0 < right.knum) :
    ∃ removed, node.handOver right index = .ok removed ∧
      Matches node right
        ⟨⟨node.view.seps.dropLast, node.view.kids.dropLast, node.view.link⟩,
          some ⟨right.view.seps, node.view.kids.getLastD nullptr :: right.view.kids.tail,
            right.view.link⟩,
          .renamed (node.view.seps.dropLast.getLastD (encodeReconvert mid))⟩ removed := by
  obtain ⟨rebuilt, result, rebuiltWellFormed, separators, control, knum, next, children⟩ :=
    boundExtension_stores formed { node with knum := node.knum - 1 }
      (by simp only; omega) rfl rfl rfl (Nat.sub_le _ _)
  have count : node.knum - 1 = index := by omega
  rw [handOver, result]
  refine ⟨_, rfl, rebuiltWellFormed, congrArg Control.deleted control, ?_, ?_, ⟨rfl, rfl, ?_⟩,
    fun absurdity => (by cases absurdity)⟩
  · simp only
    rw [view_eq rebuilt (node.knum - 1) _ node.children knum
      (fun column inside => congrArg encodeReconvert (separators column inside))
      (fun column _ => by rw [children]), control, next, count, dropLast_view_seps last,
      view_kids_of_sibling sibling, ← last, tabulate_succ, dropLast_concat]
    simp only [view, sibling, kidsOf, if_true]
  · intro view same
    cases same
    refine ⟨rightWellFormed.congr rfl rfl rfl rfl, ?_, rfl⟩
    rw [view_kids_of_sibling sibling, getLastD_tabulate (by omega), count]
    exact congrArg (NodeView.mk _ · _) (kidsOf_update_first _ _ _ rightPositive)
  · rw [dropLast_view_seps last, getLastD_tabulate positive]

end Merge

/-! ## `bound_remove` and `remove` -/

theorem memoryShrink_of_empty (none : node.knum = 0) : node.memoryShrink = .error .noSeparator :=
  if_pos none

theorem WellFormed.of_empty (none : node.knum = 0) (noPrefix : node.plen = 0) :
    node.WellFormed where
  knum_le := by omega
  increasing _ _ _ inside := by omega
  stores := {
    plen_le := by omega
    separator_eq := fun _ _ => rfl
    maximal := fun positive => by omega
    empty := fun _ => noPrefix }

theorem removeLast_spec (formed : node.WellFormed) (alone : node.control.sibling = false)
    (last : index + 1 = node.knum) :
    ∃ removed, node.removeLast index = .ok removed ∧ removed.WellFormed ∧
      removed.control.deleted = node.control.deleted ∧
      removed.view = ⟨node.view.seps.dropLast, node.view.kids.dropLast, none⟩ := by
  have count : node.knum - 1 = index := by omega
  have views : ∀ removed : InnerNode size type, removed.knum = index →
      (∀ column < index, removed.separator column = node.separator column) →
      removed.control = node.control → removed.next = node.children index →
      removed.children = node.children →
      removed.view = ⟨node.view.seps.dropLast, node.view.kids.dropLast, none⟩ := by
    intro removed knum separators control next children
    rw [view_eq removed index _ node.children knum
      (fun column inside => congrArg encodeReconvert (separators column inside))
      (fun column _ => by rw [children]), control, next, alone, dropLast_view_seps last]
    simp only [view, alone, dropLast_kidsOf _ _ last]
    rfl
  rw [removeLast]
  simp only
  split
  · rename_i none
    refine ⟨_, rfl, WellFormed.of_empty none rfl, rfl, ?_⟩
    exact views _ count (fun column inside => by omega) rfl rfl rfl
  · rename_i some
    obtain ⟨rebuilt, result, rebuiltWellFormed, separators, control, knum, next, children⟩ :=
      boundExtension_stores formed
        { node with next := node.children index, knum := node.knum - 1 } (by simp only; omega)
        rfl rfl rfl (Nat.sub_le _ _)
    refine ⟨rebuilt, result, rebuiltWellFormed, congrArg Control.deleted control, ?_⟩
    exact views rebuilt (knum.trans count)
      (fun column inside => separators column (show column < node.knum - 1 by omega))
      control next children

def rightView (node right : InnerNode size type) : Option (NodeView (Key type)) :=
  if node.control.sibling then some right.view else none

structure Neighbours (node right : InnerNode size type) : Prop where
  wellFormed : right.WellFormed
  before : Before node right
  nonempty : right.control.sibling = true → 0 < right.knum

structure Adjacent (node right : InnerNode size type) (index : Nat) : Prop where
  wellFormed : right.WellFormed
  before : Before node right
  nonempty : index + 1 = node.knum → right.control.sibling = true → 0 < right.knum

theorem Neighbours.adjacent (neighbours : Neighbours node right) (index : Nat) :
    Adjacent node right index :=
  ⟨neighbours.wellFormed, neighbours.before, fun _ => neighbours.nonempty⟩

section Remove

variable (formed : node.WellFormed)
  (adjacent : node.control.sibling = true → Adjacent node right index)
include formed adjacent

theorem boundRemove_spec (last : index + 1 = node.knum) :
    Follows .noSeparator (fun removed removal => Matches node right removal removed)
      (node.boundRemove right this mid index)
      (node.view.boundRemove size (encodeReconvert mid) index (rightView node right)) := by
  rw [boundRemove, rightView]
  by_cases sibling : node.control.sibling = true
  · obtain ⟨rightWellFormed, before, nonempty⟩ := adjacent sibling
    rw [if_pos sibling, if_pos sibling, NodeView.boundRemove]
    simp only [length_view_seps, knum_updateVersion]
    have stamped : right.updateVersion.WellFormed := rightWellFormed.congr rfl rfl rfl rfl
    by_cases small : index + right.knum ≤ size.half ∨ index = 0 ∨ right.knum = 0 ∨ right.knum = 1
    · rw [if_pos small, if_pos small]
      by_cases empty : index = 0 ∧ right.knum = 0
      · have none : node.knum + right.updateVersion.knum - 1 = 0 := by
          rw [knum_updateVersion]
          omega
        rw [if_pos empty, boundMerge, none, memoryShrink_of_empty rfl]
        rfl
      · rw [if_neg empty]
        obtain ⟨removed, result, spec⟩ := boundMerge_spec formed sibling stamped before this mid
          last small empty (nonempty last)
        exact ⟨removed, result, { spec with }⟩
    · rw [if_neg small, if_neg small]
      obtain ⟨removed, result, spec⟩ := handOver_spec formed sibling stamped mid last
        (by omega) (by simp; omega)
      exact ⟨removed, result, { spec with }⟩
  · have alone := eq_false_of_ne_true sibling
    obtain ⟨removed, result, removedWellFormed, deleted, removedView⟩ :=
      removeLast_spec formed alone last
    rw [if_neg sibling, if_neg sibling, NodeView.boundRemove, result]
    refine ⟨_, rfl, removedWellFormed, deleted, removedView, fun _ none => (by cases none),
      ⟨rfl, rfl⟩, fun absurdity => (by cases absurdity)⟩

theorem removeAt_spec (this : Ptr) (mid : Encoded type) (inside : index < node.knum) :
    Follows .noSeparator (fun removed removal => Matches node right removal removed)
      (node.removeAt right this mid index)
      (node.view.remove size (rightView node right) (encodeReconvert mid) index) := by
  rw [removeAt, NodeView.remove, length_view_seps, if_neg (Nat.not_le_of_lt inside)]
  by_cases inner : index < node.knum - 1
  · obtain ⟨removed, result, removedWellFormed, control, knum, next, separators, removedView⟩ :=
      removeInner_spec formed inner
    rw [if_pos inner, if_pos (by omega), result, ← removedView]
    by_cases sibling : node.control.sibling = true
    · obtain ⟨rightWellFormed, before, nonempty⟩ := adjacent sibling
      have removedBefore : Before removed right := by
        intro column columnInside other otherInside
        rw [knum] at columnInside
        rw [separators column columnInside]
        unfold erased
        split
        · exact before column (by omega) other otherInside
        · exact before (column + 1) (by omega) other otherInside
      obtain ⟨merged, mergeResult, spec⟩ := merge_spec removedWellFormed
        ((congrArg Control.sibling control).trans sibling) rightWellFormed removedBefore this mid
        (by omega)
      rw [rightView, if_pos sibling]
      exact ⟨merged, mergeResult, { spec with
        deleted_eq := spec.deleted_eq.trans (congrArg Control.deleted control) }⟩
    · rw [rightView, if_neg sibling]
      refine ⟨⟨removed, right, false, false, mid⟩, ?_, removedWellFormed,
        congrArg Control.deleted control, rfl, fun _ none => (by cases none), ⟨rfl, rfl⟩,
        fun absurdity => (by cases absurdity)⟩
      exact if_neg (control ▸ sibling)
  · rw [if_neg inner, if_neg (by omega)]
    exact boundRemove_spec formed adjacent (by omega)

/-- Removal from a node is removal from its view; it fails when the two nodes
together would lose their last separator. -/
theorem remove_spec (this : Ptr) (mid : Encoded type) (inside : index < node.knum) :
    Follows .noSeparator (fun removed removal => Matches node right removal removed)
      (node.remove right this mid index)
      (node.view.remove size (rightView node right) (encodeReconvert mid) index) := by
  have stamped := removeAt_spec (formed.congr rfl rfl rfl rfl : node.updateVersion.WellFormed)
    (fun sibling =>
      have ⟨rightWellFormed, before, nonempty⟩ := adjacent sibling
      ⟨rightWellFormed, before, nonempty⟩) this mid (knum_updateVersion node ▸ inside)
  have same : node.updateVersion.view.remove size (rightView node.updateVersion right)
      (encodeReconvert mid) index =
      node.view.remove size (rightView node right) (encodeReconvert mid) index := rfl
  rw [same] at stamped
  revert stamped
  cases node.view.remove size (rightView node right) (encodeReconvert mid) index with
  | none => exact id
  | some removal =>
    rintro ⟨removed, result, spec⟩
    exact ⟨removed, result, { spec with }⟩

end Remove

/-! ## `anchor_update` -/

theorem anchorUpdate_spec (formed : node.WellFormed) (inside : index < node.knum)
    (increasing : Increasing (update node.separator index mid) node.knum) :
    ∃ updated up, node.anchorUpdate mid index = .ok (updated, up) ∧ updated.WellFormed ∧
      updated.control.deleted = node.control.deleted ∧
      (updated.view, up) = node.view.anchorUpdate (encodeReconvert mid) index := by
  have limit := formed.knum_le
  generalize baseEq : ({ node.updateVersion.memoryExpand with
    features := mapRows type.size (fun rid row => update row index (byteAt mid rid))
      node.updateVersion.memoryExpand.features } : InnerNode size type) = base
  have knum : base.knum = node.knum := by rw [← baseEq]; rfl
  have columns : ∀ column < base.knum,
      base.expanded column = update node.separator index mid column := by
    intro column columnInside
    apply eq_of_byteAt_eq
    intro rid within
    rw [byteAt_expanded _ _ within, ← baseEq]
    simp only [mapRows]
    rw [if_pos within]
    by_cases same : column = index
    · subst same
      rw [update_self, update_self]
    · rw [update_of_ne same, update_of_ne same]
      exact features_memoryExpand formed.stores.plen_le within (by omega)
  obtain ⟨rebuilt, result, spec⟩ := memoryShrink_rebuilt base _ (by omega) (by omega) columns
    (knum.symm ▸ increasing)
  refine ⟨rebuilt, rebuilt.control.sibling && rebuilt.knum - 1 == index, ?_, spec.wellFormed, ?_,
    ?_⟩
  · rw [anchorUpdate, if_neg (by omega)]
    simp only [baseEq, result]
    rfl
  · rw [spec.control_eq, ← baseEq]
    rfl
  · have sibling : rebuilt.control.sibling = node.control.sibling := by
      rw [spec.control_eq, ← baseEq]
      rfl
    have children : rebuilt.children = node.children := by
      rw [spec.children_eq, ← baseEq]
      rfl
    have next : rebuilt.next = node.next := by
      rw [spec.next_eq, ← baseEq]
      rfl
    rw [view_eq rebuilt node.knum (update (fun column =>
      encodeReconvert (node.separator column)) index (encodeReconvert mid)) node.children
      (spec.knum_eq.trans knum) ?_ (fun pos _ => by rw [children]), tabulate_update, sibling,
      next, spec.knum_eq, knum, NodeView.anchorUpdate, length_view_seps]
    · simp only [view, linkOf]
      cases node.control.sibling with
      | true => rfl
      | false => rfl
    · intro column columnInside
      rw [spec.separator_eq column (by omega)]
      by_cases same : column = index
      · subst same
        rw [update_self, update_self]
      · rw [update_of_ne same, update_of_ne same]

/-! ## Removal from the lists of separators and children -/

def pair (node right : InnerNode size type) : List (InnerNode size type) :=
  node :: if node.control.sibling then [right] else []

def remaining (node : InnerNode size type)
    (removed : Removed (InnerNode size type) (Encoded type)) : List (InnerNode size type) :=
  removed.node :: if node.control.sibling && !removed.merged then [removed.right] else []

theorem pairSeps_view (node right : InnerNode size type) (alone : Bool) :
    node.view.pairSeps (if alone then some right.view else none) =
      ((node :: if alone then [right] else []).flatMap separators).map encodeReconvert := by
  cases alone with
  | true | false => simp [NodeView.pairSeps, view_seps_eq]

theorem pairKids_view (node right : InnerNode size type) (alone : Bool) :
    node.view.pairKids (if alone then some right.view else none) =
      (node :: if alone then [right] else []).flatMap kids := by
  cases alone with
  | true | false => simp [NodeView.pairKids, kids]

theorem isSome_rightView (node right : InnerNode size type) :
    (rightView node right).isSome = node.control.sibling := by
  rw [rightView]
  cases node.control.sibling with
  | true => rfl
  | false => rfl

theorem Matches.remaining_right {removal : NodeView.Removal (Key type)}
    {removed : Removed (InnerNode size type) (Encoded type)}
    (spec : Matches node right removal removed) (stays : removal.right.isSome =
      ((rightView node right).isSome && removal.ascent.keepsRight)) :
    removal.right =
      if node.control.sibling && !removed.merged then some removed.right.view else none := by
  have outcome : removal.ascent.keepsRight = !removed.merged := by
    have ascent := spec.ascent
    revert ascent
    cases removal.ascent with
    | done | merged above | renamed above => exact fun ascent => by rw [ascent.1]; rfl
  rw [isSome_rightView, outcome] at stays
  rw [← stays]
  cases rightEq : removal.right with
  | none => rfl
  | some view => exact congrArg some (spec.right_eq view rightEq).2.1.symm

theorem getLast?_of_view (last : node.view.seps.getLast? = some (encodeReconvert mid)) :
    node.separators.getLast? = some mid := by
  rw [view_seps_eq, getLast?_map, ← Option.map_some] at last
  exact Option.map_injective encodeReconvert_injective last

theorem adjacent_of_lists (sizes : ∀ node' ∈ node.pair right, node'.knum ≤ size.slots ∧
      node'.plen = commonPrefix node'.separators)
    (increasing : Ascending memoryChars ((node.pair right).flatMap separators))
    (child : index + 1 < ((node.pair right).flatMap kids).length) :
    node.WellFormed ∧ (node.control.sibling = true → Adjacent node right index) := by
  rw [pair, flatMap_cons, ascending_append] at increasing
  have nodeSizes := sizes node mem_cons_self
  refine ⟨wellFormed_iff.mpr ⟨nodeSizes.1, increasing.1, nodeSizes.2⟩, ?_⟩
  intro sibling
  rw [if_pos sibling, flatMap_singleton] at increasing
  rw [pair, if_pos sibling, flatMap_cons, flatMap_singleton, length_append,
    length_kids, if_pos sibling, length_kids] at child
  have rightSizes := sizes right (by rw [pair, if_pos sibling]; simp)
  refine ⟨wellFormed_iff.mpr ⟨rightSizes.1, increasing.2.1, rightSizes.2⟩, ?_, ?_⟩
  · intro column columnInside other otherInside
    rw [← memoryChars_lt_iff]
    exact increasing.2.2 _ (mem_tabulate.mpr ⟨column, columnInside, rfl⟩) _
      (mem_tabulate.mpr ⟨other, otherInside, rfl⟩)
  · intro last rightSibling
    rw [if_pos rightSibling] at child
    omega

/-- A removal deletes the separator and the child right of it from the lists that the two
nodes hold. -/
theorem remove_refines (node right : InnerNode size type) (this : Ptr) (index : Nat)
    (sizes : ∀ node' ∈ node.pair right, node'.knum ≤ size.slots ∧
      node'.plen = commonPrefix node'.separators)
    (increasing : Ascending memoryChars ((node.pair right).flatMap separators))
    (inside : index < node.knum) (child : index + 1 < ((node.pair right).flatMap kids).length)
    (keeps : 1 < ((node.pair right).flatMap separators).length) :
    ∃ removed, node.remove right this (node.separator index) index = .ok removed ∧
      0 < removed.node.knum ∧
      (remaining node removed).flatMap separators =
        ((node.pair right).flatMap separators).eraseIdx index ∧
      (remaining node removed).flatMap kids =
      ((node.pair right).flatMap kids).eraseIdx (index + 1) ∧
      (∀ node' ∈ remaining node removed, node'.knum ≤ size.slots ∧
        Ascending memoryChars node'.separators ∧ node'.plen = commonPrefix node'.separators) ∧
      (removed.merged = true → node.control.sibling = true ∧
        removed.right.control.deleted = true ∧ node.separators.getLast? = some removed.mid) ∧
      (removed.merged = false → node.control.sibling = true →
        removed.right.control.deleted = right.control.deleted) ∧
      (removed.up = true ↔ node.control.sibling = true ∧ removed.merged = false ∧
        removed.node.separators.getLast? ≠ node.separators.getLast?) ∧
      (removed.up = true → removed.node.separators.getLast? = some removed.mid) := by
  obtain ⟨formed, adjacent⟩ := adjacent_of_lists sizes increasing child
  have removedSep : node.view.seps[index]? = some (encodeReconvert (node.separator index)) :=
    getElem?_tabulate _ inside
  have lengths : node.view.kids.length = if (rightView node right).isSome then
      node.view.seps.length else node.view.seps.length + 1 := by
    rw [length_view_seps, isSome_rightView]
    exact length_kids node
  obtain ⟨removal, found, kept⟩ := @NodeView.exists_remove _ size node.view (rightView node right)
    (encodeReconvert (node.separator index)) index ((length_view_seps node).symm ▸ inside)
    (by rwa [rightView, pairSeps_view, length_map])
  have spec := remove_spec formed adjacent this (node.separator index) inside
  rw [found] at spec
  obtain ⟨removed, result, spec⟩ := spec
  have ascent := spec.ascent
  obtain ⟨stays, ascends⟩ := NodeView.remove_ascent found removedSep
  obtain ⟨sepsEq, kidsEq⟩ := NodeView.remove_lists found
    ((length_view_seps node).symm ▸ inside) lengths
  have rightEq := spec.remaining_right stays
  rw [← spec.view_eq, rightEq] at sepsEq kidsEq
  rw [rightView, pairSeps_view, pairSeps_view, eraseIdx_map] at sepsEq
  rw [rightView, pairKids_view, pairKids_view] at kidsEq
  rw [← spec.view_eq, length_view_seps] at kept
  refine ⟨removed, result, kept, map_injective_iff.mpr encodeReconvert_injective sepsEq,
    kidsEq, ?_, ?_, ?_, ?_⟩
  · intro node' listed
    rw [remaining] at listed
    rcases mem_cons.mp listed with rfl | listed
    · exact wellFormed_iff.mp spec.wellFormed
    · split at listed
      · rename_i stayed
        obtain rfl := mem_singleton.mp listed
        rw [if_pos stayed] at rightEq
        exact wellFormed_iff.mp (spec.right_eq _ rightEq).1
      · exact absurd listed not_mem_nil
  · intro merged
    cases outcome : removal.ascent with
    | done => simp [outcome, Ascent.Describes, merged] at ascent
    | merged above =>
      rw [outcome] at ascent ascends
      refine ⟨isSome_rightView node right ▸ ascends.1, spec.absorbed merged, ?_⟩
      apply getLast?_of_view
      rw [ascends.2, ← ascent.2.2]
    | renamed above => simp [outcome, Ascent.Describes, merged] at ascent
  · intro stayed sibling
    rw [stayed, sibling] at rightEq
    exact (spec.right_eq _ rightEq).2.2
  · rw [← spec.view_eq, isSome_rightView] at ascends
    cases outcome : removal.ascent with
    | done =>
      rw [outcome] at ascent ascends
      have same (sibling : node.control.sibling = true) :
          removed.node.separators.getLast? = node.separators.getLast? := by
        have views := ascends sibling
        rw [view_seps_eq, view_seps_eq, getLast?_map, getLast?_map] at views
        exact Option.map_injective encodeReconvert_injective views
      refine ⟨⟨fun up => absurd (ascent.2.symm.trans up) nofun, ?_⟩,
        fun up => absurd (ascent.2.symm.trans up) nofun⟩
      rintro ⟨sibling, _, changed⟩
      exact absurd (same sibling) changed
    | merged above =>
      rw [outcome] at ascent
      simp [ascent.1, ascent.2.1]
    | renamed above =>
      rw [outcome] at ascent ascends
      obtain ⟨sibling, last, shorter, newLast⟩ := ascends
      have separatorsEq : removed.node.separators = node.separators.dropLast :=
        separators_eq_of_view (by rw [shorter, view_seps_eq, map_dropLast])
      have nonempty : node.separators ≠ [] := by
        intro empty
        rw [view_seps_eq, empty] at last
        cases last
      refine ⟨⟨fun _ => ⟨sibling, ascent.1, ?_⟩, fun _ => ascent.2.1⟩, fun _ => ?_⟩
      · rw [separatorsEq]
        exact (wellFormed_iff.mp formed).2.1.getLast?_dropLast_ne nonempty
      · exact getLast?_of_view (newLast.trans (congrArg some ascent.2.2.symm))

def rightmost : InnerNode .size64 .uint64 where
  control := .new false
  knum := 2
  plen := 7
  prefixBytes := fun _ => 0
  next := 5
  features := fun _ column => BitVec.ofNat 8 column
  children := fun column => column + 3

def leftward : InnerNode .size64 .uint64 :=
  { rightmost with control := (Control.new false).setSibling }

def rightward : InnerNode .size64 .uint64 :=
  { rightmost with
    next := 7
    features := fun _ column => BitVec.ofNat 8 (column + 2)
    children := fun column => column + 5 }

/-- The last separator of the left node goes with the first child of its sibling, and the two
become one. -/
theorem remove_refines_merging :
    ∃ removed, leftward.remove rightward 0 (leftward.separator 1) 1 = .ok removed ∧
      removed.merged = true ∧ (remaining leftward removed).flatMap kids = [3, 4, 6, 7] ∧
      removed.right.control.deleted = true := by
  have merges : (leftward.remove rightward 0 (leftward.separator 1) 1).toOption.map
      Removed.merged = some true := by decide +kernel
  obtain ⟨removed, result, _, _, kidsEq, _, merged, _⟩ := remove_refines leftward rightward 0 1
    (by decide +kernel) (by unfold Ascending; decide +kernel) (by decide) (by decide +kernel)
    (by decide +kernel)
  rw [result] at merges
  have absorbed : removed.merged = true := by simpa [Except.toOption] using merges
  exact ⟨removed, result, absorbed, kidsEq, (merged absorbed).2.1⟩

theorem not_up_rightmost :
    (∀ node' ∈ rightmost.pair rightmost, node'.knum ≤ NodeSize.size64.slots ∧
      node'.plen = commonPrefix node'.separators) ∧
    Ascending memoryChars ((rightmost.pair rightmost).flatMap separators) ∧
    ∃ removed, rightmost.remove rightmost 0 (rightmost.separator 1) 1 = .ok removed ∧
      0 < removed.node.knum ∧
      ¬(removed.up = true ↔ removed.merged = false ∧
        removed.node.separators.getLast? ≠ rightmost.separators.getLast?) := by
  refine ⟨by decide +kernel, by unfold Ascending; decide +kernel, ?_⟩
  have run : (rightmost.remove rightmost 0 (rightmost.separator 1) 1).toOption.map (fun removed =>
      (removed.node.knum, removed.up, removed.merged, removed.node.separators)) =
      some (1, false, false, [rightmost.separator 0]) := by
    decide +kernel
  have changed : [rightmost.separator 0].getLast? ≠
    rightmost.separators.getLast? := by decide +kernel
  cases result : rightmost.remove rightmost 0 (rightmost.separator 1) 1 with
  | error fault =>
    rw [result] at run
    cases run
  | ok removed =>
    rw [result] at run
    simp only [Except.toOption, Option.map_some, Option.some.injEq, Prod.mk.injEq] at run
    obtain ⟨knum, up, merged, separators⟩ := run
    refine ⟨removed, rfl, by omega, ?_⟩
    rw [up, merged, separators]
    exact fun sets => absurd (sets.mpr ⟨rfl, changed⟩) nofun

end IndexResearch.FBTree.InnerNode
