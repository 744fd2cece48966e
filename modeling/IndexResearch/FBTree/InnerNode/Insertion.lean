import IndexResearch.FBTree.InnerNode.Search

/-!
# Inserting into an inner node

Insertion and the three kinds of splits, on the column layout, are insertion into
the list of separators and, when the node is full, cutting that list in two.
-/

namespace IndexResearch.FBTree.InnerNode

open List Function

variable {size : NodeSize} {type : KeyType} {node : InnerNode size type}
  {sep : Nat → Encoded type} {count index : Nat} {mid : Encoded type}

/-- `mid` belongs strictly between its neighbours at `index`. -/
structure Fits (sep : Nat → Encoded type) (count : Nat) (mid : Encoded type) (index : Nat) :
    Prop where
  bounded : index ≤ count
  below : ∀ column < index, lexRank (sep column) < lexRank mid
  above : ∀ column, index ≤ column → column < count → lexRank mid < lexRank (sep column)

def inserted {Value : Type} (array : Nat → Value) (value : Value) (index : Nat) : Nat → Value :=
  fun pos =>
    if pos < index then array pos
    else if pos = index then value
    else array (pos - 1)

section Inserted

variable {Value : Type} {array : Nat → Value} {value : Value} {pos : Nat}

theorem inserted_of_lt (before : pos < index) :
    inserted array value index pos = array pos := if_pos before

@[simp] theorem inserted_self : inserted array value index index = value := by
  rw [inserted, if_neg (Nat.lt_irrefl index), if_pos rfl]

theorem inserted_of_gt (after : index < pos) :
    inserted array value index pos = array (pos - 1) := by
  rw [inserted, if_neg (by omega), if_neg (by omega)]

theorem update_copy_eq_inserted (array : Nat → Value) (value : Value) (inside : pos ≤ count) :
    update (copy array array (index + 1) index (count - index)) index value pos =
      inserted array value index pos := by
  rcases Nat.lt_trichotomy pos index with before | rfl | after
  · rw [update_of_ne (Nat.ne_of_lt before), copy_of_not_mem (by omega),
      inserted_of_lt before]
  · rw [update_self, inserted_self]
  · rw [update_of_ne (Nat.ne_of_gt after), copy_of_mem (by omega), inserted_of_gt after]
    congr 1
    omega

theorem tabulate_inserted (array : Nat → Value) (value : Value) (bounded : index ≤ count) :
    tabulate (count + 1) (inserted array value index) =
      (tabulate count array).take index ++ value :: (tabulate count array).drop index := by
  apply tabulate_insert bounded
  · exact fun pos before => inserted_of_lt before
  · exact inserted_self
  · intro pos above _
    rw [inserted_of_gt (by omega), Nat.add_sub_cancel]

end Inserted

theorem Increasing.inserted (increasing : Increasing sep count) (fits : Fits sep count mid index) :
    Increasing (inserted sep mid index) (count + 1) := by
  intro first second before inside
  rcases Nat.lt_trichotomy first index with firstLow | rfl | firstHigh
  · rw [inserted_of_lt firstLow]
    rcases Nat.lt_trichotomy second index with secondLow | rfl | secondHigh
    · rw [inserted_of_lt secondLow]
      exact increasing first second before (Nat.lt_of_lt_of_le secondLow fits.bounded)
    · rw [inserted_self]
      exact fits.below first firstLow
    · rw [inserted_of_gt secondHigh]
      exact increasing first (second - 1) (by omega) (by omega)
  · rw [inserted_self, inserted_of_gt before]
    exact fits.above (second - 1) (by omega) (by omega)
  · rw [inserted_of_gt firstHigh, inserted_of_gt (Nat.lt_trans firstHigh before)]
    exact increasing (first - 1) (second - 1) (by omega) (by omega)

theorem Fits.agree {length : Nat} (fits : Fits sep count mid index)
    (ends : Agree length (sep 0) (sep (count - 1))) (notFirst : index ≠ 0)
    (notLast : index ≠ count) : Agree length (sep 0) mid := by
  have bounded := fits.bounded
  apply ends.of_between
  · exact Nat.le_of_lt (fits.below 0 (by omega))
  · exact Nat.le_of_lt (fits.above (count - 1) (by omega) (by omega))

theorem Stores.border_maximal {length : Nat} (stores : Stores node sep count)
    (increasing : Increasing sep count) (fits : Fits sep count mid index) (positive : 0 < count)
    (border : index = 0 ∨ index = count) (longer : node.plen < length)
    (bounded : length ≤ type.size) :
    ¬Agree length (inserted sep mid index 0) (inserted sep mid index count) := by
  intro agree
  apply stores.prefix_maximal positive longer bounded
  rcases border with rfl | rfl
  · rw [inserted_self, inserted_of_gt positive] at agree
    have first := agree.of_between (Nat.le_of_lt (fits.above 0 (Nat.le_refl 0) positive))
      (increasing.le (Nat.zero_le (count - 1)) (by omega))
    exact first.symm.trans agree
  · rw [inserted_of_lt positive, inserted_self] at agree
    exact agree.of_between (increasing.le (Nat.zero_le (index - 1)) (by omega))
      (Nat.le_of_lt (fits.below (index - 1) (by omega)))

/-! ## `key_insert` -/

section KeyInsert

variable (stores : Stores node sep node.knum) (increasing : Increasing sep node.knum)
  (fits : Fits sep node.knum mid index)

include stores in

theorem Stores.byteAt_inserted {column rid : Nat} (inside : column < node.knum + 1)
    (bounded : index ≤ node.knum) (different : column ≠ index) (below : rid < node.plen) :
    byteAt (inserted sep mid index column) rid = node.prefixBytes rid := by
  rcases Nat.lt_or_gt_of_ne different with before | after
  · rw [inserted_of_lt before]
    exact (stores.prefixBytes_eq (by omega) below).symm
  · rw [inserted_of_gt after]
    exact (stores.prefixBytes_eq (by omega) below).symm

include stores in

theorem Stores.shifted_row {column rid : Nat} (bounded : index ≤ node.knum)
    (within : rid + node.plen < type.size) (inside : column < node.knum + 1) :
    (mapRows (type.size - node.plen)
      (fun rid row => update (copy row row (index + 1) index (node.knum - index)) index
        (byteAt mid (rid + node.plen))) node.features) rid column =
      byteAt (inserted sep mid index column) (rid + node.plen) := by
  rw [mapRows, if_pos (by omega), update_copy_eq_inserted _ _ (Nat.le_of_lt_succ inside)]
  unfold inserted
  split
  · exact stores.features_eq (by omega) within
  · split
    · rfl
    · exact stores.features_eq (by omega) within

include fits in

theorem keyInsert_stores_new (none : node.knum = 0) :
    Stores (node.keyInsert mid index) (inserted sep mid index) (node.knum + 1) := by
  have bounded := fits.bounded
  rw [keyInsert, if_pos none]
  refine ⟨Nat.le_refl _, ?_, fun _ short => absurd short (Nat.lt_irrefl _), fun zero => by omega⟩
  intro column inside
  obtain rfl : column = index := by omega
  apply eq_of_byteAt_eq
  intro rid within
  rw [byteAt_separator _ _ within, inserted_self]
  simp only [storePrefix]
  rw [if_pos within, copy_of_mem (by omega)]
  rfl

include stores fits in

theorem keyInsert_stores_reduced {pid : Nat} (some : node.knum ≠ 0)
    (found : scan (fun pid => node.prefixBytes pid == byteAt mid pid) node.plen = pid)
    (border : index = 0 ∨ index = node.knum) (shorter : pid < node.plen) :
    Stores (node.keyInsert mid index) (inserted sep mid index) (node.knum + 1) := by
  have bounded := fits.bounded
  have plenBound := stores.plen_le
  have passes : ∀ rid < pid, node.prefixBytes rid = byteAt mid rid :=
    fun rid below => eq_of_beq (scan_passes (found.symm ▸ below))
  have differs : node.prefixBytes pid ≠ byteAt mid pid := by
    intro same
    have failed := scan_fails (found.symm ▸ shorter)
    rw [found] at failed
    simp [same] at failed
  rw [keyInsert, if_neg some]
  simp only [found]
  rw [if_pos ⟨border, shorter⟩]
  refine ⟨by simp only; omega, ?_, ?_, fun zero => by omega⟩
  · intro column inside
    apply eq_of_byteAt_eq
    intro rid within
    rw [byteAt_separator _ _ within]
    simp only
    by_cases kept : rid < pid
    · rw [if_pos kept]
      by_cases same : column = index
      · rw [same, inserted_self, passes rid kept]
      · rw [stores.byteAt_inserted inside bounded same (by omega)]
    · rw [if_neg kept]
      by_cases opened : rid < node.plen
      · rw [mapRows, if_pos (by omega)]
        by_cases same : column = index
        · rw [same, update_self, inserted_self, Nat.sub_add_cancel (by omega)]
        · rw [update_of_ne same, fill, if_pos (by omega),
            stores.byteAt_inserted inside bounded same opened, Nat.add_sub_cancel' (by omega)]
      · rw [mapRows, if_neg (by omega), copy_of_mem (by omega),
          show rid - pid - (node.plen - pid) + 0 = rid - node.plen by omega,
          stores.shifted_row bounded (by omega) inside, Nat.sub_add_cancel (by omega)]
  · intro _ short
    simp only [Nat.add_sub_cancel] at short ⊢
    rcases border with rfl | rfl
    · rw [inserted_self, stores.byteAt_inserted (by omega) bounded (by omega) shorter]
      exact differs.symm
    · rw [inserted_self, stores.byteAt_inserted (by omega) bounded (by omega) shorter]
      exact differs

include stores fits increasing in

theorem keyInsert_stores_kept (some : node.knum ≠ 0) (kept : ¬((index = 0 ∨ index = node.knum) ∧
      scan (fun pid => node.prefixBytes pid == byteAt mid pid) node.plen < node.plen))
    (agrees : ∀ rid < node.plen, byteAt mid rid = node.prefixBytes rid) :
    Stores (node.keyInsert mid index) (inserted sep mid index) (node.knum + 1) := by
  have bounded := fits.bounded
  have plenBound := stores.plen_le
  have prefixByte : ∀ column < node.knum + 1, ∀ rid < node.plen,
      byteAt (inserted sep mid index column) rid = node.prefixBytes rid := by
    intro column inside rid below
    by_cases same : column = index
    · rw [same, inserted_self, agrees rid below]
    · exact stores.byteAt_inserted inside bounded same below
  rw [keyInsert, if_neg some]
  simp only
  rw [if_neg kept]
  refine ⟨plenBound, ?_, ?_, fun zero => by omega⟩
  · intro column inside
    apply eq_of_byteAt_eq
    intro rid within
    rw [byteAt_separator _ _ within]
    simp only
    by_cases inPrefix : rid < node.plen
    · rw [if_pos inPrefix, prefixByte column inside rid inPrefix]
    · rw [if_neg inPrefix, stores.shifted_row bounded (by omega) inside,
        Nat.sub_add_cancel (by omega)]
  · intro _ short
    simp only [Nat.add_sub_cancel] at short ⊢
    by_cases border : index = 0 ∨ index = node.knum
    · intro same
      apply stores.border_maximal increasing fits (by omega) border (Nat.lt_succ_self _) short
      apply Agree.succ _ same
      intro rid below
      rw [prefixByte 0 (by omega) rid below, prefixByte node.knum (by omega) rid below]
    · rw [inserted_of_lt (by omega), inserted_of_gt (by omega)]
      exact stores.maximal (by omega) short

include stores fits increasing in

theorem keyInsert_stores :
    Stores (node.keyInsert mid index) (inserted sep mid index) (node.knum + 1) := by
  by_cases none : node.knum = 0
  · exact keyInsert_stores_new fits none
  by_cases reduced : (index = 0 ∨ index = node.knum) ∧
      scan (fun pid => node.prefixBytes pid == byteAt mid pid) node.plen < node.plen
  · exact keyInsert_stores_reduced stores fits none rfl reduced.1 reduced.2
  · apply keyInsert_stores_kept stores increasing fits none reduced
    intro rid below
    by_cases border : index = 0 ∨ index = node.knum
    · have passed : rid < scan (fun pid => node.prefixBytes pid == byteAt mid pid) node.plen :=
        Nat.lt_of_lt_of_le below (not_lt.mp fun shorter => reduced ⟨border, shorter⟩)
      have same := scan_passes passed
      exact (eq_of_beq same).symm
    · have positive : 0 < node.knum := by omega
      have agree := fits.agree (stores.agree positive (by omega : node.knum - 1 < node.knum))
        (fun first => border (Or.inl first)) (fun last => border (Or.inr last)) rid below
      rw [← agree, stores.prefixBytes_eq positive below]

end KeyInsert

/-! ## Views of rebuilt nodes -/

theorem view_eq (node : InnerNode size type) (count : Nat) (seps : Nat → Key type)
    (children : Nat → Ptr) (sameCount : node.knum = count)
    (sameSeps : ∀ column < count, encodeReconvert (node.separator column) = seps column)
    (sameChildren : ∀ column < count, node.children column = children column) :
    node.view = ⟨tabulate count seps,
      kidsOf node.control.sibling (tabulate count children) node.next,
      linkOf node.control.sibling node.next⟩ := by
  subst sameCount
  rw [view, tabulate_congr sameSeps, tabulate_congr sameChildren]

/-- What `memory_shrink` makes of uncompressed columns. -/
structure Rebuilt (node : InnerNode size type) (sep : Nat → Encoded type)
    (rebuilt : InnerNode size type) : Prop where
  wellFormed : rebuilt.WellFormed
  separator_eq : ∀ column < node.knum, rebuilt.separator column = sep column
  control_eq : rebuilt.control = node.control
  knum_eq : rebuilt.knum = node.knum
  next_eq : rebuilt.next = node.next
  children_eq : rebuilt.children = node.children

theorem memoryShrink_rebuilt (node : InnerNode size type) (sep : Nat → Encoded type)
    (positive : 0 < node.knum) (bounded : node.knum ≤ size.slots)
    (columns : ∀ column < node.knum, node.expanded column = sep column)
    (increasing : Increasing sep node.knum) :
    ∃ rebuilt, node.memoryShrink = .ok rebuilt ∧ Rebuilt node sep rebuilt := by
  obtain ⟨rebuilt, result, stores, control, knum, next, children⟩ :=
    memoryShrink_spec positive (increasing.congr columns)
  have separators : ∀ column < node.knum, rebuilt.separator column = sep column :=
    fun column inside => (stores.separator_eq column inside).trans (columns column inside)
  refine ⟨rebuilt, result, ?_, separators, control, knum, next, children⟩
  rw [← knum] at separators bounded increasing stores
  exact ⟨bounded, increasing.congr separators, stores.congr_sep fun column inside =>
    stores.separator_eq column inside⟩

theorem Rebuilt.view_eq {rebuilt : InnerNode size type} (spec : Rebuilt node sep rebuilt) :
    rebuilt.view = ⟨tabulate node.knum fun column => encodeReconvert (sep column),
      kidsOf node.control.sibling (tabulate node.knum node.children) node.next,
      linkOf node.control.sibling node.next⟩ := by
  rw [InnerNode.view_eq rebuilt node.knum (fun column => encodeReconvert (sep column)) node.children
    spec.knum_eq (fun column inside => by rw [spec.separator_eq column inside])
    (fun column _ => by rw [spec.children_eq]), spec.control_eq, spec.next_eq]

/-! ## `split` and `insert` -/

abbrev Inserted (node : InnerNode size type) :=
  NodeView.Inserted WellFormed view encodeReconvert control size node

theorem insertSeps_view (bounded : index ≤ node.knum) :
    node.view.insertSeps (encodeReconvert mid) index =
      tabulate (node.knum + 1) fun column =>
        encodeReconvert (inserted node.separator mid index column) := by
  rw [NodeView.insertSeps, insertAt, view, ← tabulate_inserted _ _ bounded]
  apply tabulate_congr
  intro column _
  unfold inserted
  split
  · rfl
  · split <;> rfl

theorem take_kidsOf {sibling : Bool} {children : List Ptr} {next : Ptr} {kept : Nat}
    (bounded : kept ≤ children.length) :
    (kidsOf sibling children next).take kept = children.take kept := by
  cases sibling with
  | true => rfl
  | false => exact take_append_of_le_length bounded

theorem drop_kidsOf {sibling : Bool} {children : List Ptr} {next : Ptr} {dropped : Nat}
    (bounded : dropped ≤ children.length) :
    (kidsOf sibling children next).drop dropped = kidsOf sibling (children.drop dropped) next := by
  cases sibling with
  | true => rfl
  | false => exact drop_append_of_le_length bounded

theorem append_kidsOf (front : List Ptr) (sibling : Bool) (children : List Ptr) (next : Ptr) :
    front ++ kidsOf sibling children next = kidsOf sibling (front ++ children) next := by
  cases sibling with
  | true => rfl
  | false => exact (append_assoc _ _ _).symm

section Kids

variable {Sep : Type} {view : NodeView Sep} {sibling : Bool} {children : Nat → Ptr} {next : Ptr}
  (length : view.seps.length = count) (lchild rchild : Ptr)
include length

theorem insertKids_inner (kids : view.kids = kidsOf sibling (tabulate count children) next)
    (inside : index < count) :
    view.insertKids lchild rchild index = kidsOf sibling
      (tabulate (count + 1) (inserted children rchild (index + 1))) next := by
  have bounded : index + 1 ≤ (tabulate count children).length := by simpa using inside
  rw [NodeView.insertKids, if_neg (by omega), tabulate_inserted _ _ inside, kids,
    take_kidsOf bounded, drop_kidsOf bounded, ← append_kidsOf]
  cases sibling with
  | true | false => rfl

theorem insertKids_last (kids : view.kids = kidsOf false (tabulate count children) next) :
    view.insertKids lchild rchild count = tabulate count children ++ [lchild, rchild] := by
  rw [NodeView.insertKids, if_pos length.symm, kids, take_kidsOf (by simp),
    take_of_length_le (by simp)]

end Kids

theorem insertKids_view {lchild rchild : Ptr} (inside : index < node.knum) :
    node.view.insertKids lchild rchild index = kidsOf node.control.sibling
      (tabulate (node.knum + 1) (inserted node.children rchild (index + 1))) node.next :=
  insertKids_inner (length_view_seps node) lchild rchild rfl inside

theorem insertKids_view_last {lchild rchild : Ptr} (rightmost : node.control.sibling = false) :
    node.view.insertKids lchild rchild node.knum =
      tabulate node.knum node.children ++ [lchild, rchild] := by
  have kids : node.view.kids = kidsOf false _ node.next := congrArg (kidsOf · _ _) rightmost
  exact insertKids_last (length_view_seps node) lchild rchild kids

theorem WellFormed.congr {other : InnerNode size type} (formed : node.WellFormed)
    (sameCount : other.knum = node.knum) (samePlen : other.plen = node.plen)
    (samePrefix : other.prefixBytes = node.prefixBytes)
    (sameFeatures : other.features = node.features) : other.WellFormed := by
  have separators := separator_congr samePlen samePrefix sameFeatures
  refine ⟨sameCount ▸ formed.knum_le, ?_, ?_⟩
  · rw [sameCount]
    exact formed.increasing.congr fun column _ => separators column
  · rw [sameCount]
    exact (formed.stores.congr samePlen samePrefix sameFeatures).congr_sep
      fun column _ => separators column

/-- What a split returns.  `sep` and `kids` list the separators and children
after the insertion, `point` is the number of separators of the left node. -/
structure SplitAt (node : InnerNode size type) (address : Ptr) (sep : Nat → Encoded type)
    (kids : List Ptr) (point : Nat)
    (result : InnerNode size type × InnerNode size type × Encoded type) : Prop where
  left : result.1.WellFormed
  right : result.2.1.WellFormed
  left_deleted : result.1.control.deleted = node.control.deleted
  right_deleted : result.2.1.control.deleted = false
  left_view : result.1.view =
    ⟨tabulate point fun column => encodeReconvert (sep column), kids.take point, some address⟩
  right_view : result.2.1.view =
    ⟨tabulate (size.slots + 1 - point) fun column => encodeReconvert (sep (point + column)),
      kids.drop point, node.view.link⟩
  mid_eq : result.2.2 = sep (point - 1)

theorem byteAt_opened {base : InnerNode size type} {last rid column : Nat}
    (rows : ∀ rid < type.size, ∀ column < size.slots,
      base.features rid column = byteAt (sep column) rid)
    (bounded : last ≤ size.slots) (inside : index ≤ last) (within : rid < type.size)
    (columnInside : column < last + 1) :
    (mapRows type.size (fun rid row =>
        update (copy row row (index + 1) index (last - index)) index (byteAt mid rid))
      base.features) rid column = byteAt (inserted sep mid index column) rid := by
  rw [mapRows, if_pos within, update_copy_eq_inserted _ _ (Nat.le_of_lt_succ columnInside)]
  unfold inserted
  split
  · exact rows rid within column (by omega)
  · split
    · rfl
    · exact rows rid within (column - 1) (by omega)

section Split

variable (raw : InnerNode size type) (address lchild rchild : Ptr) (formed : node.WellFormed)
  (full : node.knum = size.slots) (fits : Fits node.separator node.knum mid index)

theorem deleted_newSibling (node raw : InnerNode size type) :
    (node.newSibling raw).control.deleted = false := by
  simp only [newSibling]
  split <;> rfl

theorem sibling_newSibling (node raw : InnerNode size type) :
    (node.newSibling raw).control.sibling = node.control.sibling := by
  simp only [newSibling]
  cases node.control.sibling with
  | true => rfl
  | false => rfl

theorem lastRight_spec (lchild rchild : Ptr) (mid : Encoded type) (rnode : InnerNode size type)
    (rightmost : rnode.control.sibling = false) : (rnode.lastRight lchild rchild mid).WellFormed ∧
      (rnode.lastRight lchild rchild mid).view =
      ⟨[encodeReconvert mid], [lchild, rchild], none⟩ := by
  have half := size.eight_le_half
  have slots := size.slots_eq
  have separator : (rnode.lastRight lchild rchild mid).separator 0 = mid := by
    apply eq_of_byteAt_eq
    intro rid within
    rw [byteAt_separator _ _ within]
    have stored : (rnode.lastRight lchild rchild mid).prefixBytes rid = byteAt mid rid :=
      copy_of_mem ⟨Nat.zero_le rid, by omega⟩
    exact (if_pos within).trans stored
  have child : (rnode.lastRight lchild rchild mid).children 0 = lchild := by
    simp [lastRight]
  constructor
  · refine ⟨by simp only [lastRight]; omega, ?_, Nat.le_refl _, fun _ _ => rfl,
      fun _ short => absurd short (Nat.lt_irrefl _), fun zero => absurd zero Nat.one_ne_zero⟩
    intro first second before inside
    simp only [lastRight] at inside
    omega
  · rw [view_eq (rnode.lastRight lchild rchild mid) 1 (fun _ => encodeReconvert mid)
      (fun _ => lchild) rfl]
    · simp [kidsOf, linkOf, lastRight, rightmost, tabulate]
    · intro column inside
      obtain rfl : column = 0 := by omega
      rw [separator]
    · intro column inside
      obtain rfl : column = 0 := by omega
      exact child

include formed full in

theorem split_last (rightmost : node.control.sibling = false) (last : index = size.slots) :
    ∃ result, node.split raw address lchild rchild mid index = .ok result ∧
      SplitAt node address (inserted node.separator mid index)
        (tabulate size.slots node.children ++ [lchild, rchild]) size.slots result := by
  have half := size.eight_le_half
  have slots := size.slots_eq
  have kept : ∀ column < size.slots, inserted node.separator mid index column =
      node.separator column := fun column inside => inserted_of_lt (last ▸ inside)
  obtain ⟨rightWellFormed, rightView⟩ := lastRight_spec lchild rchild mid (node.newSibling raw)
    ((node.sibling_newSibling raw).trans rightmost)
  rw [split, if_pos last]
  refine ⟨_, rfl, ?_, rightWellFormed, rfl, node.deleted_newSibling raw, ?_, ?_, ?_⟩
  · exact formed.congr rfl rfl rfl rfl
  · rw [view_eq (node.linkTo address) size.slots _ node.children full
      (fun column inside => congrArg encodeReconvert (kept column inside).symm) (fun _ _ => rfl)]
    simp [kidsOf, linkOf, linkTo, Control.setSibling]
  · have column : inserted node.separator mid index size.slots = mid := last ▸ inserted_self
    simp only [rightView]
    simp [tabulate, column, view, rightmost, linkOf]
  · rw [kept (size.slots - 1) (by omega)]
    exact separator_congr rfl rfl rfl _

theorem children_opened {children : Nat → Ptr} {last column : Nat} (inside : index ≤ last)
    (columnInside : column < last + 1) :
    update (moveBackward children index (index + 1) (last - index)) (index + 1) rchild
      column = inserted children rchild (index + 1) column := by
  rw [moveBackward_eq_copy _ (Nat.le_succ index)]
  rcases Nat.lt_trichotomy column (index + 1) with before | rfl | after
  · rw [update_of_ne (Nat.ne_of_lt before), copy_of_not_mem (by omega),
      inserted_of_lt before]
  · rw [update_self, inserted_self]
  · rw [update_of_ne (Nat.ne_of_gt after), copy_of_mem (by omega), inserted_of_gt after]
    congr 1
    omega

theorem children_inserted {children : Nat → Ptr} {last column : Nat}
    (columnInside : column < last + 1) :
    update (moveBackward children (index + 1) (index + 2) (last - index - 1)) (index + 1)
      rchild column = inserted children rchild (index + 1) column := by
  rw [moveBackward_eq_copy _ (Nat.le_succ (index + 1))]
  exact update_copy_eq_inserted children rchild (Nat.le_of_lt_succ columnInside)

include formed in

theorem WellFormed.rows {rid : Nat} (within : rid < type.size) {column : Nat}
    (inside : column < size.slots) :
    (node.linkTo address).memoryExpand.features rid column = byteAt (node.separator column) rid :=
  features_memoryExpand formed.stores.plen_le within inside

omit full fits formed in
theorem SplitAt.of_rebuilt {leftBase rightBase left right : InnerNode size type} {point : Nat}
    {children : Nat → Ptr} (leftSpec : Rebuilt leftBase sep left)
    (rightSpec : Rebuilt rightBase (fun column => sep (point + column)) right)
    (leftCount : leftBase.knum = point) (rightCount : rightBase.knum = size.slots + 1 - point)
    (inside : 0 < point ∧ point ≤ size.slots + 1)
    (leftControl : leftBase.control = node.control.setSibling) (leftNext : leftBase.next = address)
    (rightControl : rightBase.control = (node.newSibling raw).control)
    (rightNext : rightBase.next = node.next)
    (leftChildren : ∀ column < point, leftBase.children column = children column)
    (rightChildren : ∀ column < size.slots + 1 - point,
      rightBase.children column = children (point + column)) :
    SplitAt node address sep
      (kidsOf node.control.sibling (tabulate (size.slots + 1) children) node.next) point
      (left, right, left.separator (point - 1)) := by
  have bounded : point ≤ (tabulate (size.slots + 1) children).length := by simpa using inside.2
  refine ⟨leftSpec.wellFormed, rightSpec.wellFormed, ?_, ?_, ?_, ?_, ?_⟩
  · simp only [leftSpec.control_eq, leftControl, Control.setSibling]
  · simp only [rightSpec.control_eq, rightControl, deleted_newSibling]
  · simp only [leftSpec.view_eq, leftCount, leftControl, leftNext]
    rw [tabulate_congr leftChildren, take_kidsOf bounded, take_tabulate _ inside.2]
    rfl
  · simp only [rightSpec.view_eq, rightCount, rightControl, rightNext]
    rw [tabulate_congr rightChildren, drop_kidsOf bounded, drop_tabulate _ inside.2,
      sibling_newSibling]
    rfl
  · exact leftSpec.separator_eq (point - 1) (by omega)

include formed full fits in

theorem lowLeft_rebuilt (low : index < size.half) :
    ∃ left, ((node.linkTo address).memoryExpand.lowLeft rchild mid index).memoryShrink = .ok left ∧
      Rebuilt ((node.linkTo address).memoryExpand.lowLeft rchild mid index)
        (inserted node.separator mid index) left := by
  have slots := size.slots_eq
  apply memoryShrink_rebuilt _ _ (Nat.succ_pos _) (by simp only [lowLeft]; omega)
  · intro column inside
    apply eq_of_byteAt_eq
    intro rid within
    rw [byteAt_expanded _ _ within]
    exact byteAt_opened (fun rid within column inside => formed.rows address within inside)
      (by omega) (Nat.le_of_lt low) within inside
  · exact (formed.increasing.inserted fits).mono (by simp only [lowLeft]; omega)

include formed full fits in

theorem lowRight_rebuilt (low : index < size.half) :
    ∃ right,
      ((node.newSibling raw).lowRight (node.linkTo address).memoryExpand).memoryShrink = .ok right ∧
      Rebuilt ((node.newSibling raw).lowRight (node.linkTo address).memoryExpand)
        (fun column => inserted node.separator mid index (size.half + 1 + column)) right := by
  have half := size.eight_le_half
  have slots := size.slots_eq
  apply memoryShrink_rebuilt _ _ (by simp only [lowRight]; omega) (by simp only [lowRight]; omega)
  · intro column inside
    simp only [lowRight] at inside
    apply eq_of_byteAt_eq
    intro rid within
    rw [byteAt_expanded _ _ within, inserted_of_gt (by omega)]
    simp only [lowRight, mapRows]
    rw [if_pos within, copy_of_mem (by omega), formed.rows address within (by omega)]
    congr 2
    omega
  · intro first second before inside
    simp only [lowRight] at inside
    exact formed.increasing.inserted fits _ _ (by omega) (by omega)

include formed full fits in

theorem split_low (low : index < size.half) :
    ∃ result, node.split raw address lchild rchild mid index = .ok result ∧
      SplitAt node address (inserted node.separator mid index)
        (kidsOf node.control.sibling
          (tabulate (size.slots + 1) (inserted node.children rchild (index + 1))) node.next)
        (size.half + 1) result := by
  have half := size.eight_le_half
  have slots := size.slots_eq
  obtain ⟨left, leftResult, leftSpec⟩ :=
    lowLeft_rebuilt address rchild formed full fits low
  obtain ⟨right, rightResult, rightSpec⟩ :=
    lowRight_rebuilt raw address formed full fits low
  refine ⟨(left, right, left.separator size.half), ?_, ?_⟩
  · simp only [split]
    rw [if_neg (by omega), if_pos low, leftResult, rightResult]
    rfl
  · apply SplitAt.of_rebuilt raw address leftSpec rightSpec rfl
    · simp only [lowRight]
      omega
    · omega
    · rfl
    · rfl
    · rfl
    · rfl
    · exact fun column inside => children_opened rchild (Nat.le_of_lt low) inside
    · intro column inside
      simp only [lowRight]
      rw [copy_of_mem (by omega), inserted_of_gt (by omega)]
      simp only [memoryExpand, linkTo]
      congr 1
      omega

include formed full in

theorem highLeft_rebuilt (high : size.half ≤ index) :
    ∃ left, (node.linkTo address).memoryExpand.highLeft.memoryShrink = .ok left ∧
      Rebuilt (node.linkTo address).memoryExpand.highLeft (inserted node.separator mid index)
        left := by
  have half := size.eight_le_half
  have slots := size.slots_eq
  apply memoryShrink_rebuilt _ _ (by simp only [highLeft]; omega) (by simp only [highLeft]; omega)
  · intro column inside
    simp only [highLeft] at inside
    apply eq_of_byteAt_eq
    intro rid within
    rw [byteAt_expanded _ _ within, inserted_of_lt (by omega)]
    exact formed.rows address within (by omega)
  · intro first second before inside
    simp only [highLeft] at inside
    rw [inserted_of_lt (by omega), inserted_of_lt (by omega)]
    exact formed.increasing first second before (by omega)

include formed full fits in

theorem highRight_rebuilt (high : size.half ≤ index) (inside : index < size.slots) :
    ∃ right, ((node.newSibling raw).highRight (node.linkTo address).memoryExpand rchild mid
        index).memoryShrink = .ok right ∧
      Rebuilt ((node.newSibling raw).highRight (node.linkTo address).memoryExpand rchild mid index)
        (fun column => inserted node.separator mid index (size.half + column)) right := by
  have half := size.eight_le_half
  have slots := size.slots_eq
  apply memoryShrink_rebuilt _ _ (Nat.succ_pos _) (by simp only [highRight]; omega)
  · intro column columnInside
    simp only [highRight] at columnInside
    apply eq_of_byteAt_eq
    intro rid within
    rw [byteAt_expanded _ _ within]
    simp only [highRight, mapRows]
    rw [if_pos within]
    rcases Nat.lt_trichotomy (size.half + column) index with before | same | after
    · rw [copy_of_not_mem (by omega), update_of_ne (by omega), copy_of_mem (by omega),
        inserted_of_lt before, formed.rows address within (by omega)]
      congr 2
      omega
    · rw [copy_of_not_mem (by omega), show column = index - size.half by omega,
        update_self, show size.half + (index - size.half) = index by omega, inserted_self]
    · rw [copy_of_mem (by omega), inserted_of_gt after, formed.rows address within (by omega)]
      congr 2
      omega
  · intro first second before columnInside
    simp only [highRight] at columnInside
    exact formed.increasing.inserted fits _ _ (by omega) (by omega)

include formed full fits in

theorem split_high (high : size.half ≤ index) (inside : index < size.slots) :
    ∃ result, node.split raw address lchild rchild mid index = .ok result ∧
      SplitAt node address (inserted node.separator mid index)
        (kidsOf node.control.sibling
          (tabulate (size.slots + 1) (inserted node.children rchild (index + 1))) node.next)
        size.half result := by
  have half := size.eight_le_half
  have slots := size.slots_eq
  obtain ⟨left, leftResult, leftSpec⟩ :=
    highLeft_rebuilt address formed full high
  obtain ⟨right, rightResult, rightSpec⟩ :=
    highRight_rebuilt raw address rchild formed full fits high inside
  refine ⟨(left, right, left.separator (size.half - 1)), ?_, ?_⟩
  · simp only [split]
    rw [if_neg (by omega), if_neg (by omega), leftResult, rightResult]
    rfl
  · apply SplitAt.of_rebuilt raw address leftSpec rightSpec rfl
    · simp only [highRight]
      omega
    · omega
    · rfl
    · rfl
    · rfl
    · rfl
    · intro column columnInside
      rw [inserted_of_lt (by omega)]
      rfl
    · intro column columnInside
      simp only [highRight]
      rcases Nat.lt_trichotomy (size.half + column) (index + 1) with before | same | after
      · rw [copy_of_not_mem (by omega), update_of_ne (by omega), copy_of_mem (by omega),
          inserted_of_lt before]
        simp only [memoryExpand, linkTo]
        congr 1
        omega
      · rw [copy_of_not_mem (by omega), show column = index - size.half + 1 by omega,
          update_self, show size.half + (index - size.half + 1) = index + 1 by omega,
          inserted_self]
      · rw [copy_of_mem (by omega), inserted_of_gt after]
        simp only [memoryExpand, linkTo]
        congr 1
        omega

include formed full fits in

theorem split_spec (rightmost : node.control.sibling = true → index < node.knum) :
    ∃ result, node.split raw address lchild rchild mid index = .ok result ∧
      SplitAt node address (inserted node.separator mid index)
        (node.view.insertKids lchild rchild index) (NodeView.splitPoint size index) result := by
  have slots := size.slots_eq
  rw [NodeView.splitPoint]
  by_cases last : index = size.slots
  · have alone : node.control.sibling = false := by
      by_contra sibling
      have := rightmost (Bool.eq_true_of_not_eq_false sibling)
      omega
    rw [if_pos last, last, ← full, insertKids_view_last alone, full, ← last]
    rw [last]
    exact split_last raw address lchild rchild formed full alone rfl
  · have inside : index < size.slots := Nat.lt_of_le_of_ne (full ▸ fits.bounded) last
    rw [if_neg last, insertKids_view (full.symm ▸ inside), full]
    split
    · rename_i low
      exact split_low raw address lchild rchild formed full fits low
    · rename_i high
      exact split_high raw address lchild rchild formed full fits (by omega) inside

end Split

section Insert

variable (raw : InnerNode size type) (address lchild rchild : Ptr) (formed : node.WellFormed)
  (fits : Fits node.separator node.knum mid index)
  (rightmost : node.control.sibling = true → index < node.knum)
include formed fits rightmost

theorem insert_full (full : node.knum = size.slots) :
    ∃ result, node.insert raw address lchild rchild mid index = .ok result ∧
      Inserted node address lchild rchild mid index result := by
  have positive := NodeView.splitPoint_pos size index
  have bounded : NodeView.splitPoint size index ≤ size.slots + 1 :=
    Nat.le_succ_of_le (NodeView.splitPoint_le size index)
  have stamped : node.updateVersion.WellFormed := formed.congr rfl rfl rfl rfl
  obtain ⟨⟨left, right, above⟩, result, split⟩ :=
    split_spec raw address lchild rchild stamped full fits rightmost
  refine ⟨(left, some right, above), ?_, split.left, split.left_deleted, ?_, ?_⟩
  · simp only [insert, knum_updateVersion]
    rw [if_neg (Nat.not_lt.mpr fits.bounded), if_neg (by omega), result]
    rfl
  · simp only [NodeView.insert, Option.map_some, length_view_seps]
    have aboveEq : above = inserted node.separator mid index (NodeView.splitPoint size index - 1) :=
      split.mid_eq
    rw [if_neg (by omega), insertSeps_view fits.bounded, full, take_tabulate _ bounded,
      drop_tabulate _ bounded, getLastD_tabulate positive, split.left_view, split.right_view,
      aboveEq]
    rfl
  · intro node' same
    cases same
    exact ⟨split.right, split.right_deleted⟩

omit formed fits rightmost in
theorem control_keyInsert (node : InnerNode size type) (mid : Encoded type) (index : Nat) :
    (node.keyInsert mid index).control = node.control ∧
      (node.keyInsert mid index).next = node.next := by
  simp only [keyInsert]
  split
  · exact ⟨rfl, rfl⟩
  · split <;> exact ⟨rfl, rfl⟩

omit rightmost in
theorem WellFormed.of_stores_inserted {base : InnerNode size type}
    (small : node.knum < size.slots) (sameCount : base.knum = node.knum + 1)
    (stores : Stores base (inserted node.separator mid index) (node.knum + 1)) :
    base.WellFormed := by
  refine ⟨by omega, ?_, ?_⟩
  · rw [sameCount]
    exact (formed.increasing.inserted fits).congr stores.separator_eq
  · rw [sameCount]
    exact stores.congr_sep stores.separator_eq

theorem insert_small (small : node.knum < size.slots) :
    ∃ result, node.insert raw address lchild rchild mid index = .ok result ∧
      Inserted node address lchild rchild mid index result := by
  have bounded := fits.bounded
  have stores : Stores (node.updateVersion.keyInsert mid index)
      (inserted node.separator mid index) (node.knum + 1) :=
    keyInsert_stores (formed.stores.congr rfl rfl rfl) formed.increasing fits
  obtain ⟨control, next⟩ := control_keyInsert node.updateVersion mid index
  simp only [insert, knum_updateVersion]
  rw [if_neg (Nat.not_lt.mpr bounded), if_pos small]
  by_cases last : index = node.knum
  · have alone : node.control.sibling = false := by
      by_contra sibling
      have := rightmost (Bool.eq_true_of_not_eq_false sibling)
      omega
    have lastStores : Stores (node.updateVersion.insertLast lchild rchild mid index) _ _ :=
      stores.congr rfl rfl rfl
    have sibling : (node.updateVersion.insertLast lchild rchild mid index).control.sibling =
      false :=
      (congrArg Control.sibling control).trans alone
    have deleted : (node.updateVersion.insertLast lchild rchild mid index).control.deleted =
        node.control.deleted := (congrArg Control.deleted control).trans rfl
    rw [if_neg (not_not.mpr last)]
    refine ⟨_, rfl, formed.of_stores_inserted fits small rfl lastStores, deleted, ?_,
      fun right absurdity => (by cases absurdity)⟩
    have children : tabulate (node.knum + 1) (update node.children index lchild) =
        tabulate node.knum node.children ++ [lchild] := by
      rw [tabulate_succ, last, update_self]
      congr 1
      exact tabulate_congr fun column inside =>
        update_of_ne (Nat.ne_of_lt inside) lchild node.children
    simp only [NodeView.insert, length_view_seps, Option.map_none]
    rw [if_pos small, insertSeps_view bounded,
      view_eq (node.updateVersion.insertLast lchild rchild mid index) (node.knum + 1) _
        (update node.children index lchild) rfl
        (fun column inside => congrArg encodeReconvert (lastStores.separator_eq column inside))
        (fun _ _ => rfl), sibling, children, last, insertKids_view_last alone]
    simp [kidsOf, linkOf, insertLast, view, alone]
  · have innerStores : Stores (node.updateVersion.insertInner rchild mid index) _ _ :=
      stores.congr rfl rfl rfl
    have inside : index < node.knum := Nat.lt_of_le_of_ne bounded last
    have sibling : (node.updateVersion.insertInner rchild mid index).control.sibling =
        node.control.sibling := (congrArg Control.sibling control).trans rfl
    have deleted : (node.updateVersion.insertInner rchild mid index).control.deleted =
        node.control.deleted := (congrArg Control.deleted control).trans rfl
    have sameNext : (node.updateVersion.insertInner rchild mid index).next = node.next := next
    rw [if_pos last]
    refine ⟨_, rfl, formed.of_stores_inserted fits small rfl innerStores, deleted, ?_,
      fun right absurdity => (by cases absurdity)⟩
    simp only [NodeView.insert, length_view_seps, Option.map_none]
    rw [if_pos small, insertSeps_view bounded, insertKids_view inside,
      view_eq (node.updateVersion.insertInner rchild mid index) (node.knum + 1) _
        (inserted node.children rchild (index + 1)) rfl
        (fun column within => congrArg encodeReconvert (innerStores.separator_eq column within))
        (fun column within => children_inserted rchild within), sibling, sameNext]
    rfl

theorem insert_spec : ∃ result, node.insert raw address lchild rchild mid index = .ok result ∧
    Inserted node address lchild rchild mid index result := by
  rcases Nat.lt_or_ge node.knum size.slots with small | full
  · exact insert_small raw address lchild rchild formed fits rightmost small
  · exact insert_full raw address lchild rchild formed fits rightmost
      (Nat.le_antisymm formed.knum_le full)

end Insert

/-! ## Insertion into the lists of separators and children -/

theorem view_seps_eq (node : InnerNode size type) :
    node.view.seps = node.separators.map encodeReconvert := by
  rw [separators, tabulate, map_map]
  rfl

theorem encodeReconvert_injective : Function.Injective (@encodeReconvert type) :=
  Function.LeftInverse.injective encodeConvert_encodeReconvert

theorem separators_eq_of_view {words : List (Encoded type)}
    (views : node.view.seps = words.map encodeReconvert) : node.separators = words := by
  rw [view_seps_eq] at views
  exact map_injective_iff.mpr encodeReconvert_injective views

def kids (node : InnerNode size type) : List Ptr := node.view.kids

def link (node : InnerNode size type) : Option Ptr := node.view.link

theorem length_kids (node : InnerNode size type) :
    node.kids.length = if node.control.sibling then node.knum else node.knum + 1 := by
  rw [kids, view]
  cases node.control.sibling with
  | true | false => simp [kidsOf]

theorem insertKids_eq {lchild rchild : Ptr} (split : node.kids[index]? = some lchild) :
    node.view.insertKids lchild rchild index = insertAt node.kids (index + 1) rchild := by
  obtain ⟨inside, found⟩ := List.getElem?_eq_some_iff.mp split
  rw [NodeView.insertKids, length_view_seps, insertAt]
  split
  · rename_i last
    have whole : node.kids.length ≤ index + 1 := by
      rw [length_kids]
      split <;> omega
    rw [drop_eq_nil_of_le whole, take_add_one, split]
    simp [kids]
  · rfl

theorem fits_rank (increasing : Ascending memoryChars node.separators)
    (new : mid ∉ node.separators) : Fits node.separator node.knum mid (node.rank mid) := by
  have listed {column : Nat} (inside : column < node.knum) :
      node.separators[column]? = some (node.separator column) := getElem?_tabulate _ inside
  have bounded : node.rank mid ≤ node.knum := by
    have limit : node.rank mid ≤ node.separators.length := rankIn_le_length _ _
    rwa [separators, length_tabulate] at limit
  refine ⟨bounded, ?_, ?_⟩
  · intro column before
    rw [← memoryChars_lt_iff]
    exact (increasing.lt_rankIn_iff (listed (by omega))).mp before
  · intro column notBefore inside
    have notBelow : ¬memoryChars (node.separator column) < memoryChars mid := fun below =>
      absurd ((increasing.lt_rankIn_iff (listed inside)).mpr below) (Nat.not_lt.mpr notBefore)
    rw [memoryChars_lt_iff] at notBelow
    apply Nat.lt_of_le_of_ne (not_lt.mp notBelow)
    intro same
    rw [lexRank_injective same] at new
    exact new (mem_of_getElem? (listed inside))

def results (result : InnerNode size type × Option (InnerNode size type) × Encoded type) :
    List (InnerNode size type) := result.1 :: result.2.1.toList

/-- An insertion inserts the separator and the child into the lists that the nodes hold. -/
theorem insert_refines (node raw : InnerNode size type) (address lchild rchild : Ptr)
    (mid : Encoded type) (bounded : node.knum ≤ size.slots)
    (increasing : Ascending memoryChars node.separators)
    (compressed : node.plen = commonPrefix node.separators) (new : mid ∉ node.separators)
    (split : node.kids[node.rank mid]? = some lchild) :
    ∃ result, node.insert raw address lchild rchild mid (node.rank mid) = .ok result ∧
      (results result).flatMap separators = insertAt node.separators (node.rank mid) mid ∧
      (results result).flatMap kids = insertAt node.kids (node.rank mid + 1) rchild ∧
      (∀ node' ∈ results result, node'.knum ≤ size.slots ∧
        Ascending memoryChars node'.separators ∧ node'.plen = commonPrefix node'.separators) ∧
      (match result.2.1 with
        | none => node.knum < size.slots ∧ result.1.link = node.link
        | some right => node.knum = size.slots ∧ result.1.link = some address ∧
            right.link = node.link ∧ result.1.separators.getLast? = some result.2.2) := by
  have formed := wellFormed_iff.mpr ⟨bounded, increasing, compressed⟩
  have fits := fits_rank increasing new
  have rightmost : node.control.sibling = true → node.rank mid < node.knum := by
    intro sibling
    obtain ⟨inside, _⟩ := List.getElem?_eq_some_iff.mp split
    rwa [length_kids, if_pos sibling] at inside
  obtain ⟨⟨left, right, above⟩, found, spec⟩ :=
    insert_spec raw address lchild rchild formed fits rightmost
  refine ⟨(left, right, above), found, ?_⟩
  have views := spec.views
  simp only [NodeView.insert, insertKids_eq split, length_view_seps] at views
  have seps : node.view.insertSeps (encodeReconvert mid) (node.rank mid) =
      (insertAt node.separators (node.rank mid) mid).map encodeReconvert := by
    rw [NodeView.insertSeps, view_seps_eq, map_insertAt]
  rw [seps] at views
  by_cases small : node.knum < size.slots
  · rw [if_pos small] at views
    obtain ⟨leftView, rightView⟩ := Prod.mk.inj views
    obtain rfl : right = none := Option.map_eq_none_iff.mp rightView.symm
    have leftSeps := separators_eq_of_view (congrArg NodeView.seps leftView).symm
    have leftKids : left.kids = _ := (congrArg NodeView.kids leftView).symm
    refine ⟨?_, ?_, ?_, small, (congrArg NodeView.link leftView).symm⟩
    · simp [results, leftSeps]
    · simp [results, leftKids]
    · intro node' listed
      obtain rfl := mem_singleton.mp listed
      exact wellFormed_iff.mp spec.wellFormed
  · have full : node.knum = size.slots := Nat.le_antisymm bounded (not_lt.mp small)
    rw [if_neg small] at views
    obtain ⟨leftView, rightView⟩ := Prod.mk.inj views
    obtain ⟨rightNode, rfl, rightEq⟩ := Option.map_eq_some_iff.mp rightView.symm
    obtain ⟨rightNodeView, aboveEq⟩ := Prod.mk.inj rightEq
    rw [← map_take] at leftView aboveEq
    rw [← map_drop] at rightNodeView
    have leftSeps := separators_eq_of_view (congrArg NodeView.seps leftView).symm
    have rightSeps := separators_eq_of_view (congrArg NodeView.seps rightNodeView)
    have leftKids : left.kids = _ := (congrArg NodeView.kids leftView).symm
    have rightKids : rightNode.kids = _ := congrArg NodeView.kids rightNodeView
    have rightLink : rightNode.link = node.link := by rw [link, link, rightNodeView]
    refine ⟨?_, ?_, ?_, full, (congrArg NodeView.link leftView).symm, rightLink, ?_⟩
    · simp [results, leftSeps, rightSeps]
    · simp [results, leftKids, rightKids]
    · intro node' listed
      rcases mem_cons.mp listed with rfl | listed
      · exact wellFormed_iff.mp spec.wellFormed
      · obtain rfl := mem_singleton.mp listed
        exact wellFormed_iff.mp (spec.right _ rfl).1
    · simp only [leftSeps]
      have positive := NodeView.splitPoint_pos size (node.rank mid)
      rcases eq_nil_or_concat ((insertAt node.separators (node.rank mid) mid).take
        (NodeView.splitPoint size (node.rank mid))) with empty | ⟨front, last, split⟩
      · have length := congrArg List.length empty
        rw [length_take, length_insertAt, length_nil] at length
        omega
      · rw [split, concat_eq_append] at aboveEq ⊢
        rw [map_append, map_singleton, getLastD_concat] at aboveEq
        rw [getLast?_concat, encodeReconvert_injective aboveEq]

/-- A full rightmost node whose separators begin with three bytes 1. -/
def crowdedNode : InnerNode .size16 .uint32 where
  control := .new false
  knum := 16
  plen := 3
  prefixBytes := fun _ => 1
  next := 36
  features := fun _ column => BitVec.ofNat 8 column
  children := fun index => 20 + index

/-- The separator 1, 0, 0, 0 goes to the front: the node is split, and only one byte of the
prefix is left in its left part. -/
theorem insert_refines_crowdedNode :
    ∃ left right mid, crowdedNode.insert crowdedNode 7 20 50 1 0 = .ok (left, some right, mid) ∧
      left.separators ++ right.separators = 1 :: crowdedNode.separators ∧
      left.kids ++ right.kids = 20 :: 50 :: (List.range 16).map (21 + ·) ∧
      (left.knum, left.plen) = (9, 1) ∧ (right.knum, right.plen) = (8, 3) ∧
      left.link = some 7 ∧ right.link = none ∧ left.separators.getLast? = some mid := by
  have rank : crowdedNode.rank 1 = 0 := by decide +kernel
  obtain ⟨⟨left, right, mid⟩, found, seps, kidsEq, _, chained⟩ :=
    insert_refines crowdedNode crowdedNode 7 20 50 1 (by decide) (by decide +kernel)
      (by decide +kernel) (by decide +kernel) (by decide +kernel)
  rw [rank] at found seps kidsEq
  have lengths : (crowdedNode.insert crowdedNode 7 20 50 1 0).toOption.map (fun result =>
      (results result).map fun node => (node.knum, node.plen)) = some [(9, 1), (8, 3)] := by
    decide +kernel
  rw [found] at lengths
  cases right with
  | none => exact absurd chained.1 (by decide)
  | some right =>
    obtain ⟨_, leftLink, rightLink, last⟩ := chained
    obtain ⟨leftLengths, rightLengths⟩ := List.cons.inj (Option.some.inj lengths)
    refine ⟨left, right, mid, found, ?_, ?_, leftLengths, (List.cons.inj rightLengths).1,
      leftLink, rightLink, last⟩
    · simpa [results, insertAt] using seps
    · have listed : insertAt crowdedNode.kids 1 50 = 20 :: 50 :: (List.range 16).map (21 + ·) := by
        decide +kernel
      rw [← listed, ← kidsEq]
      simp [results]

end IndexResearch.FBTree.InnerNode
