import IndexResearch.BLinkTree.Node.Contents

/-!
# Insertion into a node of the B-link tree

Both kinds of nodes are split in the same place: the node keeps one more than half of the
keys it had, and the new key goes to the half it belongs to.
-/

namespace IndexResearch.BLinkTree

open List Function

namespace Buffer

variable {Value Other : Type}

theorem copyBoth_eq {target source : Buffer Value × Buffer Other} {shift dst src : Nat}
    (readable : src < source.1.size ∧ src + shift < source.2.size)
    (writable : dst < target.1.size ∧ dst + shift < target.2.size) :
    copyBoth target source shift dst src =
      .ok (⟨target.1.size, update target.1.cells dst (source.1.cells src)⟩,
        ⟨target.2.size, update target.2.cells (dst + shift)
          (source.2.cells (src + shift))⟩) := by
  rw [copyBoth, copyCell_eq readable.1 writable.1, copyCell_eq readable.2 writable.2]
  rfl

theorem shiftUp_eq {buffers : Buffer Value × Buffer Other} {shift index high : Nat}
    (ordered : index ≤ high) (inside : high < buffers.1.size ∧ high + shift < buffers.2.size) :
    shiftUp buffers shift index high =
      .ok (⟨buffers.1.size, copy buffers.1.cells buffers.1.cells (index + 1) index (high - index)⟩,
        ⟨buffers.2.size, copy buffers.2.cells buffers.2.cells (index + shift + 1) (index + shift)
          (high - index)⟩) := by
  obtain ⟨final, loopEq, rfl⟩ := forDown_rule
    (fun i buffers => copyBoth buffers buffers shift i (i - 1))
    (fun i state => state =
      (⟨buffers.1.size, copy buffers.1.cells buffers.1.cells (i + 1) i (high - i)⟩,
        ⟨buffers.2.size, copy buffers.2.cells buffers.2.cells (i + shift + 1) (i + shift)
          (high - i)⟩))
    ordered (by rw [Nat.sub_self, copy_zero, copy_zero]) (by
      rintro i state lower upper rfl
      have count : high - i = high - (i + 1) + 1 := by omega
      refine ⟨_, copyBoth_eq ?_ ?_, ?_⟩
      · simp only
        omega
      · simp only
        omega
      · rw [count, ← update_copy_up, ← update_copy_up, Nat.add_sub_cancel,
          Nat.add_right_comm i 1 shift])
  exact loopEq

theorem copyRange_eq {target source : Buffer Value × Buffer Other} {shift dst src count : Nat}
    (readable : src + count ≤ source.1.size ∧ src + count + shift ≤ source.2.size)
    (writable : dst + count ≤ target.1.size ∧ dst + count + shift ≤ target.2.size) :
    copyRange target source shift dst src count =
      .ok (⟨target.1.size, copy target.1.cells source.1.cells dst src count⟩,
        ⟨target.2.size, copy target.2.cells source.2.cells (dst + shift) (src + shift) count⟩) := by
  obtain ⟨final, loopEq, finalEq⟩ := forUp_rule
    (fun i target => copyBoth target source shift i (i - dst + src))
    (fun i state => state =
      (⟨target.1.size, copy target.1.cells source.1.cells dst src (i - dst)⟩,
        ⟨target.2.size, copy target.2.cells source.2.cells (dst + shift) (src + shift)
          (i - dst)⟩))
    count dst (by rw [Nat.sub_self, copy_zero, copy_zero]) (by
      rintro i state lower upper rfl
      obtain ⟨offset, rfl⟩ := Nat.exists_eq_add_of_le lower
      refine ⟨_, copyBoth_eq ?_ ?_, ?_⟩
      · omega
      · simp only
        omega
      · rw [Nat.add_assoc dst offset 1, Nat.add_sub_cancel_left, Nat.add_sub_cancel_left,
          ← update_copy, ← update_copy, Nat.add_right_comm dst offset shift, Nat.add_assoc offset])
  rw [finalEq, Nat.add_sub_cancel_left] at loopEq
  exact loopEq

end Buffer

/-! ## Arrays after an insertion

`items` are the contents of `cells` before. -/

section Arrays

variable {Item : Type} {items : List Item} {cells : Nat → Item} {total index count moved : Nat}
  (contents : tabulate total cells = items)
include contents

theorem tabulate_shifted (ordered : index ≤ count) (bounded : count ≤ total)
    (enough : count ≤ index + moved) (item : Item) :
    tabulate (count + 1) (update (copy cells cells (index + 1) index moved) index item) =
      insertAt (items.take count) index item := by
  rw [← contents, take_tabulate cells bounded, insertAt]
  apply tabulate_insert ordered
  · intro pos before
    rw [update_of_ne (by omega), copy_of_not_mem (by omega)]
  · exact update_self _ _ _
  · intro pos notBefore inside
    rw [update_of_ne (by omega), copy_of_mem (by omega)]
    congr 1
    omega

theorem tabulate_inserted (bounded : index ≤ total) (enough : total ≤ index + moved) (item : Item) :
    tabulate (total + 1) (update (copy cells cells (index + 1) index moved) index item) =
      insertAt items index item := by
  have lengths : items.length = total := by rw [← contents, length_tabulate]
  rw [tabulate_shifted contents bounded le_rfl enough, ← lengths, take_length]

theorem tabulate_moved {after : Nat → Item} (bounded : count ≤ total)
    (same : ∀ pos < total - count, after pos = cells (count + pos)) :
    tabulate (total - count) after = items.drop count := by
  rw [← contents, drop_tabulate cells bounded]
  exact tabulate_congr same

theorem tabulate_replaced (inside : count < total) (enough : total ≤ count + moved)
    (target : Nat → Item) (item : Item) :
    tabulate (total - count) (update (copy target cells 0 count moved) 0 item) =
      insertAt (items.drop (count + 1)) 0 item := by
  have size : total - count = total - (count + 1) + 1 := by omega
  rw [← contents, drop_tabulate cells inside, insertAt, size]
  apply tabulate_insert (Nat.zero_le _)
  · exact fun pos before => absurd before (Nat.not_lt_zero _)
  · exact update_self _ _ _
  · intro pos _ _
    rw [update_of_ne (Nat.succ_ne_zero _), copy_of_lt (by omega)]
    congr 1
    omega

theorem tabulate_spliced (ordered : count ≤ index) (bounded : index ≤ total)
    (enough : total ≤ index + moved) (target : Nat → Item) (item : Item) :
    tabulate (total - count + 1)
      (copy (update (copy target cells 0 count (index - count)) (index - count) item) cells
        (index - count + 1) index moved) =
      insertAt (items.drop count) (index - count) item := by
  rw [← contents, drop_tabulate cells (Nat.le_trans ordered bounded), insertAt]
  apply tabulate_insert (by omega)
  · intro pos before
    rw [copy_of_not_mem (by omega), update_of_ne (by omega), copy_of_lt before]
  · rw [copy_of_not_mem (by omega), update_self]
  · intro pos notBefore inside
    rw [copy_of_mem (by omega)]
    congr 1
    omega

end Arrays

namespace BLinkNode

variable {K V : Type} {size nodeSize : Nat} {node : BLinkNode K V} {index : Nat} {key : K}
  {value : V}
  {entries : List (K × V)} {sibling : Ptr}

/-- The leaves that `items` are divided among, the first `mid` of them to the left. -/
def LeafHalves (size : Nat) (items : List (K × V)) (mid : Nat) (first second : Ptr)
    (left right : BLinkNode K V) : Prop :=
  IsLeaf size left (items.take mid) first ∧ IsLeaf size right (items.drop mid) second

/-- The inner nodes that `keys` and `kids` are divided among. -/
def InnerHalves (size : Nat) (keys : List K) (kids : List Ptr) (mid : Nat) (first second : Ptr)
    (left right : BLinkNode K V) : Prop :=
  IsInner size left (keys.take mid) (kids.take mid) first ∧
    IsInner size right (keys.drop mid) (kids.drop mid) second

theorem IsLeaf.sizes (isLeaf : IsLeaf size node entries sibling) :
    node.itemCnt = entries.length ∧ entries.length < size ∧ node.nodeSize = size ∧
      node.keys.size = size ∧ node.values.size = size := by
  have count := isLeaf.itemCnt_eq
  have fits := isLeaf.fits
  rw [length_map] at count fits
  exact ⟨count, fits, isLeaf.nodeSize_eq, isLeaf.keysSize, isLeaf.valuesSize⟩

theorem IsLeaf.keys_contents (isLeaf : IsLeaf size node entries sibling) :
    tabulate entries.length node.keys.cells = entries.map Prod.fst := by
  have contents := isLeaf.keys_eq
  rwa [length_map] at contents

theorem setEntry_eq (inside : index < node.keys.size ∧ index < node.values.size) :
    node.setEntry index key value = .ok { node with
      keys := ⟨node.keys.size, update node.keys.cells index key⟩
      values := ⟨node.values.size, update node.values.cells index value⟩ } := by
  rw [setEntry, Buffer.write_eq inside.1, Buffer.write_eq inside.2]
  rfl

theorem isLeaf_of_arrays (kind : node.isLeaf = true) (nodeSize_eq : node.nodeSize = size)
    (sizes : node.keys.size = size ∧ node.values.size = size)
    (count : node.itemCnt = entries.length) (fits : entries.length < size)
    (keys : tabulate entries.length node.keys.cells = entries.map Prod.fst)
    (values : tabulate entries.length node.values.cells = entries.map Prod.snd)
    (sibling_eq : node.siblingPtr = sibling) : IsLeaf size node entries sibling where
  nodeSize_eq := nodeSize_eq
  keysSize := sizes.1
  itemCnt_eq := by rw [count, length_map]
  fits := by rwa [length_map]
  keys_eq := by rwa [length_map]
  kind := kind
  valuesSize := sizes.2
  values_eq := values
  sibling_eq := sibling_eq

section Leaf

variable [Inhabited K] [Inhabited V]

theorem IsLeaf.leafPlace_safe (policy : SplitPolicy size) (address : Ptr)
    (isLeaf : IsLeaf size node entries sibling) (safe : policy.safe entries.length = true)
    (bounded : index ≤ entries.length) (key : K) (value : V) :
    ∃ placed, node.leafPlace policy address key value index = .ok (placed, none) ∧
      IsLeaf size placed (insertAt entries index (key, value)) sibling := by
  have room := policy.room _ safe
  obtain ⟨count, _, _, keysSize, valuesSize⟩ := isLeaf.sizes
  rw [leafPlace, count, if_pos safe, Buffer.shiftUp_eq bounded (by
    simp only [BLinkNode.entries]
    omega)]
  simp only [ok_bind, withEntries]
  rw [setEntry_eq (by simp only [BLinkNode.entries]; omega)]
  refine ⟨_, rfl, isLeaf_of_arrays isLeaf.kind isLeaf.nodeSize_eq ⟨keysSize, valuesSize⟩
    (length_insertAt _ _ _).symm ?_ ?_ ?_ isLeaf.sibling_eq⟩
  · rw [length_insertAt]
    omega
  · rw [length_insertAt, map_insertAt]
    exact tabulate_inserted isLeaf.keys_contents bounded (by omega) key
  · rw [length_insertAt, map_insertAt]
    exact tabulate_inserted isLeaf.values_eq bounded (by omega) value

theorem IsLeaf.leafSplitLow_eq (isLeaf : IsLeaf size node entries sibling)
    (nonempty : entries ≠ []) (low : index ≤ entries.length / 2) (key : K) (value : V) :
    ∃ left right, node.leafSplitLow (node.newSibling true) key value index = .ok (left, right) ∧
      LeafHalves size (insertAt entries index (key, value)) (entries.length / 2 + 1) sibling sibling
        left right := by
  have positive := length_pos_of_ne_nil nonempty
  obtain ⟨count, fits, nodeSizeEq, keysSize, valuesSize⟩ := isLeaf.sizes
  have newKeys : (node.newSibling true).keys.size = size := nodeSizeEq
  have newValues : (node.newSibling true).values.size = size := nodeSizeEq
  unfold LeafHalves
  rw [take_insertAt_of_le _ low (by omega), drop_insertAt_of_le _ low (by omega)]
  simp only [leafSplitLow, count]
  rw [Buffer.copyRange_eq (by simp only [BLinkNode.entries]; omega)
    (by simp only [BLinkNode.entries]; omega)]
  simp only [bind, Except.bind]
  rw [assert_eq (decide_eq_true (by omega)), Buffer.shiftUp_eq low (by
    simp only [BLinkNode.entries]
    omega)]
  simp only [withEntries]
  rw [setEntry_eq (by simp only [BLinkNode.entries]; omega)]
  refine ⟨_, _, rfl, ?_, ?_⟩
  · refine isLeaf_of_arrays isLeaf.kind nodeSizeEq ⟨keysSize, valuesSize⟩ ?_ ?_ ?_ ?_
      isLeaf.sibling_eq
    · rw [length_insertAt, length_take, Nat.min_eq_left (by omega)]
    · rw [length_insertAt, length_take, Nat.min_eq_left (by omega)]
      omega
    · rw [length_insertAt, length_take, Nat.min_eq_left (by omega), map_insertAt,
        map_take]
      exact tabulate_shifted isLeaf.keys_contents low (by omega) (by omega) key
    · rw [length_insertAt, length_take, Nat.min_eq_left (by omega), map_insertAt,
        map_take]
      exact tabulate_shifted isLeaf.values_eq low (by omega) (by omega) value
  · refine isLeaf_of_arrays rfl nodeSizeEq ⟨nodeSizeEq, nodeSizeEq⟩ ?_ ?_ ?_ ?_ isLeaf.sibling_eq
    · exact (length_drop).symm
    · rw [length_drop]
      omega
    · rw [length_drop, map_drop]
      apply tabulate_moved isLeaf.keys_contents (by omega)
      exact fun pos inside => copy_of_lt inside
    · rw [length_drop, map_drop]
      apply tabulate_moved isLeaf.values_eq (by omega)
      exact fun pos inside => copy_of_lt inside

theorem IsLeaf.leafSplitHigh_eq (isLeaf : IsLeaf size node entries sibling)
    (high : entries.length / 2 < index) (bounded : index ≤ entries.length) (key : K) (value : V) :
    ∃ left right, node.leafSplitHigh (node.newSibling true) key value index = .ok (left, right) ∧
      LeafHalves size (insertAt entries index (key, value)) (entries.length / 2 + 1) sibling sibling
        left right := by
  obtain ⟨count, fits, nodeSizeEq, keysSize, valuesSize⟩ := isLeaf.sizes
  have newKeys : (node.newSibling true).keys.size = size := nodeSizeEq
  have newValues : (node.newSibling true).values.size = size := nodeSizeEq
  have ordered : entries.length / 2 + 1 ≤ index := high
  have positive : 0 < entries.length / 2 + 1 := Nat.succ_pos _
  unfold LeafHalves
  rw [take_insertAt_of_ge _ ordered bounded, drop_insertAt_of_ge _ ordered bounded]
  simp only [leafSplitHigh, count]
  generalize entries.length / 2 + 1 = mid at *
  rw [Buffer.copyRange_eq (by simp only [BLinkNode.entries]; omega)
    (by simp only [BLinkNode.entries]; omega)]
  simp only [bind, Except.bind, withEntries]
  rw [setEntry_eq (by simp only [BLinkNode.entries]; omega)]
  simp only
  rw [Buffer.copyRange_eq (by simp only [BLinkNode.entries]; omega)
    (by simp only [BLinkNode.entries]; omega)]
  simp only
  rw [assert_eq (decide_eq_true (by omega))]
  refine ⟨_, _, rfl, ?_, ?_⟩
  · refine isLeaf_of_arrays isLeaf.kind nodeSizeEq ⟨keysSize, valuesSize⟩ ?_ ?_ ?_ ?_
      isLeaf.sibling_eq
    · rw [length_take, Nat.min_eq_left (by omega)]
    · rw [length_take]
      omega
    · rw [length_take, Nat.min_eq_left (by omega), map_take, ← isLeaf.keys_contents,
        take_tabulate _ (by omega)]
    · rw [length_take, Nat.min_eq_left (by omega), map_take, ← isLeaf.values_eq,
        take_tabulate _ (by omega)]
  · refine isLeaf_of_arrays rfl nodeSizeEq ⟨nodeSizeEq, nodeSizeEq⟩ ?_ ?_ ?_ ?_ isLeaf.sibling_eq
    · rw [length_insertAt, length_drop]
    · rw [length_insertAt, length_drop]
      omega
    · rw [length_insertAt, length_drop, map_insertAt, map_drop]
      exact tabulate_spliced isLeaf.keys_contents ordered bounded (by omega) _ key
    · rw [length_insertAt, length_drop, map_insertAt, map_drop]
      exact tabulate_spliced isLeaf.values_eq ordered bounded (by omega) _ value

theorem IsLeaf.leafPlace_split (policy : SplitPolicy size) (address : Ptr)
    (isLeaf : IsLeaf size node entries sibling) (full : ¬policy.safe entries.length = true)
    (bounded : index ≤ entries.length) (key : K) (value : V) :
    ∃ left right, node.leafPlace policy address key value index = .ok (left, some right) ∧
      LeafHalves size (insertAt entries index (key, value)) (entries.length / 2 + 1) address sibling
        left right := by
  have nonempty : entries ≠ [] := by
    rintro rfl
    exact full policy.safe_zero
  have count := isLeaf.sizes.1
  obtain ⟨left, right, splitEq, isLeft, isRight⟩ : ∃ left right,
      node.leafSplit (node.newSibling true) key value index = .ok (left, right) ∧
      LeafHalves size (insertAt entries index (key, value)) (entries.length / 2 + 1) sibling sibling
        left right := by
    rw [leafSplit, count]
    by_cases low : index ≤ entries.length / 2
    · rw [if_pos low]
      exact isLeaf.leafSplitLow_eq nonempty low key value
    · rw [if_neg low]
      exact isLeaf.leafSplitHigh_eq (not_le.mp low) bounded key value
  have leftCount : 0 < left.itemCnt := by
    rw [isLeft.itemCnt_eq, length_map, length_take, length_insertAt]
    omega
  rw [leafPlace, count, if_neg full, splitEq]
  simp only [ok_bind, assert_eq (decide_eq_true leftCount)]
  exact ⟨_, right, rfl, { isLeft with sibling_eq := rfl }, isRight⟩

variable [LinearOrder K]

theorem IsLeaf.leafInsert_eq (policy : SplitPolicy nodeSize) (address : Ptr)
    (isLeaf : IsLeaf size node entries sibling) (rising : Ascending Prod.fst entries) (key : K)
    (value : V) :
    node.leafInsert policy address key value (rankIn Prod.fst entries key) =
      node.leafPlace policy address key value (rankIn Prod.fst entries key) := by
  rw [leafInsert, assert_eq isLeaf.kind]
  simp only [bind, Except.bind]
  by_cases first : rankIn Prod.fst entries key = 0
  · rw [if_neg (by simp [first])]
  · have bounded : rankIn Prod.fst entries key ≤ entries.length := rankIn_le_length _ _
    have found : entries[rankIn Prod.fst entries key - 1]? =
        some entries[rankIn Prod.fst entries key - 1] :=
      getElem?_eq_getElem (by omega)
    have keyFound : (entries.map Prod.fst)[rankIn Prod.fst entries key - 1]? =
        some entries[rankIn Prod.fst entries key - 1].1 := by
      rw [getElem?_map, found]
      rfl
    have smaller := (rising.lt_rankIn_iff found).mp (Nat.sub_one_lt first)
    rw [if_pos first, isLeaf.read_eq keyFound]
    simp only [assert_eq (decide_eq_true smaller)]

end Leaf

/-! ## Inner nodes -/

theorem setKey_eq (inside : index < node.keys.size) :
    node.setKey index key = .ok { node with
      keys := ⟨node.keys.size, update node.keys.cells index key⟩ } := by
  rw [setKey, Buffer.write_eq inside]
  rfl

theorem setChild_eq (inside : index < node.children.size) (child : Ptr) :
    node.setChild index child = .ok { node with
      children := ⟨node.children.size, update node.children.cells index child⟩ } := by
  rw [setChild, Buffer.write_eq inside]
  rfl

section Inner

variable [Inhabited K] [Inhabited V] {keys : List K} {kids : List Ptr}

theorem isInner_new (policy : SplitPolicy size) :
    IsInner size (new size false : BLinkNode K V) [] [] nullptr where
  nodeSize_eq := rfl
  keysSize := rfl
  itemCnt_eq := rfl
  fits := Nat.zero_lt_of_lt (policy.room 0 policy.safe_zero)
  keys_eq := rfl
  kind := rfl
  childrenSize := rfl
  kids_le := Nat.zero_le _
  kids_eq := rfl
  sibling_eq := rfl

theorem innerPlace_root (policy : SplitPolicy size) (address : Ptr)
    (isInner : IsInner size node [] [] sibling) (leftKey : K) (leftNode rightNode : Ptr) :
    ∃ placed, node.innerPlace policy address leftKey leftNode rightNode 0 = .ok (placed, none) ∧
      IsInner size placed [leftKey] [leftNode, rightNode] sibling := by
  have room : 0 + 1 < size := policy.room 0 policy.safe_zero
  have count : node.itemCnt = 0 := isInner.itemCnt_eq
  have keysSize := isInner.keysSize
  have childrenSize := isInner.childrenSize
  rw [innerPlace, count, if_pos policy.safe_zero, Buffer.shiftUp_eq le_rfl (by
    simp only [branches]
    omega)]
  simp only [bind, Except.bind, withBranches, branches, Nat.sub_self, copy_zero, if_true]
  rw [setChild_eq (by simp only; omega)]
  simp only
  rw [setKey_eq (by simp only; omega)]
  simp only
  rw [setChild_eq (by simp only; omega)]
  refine ⟨_, rfl, ⟨isInner.nodeSize_eq, keysSize, rfl, room, ?_⟩, isInner.kind, childrenSize,
    Nat.le_refl _, ?_, isInner.sibling_eq⟩
  · simp [tabulate]
  · simp [tabulate, range_succ]

theorem IsInner.innerPlace_safe (policy : SplitPolicy size) (address : Ptr)
    (isInner : IsInner size node keys kids sibling) (nonempty : keys ≠ [])
    (safe : policy.safe keys.length = true) (bounded : index ≤ keys.length)
    (behind : index + 1 ≤ kids.length) (leftKey : K) (leftNode rightNode : Ptr) :
    ∃ placed, node.innerPlace policy address leftKey leftNode rightNode index = .ok (placed, none) ∧
      IsInner size placed (insertAt keys index leftKey) (insertAt kids (index + 1) rightNode)
        sibling := by
  have room := policy.room _ safe
  have positive := length_pos_of_ne_nil nonempty
  have kidsLe := isInner.kids_le
  have keysSize := isInner.keysSize
  have childrenSize := isInner.childrenSize
  rw [innerPlace, isInner.itemCnt_eq, if_pos safe, Buffer.shiftUp_eq bounded (by
    simp only [branches]
    omega)]
  simp only [bind, Except.bind, withBranches, branches, if_neg (Nat.ne_of_gt positive)]
  rw [setKey_eq (by simp only; omega)]
  simp only
  rw [setChild_eq (by simp only; omega)]
  refine ⟨_, rfl, ⟨isInner.nodeSize_eq, keysSize, (length_insertAt _ _ _).symm, ?_, ?_⟩,
    isInner.kind, childrenSize, ?_, ?_, isInner.sibling_eq⟩
  · rwa [length_insertAt]
  · rw [length_insertAt]
    exact tabulate_inserted isInner.keys_eq bounded (by omega) leftKey
  · rw [length_insertAt, length_insertAt]
    omega
  · rw [length_insertAt]
    exact tabulate_inserted isInner.kids_eq behind (by omega) rightNode

theorem IsInner.sizes (isInner : IsInner size node keys kids sibling) :
    keys.length < size ∧ kids.length ≤ keys.length + 1 ∧ node.keys.size = size ∧
      node.children.size = size + 1 ∧ node.nodeSize = size ∧
      (node.newSibling false).keys.size = size ∧
      (node.newSibling false).children.size = size + 1 :=
  ⟨isInner.fits, isInner.kids_le, isInner.keysSize, isInner.childrenSize, isInner.nodeSize_eq,
    isInner.nodeSize_eq, congrArg (· + 1) isInner.nodeSize_eq⟩

theorem IsInner.innerSplitLow_eq (isInner : IsInner size node keys kids sibling)
    (nonempty : keys ≠ []) (low : index ≤ keys.length / 2) (kids_ge : keys.length ≤ kids.length)
    (leftKey : K) (rightNode : Ptr) :
    ∃ left right, node.innerSplitLow (node.newSibling false) leftKey rightNode index =
        .ok (left, right) ∧
      InnerHalves size (insertAt keys index leftKey) (insertAt kids (index + 1) rightNode)
        (keys.length / 2 + 1) sibling sibling left right := by
  have positive := length_pos_of_ne_nil nonempty
  obtain ⟨fits, kidsLe, keysSize, childrenSize, nodeSizeEq, newKeys, newChildren⟩ := isInner.sizes
  unfold InnerHalves
  rw [take_insertAt_of_le _ low (by omega), drop_insertAt_of_le _ low (by omega)]
  simp only [innerSplitLow, isInner.itemCnt_eq]
  rw [Buffer.copyRange_eq (by simp only [branches]; omega) (by simp only [branches]; omega)]
  simp only [bind, Except.bind]
  rw [Buffer.read_eq (by omega)]
  simp only [withBranches, branches]
  rw [setChild_eq (by simp only; omega)]
  simp only [Nat.add_zero, update_copy_range _ _ (Nat.div_le_self keys.length 2)]
  rw [assert_eq (decide_eq_true (by omega)), Buffer.shiftUp_eq low (by simp only; omega)]
  simp only
  rw [setKey_eq (by simp only; omega)]
  simp only
  have leftLength : (insertAt (keys.take (keys.length / 2)) index leftKey).length =
      keys.length / 2 + 1 := by
    rw [length_insertAt, length_take, Nat.min_eq_left (by omega)]
  have leftKeys : tabulate (insertAt (keys.take (keys.length / 2)) index leftKey).length
      (update (copy node.keys.cells node.keys.cells (index + 1) index
        (keys.length / 2 - index)) index leftKey) =
      insertAt (keys.take (keys.length / 2)) index leftKey := by
    rw [leftLength]
    exact tabulate_shifted isInner.keys_eq low (by omega) (by omega) leftKey
  have rightKeys (target : Nat → K) : tabulate (keys.drop (keys.length / 2)).length
      (copy target node.keys.cells 0 (keys.length / 2) (keys.length - keys.length / 2)) =
      keys.drop (keys.length / 2) := by
    rw [length_drop]
    exact tabulate_moved isInner.keys_eq (by omega) fun pos inside => copy_of_lt inside
  have rightFits : (keys.drop (keys.length / 2)).length < size := by
    rw [length_drop]
    omega
  by_cases inner : index < keys.length / 2
  · rw [if_pos inner, setChild_eq (by simp only; omega), take_insertAt_of_le _ inner (by omega),
      drop_insertAt_of_le _ inner (by omega)]
    refine ⟨_, _, rfl, ⟨⟨nodeSizeEq, keysSize, leftLength.symm, by omega, leftKeys⟩, isInner.kind,
      childrenSize, ?_, ?_, isInner.sibling_eq⟩, ⟨nodeSizeEq, newKeys, length_drop.symm,
      rightFits, rightKeys _⟩, rfl, newChildren, ?_, ?_, isInner.sibling_eq⟩
    · rw [leftLength, length_insertAt, length_take]
      omega
    · rw [length_insertAt, length_take, Nat.min_eq_left (by omega)]
      exact tabulate_shifted isInner.kids_eq inner (by omega) (by omega) rightNode
    · rw [length_drop, length_drop]
      omega
    · rw [length_drop]
      exact tabulate_moved isInner.kids_eq (by omega) fun pos inside => copy_of_lt (by omega)
  · -- the separator is the last key of the left node, and the child goes to the right node
    obtain rfl : index = keys.length / 2 := by omega
    rw [if_neg inner, setChild_eq (by simp only; omega),
      take_insertAt_of_ge _ le_rfl (by omega),
      drop_insertAt_of_ge _ le_rfl (by omega)]
    refine ⟨_, _, rfl, ⟨⟨nodeSizeEq, keysSize, leftLength.symm, by omega, leftKeys⟩, isInner.kind,
      childrenSize, ?_, ?_, isInner.sibling_eq⟩, ⟨nodeSizeEq, newKeys, length_drop.symm,
      rightFits, rightKeys _⟩, rfl, newChildren, ?_, ?_, isInner.sibling_eq⟩
    · rw [leftLength, length_take]
      omega
    · simp only [Nat.sub_self, copy_zero]
      rw [length_take, Nat.min_eq_left (by omega)]
      conv_rhs => rw [← isInner.kids_eq, take_tabulate _ (by omega)]
    · rw [length_drop, Nat.sub_self, length_insertAt, length_drop]
      omega
    · have size : kids.length - (keys.length / 2 + 1) + 1 =
        kids.length - keys.length / 2 := by omega
      rw [Nat.sub_self, length_insertAt, length_drop, size]
      exact tabulate_replaced isInner.kids_eq (by omega) (by omega) _ rightNode

theorem IsInner.innerSplitHigh_eq (isInner : IsInner size node keys kids sibling)
    (high : keys.length / 2 < index) (bounded : index ≤ keys.length)
    (behind : index + 1 ≤ kids.length) (leftKey : K) (rightNode : Ptr) :
    ∃ left right, node.innerSplitHigh (node.newSibling false) leftKey rightNode index =
        .ok (left, right) ∧
      InnerHalves size (insertAt keys index leftKey) (insertAt kids (index + 1) rightNode)
        (keys.length / 2 + 1) sibling sibling left right := by
  obtain ⟨fits, kidsLe, keysSize, childrenSize, nodeSizeEq, newKeys, newChildren⟩ := isInner.sizes
  have ordered : keys.length / 2 + 1 ≤ index := high
  have positive : 0 < keys.length / 2 + 1 := Nat.succ_pos _
  unfold InnerHalves
  rw [take_insertAt_of_ge _ ordered bounded, drop_insertAt_of_ge _ ordered bounded,
    take_insertAt_of_ge _ (Nat.le_succ_of_le ordered) behind,
    drop_insertAt_of_ge _ (Nat.le_succ_of_le ordered) behind]
  simp only [innerSplitHigh, isInner.itemCnt_eq]
  generalize keys.length / 2 + 1 = mid at *
  rw [Buffer.copyRange_eq (by simp only [branches]; omega) (by simp only [branches]; omega)]
  simp only [bind, Except.bind]
  rw [Buffer.read_eq (by omega)]
  simp only [withBranches, branches]
  rw [setChild_eq (by simp only; omega)]
  simp only [Nat.add_zero, update_copy_range _ _ ordered]
  rw [setKey_eq (by simp only; omega)]
  simp only
  rw [setChild_eq (by simp only; omega)]
  simp only
  rw [Buffer.copyRange_eq (by simp only; omega) (by simp only; omega)]
  simp only
  rw [assert_eq (decide_eq_true (by omega))]
  refine ⟨_, _, rfl, ⟨⟨nodeSizeEq, keysSize, ?_, ?_, ?_⟩, isInner.kind,
    childrenSize, ?_, ?_, isInner.sibling_eq⟩, ⟨nodeSizeEq, newKeys, ?_, ?_, ?_⟩,
    rfl, newChildren, ?_, ?_, isInner.sibling_eq⟩
  · rw [length_take, Nat.min_eq_left (by omega)]
  · rw [length_take]
    omega
  · rw [length_take, Nat.min_eq_left (by omega)]
    conv_rhs => rw [← isInner.keys_eq, take_tabulate _ (by omega)]
  · rw [length_take, length_take]
    omega
  · rw [length_take, Nat.min_eq_left (by omega)]
    conv_rhs => rw [← isInner.kids_eq, take_tabulate _ (by omega)]
  · rw [length_insertAt, length_drop]
  · rw [length_insertAt, length_drop]
    omega
  · rw [length_insertAt, length_drop]
    exact tabulate_spliced isInner.keys_eq ordered bounded (by omega) _ leftKey
  · rw [length_insertAt, length_insertAt, length_drop, length_drop]
    omega
  · rw [length_insertAt, length_drop]
    rw [← Nat.sub_add_comm ordered]
    exact tabulate_spliced isInner.kids_eq (Nat.le_succ_of_le ordered) behind (by omega) _ rightNode

theorem IsInner.innerPlace_split (policy : SplitPolicy size) (address : Ptr)
    (isInner : IsInner size node keys kids sibling) (full : ¬policy.safe keys.length = true)
    (bounded : index ≤ keys.length) (kids_ge : keys.length ≤ kids.length)
    (behind : index + 1 ≤ kids.length) (leftKey : K) (leftNode rightNode : Ptr) :
    ∃ left right, node.innerPlace policy address leftKey leftNode rightNode index =
        .ok (left, some right) ∧
      InnerHalves size (insertAt keys index leftKey) (insertAt kids (index + 1) rightNode)
        (keys.length / 2 + 1) address sibling left right := by
  have nonempty : keys ≠ [] := by
    rintro rfl
    exact full policy.safe_zero
  obtain ⟨left, right, splitEq, isLeft, isRight⟩ : ∃ left right,
      node.innerSplit (node.newSibling false) leftKey rightNode index = .ok (left, right) ∧
      InnerHalves size (insertAt keys index leftKey) (insertAt kids (index + 1) rightNode)
        (keys.length / 2 + 1) sibling sibling left right := by
    rw [innerSplit, isInner.itemCnt_eq]
    by_cases low : index ≤ keys.length / 2
    · rw [if_pos low]
      exact isInner.innerSplitLow_eq nonempty low kids_ge leftKey rightNode
    · rw [if_neg low]
      exact isInner.innerSplitHigh_eq (not_le.mp low) bounded behind leftKey rightNode
  have leftCount : 0 < left.itemCnt := by
    rw [isLeft.itemCnt_eq, length_take, length_insertAt]
    omega
  rw [innerPlace, isInner.itemCnt_eq, if_neg full, splitEq]
  simp only [ok_bind, assert_eq (decide_eq_true leftCount)]
  exact ⟨_, right, rfl, { isLeft with sibling_eq := rfl }, isRight⟩

end Inner

end BLinkNode

end IndexResearch.BLinkTree
