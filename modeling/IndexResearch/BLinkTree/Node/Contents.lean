import IndexResearch.BLinkTree.Tree

/-!
# What a node of the B-link tree holds

A node read as lists: the entries of a leaf, or the separators and children of an inner
node.  A scan of the keys finds the rank of a key.
-/

namespace IndexResearch.BLinkTree

open List

section Buffer

variable {Value : Type} {buffer source : Buffer Value} {index : Nat}

theorem Buffer.read_eq (inside : index < buffer.size) :
    buffer.read index = .ok (buffer.cells index) := if_pos inside

theorem Buffer.write_eq (inside : index < buffer.size) (value : Value) :
    buffer.write index value = .ok ⟨buffer.size, Function.update buffer.cells index value⟩ :=
  if_pos inside

theorem Buffer.copyCell_eq {dst src : Nat} (readable : src < source.size)
    (writable : dst < buffer.size) :
    buffer.copyCell source dst src =
      .ok ⟨buffer.size, Function.update buffer.cells dst (source.cells src)⟩ := by
  rw [copyCell, read_eq readable]
  exact write_eq writable _

end Buffer

theorem assert_eq {condition : Bool} (holds : condition = true) : assert condition = .ok () :=
  if_pos holds

variable {K V : Type}

namespace BLinkNode

structure HoldsKeys (size : Nat) (node : BLinkNode K V) (keys : List K) : Prop where
  nodeSize_eq : node.nodeSize = size
  keysSize : node.keys.size = size
  itemCnt_eq : node.itemCnt = keys.length
  fits : keys.length < size
  keys_eq : tabulate keys.length node.keys.cells = keys

structure IsLeaf (size : Nat) (node : BLinkNode K V) (entries : List (K × V)) (sibling : Ptr) :
    Prop extends HoldsKeys size node (entries.map Prod.fst) where
  kind : node.isLeaf = true
  valuesSize : node.values.size = size
  values_eq : tabulate entries.length node.values.cells = entries.map Prod.snd
  sibling_eq : node.siblingPtr = sibling

structure IsInner (size : Nat) (node : BLinkNode K V) (keys : List K) (kids : List Ptr)
    (sibling : Ptr) : Prop extends HoldsKeys size node keys where
  kind : node.isLeaf = false
  childrenSize : node.children.size = size + 1
  kids_le : kids.length ≤ keys.length + 1
  kids_eq : tabulate kids.length node.children.cells = kids
  sibling_eq : node.siblingPtr = sibling

variable {size : Nat} {node : BLinkNode K V} {keys : List K} {index : Nat}

theorem cells_eq {Value : Type} {items : List Value} {cells : Nat → Value} {index : Nat}
    {item : Value}
    (contents : tabulate items.length cells = items) (found : items[index]? = some item) :
    cells index = item := by
  obtain ⟨inside, _⟩ := List.getElem?_eq_some_iff.mp found
  have tabulated := getElem?_tabulate cells inside
  rw [contents, found] at tabulated
  exact (Option.some.inj tabulated).symm

namespace HoldsKeys

section

variable (holds : HoldsKeys size node keys)
include holds

theorem read_eq {key : K} (found : keys[index]? = some key) : node.keys.read index = .ok key := by
  obtain ⟨inside, _⟩ := List.getElem?_eq_some_iff.mp found
  have fits := holds.fits
  rw [Buffer.read_eq (by rw [holds.keysSize]; omega), cells_eq holds.keys_eq found]

theorem key_eq {key : K} (found : keys[index]? = some key) : node.key index = .ok key := by
  obtain ⟨inside, _⟩ := List.getElem?_eq_some_iff.mp found
  rw [BLinkNode.key, assert_eq (decide_eq_true (by rw [holds.itemCnt_eq]; exact inside))]
  exact holds.read_eq found

theorem highKey_eq {key : K} (last : keys.getLast? = some key) : node.highKey = .ok key := by
  have nonempty : keys ≠ [] := by
    rintro rfl
    cases last
  have positive := length_pos_of_ne_nil nonempty
  rw [highKey, if_neg (by rw [holds.itemCnt_eq]; omega), holds.itemCnt_eq]
  rw [getLast?_eq_getElem?] at last
  exact holds.read_eq last

theorem maxKey_eq {key : K} (last : keys.getLast? = some key) : node.maxKey = .ok key := by
  have nonempty : keys ≠ [] := by
    rintro rfl
    cases last
  have positive := length_pos_of_ne_nil nonempty
  rw [maxKey, if_neg (by rw [holds.itemCnt_eq]; omega), holds.itemCnt_eq]
  rw [getLast?_eq_getElem?] at last
  exact holds.key_eq last

end

variable [LinearOrder K] {key : K}

section

variable (holds : HoldsKeys size node keys)
include holds

theorem scanLoop_eq (rising : Ascending id keys)
    {fuel low high : Nat} (ordered : low ≤ high) (inside : high < keys.length)
    (enough : high - low < fuel)
    (below : ∀ pos item, pos < low → keys[pos]? = some item → item < key)
    (above : ∀ pos item, high ≤ pos → keys[pos]? = some item → ¬item < key) :
    node.scanLoop key fuel low high = .ok (rankIn id keys key) := by
  induction fuel generalizing low high with
  | zero => exact absurd enough (Nat.not_lt_zero _)
  | succ fuel ih =>
    rw [scanLoop]
    by_cases open' : low < high
    · have midLow : low ≤ (low + high) / 2 := by omega
      have midHigh : (low + high) / 2 < high := by omega
      rw [if_pos open']
      simp only
      generalize (low + high) / 2 = mid at *
      obtain ⟨pivot, pivotEq⟩ : ∃ pivot, keys[mid]? = some pivot :=
        ⟨_, getElem?_eq_getElem (by omega)⟩
      have notBelow : ¬pivot < key → ∀ pos item, mid ≤ pos →
          keys[pos]? = some item → ¬item < key := by
        intro notSmaller pos item after found less
        rcases Nat.eq_or_lt_of_le after with rfl | later
        · rw [pivotEq] at found
          exact notSmaller (Option.some.inj found ▸ less)
        · exact notSmaller (lt_trans (rising.lt_of_getElem? later pivotEq found) less)
      simp only [holds.read_eq pivotEq, ok_bind]
      by_cases less : key < pivot
      · rw [if_pos less]
        exact ih midLow (by omega) (by omega) below (notBelow (not_lt_of_gt less))
      · rw [if_neg less]
        by_cases equal : key = pivot
        · rw [if_pos equal]
          refine congrArg Except.ok (Eq.symm (rankIn_eq_of_positions (by omega) ?_ ?_))
          · intro pos item before found
            rw [equal]
            exact rising.lt_of_getElem? before found pivotEq
          · exact notBelow (by rw [equal]; exact lt_irrefl _)
        · rw [if_neg equal]
          have greater : pivot < key := lt_of_le_of_ne (le_of_not_gt less) (Ne.symm equal)
          apply ih (by omega) inside (by omega) _ above
          intro pos item before found
          rcases Nat.lt_succ_iff_lt_or_eq.mp before with earlier | rfl
          · exact lt_trans (rising.lt_of_getElem? earlier found pivotEq) greater
          · rw [pivotEq] at found
            exact Option.some.inj found ▸ greater
    · obtain rfl : low = high := by omega
      have rank : rankIn id keys key = low :=
        rankIn_eq_of_positions (Nat.le_of_lt inside) below above
      rw [if_neg open', assert_eq (decide_eq_true rfl), rank]
      rfl

theorem nodeScan_eq (rising : Ascending id keys) (key : K) :
    node.nodeScan key = .ok (rankIn id keys key) := by
  rw [nodeScan, holds.itemCnt_eq]
  rcases eq_nil_or_concat keys with rfl | ⟨front, last, split⟩
  · rfl
  · have lastEq : keys[keys.length - 1]? = some last := by
      rw [← getLast?_eq_getElem?, split, concat_eq_append]
      exact getLast?_concat
    have positive : 0 < keys.length := by
      rw [split, length_concat]
      exact Nat.succ_pos _
    simp only [if_neg (Nat.ne_of_gt positive), holds.read_eq lastEq, ok_bind]
    have upTo : ∀ (pos : Nat) (item : K), keys[pos]? = some item → item ≤ last := by
      intro pos item found
      obtain ⟨inside, _⟩ := List.getElem?_eq_some_iff.mp found
      rcases Nat.lt_or_eq_of_le (Nat.le_sub_one_of_lt inside) with before | rfl
      · exact le_of_lt (rising.lt_of_getElem? before found lastEq)
      · rw [lastEq] at found
        exact le_of_eq (Option.some.inj found).symm
    by_cases beyond : last < key
    · rw [if_pos beyond]
      refine congrArg Except.ok (Eq.symm (rankIn_eq_of_positions le_rfl ?_ ?_))
      · exact fun pos item _ found => lt_of_le_of_lt (upTo pos item found) beyond
      · intro pos item after found
        rw [getElem?_eq_none after] at found
        cases found
    · rw [if_neg beyond]
      apply holds.scanLoop_eq rising (Nat.zero_le _) (by omega) (by omega)
      · exact fun pos item before => absurd before (Nat.not_lt_zero _)
      · intro pos item after found
        obtain ⟨inside, _⟩ := List.getElem?_eq_some_iff.mp found
        obtain rfl : pos = keys.length - 1 := by omega
        rw [lastEq] at found
        rwa [← Option.some.inj found]

theorem hasAt_eq (rising : Ascending id keys) (key : K) :
    node.hasAt (rankIn id keys key) key = .ok (findKey id keys key).isSome := by
  rw [hasAt, holds.itemCnt_eq, rising.findKey_eq_filter]
  by_cases inside : rankIn id keys key < keys.length
  · have found := getElem?_eq_getElem inside
    simp only [if_pos inside, holds.key_eq found, found, ok_bind, Option.filter_some]
    by_cases same : keys[rankIn id keys key] = key
    · simp [same, pure, Except.pure]
    · simp [same, pure, Except.pure]
  · rw [if_neg inside, getElem?_eq_none (not_lt.mp inside)]
    rfl

theorem isBefore_eq
    (stays : node.siblingPtr ≠ nullptr → ∃ last, keys.getLast? = some last ∧ ¬last < key) :
    node.isBefore key = .ok false := by
  rw [isBefore]
  by_cases alone : node.siblingPtr = nullptr
  · rw [if_pos alone]
  · obtain ⟨last, lastEq, notLess⟩ := stays alone
    rw [if_neg alone, holds.highKey_eq lastEq]
    exact congrArg Except.ok (decide_eq_false notLess)

end

end HoldsKeys

section Leaf

variable [LinearOrder K] {entries : List (K × V)} {sibling : Ptr}

theorem ascending_keys (rising : Ascending Prod.fst entries) :
    Ascending id (entries.map Prod.fst) := ascending_map.mpr rising

theorem IsLeaf.nodeScan_eq (isLeaf : IsLeaf size node entries sibling)
    (rising : Ascending Prod.fst entries) (key : K) :
    node.nodeScan key = .ok (rankIn Prod.fst entries key) := by
  rw [isLeaf.toHoldsKeys.nodeScan_eq (ascending_keys rising), rankIn_map]
  rfl

theorem IsLeaf.hasAt_eq (isLeaf : IsLeaf size node entries sibling)
    (rising : Ascending Prod.fst entries) (key : K) :
    node.hasAt (rankIn Prod.fst entries key) key =
      .ok (findKey Prod.fst entries key).isSome := by
  have found := isLeaf.toHoldsKeys.hasAt_eq (ascending_keys rising) key
  rw [rankIn_map, (ascending_keys rising).findKey_eq_filter, rankIn_map, getElem?_map]
    at found
  rw [rising.findKey_eq_filter]
  refine found.trans (congrArg Except.ok ?_)
  simp only [id]
  cases entries[rankIn Prod.fst entries key]? with
  | none => rfl
  | some entry =>
    simp only [Option.map_some, Option.filter_some]
    split <;> rfl

omit [LinearOrder K] in
theorem IsLeaf.value_eq (isLeaf : IsLeaf size node entries sibling) {entry : K × V}
    (found : entries[index]? = some entry) : node.value index = .ok entry.2 := by
  obtain ⟨inside, _⟩ := List.getElem?_eq_some_iff.mp found
  have fits := isLeaf.fits
  have count := isLeaf.itemCnt_eq
  rw [length_map] at fits count
  have valueAt : (entries.map Prod.snd)[index]? = some entry.2 := by
    rw [getElem?_map, found]
    rfl
  have contents : tabulate (entries.map Prod.snd).length node.values.cells =
      entries.map Prod.snd := by
    rw [length_map]
    exact isLeaf.values_eq
  rw [BLinkNode.value, assert_eq (decide_eq_true (by omega))]
  exact (Buffer.read_eq (by rw [isLeaf.valuesSize]; omega)).trans
    (congrArg Except.ok (cells_eq contents valueAt))

theorem IsLeaf.valueIn_eq (isLeaf : IsLeaf size node entries sibling)
    (rising : Ascending Prod.fst entries) (key : K) :
    Tree.valueIn node key = .ok ((findKey Prod.fst entries key).map Prod.snd) := by
  rw [Tree.valueIn, isLeaf.nodeScan_eq rising]
  simp only [ok_bind, isLeaf.hasAt_eq rising]
  cases found : findKey Prod.fst entries key with
  | none => rfl
  | some entry =>
    rw [rising.findKey_eq_filter, Option.filter_eq_some_iff] at found
    simp only [Option.isSome_some, if_true, isLeaf.value_eq found.1]
    rfl

end Leaf

theorem IsInner.child_eq {kids : List Ptr} {sibling child : Ptr}
    (isInner : IsInner size node keys kids sibling) (found : kids[index]? = some child)
    (inside : index < keys.length ∨ (index = keys.length ∧ sibling = nullptr)) :
    node.child index = .ok child := by
  have fits := isInner.fits
  rw [BLinkNode.child, assert_eq (by rw [isInner.kind]; rfl), assert_eq (decide_eq_true (by
    rw [isInner.itemCnt_eq, isInner.sibling_eq]
    exact inside))]
  refine (Buffer.read_eq ?_).trans (congrArg Except.ok (cells_eq isInner.kids_eq found))
  rw [isInner.childrenSize]
  omega

end BLinkNode

end IndexResearch.BLinkTree
