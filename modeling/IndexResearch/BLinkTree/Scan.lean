import IndexResearch.BLinkTree.Insertion
import IndexResearch.OrderedMap
import Mathlib.Data.List.TakeWhile

/-!
# Updates and scans

A scan starts at the leaf of its first key and follows the chain of the leaves.  What it
appends is a stretch of the list of all entries.
-/

namespace IndexResearch.BLinkTree

open LinkedLevels List

variable {K V : Type}

/-! ## A leaf -/

namespace BLinkNode.IsLeaf

variable {size : Nat} {node : BLinkNode K V} {entries : List (K × V)} {sibling : Ptr} {index : Nat}

section

variable (isLeaf : IsLeaf size node entries sibling)
include isLeaf

theorem setValue_eq {entry : K × V} (found : entries[index]? = some entry) (value : V) :
    ∃ updated, node.setValue index value = .ok updated ∧
      IsLeaf size updated (entries.set index (entry.1, value)) sibling := by
  obtain ⟨inside, here⟩ := List.getElem?_eq_some_iff.mp found
  have count : node.itemCnt = entries.length := by rw [isLeaf.itemCnt_eq, length_map]
  have fits : entries.length < size := by
    have fits := isLeaf.fits
    rwa [length_map] at fits
  have sameKeys : (entries.set index (entry.1, value)).map Prod.fst = entries.map Prod.fst := by
    have bounded : index < (entries.map Prod.fst).length := by rwa [length_map]
    have keyAt : (entries.map Prod.fst)[index] = entry.1 := by rw [getElem_map, here]
    rw [map_set, ← keyAt, set_getElem_self]
  rw [setValue, assert_eq (decide_eq_true (by omega))]
  simp only [ok_bind]
  rw [Buffer.write_eq (by rw [isLeaf.valuesSize]; omega)]
  refine ⟨_, rfl, ⟨isLeaf.nodeSize_eq, isLeaf.keysSize, ?_, ?_, ?_⟩, isLeaf.kind, isLeaf.valuesSize,
    ?_, isLeaf.sibling_eq⟩
  · rw [sameKeys]
    exact isLeaf.itemCnt_eq
  · rw [sameKeys]
    exact isLeaf.fits
  · rw [sameKeys]
    exact isLeaf.keys_eq
  · simp only
    rw [length_set, tabulate_update, isLeaf.values_eq, map_set]

theorem entryAt_eq {entry : K × V} (found : entries[index]? = some entry) :
    node.key index = .ok entry.1 ∧ node.value index = .ok entry.2 := by
  refine ⟨isLeaf.toHoldsKeys.key_eq ?_, isLeaf.value_eq found⟩
  rw [getElem?_map, found]
  rfl

theorem takeEntries_eq {scanSz count scanned : Nat}
    (counted : index + count = entries.length) (short : scanned < scanSz) (found : List (K × V)) :
    Tree.takeEntries node scanSz count index scanned found =
      .ok (scanned + min count (scanSz - scanned),
        found ++ (entries.drop index).take (scanSz - scanned)) := by
  induction count generalizing index scanned found with
  | zero =>
    have none : entries.drop index = [] := drop_eq_nil_of_le (Nat.le_of_eq counted.symm)
    rw [Tree.takeEntries, none, take_nil, append_nil, Nat.zero_min, Nat.add_zero]
  | succ count ih =>
    have inside : index < entries.length := by omega
    obtain ⟨keyAt, valueAt⟩ := isLeaf.entryAt_eq (getElem?_eq_getElem inside)
    rw [Tree.takeEntries, keyAt, drop_eq_getElem_cons inside]
    simp only [ok_bind, valueAt]
    split
    · rename_i enough
      have one : scanSz - scanned = 1 := by omega
      rw [one]
      refine congrArg Except.ok (Prod.ext ?_ rfl)
      show scanned + 1 = scanned + min (count + 1) 1
      omega
    · rename_i more
      have rest : scanSz - scanned = scanSz - (scanned + 1) + 1 := by omega
      rw [ih (by omega) (by omega), rest, take_succ_cons, append_assoc]
      refine congrArg Except.ok (Prod.ext ?_ rfl)
      simp only
      omega

end

variable [LinearOrder K]

/-- A scan takes the entries from `index` on until it meets a key that is not less than
`rightKey`. -/
theorem takeBelow_eq (isLeaf : IsLeaf size node entries sibling) (rightKey : K) {count : Nat}
    (counted : index + count = entries.length) (found : List (K × V)) :
    Tree.takeBelow node rightKey count index found =
      .ok (!(entries.drop index).all fun entry => decide (entry.1 < rightKey),
        found ++ (entries.drop index).takeWhile fun entry => decide (entry.1 < rightKey)) := by
  induction count generalizing index found with
  | zero =>
    have none : entries.drop index = [] := drop_eq_nil_of_le (Nat.le_of_eq counted.symm)
    rw [Tree.takeBelow, none, takeWhile_nil, append_nil, all_nil, Bool.not_true]
  | succ count ih =>
    have inside : index < entries.length := by omega
    obtain ⟨keyAt, valueAt⟩ := isLeaf.entryAt_eq (getElem?_eq_getElem inside)
    rw [Tree.takeBelow, keyAt, drop_eq_getElem_cons inside]
    simp only [ok_bind, valueAt]
    split
    · rename_i stops
      simp only [all_cons, takeWhile_cons, not_lt_of_ge stops, decide_false,
        Bool.false_and, Bool.not_false, Bool.false_eq_true, if_false, append_nil]
      rfl
    · rename_i goesOn
      rw [ih (by omega)]
      simp only [all_cons, takeWhile_cons, lt_of_not_ge goesOn, decide_true,
        Bool.true_and, if_true, append_assoc, singleton_append]

end BLinkNode.IsLeaf

/-! ## The chain of the leaves -/

namespace Tree

variable {size : Nat} {tree : Tree K V} {leaf : Leaf K V} {back : List (Leaf K V)}

theorem leaf_link {node : BLinkNode K V} (linked : Linked Leaf.id Leaf.link none (leaf :: back))
    (embodies : node.Embodies size leaf) :
    (back = [] ∧ node.siblingPtr = nullptr) ∨
      ∃ next rest, back = next :: rest ∧ node.siblingPtr = next.id ∧ node.siblingPtr ≠ nullptr := by
  have link := linked.1
  have pointer := embodies.sibling_eq
  cases back with
  | nil =>
    left
    rw [link] at pointer
    exact ⟨rfl, pointer⟩
  | cons next rest =>
    right
    have link : leaf.link = some next.id := link
    have notNull := embodies.link_ne
    rw [link] at pointer notNull
    refine ⟨next, rest, rfl, pointer, ?_⟩
    rw [pointer]
    exact fun null => notNull (congrArg some null)

section Chain

variable {index fuel : Nat} (linked : Linked Leaf.id Leaf.link none (leaf :: back))
  (stored : ∀ other ∈ leaf :: back, ∃ node, tree.nodes other.id = some node ∧
    node.Embodies size other)
  (enough : back.length < fuel) (inside : index ≤ leaf.entries.length)
include linked stored enough inside

theorem scanFixedFrom_eq {scanSz scanned : Nat} (found : List (K × V)) :
    tree.scanFixedFrom scanSz fuel leaf.id index scanned found =
      .ok (found ++ (leaf.entries.drop index ++ back.flatMap Leaf.entries).take
        (scanSz - scanned)) := by
  induction fuel generalizing leaf back index scanned found with
  | zero => exact absurd enough (Nat.not_lt_zero _)
  | succ fuel ih =>
    rw [scanFixedFrom]
    split
    · rename_i short
      obtain ⟨node, here, embodies⟩ := stored leaf mem_cons_self
      have count : index + (node.itemCnt - index) = leaf.entries.length := by
        rw [embodies.itemCnt_eq, length_map]
        omega
      have length : (leaf.entries.drop index).length = node.itemCnt - index := by
        rw [length_drop]
        omega
      rw [nodeAt_eq here]
      simp only [ok_bind, embodies.toIsLeaf.takeEntries_eq count short]
      split
      · rename_i full
        rw [take_append_of_le_length (by omega)]
        rfl
      · rename_i more
        rw [take_append, length]
        rcases leaf_link linked embodies with ⟨rfl, null⟩ | ⟨next, rest, rfl, pointer, notNull⟩
        · rw [if_pos null, flatMap_nil, take_nil, append_nil]
          rfl
        · rw [if_neg notNull, pointer, ih linked.2
            (fun other listed => stored other (mem_cons_of_mem _ listed))
            (Nat.lt_of_succ_lt_succ enough) (Nat.zero_le _), drop_zero, append_assoc,
            flatMap_cons]
          congr 4
          omega
    · rename_i full
      rw [Nat.sub_eq_zero_of_le (not_lt.mp full), take_zero, append_nil]

theorem scanRangeFrom_eq [LinearOrder K] (rightKey : K) (found : List (K × V)) :
    tree.scanRangeFrom rightKey fuel leaf.id index found =
      .ok (found ++ (leaf.entries.drop index ++ back.flatMap Leaf.entries).takeWhile
        fun entry => decide (entry.1 < rightKey)) := by
  induction fuel generalizing leaf back index found with
  | zero => exact absurd enough (Nat.not_lt_zero _)
  | succ fuel ih =>
    obtain ⟨node, here, embodies⟩ := stored leaf mem_cons_self
    have count : index + (node.itemCnt - index) = leaf.entries.length := by
      rw [embodies.itemCnt_eq, length_map]
      omega
    rw [scanRangeFrom, nodeAt_eq here]
    simp only [ok_bind, embodies.toIsLeaf.takeBelow_eq rightKey count]
    split
    · rename_i stopped
      rw [Bool.not_eq_true', all_eq_false] at stopped
      rw [takeWhile_append, if_neg ?_]
      · rfl
      · intro whole
        obtain ⟨entry, listed, fails⟩ := stopped
        have same := (List.takeWhile_prefix _).eq_of_length whole
        exact fails (takeWhile_eq_self_iff.mp same entry listed)
    · rename_i goesOn
      rw [Bool.not_eq_true, Bool.not_eq_false'] at goesOn
      have all := all_eq_true.mp goesOn
      rw [takeWhile_append_of_pos all, takeWhile_eq_self_iff.mpr all]
      rcases leaf_link linked embodies with ⟨rfl, null⟩ | ⟨next, rest, rfl, pointer, notNull⟩
      · rw [if_pos null, flatMap_nil, takeWhile_nil, append_nil]
        rfl
      · rw [if_neg notNull, pointer, ih linked.2
          (fun other listed => stored other (mem_cons_of_mem _ listed))
          (Nat.lt_of_succ_lt_succ enough) (Nat.zero_le _), drop_zero,
          append_assoc, flatMap_cons]

end Chain

variable [LinearOrder K]

namespace Represents

variable {params : Parameters} {leaves front : List (Leaf K V)}
  {rows : List (List (Branch (WithTop K) Ptr))} {key : K}

/-! ## Updates -/

theorem update_eq (represents : tree.Represents params leaves rows) (key : K) (value : V) :
    ∃ tree' leaves',
      tree.update key value =
        .ok ((findKey Prod.fst (leaves.flatMap Leaf.entries) key).isSome, tree') ∧
      tree'.Represents params leaves' rows ∧
      leaves'.flatMap Leaf.entries =
        replace Prod.fst (leaves.flatMap Leaf.entries) (key, value) := by
  obtain ⟨front, leaf, back, located⟩ := represents.exists_located key
  obtain ⟨node, found, embodies, _⟩ := represents.leafNode located
  have rising := represents.entries_ascending located
  have sameFind := represents.findKey_eq located
  rw [update, represents.leafOf_eq located, sameFind]
  simp only [ok_bind, nodeAt_eq found, embodies.toIsLeaf.nodeScan_eq rising,
    embodies.toIsLeaf.hasAt_eq rising]
  cases here : findKey Prod.fst leaf.entries key with
  | none =>
    refine ⟨tree, leaves, rfl, represents, ?_⟩
    rw [replace_of_absent (findKey_eq_none.mp (sameFind.trans here))]
  | some entry =>
    have atRank := here
    rw [rising.findKey_eq_filter, Option.filter_eq_some_iff] at atRank
    obtain ⟨listed, sameKey⟩ := atRank
    have sameKey : entry.1 = key := of_decide_eq_true sameKey
    obtain ⟨updated, updates, isUpdated⟩ := embodies.toIsLeaf.setValue_eq listed value
    rw [sameKey, ← rising.replace_eq_set listed sameKey] at isUpdated
    have whole : replace Prod.fst (leaves.flatMap Leaf.entries) (key, value) =
        front.flatMap Leaf.entries ++
          (replace Prod.fst leaf.entries (key, value) ++ back.flatMap Leaf.entries) := by
      rw [located.entries_eq]
      exact replace_between (represents.smaller_entries located) (represents.larger_entries located)
    simp only [Option.isSome_some, if_true, updates]
    refine ⟨_, front ++ ⟨leaf.id, replace Prod.fst leaf.entries (key, value), leaf.link⟩ :: back,
      rfl, ?_, ?_⟩
    · refine represents.exchange_leaf located rfl rfl (Leaf.bound_congr rfl ?_) ?_ ?_
      · intro _
        rw [← getLast?_map, ← getLast?_map, map_replace]
      · refine ⟨isUpdated, embodies.link_ne, fun linked => ne_nil_of_length_pos ?_⟩
        rw [length_replace]
        exact length_pos_of_ne_nil (embodies.filled linked)
      · rw [← whole]
        exact represents.ascending.replace
    · rw [flatMap_append, flatMap_cons, whole]

/-! ## Scans -/

section Located

variable (represents : tree.Represents params leaves rows)
  (located : Located leaves front leaf back key)
include represents located

theorem linked_from : Linked Leaf.id Leaf.link none (leaf :: back) := by
  have linked := represents.linked
  rw [located.leaves_eq, linked_append] at linked
  exact linked.2

theorem stored_from : ∀ other ∈ leaf :: back, ∃ node, tree.nodes other.id = some node ∧
    node.Embodies params.leafNodeSize other := by
  intro other listed
  apply represents.leafStored
  rw [located.leaves_eq]
  exact mem_append_right _ listed

theorem length_back_lt : back.length < tree.fresh := by
  have counted := represents.count_lt
  rw [located.leaves_eq, length_append, length_cons] at counted
  omega

theorem drop_entries :
    (leaves.flatMap Leaf.entries).drop (rankIn Prod.fst (leaves.flatMap Leaf.entries) key) =
      leaf.entries.drop (rankIn Prod.fst leaf.entries key) ++ back.flatMap Leaf.entries := by
  have none : rankIn Prod.fst (back.flatMap Leaf.entries) key = 0 :=
    rankIn_eq_zero fun entry listed => not_lt_of_gt (represents.larger_entries located entry listed)
  have bounded : rankIn Prod.fst leaf.entries key ≤ leaf.entries.length := rankIn_le_length _ _
  rw [located.entries_eq, rankIn_append, rankIn_append, none, Nat.add_zero,
    rankIn_eq_length (represents.smaller_entries located), drop_length_add_append,
    drop_append_of_le_length bounded]

theorem rank_eq_length_iff :
    rankIn Prod.fst leaf.entries key = leaf.entries.length ↔
      leaf.entries.drop (rankIn Prod.fst leaf.entries key) ++ back.flatMap Leaf.entries = [] := by
  have bounded : rankIn Prod.fst leaf.entries key ≤ leaf.entries.length := rankIn_le_length _ _
  rw [append_eq_nil_iff, drop_eq_nil_iff]
  constructor
  · intro whole
    refine ⟨Nat.le_of_eq whole.symm, ?_⟩
    have unlinked : leaf.link = none := by
      by_contra linked
      exact absurd whole (Nat.ne_of_lt (represents.rank_lt located linked))
    have chain := represents.linked
    rw [located.leaves_eq] at chain
    rw [chain.link_eq_none.mp unlinked, flatMap_nil]
  · exact fun ⟨whole, _⟩ => Nat.le_antisymm bounded whole

end Located

variable {map : OrderedMap K V}

theorem scanFixed_eq (represents : tree.Represents params leaves rows)
    (entries_eq : leaves.flatMap Leaf.entries = map.entries) (leftKey : K) (scanSz : Nat)
    (kvPairs : List (K × V)) :
    tree.scanFixed leftKey scanSz kvPairs = .ok (!(map.entriesFrom leftKey).isEmpty,
      kvPairs ++ (map.entriesFrom leftKey).take scanSz) := by
  obtain ⟨front, leaf, back, located⟩ := represents.exists_located leftKey
  obtain ⟨node, found, embodies, _⟩ := represents.leafNode located
  have bounded : rankIn Prod.fst leaf.entries leftKey ≤ leaf.entries.length := rankIn_le_length _ _
  rw [scanFixed, represents.leafOf_eq located, map.entriesFrom_eq, ← entries_eq,
    represents.drop_entries located]
  simp only [ok_bind, nodeAt_eq found,
    embodies.toIsLeaf.nodeScan_eq (represents.entries_ascending located), embodies.itemCnt_eq,
    length_map]
  split
  · rename_i whole
    rw [(represents.rank_eq_length_iff located).mp whole, take_nil, append_nil]
    rfl
  · rename_i more
    have nonempty := (represents.rank_eq_length_iff located).not.mp more
    rw [scanFixedFrom_eq (represents.linked_from located) (represents.stored_from located)
      (represents.length_back_lt located) bounded, isEmpty_eq_false_iff.mpr nonempty]
    rfl

theorem scanRange_eq (represents : tree.Represents params leaves rows)
    (entries_eq : leaves.flatMap Leaf.entries = map.entries) (leftKey rightKey : K)
    (kvPairs : List (K × V)) :
    tree.scanRange leftKey rightKey kvPairs = .ok (!(map.entriesFrom leftKey).isEmpty,
      kvPairs ++ map.entriesBetween leftKey rightKey) := by
  obtain ⟨front, leaf, back, located⟩ := represents.exists_located leftKey
  obtain ⟨node, found, embodies, _⟩ := represents.leafNode located
  have bounded : rankIn Prod.fst leaf.entries leftKey ≤ leaf.entries.length := rankIn_le_length _ _
  rw [scanRange, represents.leafOf_eq located, map.entriesBetween_eq, map.entriesFrom_eq,
    ← entries_eq, represents.drop_entries located]
  simp only [ok_bind, nodeAt_eq found,
    embodies.toIsLeaf.nodeScan_eq (represents.entries_ascending located), embodies.itemCnt_eq,
    length_map]
  split
  · rename_i whole
    rw [(represents.rank_eq_length_iff located).mp whole, takeWhile_nil, append_nil]
    rfl
  · rename_i more
    have nonempty := (represents.rank_eq_length_iff located).not.mp more
    rw [scanRangeFrom_eq (represents.linked_from located) (represents.stored_from located)
      (represents.length_back_lt located) bounded rightKey, isEmpty_eq_false_iff.mpr nonempty]
    rfl

end Represents

end Tree

end IndexResearch.BLinkTree
