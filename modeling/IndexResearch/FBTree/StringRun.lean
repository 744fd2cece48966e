import IndexResearch.FBTree.IntegerRemoval
import IndexResearch.FBTree.Session
import IndexResearch.FBTree.StringTree

/-!
# Runs of the tree with string keys
-/

namespace IndexResearch.FBTree

open ByteString StringNode List

variable {V : Type} {keys : Set ByteString}

/-! ## Sets of keys -/

/-- Strings without zero bytes, short enough for `tiny_`. -/
def textKeys : Set ByteString := {key | 0 < key.len ∧ key.len ≤ kEmbedPrSize ∧ 0 ∉ key.bytes}

instance : DecidablePred (· ∈ textKeys) := fun key =>
  inferInstanceAs (Decidable (0 < key.len ∧ key.len ≤ kEmbedPrSize ∧ 0 ∉ key.bytes))

theorem searchable_textKeys : Searchable textKeys where
  nonempty _ listed := listed.1
  unpadded key _ other listed isPrefix := by
    apply listed.2.2
    exact isPrefix.subset (mem_append_right _ (mem_singleton_self _))
  uniform _ _ _ listed _ := listed.2.1

/-! ## Calls and scans -/

def blankMemory : Memory kLeafSize ByteString Anchor V (StringNode kInnerSize) where
  inner _ := blank
  leaf _ := ⟨.new true, 0#64, ⟨nullptr, ⟨[]⟩⟩, nullptr, fun _ => 0, fun _ => none⟩
  track _ := nullptr

def wordKey (number : Nat) : ByteString := ⟨[97, 98, BitVec.ofNat 8 number]⟩

/-- Four leaves are built from above, and the first two of them are thinned. -/
@[irreducible] def thinningCalls : List (Operation ByteString Unit) :=
  ((List.range 129).reverse.map fun number => .upsert ⟨number, wordKey (number + 1), ()⟩) ++
    (List.range 32).map fun number => .remove (wordKey (number + 1))

def mergingCalls : List (Operation ByteString Unit) := thinningCalls ++ [.remove (wordKey 33)]

/-- The removal of the next key retires a high key and leaves a node with two separators. -/
def merging (levels : Levels ByteString Anchor Unit) : Bool :=
  (levels.leafOf Anchor.text (wordKey 33)).any (fun (_, leaf, after) =>
      (leaf.view.remove kLeafSize (after.head?.map LeafCell.view) (wordKey 33)).2.2.isSome) &&
    (levels.remove Anchor.text kLeafSize kInnerSize (wordKey 33)).any fun outcome =>
      outcome.2.inner.any fun level => level.any fun node =>
        decide (node.view.seps.map Anchor.text = [wordKey 65, wordKey 97])

theorem mergingCalls_within : ∀ operation ∈ mergingCalls, operation.key ∈ textKeys := by
  have within : mergingCalls.all (fun operation => decide (operation.key ∈ textKeys)) = true := by
    decide +kernel
  exact fun operation listed => of_decide_eq_true (all_eq_true.mp within operation listed)

set_option maxRecDepth 100000 in
theorem quickRun_merging : (Levels.empty.quickRun (stringOps kInnerSize fun _ => 0).toKeyOps
    kLeafSize kInnerSize thinningCalls).toOption.any merging = true := by
  decide +kernel

theorem exists_run_mergingCalls :
    let ops := stringOps kInnerSize fun _ => 0
    ∃ answers tree height ptr node, (Tree.empty ops blankMemory).run ops blankMemory mergingCalls =
        .ok (answers, tree) ∧ tree.retiredKeys ≠ [] ∧
      tree.AtHeight (stringReading kInnerSize textKeys) height ptr ∧
      tree.nodes ptr = some (.inner node) ∧ node.knum = 2 ∧ node.plen = 2 := by
  intro ops
  obtain ⟨answers, tree, levels, ran, keeps, check⟩ := Tree.exists_run
    (stringLaws kInnerSize (fun _ => 0) searchable_textKeys) blankMemory
    (fun operation listed => mergingCalls_within operation (mem_append_left _ listed))
    quickRun_merging
  have valid : wordKey 33 ∈ textKeys := by decide
  simp only [merging, Bool.and_eq_true, Option.any_eq_true, any_eq_true,
    decide_eq_true_iff] at check
  obtain ⟨⟨⟨before, leaf, after⟩, found, merges⟩, outcome, removed, level, levelListed, cell,
    listed, texts⟩ := check
  have levelsCalled : levels.call ops.toKeyOps kLeafSize kInnerSize (.remove (wordKey 33)) =
      .ok outcome := by
    rw [Levels.call, show levels.remove ops.highKey _ _ _ = _ from removed]
    rfl
  have simulates : Simulates _ (tree.call ops blankMemory (.remove (wordKey 33))) _ :=
    keeps.call blankMemory valid
  obtain ⟨⟨answer, last⟩, called, _, kept⟩ := simulates.exists_ok levelsCalled
  obtain ⟨_, framed, _, _, retires⟩ := keeps.represents.remove_frames valid found called
  have retired : last.retiredKeys ≠ [] := by
    obtain ⟨high, highEq⟩ := Option.isSome_iff_exists.mp merges
    rw [framed.retiredKeys_eq.trans (retires rfl), highEq]
    simp
  obtain ⟨height, node, atHeight, stored, guides, view⟩ :=
    kept.represents.exists_cell levelListed listed
  have formed : node.WellFormed := Guides.wellFormed guides
  rw [← view, show ((stringLaws kInnerSize (fun _ => 0) searchable_textKeys).view node).seps =
    tabulate node.knum node.anchors from rfl] at texts
  have two : node.knum = 2 := by
    have length := congrArg List.length texts
    rwa [length_map, length_tabulate] at length
  have plen : node.plen = 2 := by
    rw [two] at texts
    obtain ⟨first, rest⟩ := List.cons.inj texts
    obtain ⟨second, _⟩ := List.cons.inj rest
    rw [formed.plen_eq (by omega), two, first, second]
    decide
  have full := runAll_append ran [.remove (wordKey 33)]
  rw [runAll_cons called] at full
  exact ⟨_, last, height, _, node, full, retired, atHeight, stored, two, plen⟩

/-- Calls and scans in any order with keys that can be told apart: as long as a session goes
on, the tree answers as a finite map, is a search tree, and is walked along level by level. -/
theorem stringTree_session_serves (hash : ByteString → Byte)
    (memory : Memory kLeafSize ByteString Anchor V (StringNode kInnerSize))
    (searchable : Searchable keys) (requests : List (Request ByteString V))
    (within : ∀ request ∈ requests, request.Within (· ∈ keys)) :
    Ends (fun result => (∃ last, Dictionary.Serves last (fun _ => none) requests result.1 ∧
          ∀ key ∈ keys, result.2.lookup (stringOps kInnerSize hash) key = .ok (last key)) ∧
        result.2.Regular (stringOps kInnerSize hash) (stringReading kInnerSize keys) ∧
        ∃ rows, result.2.Tracked (stringOps kInnerSize hash) (stringReading kInnerSize keys) rows)
      (Tree.SessionStops (stringLaws kInnerSize hash searchable) memory requests)
      ((Tree.empty (stringOps kInnerSize hash) memory).session
        (stringOps kInnerSize hash) memory requests) := by
  refine (Tree.session_ends (stringLaws kInnerSize hash searchable) memory within).mono ?_
  rintro ⟨answers, tree⟩ ⟨last, kept, served⟩
  have represents := kept.represents
  exact ⟨⟨last.bindings, served, fun key listed => represents.lookup_bindings listed⟩,
    represents.regular, Tree.rows last, represents.tracked fun ptr inUse =>
      (kept.apart ptr inUse).2⟩

theorem stringTree_session_serves_mergingCalls :
    let ops := stringOps kInnerSize fun _ => 0
    let requests := mergingCalls.map .call ++ [.scan (fun _ _ => 0) (wordKey 60) 9]
    ∃ answers tree, (Tree.empty ops blankMemory).session ops blankMemory requests =
        .ok (answers, tree) ∧
      (∃ last, Dictionary.Serves last (fun _ => none) requests answers ∧
        ∀ key ∈ textKeys, tree.lookup ops key = .ok (last key)) ∧
      tree.Regular ops (stringReading kInnerSize textKeys) := by
  intro ops requests
  obtain ⟨_, _, _, _, _, ran, _⟩ := exists_run_mergingCalls
  obtain ⟨answers, tree, served⟩ := Tree.exists_session
    (stringLaws kInnerSize (fun _ => 0) searchable_textKeys) mergingCalls_within ran (fun _ _ => 0)
    (wordKey 60) (show wordKey 60 ∈ textKeys by decide) 9
  have within : ∀ request ∈ requests, request.Within (· ∈ textKeys) := by
    intro request listed
    rcases mem_append.mp listed with called | scanned
    · obtain ⟨operation, operationListed, rfl⟩ := mem_map.mp called
      exact mergingCalls_within operation operationListed
    · obtain rfl := mem_singleton.mp scanned
      exact show wordKey 60 ∈ textKeys by decide
  have serves := (stringTree_session_serves (fun _ => 0) blankMemory searchable_textKeys requests
    within).of_ok served
  exact ⟨answers, tree, served, serves.1, serves.2.1⟩

/-! ## Separators in memory -/

/-- The separators and prefixes that the root leads to are high keys of leaves, every high
key belongs to one leaf, and those handed to `retire` are no longer in use and were handed
over once. -/
structure Tree.Anchored (keys : Set ByteString)
    (tree : Tree kLeafSize ByteString Anchor V Anchor (StringNode kInnerSize)) : Prop where
  held : ∀ height ptr node, tree.AtHeight (stringReading kInnerSize keys) height ptr →
    tree.nodes ptr = some (.inner node) → ∀ anchor,
      (anchor ∈ node.view.seps ∨ (0 < node.plen ∧ anchor = node.huge)) →
    ∃ holder leaf, tree.AtHeight (stringReading kInnerSize keys) 0 holder ∧
      tree.nodes holder = some (.leaf leaf) ∧ leaf.control.sibling = true ∧ leaf.highKey = anchor
  single : ∀ first second left right, tree.AtHeight (stringReading kInnerSize keys) 0 first →
    tree.AtHeight (stringReading kInnerSize keys) 0 second →
    tree.nodes first = some (.leaf left) → tree.nodes second = some (.leaf right) →
    left.control.sibling = true → right.control.sibling = true →
    left.highKey.address = right.highKey.address → first = second
  live : ∀ ptr leaf, tree.AtHeight (stringReading kInnerSize keys) 0 ptr →
    tree.nodes ptr = some (.leaf leaf) → leaf.control.sibling = true →
    leaf.highKey.address ∉ tree.retiredKeys.map Anchor.address
  once : (tree.retiredKeys.map Anchor.address).Nodup

namespace Tree

variable {hash : ByteString → Byte} {searchable : Searchable keys}
  {tree : Tree kLeafSize ByteString Anchor V Anchor (StringNode kInnerSize)}
  {levels : Levels ByteString Anchor V}

section

variable (represents : tree.Represents (stringLaws kInnerSize hash searchable) levels)
include represents

theorem Represents.leaf_listed {ptr : Ptr} {leaf : LeafNode kLeafSize ByteString Anchor V}
    (atHeight : tree.AtHeight (stringReading kInnerSize keys) 0 ptr)
    (stored : tree.nodes ptr = some (.leaf leaf)) (sibling : leaf.control.sibling = true) :
    ∃ cell ∈ levels.leaves, cell.id = ptr ∧ cell.view.high = some leaf.highKey := by
  obtain ⟨row, rowEq, listed⟩ := represents.mem_row atHeight
  cases rowEq
  obtain ⟨cell, cellListed, rfl⟩ := mem_map.mp listed
  obtain ⟨leaf', stored', reads⟩ := represents.ground cell cellListed
  rw [stored] at stored'
  cases stored'
  refine ⟨cell, cellListed, rfl, ?_⟩
  rw [reads.high, if_pos sibling]

theorem Represents.exists_holder
    {height : Nat} {ptr : Ptr} {node : StringNode kInnerSize} {anchor : Anchor}
    (atHeight : tree.AtHeight (stringReading kInnerSize keys) height ptr)
    (stored : tree.nodes ptr = some (.inner node))
    (pointed : anchor ∈ node.view.seps ∨ (0 < node.plen ∧ anchor = node.huge)) :
    ∃ holder leaf, tree.AtHeight (stringReading kInnerSize keys) 0 holder ∧
      tree.nodes holder = some (.leaf leaf) ∧ leaf.control.sibling = true ∧
      leaf.highKey = anchor := by
  obtain ⟨below, level, before, after, rfl, levelEq, split⟩ :=
    represents.exists_node ⟨atHeight, node, stored, rfl⟩
  have listed := mem_of_getElem? levelEq
  have nodeListed : (⟨ptr, node.view⟩ : LevelNode Anchor) ∈ level := by
    rw [split]
    exact mem_append_right _ mem_cons_self
  have separator : anchor ∈ node.view.seps := by
    rcases pointed with direct | ⟨positive, rfl⟩
    · exact direct
    · have guides : node.Guides keys := represents.wellFormed_inner atHeight stored
      have some : 0 < node.knum := by
        apply Nat.pos_of_ne_zero
        intro empty
        rw [guides.wellFormed.plen_empty empty] at positive
        exact Nat.lt_irrefl 0 positive
      rw [guides.wellFormed.huge_eq some]
      exact mem_tabulate.mpr ⟨0, some, rfl⟩
  have bound : anchor ∈ levels.leaves.bounds :=
    represents.wellFormed.stacked.seps_subset listed
      (mem_flatMap.mpr ⟨_, nodeListed, separator⟩)
  obtain ⟨cell, cellListed, high⟩ := mem_filterMap.mp bound
  obtain ⟨leaf, leafStored, reads⟩ := represents.ground cell cellListed
  have highEq := reads.high.symm.trans high
  split at highEq
  · rename_i sibling
    refine ⟨cell.id, leaf, ?_, leafStored, sibling, Option.some.inj highEq⟩
    have ground : (rows levels)[0]? = some levels.leaves.ids := rfl
    exact represents.atHeight_of_mem ground (mem_map_of_mem cellListed)
  · cases highEq

theorem Represents.anchored
    (owned : tree.Owned Anchor.address (stringLaws kInnerSize hash searchable) levels) :
    tree.Anchored keys := by
  have retired : tree.retiredKeys.map (stringLaws kInnerSize hash searchable).decode =
      tree.retiredKeys := map_id _
  have distinct := owned.distinct
  rw [highKeys, retired, map_append] at distinct
  obtain ⟨boundsDistinct, retiredDistinct, apart⟩ := nodup_append.mp distinct
  refine ⟨fun _ _ _ atHeight stored _ => represents.exists_holder atHeight stored, ?_, ?_,
    retiredDistinct⟩
  · intro first second left right firstAt secondAt firstStored secondStored firstSibling
      secondSibling same
    obtain ⟨cell, listed, rfl, high⟩ := represents.leaf_listed firstAt firstStored firstSibling
    obtain ⟨other, otherListed, rfl, otherHigh⟩ :=
      represents.leaf_listed secondAt secondStored secondSibling
    by_contra different
    have different : cell ≠ other := fun equal => different (congrArg LeafCell.id equal)
    have pairwise := pairwise_filterMap.mp (pairwise_map.mp boundsDistinct)
    have symmetric : Std.Symm fun cell other : LeafCell ByteString Anchor V =>
        ∀ high, cell.view.high = some high → ∀ otherHigh, other.view.high = some otherHigh →
          high.address ≠ otherHigh.address :=
      ⟨fun _ _ apart high highEq otherHigh otherEq =>
        Ne.symm (apart otherHigh otherEq high highEq)⟩
    exact pairwise.forall listed otherListed different _ high _ otherHigh same
  · intro ptr leaf atHeight stored sibling again
    obtain ⟨cell, listed, rfl, high⟩ := represents.leaf_listed atHeight stored sibling
    have bound : leaf.highKey ∈ levels.leaves.bounds :=
      mem_filterMap.mpr ⟨cell, listed, high⟩
    exact apart _ (mem_map_of_mem bound) _ again rfl

end

end Tree

theorem Tree.run_anchored (memory : Memory kLeafSize ByteString Anchor V (StringNode kInnerSize))
    (hash : ByteString → Byte) (searchable : Searchable keys)
    {operations : List (Operation ByteString V)}
    (within : ∀ operation ∈ operations, operation.key ∈ keys) :
    Ends (fun result => result.2.Anchored keys)
      (Tree.Stops (stringLaws kInnerSize hash searchable) memory operations)
      ((Tree.empty (stringOps kInnerSize hash) memory).run (stringOps kInnerSize hash) memory
        operations) := by
  refine (Tree.run_owned Anchor.address (stringLaws kInnerSize hash searchable) memory rfl
    (fun _ _ => rfl) within).mono ?_
  rintro ⟨answers, tree⟩ ⟨last, kept, owned⟩
  exact kept.represents.anchored owned

/-- After every call the separators in inner nodes are in memory that a leaf holds, a high
key is handed to `retire` once, when nothing points to it any more, and every node is
accounted for. -/
theorem stringTree_run_anchored (hash : ByteString → Byte)
    (memory : Memory kLeafSize ByteString Anchor V (StringNode kInnerSize))
    (searchable : Searchable keys) (operations : List (Operation ByteString V))
    (within : ∀ operation ∈ operations, operation.key ∈ keys) :
    Ends (fun result => result.2.Anchored keys ∧ result.2.Accounts (stringReading kInnerSize keys))
      (Tree.Stops (stringLaws kInnerSize hash searchable) memory operations)
      ((Tree.empty (stringOps kInnerSize hash) memory).run (stringOps kInnerSize hash) memory
        operations) :=
  (Tree.run_anchored memory hash searchable within).and
    (Tree.run_accounts (stringLaws kInnerSize hash searchable) memory within)

/-- A high key has been retired, and the inner node that is left has two separators. -/
theorem stringTree_run_anchored_mergingCalls :
    let ops := stringOps kInnerSize fun _ => 0
    ∃ answers tree height ptr node, (Tree.empty ops blankMemory).run ops blankMemory mergingCalls =
        .ok (answers, tree) ∧ tree.retiredKeys ≠ [] ∧
      tree.AtHeight (stringReading kInnerSize textKeys) height ptr ∧
      tree.nodes ptr = some (.inner node) ∧ node.knum = 2 ∧ node.plen = 2 ∧
      tree.Anchored textKeys ∧ tree.Accounts (stringReading kInnerSize textKeys) := by
  intro ops
  obtain ⟨answers, tree, height, ptr, node, ran, retired, atHeight, stored, two, plen⟩ :=
    exists_run_mergingCalls
  have reached := (stringTree_run_anchored (fun _ => 0) blankMemory searchable_textKeys mergingCalls
    mergingCalls_within).of_ok ran
  exact ⟨answers, tree, height, ptr, node, ran, retired, atHeight, stored, two, plen, reached⟩

/-! ## Nodes without separators -/

/-- In both trees `memory_shrink`, `bound_extension` or `content_rebuild` meets a node without
separators exactly if a removal starves one, and such a node has no prefix. -/
theorem rebuild_empty_iff_starves (searchable : Searchable keys) :
    (∀ (type : KeyType) (hash : Key type → Byte)
      (memory : Memory kLeafSize (Key type) (Key type) V (InnerNode kInnerSize type))
      (operations : List (Operation (Key type) V)),
      Tree.FedUnlessStarved (integerLaws kInnerSize type hash) memory operations
        fun node => node.knum = 0 → node.plen = 0) ∧
    ∀ (hash : ByteString → Byte)
      (memory : Memory kLeafSize ByteString Anchor V (StringNode kInnerSize))
      (operations : List (Operation ByteString V)),
      (∀ operation ∈ operations, operation.key ∈ keys) →
      Tree.FedUnlessStarved (stringLaws kInnerSize hash searchable) memory operations
        fun node => node.knum = 0 → node.plen = 0 := by
  constructor
  · intro type hash memory operations
    exact Tree.fedUnlessStarved memory (fun _ _ => trivial) fun node formed =>
      InnerNode.Stores.empty (InnerNode.WellFormed.stores formed)
  · intro hash memory operations within
    exact Tree.fedUnlessStarved memory within fun node guides =>
      WellFormed.plen_empty (Guides.wellFormed guides)

/-- Neither of the runs starves a node, though the first one empties some. -/
theorem rebuild_empty_iff_starves_calls :
    ¬Tree.Stops (integerLaws kInnerSize .uint64 fun _ => 0) zeroMemory starvingCalls
      .noSeparator ∧
    ¬Tree.Stops (stringLaws kInnerSize (fun _ => 0) searchable_textKeys) blankMemory mergingCalls
      .noSeparator := by
  obtain ⟨integers, strings⟩ := rebuild_empty_iff_starves searchable_textKeys
  obtain ⟨_, _, _, ran, _⟩ := exists_run_starvingCalls
  obtain ⟨_, _, _, _, _, merged, _⟩ := exists_run_mergingCalls
  constructor
  · intro stops
    cases ran.symm.trans ((integers _ _ _ _).1.mpr stops)
  · intro stops
    cases merged.symm.trans ((strings _ _ _ mergingCalls_within).1.mpr stops)

/-- A run that comes to `memory_shrink` with `knum_ = 0`. -/
theorem starvingCalls_rebuild_empty :
    let ops := integerOps kInnerSize .uint64 fun _ => 0
    (Tree.empty ops zeroMemory).run ops zeroMemory (starvingCalls ++ [.remove (numberKey 1056)]) =
      .error .noSeparator := by
  intro ops
  obtain ⟨_, tree, levels, ran, keeps, check⟩ := exists_run_starvingCalls
  simp only [starving, Bool.and_eq_true] at check
  exact Tree.run_of_starves ran keeps.represents trivial check.1.1 []

end IndexResearch.FBTree
