import IndexResearch.FBTree.IntegerTree
import IndexResearch.FBTree.QuickRun
import IndexResearch.FBTree.Tree.Ownership
import IndexResearch.FBTree.Tree.Regular

/-!
# Runs of the tree with integer keys
-/

namespace IndexResearch.FBTree

open List

variable {type : KeyType} {V : Type}

def zeroMemory : Memory kLeafSize (Key type) (Key type) V (InnerNode kInnerSize type) where
  inner _ := ⟨.new false, 0, 0, fun _ => 0, nullptr, fun _ _ => 0, fun _ => nullptr⟩
  leaf _ := ⟨.new true, 0#64, ⟨0⟩, nullptr, fun _ => 0, fun _ => none⟩
  track _ := nullptr

theorem length_le_of_ascending {pairs : List (KVPair (Key type) V)}
    (rising : Ascending KVPair.key pairs) : pairs.length ≤ 2 ^ 64 := by
  have distinct : (pairs.map fun kv => kv.key.bits.toNat).Nodup := by
    apply pairwise_map.mpr
    apply rising.imp
    intro left right before same
    apply ne_of_lt before
    exact Key.ext (BitVec.eq_of_toNat_eq same)
  have range : (pairs.map fun kv => kv.key.bits.toNat) ⊆ range (2 ^ 64) := by
    intro bits listed
    obtain ⟨kv, _, rfl⟩ := mem_map.mp listed
    apply mem_range.mpr
    apply lt_of_lt_of_le kv.key.bits.isLt
    apply Nat.pow_le_pow_right (by decide)
    have bytes := type.size_le
    omega
  have counted := (subperm_of_subset distinct range).length_le
  rwa [length_map, length_range] at counted

theorem length_inner_lt_kMaxHeight {levels : Levels (Key type) (Key type) V}
    (formed : levels.WellFormed id kLeafSize kInnerSize)
    (halfFull : levels.HalfFull kLeafSize kInnerSize) : levels.inner.length < kMaxHeight := by
  cases inner : levels.inner with
  | nil => exact show 0 < kMaxHeight by decide
  | cons level above =>
    by_contra high
    have most := length_le_of_ascending formed.chain.ascending_pairs
    have least := halfFull.pow_le_length_pairs formed inner
    have enough : 12 ≤ above.length := by
      simp only [kMaxHeight, length_cons] at high
      omega
    have power : 32 ^ 12 ≤ 32 ^ above.length := Nat.pow_le_pow_right (by decide) enough
    simp only [kLeafSize, kInnerSize, NodeSize.half] at least
    omega

/-- Without removals the tree is a finite map. -/
theorem integerTree_run_growing (hash : Key type → Byte)
    (memory : Memory kLeafSize (Key type) (Key type) V (InnerNode kInnerSize type))
    (operations : List (Operation (Key type) V))
    (growing : ∀ operation ∈ operations, operation.grows = true) :
    ∃ tree, (Tree.empty (integerOps kInnerSize type hash) memory).run
        (integerOps kInnerSize type hash) memory operations =
      .ok ((Dictionary.run (fun _ => none) operations).1, tree) := by
  exact Tree.run_of_grows (integerLaws kInnerSize type hash) memory (fun _ _ => trivial) growing
    fun _ formed halfFull => length_inner_lt_kMaxHeight formed halfFull

def splitCalls : List (Operation (Key .uint64) Nat) :=
  (range 65).map fun key => .upsert ⟨key, ⟨BitVec.ofNat _ key⟩, key⟩

/-- The 65th key splits the leaf, and the tree gets a root. -/
theorem integerTree_run_growing_splitCalls :
    let ops := integerOps kInnerSize .uint64 fun _ => 0
    let memory : Memory kLeafSize (Key .uint64) (Key .uint64) Nat (InnerNode kInnerSize .uint64) :=
      zeroMemory
    ∃ tree, (Tree.empty ops memory).run ops memory (splitCalls ++ [.lookup ⟨7⟩, .lookup ⟨65⟩]) =
        .ok (replicate 65 none ++ [some ⟨7, ⟨7⟩, 7⟩, none], tree) ∧
      tree.treeDepth = 2 := by
  intro ops memory
  obtain ⟨tree, ran⟩ := integerTree_run_growing (fun _ => 0) memory
    (splitCalls ++ [.lookup ⟨7⟩, .lookup ⟨65⟩]) (by decide +kernel)
  have depth : ((Tree.empty ops memory).run ops memory
      (splitCalls ++ [.lookup ⟨7⟩, .lookup ⟨65⟩])).map (·.2.treeDepth) = .ok 2 := by
    decide +kernel
  have answers : (Dictionary.run (fun _ => none)
      (splitCalls ++ [.lookup ⟨7⟩, .lookup ⟨65⟩])).1 =
        replicate 65 none ++ [some ⟨7, ⟨7⟩, 7⟩, none] := by
    decide +kernel
  rw [answers] at ran
  refine ⟨tree, ran, ?_⟩
  rw [show (Tree.empty ops memory).run ops memory _ = _ from ran] at depth
  exact Except.ok.inj depth

/-! ## Runs with removals -/

def numberKey (number : Nat) : Key .uint64 := ⟨BitVec.ofNat _ number⟩

/-- The removals of `count` keys from `first` on. -/
def removals (first count : Nat) : List (Operation (Key .uint64) Unit) :=
  (range count).map fun offset => .remove (numberKey (first + offset))

/-- Two inner nodes of 33 leaves each are built from above.  The left one is thinned to one
separator while the right one is large, then the right one is emptied, and one key is left
in the only leaf of the left one. -/
@[irreducible] def starvingCalls : List (Operation (Key .uint64) Unit) :=
  ((range 2113).reverse.map fun number => .upsert ⟨number, numberKey number, ()⟩) ++
    removals 0 1025 ++ removals 1057 1024 ++ removals 1025 31

/-- The removal of key 1056 starves a node, that of key 2100 does not, and the last inner
node has no separator. -/
def starving (levels : Levels (Key .uint64) (Key .uint64) Unit) : Bool :=
  levels.starvesAt id kLeafSize kInnerSize (numberKey 1056) &&
    !levels.starvesAt id kLeafSize kInnerSize (numberKey 2100) &&
    levels.inner.any fun level => level.any fun node => node.view.seps.isEmpty

set_option maxRecDepth 100000 in
theorem exists_run_starvingCalls :
    ∃ answers tree levels, (Tree.empty (integerOps kInnerSize .uint64 fun _ => 0) zeroMemory).run
        (integerOps kInnerSize .uint64 fun _ => 0) zeroMemory starvingCalls = .ok (answers, tree) ∧
      tree.Keeps (integerLaws kInnerSize .uint64 fun _ => 0) levels ∧ starving levels = true :=
  Tree.exists_run (integerLaws kInnerSize .uint64 fun _ => 0) zeroMemory (fun _ _ => trivial)
    (by decide +kernel)

/-- As long as a run goes on, the tree is a finite map and a search tree. -/
theorem integerTree_run_refines_map (hash : Key type → Byte)
    (memory : Memory kLeafSize (Key type) (Key type) V (InnerNode kInnerSize type))
    (operations : List (Operation (Key type) V)) :
    Ends (fun result => result.1 = (Dictionary.run (fun _ => none) operations).1 ∧
        (∀ key, result.2.lookup (integerOps kInnerSize type hash) key =
          .ok ((Dictionary.run (fun _ => none) operations).2 key)) ∧
        result.2.Regular (integerOps kInnerSize type hash) (integerReading kInnerSize type))
      (Tree.Stops (integerLaws kInnerSize type hash) memory operations)
      ((Tree.empty (integerOps kInnerSize type hash) memory).run
        (integerOps kInnerSize type hash) memory operations) := by
  refine (Tree.run_ends (integerLaws kInnerSize type hash) memory (fun _ _ => trivial)).mono ?_
  rintro ⟨answers, tree⟩ ⟨levels, keeps, same⟩
  rw [same]
  exact ⟨rfl, fun key => keeps.represents.lookup_bindings trivial, keeps.represents.regular⟩

theorem integerTree_run_refines_map_starvingCalls :
    let ops := integerOps kInnerSize .uint64 fun _ => 0
    ∃ answers tree, (Tree.empty ops zeroMemory).run ops zeroMemory starvingCalls =
        .ok (answers, tree) ∧ answers = (Dictionary.run (fun _ => none) starvingCalls).1 ∧
      tree.Regular ops (integerReading kInnerSize .uint64) := by
  intro ops
  obtain ⟨answers, tree, _, ran, _⟩ := exists_run_starvingCalls
  have reached := (integerTree_run_refines_map (fun _ => 0) zeroMemory starvingCalls).of_ok ran
  exact ⟨answers, tree, ran, reached.1, reached.2.2⟩

/-- After every call `root_track_` leads the walk of `~FBTree` and `statistics()` along the
nodes of the tree. -/
theorem integerTree_run_tracked (hash : Key type → Byte)
    (memory : Memory kLeafSize (Key type) (Key type) V (InnerNode kInnerSize type))
    (operations : List (Operation (Key type) V)) :
    Ends (fun result => ∃ rows, result.2.Tracked (integerOps kInnerSize type hash)
        (integerReading kInnerSize type) rows)
      (Tree.Stops (integerLaws kInnerSize type hash) memory operations)
      ((Tree.empty (integerOps kInnerSize type hash) memory).run
        (integerOps kInnerSize type hash) memory operations) := by
  refine (Tree.run_ends (integerLaws kInnerSize type hash) memory (fun _ _ => trivial)).mono ?_
  rintro ⟨answers, tree⟩ ⟨levels, keeps, _⟩
  exact ⟨Tree.rows levels, keeps.represents.tracked fun ptr listed => (keeps.apart ptr listed).2⟩

theorem integerTree_run_tracked_starvingCalls :
    let ops := integerOps kInnerSize .uint64 fun _ => 0
    ∃ answers tree rows, (Tree.empty ops zeroMemory).run ops zeroMemory starvingCalls =
        .ok (answers, tree) ∧ tree.Tracked ops (integerReading kInnerSize .uint64) rows := by
  intro ops
  obtain ⟨answers, tree, _, ran, _⟩ := exists_run_starvingCalls
  obtain ⟨rows, tracked⟩ :=
    (integerTree_run_tracked (fun _ => 0) zeroMemory starvingCalls).of_ok ran
  exact ⟨answers, tree, rows, ran, tracked⟩

/-- No node is lost and none is handed to `retire` twice or while it is in use. -/
theorem integerTree_run_accounts (hash : Key type → Byte)
    (memory : Memory kLeafSize (Key type) (Key type) V (InnerNode kInnerSize type))
    (operations : List (Operation (Key type) V)) :
    Ends (fun result => result.2.Accounts (integerReading kInnerSize type))
      (Tree.Stops (integerLaws kInnerSize type hash) memory operations)
      ((Tree.empty (integerOps kInnerSize type hash) memory).run
        (integerOps kInnerSize type hash) memory operations) :=
  Tree.run_accounts (integerLaws kInnerSize type hash) memory fun _ _ => trivial

theorem integerTree_run_accounts_starvingCalls :
    let ops := integerOps kInnerSize .uint64 fun _ => 0
    ∃ answers tree, (Tree.empty ops zeroMemory).run ops zeroMemory starvingCalls =
        .ok (answers, tree) ∧ tree.Accounts (integerReading kInnerSize .uint64) := by
  intro ops
  obtain ⟨answers, tree, _, ran, _⟩ := exists_run_starvingCalls
  exact ⟨answers, tree, ran,
    (integerTree_run_accounts (fun _ => 0) zeroMemory starvingCalls).of_ok ran⟩

end IndexResearch.FBTree
