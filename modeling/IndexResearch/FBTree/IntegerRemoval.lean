import IndexResearch.FBTree.IntegerRun

/-!
# Removal from the tree with integer keys

`remove` deletes from the map and leaves a search tree unless it starves a node on the way
of its merges: a node with a single separator absorbs a right sibling without any, and
`memory_shrink` reads the separator before the first one.  This is rare but does happen: a
node is thinned to one separator while its right sibling is large, and the sibling is
emptied afterwards.
-/

namespace IndexResearch.FBTree

variable {leafSize size : NodeSize} {K H V Mid Inner : Type} [LinearOrder K]
  {ops : NodeOps K H Mid Inner} {laws : ops.Laws size} {tree : Tree leafSize K H V Mid Inner}
  {levels : Levels K H V} {key : K}

namespace Tree

/-- `remove` returns the pair of the key, unbinds this key and no other, and leaves a search
tree. -/
def Deletes (ops : NodeOps K H Mid Inner) (reading : NodeReading K H Mid Inner)
    (tree : Tree leafSize K H V Mid Inner) (key : K) : Prop :=
  ∃ kv tree', tree.remove ops key = .ok (kv, tree') ∧ tree.lookup ops key = .ok kv ∧
    tree'.lookup ops key = .ok none ∧
    (∀ other, reading.Valid other → other ≠ key →
      tree'.lookup ops other = tree.lookup ops other) ∧
    tree'.Regular ops reading

theorem Represents.deletes (represents : tree.Represents laws levels) (valid : laws.Valid key)
    (feeds : levels.starvesAt ops.highKey leafSize size key = false) :
    tree.Deletes ops laws.toNodeReading key := by
  have follows := represents.remove_eq valid
  cases removed : levels.remove ops.highKey leafSize size key with
  | none =>
    rw [represents.wellFormed.remove_eq_none.mp removed] at feeds
    cases feeds
  | some outcome =>
    rw [removed] at follows
    obtain ⟨⟨kv, tree'⟩, result, left⟩ := follows
    obtain ⟨answer, formed, bindings⟩ := represents.wellFormed.remove_spec removed
    refine ⟨kv, tree', result, ?_, ?_, ?_, left.represents.regular⟩
    · rw [represents.lookup_bindings valid, ← answer, ← left.answer]
    · rw [left.represents.lookup_bindings valid, bindings, Function.update_self]
    · intro other otherValid different
      rw [left.represents.lookup_bindings otherValid, represents.lookup_bindings otherValid,
        bindings, Function.update_of_ne different]

theorem Represents.remove_of_starves (represents : tree.Represents laws levels)
    (valid : laws.Valid key) (starves : levels.starvesAt ops.highKey leafSize size key = true) :
    tree.remove ops key = .error .noSeparator := by
  have follows := represents.remove_eq valid
  rwa [represents.wellFormed.remove_eq_none.mpr starves] at follows

variable {memory : Memory leafSize K H V Inner} {operations : List (Operation K V)}

theorem run_of_starves {answers : List (Option (KVPair K V))}
    (ran : (Tree.empty ops memory).run ops memory operations = .ok (answers, tree))
    (represents : tree.Represents laws levels) (valid : laws.Valid key)
    (starves : levels.starvesAt ops.highKey leafSize size key = true)
    (rest : List (Operation K V)) :
    (Tree.empty ops memory).run ops memory (operations ++ .remove key :: rest) =
      .error .noSeparator := by
  have stopped : tree.call ops memory (.remove key) = _ :=
    represents.remove_of_starves valid starves
  rw [run, runAll_append ran, runAll, stopped]
  rfl

/-- The run comes to a node without separators exactly if one of its removals starves a node,
and the inner nodes of the tree that it leaves are `unprefixed`. -/
def FedUnlessStarved (laws : ops.Laws size) (memory : Memory leafSize K H V Inner)
    (operations : List (Operation K V)) (unprefixed : Inner → Prop) : Prop :=
  ((Tree.empty ops memory).run ops memory operations = .error .noSeparator ↔
    Stops laws memory operations .noSeparator) ∧
  ∀ answers tree height ptr node,
    (Tree.empty ops memory).run ops memory operations = .ok (answers, tree) →
    tree.AtHeight laws.toNodeReading height ptr → tree.nodes ptr = some (.inner node) →
    unprefixed node

theorem fedUnlessStarved (memory : Memory leafSize K H V Inner)
    (valid : ∀ operation ∈ operations, laws.Valid operation.key) {unprefixed : Inner → Prop}
    (formed : ∀ node, laws.WellFormed node → unprefixed node) :
    FedUnlessStarved laws memory operations unprefixed := by
  have ends := run_ends laws memory valid
  refine ⟨⟨fun stops => ?_, ?_⟩, fun answers tree height ptr node ran atHeight stored => ?_⟩
  · rwa [stops] at ends
  · rintro ⟨before, operation, after, answers, tree, rfl, ran, levels, represents, refuses⟩
    cases operation with
    | remove key => exact run_of_starves ran represents (valid (.remove key) (by simp)) refuses _
    | upsert _ | update _ | lookup _ => exact refuses.elim
  · obtain ⟨levels, keeps, _⟩ := ends.of_ok ran
    exact formed node (keeps.represents.wellFormed_inner atHeight stored)

end Tree

/-- `remove` reads a separator of a node that has none exactly where a node starves, and
deletes from the map everywhere else. -/
theorem integerTree_remove_cases {type : KeyType} (hash : Key type → Byte)
    (memory : Memory kLeafSize (Key type) (Key type) V (InnerNode kInnerSize type))
    (operations : List (Operation (Key type) V)) {answers : List (Option (KVPair (Key type) V))}
    {tree : Tree kLeafSize (Key type) (Key type) V (Encoded type) (InnerNode kInnerSize type)}
    (reached : (Tree.empty (integerOps kInnerSize type hash) memory).run
      (integerOps kInnerSize type hash) memory operations = .ok (answers, tree)) :
    (∃ levels, tree.Represents (integerLaws kInnerSize type hash) levels) ∧
    ∀ levels, tree.Represents (integerLaws kInnerSize type hash) levels → ∀ key,
      (tree.remove (integerOps kInnerSize type hash) key = .error .noSeparator ↔
        levels.starvesAt id kLeafSize kInnerSize key = true) ∧
      (levels.starvesAt id kLeafSize kInnerSize key = false →
        tree.Deletes (integerOps kInnerSize type hash) (integerReading kInnerSize type) key) := by
  have ends := Tree.run_ends (integerLaws kInnerSize type hash) memory
    (fun operation (_ : operation ∈ operations) => trivial)
  obtain ⟨levels, keeps, _⟩ := ends.of_ok reached
  refine ⟨⟨levels, keeps.represents⟩, fun levels represents key => ⟨⟨fun stops => ?_, ?_⟩, ?_⟩⟩
  · by_contra feeds
    obtain ⟨_, _, result, _⟩ := represents.deletes trivial (eq_false_of_ne_true feeds)
    exact absurd (stops.symm.trans result) (by simp)
  · exact represents.remove_of_starves trivial
  · exact represents.deletes trivial

/-- After `starvingCalls` key 1056 is the last one of its leaf. -/
theorem integerTree_remove_cases_starvingCalls :
    let ops := integerOps kInnerSize .uint64 fun _ => 0
    ∃ answers tree,
      (Tree.empty ops zeroMemory).run ops zeroMemory starvingCalls = .ok (answers, tree) ∧
      tree.remove ops (numberKey 1056) = .error .noSeparator ∧
      tree.Deletes ops (integerReading kInnerSize .uint64) (numberKey 2100) := by
  intro ops
  obtain ⟨answers, tree, levels, reached, keeps, check⟩ := exists_run_starvingCalls
  simp only [starving, Bool.and_eq_true, Bool.not_eq_true'] at check
  have cases := (integerTree_remove_cases _ zeroMemory starvingCalls reached).2 levels
    keeps.represents
  exact ⟨answers, tree, reached, (cases _).1.mpr check.1.1, (cases _).2 check.1.2⟩

/-- The prefix of every inner node is the longest one common to its separators, and empty
where there are none. -/
theorem integerTree_run_prefixed {type : KeyType} (hash : Key type → Byte)
    (memory : Memory kLeafSize (Key type) (Key type) V (InnerNode kInnerSize type))
    (operations : List (Operation (Key type) V)) :
    Ends (fun result => ∀ height ptr node,
        result.2.AtHeight (integerReading kInnerSize type) height ptr →
        result.2.nodes ptr = some (.inner node) →
          node.WellFormed ∧ (node.knum = 0 → node.plen = 0))
      (Tree.Stops (integerLaws kInnerSize type hash) memory operations)
      ((Tree.empty (integerOps kInnerSize type hash) memory).run
        (integerOps kInnerSize type hash) memory operations) := by
  refine (Tree.run_ends (integerLaws kInnerSize type hash) memory (fun _ _ => trivial)).mono ?_
  rintro ⟨answers, tree⟩ ⟨levels, kept, _⟩ height ptr node atHeight stored
  have formed : node.WellFormed := kept.represents.wellFormed_inner atHeight stored
  exact ⟨formed, formed.stores.empty⟩

/-- After `starvingCalls` the last inner node has lost all its separators. -/
theorem integerTree_run_prefixed_starvingCalls :
    let ops := integerOps kInnerSize .uint64 fun _ => 0
    ∃ answers tree height ptr node,
      (Tree.empty ops zeroMemory).run ops zeroMemory starvingCalls = .ok (answers, tree) ∧
      tree.AtHeight (integerReading kInnerSize .uint64) height ptr ∧
      tree.nodes ptr = some (.inner node) ∧ node.knum = 0 ∧ node.plen = 0 := by
  intro ops
  obtain ⟨answers, tree, levels, reached, keeps, check⟩ := exists_run_starvingCalls
  simp only [starving, Bool.and_eq_true, List.any_eq_true, List.isEmpty_iff] at check
  obtain ⟨_, level, levelListed, cell, listed, empty⟩ := check
  obtain ⟨height, node, atHeight, stored, _, view⟩ :=
    keeps.represents.exists_cell levelListed listed
  have none : node.knum = 0 := by
    rw [← node.length_view_seps, show node.view = cell.view from view, empty]
    rfl
  have prefixed := (integerTree_run_prefixed _ zeroMemory starvingCalls).of_ok reached
    _ _ node atHeight stored
  exact ⟨answers, tree, _, _, node, reached, atHeight, stored, none, prefixed.2 none⟩

end IndexResearch.FBTree
