import IndexResearch.BLinkTree.Scan

/-!
# Runs of one thread

Sequences of calls of the B-link tree, next to the same calls of an ordered map.
-/

namespace IndexResearch.BLinkTree

variable {K V : Type}

inductive Operation (K V : Type) where
  | insert (key : K) (value : V)
  | update (key : K) (value : V)
  | search (key : K)
  | scanFixed (leftKey : K) (scanSz : Nat) (kvPairs : List (K × V))
  | scanRange (leftKey rightKey : K) (kvPairs : List (K × V))

/-- What a call returns: whether it succeeded, the value that was found, or the pairs of a scan
together with whether there were any. -/
inductive Answer (K V : Type) where
  | status (success : Bool)
  | value (found : Option V)
  | pairs (success : Bool) (kvPairs : List (K × V))
  deriving DecidableEq

section Calls

variable [LinearOrder K]

def Operation.apply (map : OrderedMap K V) : Operation K V → Answer K V × OrderedMap K V
  | insert key value => let (success, map) := map.insert key value; (.status success, map)
  | update key value => let (success, map) := map.update key value; (.status success, map)
  | search key => (.value (map.find key), map)
  | scanFixed leftKey scanSz kvPairs => (.pairs (!(map.entriesFrom leftKey).isEmpty)
      (kvPairs ++ (map.entriesFrom leftKey).take scanSz), map)
  | scanRange leftKey rightKey kvPairs => (.pairs (!(map.entriesFrom leftKey).isEmpty)
      (kvPairs ++ map.entriesBetween leftKey rightKey), map)

def runMap (map : OrderedMap K V) : List (Operation K V) → List (Answer K V) × OrderedMap K V
  | [] => ([], map)
  | operation :: rest =>
    let (answer, next) := operation.apply map
    let (answers, last) := runMap next rest
    (answer :: answers, last)

namespace Tree

variable [Inhabited K] [Inhabited V]

def call (params : Parameters) (tree : Tree K V) :
    Operation K V → Except Fault (Answer K V × Tree K V)
  | .insert key value => do
      let (success, tree) ← tree.insert params key value
      return (.status success, tree)
  | .update key value => do
      let (success, tree) ← tree.update key value
      return (.status success, tree)
  | .search key => do
      let found ← tree.search key
      return (.value found, tree)
  | .scanFixed leftKey scanSz kvPairs => do
      let (success, kvPairs) ← tree.scanFixed leftKey scanSz kvPairs
      return (.pairs success kvPairs, tree)
  | .scanRange leftKey rightKey kvPairs => do
      let (success, kvPairs) ← tree.scanRange leftKey rightKey kvPairs
      return (.pairs success kvPairs, tree)

def run (params : Parameters) (tree : Tree K V) :
    List (Operation K V) → Except Fault (List (Answer K V) × Tree K V)
  | [] => .ok ([], tree)
  | operation :: rest => do
      let (answer, next) ← tree.call params operation
      let (answers, last) ← run params next rest
      return (answer :: answers, last)

def Implements (params : Parameters) (tree : Tree K V) (map : OrderedMap K V) : Prop :=
  ∃ leaves rows, tree.Represents params leaves rows ∧
    leaves.flatMap Leaf.entries = map.entries

variable {params : Parameters} {tree : Tree K V} {map : OrderedMap K V}

theorem implements_empty (params : Parameters) :
    (Tree.empty params : Tree K V).Implements params .empty := by
  have room := params.leafPolicy.room 0 params.leafPolicy.safe_zero
  refine ⟨[⟨1, [], none⟩], [], ⟨⟨nofun, .nil, nofun⟩, ⟨⟨rfl, trivial⟩, ?_, .nil, ?_, ?_⟩, ?_, ?_⟩,
    rfl⟩
  · intro leaf listed
    obtain rfl := List.mem_singleton.mp listed
    refine ⟨.new params.leafNodeSize true, by simp [Tree.empty], ?_, nofun,
      fun linked => absurd rfl linked⟩
    exact ⟨⟨rfl, rfl, rfl, Nat.lt_of_succ_lt room, rfl⟩, rfl, rfl, rfl, rfl⟩
  · exact List.nodup_singleton _
  · intro leaf listed
    obtain rfl := List.mem_singleton.mp listed
    exact ⟨nofun, Nat.lt_succ_self _⟩
  · exact rfl
  · exact nofun

namespace Implements

theorem call (implements : tree.Implements params map) (operation : Operation K V) :
    ∃ tree', tree.call params operation = .ok ((operation.apply map).1, tree') ∧
      tree'.Implements params (operation.apply map).2 := by
  obtain ⟨leaves, rows, represents, entries_eq⟩ := implements
  cases operation with
  | insert key value =>
    obtain ⟨tree', leaves', rows', result, represents', entries'⟩ := represents.insert_eq key value
    rw [entries_eq] at result entries'
    refine ⟨tree', ?_, leaves', rows', represents',
      entries'.trans (map.insert_entries key value).symm⟩
    rw [Tree.call, result, ← map.insert_success key value]
    rfl
  | update key value =>
    obtain ⟨tree', leaves', result, represents', entries'⟩ := represents.update_eq key value
    rw [entries_eq] at result entries'
    refine ⟨tree', ?_, leaves', rows, represents', entries'⟩
    rw [Tree.call, result]
    simp only [Operation.apply, OrderedMap.update, OrderedMap.find, Option.isSome_map]
    rfl
  | search key =>
    refine ⟨tree, ?_, leaves, rows, represents, entries_eq⟩
    rw [Tree.call, represents.search_eq key, entries_eq]
    rfl
  | scanFixed leftKey scanSz kvPairs =>
    refine ⟨tree, ?_, leaves, rows, represents, entries_eq⟩
    rw [Tree.call, represents.scanFixed_eq entries_eq]
    rfl
  | scanRange leftKey rightKey kvPairs =>
    refine ⟨tree, ?_, leaves, rows, represents, entries_eq⟩
    rw [Tree.call, represents.scanRange_eq entries_eq]
    rfl

theorem run (implements : tree.Implements params map) (operations : List (Operation K V)) :
    ∃ tree', tree.run params operations = .ok ((runMap map operations).1, tree') ∧
      tree'.Implements params (runMap map operations).2 := by
  induction operations generalizing tree map with
  | nil => exact ⟨tree, rfl, implements⟩
  | cons operation rest ih =>
    obtain ⟨next, answered, kept⟩ := implements.call operation
    obtain ⟨last, rested, lastKept⟩ := ih kept
    refine ⟨last, ?_, lastKept⟩
    simp only [Tree.run, runMap, answered, rested, ok_bind, pure, Except.pure]

end Implements

/-- The tree is an ordered map: after any calls it answers as the map does, and no array is
accessed outside its bounds. -/
theorem run_refines_map (params : Parameters) (operations : List (Operation K V)) :
    ∃ tree, (Tree.empty params).run params operations =
      .ok ((runMap .empty operations).1, tree) := by
  obtain ⟨tree, result, _⟩ := (implements_empty params).run operations
  exact ⟨tree, result⟩

def smallNodes : Parameters :=
  let policy : SplitPolicy 4 :=
    ⟨fun count => decide (count + 1 < 4), fun _ => of_decide_eq_true, rfl⟩
  ⟨4, 4, policy, policy⟩

example : ((Tree.empty smallNodes : Tree Nat Nat).run smallNodes
    ([5, 1, 9, 3, 7, 2, 8, 4, 6, 5].map (fun key => .insert key (10 * key)) ++
      [.update 4 1, .scanRange 3 7 []])).map (fun result => result.1.drop 9) =
    .ok [.status false, .status true, .pairs true [(3, 30), (4, 1), (5, 50), (6, 60)]] := by
  decide +kernel

/-- After any calls, `SearchUnsafe` finds what `Search` finds without moving to a sibling, and the
descent of `Insert` meets a key as a separator only if the key is bound. -/
theorem run_searchUnsafe (params : Parameters) (operations : List (Operation K V)) :
    ∃ answers tree, (Tree.empty params).run params operations = .ok (answers, tree) ∧
      ∀ key, ∃ found, tree.search key = .ok found ∧ tree.searchUnsafe key = .ok found ∧
        (tree.insertPath key tree.fresh [] tree.root = .ok none → found.isSome = true) := by
  obtain ⟨tree, result, leaves, rows, represents, _⟩ := (implements_empty params).run operations
  refine ⟨_, tree, result, ?_⟩
  intro key
  refine ⟨_, represents.search_eq key, represents.searchUnsafe_eq key, ?_⟩
  intro ended
  obtain ⟨front, leaf, back, located⟩ := represents.exists_located key
  rcases represents.insertPath_cases located with ⟨_, bound⟩ | ⟨stack, arrived, _⟩
  · rw [Option.isSome_map]
    exact Option.isSome_iff_ne_none.mpr bound
  · rw [arrived] at ended
    exact absurd (Except.ok.inj ended) nofun

end Tree

end Calls

end IndexResearch.BLinkTree
