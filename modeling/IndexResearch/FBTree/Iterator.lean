import IndexResearch.FBTree.LeafNode.Access
import IndexResearch.FBTree.Run

/-!
# Iterators

`begin`, `lower_bound`, `upper_bound` and `iterator` of `fbtree.h`, run by one thread, and
the loop over them in `index.cpp`.  A leaf is sorted when an iterator enters it.  The bytes
behind the last tag of a sorted leaf come from the stack; `raw` holds them for every leaf.

On a tree that represents its levels an iterator passes the pairs in the order of their
keys.  An iterator goes on with the version of its leaf and the position in it, so that
`bound` is only used to find the first pair.
-/

namespace IndexResearch.FBTree

open List

variable {leafSize size : NodeSize} {K H V Mid Inner : Type}

/-- `iterator`; a null pair means the end. -/
structure Iterator (K V : Type) where
  node : Ptr
  version : Nat
  kv : Option (KVPair K V)
  pos : Nat

namespace Tree

variable [LinearOrder K] (ops : NodeOps K H Mid Inner) (raw : Ptr → Nat → Byte)

variable (tree : Tree leafSize K H V Mid Inner)

/-- `get_bound` of `bound`. -/
def getBound (key : K) (upper changed : Bool) (node : Ptr) :
    Except Fault (Iterator K V × Tree leafSize K H V Mid Inner) := do
  let node ← tree.moveRight ops key changed tree.fresh node
  let leaf ← tree.leafAt node
  if leaf.control.ordered then
    let (kv, pos) ← leaf.bound ops.toKeyOps key upper
    return (⟨node, leaf.control.version, kv, pos⟩, tree)
  else
    -- the leaf is latched, and no other thread split it in the meantime
    let node ← tree.moveRight ops key changed tree.fresh node
    let leaf ← tree.leafAt node
    let leaf ← leaf.kvSort (raw node)
    let (kv, pos) ← leaf.bound ops.toKeyOps key upper
    return (⟨node, leaf.control.version, kv, pos⟩, tree.write node (.leaf leaf))

/-- `while(kv == nullptr)` of `bound`. -/
def boundOver (key : K) (upper changed : Bool) :
    Nat → Iterator K V × Tree leafSize K H V Mid Inner →
    Except Fault (Iterator K V × Tree leafSize K H V Mid Inner)
  | 0, _ => .error .endless
  | fuel + 1, (it, tree) =>
    match it.kv with
    | some _ => .ok (it, tree)
    | none => do
        let leaf ← tree.leafAt it.node
        if leaf.siblingPtr = nullptr then return ({ it with node := nullptr }, tree)
        else
          let next ← tree.getBound ops raw key upper changed leaf.siblingPtr
          boundOver key upper changed fuel next

/-- `bound`.  The string tree compares the version of the last inner node with that of
`root_`. -/
def bound (key : K) (upper : Bool) :
    Except Fault (Iterator K V × Tree leafSize K H V Mid Inner) := do
  let path ← tree.descend ops key tree.fresh ⟨[], tree.root, 0, tree.root⟩
  let version ← tree.loadVersion ops tree.root
  let first ← tree.getBound ops raw key upper (path.version != version) path.current
  boundOver ops raw key upper (path.version != version) tree.fresh first

def lowerBound (key : K) : Except Fault (Iterator K V × Tree leafSize K H V Mid Inner) :=
  tree.bound ops raw key false

def upperBound (key : K) : Except Fault (Iterator K V × Tree leafSize K H V Mid Inner) :=
  tree.bound ops raw key true

/-- `node->access(...)` on the leaf at an address. -/
def accessAt (node : Ptr) (kv : Option (KVPair K V))
    (pos : Nat) (version : Nat) : Except Fault (Iterator K V × Tree leafSize K H V Mid Inner) := do
  let leaf ← tree.leafAt node
  let ((next, pos, version), leaf) ← leaf.access ops.toKeyOps (raw node) kv pos version
  return (⟨node, version, next, pos⟩, tree.write node (.leaf leaf))

/-- `begin()` of the tree. -/
def begin : Except Fault (Iterator K V × Tree leafSize K H V Mid Inner) := do
  let node ← tree.trackAt 0
  let leaf ← tree.leafAt node
  tree.accessAt ops raw node none 0 leaf.control.version

/-- `while(next == nullptr)` of `advance`; `it` is the iterator before the call. -/
def advanceOver (it : Iterator K V) : Nat → Iterator K V × Tree leafSize K H V Mid Inner →
    Except Fault (Iterator K V × Tree leafSize K H V Mid Inner)
  | 0, _ => .error .endless
  | fuel + 1, (here, tree) =>
    match here.kv with
    | some _ => .ok (here, tree)
    | none => do
        let leaf ← tree.leafAt here.node
        let node := leaf.siblingPtr
        if node = nullptr then return ({ here with node := nullptr }, tree)
        else
          let sibling ← tree.leafAt node
          let (next, tree) ← tree.accessAt ops raw node none 0 sibling.control.version
          let left ← tree.leafAt it.node
          if left.control.version = it.version then return (next, tree)
          else
            let next ← tree.accessAt ops raw node it.kv 0 0
            advanceOver it fuel next

def advance (it : Iterator K V) : Except Fault (Iterator K V × Tree leafSize K H V Mid Inner) :=
  match it.kv with
  | none => .error .check
  | some _ => do
      let next ← tree.accessAt ops raw it.node it.kv (it.pos + 1) it.version
      advanceOver ops raw it tree.fresh next

/-- The loop of `scan`: at most `num` pairs from where the iterator stands. -/
def scanOver : Nat → Iterator K V × Tree leafSize K H V Mid Inner →
    Except Fault (List (KVPair K V) × Tree leafSize K H V Mid Inner)
  | 0, (_, tree) => .ok ([], tree)
  | num + 1, (it, tree) =>
    match it.kv with
    | none => .ok ([], tree)
    | some kv => do
        let next ← tree.advance ops raw it
        let (rest, tree) ← scanOver num next
        return (kv :: rest, tree)

/-- `scan` of `IndexFBTree`: the pairs that it counts. -/
def scan (key : K) (num : Nat) :
    Except Fault (List (KVPair K V) × Tree leafSize K H V Mid Inner) := do
  let first ← tree.lowerBound ops raw key
  scanOver ops raw num first

/-! ## What an iterator passes -/

/-- The iterator stands at the first of the given pairs, and these are the pairs from
there to the end of the tree.  Its leaf is sorted and has the version that it knows. -/
def Stands (ops : NodeOps K H Mid Inner) (tree : Tree leafSize K H V Mid Inner)
    (leaves : Leaves K H V) (it : Iterator K V) : List (KVPair K V) → Prop
  | [] => it.kv = none
  | kv :: rest => it.kv = some kv ∧ ∃ (before : Leaves K H V) (leaf : LeafCell K H V)
      (after : Leaves K H V) (front back : List (KVPair K V)) (cell : LeafNode leafSize K H V),
      leaves = before ++ leaf :: after ∧ leaf.view.entries = front ++ kv :: back ∧
      rest = back ++ after.pairs ∧ it.node = leaf.id ∧ it.pos = front.length ∧
      tree.nodes leaf.id = some (.leaf cell) ∧ cell.Arranged ops.toKeyOps leaf.view ∧
      cell.control.version = it.version

variable {ops : NodeOps K H Mid Inner} {raw : Ptr → Nat → Byte} {laws : ops.Laws size}
  {tree : Tree leafSize K H V Mid Inner} {levels : Levels K H V} {before after : Leaves K H V}
  {leaf : LeafCell K H V} {key : K} {upper : Bool}

theorem Stands.kv_eq {leaves : Leaves K H V} {it : Iterator K V} {pairs : List (KVPair K V)}
    (stands : tree.Stands ops leaves it pairs) : it.kv = pairs.head? := by
  cases pairs with
  | nil => exact stands
  | cons kv rest => exact stands.1

namespace Represents

section

variable (represents : tree.Represents laws levels)
  (split : levels.leaves = before ++ leaf :: after)
include represents split

theorem bounded : leaf.view.entries.length ≤ leafSize.slots :=
  (represents.wellFormed.chain.sound leaf (by simp [split])).bounded

variable {cell : LeafNode leafSize K H V}

theorem siblingPtr_eq (reads : cell.Represents ops.toKeyOps leaf.view) :
    cell.siblingPtr = after.ids.headD nullptr := by
  have linked := represents.wellFormed.chain.linked
  rw [split] at linked
  obtain ⟨linkEq, _⟩ := (linked_append.mp linked).2
  have link := reads.link.symm.trans linkEq
  rw [LeafNode.siblingPtr, reads.deleted]
  cases flag : cell.control.sibling with
  | true =>
    rw [if_pos flag] at link
    cases after with
    | nil => cases link
    | cons next rest => exact Option.some.inj link
  | false =>
    rw [if_neg (by simp [flag])] at link
    cases after with
    | nil => rfl
    | cons next rest => cases link

theorem leaf_ne_nullptr : leaf.id ≠ nullptr := by
  have listed : leaf.id ∈ levels.ids := by simp [Levels.ids, split]
  exact ne_of_gt (represents.addressed.allocated leaf.id listed).1

theorem accessAt_first (loaded : tree.leafAt leaf.id = .ok cell) (raw : Ptr → Nat → Byte) :
    ∃ sorted, sorted.Arranged ops.toKeyOps leaf.view ∧
      tree.accessAt ops raw leaf.id none 0 cell.control.version =
        .ok (⟨leaf.id, sorted.control.version, leaf.view.entries[0]?, 0⟩,
          tree.write leaf.id (.leaf sorted)) := by
  obtain ⟨cell', loaded', _, reads⟩ := represents.leafAt_eq leaf (by simp [split])
  cases loaded.symm.trans loaded'
  obtain ⟨sorted, arranged, result⟩ := reads.access_eq (represents.bounded split) (raw leaf.id) 0
  refine ⟨sorted, arranged, ?_⟩
  rw [accessAt, loaded]
  simp only [ok_bind, result]
  rfl

theorem stands_first (stored : tree.nodes leaf.id = some (.leaf cell))
    (arranged : cell.Arranged ops.toKeyOps leaf.view) :
    tree.Stands ops levels.leaves ⟨leaf.id, cell.control.version, leaf.view.entries[0]?, 0⟩
      (leaf.view.entries ++ after.pairs) := by
  have chain := represents.wellFormed.chain
  rw [split] at chain
  cases entriesEq : leaf.view.entries with
  | nil =>
    have last : after = [] := by
      by_contra more
      exact (chain.sound leaf (by simp)).filled
        (fun none => more (chain.link_eq_none.mp none)) entriesEq
    rw [last]
    rfl
  | cons kv rest =>
    exact ⟨rfl, before, leaf, after, [], rest, cell, split, entriesEq, rfl, rfl, rfl, stored,
      arranged, rfl⟩

end

end Represents

namespace Keeps

section

variable (keeps : tree.Keeps laws levels)
include keeps

theorem rewriteLeaf {cell : LeafNode leafSize K H V}
    (split : levels.leaves = before ++ leaf :: after)
    (reads : cell.Represents ops.toKeyOps leaf.view) :
    (tree.write leaf.id (.leaf cell)).Keeps laws levels := by
  have same : { levels with leaves := before ++ ⟨leaf.id, leaf.view⟩ :: after } = levels := by
    rw [← split]
  have written := keeps.represents.writeLeaf split reads
    (by rw [same]; exact keeps.represents.wellFormed) (by rw [same]; exact keeps.represents.within)
  rw [same] at written
  exact ⟨written, keeps.once, keeps.allocated⟩

variable {it : Iterator K V}

theorem advance_eq (raw : Ptr → Nat → Byte) {kv : KVPair K V} {rest : List (KVPair K V)}
    (stands : tree.Stands ops levels.leaves it (kv :: rest)) :
    ∃ it' tree', tree.advance ops raw it = .ok (it', tree') ∧ tree'.Keeps laws levels ∧
      tree'.Stands ops levels.leaves it' rest := by
  obtain ⟨kvEq, before, leaf, after, front, back, cell, split, entriesEq, rfl, nodeEq, posEq,
    stored, arranged, versionEq⟩ := stands
  have loaded : tree.leafAt leaf.id = .ok cell := by rw [leafAt, stored]
  have access : tree.accessAt ops raw it.node it.kv (it.pos + 1) it.version =
      .ok (⟨leaf.id, it.version, back.head?, front.length + 1⟩,
        tree.write leaf.id (.leaf cell)) := by
    have next : leaf.view.entries[front.length + 1]? = back.head? := by
      rw [entriesEq, getElem?_append_right (Nat.le_add_right _ _), Nat.add_sub_cancel_left,
        getElem?_cons_succ, head?_eq_getElem?]
    rw [accessAt, nodeEq, loaded, posEq, ← versionEq]
    simp only [ok_bind, arranged.access_eq, next]
    rfl
  have written := keeps.rewriteLeaf split arranged.toRepresents
  have loadedAgain : (tree.write leaf.id (.leaf cell)).leafAt leaf.id = .ok cell := by
    rw [leafAt, nodes_write_self]
  obtain ⟨rounds, enough⟩ : ∃ rounds, tree.fresh = rounds + 1 :=
    ⟨tree.fresh - 1, by have positive := keeps.represents.length_lt_fresh; unfold Ptr at *; omega⟩
  rw [advance, kvEq]
  simp only [ok_bind, ← kvEq, access, enough]
  cases back with
  | cons next back =>
    refine ⟨_, _, rfl, written, rfl, before, leaf, after, front ++ [kv], back, cell, split, ?_, rfl,
      rfl, by simp, nodes_write_self _ _ _, arranged, versionEq⟩
    rw [entriesEq, append_cons]
  | nil =>
    simp only [advanceOver, head?_nil, bind, Except.bind, loadedAgain,
      written.represents.siblingPtr_eq split arranged.toRepresents]
    cases after with
    | nil => exact ⟨_, _, rfl, written, rfl⟩
    | cons next after =>
      have nextSplit : levels.leaves = (before ++ [leaf]) ++ next :: after := by
        rw [split, append_cons]
      have apart : leaf.id ≠ next.id := by
        have others := (written.represents.ne_leaf nextSplit).1
        exact others leaf.id (by simp)
      obtain ⟨nextCell, nextLoaded, _, _⟩ := written.represents.leafAt_eq next (by simp [split])
      obtain ⟨sorted, nextArranged, entered⟩ :=
        written.represents.accessAt_first nextSplit nextLoaded raw
      have proper : (Leaves.ids (next :: after)).headD nullptr ≠ nullptr :=
        written.represents.leaf_ne_nullptr nextSplit
      rw [if_neg proper]
      have sortedTree := written.rewriteLeaf nextSplit nextArranged.toRepresents
      have left : ((tree.write leaf.id (.leaf cell)).write next.id (.leaf sorted)).leafAt it.node =
          .ok cell := by
        rw [leafAt, nodeEq, nodes_write_of_ne apart, nodes_write_self]
      simp only [Leaves.ids_cons, headD_cons, nextLoaded, entered, left, if_pos versionEq]
      refine ⟨_, _, rfl, sortedTree, ?_⟩
      have first := sortedTree.represents.stands_first nextSplit
        (nodes_write_self _ _ _) nextArranged
      simpa using first

theorem getBound_eq (raw : Ptr → Nat → Byte) (split : levels.leaves = before ++ leaf :: after)
    (stops : ∀ high, leaf.view.high = some high → key ≤ ops.highKey high)
    (notLast : ¬(upper = true ∧ leaf.view.entries.getLast?.map KVPair.key = some key))
    (changed : Bool) :
    ∃ it tree', tree.getBound ops raw key upper changed leaf.id = .ok (it, tree') ∧
      tree'.Keeps laws levels ∧ it.node = leaf.id ∧
      it.kv = (leaf.view.entries.filter fun kv => decide (LeafNode.Beyond key upper kv.key)).head? ∧
      (it.kv ≠ none → tree'.Stands ops levels.leaves it
        ((leaf.view.entries.filter fun kv => decide (LeafNode.Beyond key upper kv.key)) ++
          after.pairs)) := by
  have listed : leaf ∈ levels.leaves := by simp [split]
  obtain ⟨cell, loaded, stored, reads⟩ := keeps.represents.leafAt_eq leaf listed
  have stays := keeps.represents.moveRight_of_stops listed stops changed
  -- the same once the leaf is known to be sorted
  have search : ∀ (sorted : LeafNode leafSize K H V) (tree' : Tree leafSize K H V Mid Inner),
      sorted.Arranged ops.toKeyOps leaf.view → tree'.nodes leaf.id = some (.leaf sorted) →
      ∃ kv pos, sorted.bound ops.toKeyOps key upper = .ok (kv, pos) ∧
        kv = (leaf.view.entries.filter fun kv => decide (LeafNode.Beyond key upper kv.key)).head? ∧
        (kv ≠ none → tree'.Stands ops levels.leaves ⟨leaf.id, sorted.control.version, kv, pos⟩
          ((leaf.view.entries.filter fun kv => decide (LeafNode.Beyond key upper kv.key)) ++
            after.pairs)) := by
    intro sorted tree' arranged storedSorted
    have exact := (LeafNode.boundExact_iff arranged.inOrder key upper).mpr notLast
    rcases exact.split arranged.inOrder.ascending with
      ⟨front, kv, back, entriesEq, filtered, result⟩ | ⟨filtered, pos, result⟩
    · refine ⟨some kv, front.length, result, by rw [filtered, head?_cons], fun _ => ?_⟩
      rw [filtered]
      exact ⟨rfl, before, leaf, after, front, back, sorted, split, entriesEq, rfl, rfl, rfl,
        storedSorted, arranged, rfl⟩
    · exact ⟨none, pos, result, by rw [filtered, head?_nil], fun absurdity =>
        absurd rfl absurdity⟩
  rw [getBound, stays]
  simp only [bind, Except.bind, loaded, stays]
  by_cases isOrdered : cell.control.ordered = true
  · obtain ⟨kv, pos, result, kvEq, stands⟩ := search cell tree
      (reads.arranged isOrdered (keeps.represents.bounded split)) stored
    simp only [if_pos isOrdered, result]
    exact ⟨_, _, rfl, keeps, rfl, kvEq, stands⟩
  · obtain ⟨sorted, sortedEq, arranged⟩ :=
      reads.exists_arranged (keeps.represents.bounded split) (raw leaf.id)
    obtain ⟨kv, pos, result, kvEq, stands⟩ :=
      search sorted (tree.write leaf.id (.leaf sorted)) arranged (nodes_write_self _ _ _)
    simp only [if_neg isOrdered, sortedEq, result]
    exact ⟨_, _, rfl, keeps.rewriteLeaf split arranged.toRepresents, rfl, kvEq, stands⟩

theorem boundOver_eq (raw : Ptr → Nat → Byte)
    (split : levels.leaves = before ++ leaf :: after) (larger : ∀ kv ∈ after.pairs, key < kv.key)
    (beyond : ∀ bound ∈ after.bounds, key < ops.highKey bound) (node : it.node = leaf.id)
    (none : it.kv = none) (changed : Bool) {fuel : Nat} (enough : after.length < fuel) :
    ∃ it' tree', boundOver ops raw key upper changed fuel (it, tree) = .ok (it', tree') ∧
      tree'.Keeps laws levels ∧ tree'.Stands ops levels.leaves it' after.pairs := by
  induction after generalizing before leaf tree it fuel with
  | nil =>
    obtain ⟨rounds, rfl⟩ := Nat.exists_eq_add_one.mpr (by omega : 0 < fuel)
    obtain ⟨cell, loaded, _, reads⟩ := keeps.represents.leafAt_eq leaf (by simp [split])
    simp only [boundOver, none, node, loaded, ok_bind, keeps.represents.siblingPtr_eq split reads]
    exact ⟨_, _, rfl, keeps, rfl⟩
  | cons next rest ih =>
    obtain ⟨rounds, rfl⟩ := Nat.exists_eq_add_one.mpr (by omega : 0 < fuel)
    obtain ⟨cell, loaded, _, reads⟩ := keeps.represents.leafAt_eq leaf (by simp [split])
    have nextSplit : levels.leaves = (before ++ [leaf]) ++ next :: rest := by
      rw [split, append_cons]
    have proper : (Leaves.ids (next :: rest)).headD nullptr ≠ nullptr :=
      keeps.represents.leaf_ne_nullptr nextSplit
    rw [Leaves.pairs_cons] at larger ⊢
    rw [Leaves.bounds_cons] at beyond
    have largerHere : ∀ kv ∈ next.view.entries, key < kv.key := fun kv listed =>
      larger kv (mem_append_left _ listed)
    have stops : ∀ high, next.view.high = some high → key ≤ ops.highKey high := fun high highEq =>
      le_of_lt (beyond high (by simp [highEq]))
    have notLast : ¬(upper = true ∧ next.view.entries.getLast?.map KVPair.key = some key) := by
      rintro ⟨_, last⟩
      obtain ⟨kv, kvEq, same⟩ := Option.map_eq_some_iff.mp last
      exact lt_irrefl _ (same ▸ largerHere kv (mem_of_getLast? kvEq))
    have all : (next.view.entries.filter fun kv => decide (LeafNode.Beyond key upper kv.key)) =
        next.view.entries :=
      filter_eq_self.mpr fun kv listed => decide_eq_true (.of_lt (largerHere kv listed))
    obtain ⟨nextIt, nextTree, result, kept, nextNode, nextKv, stands⟩ :=
      keeps.getBound_eq raw nextSplit stops notLast changed
    rw [all] at nextKv stands
    simp only [boundOver, none, node, loaded, bind, Except.bind,
      keeps.represents.siblingPtr_eq split reads, if_neg proper]
    simp only [Leaves.ids_cons, headD_cons, result]
    rw [length_cons, Nat.add_lt_add_iff_right] at enough
    cases entriesEq : next.view.entries with
    | nil =>
      rw [entriesEq] at nextKv
      exact ih kept nextSplit
        (fun kv listed => larger kv (mem_append_right _ listed))
        (fun bound listed => beyond bound (mem_append_right _ listed)) nextNode nextKv enough
    | cons kv others =>
      rw [entriesEq] at nextKv stands
      obtain ⟨more, rfl⟩ := Nat.exists_eq_add_one.mpr (by omega : 0 < rounds)
      refine ⟨nextIt, nextTree, ?_, kept, stands (by simp [nextKv])⟩
      simp only [boundOver, nextKv, head?_cons]

theorem bound_eq (raw : Ptr → Nat → Byte)
    (valid : laws.Valid key) (upper : Bool) (notLast : ∀ leaf ∈ levels.leaves,
      ¬(upper = true ∧ leaf.view.entries.getLast?.map KVPair.key = some key)) :
    ∃ it tree', tree.bound ops raw key upper = .ok (it, tree') ∧ tree'.Keeps laws levels ∧
      tree'.Stands ops levels.leaves it
        (levels.leaves.pairs.filter fun kv => decide (LeafNode.Beyond key upper kv.key)) := by
  obtain ⟨before, leaf, after, found⟩ := keeps.represents.wellFormed.chain.exists_leafOf key
  obtain ⟨path, arrived, current, _, _⟩ := keeps.represents.descend_eq valid found
  obtain ⟨split, located⟩ := keeps.represents.wellFormed.chain.located found
  have enough := keeps.represents.length_lt_fresh
  obtain ⟨rootVersion, rootLoaded⟩ : ∃ version, tree.loadVersion ops tree.root = .ok version := by
    obtain ⟨rounds, roundsEq⟩ : ∃ rounds, tree.fresh = rounds + 1 :=
      ⟨tree.fresh - 1, by unfold Ptr at *; omega⟩
    rw [roundsEq, descend] at arrived
    rw [loadVersion]
    cases stored : tree.nodes tree.root with
    | none =>
      rw [stored] at arrived
      cases arrived
    | some node =>
      cases node with
      | inner cell | leaf cell => exact ⟨_, rfl⟩
  obtain ⟨it, tree', result, kept, node, kvEq, stands⟩ := keeps.getBound_eq raw split located.stops
    (notLast leaf (by simp [split])) (path.version != rootVersion)
  have before_none : (before.pairs.filter fun kv => decide (LeafNode.Beyond key upper kv.key)) =
    [] := by
    apply filter_eq_nil_iff.mpr
    intro kv listed
    rw [decide_eq_true_iff]
    intro beyond
    have smaller := located.smaller kv listed
    cases upper with
    | true => exact lt_asymm smaller beyond
    | false => exact absurd beyond (not_le_of_gt smaller)
  have after_all : (after.pairs.filter fun kv => decide (LeafNode.Beyond key upper kv.key)) =
      after.pairs :=
    filter_eq_self.mpr fun kv listed => decide_eq_true (.of_lt (located.larger kv listed))
  have short : after.length < tree.fresh := by
    have counted := keeps.represents.length_ids_lt_fresh
    rw [Levels.ids, split, length_append, Leaves.ids, length_map, length_append,
      length_cons] at counted
    unfold Ptr at *
    omega
  rw [bound, arrived]
  simp only [ok_bind, rootLoaded, current, result]
  rw [split, Leaves.pairs_append, Leaves.pairs_cons, filter_append, filter_append,
    before_none, after_all, nil_append, ← split]
  cases filtered : leaf.view.entries.filter fun kv => decide (LeafNode.Beyond key upper kv.key) with
  | nil =>
    rw [filtered] at kvEq
    exact kept.boundOver_eq raw split located.larger located.beyond node kvEq _ short
  | cons kv others =>
    rw [filtered] at kvEq stands
    obtain ⟨rounds, roundsEq⟩ : ∃ rounds, tree.fresh = rounds + 1 :=
      ⟨tree.fresh - 1, by unfold Ptr at *; omega⟩
    refine ⟨it, tree', ?_, kept, stands (by simp [kvEq])⟩
    simp only [roundsEq, boundOver, kvEq, head?_cons]

theorem begin_eq (raw : Ptr → Nat → Byte) :
    ∃ it tree', tree.begin ops raw = .ok (it, tree') ∧ tree'.Keeps laws levels ∧
      tree'.Stands ops levels.leaves it levels.leaves.pairs := by
  obtain ⟨leaf, after, split⟩ := exists_cons_of_ne_nil
    keeps.represents.wellFormed.chain.nonempty
  have splitNil : levels.leaves = [] ++ leaf :: after := split
  have track : tree.rootTrack 0 = leaf.id := by
    apply keeps.represents.track_eq
    rw [heads, split]
    rfl
  obtain ⟨cell, loaded, _, _⟩ := keeps.represents.leafAt_eq leaf (by simp [split])
  obtain ⟨sorted, arranged, entered⟩ := keeps.represents.accessAt_first splitNil loaded raw
  have kept := keeps.rewriteLeaf splitNil arranged.toRepresents
  refine ⟨⟨leaf.id, sorted.control.version, leaf.view.entries[0]?, 0⟩, _, ?_, kept, ?_⟩
  · rw [begin, trackAt, if_pos (by decide), track]
    simp only [ok_bind, loaded, entered]
  · have first := kept.represents.stands_first splitNil (nodes_write_self _ _ _) arranged
    rwa [split, Leaves.pairs_cons, ← split]

theorem scanOver_eq (raw : Ptr → Nat → Byte) {pairs : List (KVPair K V)}
    (stands : tree.Stands ops levels.leaves it pairs) (num : Nat) :
    ∃ tree', scanOver ops raw num (it, tree) = .ok (pairs.take num, tree') ∧
      tree'.Keeps laws levels := by
  induction num generalizing tree it pairs with
  | zero => exact ⟨tree, rfl, keeps⟩
  | succ num ih =>
    have kvEq := stands.kv_eq
    cases pairs with
    | nil =>
      refine ⟨tree, ?_, keeps⟩
      simp only [scanOver, kvEq, head?_nil, take_nil]
    | cons kv rest =>
      obtain ⟨next, nextTree, advanced, kept, nextStands⟩ := keeps.advance_eq raw stands
      obtain ⟨last, scanned, lastKept⟩ := ih kept nextStands
      refine ⟨last, ?_, lastKept⟩
      simp only [scanOver, kvEq, head?_cons, advanced, ok_bind, scanned,
        take_succ_cons]
      rfl

theorem scan_eq (raw : Ptr → Nat → Byte) (valid : laws.Valid key) (num : Nat) :
    ∃ tree', tree.scan ops raw key num =
        .ok ((levels.leaves.pairs.filter fun kv => decide (key ≤ kv.key)).take num, tree') ∧
      tree'.Keeps laws levels := by
  obtain ⟨it, next, found, kept, stands⟩ :=
    keeps.bound_eq raw valid false fun _ _ absurdity => absurd absurdity.1 (by simp)
  obtain ⟨last, scanned, lastKept⟩ := kept.scanOver_eq raw stands num
  refine ⟨last, ?_, lastKept⟩
  rw [scan, lowerBound, found]
  exact scanned

end

end Keeps

end Tree

end IndexResearch.FBTree
