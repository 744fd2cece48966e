import IndexResearch.BLinkTree.Represents

/-!
# Descents in the B-link tree

Without other threads at work, the loops from the root to a leaf go down the levels
without a step to a sibling.
-/

namespace IndexResearch.BLinkTree

open LinkedLevels List

variable {K V : Type} [LinearOrder K]

/-- The loops go on from a node to one of its children.  `hit` tells whether the key is
one of its separators. -/
structure BLinkNode.Passes (node : BLinkNode K V) (key : K) (next : Ptr) (hit : Bool) : Prop where
  inner : node.isLeaf = false
  stays : node.isBefore key = .ok false
  child : ∃ index, node.nodeScan key = .ok index ∧ node.child index = .ok next ∧
    node.hasAt index key = .ok hit

theorem BLinkNode.IsBranch.passes {size : Nat} {node : BLinkNode K V}
    {branch : Branch (WithTop K) Ptr} {keys : List K} {left right : List (WithTop K × Ptr)}
    {cell : WithTop K × Ptr} {key : K} (isBranch : node.IsBranch size branch keys)
    (rising : Ascending Prod.fst branch.cells) (cells_eq : branch.cells = left ++ cell :: right)
    (smaller : ∀ cell ∈ left, cell.1 < key) (upTo : (key : WithTop K) ≤ cell.1) :
    node.Passes key cell.2 (findKey id keys key).isSome := by
  have rank := isBranch.rankIn_keys rising cells_eq smaller upTo
  have keysAscending := isBranch.ascending_keys rising
  have withinBound : (key : WithTop K) ≤ branch.bound :=
    le_trans upTo (Branch.le_bound rising (by rw [cells_eq]; exact mem_append_cons_self))
  refine ⟨isBranch.kind, isBranch.isBefore_eq_false withinBound, left.length, ?_, ?_, ?_⟩
  · rw [isBranch.toHoldsKeys.nodeScan_eq keysAscending, rank]
  · exact isBranch.child_eq_of_cells cells_eq
  · rw [← rank]
    exact isBranch.toHoldsKeys.hasAt_eq keysAscending key

namespace Tree

/-- The nodes on the way to `next`, the last one first. -/
inductive Path (tree : Tree K V) (key : K) : List Ptr → Ptr → Prop
  | root : Path tree key [] tree.root
  | step {stack : List Ptr} {work next : Ptr} {node : BLinkNode K V} {hit : Bool}
      (path : Path tree key stack work) (found : tree.nodes work = some node)
      (passes : node.Passes key next hit) : Path tree key (work :: stack) next

variable {tree : Tree K V} {key : K} {stack : List Ptr} {next : Ptr}

namespace Path

theorem traverseInner_eq (path : tree.Path key stack next) (fuel : Nat) :
    tree.traverseInner key (stack.length + fuel) tree.root = tree.traverseInner key fuel next := by
  induction path generalizing fuel with
  | root => rw [length_nil, Nat.zero_add]
  | step path found passes ih =>
    obtain ⟨index, scanned, child, _⟩ := passes.child
    rw [length_cons, Nat.add_assoc, Nat.add_comm 1, ih, traverseInner,
      nodeAt_eq found]
    simp only [ok_bind, passes.inner, passes.stays, scanned, child, Bool.false_eq_true,
      if_false]

theorem searchUnsafeFrom_eq (path : tree.Path key stack next) (fuel : Nat) :
    tree.searchUnsafeFrom key (stack.length + fuel) tree.root =
      tree.searchUnsafeFrom key fuel next := by
  induction path generalizing fuel with
  | root => rw [length_nil, Nat.zero_add]
  | step path found passes ih =>
    obtain ⟨index, scanned, child, _⟩ := passes.child
    rw [length_cons, Nat.add_assoc, Nat.add_comm 1, ih, searchUnsafeFrom,
      nodeAt_eq found]
    simp only [ok_bind, passes.inner, passes.stays, scanned, child, Bool.false_eq_true,
      if_false]

theorem insertPath_eq (path : tree.Path key stack next) (fuel : Nat) :
    tree.insertPath key (stack.length + fuel) [] tree.root = tree.insertPath key fuel stack next ∨
      (tree.insertPath key (stack.length + fuel) [] tree.root = .ok none ∧
        ∃ work ∈ stack, ∃ node child, tree.nodes work = some node ∧
        node.Passes key child true) := by
  induction path generalizing fuel with
  | root =>
    left
    rw [length_nil, Nat.zero_add]
  | @step stack work next node hit path found passes ih =>
    obtain ⟨index, scanned, child, hits⟩ := passes.child
    rw [length_cons, Nat.add_assoc, Nat.add_comm 1]
    rcases ih (fuel + 1) with further | ⟨ended, met, metListed, rest⟩
    · rw [further, insertPath, nodeAt_eq found]
      simp only [ok_bind, passes.inner, passes.stays, scanned, child, hits,
        Bool.false_eq_true, if_false]
      cases hit with
      | false =>
        left
        rfl
      | true =>
        right
        exact ⟨rfl, work, mem_cons_self, node, next, found, passes⟩
    · right
      exact ⟨ended, met, mem_cons_of_mem _ metListed, rest⟩

end Path

/-! ## Paths through the levels -/

variable {size : Nat} {rows : List (List (Branch (WithTop K) Ptr))}
  {before after cells : List (WithTop K × Ptr)} {cell : WithTop K × Ptr}

theorem Holds.path (holds : tree.Holds size rows) (leads : Leads rows before cell after stack)
    (stacked : Stacked (⊤, tree.root) (before ++ cell :: after) rows)
    (rising : Ascending Prod.fst (before ++ cell :: after))
    (smaller : ∀ other ∈ before, other.1 < key) (upTo : (key : WithTop K) ≤ cell.1) :
    tree.Path key stack cell.2 := by
  induction leads with
  | top =>
    have single := singleton_injective stacked
    rw [single]
    exact .root
  | @up above front back branch left right cell stack cells_eq higher ih =>
    obtain ⟨node, keys, found, isBranch⟩ := holds.stored _ mem_cons_self branch
      mem_append_cons_self
    have branchAscending := stacked.ascending_branch rising mem_cons_self
      mem_append_cons_self
    obtain ⟨flat, _, upper⟩ := stacked
    rw [← flat] at rising
    have passes := isBranch.passes branchAscending cells_eq
      (fun other listed => smaller other (mem_append_right _ listed)) upTo
    rw [map_append, map_cons] at upper
    refine .step (ih holds.above upper ?_ ?_ ?_) found passes
    · have rowAscending := ascending_row rising
      rwa [map_append, map_cons] at rowAscending
    · intro other listed
      obtain ⟨passed, passedListed, rfl⟩ := mem_map.mp listed
      obtain ⟨lower, lowerListed, boundEq⟩ := Branch.cell_mem_bounds passedListed
      change passed.bound < key
      rw [← boundEq]
      exact smaller lower (mem_append_left _ lowerListed)
    · exact le_trans upTo
        (Branch.le_bound branchAscending (by rw [cells_eq]; exact mem_append_cons_self))

theorem Holds.bound_of_separator (holds : tree.Holds size rows)
    (stacked : Stacked (⊤, tree.root) cells rows) (rising : Ascending Prod.fst cells)
    (leads : Leads rows before cell after stack) {work child : Ptr} {node : BLinkNode K V}
    (listed : work ∈ stack) (found : tree.nodes work = some node)
    (passes : node.Passes key child true) : ∃ other ∈ cells, other.1 = key := by
  obtain ⟨row, rowListed, branch, branchListed, rfl⟩ := leads.exists_branch listed
  obtain ⟨stored, keys, storedEq, isBranch⟩ := holds.stored row rowListed branch branchListed
  cases found.symm.trans storedEq
  have keysAscending := isBranch.ascending_keys
    (stacked.ascending_branch rising rowListed branchListed)
  obtain ⟨index, scanned, _, hits⟩ := passes.child
  rw [isBranch.toHoldsKeys.nodeScan_eq keysAscending, Except.ok.injEq] at scanned
  rw [← scanned, isBranch.toHoldsKeys.hasAt_eq keysAscending, Except.ok.injEq] at hits
  obtain ⟨met, metEq⟩ := Option.isSome_iff_exists.mp hits
  obtain ⟨metListed, rfl⟩ := keysAscending.findKey_eq_some.mp metEq
  obtain ⟨cell, cellListed, boundEq⟩ := isBranch.mem_keys metListed
  obtain ⟨other, otherListed, same⟩ := stacked.bound_mem rowListed branchListed cellListed
  exact ⟨other, otherListed, same.trans boundEq⟩

/-! ## The leaf of a key -/

structure Located (leaves before : List (Leaf K V)) (leaf : Leaf K V) (after : List (Leaf K V))
    (key : K) : Prop where
  leaves_eq : leaves = before ++ leaf :: after
  smaller : ∀ other ∈ before, other.bound < key
  upTo : (key : WithTop K) ≤ leaf.bound

variable {params : Parameters} {leaves front back : List (Leaf K V)} {leaf : Leaf K V}

theorem Located.entries_eq (located : Located leaves front leaf back key) :
    leaves.flatMap Leaf.entries =
      front.flatMap Leaf.entries ++ (leaf.entries ++ back.flatMap Leaf.entries) := by
  rw [located.leaves_eq, flatMap_append, flatMap_cons]

theorem Located.listed (located : Located leaves front leaf back key) : leaf ∈ leaves := by
  rw [located.leaves_eq]
  exact mem_append_cons_self

namespace Represents

theorem exists_located (represents : tree.Represents params leaves rows) (key : K) :
    ∃ before leaf after, Located leaves before leaf after key := by
  obtain ⟨front, last, leaves_eq⟩ : ∃ front last, leaves = front ++ [last] := by
    rcases eq_nil_or_concat leaves with rfl | ⟨front, last, leaves_eq⟩
    · exact absurd rfl represents.stacked.cells_ne_nil
    · exact ⟨front, last, by rw [leaves_eq, concat_eq_append]⟩
  have noLink : last.link = none := by
    have linked := represents.linked
    rw [leaves_eq] at linked
    exact linked.link_eq_none.mpr rfl
  have listed : last ∈ leaves := by
    rw [leaves_eq]
    exact mem_append_cons_self
  have stops : decide ((key : WithTop K) ≤ last.bound) = true := by
    rw [Leaf.bound, noLink]
    exact decide_eq_true le_top
  obtain ⟨before, leaf, after, found⟩ :=
    @exists_focus _ (fun leaf : Leaf K V => decide ((key : WithTop K) ≤ leaf.bound)) _ _ listed
      stops
  obtain ⟨split, passed, stop⟩ := focus_eq_some.mp found
  exact ⟨before, leaf, after, split,
    fun other listed => lt_of_not_ge (of_decide_eq_false (passed other listed)),
    of_decide_eq_true stop⟩

theorem count_lt (represents : tree.Represents params leaves rows) :
    leaves.length + rows.length < tree.fresh := by
  have addresses : (nullptr :: (leaves.map Leaf.id ++ rowIds rows)).Nodup := by
    rw [nodup_cons, nodup_append]
    refine ⟨?_, represents.leafNodup, represents.nodup, ?_⟩
    · rw [mem_append]
      rintro (listed | listed)
      · obtain ⟨leaf, leafListed, same⟩ := mem_map.mp listed
        exact (represents.leafAllocated leaf leafListed).1 same
      · exact (represents.allocated _ listed).1 rfl
    · rintro ptr listed _ other rfl
      obtain ⟨leaf, leafListed, rfl⟩ := mem_map.mp listed
      exact represents.disjoint leaf leafListed other
  have positive : 0 < tree.fresh := by
    obtain ⟨leaf, listed⟩ := exists_mem_of_ne_nil leaves fun empty =>
      represents.stacked.cells_ne_nil (by rw [empty]; rfl)
    exact Nat.zero_lt_of_lt (represents.leafAllocated leaf listed).2
  have range : nullptr :: (leaves.map Leaf.id ++ rowIds rows) ⊆ List.range tree.fresh := by
    intro ptr listed
    rw [mem_range]
    rcases mem_cons.mp listed with rfl | listed
    · exact positive
    · rcases mem_append.mp listed with listed | listed
      · obtain ⟨leaf, leafListed, rfl⟩ := mem_map.mp listed
        exact (represents.leafAllocated leaf leafListed).2
      · exact (represents.allocated _ listed).2
  have counted := (subperm_of_subset addresses range).length_le
  have rowsCounted := represents.stacked.length_rows_le
  rw [length_cons, length_append, length_map, length_range] at counted
  omega

variable (represents : tree.Represents params leaves rows)
  (located : Located leaves front leaf back key)
include represents located

theorem smaller_entries : ∀ entry ∈ front.flatMap Leaf.entries, entry.1 < key := by
  intro entry listed
  obtain ⟨other, otherListed, entryListed⟩ := mem_flatMap.mp listed
  have inLeaves : other ∈ leaves := by
    rw [located.leaves_eq]
    exact mem_append_left _ otherListed
  have below := located.smaller other otherListed
  cases link : other.link with
  | none =>
    rw [Leaf.bound, link] at below
    exact absurd below not_top_lt
  | some sibling =>
    obtain ⟨last, lastEq, boundEq⟩ := Leaf.bound_of_link link
      (represents.filled other inLeaves (by rw [link]; simp))
    have rising := represents.ascending
    obtain ⟨left, right, leaves_eq⟩ := append_of_mem inLeaves
    rw [leaves_eq, flatMap_append, flatMap_cons, ascending_append, ascending_append]
      at rising
    rw [boundEq, WithTop.coe_lt_coe] at below
    exact lt_of_le_of_lt (rising.2.1.1.le_getLast lastEq entry entryListed) below

theorem larger_entries : ∀ entry ∈ back.flatMap Leaf.entries, key < entry.1 := by
  intro entry listed
  obtain ⟨other, otherListed, entryListed⟩ := mem_flatMap.mp listed
  have upTo := located.upTo
  have linked := represents.linked
  rw [located.leaves_eq] at linked
  cases link : leaf.link with
  | none =>
    rw [linked.link_eq_none.mp link] at otherListed
    cases otherListed
  | some sibling =>
    obtain ⟨last, lastEq, boundEq⟩ := Leaf.bound_of_link link
      (represents.filled leaf located.listed (by rw [link]; nofun))
    have rising := represents.ascending
    rw [located.leaves_eq, flatMap_append, flatMap_cons, ascending_append,
      ascending_append] at rising
    rw [boundEq, WithTop.coe_le_coe] at upTo
    exact lt_of_le_of_lt upTo (rising.2.1.2.2 last (mem_of_getLast? lastEq) entry listed)

theorem entries_ascending : Ascending Prod.fst leaf.entries := by
  have rising := represents.ascending
  rw [located.entries_eq, ascending_append, ascending_append] at rising
  exact rising.2.1.1

theorem findKey_eq :
    findKey Prod.fst (leaves.flatMap Leaf.entries) key = findKey Prod.fst leaf.entries key := by
  rw [located.entries_eq]
  exact findKey_between (represents.smaller_entries located) (represents.larger_entries located)

theorem exists_path : ∃ stack, Leads rows (front.map Leaf.cell) leaf.cell
    (back.map Leaf.cell) stack ∧ tree.Path key stack leaf.id ∧ stack.length + 1 < tree.fresh := by
  have stacked := represents.stacked
  have rising := represents.cells_ascending
  rw [located.leaves_eq, map_append, map_cons] at stacked rising
  obtain ⟨stack, leads⟩ := stacked.leads
  have fuel : stack.length + 1 < tree.fresh := by
    have counted := represents.count_lt
    rw [located.leaves_eq, length_append, length_cons] at counted
    rw [leads.length_stack]
    omega
  refine ⟨stack, leads, represents.toHolds.path leads stacked rising ?_ located.upTo, fuel⟩
  intro cell listed
  obtain ⟨other, otherListed, rfl⟩ := mem_map.mp listed
  exact located.smaller other otherListed

end Represents

end Tree

end IndexResearch.BLinkTree
