import IndexResearch.FBTree.Tree.Walk

/-!
# The order of the tree in memory

What the levels say about the nodes that the root leads to: how the separators of nodes,
siblings, parents and children are ordered, and that every node has one place.
-/

namespace IndexResearch.FBTree

open List

variable {leafSize size : NodeSize} {K H V Mid Inner : Type}

namespace Tree

def highAt (reading : NodeReading K H Mid Inner) (tree : Tree leafSize K H V Mid Inner)
    (ptr : Ptr) : Option H :=
  match tree.nodes ptr with
  | some (.inner cell) => (reading.view cell).seps.getLast?
  | some (.leaf leaf) => some leaf.highKey
  | none => none

def ViewAt (reading : NodeReading K H Mid Inner) (tree : Tree leafSize K H V Mid Inner)
    (height : Nat) (ptr : Ptr) (view : NodeView H) : Prop :=
  tree.AtHeight reading height ptr ∧
    ∃ cell, tree.nodes ptr = some (.inner cell) ∧ reading.view cell = view

/-- A search tree: the separators increase within a node and from a node to its right
sibling, the separator of a child that has a sibling is the last separator of the child, no
two places hold the same child, and no place holds a node that is marked deleted. -/
structure Regular [LinearOrder K] (ops : NodeOps K H Mid Inner)
    (reading : NodeReading K H Mid Inner) (tree : Tree leafSize K H V Mid Inner) : Prop where
  ascending : ∀ height ptr view, tree.ViewAt reading height ptr view →
    Ascending ops.highKey view.seps
  across : ∀ height ptr next view right, tree.ViewAt reading height ptr view →
    tree.sibling ops ptr = .ok next → tree.ViewAt reading height next right →
    Ascending ops.highKey (view.seps ++ right.seps)
  border : ∀ height ptr view (pos : Nat) kid, tree.ViewAt reading (height + 1) ptr view →
    view.kids[pos]? = some kid → tree.sibling ops kid ≠ .ok nullptr →
    view.seps[pos]? = tree.highAt reading kid ∧ (tree.highAt reading kid).isSome
  once : ∀ height ptr view (pos : Nat) height' ptr' view' (position' : Nat) kid,
    tree.ViewAt reading height ptr view → view.kids[pos]? = some kid →
    tree.ViewAt reading height' ptr' view' → view'.kids[position']? = some kid →
    ptr = ptr' ∧ pos = position'
  alive : ∀ height ptr, tree.AtHeight reading height ptr →
    tree.deleted ops ptr = .ok false ∧ ∃ next, tree.sibling ops ptr = .ok next ∧
      (next = nullptr ∨ tree.AtHeight reading height next)

variable [LinearOrder K] {ops : NodeOps K H Mid Inner} {laws : ops.Laws size}
  {tree : Tree leafSize K H V Mid Inner} {levels : Levels K H V}

namespace Represents

section

variable (represents : tree.Represents laws levels)
include represents
variable {level : Level H}

theorem exists_cell
    {node : LevelNode H} (levelListed : level ∈ levels.inner) (listed : node ∈ level) :
    ∃ height cell, tree.AtHeight laws.toNodeReading height node.id ∧
      tree.nodes node.id = some (.inner cell) ∧ laws.WellFormed cell ∧
      laws.view cell = node.view := by
  obtain ⟨index, levelEq⟩ := getElem?_of_mem levelListed
  obtain ⟨cell, stored, reads⟩ := represents.upper level levelListed node listed
  have row : (rows levels)[index + 1]? = some level.ids := by
    rw [rows, getElem?_cons_succ, getElem?_map, levelEq]
    rfl
  exact ⟨index + 1, cell, represents.atHeight_of_mem row (mem_map_of_mem listed), stored,
    reads.wellFormed, reads.view_eq⟩

theorem exists_node {height : Nat} {ptr : Ptr}
    {view : NodeView H} (viewAt : tree.ViewAt laws.toNodeReading height ptr view) :
    ∃ below level before after, height = below + 1 ∧ levels.inner[below]? = some level ∧
      level = before ++ (⟨ptr, view⟩ : LevelNode H) :: after := by
  obtain ⟨atHeight, cell, stored, rfl⟩ := viewAt
  obtain ⟨row, rowEq, listed⟩ := represents.mem_row atHeight
  cases height with
  | zero =>
    cases rowEq
    obtain ⟨leaf, leafListed, rfl⟩ := mem_map.mp listed
    obtain ⟨leafCell, leafStored, _⟩ := represents.ground leaf leafListed
    rw [stored] at leafStored
    cases leafStored
  | succ below =>
    rw [rows, getElem?_cons_succ, getElem?_map] at rowEq
    obtain ⟨level, levelEq, rfl⟩ := Option.map_eq_some_iff.mp rowEq
    obtain ⟨node, nodeListed, rfl, cell', stored', reads⟩ := represents.reads_of_mem levelEq listed
    cases stored.symm.trans stored'
    obtain ⟨before, after, split⟩ := append_of_mem nodeListed
    exact ⟨below, level, before, after, rfl, levelEq, by rw [split, reads.view_eq]⟩

theorem wellFormed_inner {height : Nat} {ptr : Ptr} {cell : Inner}
    (atHeight : tree.AtHeight laws.toNodeReading height ptr)
    (stored : tree.nodes ptr = some (.inner cell)) : laws.WellFormed cell := by
  obtain ⟨_, level, before, after, _, levelEq, rfl⟩ :=
    represents.exists_node ⟨atHeight, cell, stored, rfl⟩
  obtain ⟨other, stored', reads⟩ := represents.upper _ (mem_of_getElem? levelEq) ⟨ptr, _⟩
    (mem_append_right _ mem_cons_self)
  cases stored.symm.trans stored'
  exact reads.wellFormed

theorem eq_of_mem
    (levelListed : level ∈ levels.inner) {node other : LevelNode H} (listed : node ∈ level)
    (otherListed : other ∈ level) (sameId : node.id = other.id) : node = other := by
  obtain ⟨_, innerDistinct, _⟩ := nodup_append.mp represents.addressed.distinct
  have distinct := (nodup_flatMap.mp innerDistinct).1 level levelListed
  exact inj_on_of_nodup_map distinct listed otherListed sameId

theorem ascending_seps (listed : level ∈ levels.inner) : Ascending ops.highKey level.seps:=
  represents.wellFormed.stacked.ascending represents.wellFormed.chain.ascending_bounds listed

theorem across {height : Nat} {ptr next : Ptr}
    {view right : NodeView H} (viewAt : tree.ViewAt laws.toNodeReading height ptr view)
    (sibling : tree.sibling ops ptr = .ok next)
    (rightAt : tree.ViewAt laws.toNodeReading height next right) :
    Ascending ops.highKey (view.seps ++ right.seps) := by
  obtain ⟨below, level, before, after, rfl, levelEq, split⟩ := represents.exists_node viewAt
  obtain ⟨below', level', before', after', sameHeight, levelEq', split'⟩ :=
    represents.exists_node rightAt
  cases sameHeight
  cases levelEq.symm.trans levelEq'
  have listed := mem_of_getElem? levelEq
  have shape := represents.wellFormed.stacked.shape listed
  have rising := represents.ascending_seps listed
  have rightListed : (⟨next, right⟩ : LevelNode H) ∈ level := by simp [split']
  have proper : next ≠ nullptr := by
    apply ne_of_gt
    apply (represents.addressed.allocated next _).1
    apply mem_append_right
    exact mem_flatMap.mpr ⟨level, listed, mem_map_of_mem rightListed⟩
  obtain ⟨cell, stored, reads⟩ := represents.upper level listed ⟨ptr, view⟩ (by simp [split])
  have linkEq := laws.link_eq cell
  rw [Tree.sibling, stored] at sibling
  have nextEq := Except.ok.inj sibling
  split at nextEq
  · rename_i linked
    rw [if_pos linked, reads.view_eq, nextEq] at linkEq
    rw [split] at shape
    obtain ⟨chained, _⟩ := (linked_append.mp shape.linked).2
    have successor : some next = (after.head?.map LevelNode.id).or none := linkEq.symm.trans chained
    cases after with
    | nil => cases successor
    | cons follower rest =>
      have sameId : next = follower.id := by simpa using successor
      have same := represents.eq_of_mem listed rightListed (by simp [split]) sameId
      rw [split, ← same] at rising
      simp only [Level.seps_append, Level.seps_cons] at rising
      refine List.Pairwise.sublist ?_ rising
      rw [← append_assoc view.seps]
      exact (sublist_append_left _ _).trans (sublist_append_right _ _)
  · exact absurd nextEq.symm proper

end

def HighRow (laws : ops.Laws size) (tree : Tree leafSize K H V Mid Inner) (row : List Ptr)
    (bounds : List H) : Prop :=
  ∀ (pos : Nat) ptr, row[pos]? = some ptr → tree.sibling ops ptr ≠ .ok nullptr →
    bounds[pos]? = tree.highAt laws.toNodeReading ptr ∧
      (tree.highAt laws.toNodeReading ptr).isSome

theorem HighRow.of_chain {Item : Type} {name : Item → Ptr} {high : Item → Option H}
    {items : List Item} (full : ∀ before item after, items = before ++ item :: after →
      (before.filterMap high).length = before.length)
    (highs : ∀ item ∈ items, tree.sibling ops (name item) ≠ .ok nullptr → ∃ bound,
      high item = some bound ∧ tree.highAt laws.toNodeReading (name item) = some bound) :
    HighRow laws tree (items.map name) (items.filterMap high) := by
  intro pos ptr here sibling
  rw [getElem?_map] at here
  obtain ⟨item, itemEq, rfl⟩ := Option.map_eq_some_iff.mp here
  obtain ⟨bound, highEq, stored⟩ := highs item (mem_of_getElem? itemEq) sibling
  obtain ⟨inside, itemHere⟩ := List.getElem?_eq_some_iff.mp itemEq
  have split : items = items.take pos ++ item :: items.drop (pos + 1) := by
    rw [← itemHere, cons_getElem_drop_succ, take_append_drop]
  have length := full _ _ _ split
  rw [length_take_of_le (Nat.le_of_lt inside)] at length
  rw [stored]
  refine ⟨?_, rfl⟩
  rw [split, filterMap_append, filterMap_cons, highEq,
    getElem?_append_right (Nat.le_of_eq length), length, Nat.sub_self]
  rfl

theorem highRow_leaves (represents : tree.Represents laws levels) :
    HighRow laws tree levels.leaves.ids levels.leaves.bounds := by
  apply HighRow.of_chain
  · intro before leaf after split
    have chain := represents.wellFormed.chain
    rw [split] at chain
    rw [← length_map LeafCell.id]
    exact chain.length_bounds_before
  · intro leaf listed sibling
    obtain ⟨cell, stored, reads⟩ := represents.ground leaf listed
    have high := reads.high
    rw [highAt, stored]
    rw [Tree.sibling, stored] at sibling
    by_cases linked : cell.control.sibling = true
    · rw [if_pos linked] at high
      exact ⟨cell.highKey, high, rfl⟩
    · simp [LeafNode.siblingPtr, reads.deleted, linked] at sibling

variable {level : Level H} {height : Nat}

theorem highRow_level (represents : tree.Represents laws levels)
    (levelListed : level ∈ levels.inner) : HighRow laws tree level.ids level.bounds := by
  have shape := represents.wellFormed.stacked.shape levelListed
  apply HighRow.of_chain
  · intro before node after split
    rw [split] at shape
    rw [← length_map LevelNode.id]
    exact shape.length_bounds_before
  · intro node listed sibling
    obtain ⟨cell, stored, reads⟩ := represents.upper level levelListed node listed
    have link := laws.link_eq cell
    rw [highAt, stored]
    rw [Tree.sibling, stored] at sibling
    by_cases linked : (ops.control cell).sibling = true
    · rw [if_pos linked, reads.view_eq] at link
      obtain ⟨high, highEq, last⟩ := shape.high_isSome listed (by simp [link])
      refine ⟨high, highEq, ?_⟩
      rw [← last, ← reads.view_eq]
    · simp [linked] at sibling

omit [LinearOrder K] in
theorem bounds_below {bounds : List H} {ids : List Ptr} {inner : List (Level H)}
    (stacked : Stacked size bounds ids inner) (here : inner[height]? = some level) :
    (bounds :: inner.map Level.bounds)[height]? = some level.seps := by
  induction inner generalizing bounds ids height with
  | nil => cases here
  | cons first above ih =>
    obtain ⟨seps, _, _, _, aboveStacked⟩ := stacked
    cases height with
    | zero =>
      cases here
      rw [seps]
      rfl
    | succ height => exact ih aboveStacked here

theorem highRow_below (represents : tree.Represents laws levels)
    (levelEq : levels.inner[height]? = some level) : HighRow laws tree level.kids level.seps := by
  have kidsEq := rows_below represents.wellFormed.stacked levelEq
  have sepsEq := bounds_below represents.wellFormed.stacked levelEq
  cases height with
  | zero =>
    rw [← Option.some.inj kidsEq, ← Option.some.inj sepsEq]
    exact represents.highRow_leaves
  | succ height =>
    rw [getElem?_cons_succ, getElem?_map] at kidsEq sepsEq
    obtain ⟨lower, lowerEq, kids⟩ := Option.map_eq_some_iff.mp kidsEq
    rw [lowerEq] at sepsEq
    rw [← kids, ← Option.some.inj sepsEq]
    exact represents.highRow_level (mem_of_getElem? lowerEq)

theorem border (represents : tree.Represents laws levels) {ptr kid : Ptr}
    {view : NodeView H} {pos : Nat} (viewAt : tree.ViewAt laws.toNodeReading (height + 1) ptr view)
    (kidHere : view.kids[pos]? = some kid) (sibling : tree.sibling ops kid ≠ .ok nullptr) :
    view.seps[pos]? = tree.highAt laws.toNodeReading kid ∧
      (tree.highAt laws.toNodeReading kid).isSome := by
  obtain ⟨below, level, before, after, sameHeight, levelEq, rfl⟩ := represents.exists_node viewAt
  cases sameHeight
  have shape := represents.wellFormed.stacked.shape (mem_of_getElem? levelEq)
  obtain ⟨inside, _⟩ := List.getElem?_eq_some_iff.mp kidHere
  have counted : view.kids.length = view.seps.length + if view.link.isSome then 0 else 1 :=
    (shape.sound ⟨ptr, view⟩ (by simp)).kids_length
  have here : (Level.kids (before ++ ⟨ptr, view⟩ :: after))[before.kids.length + pos]? =
      some kid := by
    rw [Level.kids_append, getElem?_append_right (Nat.le_add_right _ _),
      Nat.add_sub_cancel_left, Level.kids_cons, getElem?_append_left inside]
    exact kidHere
  have highs := represents.highRow_below levelEq _ _ here sibling
  rw [shape.length_kids_before, Level.seps_append,
    getElem?_append_right (Nat.le_add_right _ _), Nat.add_sub_cancel_left, Level.seps_cons]
    at highs
  rcases Nat.lt_or_ge pos view.seps.length with short | long
  · rwa [getElem?_append_left short] at highs
  · -- the last child of the rightmost node has no separator
    have last : view.link = none := by
      by_contra linked
      rw [if_pos (Option.isSome_iff_ne_none.mpr linked)] at counted
      omega
    obtain rfl := shape.link_eq_none.mp last
    rwa [Level.seps_nil, append_nil] at highs

theorem row_unique {lists : List (List Ptr)} (distinct : lists.flatten.Nodup) {first second : Nat}
    {row row' : List Ptr} {ptr : Ptr} (rowEq : lists[first]? = some row)
    (rowEq' : lists[second]? = some row') (listed : ptr ∈ row) (listed' : ptr ∈ row') :
    first = second := by
  obtain ⟨_, apart⟩ := nodup_flatten.mp distinct
  obtain ⟨inside, rfl⟩ := List.getElem?_eq_some_iff.mp rowEq
  obtain ⟨inside', rfl⟩ := List.getElem?_eq_some_iff.mp rowEq'
  rcases Nat.lt_trichotomy first second with before | same | after
  · exact absurd listed'
      (pairwise_iff_getElem.mp apart first second inside inside' before listed)
  · exact same
  · exact absurd listed
      (pairwise_iff_getElem.mp apart second first inside' inside after listed')

theorem once (represents : tree.Represents laws levels) {height' : Nat} {ptr ptr' kid : Ptr}
    {view view' : NodeView H} {pos position' : Nat}
    (viewAt : tree.ViewAt laws.toNodeReading height ptr view) (kidHere : view.kids[pos]? = some kid)
    (viewAt' : tree.ViewAt laws.toNodeReading height' ptr' view')
    (kidHere' : view'.kids[position']? = some kid) : ptr = ptr' ∧ pos = position' := by
  obtain ⟨below, level, before, after, rfl, levelEq, split⟩ := represents.exists_node viewAt
  obtain ⟨below', level', before', after', rfl, levelEq', split'⟩ := represents.exists_node viewAt'
  have distinct := represents.addressed.distinct
  rw [← rows_flatten] at distinct
  have stacked := represents.wellFormed.stacked
  have kidsEq := rows_below stacked levelEq
  have listed : (⟨ptr, view⟩ : LevelNode H) ∈ level := by simp [split]
  have listed' : (⟨ptr', view'⟩ : LevelNode H) ∈ level' := by simp [split']
  have kidListed := mem_of_getElem? kidHere
  have kidListed' := mem_of_getElem? kidHere'
  obtain rfl : below = below' := by
    apply row_unique distinct kidsEq (rows_below stacked levelEq')
    · exact mem_flatMap.mpr ⟨_, listed, kidListed⟩
    · exact mem_flatMap.mpr ⟨_, listed', kidListed'⟩
  cases levelEq.symm.trans levelEq'
  have kidsDistinct : level.kids.Nodup :=
    (nodup_flatten.mp distinct).1 _ (mem_of_getElem? kidsEq)
  have same := Level.parent_unique kidsDistinct listed listed' kidListed kidListed'
  cases same
  refine ⟨rfl, ?_⟩
  have viewDistinct := (nodup_flatMap.mp kidsDistinct).1 _ listed
  obtain ⟨inside, kidEq⟩ := List.getElem?_eq_some_iff.mp kidHere
  obtain ⟨inside', kidEq'⟩ := List.getElem?_eq_some_iff.mp kidHere'
  exact (List.Nodup.getElem_inj_iff viewDistinct).mp (kidEq.trans kidEq'.symm)

theorem regular (represents : tree.Represents laws levels) :
    tree.Regular ops laws.toNodeReading where
  ascending height ptr view viewAt := by
    obtain ⟨below, level, before, after, rfl, levelEq, split⟩ := represents.exists_node viewAt
    have rising := represents.ascending_seps (mem_of_getElem? levelEq)
    rw [split, Level.seps_append, Level.seps_cons] at rising
    exact (ascending_append.mp (ascending_append.mp rising).2.1).1
  across _ _ _ _ _ := represents.across
  border _ _ _ _ _ := represents.border
  once _ _ _ _ _ _ _ _ _ := represents.once
  alive height ptr atHeight := by
    obtain ⟨row, rowEq, listed⟩ := represents.mem_row atHeight
    have walks := represents.walksRow (mem_of_getElem? rowEq)
    obtain ⟨next, sibling, stays⟩ := walks.next ptr listed
    refine ⟨walks.alive ptr listed, next, sibling, ?_⟩
    rcases stays with null | inRow
    · exact .inl null
    · exact .inr (represents.atHeight_of_mem rowEq inRow)

end Represents

end Tree

end IndexResearch.FBTree
