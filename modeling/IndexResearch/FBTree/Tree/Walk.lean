import IndexResearch.FBTree.Tree.Represents

/-!
# The walk along the levels

`~FBTree` and `statistics()` start at every entry of `root_track_` and follow `sibling()`.
They visit the nodes that the root leads to, level by level and each node once.
-/

namespace IndexResearch.FBTree

open List

variable {leafSize size : NodeSize} {K H V Mid Inner : Type}

namespace Tree

section Walk

variable (ops : NodeOps K H Mid Inner) (tree : Tree leafSize K H V Mid Inner)

/-- `sibling()` of the node at an address. -/
def sibling (ptr : Ptr) : Except Fault Ptr :=
  match tree.nodes ptr with
  | some (.inner node) => .ok (if (ops.control node).sibling then ops.next node else nullptr)
  | some (.leaf leaf) => .ok leaf.siblingPtr
  | none => .error .wildPointer

/-- `deleted()` of the node at an address. -/
def deleted (ptr : Ptr) : Except Fault Bool :=
  match tree.nodes ptr with
  | some (.inner node) => .ok (ops.control node).deleted
  | some (.leaf leaf) => .ok leaf.control.deleted
  | none => .error .wildPointer

/-- `while(node)`: the nodes that the loop visits. -/
def walk : Nat → Ptr → Except Fault (List Ptr)
  | 0, _ => .error .endless
  | fuel + 1, node =>
    if node = nullptr then .ok []
    else do
      let next ← tree.sibling ops node
      let rest ← walk fuel next
      return node :: rest

/-- `for(int rid = 0; rid < tree_depth_; rid++)`: the nodes visited on every level. -/
def visited : Except Fault (List (List Ptr)) :=
  (List.range tree.treeDepth).mapM fun rid => do
    let node ← tree.trackAt rid
    tree.walk ops tree.fresh node

end Walk

/-- The nodes that `root_` leads to, with their heights. -/
inductive AtHeight (reading : NodeReading K H Mid Inner) (tree : Tree leafSize K H V Mid Inner) :
    Nat → Ptr → Prop
  | root : AtHeight reading tree (tree.treeDepth - 1) tree.root
  | child {height : Nat} {ptr kid : Ptr} {cell : Inner}
    (above : AtHeight reading tree (height + 1) ptr)
      (stored : tree.nodes ptr = some (.inner cell)) (listed : kid ∈ (reading.view cell).kids) :
      AtHeight reading tree height kid

/-- What `root_track_` promises: the walk along level `height` starts at its leftmost node,
visits the nodes of the tree of that height, each once, and none that is marked deleted or
was given to `retire`. -/
structure Tracked (ops : NodeOps K H Mid Inner) (reading : NodeReading K H Mid Inner)
    (tree : Tree leafSize K H V Mid Inner) (rows : List (List Ptr)) : Prop where
  visited_eq : tree.visited ops = .ok rows
  length_eq : rows.length = tree.treeDepth
  once : rows.flatten.Nodup
  head_eq : ∀ height row, rows[height]? = some row → row.head? = some (tree.rootTrack height)
  leftmost : ∀ height ptr, tree.AtHeight reading height ptr →
    tree.sibling ops ptr ≠ .ok (tree.rootTrack height)
  mem_iff : ∀ height row, rows[height]? = some row →
    ∀ ptr, ptr ∈ row ↔ tree.AtHeight reading height ptr
  alive : ∀ row ∈ rows, ∀ ptr ∈ row, tree.deleted ops ptr = .ok false ∧ ptr ∉ tree.retired
  root_eq : tree.trackAt (tree.treeDepth - 1) = .ok tree.root
  root_alone : tree.sibling ops tree.root = .ok nullptr

def rows (levels : Levels K H V) : List (List Ptr) :=
  levels.leaves.ids :: levels.inner.map Level.ids

structure WalksRow (ops : NodeOps K H Mid Inner) (tree : Tree leafSize K H V Mid Inner)
    (row : List Ptr) : Prop where
  walk_eq : ∀ fuel, row.length < fuel → tree.walk ops fuel (row.headD nullptr) = .ok row
  leftmost : ∀ ptr ∈ row, tree.sibling ops ptr ≠ .ok (row.headD nullptr)
  last : ∀ ptr, row.getLast? = some ptr → tree.sibling ops ptr = .ok nullptr
  next : ∀ ptr ∈ row, ∃ next, tree.sibling ops ptr = .ok next ∧ (next = nullptr ∨ next ∈ row)
  alive : ∀ ptr ∈ row, tree.deleted ops ptr = .ok false

section Linked

variable {ops : NodeOps K H Mid Inner} {tree : Tree leafSize K H V Mid Inner}
  {Item : Type} {name : Item → Ptr} {link : Item → Option Ptr} {items : List Item}

theorem walk_linked (linked : Linked name link none items)
    (siblings : ∀ item ∈ items, tree.sibling ops (name item) = .ok ((link item).getD nullptr))
    (proper : ∀ item ∈ items, name item ≠ nullptr) {fuel : Nat} (enough : items.length < fuel) :
    tree.walk ops fuel ((items.map name).headD nullptr) = .ok (items.map name) := by
  induction items generalizing fuel with
  | nil =>
    obtain ⟨rounds, rfl⟩ := Nat.exists_eq_add_of_lt enough
    rfl
  | cons item rest ih =>
    obtain ⟨rounds, rfl⟩ := Nat.exists_eq_add_one.mpr (by omega : 0 < fuel)
    obtain ⟨linkEq, restLinked⟩ := linked
    obtain ⟨siblingHere, siblingsThere⟩ := forall_mem_cons.mp siblings
    obtain ⟨properHere, properThere⟩ := forall_mem_cons.mp proper
    have later : tree.walk ops rounds ((rest.map name).headD nullptr) = .ok (rest.map name) :=
      ih restLinked siblingsThere properThere (by simpa using enough)
    have next : (link item).getD nullptr = (rest.map name).headD nullptr := by
      rw [linkEq]
      cases rest with
      | nil => rfl
      | cons head others => rfl
    rw [map_cons, headD_cons, walk, if_neg properHere, siblingHere, next]
    simp only [ok_bind, later]
    rfl

theorem sibling_ne_head (linked : Linked name link none items)
    (siblings : ∀ item ∈ items, tree.sibling ops (name item) = .ok ((link item).getD nullptr))
    (proper : ∀ item ∈ items, name item ≠ nullptr) (distinct : (items.map name).Nodup)
    {item : Item} (listed : item ∈ items) :
    tree.sibling ops (name item) ≠ .ok ((items.map name).headD nullptr) := by
  obtain ⟨before, after, rfl⟩ := append_of_mem listed
  obtain ⟨linkEq, _⟩ := (linked_append.mp linked).2
  have headListed : ((before ++ item :: after).map name).headD nullptr ∈
      before.map name ++ [name item] := by
    cases before with
    | nil => simp
    | cons first others => simp
  rw [siblings item listed, linkEq]
  intro same
  have back := Except.ok.inj same
  cases after with
  | nil =>
    obtain ⟨other, otherListed, nameEq⟩ : ∃ other ∈ before ++ [item], name other = nullptr := by
      rw [← back, ← map_singleton, ← map_append] at headListed
      exact mem_map.mp headListed
    exact proper other otherListed nameEq
  | cons next rest =>
    rw [map_append, map_cons, append_cons] at distinct
    exact (nodup_append.mp distinct).2.2 _ headListed (name next) (by simp) back.symm

theorem WalksRow.of_linked (linked : Linked name link none items)
    (siblings : ∀ item ∈ items, tree.sibling ops (name item) = .ok ((link item).getD nullptr) ∧
      tree.deleted ops (name item) = .ok false)
    (proper : ∀ ptr ∈ items.map name, ptr ≠ nullptr) (distinct : (items.map name).Nodup) :
    tree.WalksRow ops (items.map name) := by
  have properItems : ∀ item ∈ items, name item ≠ nullptr := fun item listed =>
    proper (name item) (mem_map_of_mem listed)
  have links := fun item listed => (siblings item listed).1
  refine ⟨?_, ?_, ?_, ?_, ?_⟩
  · intro fuel enough
    rw [length_map] at enough
    exact walk_linked linked links properItems enough
  · intro ptr listed
    obtain ⟨item, itemListed, rfl⟩ := mem_map.mp listed
    exact sibling_ne_head linked links properItems distinct itemListed
  · intro ptr isLast
    obtain ⟨before, item, rfl⟩ : ∃ before item, items = before ++ [item] := by
      rcases eq_nil_or_concat items with rfl | split
      · cases isLast
      · simpa using split
    obtain rfl : name item = ptr := by simpa using isLast
    rw [links item (by simp), linked.link_eq_none.mpr rfl]
    rfl
  · intro ptr listed
    obtain ⟨item, itemListed, rfl⟩ := mem_map.mp listed
    obtain ⟨before, after, rfl⟩ := append_of_mem itemListed
    obtain ⟨linkEq, _⟩ := (linked_append.mp linked).2
    refine ⟨_, links item itemListed, ?_⟩
    rw [linkEq]
    cases after with
    | nil => exact .inl rfl
    | cons follower rest => exact .inr (by simp)
  · intro ptr listed
    obtain ⟨item, itemListed, rfl⟩ := mem_map.mp listed
    exact (siblings item itemListed).2

end Linked

/-! ## The nodes of every height -/

theorem rows_length (levels : Levels K H V) : (rows levels).length = levels.inner.length + 1 := by
  simp [rows]

theorem rows_flatten (levels : Levels K H V) : (rows levels).flatten = levels.ids := by
  rw [rows, flatten_cons, Levels.ids, innerIds, flatMap_def]

theorem rows_below {bounds : List H} {ids : List Ptr} {inner : List (Level H)}
    (stacked : Stacked size bounds ids inner) {height : Nat} {level : Level H}
    (here : inner[height]? = some level) :
    (ids :: inner.map Level.ids)[height]? = some level.kids := by
  induction inner generalizing bounds ids height with
  | nil => cases here
  | cons first above ih =>
    obtain ⟨_, kids, _, _, aboveStacked⟩ := stacked
    cases height with
    | zero =>
      cases here
      rw [kids]
      rfl
    | succ height => exact ih aboveStacked here

theorem rows_top (ids : List Ptr) (inner : List (Level H)) :
    (ids :: inner.map Level.ids)[inner.length]? = some (topIds ids inner) := by
  induction inner generalizing ids with
  | nil => rfl
  | cons level above ih => exact ih level.ids

variable [LinearOrder K] {ops : NodeOps K H Mid Inner} {laws : ops.Laws size}
  {tree : Tree leafSize K H V Mid Inner} {levels : Levels K H V}

namespace Represents

section

variable (represents : tree.Represents laws levels)
include represents

theorem row_top : (rows levels)[tree.treeDepth - 1]? = some [tree.root] := by
  rw [represents.depth_eq, Nat.add_sub_cancel, ← represents.root_eq]
  exact rows_top _ _

variable {height : Nat} {ptr : Ptr} {row : List Ptr}

theorem reads_of_mem {level : Level H} (here : levels.inner[height]? = some level)
    (listed : ptr ∈ level.ids) :
    ∃ node ∈ level, node.id = ptr ∧ ∃ cell, tree.nodes ptr = some (.inner cell) ∧
      laws.Reads cell node.view := by
  obtain ⟨node, nodeListed, rfl⟩ := mem_map.mp listed
  exact ⟨node, nodeListed, rfl, represents.upper level (mem_of_getElem? here) node nodeListed⟩

theorem mem_row (atHeight : tree.AtHeight laws.toNodeReading height ptr) :
    ∃ row, (rows levels)[height]? = some row ∧ ptr ∈ row := by
  induction atHeight with
  | root => exact ⟨[tree.root], represents.row_top, mem_singleton_self _⟩
  | @child height ptr kid cell above stored listed ih =>
    obtain ⟨row, rowEq, inRow⟩ := ih
    obtain ⟨level, levelEq, rfl⟩ : ∃ level, levels.inner[height]? = some level ∧
      level.ids = row := by
      rw [rows, getElem?_cons_succ, getElem?_map] at rowEq
      exact Option.map_eq_some_iff.mp rowEq
    obtain ⟨node, nodeListed, rfl, cell', stored', reads⟩ := represents.reads_of_mem levelEq inRow
    cases stored.symm.trans stored'
    refine ⟨level.kids, rows_below represents.wellFormed.stacked levelEq, ?_⟩
    exact mem_flatMap.mpr ⟨node, nodeListed, reads.view_eq ▸ listed⟩

theorem atHeight_of_mem (rowEq : (rows levels)[height]? = some row) (listed : ptr ∈ row) :
    tree.AtHeight laws.toNodeReading height ptr := by
  have inside : height < levels.inner.length + 1 := by
    rw [← rows_length]
    exact (List.getElem?_eq_some_iff.mp rowEq).1
  -- from the top level downwards
  induction distance : levels.inner.length - height generalizing height row ptr with
  | zero =>
    obtain rfl : height = tree.treeDepth - 1 := by
      rw [represents.depth_eq]
      omega
    rw [represents.row_top] at rowEq
    cases rowEq
    obtain rfl := mem_singleton.mp listed
    exact .root
  | succ distance ih =>
    have more : height < levels.inner.length := by omega
    have levelEq := getElem?_eq_getElem more
    generalize levels.inner[height] = level at levelEq
    obtain rfl : level.kids = row := by
      have below := rows_below represents.wellFormed.stacked levelEq
      exact Option.some.inj (below.symm.trans rowEq)
    obtain ⟨node, nodeListed, kidListed⟩ := mem_flatMap.mp listed
    have nodeId : node.id ∈ level.ids := mem_map_of_mem nodeListed
    have rowAbove : (rows levels)[height + 1]? = some level.ids := by
      rw [rows, getElem?_cons_succ, getElem?_map, levelEq]
      rfl
    have above : tree.AtHeight laws.toNodeReading (height + 1) node.id :=
      ih rowAbove nodeId (by omega) (by omega)
    obtain ⟨cell, stored, reads⟩ :=
      represents.upper level (mem_of_getElem? levelEq) node nodeListed
    exact .child above stored (reads.view_eq.symm ▸ kidListed)

theorem mem_ids_iff : ptr ∈ levels.ids ↔ ∃ height, tree.AtHeight laws.toNodeReading height ptr := by
  rw [← rows_flatten, mem_flatten]
  constructor
  · rintro ⟨row, listed, inRow⟩
    obtain ⟨height, rowEq⟩ := mem_iff_getElem?.mp listed
    exact ⟨height, represents.atHeight_of_mem rowEq inRow⟩
  · rintro ⟨height, atHeight⟩
    obtain ⟨row, rowEq, inRow⟩ := represents.mem_row atHeight
    exact ⟨row, mem_of_getElem? rowEq, inRow⟩

theorem walksRow_leaves : tree.WalksRow ops levels.leaves.ids := by
  have addressed := represents.addressed
  apply WalksRow.of_linked represents.wellFormed.chain.linked
  · intro leaf listed
    obtain ⟨cell, stored, reads⟩ := represents.ground leaf listed
    rw [sibling, deleted, stored, reads.link]
    simp only [LeafNode.siblingPtr, reads.deleted, and_true]
    cases cell.control.sibling with
    | true => rfl
    | false => rfl
  · exact fun ptr listed => ne_of_gt (addressed.allocated ptr (mem_append_left _ listed)).1
  · exact (nodup_append.mp addressed.distinct).1

theorem walksRow_level {level : Level H}
    (levelListed : level ∈ levels.inner) : tree.WalksRow ops level.ids := by
  have addressed := represents.addressed
  obtain ⟨_, innerDistinct, _⟩ := nodup_append.mp addressed.distinct
  apply WalksRow.of_linked (represents.wellFormed.stacked.shape levelListed).linked
  · intro node listed
    obtain ⟨cell, stored, reads⟩ := represents.upper level levelListed node listed
    rw [sibling, deleted, stored, ← reads.view_eq, laws.link_eq]
    simp only [reads.alive, and_true]
    cases (ops.control cell).sibling with
    | true => rfl
    | false => rfl
  · intro ptr listed
    have inner : ptr ∈ innerIds levels.inner := mem_flatMap.mpr ⟨level, levelListed, listed⟩
    exact ne_of_gt (addressed.allocated ptr (mem_append_right _ inner)).1
  · exact (nodup_flatMap.mp innerDistinct).1 level levelListed

theorem walksRow (listed : row ∈ rows levels) : tree.WalksRow ops row:= by
  rcases mem_cons.mp listed with rfl | above
  · exact represents.walksRow_leaves
  · obtain ⟨level, levelListed, rfl⟩ := mem_map.mp above
    exact represents.walksRow_level levelListed

theorem track_row
    (rowEq : (rows levels)[height]? = some row) : tree.rootTrack height = row.headD nullptr := by
  apply represents.track_eq
  have headsEq : heads levels = (rows levels).map fun row => row.headD nullptr := by
    rw [heads, rows, map_cons, map_map]
    rfl
  rw [headsEq, getElem?_map, rowEq]
  rfl

theorem row_ne_nil (listed : row ∈ rows levels) : row ≠ []:= by
  rcases mem_cons.mp listed with rfl | above
  · simpa [Leaves.ids] using represents.wellFormed.chain.nonempty
  · obtain ⟨level, levelListed, rfl⟩ := mem_map.mp above
    simpa [Level.ids] using (represents.wellFormed.stacked.shape levelListed).nonempty

theorem visited_eq : tree.visited ops = .ok (rows levels) := by
  have each : ∀ (count start : Nat), start + count = (rows levels).length →
      (List.range' start count).mapM (fun rid => do
        let node ← tree.trackAt rid
        tree.walk ops tree.fresh node) = Except.ok ((rows levels).drop start) := by
    intro count
    induction count with
    | zero =>
      intro start whole
      rw [drop_of_length_le (by omega)]
      rfl
    | succ count ih =>
      intro start whole
      have inside : start < (rows levels).length := by omega
      have rowEq := getElem?_eq_getElem inside
      have rowListed := getElem_mem inside
      have low : start < kMaxHeight := by
        have height := represents.depth_le
        rw [rows_length] at inside
        omega
      have short : (rows levels)[start].length < tree.fresh := by
        apply lt_of_le_of_lt _ represents.length_ids_lt_fresh
        rw [← rows_flatten]
        exact (sublist_flatten_of_mem rowListed).length_le
      rw [List.range'_succ, mapM_cons, ih (start + 1) (by omega), trackAt,
        if_pos low, represents.track_row rowEq]
      simp only [ok_bind, (represents.walksRow rowListed).walk_eq _ short]
      rw [drop_eq_getElem_cons inside]
      rfl
  rw [visited, range_eq_range',
    each _ _ (by rw [rows_length, represents.depth_eq, Nat.zero_add])]
  rfl

theorem tracked (apart : ∀ ptr ∈ tree.retired, ptr ∉ levels.ids) :
    tree.Tracked ops laws.toNodeReading (rows levels) where
  visited_eq := represents.visited_eq
  length_eq := by rw [rows_length, represents.depth_eq]
  once := rows_flatten levels ▸ represents.addressed.distinct
  head_eq height row rowEq := by
    obtain ⟨first, rest, rfl⟩ :=
      exists_cons_of_ne_nil (represents.row_ne_nil (mem_of_getElem? rowEq))
    rw [represents.track_row rowEq]
    rfl
  leftmost height ptr atHeight := by
    obtain ⟨row, rowEq, listed⟩ := represents.mem_row atHeight
    rw [represents.track_row rowEq]
    exact (represents.walksRow (mem_of_getElem? rowEq)).leftmost ptr listed
  mem_iff height row rowEq ptr := by
    refine ⟨represents.atHeight_of_mem rowEq, ?_⟩
    intro atHeight
    obtain ⟨row', rowEq', listed⟩ := represents.mem_row atHeight
    cases rowEq.symm.trans rowEq'
    exact listed
  alive row rowListed ptr listed := by
    refine ⟨(represents.walksRow rowListed).alive ptr listed, fun gone => ?_⟩
    apply apart ptr gone
    rw [← rows_flatten]
    exact mem_flatten.mpr ⟨row, rowListed, listed⟩
  root_eq := by
    have low : tree.treeDepth - 1 < kMaxHeight := by
      rw [represents.depth_eq]
      exact represents.depth_le
    rw [trackAt, if_pos low, represents.track_row represents.row_top]
    rfl
  root_alone :=
    (represents.walksRow (mem_of_getElem? represents.row_top)).last tree.root rfl

end

end Represents

end Tree

end IndexResearch.FBTree
