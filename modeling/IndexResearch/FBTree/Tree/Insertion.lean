import IndexResearch.FBTree.Tree.Represents

/-!
# Insertion into the tree in memory

The loop of `upsert` climbs the levels as `Levels.climb` does.  Besides the nodes of the
levels above it writes nothing but the split token of the leaf.  It fails when the new root
would be too high for `root_track_`.
-/

namespace IndexResearch.FBTree

open List

variable {leafSize size : NodeSize} {K H V Mid Inner : Type} [LinearOrder K]
  {ops : NodeOps K H Mid Inner} {laws : ops.Laws size}

def Level.head (level : Level H) : Ptr := level.ids.headD nullptr

namespace Tree

variable {tree tree' : Tree leafSize K H V Mid Inner} {key : K}

omit [LinearOrder K] in
theorem endSplitting_eq (ops : NodeOps K H Mid Inner) (tree : Tree leafSize K H V Mid Inner)
    (rootid : Nat) (current : Ptr)
    (isLeaf : rootid = 1 → ∃ leaf, tree.nodes current = some (.leaf leaf)) :
    ∃ nodes, tree.endSplitting ops rootid current = .ok { tree with nodes := nodes } ∧
      (∀ ptr, ptr ≠ current → nodes ptr = tree.nodes ptr) ∧
      SameCell (tree.nodes current) (nodes current) := by
  rw [endSplitting]
  split
  · rename_i announced
    obtain ⟨leaf, stored⟩ := isLeaf announced.2
    refine ⟨(tree.write current
      (.leaf { leaf with control := leaf.control.endSplitting })).nodes, ?_, ?_, ?_⟩
    · rw [leafAt, stored]
      rfl
    · exact fun ptr different => nodes_write_of_ne different
    · exact .inr ⟨leaf, _, stored, nodes_write_self _ _ _⟩
  · exact ⟨tree.nodes, rfl, fun _ _ => rfl, .inl rfl⟩

theorem index_eq {ptr : Ptr} {cell : Inner} {view : NodeView H} {fuel : Nat} (mid : Mid)
    (stored : tree.nodes ptr = some (.inner cell)) (reads : laws.Reads cell view)
    (nonempty : view.link ≠ none → view.seps ≠ [])
    (last : rankIn ops.highKey view.seps (ops.highKey (laws.decode mid)) = view.seps.length →
      view.link = none)
    (valid : laws.Valid (ops.highKey (laws.decode mid))) (enough : 0 < fuel) :
    tree.index ops mid fuel ptr =
      .ok (ptr, rankIn ops.highKey view.seps (ops.highKey (laws.decode mid))) := by
  obtain ⟨rounds, rfl⟩ := Nat.exists_eq_add_of_lt enough
  obtain ⟨formed, alive, rfl⟩ := reads
  have pos : (laws.view cell).indexOrSibling ops.highKey (ops.highKey (laws.decode mid)) =
      .index (rankIn ops.highKey (laws.view cell).seps (ops.highKey (laws.decode mid))) := by
    rw [NodeView.indexOrSibling]
    cases linkEq : (laws.view cell).link with
    | none => rfl
    | some next =>
      refine if_neg fun all => ?_
      exact absurd (last all) (by simp [linkEq])
  rw [Nat.zero_add, index, innerAt, stored]
  simp only [ok_bind, laws.indexOrSibling_spec cell mid formed alive nonempty valid,
    pos]
  rfl

/-- What the loop of `upsert` does to the levels above the leaves or inner nodes of height
`rootid`: they become `levels'`. -/
structure Ascended (laws : ops.Laws size) (tree tree' : Tree leafSize K H V Mid Inner)
    (rootid : Nat) (levels levels' : List (Level H)) (fresh : Ptr) : Prop where
  upper : tree'.Upper laws levels'
  frame : ∀ ptr, ptr ∉ innerIds levels → ptr < tree.fresh →
    SameCell (tree.nodes ptr) (tree'.nodes ptr)
  root_eq : ∀ ids, topIds ids levels' = [tree'.root]
  depth_eq : tree'.treeDepth + levels.length = tree.treeDepth + levels'.length
  heads_eq : levels'.map Level.head =
    levels.map Level.head ++ if levels'.length = levels.length then [] else [tree'.root]
  track_eq : tree'.rootTrack =
    if levels'.length = levels.length then tree.rootTrack
    else Function.update tree.rootTrack (rootid + levels'.length) tree'.root
  fresh_eq : tree'.fresh = fresh
  retired_eq : tree'.retired = tree.retired

section Ascend

variable (memory : Memory leafSize K H V Inner) {levels : List (Level H)}
  {bounds₁ bounds₂ : List H} {ids₁ ids₂ stack : List Ptr} {current : Ptr} {mid : Mid} {rootid : Nat}

/-- The levels, when `root_track_` has room for their number. -/
def lowEnough (rootid : Nat) (climbed : List (Level H) × Ptr) : Option (List (Level H) × Ptr) :=
  if rootid + climbed.1.length < kMaxHeight then some climbed else none

/-- What the loop of `upsert` finds when `current`, of height `rootid`, was split. -/
structure Ascends (laws : ops.Laws size) (tree : Tree leafSize K H V Mid Inner) (key : K)
    (levels : List (Level H)) (bounds₁ bounds₂ : List H) (ids₁ ids₂ stack : List Ptr)
    (current : Ptr) (mid : Mid) (rootid : Nat) : Prop where
  upper : tree.Upper laws levels
  stacked : Stacked size (bounds₁ ++ bounds₂) (ids₁ ++ current :: ids₂) levels
  sameLength : ids₁.length = bounds₁.length
  ascending : Ascending ops.highKey (bounds₁ ++ laws.decode mid :: bounds₂)
  valid : ∀ bound ∈ bounds₁ ++ laws.decode mid :: bounds₂, laws.Valid (ops.highKey bound)
  distinct : ((ids₁ ++ current :: ids₂) ++ innerIds levels).Nodup
  allocated : ∀ id ∈ (ids₁ ++ current :: ids₂) ++ innerIds levels, id < tree.fresh
  root_eq : topIds (ids₁ ++ current :: ids₂) levels = [tree.root]
  path : Leads ops.highKey key current levels stack
  isLeaf : rootid = 0 → ∃ leaf, tree.nodes current = some (.leaf leaf)

omit [LinearOrder K] in
theorem eq_root (top : topIds (ids₁ ++ current :: ids₂) ([] : List (Level H)) = [tree.root]) :
    current = tree.root := by
  have listed : current ∈ ids₁ ++ current :: ids₂ := by simp
  rw [show ids₁ ++ current :: ids₂ = [tree.root] from top] at listed
  exact mem_singleton.mp listed

theorem ascend_root (ascends : Ascends laws tree key [] bounds₁ bounds₂ ids₁ ids₂ stack current mid
    rootid) (rnode : Ptr) (fuel : Nat) (low : rootid + 1 < kMaxHeight) :
    ∃ tree', ascend ops memory (fuel + 1) tree stack rootid current rnode mid = .ok tree' ∧
      Ascended laws tree tree' rootid []
        [[⟨tree.fresh, [laws.decode mid], [current, rnode], none⟩]] (tree.fresh + 1) := by
  have isRoot := eq_root ascends.root_eq
  have midValid : laws.Valid (ops.highKey (laws.decode mid)) := ascends.valid _ (by simp)
  obtain ⟨newWellFormed, newAlive, newView⟩ := laws.new_spec (memory.inner tree.fresh)
  have different : current ≠ tree.fresh := ne_of_lt (ascends.allocated current (by simp))
  generalize newEq : ops.new (memory.inner tree.fresh) = cell at newWellFormed newAlive newView
  generalize grownEq : ({ tree.write tree.fresh (.inner cell) with
    fresh := tree.fresh + 1
    root := tree.fresh
    treeDepth := tree.treeDepth + 1
    rootTrack := Function.update tree.rootTrack (rootid + 1) tree.fresh } :
      Tree leafSize K H V Mid Inner) = grown
  have above : tree.above ops memory stack (rootid + 1) current = .ok
    (grown, tree.fresh, stack) := by
    unfold Tree.above
    rw [if_pos isRoot, if_pos low]
    subst newEq grownEq
    rfl
  have stored : grown.nodes tree.fresh = some (.inner cell) := by
    rw [← grownEq]
    exact nodes_write_self _ _ _
  have freshEq : grown.fresh = tree.fresh + 1 := by rw [← grownEq]
  have noSeps : (laws.view cell).seps = [] := by rw [newView]
  have noLink : (laws.view cell).link = none := by rw [newView]
  have rank : rankIn ops.highKey (laws.view cell).seps (ops.highKey (laws.decode mid)) = 0 := by
    rw [noSeps]
    rfl
  have pos := index_eq mid stored ⟨newWellFormed, newAlive, rfl⟩
    (fun sibling => absurd noLink sibling) (fun _ => noLink) midValid
    (show 0 < grown.fresh by rw [freshEq]; exact Nat.succ_pos _)
  obtain ⟨result, insertEq, inserted⟩ :=
    laws.insert_spec cell (memory.inner grown.fresh) grown.fresh
    current rnode mid newWellFormed midValid (by simp [noSeps]) (fun _ => noLink)
  rw [rank] at pos insertEq inserted
  have views : (⟨[laws.decode mid], [current, rnode], none⟩, none) =
      (laws.view result.1, result.2.1.map fun right =>
        (laws.view right, laws.decode result.2.2)) := by
    rw [← inserted.views, newView]
    have half := size.eight_le_half
    have slots := size.slots_eq
    have room : 0 < size.slots := by omega
    simp [NodeView.insert, NodeView.insertSeps, NodeView.insertKids, insertAt, room]
  obtain ⟨viewEq, rightEq⟩ := Prod.mk.inj views
  have noRight : result.2.1 = none := Option.map_eq_none_iff.mp rightEq.symm
  have elsewhere : ∀ ptr, ptr ≠ tree.fresh →
      (grown.write tree.fresh (.inner result.1)).nodes ptr = tree.nodes ptr := by
    intro ptr other
    rw [nodes_write_of_ne other, ← grownEq]
    exact nodes_write_of_ne other
  obtain ⟨nodes, ended, others, same⟩ :=
    endSplitting_eq ops (grown.write tree.fresh (.inner result.1)) (rootid + 1) current (by
      intro first
      rw [elsewhere current different]
      exact ascends.isLeaf (by omega))
  refine ⟨{ grown.write tree.fresh (.inner result.1) with nodes := nodes }, ?_, ?_⟩
  · simp only [ascend, above, pos, innerAt, stored, insertEq, ended, noRight, ok_bind,
      pure, Except.pure]
  · have rootNode : nodes tree.fresh = some (.inner result.1) := by
      rw [others tree.fresh different.symm, nodes_write_self]
    subst grownEq
    refine ⟨?_, ?_, fun _ => rfl, rfl, by simp [Level.head, write], by simp [write], rfl, rfl⟩
    · intro level listed node nodeListed
      obtain rfl := mem_singleton.mp listed
      obtain rfl := mem_singleton.mp nodeListed
      refine ⟨result.1, rootNode, inserted.wellFormed, inserted.deleted_eq.trans newAlive,
        viewEq.symm⟩
    · intro ptr _ old
      have notNew : ptr ≠ tree.fresh := ne_of_lt old
      by_cases leaf : ptr = current
      · subst leaf
        rw [← elsewhere ptr notNew]
        exact same
      · exact .inl ((others ptr leaf).trans (elsewhere ptr notNew))

omit [LinearOrder K] in
theorem root_mem {level : Level H} {above : List (Level H)} {ids : List Ptr} {root : Ptr}
    (top : topIds ids (level :: above) = [root]) : root ∈ innerIds (level :: above) := by
  induction above generalizing level ids with
  | nil =>
    have same : level.ids = [root] := top
    simp [same]
  | cons upper higher ih =>
    have next : topIds level.ids (upper :: higher) = [root] := top
    rw [innerIds_cons]
    exact mem_append_right _ (ih next)

theorem ascend_round {level : Level H} {above : List (Level H)}
    (ascends : Ascends laws tree key (level :: above) bounds₁ bounds₂ ids₁ ids₂ stack current mid
      rootid) (rnode : Ptr) :
    ∃ (before : Level H) (node : LevelNode H) (after : Level H) (cell : Inner) (rest : List Ptr)
      (result : Inner × Option Inner × Mid) (nodes : Ptr → Option (Node leafSize K H V Inner)),
      level = before ++ node :: after ∧
      Receives ops.highKey size bounds₁ bounds₂ ids₁ current ids₂
      (laws.decode mid) before node after
        above ∧
      stack = node.id :: rest ∧ Leads ops.highKey key node.id above rest ∧
      (ops.control cell).deleted = false ∧ laws.view cell = node.view ∧
      laws.Inserted ops.control size cell tree.fresh current rnode mid
        (rankIn ops.highKey node.view.seps (ops.highKey (laws.decode mid))) result ∧
      nodes node.id = some (.inner result.1) ∧
      (∀ ptr, ptr ≠ node.id → SameCell (tree.nodes ptr) (nodes ptr)) ∧
      ∀ fuel, ascend ops memory (fuel + 1) tree stack rootid current rnode mid =
        match result.2.1 with
        | none => .ok { tree with nodes := nodes }
        | some right => ascend ops memory fuel
            { ({ tree with nodes := nodes } : Tree leafSize K H V Mid Inner).write tree.fresh
                (.inner right) with fresh := tree.fresh + 1 }
            rest (rootid + 1) node.id tree.fresh result.2.2 := by
  obtain ⟨before, node, after, rfl, receives⟩ := ascends.stacked.receives ascends.sameLength
    ascends.ascending
  obtain ⟨otherBefore, parent, otherAfter, rest, split, rfl, child, leads⟩ := ascends.path
  have listed : node ∈ before ++ node :: after := by simp
  obtain ⟨lowerDistinct, _, apart⟩ := nodup_append.mp ascends.distinct
  obtain rfl : parent = node := by
    apply Level.parent_unique (receives.kids ▸ lowerDistinct) _ listed (mem_of_getElem? child)
      receives.child
    rw [split]
    simp
  have inInner : parent.id ∈ innerIds ((before ++ parent :: after) :: above) := by simp
  have notParent : current ≠ parent.id := apart current (by simp) parent.id inInner
  have notRoot : current ≠ tree.root := apart current (by simp) tree.root (root_mem ascends.root_eq)
  have midValid : laws.Valid (ops.highKey (laws.decode mid)) := ascends.valid _ (by simp)
  have sound := receives.shape.sound parent listed
  obtain ⟨cell, stored, reads⟩ := (upper_cons.mp ascends.upper).1 parent listed
  have pos := index_eq mid stored reads sound.seps_ne_nil receives.last midValid
    (show 0 < tree.fresh from lt_of_le_of_lt (Nat.zero_le _) (ascends.allocated current (by simp)))
  obtain ⟨formed, alive, viewEq⟩ := reads
  obtain ⟨result, insertEq, inserted⟩ := laws.insert_spec cell (memory.inner tree.fresh) tree.fresh
    current rnode mid formed midValid (viewEq ▸ receives.absent) (viewEq ▸ receives.last)
  rw [viewEq] at insertEq inserted
  obtain ⟨nodes, ended, others, same⟩ :=
    endSplitting_eq ops (tree.write parent.id (.inner result.1)) (rootid + 1) current (by
      intro first
      rw [nodes_write_of_ne notParent]
      exact ascends.isLeaf (by omega))
  refine ⟨before, parent, after, cell, rest, result, nodes, rfl, receives, rfl, leads, alive,
    viewEq, inserted, ?_, ?_, ?_⟩
  · rw [others parent.id notParent.symm, nodes_write_self]
  · intro ptr different
    by_cases leaf : ptr = current
    · subst leaf
      rwa [nodes_write_of_ne different] at same
    · rw [others ptr leaf, nodes_write_of_ne different]
      exact .inl rfl
  · intro fuel
    have aboveEq : tree.above ops memory (parent.id :: rest) (rootid + 1) current =
        .ok (tree, parent.id, rest) := by
      unfold Tree.above
      rw [if_neg notRoot]
    simp only [ascend, aboveEq, pos, innerAt, stored, insertEq, ended, ok_bind]
    cases result.2.1 with
    | none => rfl
    | some right => rfl

omit [LinearOrder K] in
theorem head_append_cons (before : Level H) (node : LevelNode H) (after : Level H) :
    Level.head (before ++ node :: after) = (before.ids ++ [node.id]).headD nullptr := by
  cases before with
  | nil => rfl
  | cons first others => rfl

theorem ascend_spec
    (ascends : Ascends laws tree key levels bounds₁ bounds₂ ids₁ ids₂ stack current mid rootid)
    (rnode : Ptr) {fuel : Nat} (enough : levels.length < fuel)
    (fits : rootid + levels.length < kMaxHeight) :
    Follows .noTrack
      (fun tree' climbed => Ascended laws tree tree' rootid levels climbed.1 climbed.2)
      (ascend ops memory fuel tree stack rootid current rnode mid)
      (lowEnough rootid
        (Levels.climb ops.highKey size levels tree.fresh current rnode (laws.decode mid))) := by
  induction levels generalizing tree bounds₁ bounds₂ ids₁ ids₂ stack current mid rootid rnode
    fuel with
  | nil =>
    obtain ⟨rounds, rfl⟩ := Nat.exists_eq_add_of_lt enough
    rw [length_nil, Nat.zero_add, Levels.climb, lowEnough, length_singleton]
    by_cases low : rootid + 1 < kMaxHeight
    · rw [if_pos low]
      exact ascend_root memory ascends rnode rounds low
    · rw [if_neg low]
      have aboveEq : tree.above ops memory stack (rootid + 1) current = .error .noTrack := by
        unfold Tree.above
        rw [if_pos (eq_root ascends.root_eq), if_neg low]
      simp only [ascend, aboveEq, bind, Except.bind]
      rfl
  | cons level above ih =>
    obtain ⟨rounds, rfl⟩ := Nat.exists_eq_add_one.mpr (by omega : 0 < fuel)
    obtain ⟨before, node, after, cell, rest, result, nodes, rfl, receives, rfl, leads, alive,
      viewEq, inserted, written, others, round⟩ := ascend_round memory ascends rnode
    obtain ⟨levelUpper, aboveUpper⟩ := upper_cons.mp ascends.upper
    have views := inserted.views
    rw [viewEq] at views
    obtain ⟨_, innerDistinct, _⟩ := nodup_append.mp ascends.distinct
    have levelDistinct := innerDistinct
    simp only [innerIds_cons, Level.ids_append, Level.ids_cons, append_assoc, cons_append,
      nodup_middle, nodup_cons, mem_append, not_or] at levelDistinct
    obtain ⟨⟨notBefore, notAfter, notAbove⟩, _⟩ := levelDistinct
    have siblings : ∀ other ∈ before ++ after, ∃ cell, nodes other.id = some (.inner cell) ∧
        laws.Reads cell other.view := by
      intro other listed
      obtain ⟨cell, stored, reads⟩ := levelUpper other (by
        rcases mem_append.mp listed with inBefore | inAfter
        · simp [inBefore]
        · simp [inAfter])
      refine ⟨cell, (others other.id ?_).inner stored, reads⟩
      intro same
      rcases mem_append.mp listed with inBefore | inAfter
      · exact notBefore (same ▸ mem_map_of_mem inBefore)
      · exact notAfter (same ▸ mem_map_of_mem inAfter)
    have aboveNodes : ∀ id ∈ innerIds above, SameCell (tree.nodes id) (nodes id) := fun id listed =>
      others id fun same => notAbove (same ▸ listed)
    rcases resultEq : node.view.insert size tree.fresh current rnode (laws.decode mid)
      (rankIn ops.highKey node.view.seps (ops.highKey (laws.decode mid))) with
      ⟨view, _ | ⟨rightView, newMid⟩⟩
    · have climbEq : Levels.climb ops.highKey size ((before ++ node :: after) :: above) tree.fresh
          current rnode (laws.decode mid) =
          ((before ++ ⟨node.id, view⟩ :: after) :: above, tree.fresh) := by
        rw [Levels.climb, receives.found]
        simp only [resultEq]
      rw [resultEq] at views
      obtain ⟨newView, noRight⟩ := Prod.mk.inj views
      rw [climbEq, round, Option.map_eq_none_iff.mp noRight.symm, lowEnough,
        if_pos (by simpa using fits)]
      refine ⟨_, rfl, ?_, ?_, ?_, rfl, ?_, ?_, rfl, rfl⟩
      · apply upper_cons.mpr
        refine ⟨?_, ?_⟩
        · intro other listed
          rcases mem_append.mp listed with inBefore | later
          · exact siblings other (mem_append_left _ inBefore)
          · rcases mem_cons.mp later with rfl | inAfter
            · exact ⟨result.1, written, inserted.wellFormed, inserted.deleted_eq.trans alive,
                newView.symm⟩
            · exact siblings other (mem_append_right _ inAfter)
        · exact aboveUpper.kept aboveNodes
      · intro ptr outside _
        exact others ptr fun same => outside (by simp [same])
      · intro ids
        have top := ascends.root_eq
        rw [topIds] at top ⊢
        simpa using top
      · simp [head_append_cons]
      · simp
    · have climbEq : Levels.climb ops.highKey size ((before ++ node :: after) :: above) tree.fresh
          current rnode (laws.decode mid) =
          ((before ++ ⟨node.id, view⟩ :: ⟨tree.fresh, rightView⟩ :: after) ::
              (Levels.climb ops.highKey size above (tree.fresh + 1) node.id tree.fresh newMid).1,
            (Levels.climb ops.highKey size above (tree.fresh + 1) node.id tree.fresh newMid).2) :=
              by
        rw [Levels.climb, receives.found]
        simp only [resultEq]
      rw [resultEq] at views
      obtain ⟨newView, someRight⟩ := Prod.mk.inj views
      obtain ⟨right, rightEq, rightViews⟩ := Option.map_eq_some_iff.mp someRight.symm
      obtain ⟨rightViewEq, rfl⟩ := Prod.mk.inj rightViews
      obtain ⟨rightWellFormed, rightAlive⟩ := inserted.right right rightEq
      obtain ⟨_, sublist⟩ := receives.bounds_of_split resultEq
      generalize grownEq : ({ ({ tree with nodes := nodes } : Tree leafSize K H V Mid Inner).write
        tree.fresh (.inner right) with fresh := tree.fresh + 1 } : Tree leafSize K H V Mid Inner) =
        grown at round
      have grownNodes : ∀ ptr, ptr < tree.fresh → grown.nodes ptr = nodes ptr := by
        intro ptr old
        rw [← grownEq]
        exact nodes_write_of_ne (ne_of_lt old)
      have grownRight : grown.nodes tree.fresh = some (.inner right) := by
        rw [← grownEq]
        exact nodes_write_self _ _ _
      have freshEq : grown.fresh = tree.fresh + 1 := by rw [← grownEq]
      have rootEq : grown.root = tree.root := by rw [← grownEq]; rfl
      have depthEq : grown.treeDepth = tree.treeDepth := by rw [← grownEq]; rfl
      have trackEq : grown.rootTrack = tree.rootTrack := by rw [← grownEq]; rfl
      have retiredEq : grown.retired = tree.retired := by rw [← grownEq]; rfl
      have allocated : ∀ id ∈ innerIds ((before ++ node :: after) :: above), id < tree.fresh :=
        fun id listed => ascends.allocated id (mem_append_right _ listed)
      have grownAscends : Ascends laws grown key above before.bounds
          (node.high.toList ++ after.bounds) before.ids after.ids rest node.id result.2.2
          (rootid + 1) := by
        refine ⟨aboveUpper.kept ?_, receives.stacked, receives.shape.length_bounds_before.symm,
          List.Pairwise.sublist sublist ascends.ascending,
          fun bound listed => ascends.valid bound (sublist.subset listed), ?_, ?_, ?_, leads,
            (by simp)⟩
        · intro id listed
          rw [grownNodes id (allocated id (by simp [listed]))]
          exact aboveNodes id listed
        · simpa using innerDistinct
        · intro id listed
          rw [freshEq]
          exact Nat.lt_succ_of_lt (allocated id (by simpa using listed))
        · have top := ascends.root_eq
          rw [topIds] at top
          rw [rootEq]
          simpa using top
      simp only [length_cons] at fits enough
      have following := ih grownAscends tree.fresh (Nat.lt_of_succ_lt_succ enough)
        (by omega)
      have higher :
        lowEnough rootid (Levels.climb ops.highKey size ((before ++ node :: after) :: above)
          tree.fresh current rnode (laws.decode mid)) =
          (lowEnough (rootid + 1) (Levels.climb ops.highKey size above (tree.fresh + 1) node.id
            tree.fresh (laws.decode result.2.2))).map fun climbed =>
              ((before ++ ⟨node.id, view⟩ :: ⟨tree.fresh, rightView⟩ :: after) :: climbed.1,
                climbed.2) := by
        rw [climbEq, lowEnough, lowEnough, length_cons, Nat.add_right_comm, ← Nat.add_assoc]
        split <;> rfl
      rw [freshEq] at following
      rw [higher, round, rightEq]
      subst grownEq
      refine following.mono fun tree' climbed _ ascended => ?_
      have kept : ∀ ptr, ptr ∉ innerIds above → ptr < tree.fresh →
          SameCell (nodes ptr) (tree'.nodes ptr) := by
        intro ptr outside old
        rw [← grownNodes ptr old]
        exact ascended.frame ptr outside (by rw [freshEq]; exact Nat.lt_succ_of_lt old)
      refine ⟨?_, ?_, ?_, ?_, ?_, ?_, ascended.fresh_eq, ascended.retired_eq.trans retiredEq⟩
      · apply upper_cons.mpr
        refine ⟨?_, ascended.upper⟩
        have neighbours : ∀ other ∈ before ++ after, ∃ cell,
          tree'.nodes other.id = some (.inner cell) ∧ laws.Reads cell other.view := by
          intro other listed
          obtain ⟨cell, stored, reads⟩ := siblings other listed
          have otherId : other.id ∈ Level.ids (before ++ node :: after) := by
            apply mem_map_of_mem
            rcases mem_append.mp listed with inBefore | inAfter
            · simp [inBefore]
            · simp [inAfter]
          rw [innerIds_cons] at innerDistinct
          refine ⟨cell, (kept other.id ?_ ?_).inner stored, reads⟩
          · exact fun above => (nodup_append.mp innerDistinct).2.2 _ otherId _ above rfl
          · exact allocated other.id (mem_append_left _ otherId)
        intro other listed
        rcases mem_append.mp listed with inBefore | later
        · exact neighbours other (mem_append_left _ inBefore)
        · rcases mem_cons.mp later with rfl | later
          · exact ⟨result.1, (kept node.id notAbove (allocated node.id (by simp))).inner written,
              inserted.wellFormed, inserted.deleted_eq.trans alive, newView.symm⟩
          · rcases mem_cons.mp later with rfl | inAfter
            · have newCell := ascended.frame tree.fresh
                (fun listed => lt_irrefl _ (allocated tree.fresh (by simp [listed])))
                (by rw [freshEq]; exact Nat.lt_succ_self _)
              exact ⟨right, newCell.inner grownRight, rightWellFormed, rightAlive, rightViewEq⟩
            · exact neighbours other (mem_append_right _ inAfter)
      · intro ptr outside old
        simp only [innerIds_cons, mem_append, not_or] at outside
        exact (others ptr fun same => outside.1 (by simp [same])).trans (kept ptr outside.2 old)
      · exact fun ids => ascended.root_eq _
      · have depth := ascended.depth_eq
        rw [depthEq] at depth
        simp only [length_cons]
        omega
      · simp only [map_cons, ascended.heads_eq, head_append_cons, length_cons,
          Nat.add_right_cancel_iff, cons_append]
      · rw [ascended.track_eq, trackEq]
        simp only [length_cons, Nat.add_right_cancel_iff, Nat.add_assoc, Nat.add_comm 1]

end Ascend

/-! ## `upsert` -/

namespace Represents

variable {levels : Levels K H V}

theorem upsert_stays {before after : Leaves K H V} {leaf : LeafCell K H V}
    {old : Option (KVPair K V)} {entries : List (KVPair K V)} {kv : KVPair K V}
    (memory : Memory leafSize K H V Inner) (represents : tree.Represents laws levels)
    (valid : laws.Valid kv.key)
    (found : levels.leafOf ops.highKey kv.key = some (before, leaf, after))
    (step : leaf.view.upsert leafSize ops.toKeyOps levels.fresh (levels.fresh + 1) kv =
      (old, { leaf.view with entries := entries }, none))
    (formed : (levels.withEntries before leaf after entries).WellFormed ops.highKey leafSize size)
    (within : (levels.withEntries before leaf after entries).Within laws.Valid ops.highKey) :
    ∃ tree', tree.upsert ops memory kv = .ok (old, tree') ∧
      tree'.Represents laws (levels.withEntries before leaf after entries) ∧
      tree'.retired = tree.retired := by
  obtain ⟨path, located, current, _⟩ := represents.locate_eq valid found
  have split := Levels.leafOf_eq_some found
  obtain ⟨cell, loaded, _, reads⟩ := represents.leafAt_eq leaf (by simp [split])
  have bounded := (represents.wellFormed.chain.sound leaf (by simp [split])).bounded
  obtain ⟨upserted, result, oldEq, leafReads, noRight⟩ :=
    LeafNode.upsert_spec (memory.leaf tree.fresh) tree.fresh (tree.fresh + 1) reads bounded kv
  rw [← represents.fresh_eq] at step
  rw [step] at oldEq leafReads noRight
  have none : upserted.rnode = none := by
    cases rnodeEq : upserted.rnode with
    | none => rfl
    | some right =>
      rw [rnodeEq] at noRight
      cases noRight
  refine ⟨_, ?_, represents.writeLeaf split leafReads formed within, rfl⟩
  simp only [upsert, located, current, loaded, result, none, oldEq, ok_bind, pure,
    Except.pure]

theorem track_ascended {grown tree' : Tree leafSize K H V Mid Inner} {inner : List (Level H)}
    {fresh : Ptr} {leaves : Leaves K H V} (represents : tree.Represents laws levels)
    (ascended : Ascended laws grown tree' 0 levels.inner inner fresh)
    (sameTrack : grown.rootTrack = tree.rootTrack)
    (sameHead : leaves.ids.headD nullptr = levels.leaves.ids.headD nullptr) :
    ∀ height head, (heads ⟨leaves, inner, fresh⟩)[height]? = some head →
      tree'.rootTrack height = head := by
  intro height head here
  have headsEq : heads ⟨leaves, inner, fresh⟩ = heads levels ++
      if inner.length = levels.inner.length then [] else [tree'.root] := by
    rw [heads, sameHead]
    exact congrArg (_ :: ·) ascended.heads_eq
  have oldLength : (heads levels).length = levels.inner.length + 1 := by simp [heads]
  rw [headsEq] at here
  rw [ascended.track_eq, sameTrack]
  by_cases same : inner.length = levels.inner.length
  · rw [if_pos same]
    rw [if_pos same, append_nil] at here
    exact represents.track_eq height head here
  · have grown : inner.length = levels.inner.length + 1 := by
      have lengths := congrArg List.length ascended.heads_eq
      rw [if_neg same] at lengths
      simpa using lengths
    rw [if_neg same, Nat.zero_add, grown]
    rw [if_neg same] at here
    rcases Nat.lt_or_ge height (heads levels).length with old | new
    · rw [getElem?_append_left old] at here
      rw [Function.update_of_ne (by omega)]
      exact represents.track_eq height head here
    · have last : height = levels.inner.length + 1 := by
        have inside := (List.getElem?_eq_some_iff.mp here).1
        simp only [length_append, length_singleton] at inside
        omega
      subst last
      rw [Function.update_self]
      rw [getElem?_append_right (by omega), oldLength, Nat.sub_self] at here
      exact Option.some.inj here

theorem of_ascended {before after : Leaves K H V} {leaf : LeafCell K H V}
    {left right : LeafView K H V}
    {grown tree' : Tree leafSize K H V Mid Inner} {inner : List (Level H)} {fresh : Ptr}
    {leftCell rightCell : LeafNode leafSize K H V} (represents : tree.Represents laws levels)
    (split : levels.leaves = before ++ leaf :: after)
    (formed : Levels.WellFormed ops.highKey leafSize size
      ⟨before ++ ⟨leaf.id, left⟩ :: ⟨levels.fresh, right⟩ :: after, inner, fresh⟩)
    (addressed : Levels.Addressed
      ⟨before ++ ⟨leaf.id, left⟩ :: ⟨levels.fresh, right⟩ :: after, inner, fresh⟩)
    (within : Levels.Within laws.Valid ops.highKey
      ⟨before ++ ⟨leaf.id, left⟩ :: ⟨levels.fresh, right⟩ :: after, inner, fresh⟩)
    (elsewhere : ∀ id, id < levels.fresh → id ≠ leaf.id → grown.nodes id = tree.nodes id)
    (leafHere : grown.nodes leaf.id = some (.leaf leftCell))
    (leafReads : leftCell.Represents ops.toKeyOps left)
    (rightHere : grown.nodes levels.fresh = some (.leaf rightCell))
    (rightReads : rightCell.Represents ops.toKeyOps right)
    (freshEq : grown.fresh = levels.fresh + 2) (sameDepth : grown.treeDepth = tree.treeDepth)
    (sameTrack : grown.rootTrack = tree.rootTrack)
    (ascended : Ascended laws grown tree' 0 levels.inner inner fresh)
    (low : inner.length < kMaxHeight) :
    tree'.Represents laws
      ⟨before ++ ⟨leaf.id, left⟩ :: ⟨levels.fresh, right⟩ :: after, inner, fresh⟩ := by
  refine ⟨formed, addressed, within, ?_, ascended.upper, ascended.root_eq _, ?_, low,
    represents.track_ascended ascended sameTrack ?_, ascended.fresh_eq⟩
  · intro other listed
    have apart := (nodup_append.mp represents.addressed.distinct).2.2
    have allocated : ∀ id ∈ levels.leaves.ids, id < levels.fresh := fun id old =>
      (represents.addressed.allocated id (mem_append_left _ old)).2
    have kept : ∀ id ∈ levels.leaves.ids, SameCell (grown.nodes id) (tree'.nodes id) := by
      intro id old
      apply ascended.frame id fun above => apart id old id above rfl
      rw [freshEq]
      exact Nat.lt_add_right 2 (allocated id old)
    have unchanged : ∀ neighbour ∈ before ++ after, ∃ cell,
        tree'.nodes neighbour.id = some (.leaf cell) ∧
          cell.Represents ops.toKeyOps neighbour.view := by
      intro neighbour inRest
      have old : neighbour ∈ levels.leaves := by
        rw [split]
        rcases mem_append.mp inRest with inBefore | inAfter
        · simp [inBefore]
        · simp [inAfter]
      have oldId : neighbour.id ∈ levels.leaves.ids := mem_map_of_mem old
      obtain ⟨oldCell, stored, oldReads⟩ := represents.ground neighbour old
      have other := (represents.ne_leaf split).1 neighbour.id (by
        rw [← Leaves.ids_append]
        exact mem_map_of_mem inRest)
      rw [← elsewhere neighbour.id (allocated _ oldId) other] at stored
      exact (kept neighbour.id oldId).leaf stored oldReads
    rcases mem_append.mp listed with inBefore | later
    · exact unchanged other (mem_append_left _ inBefore)
    · rcases mem_cons.mp later with rfl | later
      · exact (kept leaf.id (by simp [split])).leaf leafHere leafReads
      · rcases mem_cons.mp later with rfl | inAfter
        · have newCell : SameCell (grown.nodes levels.fresh) (tree'.nodes levels.fresh) := by
            apply ascended.frame
            · exact fun above => lt_irrefl _
                (represents.addressed.allocated _ (mem_append_right _ above)).2
            · rw [freshEq]
              exact Nat.lt_add_of_pos_right (by decide)
          exact newCell.leaf rightHere rightReads
        · exact unchanged other (mem_append_right _ inAfter)
  · have depth := ascended.depth_eq
    have oldDepth := represents.depth_eq
    simp only
    omega
  · simp only [split, Leaves.ids_append, Leaves.ids_cons]
    cases before with
    | nil => rfl
    | cons first others => rfl

/-- What `upsert` leaves behind when it returns. -/
structure Entered (laws : ops.Laws size) (tree : Tree leafSize K H V Mid Inner)
    (result : Option (KVPair K V) × Tree leafSize K H V Mid Inner)
    (outcome : Option (KVPair K V) × Levels K H V) : Prop where
  answer : result.1 = outcome.1
  represents : result.2.Represents laws outcome.2
  retired : result.2.retired = tree.retired

theorem upsert_follows (memory : Memory leafSize K H V Inner)
    (represents : tree.Represents laws levels) {kv : KVPair K V} (valid : laws.Valid kv.key) :
    Follows .noTrack (Entered laws tree) (tree.upsert ops memory kv)
      (if (levels.upsert ops.toKeyOps leafSize size kv).2.inner.length < kMaxHeight then
        some (levels.upsert ops.toKeyOps leafSize size kv) else none) := by
  have formed := (represents.wellFormed.upsert_spec laws.highKey_makeHigh kv).2.1
  have within := represents.within.upsert laws.highKey_makeHigh represents.wellFormed valid
  have addressed : (levels.upsert ops.toKeyOps leafSize size kv).2.Addressed :=
    represents.addressed.upsert kv
  have way := represents.wellFormed.upserts kv
  generalize levels.upsert ops.toKeyOps leafSize size kv = result at *
  cases way with
  | replaced found _ step =>
    obtain ⟨tree', result, kept, same⟩ :=
      represents.upsert_stays memory valid found step formed within
    rw [if_pos kept.depth_le]
    exact ⟨_, result, rfl, kept, same⟩
  | placed found _ _ step =>
    obtain ⟨tree', result, kept, same⟩ :=
      represents.upsert_stays memory valid found step formed within
    rw [if_pos kept.depth_le]
    exact ⟨_, result, rfl, kept, same⟩
  | @split before after leaf left rest middle found unbound into step =>
    obtain ⟨path, located, current, leads⟩ := represents.locate_eq valid found
    have split := Levels.leafOf_eq_some found
    obtain ⟨cell, loaded, _, reads⟩ := represents.leafAt_eq leaf (by simp [split])
    have bounded := (represents.wellFormed.chain.sound leaf (by simp [split])).bounded
    obtain ⟨upserted, result, oldEq, leafReads, someRight⟩ :=
      LeafNode.upsert_spec (memory.leaf tree.fresh) tree.fresh (tree.fresh + 1) reads bounded kv
    rw [← represents.fresh_eq] at step
    rw [step] at oldEq leafReads someRight
    obtain ⟨right, rightEq, rightReads⟩ : ∃ right, upserted.rnode = some right ∧
        right.Represents ops.toKeyOps ⟨rest, leaf.view.high, leaf.view.link⟩ := by
      cases rnodeEq : upserted.rnode with
      | none =>
        rw [rnodeEq] at someRight
        cases someRight
      | some right =>
        rw [rnodeEq] at someRight
        cases someRight with
        | some reads => exact ⟨right, rfl, reads⟩
    have highEq : upserted.leaf.highKey = ops.makeHigh (levels.fresh + 1) middle := by
      have high := leafReads.high
      cases sibling : upserted.leaf.control.sibling with
      | false => simp [sibling] at high
      | true =>
        rw [if_pos sibling] at high
        rw [← represents.fresh_eq]
        exact (Option.some.inj high).symm
    generalize grownEq : ({ (tree.write leaf.id (.leaf upserted.leaf)).write tree.fresh
      (.leaf right) with fresh := tree.fresh + 2 } : Tree leafSize K H V Mid Inner) = grown
    obtain ⟨otherLeaves, otherNodes⟩ := represents.ne_leaf split
    have allocated : ∀ id ∈ levels.ids, id < tree.fresh := by
      rw [represents.fresh_eq]
      exact fun id listed => (represents.addressed.allocated id listed).2
    have elsewhere : ∀ id, id < tree.fresh → id ≠ leaf.id → grown.nodes id = tree.nodes id := by
      intro id old other
      rw [← grownEq]
      exact (nodes_write_of_ne (ne_of_lt old)).trans (nodes_write_of_ne other)
    have leafOld : leaf.id < tree.fresh := allocated leaf.id (by simp [Levels.ids, split])
    have leafHere : grown.nodes leaf.id = some (.leaf upserted.leaf) := by
      rw [← grownEq]
      exact (nodes_write_of_ne (ne_of_lt leafOld)).trans (nodes_write_self _ _ _)
    have rightHere : grown.nodes tree.fresh = some (.leaf right) := by
      rw [← grownEq]
      exact nodes_write_self _ _ _
    have freshEq : grown.fresh = levels.fresh + 2 := by
      rw [← grownEq, ← represents.fresh_eq]
    have rootEq : grown.root = tree.root := by rw [← grownEq]; rfl
    have decoded : laws.decode (ops.midOf upserted.leaf.highKey) =
        ops.makeHigh (levels.fresh + 1) middle := by
      rw [laws.decode_midOf, highEq]
    have ascends : Ascends laws grown kv.key levels.inner before.bounds
        (leaf.view.high.toList ++ after.bounds) before.ids after.ids path.stack leaf.id
        (ops.midOf upserted.leaf.highKey) 0 := by
      have oldChain := represents.wellFormed.chain
      have stacked := represents.wellFormed.stacked
      have distinct := represents.addressed.distinct
      have top := represents.root_eq
      have bounds := formed.chain.ascending_bounds
      have validBounds := within.bounds
      rw [split] at oldChain stacked top
      rw [Levels.ids, split] at distinct
      refine ⟨represents.upper.kept ?_, by simpa using stacked,
        oldChain.length_bounds_before.symm, ?_, ?_, by simpa using distinct, ?_, ?_, leads, ?_⟩
      · intro id listed
        exact .inl (elsewhere id (allocated id (mem_append_right _ listed))
          (otherNodes id listed))
      · rw [decoded]
        simpa using bounds
      · rw [decoded]
        simpa using validBounds
      · intro id listed
        rw [freshEq, ← represents.fresh_eq]
        have old := allocated id (by simpa [Levels.ids, split] using listed)
        unfold Ptr at *
        omega
      · rw [rootEq]
        simpa using top
      · exact fun _ => ⟨upserted.leaf, leafHere⟩
    have enough : levels.inner.length < grown.fresh := by
      have counted := represents.length_lt_fresh
      rw [freshEq, ← represents.fresh_eq]
      unfold Ptr at *
      omega
    have following := ascend_spec memory ascends tree.fresh enough (by
      rw [Nat.zero_add]
      exact represents.depth_le)
    rw [freshEq, decoded, represents.fresh_eq] at following
    generalize Levels.climb ops.highKey size levels.inner (levels.fresh + 2) leaf.id levels.fresh
      (ops.makeHigh (levels.fresh + 1) middle) = climbed at *
    have upsertEq : tree.upsert ops memory kv =
        (ascend ops memory grown.fresh grown path.stack 0 leaf.id levels.fresh
          (ops.midOf upserted.leaf.highKey)).map fun tree' => (none, tree') := by
      rw [← represents.fresh_eq]
      subst grownEq
      simp only [upsert, located, current, loaded, result, rightEq, oldEq, ok_bind,
        pure, Except.pure]
      rfl
    by_cases low : climbed.1.length < kMaxHeight
    · rw [if_pos low]
      rw [lowEnough, if_pos (by simpa using low)] at following
      obtain ⟨tree', loop, ascended⟩ := following
      refine ⟨(none, tree'), ?_, rfl, ?_, ?_⟩
      · rw [upsertEq, freshEq, loop]
        rfl
      · rw [represents.fresh_eq] at elsewhere leafReads rightHere
        exact represents.of_ascended split formed addressed within elsewhere leafHere leafReads
          rightHere rightReads freshEq (by rw [← grownEq]; rfl)
            (by rw [← grownEq]; rfl) ascended low
      · rw [ascended.retired_eq, ← grownEq]
        rfl
    · rw [if_neg low]
      rw [lowEnough, if_neg (by simpa using low)] at following
      rw [upsertEq, freshEq, show ascend ops memory _ _ _ _ _ _ _ = _ from following]
      rfl

end Represents

end Tree

end IndexResearch.FBTree
