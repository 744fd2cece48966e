import IndexResearch.FBTree.Tree.Insertion

/-!
# Removal from the tree in memory

The loop of `remove` works on the levels as `Levels.settle` and `Levels.rename` do.  It
reads a separator that is not there exactly when `Levels.settle` has no result.  The nodes
given to `retire` are no longer nodes of the levels.
-/

namespace IndexResearch.FBTree

open List Level

variable {leafSize size : NodeSize} {K H V Mid Inner : Type} [LinearOrder K]
  {ops : NodeOps K H Mid Inner} {laws : ops.Laws size}

namespace Tree

variable {tree tree' : Tree leafSize K H V Mid Inner} {key : K}

/-! ## One level -/

def HoldsLevel (laws : ops.Laws size) (tree : Tree leafSize K H V Mid Inner) (level : Level H) :
    Prop :=
  ∀ node ∈ level, ∃ cell, tree.nodes node.id = some (.inner cell) ∧ laws.Reads cell node.view

section Level

variable {before after : Level H} {node : LevelNode H} {cell : Inner} {view : NodeView H}

theorem HoldsLevel.congr {level : Level H} (holds : tree.HoldsLevel laws level)
    (same : ∀ id ∈ level.ids, tree'.nodes id = tree.nodes id) : tree'.HoldsLevel laws level := by
  intro node listed
  rw [same node.id (mem_map_of_mem listed)]
  exact holds node listed

theorem HoldsLevel.subset {level level' : Level H} (holds : tree.HoldsLevel laws level)
    (subset : level' ⊆ level) : tree.HoldsLevel laws level' :=
  fun node listed => holds node (subset listed)

theorem HoldsLevel.write (holds : tree.HoldsLevel laws (before ++ node :: after))
    (distinct : (Level.ids (before ++ node :: after)).Nodup) (reads : laws.Reads cell view) :
    (tree.write node.id (.inner cell)).HoldsLevel laws (before ++ ⟨node.id, view⟩ :: after) := by
  rw [ids_append, ids_cons, nodup_middle, nodup_cons] at distinct
  intro other listed
  rcases mem_append.mp listed with inBefore | later
  · rw [nodes_write_of_ne]
    · exact holds other (mem_append_left _ inBefore)
    · intro same
      exact distinct.1 (same ▸ mem_append_left _ (mem_map_of_mem inBefore))
  · rcases mem_cons.mp later with rfl | inAfter
    · exact ⟨cell, nodes_write_self _ _ _, reads⟩
    · rw [nodes_write_of_ne]
      · exact holds other (mem_append_right _ (mem_cons_of_mem _ inAfter))
      · intro same
        exact distinct.1 (same ▸ mem_append_right _ (mem_map_of_mem inAfter))

end Level

/-- What one removal leaves of a level: the tree, the node absorbed, whether the last
separator changed, and the separator to look for above. -/
structure RemovedLevel (laws : ops.Laws size) (tree : Tree leafSize K H V Mid Inner)
    (before : Level H) (node : LevelNode H) (after : Level H)
    (result : Tree leafSize K H V Mid Inner × Option Ptr × Bool × Mid)
    (removal : NodeView.Removal H) : Prop where
  holds : result.1.HoldsLevel laws
    (before ++ ⟨node.id, removal.node⟩ :: Levels.rightOf after removal.right)
  frame : ∀ ptr, ptr ∉ Level.ids (before ++ node :: after) → result.1.nodes ptr = tree.nodes ptr
  rest : result.1 = { tree with nodes := result.1.nodes }
  ascent : match removal.ascent with
    | .done => result.2.1 = none ∧ result.2.2.1 = false
    | .merged sep => result.2.1 = after.head?.map LevelNode.id ∧ result.2.2.1 = false ∧
        laws.decode result.2.2.2 = sep
    | .renamed sep => result.2.1 = none ∧ result.2.2.1 = true ∧ laws.decode result.2.2.2 = sep

section Level

variable {before after : Level H} {node : LevelNode H} {cell : Inner} {view : NodeView H}
  {bounds₁ bounds₂ : List H} {old : H} {ids₁ ids₂ : List Ptr} {current : Ptr} {mid : Mid}
  {above : List (Level H)}

theorem removeFrom_rightmost {index : Nat} (holds : tree.HoldsLevel laws (before ++ [node]))
    (distinct : (Level.ids (before ++ [node])).Nodup) (rightmost : node.view.link = none)
    (inside : index < node.view.seps.length) (absorbed : Ptr) :
    Follows .noSeparator (RemovedLevel laws tree before node [])
      (tree.removeFrom ops (some absorbed) node.id mid index)
      (node.view.remove size none (laws.decode mid) index) := by
  obtain ⟨cell, stored, formed, alive, viewEq⟩ := holds node (by simp)
  rw [← viewEq] at rightmost inside
  have alone : (ops.control cell).sibling = false := by
    have flag := laws.link_eq cell
    rw [rightmost] at flag
    cases sibling : (ops.control cell).sibling with
    | false => rfl
    | true => simp [sibling] at flag
  have spec := laws.remove_spec cell cell node.id mid index formed inside
    (fun linked => absurd rightmost linked)
  rw [rightmost, viewEq] at spec
  simp only [Option.isSome_none, Bool.false_eq_true, if_false] at spec
  cases removalEq : node.view.remove size none (laws.decode mid) index with
  | none =>
    rw [removalEq, Follows] at spec
    simp only [removeFrom, innerAt, stored, alone, spec, ok_bind]
    rfl
  | some removal =>
    rw [removalEq] at spec
    obtain ⟨removed, result, matched⟩ := spec
    have final := NodeView.remove_rightmost removalEq
    have describes := matched.ascent
    rw [final] at describes
    refine ⟨(tree.write node.id (.inner removed.node), none, removed.up, removed.mid), ?_, ?_, ?_,
      rfl, ?_⟩
    · simp only [removeFrom, innerAt, stored, alone, result, ok_bind]
      rfl
    · exact holds.write distinct
        ⟨matched.wellFormed, matched.deleted_eq.trans alive, matched.view_eq⟩
    · intro ptr absent
      exact nodes_write_of_ne fun same => absent (by simp [same])
    · rw [final]
      exact ⟨rfl, describes.2⟩

theorem removeFrom_sibling {next : LevelNode H} {rest : Level H} {index : Nat}
    (holds : tree.HoldsLevel laws (before ++ node :: next :: rest))
    (distinct : (Level.ids (before ++ node :: next :: rest)).Nodup)
    (link : node.view.link = some next.id)
    (rising : Ascending ops.highKey (node.view.seps ++ next.view.seps))
    (nonempty : next.view.link ≠ none → next.view.seps ≠ [])
    (inside : index < node.view.seps.length) (absorbed : Ptr) :
    Follows .noSeparator (RemovedLevel laws tree before node (next :: rest))
      (tree.removeFrom ops (some absorbed) node.id mid index)
      (node.view.remove size (some next.view) (laws.decode mid) index) := by
  obtain ⟨cell, stored, formed, alive, viewEq⟩ := holds node (by simp)
  obtain ⟨right, rightStored, rightWellFormed, rightAlive, rightViewEq⟩ := holds next (by simp)
  rw [← viewEq] at link inside rising
  rw [← rightViewEq] at rising nonempty
  obtain ⟨sibling, nextEq⟩ : (ops.control cell).sibling = true ∧ ops.next cell = next.id := by
    have flag := laws.link_eq cell
    rw [link] at flag
    cases sibling : (ops.control cell).sibling with
    | false => simp [sibling] at flag
    | true =>
      rw [sibling] at flag
      exact ⟨rfl, (Option.some.inj flag).symm⟩
  have spec := laws.remove_spec cell right node.id mid index formed inside
    (fun _ => ⟨rightWellFormed, rising, nonempty⟩)
  rw [link, Option.isSome_some, if_pos rfl, viewEq, rightViewEq] at spec
  cases removalEq : node.view.remove size (some next.view) (laws.decode mid) index with
  | none =>
    rw [removalEq, Follows] at spec
    simp only [removeFrom, innerAt, stored, sibling, nextEq, rightStored, spec, ok_bind,
      if_true]
    rfl
  | some removal =>
    rw [removalEq] at spec
    obtain ⟨removed, result, matched⟩ := spec
    have written := holds.write distinct
      ⟨matched.wellFormed, matched.deleted_eq.trans alive, matched.view_eq⟩
    refine ⟨((tree.write node.id (.inner removed.node)).write next.id (.inner removed.right),
      if removed.merged then some next.id else none, removed.up, removed.mid), ?_, ?_, ?_, rfl, ?_⟩
    · simp only [removeFrom, innerAt, stored, sibling, nextEq, rightStored, result, bind,
        Except.bind, if_true]
      rfl
    · cases rightEq : removal.right with
      | none =>
        have kept : (tree.write node.id (.inner removed.node)).HoldsLevel laws
            (before ++ ⟨node.id, removal.node⟩ :: rest) := by
          apply written.subset
          intro other listed
          simp only [mem_append, mem_cons] at listed ⊢
          tauto
        apply kept.congr
        intro id listed
        apply nodes_write_of_ne
        rintro rfl
        rw [append_cons, ids_append, ids_cons, nodup_middle,
          nodup_cons] at distinct
        exact distinct.1 (by simpa using listed)
      | some view =>
        obtain ⟨rightOk, rightView, deletedEq⟩ := matched.right_eq view rightEq
        rw [Levels.rightOf, append_cons]
        rw [append_cons] at written
        exact written.write (by simpa using distinct)
          ⟨rightOk, deletedEq.trans rightAlive, rightView⟩
    · intro ptr absent
      simp only [ids_append, ids_cons, mem_append, mem_cons, not_or] at absent
      rw [nodes_write_of_ne absent.2.2.1, nodes_write_of_ne absent.2.1]
    · have describes := matched.ascent
      cases ascent : removal.ascent with
      | done =>
        rw [ascent] at describes
        simp [describes.1, describes.2]
      | merged sep | renamed sep =>
        rw [ascent] at describes
        simp [describes.1, describes.2.1, describes.2.2]

section

variable
  (loses : Loses ops.highKey size bounds₁ old bounds₂ ids₁ current ids₂ (laws.decode mid) before
    node after above)
  (holds : tree.HoldsLevel laws (before ++ node :: after))
  (distinct : (Level.ids (before ++ node :: after)).Nodup)
include loses holds distinct

theorem removeFrom_merged
    (rising : Ascending ops.highKey (Level.seps (before ++ node :: after))) (absorbed : Ptr) :
    Follows .noSeparator (RemovedLevel laws tree before node after)
      (tree.removeFrom ops (some absorbed) node.id mid
        (rankIn ops.highKey node.view.seps (ops.highKey (laws.decode mid))))
      (node.view.remove size (after.head?.map LevelNode.view) (laws.decode mid)
        (rankIn ops.highKey node.view.seps (ops.highKey (laws.decode mid)))) := by
  have inside := loses.inside
  have link : node.view.link = after.head?.map LevelNode.id := by
    simpa using (linked_append.mp loses.shape.linked).2.1
  cases after with
  | nil => exact removeFrom_rightmost holds distinct link inside absorbed
  | cons next rest =>
    refine removeFrom_sibling holds distinct link ?_ (loses.shape.sound next (by simp)).seps_ne_nil
      inside absorbed
    rw [seps_append, seps_cons, seps_cons, ← append_assoc node.view.seps]
      at rising
    exact (ascending_append.mp (ascending_append.mp rising).2.1).1

theorem removeFrom_renamed (rising : Ascending ops.highKey (bounds₁ ++ laws.decode mid :: bounds₂))
    (valid : laws.Valid (ops.highKey (laws.decode mid))) :
    ∃ cell, tree.removeFrom ops none node.id mid
          (rankIn ops.highKey node.view.seps (ops.highKey (laws.decode mid))) =
        .ok (tree.write node.id (.inner cell), none, (node.view.anchorUpdate (laws.decode mid)
          (rankIn ops.highKey node.view.seps (ops.highKey (laws.decode mid)))).2, mid) ∧
      (tree.write node.id (.inner cell)).HoldsLevel laws (before ++
        ⟨node.id, (node.view.anchorUpdate (laws.decode mid)
          (rankIn ops.highKey node.view.seps (ops.highKey (laws.decode mid)))).1⟩ :: after) := by
  obtain ⟨cell, stored, formed, alive, viewEq⟩ := holds node (by simp)
  have inside := loses.inside
  obtain ⟨seps₁, seps₂, nodeSeps, pos, rfl, rfl⟩ := loses.parts
  have setEq : node.view.seps.set
      (rankIn ops.highKey node.view.seps (ops.highKey (laws.decode mid))) (laws.decode mid) =
      seps₁ ++ laws.decode mid :: seps₂ := by
    rw [pos, nodeSeps]
    simp
  have nodeAscending : Ascending ops.highKey (seps₁ ++ laws.decode mid :: seps₂) := by
    rw [append_assoc, ← cons_append, ← append_assoc seps₁] at rising
    exact (ascending_append.mp (ascending_append.mp rising).2.1).1
  rw [← setEq] at nodeAscending
  generalize rankIn ops.highKey node.view.seps (ops.highKey (laws.decode mid)) = index at *
  rw [← viewEq] at inside nodeAscending
  obtain ⟨updated, up, result, updatedOk, deletedEq, views⟩ :=
    laws.anchorUpdate_spec cell mid index formed inside valid nodeAscending
  rw [viewEq] at views
  rw [← views]
  refine ⟨updated, ?_, holds.write distinct ⟨updatedOk, deletedEq.trans alive, rfl⟩⟩
  simp only [removeFrom, innerAt, stored, result, ok_bind]
  rfl

end

end Level

/-- What the loop of `remove` finds: the separator `old` of the node `current` is to be
removed or to be exchanged for `mid`. -/
structure Settles (laws : ops.Laws size) (tree : Tree leafSize K H V Mid Inner) (key : K)
    (levels : List (Level H)) (bounds₁ : List H) (old : H) (bounds₂ : List H)
    (ids₁ ids₂ stack : List Ptr) (current : Ptr) (mid : Mid) : Prop where
  upper : tree.Upper laws levels
  stacked : Stacked size (bounds₁ ++ old :: bounds₂) (ids₁ ++ current :: ids₂) levels
  sameLength : ids₁.length = bounds₁.length
  ascending : Ascending ops.highKey (bounds₁ ++ old :: bounds₂)
  smaller : ∀ bound ∈ bounds₁, ops.highKey bound < ops.highKey (laws.decode mid)
  below : ops.highKey (laws.decode mid) ≤ ops.highKey old
  valid : laws.Valid (ops.highKey (laws.decode mid))
  validBounds : ∀ bound ∈ bounds₁ ++ old :: bounds₂, laws.Valid (ops.highKey bound)
  distinct : ((ids₁ ++ current :: ids₂) ++ innerIds levels).Nodup
  proper : nullptr ∉ innerIds levels
  root_eq : topIds (ids₁ ++ current :: ids₂) levels = [tree.root]
  path : Leads ops.highKey key current levels stack
  fresh_pos : 0 < tree.fresh
  depth_pos : 0 < tree.treeDepth

/-- What was given to `retire`, calls without a node left out. -/
def reclaimed (retired : List Ptr) : List Ptr := retired.filter (· ≠ nullptr)

theorem reclaimed_append (earlier later : List Ptr) :
    reclaimed (earlier ++ later) = reclaimed earlier ++ reclaimed later :=
  filter_append ..

theorem reclaimed_nullptr : reclaimed [nullptr] = [] := rfl

theorem reclaimed_singleton {ptr : Ptr} (proper : ptr ≠ nullptr) : reclaimed [ptr] = [ptr] := by
  simp [reclaimed, proper]

theorem mem_reclaimed {retired : List Ptr} {ptr : Ptr} :
    ptr ∈ reclaimed retired ↔ ptr ∈ retired ∧ ptr ≠ nullptr := by
  simp [reclaimed]

/-- What the loop of `remove` leaves: the levels become `levels'`, above nodes at `ids`. -/
structure Settled (laws : ops.Laws size) (tree tree' : Tree leafSize K H V Mid Inner)
    (levels levels' : List (Level H)) (ids : List Ptr) (absorbed : Ptr) : Prop where
  upper : tree'.Upper laws levels'
  frame : ∀ ptr, ptr ∉ innerIds levels → tree'.nodes ptr = tree.nodes ptr
  root_eq : topIds ids levels' = [tree'.root]
  depth_eq : tree'.treeDepth + levels.length = tree.treeDepth + levels'.length
  heads_eq : levels'.map Level.head <+: levels.map Level.head
  track_eq : tree'.rootTrack = tree.rootTrack
  fresh_eq : tree'.fresh = tree.fresh
  account : (reclaimed tree'.retired ++ innerIds levels').Perm
    (reclaimed (tree.retired ++ [absorbed]) ++ innerIds levels)

section Settle

variable {level : Level H} {above levels : List (Level H)} {bounds₁ bounds₂ : List H} {old : H}
  {ids₁ ids₂ stack : List Ptr} {current : Ptr} {mid : Mid}

theorem settle_round
    (settles : Settles laws tree key (level :: above) bounds₁ old bounds₂ ids₁ ids₂ stack current
      mid) :
    ∃ (before : Level H) (node : LevelNode H) (after : Level H) (rest : List Ptr),
      level = before ++ node :: after ∧
      Loses ops.highKey size bounds₁ old bounds₂ ids₁ current ids₂ (laws.decode mid) before node
        after above ∧
      Leads ops.highKey key node.id above rest ∧ (node.id = tree.root ↔ above = []) ∧
      ∀ fuel rootid merged up, (merged.isNone && !up) = false →
        settle ops (fuel + 1) tree stack rootid current merged up mid =
          ((tree.retire (merged.getD nullptr)).removeFrom ops merged node.id mid
            (rankIn ops.highKey node.view.seps (ops.highKey (laws.decode mid)))).bind fun removed =>
            if node.id = removed.1.root then removed.1.collapse ops current
            else settle ops fuel removed.1 rest (rootid + 1) node.id removed.2.1 removed.2.2.1
              removed.2.2.2 := by
  obtain ⟨before, node, after, rfl, loses⟩ := settles.stacked.loses settles.sameLength
    settles.ascending settles.smaller settles.below
  obtain ⟨otherBefore, parent, otherAfter, rest, split, rfl, child, leads⟩ := settles.path
  have listed : node ∈ before ++ node :: after := by simp
  obtain ⟨lowerDistinct, innerDistinct, _⟩ := nodup_append.mp settles.distinct
  obtain rfl : parent = node := by
    apply parent_unique (loses.kids ▸ lowerDistinct) _ listed
      (mem_of_getElem? child) loses.child
    rw [split]
    simp
  obtain ⟨cell, stored, reads⟩ := (upper_cons.mp settles.upper).1 parent listed
  have sound := loses.shape.sound parent listed
  have pos : ∀ retiree,
      (tree.retire retiree).index ops mid (tree.retire retiree).fresh parent.id =
        .ok (parent.id, rankIn ops.highKey parent.view.seps (ops.highKey (laws.decode mid))) :=
    fun _ => index_eq mid stored reads sound.seps_ne_nil
      (fun all => absurd all (Nat.ne_of_lt loses.inside)) settles.valid settles.fresh_pos
  refine ⟨before, parent, after, rest, rfl, loses, leads, ?_, ?_⟩
  · have top := settles.root_eq
    constructor
    · intro isRoot
      cases above with
      | nil => rfl
      | cons upper higher =>
        have topAbove : topIds (Level.ids (before ++ parent :: after)) (upper :: higher) =
            [tree.root] := top
        rw [innerIds_cons] at innerDistinct
        have apart := (nodup_append.mp innerDistinct).2.2 parent.id (by simp) tree.root
          (root_mem topAbove)
        exact absurd isRoot apart
    · rintro rfl
      have single : Level.ids (before ++ parent :: after) = [tree.root] := top
      have here : parent.id ∈ Level.ids (before ++ parent :: after) := by simp
      rw [single] at here
      exact mem_singleton.mp here
  · intro fuel rootid merged up busy
    have parentEq : (tree.retire (merged.getD nullptr)).parentOf (parent.id :: rest) (rootid + 1) =
        .ok (parent.id, rest) := rfl
    rw [settle, if_neg (by simp [busy])]
    simp only [parentEq, pos, bind, Except.bind]

theorem Settled.refl {ids : List Ptr} (upper : tree.Upper laws levels)
    (root_eq : topIds ids levels = [tree.root]) :
    Settled laws tree tree levels levels ids nullptr := by
  refine ⟨upper, fun _ _ => rfl, root_eq, rfl, prefix_rfl, rfl, rfl, ?_⟩
  rw [reclaimed_append, reclaimed_nullptr, append_nil]

theorem Settled.cons {next : Tree leafSize K H V Mid Inner} {level' : Level H}
    {above' : List (Level H)} {ids : List Ptr} {absorbed absorbedAbove : Ptr}
    (settled : Settled laws next tree' above above' level'.ids absorbedAbove)
    (round : next = { tree with nodes := next.nodes, retired := tree.retired ++ [absorbed] })
    (holds : next.HoldsLevel laws level')
    (frame : ∀ ptr, ptr ∉ level.ids → next.nodes ptr = tree.nodes ptr)
    (sameHead : level'.head = level.head) (distinct : (innerIds (level :: above)).Nodup)
    (dropped : (reclaimed [absorbedAbove] ++ level'.ids).Perm level.ids) :
    Settled laws tree tree' (level :: above) (level' :: above') ids absorbed := by
  rw [innerIds_cons] at distinct
  have apart := (nodup_append.mp distinct).2.2
  have notAbove : ∀ id ∈ level.ids, id ∉ innerIds above := fun id here there =>
    apart id here id there rfl
  have fewer : level'.ids ⊆ level.ids := fun id here => dropped.subset
    (mem_append_right _ here)
  have retiredEq : next.retired = tree.retired ++ [absorbed] := by rw [round]
  have depthEq : next.treeDepth = tree.treeDepth := by rw [round]
  have depth := settled.depth_eq
  refine ⟨upper_cons.mpr ⟨?_, settled.upper⟩, ?_, settled.root_eq, ?_, ?_, ?_, ?_, ?_⟩
  · exact holds.congr fun id listed => settled.frame id (notAbove id (fewer listed))
  · intro ptr outside
    simp only [innerIds_cons, mem_append, not_or] at outside
    rw [settled.frame ptr outside.2, frame ptr outside.1]
  · simp only [length_cons]
    omega
  · rw [map_cons, map_cons, sameHead]
    exact cons_prefix_cons.mpr ⟨rfl, settled.heads_eq⟩
  · rw [settled.track_eq, round]
  · rw [settled.fresh_eq, round]
  · have account := settled.account
    rw [retiredEq, reclaimed_append (tree.retired ++ [absorbed])] at account
    rw [innerIds_cons, innerIds_cons]
    rw [← Multiset.coe_eq_coe] at account dropped ⊢
    simp only [← Multiset.coe_add] at account dropped ⊢
    calc (reclaimed tree'.retired : Multiset Ptr) + (level'.ids + innerIds above')
        = level'.ids + (reclaimed tree'.retired + innerIds above') := by ac_rfl
      _ = level'.ids + (reclaimed (tree.retired ++ [absorbed]) + reclaimed [absorbedAbove] +
            innerIds above) := by rw [account]
      _ = reclaimed (tree.retired ++ [absorbed]) +
            ((reclaimed [absorbedAbove] + level'.ids) + innerIds above) := by ac_rfl
      _ = reclaimed (tree.retired ++ [absorbed]) + (level.ids + innerIds above) := by rw [dropped]

theorem collapse_stays {cell : Inner} {view : NodeView H}
    (stored : tree.nodes tree.root = some (.inner cell)) (reads : laws.Reads cell view)
    (rightmost : view.link = none) (nonempty : view.seps ≠ []) :
    tree.collapse ops current = .ok tree := by
  have spec := laws.rootRemove_spec cell reads.wellFormed (reads.view_eq ▸ rightmost)
  rw [reads.view_eq, if_neg nonempty] at spec
  rw [collapse, innerAt, stored]
  simp only [ok_bind]
  rcases removed : ops.rootRemove cell with ⟨node, _ | next⟩
  · rfl
  · rw [removed] at spec
    exact absurd spec (Option.some_ne_none next)

theorem collapse_retires {cell : Inner} {view : NodeView H}
    (stored : tree.nodes tree.root = some (.inner cell)) (reads : laws.Reads cell view)
    (rightmost : view.link = none) (empty : view.seps = []) (kids : view.kids = [current]) :
    ∃ nodes, tree.collapse ops current = .ok { tree with
        nodes := nodes
        root := current
        treeDepth := tree.treeDepth - 1
        retired := tree.retired ++ [tree.root] } ∧
      ∀ ptr, ptr ≠ tree.root → nodes ptr = tree.nodes ptr := by
  have spec := laws.rootRemove_spec cell reads.wellFormed (reads.view_eq ▸ rightmost)
  rw [reads.view_eq, if_pos empty, kids] at spec
  obtain ⟨onlyChild, result, _⟩ := spec
  have childEq : ops.next cell = current := (List.cons.inj onlyChild).1.symm
  refine ⟨(tree.write tree.root (.inner (ops.rootRemove cell).1)).nodes, ?_, ?_⟩
  · rw [collapse, innerAt, stored]
    simp only [ok_bind]
    rcases removed : ops.rootRemove cell with ⟨node, _ | next⟩
    · rw [removed] at result
      cases result
    · rw [removed] at result
      cases result
      simp only [childEq, if_true]
      rfl
  · exact fun ptr other => nodes_write_of_ne other

omit [LinearOrder K] in
theorem eq_nil_of_ids {before after : Level H} {node : LevelNode H} {root : Ptr}
    (single : Level.ids (before ++ node :: after) = [root]) : before = [] ∧ after = [] := by
  have length := congrArg List.length single
  simp only [Level.ids, length_map, length_append, length_cons,
    length_nil] at length
  exact ⟨eq_nil_of_length_eq_zero (by omega), eq_nil_of_length_eq_zero (by omega)⟩

theorem Settles.ascending_mid
    (settles : Settles laws tree key levels bounds₁ old bounds₂ ids₁ ids₂ stack current mid) :
    Ascending ops.highKey (bounds₁ ++ laws.decode mid :: bounds₂) := by
  obtain ⟨left, right, across⟩ := ascending_append.mp settles.ascending
  obtain ⟨first, rest⟩ := ascending_cons.mp right
  refine ascending_append.mpr ⟨left, ascending_cons.mpr ⟨?_, rest⟩, ?_⟩
  · exact fun bound listed => lt_of_le_of_lt settles.below (first bound listed)
  · rintro bound listed other (_ | ⟨_, later⟩)
    · exact settles.smaller bound listed
    · exact across bound listed other (mem_cons_of_mem _ later)

theorem Settles.next {before after : Level H} {node : LevelNode H}
    {next : Tree leafSize K H V Mid Inner} {rest retired : List Ptr} {newOld : H} {newMid : Mid}
    (settles : Settles laws tree key ((before ++ node :: after) :: above) bounds₁ old bounds₂ ids₁
      ids₂ stack current mid)
    (loses : Loses ops.highKey size bounds₁ old bounds₂ ids₁ current ids₂ (laws.decode mid) before
      node after above)
    (leads : Leads ops.highKey key node.id above rest)
    (round : next = { tree with nodes := next.nodes, retired := retired })
    (frame : ∀ ptr, ptr ∉ Level.ids (before ++ node :: after) → next.nodes ptr = tree.nodes ptr)
    (high : node.high = some newOld)
    (smaller : ∀ bound ∈ before.bounds, ops.highKey bound < ops.highKey (laws.decode newMid))
    (below : ops.highKey (laws.decode newMid) ≤ ops.highKey newOld)
    (valid : laws.Valid (ops.highKey (laws.decode newMid))) :
    Settles laws next key above before.bounds newOld after.bounds before.ids after.ids rest node.id
      newMid := by
  obtain ⟨_, innerDistinct, _⟩ := nodup_append.mp settles.distinct
  rw [innerIds_cons] at innerDistinct
  have apart := (nodup_append.mp innerDistinct).2.2
  have levelBounds : Level.bounds (before ++ node :: after) =
      before.bounds ++ newOld :: after.bounds := by simp [high]
  have sublist := bounds_sublist (before ++ node :: after)
  rw [levelBounds, loses.seps] at sublist
  have top := settles.root_eq
  rw [topIds] at top
  refine ⟨(upper_cons.mp settles.upper).2.kept ?_, ?_, loses.shape.length_bounds_before.symm,
    settles.ascending.sublist sublist, smaller, below, valid,
    fun bound listed => settles.validBounds bound (sublist.subset listed), ?_, ?_, ?_, leads, ?_,
      ?_⟩
  · exact fun id listed => .inl (frame id fun here => apart id here id listed rfl)
  · have stacked := loses.stacked
    rw [levelBounds] at stacked
    simpa using stacked
  · simpa using innerDistinct
  · exact fun listed => settles.proper (innerIds_cons _ above ▸ mem_append_right _ listed)
  · rw [round]
    simpa using top
  · rw [round]
    exact settles.fresh_pos
  · rw [round]
    exact settles.depth_pos

theorem settle_renamed
    (settles : Settles laws tree key levels bounds₁ old bounds₂ ids₁ ids₂ stack current mid)
    {fuel : Nat} (enough : levels.length < fuel) (rootid : Nat) :
    ∃ tree', settle ops fuel tree stack rootid current none true mid = .ok tree' ∧
      Settled laws tree tree' levels (Levels.rename ops.highKey levels (laws.decode mid))
        (ids₁ ++ current :: ids₂) nullptr := by
  induction levels generalizing tree bounds₁ old bounds₂ ids₁ ids₂ stack current rootid fuel with
  | nil => exact absurd settles.stacked.1 (by simp)
  | cons level above ih =>
    obtain ⟨rounds, rfl⟩ := Nat.exists_eq_add_one.mpr (by omega : 0 < fuel)
    rw [length_cons] at enough
    obtain ⟨before, node, after, rest, rfl, loses, leads, isRoot, round⟩ := settle_round settles
    obtain ⟨holds, aboveUpper⟩ := upper_cons.mp settles.upper
    obtain ⟨_, innerDistinct, _⟩ := nodup_append.mp settles.distinct
    obtain ⟨levelDistinct, _, apart⟩ := nodup_append.mp (innerIds_cons _ above ▸ innerDistinct)
    have heldRetired : (tree.retire nullptr).HoldsLevel laws (before ++ node :: after) := holds
    obtain ⟨cell, result, written⟩ := removeFrom_renamed loses heldRetired levelDistinct
      settles.ascending_mid settles.valid
    have renameEq : Levels.rename ops.highKey ((before ++ node :: after) :: above)
      (laws.decode mid) = (before ++ ⟨node.id, (node.view.anchorUpdate (laws.decode mid)
          (rankIn ops.highKey node.view.seps (ops.highKey (laws.decode mid)))).1⟩ :: after) ::
        if (node.view.anchorUpdate (laws.decode mid)
          (rankIn ops.highKey node.view.seps (ops.highKey (laws.decode mid)))).2
        then Levels.rename ops.highKey above (laws.decode mid) else above := by
      rw [Levels.rename, loses.found]
    rw [renameEq, round rounds rootid none true rfl, Option.getD_none, result]
    have inside := loses.inside
    have lastHigh : (node.view.anchorUpdate (laws.decode mid) (rankIn ops.highKey node.view.seps
        (ops.highKey (laws.decode mid)))).2 = true → node.high = some old :=
      loses.high_of_up
    generalize rankIn ops.highKey node.view.seps (ops.highKey (laws.decode mid)) = index at *
    generalize nextEq : (tree.retire nullptr).write node.id (.inner cell) = next at *
    have frame : ∀ ptr, ptr ∉ Level.ids (before ++ node :: after) →
      next.nodes ptr = tree.nodes ptr := by
      intro ptr outside
      rw [← nextEq]
      exact nodes_write_of_ne fun same => outside (by simp [same])
    have roundEq : next = { tree with nodes := next.nodes, retired :=
      tree.retired ++ [nullptr] } := by
      rw [← nextEq]
      rfl
    have rootEq : next.root = tree.root := by rw [roundEq]
    have assemble : ∀ {above' tree'}, Settled laws next tree' above above'
        (Level.ids (before ++ node :: after)) nullptr →
        Settled laws tree tree' ((before ++ node :: after) :: above)
          ((before ++ ⟨node.id, (node.view.anchorUpdate (laws.decode mid) index).1⟩ :: after) ::
            above') (ids₁ ++ current :: ids₂) nullptr := by
      intro above' tree' settled
      have sameIds : Level.ids (before ++ (⟨node.id,
          (node.view.anchorUpdate (laws.decode mid) index).1⟩ : LevelNode H) :: after) =
          Level.ids (before ++ node :: after) := by simp
      rw [← sameIds] at settled
      refine settled.cons roundEq written frame ?_ innerDistinct ?_
      · rw [head_append_cons, head_append_cons]
      · rw [sameIds, reclaimed_nullptr, nil_append]
    cases above with
    | nil =>
      obtain ⟨rfl, rfl⟩ := eq_nil_of_ids settles.root_eq
      obtain ⟨rootCell, stored, reads⟩ := written _ mem_cons_self
      have here : node.id = next.root := (isRoot.mpr rfl).trans rootEq.symm
      have stays : next.collapse ops current = .ok next := by
        refine collapse_stays (here ▸ stored) reads (loses.shape.link_eq_none.mpr rfl) ?_
        rw [NodeView.anchorUpdate]
        apply ne_nil_of_length_pos
        rw [length_set]
        exact Nat.zero_lt_of_lt inside
      refine ⟨next, ?_, ?_⟩
      · simp only [Except.bind, if_pos here, stays]
      · have done : Settled laws next next [] [] (Level.ids [node]) nullptr := by
          refine .refl (fun _ listed => absurd listed not_mem_nil) ?_
          rw [rootEq]
          exact settles.root_eq
        simpa [Levels.rename] using assemble done
    | cons upper higher =>
      have notRoot : node.id ≠ next.root := by
        rw [rootEq]
        exact fun here => absurd (isRoot.mp here) (by simp)
      simp only [Except.bind, if_neg notRoot]
      by_cases up : (node.view.anchorUpdate (laws.decode mid) index).2 = true
      · rw [if_pos up, up]
        have nextSettles := settles.next loses leads roundEq frame (lastHigh up)
          (fun bound listed =>
          loses.located.smaller bound
            (mem_append_left _ ((bounds_sublist before).subset listed)))
          settles.below settles.valid
        obtain ⟨tree', result', settled⟩ := ih nextSettles
          (Nat.lt_of_succ_lt_succ enough) (rootid + 1)
        exact ⟨tree', result', assemble (by simpa using settled)⟩
      · obtain ⟨more, rfl⟩ := Nat.exists_eq_add_one.mpr (by omega : 0 < rounds)
        rw [if_neg up, eq_false_of_ne_true up]
        refine ⟨next, rfl, assemble (.refl ?_ ?_)⟩
        · exact aboveUpper.kept fun id listed => .inl
            (frame id fun here => apart id here id listed rfl)
        · rw [rootEq]
          exact settles.root_eq

theorem settle_merged {absorbed : Ptr}
    (settles : Settles laws tree key levels bounds₁ (laws.decode mid) bounds₂ ids₁
      (absorbed :: ids₂)
      stack current mid) {fuel : Nat} (enough : levels.length < fuel) (rootid : Nat) :
    Follows .noSeparator
      (fun tree' levels' => Settled laws tree tree' levels levels' (ids₁ ++ current :: ids₂)
        absorbed) (settle ops fuel tree stack rootid current (some absorbed) false mid)
      (Levels.settle ops.highKey size levels (laws.decode mid)) := by
  induction levels generalizing tree bounds₁ bounds₂ ids₁ ids₂ stack current absorbed mid rootid
    fuel with
  | nil => exact absurd settles.stacked.1 (by simp)
  | cons level above ih =>
    obtain ⟨rounds, rfl⟩ := Nat.exists_eq_add_one.mpr (by omega : 0 < fuel)
    rw [length_cons] at enough
    obtain ⟨before, node, after, rest, rfl, loses, leads, isRoot, round⟩ := settle_round settles
    obtain ⟨holds, aboveUpper⟩ := upper_cons.mp settles.upper
    obtain ⟨_, innerDistinct, _⟩ := nodup_append.mp settles.distinct
    obtain ⟨levelDistinct, _, apart⟩ := nodup_append.mp (innerIds_cons _ above ▸ innerDistinct)
    have heldRetired : (tree.retire absorbed).HoldsLevel laws (before ++ node :: after) := holds
    rw [Levels.settle, loses.found, round rounds rootid (some absorbed) false rfl, Option.getD_some]
    apply (removeFrom_merged loses heldRetired levelDistinct (loses.seps ▸ settles.ascending)
      absorbed).bind
    rintro ⟨next, merged, up, newMid⟩ removal removalEq ⟨newHolds, frame, nextEq, ascent⟩
    obtain ⟨newSeps, newKids, sepsEq, kidsEq, spec⟩ := remove_node loses.shape loses.located
      loses.seps loses.kids settles.sameLength settles.smaller loses.notSmaller removalEq
    simp only at newHolds frame nextEq ascent ⊢
    have rootEq : next.root = tree.root := by
      rw [nextEq]
      rfl
    have assemble : ∀ {above' tree' absorbedAbove}, Settled laws next tree' above above'
        (Level.ids (before ++ ⟨node.id, removal.node⟩ :: Levels.rightOf after removal.right))
        absorbedAbove →
        (reclaimed [absorbedAbove] ++ Level.ids (before ++ ⟨node.id, removal.node⟩ ::
          Levels.rightOf after removal.right)).Perm (Level.ids (before ++ node :: after)) →
        Settled laws tree tree' ((before ++ node :: after) :: above)
          ((before ++ ⟨node.id, removal.node⟩ :: Levels.rightOf after removal.right) :: above')
          (ids₁ ++ current :: ids₂) absorbed := by
      intro above' tree' absorbedAbove settled dropped
      refine settled.cons nextEq newHolds frame ?_ innerDistinct dropped
      rw [head_append_cons, head_append_cons]
    cases above with
    | nil =>
      obtain ⟨rfl, rfl⟩ := eq_nil_of_ids settles.root_eq
      obtain ⟨rootCell, stored, reads⟩ := newHolds _ mem_cons_self
      have here : node.id = next.root := (isRoot.mpr rfl).trans rootEq.symm
      have rightmost : removal.node.link = none := spec.shape.link_eq_none.mpr rfl
      simp only [if_pos here, isEmpty_nil, if_true, List.isEmpty_iff]
      by_cases empty : removal.node.seps = []
      · have kids : removal.node.kids = ids₁ ++ current :: ids₂ := by
          have newKidsEq := spec.kids_eq
          rw [kids_nil, nil_append] at kidsEq
          rw [kidsEq, ← newKidsEq]
          simp [Levels.rightOf]
        obtain ⟨rfl, rfl⟩ : ids₁ = [] ∧ ids₂ = [] := by
          have counted := (spec.shape.sound _ mem_cons_self).kids_length
          simp only [kids, empty, rightmost, length_append, length_cons, length_nil,
            Option.isSome_none, Bool.false_eq_true, if_false] at counted
          exact ⟨eq_nil_of_length_eq_zero (by omega), List.eq_nil_of_length_eq_zero (by omega)⟩
        obtain ⟨nodes, collapsed, others⟩ :=
          collapse_retires (here ▸ stored) reads rightmost empty kids
        have depth := settles.depth_pos
        have retiredEq : next.retired = tree.retired ++ [absorbed] := by
          rw [nextEq]
          rfl
        rw [if_pos empty]
        refine ⟨_, collapsed, fun _ listed => absurd listed not_mem_nil, ?_, rfl, ?_,
          nil_prefix, ?_, ?_, ?_⟩
        · intro ptr outside
          simp only [nil_append, innerIds_cons, ids_cons, ids_nil, innerIds_nil,
            append_nil, mem_singleton] at outside
          rw [← here] at others
          simp only [others ptr outside]
          exact frame ptr (by simpa using outside)
        · rw [nextEq]
          simp only [retire, length_cons, List.length_nil]
          omega
        · rw [nextEq]
          rfl
        · rw [nextEq]
          rfl
        · have proper : node.id ≠ nullptr := fun null => settles.proper (by simp [null])
          simp only [retiredEq, ← here, reclaimed_append, reclaimed_singleton proper]
          simp
      · rw [if_neg empty]
        refine ⟨next, collapse_stays (here ▸ stored) reads rightmost empty, ?_⟩
        refine assemble (.refl (fun _ listed => absurd listed not_mem_nil) ?_) (.refl _)
        rw [← here]
        rfl
    | cons upper higher =>
      have notRoot : node.id ≠ next.root := by
        rw [rootEq]
        exact fun here => absurd (isRoot.mp here) (by simp)
      simp only [if_neg notRoot, isEmpty_cons, Bool.false_eq_true, if_false]
      cases ascentEq : removal.ascent with
      | done =>
        rw [ascentEq] at ascent
        obtain ⟨rfl, rfl⟩ := ascent
        obtain ⟨more, rfl⟩ := Nat.exists_eq_add_one.mpr (by omega : 0 < rounds)
        refine ⟨next, rfl, assemble (.refl ?_ ?_) ?_⟩
        · exact aboveUpper.kept fun id listed => .inl
            (frame id fun here => apart id here id listed rfl)
        · rw [rootEq, ids_append, (spec.done ascentEq).2, ← ids_append]
          exact settles.root_eq
        · rw [ids_append, (spec.done ascentEq).2, ← ids_append]
          exact .refl _
      | merged sep =>
        obtain ⟨neighbour, others, rfl, _, high, _, changedIds⟩ := spec.merged sep ascentEq
        rw [ascentEq] at ascent
        obtain ⟨rfl, rfl, rfl⟩ := ascent
        have highListed : laws.decode newMid ∈ Level.seps
          (before ++ node :: neighbour :: others) := by
          apply (bounds_sublist _).subset
          simp [high]
        have boundsAscending : Ascending ops.highKey
            (Level.bounds (before ++ node :: neighbour :: others)) :=
          (loses.seps ▸ settles.ascending).sublist (bounds_sublist _)
        rw [bounds_append, bounds_cons, high] at boundsAscending
        have nextSettles := settles.next loses leads nextEq frame high
          (fun bound listed => (ascending_append.mp boundsAscending).2.2 bound listed _ (by simp))
          le_rfl (settles.validBounds _ (loses.seps ▸ highListed))
        have following := ih nextSettles (Nat.lt_of_succ_lt_succ enough) (rootid + 1)
        have newIds : Level.ids (before ++ ⟨node.id, removal.node⟩ ::
            Levels.rightOf (neighbour :: others) removal.right) =
            before.ids ++ node.id :: Level.ids others := by
          rw [ids_append, changedIds]
        have proper : neighbour.id ≠ nullptr := fun null => settles.proper (by simp [null])
        apply following.mono
        intro tree' above' settledEq settled
        refine assemble (newIds.symm ▸ settled) ?_
        rw [newIds, reclaimed_singleton proper]
        have moved : (neighbour.id :: ((before.ids ++ [node.id]) ++ Level.ids others)).Perm
            ((before.ids ++ [node.id]) ++ neighbour.id :: Level.ids others) := perm_middle.symm
        simpa using moved
      | renamed sep =>
        obtain ⟨replaced, high, lastEq, listed, changedBounds, changedIds⟩ :=
          spec.renamed sep ascentEq
        rw [ascentEq] at ascent
        obtain ⟨rfl, rfl, rfl⟩ := ascent
        have inNode : laws.decode newMid ∈ node.view.seps := mem_of_mem_dropLast listed
        have inLevel : laws.decode newMid ∈ Level.seps (before ++ node :: after) := by
          simp [inNode]
        have levelAscending : Ascending ops.highKey (Level.seps (before ++ node :: after)) :=
          loses.seps ▸ settles.ascending
        rw [seps_append, seps_cons] at levelAscending
        obtain ⟨_, restAscending, across⟩ := ascending_append.mp levelAscending
        have nextSettles := settles.next loses leads nextEq frame high
          (fun bound boundListed => across bound ((bounds_sublist before).subset boundListed)
            _ (mem_append_left _ inNode))
          ((ascending_append.mp restAscending).1.le_getLast lastEq _ inNode)
          (settles.validBounds _ (loses.seps ▸ inLevel))
        obtain ⟨tree', result', settled⟩ := settle_renamed nextSettles
          (Nat.lt_of_succ_lt_succ enough) (rootid + 1)
        have newIds : Level.ids (before ++ ⟨node.id, removal.node⟩ ::
            Levels.rightOf after removal.right) = before.ids ++ node.id :: Level.ids after := by
          rw [ids_append, changedIds, ids_cons]
        refine ⟨tree', result', assemble (newIds.symm ▸ settled) ?_⟩
        rw [newIds, reclaimed_nullptr]
        simp

end Settle

/-! ## `remove` -/

namespace Represents

variable {levels levels' : Levels K H V}

structure Left (laws : ops.Laws size) (tree : Tree leafSize K H V Mid Inner) (levels : Levels K H V)
    (result : Option (KVPair K V) × Tree leafSize K H V Mid Inner)
    (outcome : Option (KVPair K V) × Levels K H V) : Prop where
  answer : result.1 = outcome.1
  represents : result.2.Represents laws outcome.2
  account : (reclaimed result.2.retired ++ outcome.2.ids).Perm
    (reclaimed tree.retired ++ levels.ids)

variable {before after : Leaves K H V} {leaf : LeafCell K H V} {cell : LeafNode leafSize K H V}

theorem exists_neighbour (represents : tree.Represents laws levels)
    (split : levels.leaves = before ++ leaf :: after)
    (reads : cell.Represents ops.toKeyOps leaf.view) :
    ∃ right, (if cell.control.sibling then tree.leafAt cell.sibling else .ok cell) = .ok right ∧
      cell.Neighbour ops.toKeyOps right leaf.view (after.head?.map LeafCell.view) ∧
      ∀ next rest, after = next :: rest → cell.sibling = next.id := by
  have chain := represents.wellFormed.chain
  rw [split] at chain
  have link : leaf.view.link = after.head?.map LeafCell.id := by
    simpa using (linked_append.mp chain.linked).2.1
  have flag := reads.link
  rw [link] at flag
  cases after with
  | nil =>
    have alone : cell.control.sibling = false := by
      cases sibling : cell.control.sibling with
      | false => rfl
      | true => simp [sibling] at flag
    refine ⟨cell, by rw [alone]; rfl, ⟨fun _ => rfl, fun sibling => ?_⟩, nofun⟩
    exact absurd (alone.symm.trans sibling) nofun
  | cons next rest =>
    obtain ⟨sibling, nextEq⟩ : cell.control.sibling = true ∧ cell.sibling = next.id := by
      cases sibling : cell.control.sibling with
      | false => simp [sibling] at flag
      | true =>
        rw [sibling] at flag
        exact ⟨rfl, (Option.some.inj flag).symm⟩
    obtain ⟨right, loaded, _, rightReads⟩ := represents.leafAt_eq next (by simp [split])
    refine ⟨right, by rw [sibling, if_pos rfl, nextEq, loaded], ⟨?_, ?_⟩, ?_⟩
    · exact fun alone => absurd (sibling.symm.trans alone) nofun
    · intro _
      refine ⟨next.view, rfl, rightReads, ?_⟩
      have rising := chain.ascending_pairs
      simp only [Leaves.pairs_append, Leaves.pairs_cons] at rising
      have across := (ascending_append.mp (ascending_append.mp rising).2.1).2.2
      exact fun entry listed other otherListed => across entry listed other
        (mem_append_left _ otherListed)
    · rintro other others same
      cases same
      exact nextEq

/-- The tree that the loop of `remove` starts from. -/
def merged (ops : NodeOps K H Mid Inner) (tree : Tree leafSize K H V Mid Inner)
    (current sibling : Ptr)
    (left right : LeafNode leafSize K H V) (high : H) : Tree leafSize K H V Mid Inner :=
  { (tree.write current (.leaf left)).write sibling (.leaf right) with
    retiredKeys :=
      if ops.announces then tree.retiredKeys ++ [ops.midOf high] else tree.retiredKeys }

theorem remove_of_detached {path : Path} {right : LeafNode leafSize K H V}
    {detached : LeafNode.Detached leafSize K H V} (located : tree.locate ops key = .ok path)
    (loaded : tree.leafAt path.current = .ok cell)
    (rightEq : (if cell.control.sibling then tree.leafAt cell.sibling else .ok cell) = .ok right)
    (removed : cell.remove ops.toKeyOps right path.current key = .ok detached) :
    tree.remove ops key =
      match detached.merged with
      | none => .ok (detached.kv, tree.write path.current (.leaf detached.leaf))
      | some high =>
        (settle ops tree.fresh
          (merged ops tree path.current cell.sibling detached.leaf detached.right high) path.stack
          0 path.current (some cell.sibling) false (ops.midOf high)).map fun final =>
            (detached.kv, final) := by
  rw [Tree.remove, located]
  simp only [bind, Except.bind, loaded]
  split at rightEq
  · rename_i flag
    simp only [flag, if_true, rightEq, removed]
    cases detached.merged with
    | none => rfl
    | some high =>
      simp only [merged, Except.map]
      cases ops.announces <;> rfl
  · rename_i flag
    cases rightEq
    simp only [flag, removed]
    cases detached.merged with
    | none => rfl
    | some high =>
      simp only [merged, Except.map]
      cases ops.announces <;> rfl

theorem remove_stays {answer : Option (KVPair K V)} {entries : List (KVPair K V)}
    (represents : tree.Represents laws levels) (valid : laws.Valid key)
    (found : levels.leafOf ops.highKey key = some (before, leaf, after))
    (step : leaf.view.remove leafSize (after.head?.map LeafCell.view) key =
      (answer, { leaf.view with entries := entries }, none))
    (formed : (levels.withEntries before leaf after entries).WellFormed ops.highKey leafSize size)
    (within : (levels.withEntries before leaf after entries).Within laws.Valid ops.highKey) :
    ∃ result, tree.remove ops key = .ok result ∧
      Left laws tree levels result (answer, levels.withEntries before leaf after entries) := by
  obtain ⟨path, located, current, _⟩ := represents.locate_eq valid found
  have split := Levels.leafOf_eq_some found
  obtain ⟨cell, loaded, _, reads⟩ := represents.leafAt_eq leaf (by simp [split])
  obtain ⟨right, rightEq, neighbour, _⟩ := represents.exists_neighbour split reads
  obtain ⟨detached, removed, kv, leafReads, apart, _⟩ :=
    LeafNode.remove_spec path.current key reads neighbour
  rw [step] at kv leafReads apart
  refine ⟨(detached.kv, tree.write leaf.id (.leaf detached.leaf)), ?_, kv,
    represents.writeLeaf split leafReads formed within, ?_⟩
  · rw [remove_of_detached located (current ▸ loaded) rightEq removed, apart, current]
  · have sameIds : (levels.withEntries before leaf after entries).ids = levels.ids := by
      rw [Levels.ids, Levels.ids, split, Levels.withEntries]
      simp
    rw [sameIds]
    exact .refl _

theorem track_settled {start final : Tree leafSize K H V Mid Inner} {inner : List (Level H)}
    {leaves : Leaves K H V} {ids : List Ptr} {absorbed : Ptr}
    (represents : tree.Represents laws levels)
    (settled : Settled laws start final levels.inner inner ids absorbed)
    (sameTrack : start.rootTrack = tree.rootTrack)
    (sameHead : leaves.ids.headD nullptr = levels.leaves.ids.headD nullptr) :
    ∀ height head, (heads ⟨leaves, inner, levels.fresh⟩)[height]? = some head →
      final.rootTrack height = head := by
  intro height head here
  obtain ⟨rest, kept⟩ : heads ⟨leaves, inner, levels.fresh⟩ <+: heads levels := by
    rw [heads, heads, sameHead]
    exact cons_prefix_cons.mpr ⟨rfl, settled.heads_eq⟩
  rw [settled.track_eq, sameTrack]
  apply represents.track_eq height head
  obtain ⟨inside, _⟩ := List.getElem?_eq_some_iff.mp here
  rw [← kept, getElem?_append_left inside, here]

theorem settles_merged {right : LeafCell K H V} {path : Path} {high : H}
    (left rest : LeafNode leafSize K H V) (represents : tree.Represents laws levels)
    (split : levels.leaves = before ++ leaf :: right :: after) (highEq : leaf.view.high = some high)
    (leads : Leads ops.highKey key leaf.id levels.inner path.stack) :
    Settles laws (merged ops tree leaf.id right.id left rest high) key levels.inner before.bounds
      (laws.decode (ops.midOf high)) (right.view.high.toList ++ after.bounds) before.ids
      (right.id :: after.ids) path.stack leaf.id (ops.midOf high) := by
  have chain := represents.wellFormed.chain
  have stacked := represents.wellFormed.stacked
  have bounds := chain.ascending_bounds
  have valid := represents.within.bounds
  have distinct := represents.addressed.distinct
  have top := represents.root_eq
  have others := (represents.ne_leaf split).2
  have othersRight := (represents.ne_leaf (split.trans (append_cons before leaf _))).2
  rw [split] at chain stacked bounds valid top
  rw [Levels.ids, split] at distinct
  simp only [Leaves.bounds_append, Leaves.bounds_cons, Leaves.ids_append, Leaves.ids_cons, highEq,
    Option.toList_some, singleton_append] at stacked bounds valid distinct top
  rw [laws.decode_midOf]
  have proper : nullptr ∉ innerIds levels.inner := fun listed =>
    lt_irrefl _ (represents.addressed.allocated nullptr (mem_append_right _ listed)).1
  refine ⟨?_, stacked, chain.length_bounds_before.symm, bounds, ?_, ?_, ?_, valid, distinct, proper,
    top, leads, ?_, ?_⟩
  · apply represents.upper.kept
    intro id listed
    exact .inl ((nodes_write_of_ne (othersRight id listed)).trans
      (nodes_write_of_ne (others id listed)))
  · rw [laws.decode_midOf]
    exact fun bound listed => (ascending_append.mp bounds).2.2 bound listed high mem_cons_self
  · rw [laws.decode_midOf]
  · rw [laws.decode_midOf]
    exact valid high (by simp)
  · exact lt_of_le_of_lt (Nat.zero_le _) represents.length_lt_fresh
  · have depth := represents.depth_eq
    simp only [merged, write]
    omega

section

variable (represents : tree.Represents laws levels)
include represents

theorem of_settled {right : LeafCell K H V} {view : LeafView K H V}
    {left rest : LeafNode leafSize K H V} {high : H} {final : Tree leafSize K H V Mid Inner}
    {inner : List (Level H)} (split : levels.leaves = before ++ leaf :: right :: after)
    (reads : left.Represents ops.toKeyOps view)
    (settled : Settled laws (merged ops tree leaf.id right.id left rest high) final levels.inner
      inner (before.ids ++ leaf.id :: after.ids) right.id)
    (formed : Levels.WellFormed ops.highKey leafSize size
      ⟨before ++ ⟨leaf.id, view⟩ :: after, inner, levels.fresh⟩)
    (addressed : Levels.Addressed ⟨before ++ ⟨leaf.id, view⟩ :: after, inner, levels.fresh⟩)
    (within : Levels.Within laws.Valid ops.highKey
      ⟨before ++ ⟨leaf.id, view⟩ :: after, inner, levels.fresh⟩) :
    final.Represents laws ⟨before ++ ⟨leaf.id, view⟩ :: after, inner, levels.fresh⟩ := by
  have apart := (nodup_append.mp represents.addressed.distinct).2.2
  obtain ⟨others, _⟩ := represents.ne_leaf split
  obtain ⟨othersRight, _⟩ := represents.ne_leaf (split.trans (append_cons before leaf _))
  have depth := settled.depth_eq
  have oldDepth : (merged ops tree leaf.id right.id left rest high).treeDepth =
      levels.inner.length + 1 := represents.depth_eq
  have lower : inner.length ≤ levels.inner.length := by
    simpa using settled.heads_eq.length_le
  have kept : ∀ neighbour ∈ levels.leaves, final.nodes neighbour.id =
      (merged ops tree leaf.id right.id left rest high).nodes neighbour.id := fun neighbour
        listed =>
    settled.frame _ fun above => apart _ (mem_map_of_mem listed) _ above rfl
  refine ⟨formed, addressed, within, ?_, settled.upper, ?_, ?_, ?_,
    represents.track_settled settled rfl ?_, settled.fresh_eq.trans represents.fresh_eq⟩
  · have notRight : leaf.id ≠ right.id := othersRight leaf.id (by simp)
    have unchanged : ∀ neighbour ∈ before ++ after, ∃ cell,
        final.nodes neighbour.id = some (.leaf cell) ∧
          cell.Represents ops.toKeyOps neighbour.view := by
      intro neighbour listed
      have old : neighbour ∈ levels.leaves := by
        rw [split]
        rcases mem_append.mp listed with inBefore | inAfter
        · simp [inBefore]
        · simp [inAfter]
      have here : neighbour.id ∈ before.ids ++ after.ids := by
        rw [← Leaves.ids_append]
        exact mem_map_of_mem listed
      have notLeaf : neighbour.id ≠ leaf.id := others _ (by
        rcases mem_append.mp here with inBefore | inAfter
        · simp [inBefore]
        · simp [inAfter])
      have notAbsorbed : neighbour.id ≠ right.id := othersRight _ (by
        rcases mem_append.mp here with inBefore | inAfter
        · simp [inBefore]
        · simp [inAfter])
      rw [kept neighbour old, show (merged ops tree leaf.id right.id left rest high).nodes
        neighbour.id = tree.nodes neighbour.id from
          (nodes_write_of_ne notAbsorbed).trans (nodes_write_of_ne notLeaf)]
      exact represents.ground neighbour old
    intro other listed
    rcases mem_append.mp listed with inBefore | later
    · exact unchanged other (mem_append_left _ inBefore)
    · rcases mem_cons.mp later with rfl | inAfter
      · refine ⟨left, (kept leaf (by simp [split])).trans ?_, reads⟩
        exact (nodes_write_of_ne notRight).trans (nodes_write_self _ _ _)
      · exact unchanged other (mem_append_right _ inAfter)
  · simpa using settled.root_eq
  · simp only
    omega
  · exact lt_of_le_of_lt lower represents.depth_le
  · rw [split]
    cases before with
    | nil => rfl
    | cons first front => rfl

theorem account_settled {right : LeafCell K H V} {view : LeafView K H V}
    {left rest : LeafNode leafSize K H V} {high : H} {final : Tree leafSize K H V Mid Inner}
    {inner : List (Level H)} (split : levels.leaves = before ++ leaf :: right :: after)
    (settled : Settled laws (merged ops tree leaf.id right.id left rest high) final levels.inner
      inner (before.ids ++ leaf.id :: after.ids) right.id) :
    (reclaimed final.retired ++
      Levels.ids ⟨before ++ ⟨leaf.id, view⟩ :: after, inner, levels.fresh⟩).Perm
      (reclaimed tree.retired ++ levels.ids) := by
  have proper : right.id ≠ nullptr := by
    apply ne_of_gt
    exact (represents.addressed.allocated right.id (by simp [Levels.ids, split])).1
  have account : (reclaimed final.retired ++ innerIds inner).Perm
      (reclaimed (tree.retired ++ [right.id]) ++ innerIds levels.inner) := settled.account
  rw [reclaimed_append, reclaimed_singleton proper] at account
  rw [Levels.ids, Levels.ids, split]
  simp only [Leaves.ids_append, Leaves.ids_cons]
  rw [← Multiset.coe_eq_coe] at account ⊢
  simp only [← Multiset.coe_add, ← Multiset.cons_coe, ← Multiset.singleton_add, Multiset.coe_nil,
    add_zero] at account ⊢
  calc (reclaimed final.retired : Multiset Ptr) +
        (before.ids + ({leaf.id} + Leaves.ids after) + innerIds inner)
      = before.ids + ({leaf.id} + Leaves.ids after) +
        (reclaimed final.retired + innerIds inner) := by
        ac_rfl
    _ = before.ids + ({leaf.id} + Leaves.ids after) +
          (reclaimed tree.retired + {right.id} + innerIds levels.inner) := by rw [account]
    _ = reclaimed tree.retired +
          (before.ids + ({leaf.id} + ({right.id} + Leaves.ids after)) + innerIds levels.inner) := by
        ac_rfl

/-- `remove` is `Levels.remove`, and reads a separator that is not there when that has no
result. -/
theorem remove_eq (valid : laws.Valid key) :
    Follows .noSeparator (Left laws tree levels) (tree.remove ops key)
      (levels.remove ops.highKey leafSize size key) := by
  have formed : ∀ result, levels.remove ops.highKey leafSize size key = some result →
      result.2.WellFormed ops.highKey leafSize size ∧ result.2.Addressed ∧
        result.2.Within laws.Valid ops.highKey := fun result removed =>
    ⟨(represents.wellFormed.remove_spec removed).2.1, represents.addressed.remove removed,
      represents.within.remove represents.wellFormed removed⟩
  have way := represents.wellFormed.removes key
  generalize levels.remove ops.highKey leafSize size key = outcome at *
  cases way with
  | @absent before after leaf found unbound step =>
    have same : levels.withEntries before leaf after leaf.view.entries = levels := by
      rw [Levels.withEntries, ← Levels.leafOf_eq_some found]
    have stays := represents.remove_stays valid found step (same ▸ represents.wellFormed)
      (same ▸ represents.within)
    rwa [same] at stays
  | erased found bound filled step =>
    obtain ⟨kept, _, within⟩ := formed _ rfl
    exact represents.remove_stays valid found step kept within
  | @merged before after leaf right previous high found bound highEq small step =>
    obtain ⟨path, located, current, leads⟩ := represents.locate_eq valid found
    have split := Levels.leafOf_eq_some found
    obtain ⟨cell, loaded, _, reads⟩ := represents.leafAt_eq leaf (by simp [split])
    obtain ⟨next, nextEq, neighbour, sibling⟩ := represents.exists_neighbour split reads
    obtain ⟨detached, removed, kv, leafReads, absorbed, _⟩ :=
      LeafNode.remove_spec path.current key reads neighbour
    rw [head?_cons, Option.map_some, step] at kv leafReads absorbed
    rw [remove_of_detached located (current ▸ loaded) nextEq removed, absorbed, current,
      sibling right after rfl]
    have settles := settles_merged detached.leaf detached.right represents split highEq leads
    have following := settle_merged settles (Nat.lt_of_succ_lt represents.length_lt_fresh) 0
    rw [laws.decode_midOf] at following
    refine following.map fun final inner settledEq settled => ?_
    obtain ⟨kept, addressed, within⟩ :=
      formed _ (Option.map_eq_some_iff.mpr ⟨inner, settledEq, rfl⟩)
    refine Left.mk kv (represents.of_settled split leafReads settled kept addressed within) ?_
    exact represents.account_settled split settled

end

end Represents

end Tree

end IndexResearch.FBTree
