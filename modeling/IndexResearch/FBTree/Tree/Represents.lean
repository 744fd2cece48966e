import IndexResearch.FBTree.LeafNode.Removal
import IndexResearch.FBTree.Levels.Addresses
import IndexResearch.FBTree.Levels.Bindings
import IndexResearch.FBTree.Tree.Laws

/-!
# The tree in memory and its levels

Every node of the levels is found in memory under its address, and the other fields of
the tree agree with the levels.  A descent then visits, on every level, the node that
the key leads to.
-/

namespace IndexResearch.FBTree

open List

variable {leafSize size : NodeSize} {K H V Mid Inner : Type} [LinearOrder K]
  {ops : NodeOps K H Mid Inner}

structure NodeOps.Laws.Reads (laws : ops.Laws size) (cell : Inner) (view : NodeView H) : Prop where
  wellFormed : laws.WellFormed cell
  alive : (ops.control cell).deleted = false
  view_eq : laws.view cell = view

/-- A node and what may become of it while others are written: the number of split tokens
of a leaf may change. -/
def SameCell (old new : Option (Node leafSize K H V Inner)) : Prop :=
  new = old ∨ ∃ leaf tokens, old = some (.leaf leaf) ∧
    new = some (.leaf { leaf with control := { leaf.control with splitting := tokens } })

namespace SameCell

variable {first second third : Option (Node leafSize K H V Inner)}

omit [LinearOrder K] in
theorem trans (left : SameCell first second) (right : SameCell second third) :
    SameCell first third := by
  rcases left with rfl | ⟨leaf, tokens, rfl, rfl⟩
  · exact right
  · rcases right with rfl | ⟨other, others, same, rfl⟩
    · exact .inr ⟨leaf, tokens, rfl, rfl⟩
    · cases same
      exact .inr ⟨leaf, others, rfl, rfl⟩

omit [LinearOrder K] in
theorem inner {cell : Inner} (same : SameCell first second) (stored : first = some (.inner cell)) :
    second = some (.inner cell) := by
  rcases same with rfl | ⟨leaf, tokens, rfl, rfl⟩
  · exact stored
  · cases stored

theorem leaf {cell : LeafNode leafSize K H V} {view : LeafView K H V}
    (same : SameCell first second) (stored : first = some (.leaf cell))
    (reads : cell.Represents ops.toKeyOps view) :
    ∃ cell, second = some (.leaf cell) ∧ cell.Represents ops.toKeyOps view := by
  rcases same with rfl | ⟨leaf, tokens, rfl, rfl⟩
  · exact ⟨cell, stored, reads⟩
  · cases stored
    refine ⟨_, rfl, ⟨⟨⟨reads.holds.keeps.congr rfl rfl rfl, reads.holds.ascending⟩,
      reads.holds.ordered⟩, reads.link, reads.high, reads.deleted⟩⟩

end SameCell

def topIds : List Ptr → List (Level H) → List Ptr
  | ids, [] => ids
  | _, level :: above => topIds level.ids above

/-- The key leads to the nodes of the stack, from the parent of `child` to the top. -/
def Leads (keyOf : H → K) (key : K) : Ptr → List (Level H) → List Ptr → Prop
  | _, [], stack => stack = []
  | child, level :: above, stack => ∃ before node after rest, level = before ++ node :: after ∧
      stack = node.id :: rest ∧
      node.view.kids[rankIn keyOf node.view.seps key]? = some child ∧
      Leads keyOf key node.id above rest

namespace Tree

def Upper (laws : ops.Laws size) (tree : Tree leafSize K H V Mid Inner) (levels : List (Level H)) :
    Prop :=
  ∀ level ∈ levels, ∀ node ∈ level, ∃ cell, tree.nodes node.id = some (.inner cell) ∧
    laws.Reads cell node.view

def Ground (ops : NodeOps K H Mid Inner) (tree : Tree leafSize K H V Mid Inner)
    (leaves : Leaves K H V) : Prop :=
  ∀ leaf ∈ leaves, ∃ cell, tree.nodes leaf.id = some (.leaf cell) ∧
    cell.Represents ops.toKeyOps leaf.view

def heads (levels : Levels K H V) : List Ptr :=
  levels.leaves.ids.headD nullptr :: levels.inner.map fun level => level.ids.headD nullptr

structure Represents (laws : ops.Laws size) (tree : Tree leafSize K H V Mid Inner)
    (levels : Levels K H V) : Prop where
  wellFormed : levels.WellFormed ops.highKey leafSize size
  addressed : levels.Addressed
  within : levels.Within laws.Valid ops.highKey
  ground : tree.Ground ops levels.leaves
  upper : tree.Upper laws levels.inner
  root_eq : topIds levels.leaves.ids levels.inner = [tree.root]
  depth_eq : tree.treeDepth = levels.inner.length + 1
  depth_le : levels.inner.length < kMaxHeight
  track_eq : ∀ height head, (heads levels)[height]? = some head → tree.rootTrack height = head
  fresh_eq : tree.fresh = levels.fresh

variable {laws : ops.Laws size} {tree tree' : Tree leafSize K H V Mid Inner}

theorem Upper.kept {levels : List (Level H)} (upper : tree.Upper laws levels)
    (same : ∀ id ∈ innerIds levels, SameCell (tree.nodes id) (tree'.nodes id)) :
    tree'.Upper laws levels := by
  intro level levelListed node listed
  obtain ⟨cell, stored, reads⟩ := upper level levelListed node listed
  refine ⟨cell, (same node.id ?_).inner stored, reads⟩
  exact mem_flatMap.mpr ⟨level, levelListed, mem_map_of_mem listed⟩

theorem upper_cons {level : Level H} {above : List (Level H)} :
    tree.Upper laws (level :: above) ↔ (∀ node ∈ level, ∃ cell,
      tree.nodes node.id = some (.inner cell) ∧ laws.Reads cell node.view) ∧
      tree.Upper laws above :=
  forall_mem_cons

end Tree

/-! ## Descent -/

section Leads

variable {keyOf : H → K} {key : K} {bounds₁ bounds₂ : List H} {ids₁ ids₂ : List Ptr} {child : Ptr}
  {levels : List (Level H)}

theorem Stacked.leads (stacked : Stacked size (bounds₁ ++ bounds₂) (ids₁ ++ child :: ids₂) levels)
    (sameLength : ids₁.length = bounds₁.length) (rising : Ascending keyOf (bounds₁ ++ bounds₂))
    (smaller : ∀ bound ∈ bounds₁, keyOf bound < key)
    (notSmaller : ∀ bound ∈ bounds₂, ¬keyOf bound < key) :
    ∃ stack, Leads keyOf key child levels stack := by
  induction levels generalizing bounds₁ bounds₂ ids₁ ids₂ child with
  | nil => exact ⟨[], rfl⟩
  | cons level above ih =>
    obtain ⟨seps, kids, shape, _, aboveStacked⟩ := stacked
    obtain ⟨before, node, after, found⟩ := exists_nodeOf keyOf shape key
    have levelAscending : Ascending keyOf level.seps := seps ▸ rising
    obtain ⟨rfl, located⟩ := located_of_nodeOf shape levelAscending found
    obtain ⟨_, _, rest, childHere, _⟩ :=
      located.parent shape seps kids sameLength smaller notSmaller
    obtain ⟨_, passed, stop⟩ := focus_eq_some.mp found
    have boundsAscending := List.Pairwise.sublist (Level.bounds_sublist _) levelAscending
    simp only [Level.bounds_append, Level.bounds_cons, Level.ids_append, Level.ids_cons]
      at aboveStacked boundsAscending
    obtain ⟨stack, leads⟩ := ih aboveStacked shape.length_bounds_before.symm
      boundsAscending
      (fun bound listed => located.smaller bound
        (mem_append_left _ ((Level.bounds_sublist before).subset listed)))
      (by
        intro bound listed
        rcases mem_append.mp listed with own | later
        · have highEq : node.high = some bound := by simpa using own
          simpa [stopsAt, highEq] using stop
        · exact located.notSmaller bound
            (mem_append_right _ ((Level.bounds_sublist after).subset later)))
    refine ⟨node.id :: stack, before, node, after, stack, rfl, rfl, ?_, leads⟩
    rw [← head?_drop, childHere]
    rfl

theorem Leads.top {stack : List Ptr} {ids : List Ptr} {root : Ptr}
    (leads : Leads keyOf key child levels stack)
    (listed : child ∈ ids) (top : topIds ids levels = [root]) :
    (child :: stack).getLast? = some root := by
  induction levels generalizing child ids stack with
  | nil =>
    obtain rfl : stack = [] := leads
    obtain rfl : ids = [root] := top
    rw [mem_singleton.mp listed]
    rfl
  | cons level above ih =>
    obtain ⟨before, node, after, rest, rfl, rfl, _, aboveLeads⟩ := leads
    rw [getLast?_cons_cons]
    exact ih aboveLeads (by simp) top

theorem Stacked.length_le_innerIds {bounds : List H} {ids : List Ptr}
    (stacked : Stacked size bounds ids levels) : levels.length ≤ (innerIds levels).length := by
  induction levels generalizing bounds ids with
  | nil => exact Nat.le_refl 0
  | cons level above ih =>
    obtain ⟨_, _, shape, _, aboveStacked⟩ := stacked
    have here := length_pos_of_ne_nil shape.nonempty
    have there := ih aboveStacked
    rw [innerIds_cons, length_append, Level.ids, length_map, length_cons]
    omega

theorem Leads.length {stack : List Ptr} (leads : Leads keyOf key child levels stack) :
    stack.length = levels.length := by
  induction levels generalizing child stack with
  | nil =>
    obtain rfl : stack = [] := leads
    rfl
  | cons level above ih =>
    obtain ⟨before, node, after, rest, _, rfl, _, aboveLeads⟩ := leads
    rw [length_cons, length_cons, ih aboveLeads]

end Leads

namespace Tree

variable {laws : ops.Laws size} {tree tree' : Tree leafSize K H V Mid Inner} {key : K}

theorem descend_leads {levels : List (Level H)} {child root : Ptr} {stack : List Ptr}
    (upper : tree.Upper laws levels) (leads : Leads ops.highKey key child levels stack)
    (valid : laws.Valid key) (top : (child :: stack).getLast? = some root) (fuel : Nat)
    (above : List Ptr) (parent : Ptr) (version : Nat) :
    ∃ parent' version', (levels = [] → parent' = parent) ∧
      (levels ≠ [] → ∃ cell, tree.nodes parent' = some (.inner cell)) ∧
      tree.descend ops key (levels.length + fuel) ⟨above, parent, version, root⟩ =
        tree.descend ops key fuel ⟨stack ++ above, parent', version', child⟩ := by
  induction levels generalizing child stack fuel with
  | nil =>
    obtain rfl : stack = [] := leads
    obtain rfl : child = root := by simpa using top
    exact ⟨parent, version, fun _ => rfl, fun absurdity => absurd rfl absurdity, by simp⟩
  | cons level higher ih =>
    obtain ⟨before, node, after, rest, rfl, rfl, childHere, aboveLeads⟩ := leads
    rw [getLast?_cons_cons] at top
    obtain ⟨nodesUpper, higherUpper⟩ := upper_cons.mp upper
    obtain ⟨cell, stored, reads⟩ := nodesUpper node (by simp)
    obtain ⟨_, _, _, _, rounds⟩ := ih higherUpper aboveLeads top (fuel + 1)
    refine ⟨node.id, (ops.control cell).version, fun absurdity => (by cases absurdity),
      fun _ => ⟨cell, stored⟩, ?_⟩
    rw [length_cons, Nat.add_assoc, Nat.add_comm 1, rounds, descend]
    simp only [stored]
    rw [laws.toNext_spec cell key reads.wellFormed reads.alive valid, reads.view_eq]
    simp only [NodeView.toNext, childHere, ok_bind]
    rfl

namespace Represents

variable {levels : Levels K H V} {before after : Leaves K H V} {leaf : LeafCell K H V}

section

variable (represents : tree.Represents laws levels)
include represents

theorem length_ids_lt_fresh : levels.ids.length < tree.fresh := by
  have distinct := represents.addressed.distinct
  have range : levels.ids ⊆ List.range' 1 (levels.fresh - 1) := by
    intro id listed
    have bounds := represents.addressed.allocated id listed
    rw [mem_range'_1]
    unfold Ptr at *
    omega
  have counted := (subperm_of_subset distinct range).length_le
  have positive := represents.addressed.fresh_pos
  rw [length_range'] at counted
  rw [represents.fresh_eq]
  unfold Ptr at *
  omega

theorem length_lt_fresh : levels.inner.length + 1 < tree.fresh := by
  have counted := represents.length_ids_lt_fresh
  have inner := represents.wellFormed.stacked.length_le_innerIds
  have leaves := length_pos_of_ne_nil represents.wellFormed.chain.nonempty
  rw [Levels.ids, length_append, Leaves.ids, length_map] at counted
  unfold Ptr at *
  omega

theorem leads (found : levels.leafOf ops.highKey key = some (before, leaf, after)) :
    ∃ stack, Leads ops.highKey key leaf.id levels.inner stack ∧
      (leaf.id :: stack).getLast? = some tree.root := by
  obtain ⟨chain, stacked⟩ := represents.wellFormed
  have bounds := chain.ascending_bounds
  have top := represents.root_eq
  obtain ⟨split, located⟩ := chain.located found
  rw [split] at chain stacked bounds top
  simp only [Leaves.bounds_append, Leaves.bounds_cons, Leaves.ids_append, Leaves.ids_cons]
    at stacked bounds
  obtain ⟨stack, leads⟩ := stacked.leads chain.length_bounds_before.symm bounds
    (by
      intro bound listed
      obtain ⟨other, otherListed, highEq⟩ := mem_filterMap.mp listed
      exact located.passed other otherListed bound highEq)
    (by
      intro bound listed
      rcases mem_append.mp listed with own | later
      · exact not_lt_of_ge (located.stops bound (by simpa using own))
      · exact not_lt_of_gt (located.beyond bound later))
  exact ⟨stack, leads, leads.top (by simp) top⟩

theorem leafAt_eq (leaf : LeafCell K H V) (listed : leaf ∈ levels.leaves) :
    ∃ cell, tree.leafAt leaf.id = .ok cell ∧ tree.nodes leaf.id = some (.leaf cell) ∧
      cell.Represents ops.toKeyOps leaf.view := by
  obtain ⟨cell, stored, reads⟩ := represents.ground leaf listed
  refine ⟨cell, ?_, stored, reads⟩
  rw [leafAt, stored]

theorem moveRight_of_stops (listed : leaf ∈ levels.leaves)
    (stops : ∀ high, leaf.view.high = some high → key ≤ ops.highKey high) (changed : Bool) :
    tree.moveRight ops key changed tree.fresh leaf.id = .ok leaf.id := by
  obtain ⟨cell, loaded, _, reads⟩ := represents.leafAt_eq leaf listed
  have stays : cell.toSibling ops.toKeyOps key changed = .ok none := by
    have high := reads.high
    rw [LeafNode.toSibling, if_neg (by simp [reads.deleted])]
    cases sibling : cell.control.sibling with
    | false => simp
    | true =>
      rw [if_pos sibling] at high
      have stopsHere := not_lt_of_ge (stops _ high)
      simp [stopsHere]
  have positive := represents.length_lt_fresh
  obtain ⟨rounds, roundsEq⟩ : ∃ rounds, tree.fresh = rounds + 1 :=
    ⟨tree.fresh - 1, by unfold Ptr at *; omega⟩
  rw [roundsEq, moveRight, loaded]
  simp only [ok_bind, stays]
  rfl

theorem moveRight_eq
    (found : levels.leafOf ops.highKey key = some (before, leaf, after)) (changed : Bool) :
    tree.moveRight ops key changed tree.fresh leaf.id = .ok leaf.id := by
  obtain ⟨split, located⟩ := represents.wellFormed.chain.located found
  exact represents.moveRight_of_stops (by simp [split]) located.stops changed

theorem descend_eq (valid : laws.Valid key)
    (found : levels.leafOf ops.highKey key = some (before, leaf, after)) :
    ∃ path, tree.descend ops key tree.fresh ⟨[], tree.root, 0, tree.root⟩ = .ok path ∧
      path.current = leaf.id ∧ Leads ops.highKey key leaf.id levels.inner path.stack ∧
      ∃ version, tree.loadVersion ops path.parent = .ok version := by
  obtain ⟨stack, leads, top⟩ := represents.leads found
  have split := Levels.leafOf_eq_some found
  obtain ⟨cell, _, stored, _⟩ := represents.leafAt_eq leaf (by simp [split])
  have enough := represents.length_lt_fresh
  obtain ⟨fuel, fuelEq⟩ : ∃ fuel, tree.fresh = levels.inner.length + (fuel + 1) :=
    ⟨tree.fresh - levels.inner.length - 1, by unfold Ptr at *; omega⟩
  obtain ⟨parent, version, atRoot, inside, rounds⟩ :=
    descend_leads represents.upper leads valid top (fuel + 1) [] tree.root 0
  refine ⟨⟨stack, parent, version, leaf.id⟩, ?_, rfl, leads, ?_⟩
  · rw [fuelEq, rounds, descend]
    simp [stored]
  · rw [loadVersion]
    by_cases single : levels.inner = []
    · have leafIsRoot : leaf.id = tree.root := by
        have lengths := leads.length
        rw [single] at lengths
        obtain rfl := eq_nil_of_length_eq_zero lengths
        simpa using top
      rw [atRoot single, ← leafIsRoot, stored]
      exact ⟨_, rfl⟩
    · obtain ⟨other, otherStored⟩ := inside single
      rw [otherStored]
      exact ⟨_, rfl⟩

theorem locate_eq (valid : laws.Valid key)
    (found : levels.leafOf ops.highKey key = some (before, leaf, after)) :
    ∃ path, tree.locate ops key = .ok path ∧ path.current = leaf.id ∧
      Leads ops.highKey key leaf.id levels.inner path.stack := by
  obtain ⟨path, arrived, current, leads, version, versionEq⟩ := represents.descend_eq valid found
  refine ⟨{ path with current := leaf.id }, ?_, rfl, leads⟩
  rw [locate, arrived]
  simp only [ok_bind, versionEq, current, represents.moveRight_eq found]
  rfl

theorem lookup_eq (valid : laws.Valid key) :
    tree.lookup ops key = .ok (levels.lookup ops.highKey key) := by
  obtain ⟨before, leaf, after, found⟩ := represents.wellFormed.chain.exists_leafOf key
  obtain ⟨path, located, current, _⟩ := represents.locate_eq valid found
  have split := Levels.leafOf_eq_some found
  obtain ⟨cell, loaded, _, reads⟩ := represents.leafAt_eq leaf (by simp [split])
  rw [lookup, located, Levels.lookup, Levels.leafOf, found]
  simp only [ok_bind, current, loaded, reads.holds.toStored.lookup_eq]
  rfl

theorem ne_leaf (split : levels.leaves = before ++ leaf :: after) :
    (∀ id ∈ before.ids ++ after.ids, id ≠ leaf.id) ∧
      ∀ id ∈ innerIds levels.inner, id ≠ leaf.id := by
  have distinct := represents.addressed.distinct
  rw [Levels.ids, split, Leaves.ids_append, Leaves.ids_cons, append_assoc, cons_append,
    nodup_middle, nodup_cons] at distinct
  have absent := distinct.1
  simp only [mem_append, not_or] at absent
  refine ⟨?_, ?_⟩
  · rintro id listed rfl
    rcases mem_append.mp listed with left | right
    · exact absent.1 left
    · exact absent.2.1 right
  · rintro id listed rfl
    exact absent.2.2 listed

theorem writeLeaf {view : LeafView K H V} {cell : LeafNode leafSize K H V}
    (split : levels.leaves = before ++ leaf :: after) (reads : cell.Represents ops.toKeyOps view)
    (formed : Levels.WellFormed ops.highKey leafSize size
      { levels with leaves := before ++ ⟨leaf.id, view⟩ :: after })
    (within : Levels.Within laws.Valid ops.highKey
      { levels with leaves := before ++ ⟨leaf.id, view⟩ :: after }) :
    (tree.write leaf.id (.leaf cell)).Represents laws
      { levels with leaves := before ++ ⟨leaf.id, view⟩ :: after } := by
  obtain ⟨otherLeaves, otherNodes⟩ := represents.ne_leaf split
  have sameIds : Leaves.ids (before ++ (⟨leaf.id, view⟩ : LeafCell K H V) :: after) =
      levels.leaves.ids := by simp [split]
  refine ⟨formed, ?_, within, ?_, ?_, ?_, represents.depth_eq, represents.depth_le, ?_,
    represents.fresh_eq⟩
  · refine represents.addressed.shrink ?_ rfl
    rw [Levels.ids, Levels.ids, sameIds]
  · intro other listed
    rcases mem_append.mp listed with inBefore | rest
    · have old := represents.ground other (by simp [split, inBefore])
      rwa [nodes_write_of_ne (otherLeaves other.id
        (mem_append_left _ (mem_map_of_mem inBefore)))]
    · rcases mem_cons.mp rest with rfl | inAfter
      · exact ⟨cell, nodes_write_self _ _ _, reads⟩
      · have old := represents.ground other (by simp [split, inAfter])
        rwa [nodes_write_of_ne (otherLeaves other.id
          (mem_append_right _ (mem_map_of_mem inAfter)))]
  · exact represents.upper.kept fun id listed => .inl (nodes_write_of_ne (otherNodes id listed))
  · rw [sameIds]
    exact represents.root_eq
  · have sameHeads : heads { levels with leaves := before ++ ⟨leaf.id, view⟩ :: after } =
        heads levels := by rw [heads, sameIds, heads]
    rw [sameHeads]
    exact represents.track_eq

theorem update_eq {kv : KVPair K V} (valid : laws.Valid kv.key) :
    ∃ tree', tree.update ops kv = .ok ((levels.update ops.highKey kv).1, tree') ∧
      tree'.Represents laws (levels.update ops.highKey kv).2 := by
  obtain ⟨before, leaf, after, found⟩ := represents.wellFormed.chain.exists_leafOf kv.key
  obtain ⟨path, located, current, _⟩ := represents.locate_eq valid found
  have split := Levels.leafOf_eq_some found
  obtain ⟨cell, loaded, _, reads⟩ := represents.leafAt_eq leaf (by simp [split])
  obtain ⟨old, holds, control, highKey, sibling⟩ := reads.holds.update kv
  have formed := (represents.wellFormed.update_spec kv).2.1
  have within := represents.within.update represents.wellFormed kv
  rw [Levels.update, Levels.leafOf, found] at formed within ⊢
  refine ⟨tree.write leaf.id (.leaf (cell.update ops.toKeyOps kv).2), ?_,
    represents.writeLeaf split ⟨holds, ?_, ?_, ?_⟩ formed within⟩
  · rw [update, located]
    simp only [ok_bind, current, loaded, ← old]
    rfl
  · rw [control, sibling]
    exact reads.link
  · rw [control, highKey]
    exact reads.high
  · rw [control]
    exact reads.deleted

end

end Represents

end Tree

end IndexResearch.FBTree
