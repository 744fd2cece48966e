import IndexResearch.FBTree.Run
import IndexResearch.FBTree.Tree.Walk

/-!
# Who holds the memory

Every node that is made stays in the tree until it is handed to `retire`, and it is handed
over once.  In the string tree a high key is a block of memory of its own, and inner nodes
point to it.  It belongs to one leaf, and a removal that merges two leaves hands the high key
between them to `retire`.
-/

namespace IndexResearch.FBTree

open List

variable {leafSize size : NodeSize} {K H V Mid Inner : Type}

namespace Tree

/-! ## What the loops leave alone -/

/-- Nodes are stored anew only at addresses that were handed out meanwhile, and no high key
is given to `retire`. -/
structure Framed (tree final : Tree leafSize K H V Mid Inner) : Prop where
  retiredKeys_eq : final.retiredKeys = tree.retiredKeys
  fresh_le : tree.fresh ≤ final.fresh
  stored_iff : ∀ ptr, (final.nodes ptr).isSome ↔
    (tree.nodes ptr).isSome ∨ (tree.fresh ≤ ptr ∧ ptr < final.fresh)

section Frame

variable {ops : NodeOps K H Mid Inner} {memory : Memory leafSize K H V Inner}
  {tree middle final : Tree leafSize K H V Mid Inner}

theorem stored_write_iff {ptr : Ptr} (stored : (tree.nodes ptr).isSome)
    (node : Node leafSize K H V Inner) (other : Ptr) :
    ((tree.write ptr node).nodes other).isSome ↔ (tree.nodes other).isSome := by
  by_cases here : other = ptr
  · subst here
    simp [stored]
  · rw [nodes_write_of_ne here]

namespace Framed

theorem of_stored (sameKeys : final.retiredKeys = tree.retiredKeys)
    (sameFresh : final.fresh = tree.fresh)
    (same : ∀ ptr, (final.nodes ptr).isSome ↔ (tree.nodes ptr).isSome) : Framed tree final := by
  refine ⟨sameKeys, le_of_eq sameFresh.symm, fun ptr => ?_⟩
  rw [same, sameFresh]
  exact ⟨.inl, fun either => either.resolve_right fun both => not_lt.mpr both.1 both.2⟩

theorem refl (tree : Tree leafSize K H V Mid Inner) : Framed tree tree :=
  of_stored rfl rfl fun _ => Iff.rfl

theorem trans (first : Framed tree middle) (second : Framed middle final) : Framed tree final := by
  refine ⟨second.retiredKeys_eq.trans first.retiredKeys_eq, first.fresh_le.trans second.fresh_le,
    ?_⟩
  intro ptr
  have before := first.fresh_le
  have after := second.fresh_le
  rw [second.stored_iff, first.stored_iff]
  unfold Ptr at *
  by_cases stored : (tree.nodes ptr).isSome = true
  · simp [stored]
  · simp only [stored, Bool.false_eq_true, false_or]
    omega

theorem write {ptr : Ptr} (stored : (tree.nodes ptr).isSome) (node : Node leafSize K H V Inner) :
    Framed tree (tree.write ptr node) :=
  of_stored rfl rfl (stored_write_iff stored node)

theorem place (tree : Tree leafSize K H V Mid Inner) (node : Node leafSize K H V Inner) :
    Framed tree { tree.write tree.fresh node with fresh := tree.fresh + 1 } := by
  refine ⟨rfl, Nat.le_succ _, fun ptr => ?_⟩
  by_cases here : ptr = tree.fresh
  · subst here
    simp
  · have other : ({ tree.write tree.fresh node with fresh := tree.fresh + 1 } :
        Tree leafSize K H V Mid Inner).nodes ptr = tree.nodes ptr := nodes_write_of_ne here
    rw [other]
    unfold Ptr at *
    by_cases stored : (tree.nodes ptr).isSome = true
    · simp [stored]
    · simp only [stored, Bool.false_eq_true, false_or, false_iff]
      omega

end Framed

theorem isSome_of_innerAt {ptr : Ptr} {node : Inner} (loaded : tree.innerAt ptr = .ok node) :
    (tree.nodes ptr).isSome := by
  rw [innerAt] at loaded
  split at loaded
  · rename_i stored
    rw [stored]
    rfl
  · cases loaded

theorem isSome_of_leafAt {ptr : Ptr} {leaf : LeafNode leafSize K H V}
    (loaded : tree.leafAt ptr = .ok leaf) : (tree.nodes ptr).isSome := by
  rw [leafAt] at loaded
  split at loaded
  · rename_i stored
    rw [stored]
    rfl
  · cases loaded

variable {rootid : Nat} {current : Ptr}

theorem framed_above {stack rest : List Ptr} {work : Ptr}
    (result : tree.above ops memory stack rootid current = .ok (final, work, rest)) :
    Framed tree final := by
  unfold above at result
  split at result
  · split at result
    · cases result
      have placed := Framed.place tree (.inner (ops.new (memory.inner tree.fresh)))
      exact ⟨placed.retiredKeys_eq, placed.fresh_le, placed.stored_iff⟩
    · cases result
  · split at result
    · cases result
      exact .refl tree
    · obtain ⟨tracked, _, returns⟩ := bind_eq_ok.mp result
      split at returns
      · cases returns
      · cases returns
        exact .refl tree

theorem framed_endSplitting
    (result : tree.endSplitting ops rootid current = .ok final) : Framed tree final := by
  rw [endSplitting] at result
  split at result
  · obtain ⟨leaf, loaded, returns⟩ := bind_eq_ok.mp result
    cases returns
    exact .write (isSome_of_leafAt loaded) _
  · cases result
    exact .refl tree

theorem framed_ascend {fuel : Nat} {stack : List Ptr} {rnode : Ptr}
    {mid : Mid} (result : ascend ops memory fuel tree stack rootid current rnode mid = .ok final) :
    Framed tree final := by
  induction fuel generalizing tree stack rootid current rnode mid with
  | zero => cases result
  | succ fuel ih =>
    rw [ascend] at result
    obtain ⟨⟨raised, work, rest⟩, raises, result⟩ := bind_eq_ok.mp result
    obtain ⟨⟨place, pos⟩, _, result⟩ := bind_eq_ok.mp result
    obtain ⟨node, loaded, result⟩ := bind_eq_ok.mp result
    obtain ⟨⟨left, right, above⟩, _, result⟩ := bind_eq_ok.mp result
    obtain ⟨settled, settles, result⟩ := bind_eq_ok.mp result
    have here : Framed tree settled := (framed_above raises).trans
      ((Framed.write (isSome_of_innerAt loaded) (.inner left)).trans (framed_endSplitting settles))
    cases right with
    | none =>
      cases result
      exact here
    | some right => exact here.trans ((Framed.place settled (.inner right)).trans (ih result))

theorem framed_removeFrom {merged absorbed : Option Ptr} {work : Ptr} {mid above : Mid}
    {pos : Nat} {up : Bool}
    (result : tree.removeFrom ops merged work mid pos = .ok (final, absorbed, up, above)) :
    Framed tree final := by
  rw [removeFrom] at result
  obtain ⟨node, loaded, result⟩ := bind_eq_ok.mp result
  cases merged with
  | none =>
    obtain ⟨⟨updated, changed⟩, _, returns⟩ := bind_eq_ok.mp result
    cases returns
    exact .write (isSome_of_innerAt loaded) _
  | some absorbs =>
    dsimp only at result
    split at result
    · obtain ⟨right, rightLoaded, result⟩ := bind_eq_ok.mp result
      obtain ⟨removed, _, returns⟩ := bind_eq_ok.mp result
      cases returns
      have written := Framed.write (isSome_of_innerAt loaded) (.inner removed.node)
      refine written.trans (.write ?_ _)
      exact (written.stored_iff _).mpr (.inl (isSome_of_innerAt rightLoaded))
    · obtain ⟨removed, _, returns⟩ := bind_eq_ok.mp result
      cases returns
      exact .write (isSome_of_innerAt loaded) _

theorem framed_collapse (result : tree.collapse ops current = .ok final) : Framed tree final := by
  rw [collapse] at result
  obtain ⟨node, loaded, result⟩ := bind_eq_ok.mp result
  split at result
  · rename_i collapsed _ _
    split at result
    · cases result
      have written := Framed.write (isSome_of_innerAt loaded) (.inner collapsed)
      exact ⟨written.retiredKeys_eq, written.fresh_le, written.stored_iff⟩
    · cases result
  · cases result
    exact .refl tree

theorem framed_settle {fuel : Nat} {stack : List Ptr} {merged : Option Ptr} {up : Bool} {mid : Mid}
    (result : settle ops fuel tree stack rootid current merged up mid = .ok final) :
    Framed tree final := by
  induction fuel generalizing tree stack rootid current merged up mid with
  | zero => cases result
  | succ fuel ih =>
    rw [settle] at result
    split at result
    · obtain rfl := Except.ok.inj result
      exact .refl tree
    · obtain ⟨⟨work, rest⟩, _, result⟩ := bind_eq_ok.mp result
      obtain ⟨⟨place, pos⟩, _, result⟩ := bind_eq_ok.mp result
      obtain ⟨⟨removed, absorbed, changed, above⟩, removes, result⟩ := bind_eq_ok.mp result
      have retires : Framed tree (tree.retire (merged.getD nullptr)) :=
        .of_stored rfl rfl fun _ => Iff.rfl
      have here : Framed tree removed := retires.trans (framed_removeFrom removes)
      dsimp only at result
      split at result
      · exact here.trans (framed_collapse result)
      · exact here.trans (ih result)

variable [LinearOrder K]

theorem stored_upsert {kv : KVPair K V} {old : Option (KVPair K V)}
    (result : tree.upsert ops memory kv = .ok (old, final)) :
    final.retiredKeys = tree.retiredKeys ∧ ∀ ptr, (final.nodes ptr).isSome ↔
      (tree.nodes ptr).isSome ∨ ptr < final.fresh ∧ (ptr = tree.fresh ∨ tree.fresh + 2 ≤ ptr) := by
  rw [upsert] at result
  obtain ⟨path, _, result⟩ := bind_eq_ok.mp result
  obtain ⟨leaf, loaded, result⟩ := bind_eq_ok.mp result
  obtain ⟨upserted, _, result⟩ := bind_eq_ok.mp result
  dsimp only at result
  have written := stored_write_iff (isSome_of_leafAt loaded) (.leaf upserted.leaf)
  unfold Ptr at *
  split at result
  · cases result
    refine ⟨rfl, fun ptr => ?_⟩
    rw [written]
    refine (or_iff_left ?_).symm
    simp only [Tree.write]
    omega
  · rename_i right _
    obtain ⟨grown, grows, returns⟩ := bind_eq_ok.mp result
    obtain ⟨_, rfl⟩ := Prod.mk.inj (Except.ok.inj returns)
    have framed := framed_ascend grows
    have longer : tree.fresh + 2 ≤ grown.fresh := framed.fresh_le
    refine ⟨framed.retiredKeys_eq, fun ptr => ?_⟩
    rw [framed.stored_iff]
    dsimp only
    by_cases here : ptr = tree.fresh
    · subst here
      have inside : tree.fresh < grown.fresh :=
        Nat.lt_of_lt_of_le (Nat.lt_add_of_pos_right (by decide)) longer
      simp [inside]
    · rw [nodes_write_of_ne here, written]
      simp only [here, false_or]
      tauto

theorem framed_update {kv : KVPair K V} {old : Option (KVPair K V)}
    (result : tree.update ops kv = .ok (old, final)) : Framed tree final := by
  rw [update] at result
  obtain ⟨path, _, result⟩ := bind_eq_ok.mp result
  obtain ⟨leaf, loaded, returns⟩ := bind_eq_ok.mp result
  cases returns
  exact .write (isSome_of_leafAt loaded) _

end Frame

end Tree

/-! ## High keys of the levels -/

theorem Stacked.seps_subset {bounds : List H} {ids : List Ptr}
    {inner : List (Level H)} (stacked : Stacked size bounds ids inner) {level : Level H}
    (listed : level ∈ inner) : level.seps ⊆ bounds := by
  induction inner generalizing bounds ids with
  | nil => exact absurd listed not_mem_nil
  | cons first above ih =>
    obtain ⟨seps, _, _, _, aboveStacked⟩ := stacked
    rcases mem_cons.mp listed with rfl | higher
    · exact seps ▸ List.Subset.refl _
    · intro sep sepListed
      obtain ⟨node, nodeListed, high⟩ :=
        mem_filterMap.mp (ih aboveStacked higher sepListed)
      rw [← seps]
      refine mem_flatMap.mpr ⟨node, nodeListed, ?_⟩
      rw [LevelNode.high] at high
      split at high
      · exact mem_of_getLast? high
      · cases high

variable [LinearOrder K]

theorem Levels.WellFormed.upsert_bounds {levels : Levels K H V} {keyOps : KeyOps K H}
    (formed : levels.WellFormed keyOps.highKey leafSize size) (kv : KVPair K V) :
    ((levels.upsert keyOps leafSize size kv).2.leaves.bounds = levels.leaves.bounds ∧
      (levels.upsert keyOps leafSize size kv).2.fresh = levels.fresh) ∨
    ∃ middle, (levels.upsert keyOps leafSize size kv).2.leaves.bounds.Perm
        (keyOps.makeHigh (levels.fresh + 1) middle :: levels.leaves.bounds) ∧
      levels.fresh + 1 < (levels.upsert keyOps leafSize size kv).2.fresh := by
  have way := formed.upserts kv
  generalize levels.upsert keyOps leafSize size kv = outcome at way ⊢
  cases way with
  | replaced found _ _ =>
    refine .inl ⟨?_, rfl⟩
    rw [leafOf_eq_some found, withEntries]
    simp
  | placed found _ _ _ =>
    refine .inl ⟨?_, rfl⟩
    rw [leafOf_eq_some found, withEntries]
    simp
  | @split before after leaf left rest middle found _ _ _ =>
    refine .inr ⟨middle, ?_, ?_⟩
    · rw [leafOf_eq_some found]
      simp only [Leaves.bounds_append, Leaves.bounds_cons, Option.toList_some, singleton_append]
      exact perm_middle
    · obtain ⟨count, last, _⟩ := @climb_ids K H _ keyOps.highKey size levels.inner
        (levels.fresh + 2) leaf.id levels.fresh (keyOps.makeHigh (levels.fresh + 1) middle)
      refine lt_of_lt_of_eq ?_ last.symm
      unfold Ptr
      omega

theorem Levels.update_bounds (keyOf : H → K) (levels : Levels K H V) (kv : KVPair K V) :
    (levels.update keyOf kv).2.leaves.bounds = levels.leaves.bounds ∧
      (levels.update keyOf kv).2.fresh = levels.fresh := by
  rw [Levels.update]
  rcases found : levels.leafOf keyOf kv.key with _ | ⟨before, leaf, after⟩
  · exact ⟨rfl, rfl⟩
  · refine ⟨?_, rfl⟩
    rw [leafOf_eq_some found]
    simp

theorem Levels.WellFormed.remove_bounds {levels : Levels K H V} {keyOf : H → K} {key : K}
    {before after : Leaves K H V} {leaf : LeafCell K H V}
    {outcome : Option (KVPair K V) × Levels K H V} (formed : levels.WellFormed keyOf leafSize size)
    (found : levels.leafOf keyOf key = some (before, leaf, after))
    (removed : levels.remove keyOf leafSize size key = some outcome) :
    levels.leaves.bounds.Perm (outcome.2.leaves.bounds ++
      (leaf.view.remove leafSize (after.head?.map LeafCell.view) key).2.2.toList) := by
  have way := formed.removes key
  generalize levels.remove keyOf leafSize size key = result at way removed
  cases way with
  | absent here _ step =>
    cases removed
    cases found.symm.trans here
    rw [step]
    simp
  | erased here _ _ step =>
    cases removed
    cases found.symm.trans here
    rw [step, leafOf_eq_some found, withEntries]
    simp
  | @merged before' after' leaf' right previous high here _ highEq _ step =>
    obtain ⟨inner, _, rfl⟩ := Option.map_eq_some_iff.mp removed
    cases found.symm.trans here
    rw [leafOf_eq_some found, head?_cons, Option.map_some, step]
    simp only [Leaves.bounds_append, Leaves.bounds_cons, highEq, Option.toList_some,
      singleton_append]
    exact perm_middle.trans (perm_append_singleton _ _).symm

namespace Tree

/-! ## Nodes -/

/-- Every node that is stored is one that the root leads to or was handed to `retire`, but
not both, and was handed over once. -/
structure Accounts (reading : NodeReading K H Mid Inner) (tree : Tree leafSize K H V Mid Inner) :
    Prop where
  stored_iff : ∀ ptr, (tree.nodes ptr).isSome ↔
    (∃ height, tree.AtHeight reading height ptr) ∨ ptr ∈ reclaimed tree.retired
  apart : ∀ height ptr, tree.AtHeight reading height ptr → ptr ∉ tree.retired
  once : (reclaimed tree.retired).Nodup

variable {ops : NodeOps K H Mid Inner} {laws : ops.Laws size}
  {memory : Memory leafSize K H V Inner} {tree final : Tree leafSize K H V Mid Inner}
  {levels : Levels K H V}

theorem Represents.remove_frames (represents : tree.Represents laws levels) {key : K}
    {before after : Leaves K H V} {leaf : LeafCell K H V} {kv : Option (KVPair K V)}
    (valid : laws.Valid key) (found : levels.leafOf ops.highKey key = some (before, leaf, after))
    (result : tree.remove ops key = .ok (kv, final)) :
    ∃ written, Framed written final ∧ written.fresh = tree.fresh ∧
      (∀ ptr, (written.nodes ptr).isSome ↔ (tree.nodes ptr).isSome) ∧
      (ops.announces = true → written.retiredKeys = tree.retiredKeys ++
        (leaf.view.remove leafSize (after.head?.map LeafCell.view) key).2.2.toList.map
        ops.midOf) := by
  obtain ⟨path, located, current, _⟩ := represents.locate_eq valid found
  have split := Levels.leafOf_eq_some found
  obtain ⟨cell, loaded, _, reads⟩ := represents.leafAt_eq leaf (by simp [split])
  obtain ⟨right, rightEq, neighbour, next⟩ := represents.exists_neighbour split reads
  obtain ⟨detached, removed, _, _, merges, _⟩ :=
    LeafNode.remove_spec path.current key reads neighbour
  rw [← current] at loaded
  rw [remove_of_detached located loaded rightEq removed] at result
  have stored := isSome_of_leafAt loaded
  rw [← merges]
  cases merged : detached.merged with
  | none =>
    rw [merged] at result
    cases result
    refine ⟨_, .refl _, rfl, stored_write_iff stored _, fun _ => (append_nil _).symm⟩
  | some high =>
    rw [merged] at result merges
    obtain ⟨settled, settles, returns⟩ := map_eq_ok.mp result
    cases returns
    refine ⟨_, framed_settle settles, rfl, ?_, fun announces => ?_⟩
    · obtain ⟨other, rest, rfl⟩ : ∃ other rest, after = other :: rest := by
        cases after with
        | nil =>
          rw [LeafView.remove] at merges
          split at merges
          · cases merges
          · cases merges
        | cons other rest => exact ⟨other, rest, rfl⟩
      obtain ⟨_, otherLoaded, _⟩ := represents.leafAt_eq other (by simp [split])
      rw [← next other rest rfl] at otherLoaded
      intro ptr
      refine (stored_write_iff ?_ _ ptr).trans (stored_write_iff stored _ ptr)
      exact (stored_write_iff stored _ _).mpr (isSome_of_leafAt otherLoaded)
    · rw [Represents.merged, if_pos announces]
      rfl

/-- Every node is in use or was given to `retire`. -/
def Complete (tree : Tree leafSize K H V Mid Inner) (levels : Levels K H V) : Prop :=
  ∀ ptr, (tree.nodes ptr).isSome ↔ ptr ∈ reclaimed tree.retired ++ levels.ids

omit [LinearOrder K] in
theorem complete_empty (ops : NodeOps K H Mid Inner) (memory : Memory leafSize K H V Inner) :
    (Tree.empty ops memory).Complete .empty := by
  intro ptr
  simp [empty, Levels.empty, Levels.ids, Leaves.ids, Function.update_apply, reclaimed]

theorem Complete.call (complete : tree.Complete levels) (keeps : tree.Keeps laws levels)
    {operation : Operation K V} (valid : laws.Valid operation.key)
    {result : Option (KVPair K V) × Tree leafSize K H V Mid Inner}
    {outcome : Option (KVPair K V) × Levels K H V}
    (called : tree.call ops memory operation = .ok result)
    (levelsCalled : levels.call ops.toKeyOps leafSize size operation = .ok outcome) :
    result.2.Complete outcome.2 := by
  have represents := keeps.represents
  have none : ∀ {fresh fresh' ptr : Ptr}, fresh' = fresh → ¬(fresh ≤ ptr ∧ ptr < fresh') :=
    fun same both => not_lt.mpr both.1 (same ▸ both.2)
  intro ptr
  cases operation with
  | upsert kv =>
    have following := represents.upsert_follows memory valid
    rw [Levels.call] at levelsCalled
    split at levelsCalled
    · rename_i low
      cases levelsCalled
      rw [if_pos low] at following
      obtain ⟨_, upserted, entered⟩ := following
      cases called.symm.trans upserted
      rw [(stored_upsert upserted).2, complete ptr, entered.retired, represents.fresh_eq,
        entered.represents.fresh_eq]
      rcases (Levels.upsert_ids levels kv : (levels.upsert ops.toKeyOps leafSize size kv).2.ids =
        _ ∧ _ ∨ _) with ⟨same, sameFresh⟩ | ⟨count, perm, taken⟩
      · rw [same, sameFresh]
        refine or_iff_left ?_
        unfold Ptr at *
        omega
      · rw [mem_append, mem_append, perm.mem_iff, mem_append, mem_cons,
          mem_range'_1, taken, or_assoc]
        unfold Ptr at *
        refine or_congr_right (or_congr_right ?_)
        omega
    · cases levelsCalled
  | update kv =>
    obtain ⟨updated, resultEq, kept⟩ := represents.update_eq valid
    cases levelsCalled
    cases called.symm.trans resultEq
    obtain ⟨sameIds, sameFresh⟩ :=
      (Levels.update_ids levels kv : (levels.update ops.highKey kv).2.ids = _ ∧ _)
    have fresh : updated.fresh = tree.fresh := by
      rw [kept.fresh_eq, sameFresh, represents.fresh_eq]
    rw [(framed_update resultEq).stored_iff, or_iff_left (none fresh), complete ptr, sameIds,
      Keeps.retired_update resultEq]
  | lookup key =>
    cases levelsCalled
    obtain ⟨answer, _, rfl⟩ := map_eq_ok.mp called
    exact complete ptr
  | remove key =>
    have following : Follows .noSeparator (Represents.Left laws tree levels) (tree.remove ops key)
        (levels.remove ops.highKey leafSize size key) := represents.remove_eq valid
    obtain ⟨before, leaf, after, found⟩ := represents.wellFormed.chain.exists_leafOf key
    rw [Levels.call] at levelsCalled
    cases removed : levels.remove ops.highKey leafSize size key with
    | none =>
      rw [removed] at levelsCalled
      cases levelsCalled
    | some outcome =>
      rw [removed] at levelsCalled following
      cases levelsCalled
      obtain ⟨⟨kv, final⟩, resultEq, left⟩ := following
      cases called.symm.trans resultEq
      obtain ⟨written, framed, sameFresh, stored, _⟩ :=
        represents.remove_frames valid found resultEq
      have fresh : final.fresh = written.fresh := by
        rw [sameFresh, left.represents.fresh_eq, (Levels.remove_ids removed).2, represents.fresh_eq]
      rw [framed.stored_iff, or_iff_left (none fresh), stored, complete ptr]
      exact left.account.mem_iff.symm

theorem Keeps.accounts (keeps : tree.Keeps laws levels) (complete : tree.Complete levels) :
    tree.Accounts laws.toNodeReading := by
  have represents := keeps.represents
  refine ⟨fun ptr => ?_, ?_, (nodup_append.mp keeps.once).1⟩
  · rw [complete ptr, mem_append, represents.mem_ids_iff]
    exact or_comm
  · intro height ptr atHeight retired
    exact (keeps.apart ptr retired).2 (represents.mem_ids_iff.mpr ⟨height, atHeight⟩)

variable {operations : List (Operation K V)}

theorem run_accounts (laws : ops.Laws size) (memory : Memory leafSize K H V Inner)
    (valid : ∀ operation ∈ operations, laws.Valid operation.key) :
    Ends (fun result => result.2.Accounts laws.toNodeReading) (Stops laws memory operations)
      ((Tree.empty ops memory).run ops memory operations) := by
  have ends := run_invariant Complete laws memory
    (fun _ _ _ _ _ _ kept complete valid calls =>
      Complete.call complete kept valid calls.called calls.levelsCalled)
    (complete_empty ops memory) valid
  refine ends.mono ?_
  rintro ⟨answers, tree⟩ ⟨levels, kept, complete, _⟩
  exact kept.accounts complete

/-! ## High keys -/

/-- The high keys in use, and those handed to `retire`. -/
def highKeys (laws : ops.Laws size) (tree : Tree leafSize K H V Mid Inner) (levels : Levels K H V) :
    List H :=
  levels.leaves.bounds ++ tree.retiredKeys.map laws.decode

structure Owned (address : H → Ptr) (laws : ops.Laws size) (tree : Tree leafSize K H V Mid Inner)
    (levels : Levels K H V) : Prop where
  distinct : ((tree.highKeys laws levels).map address).Nodup
  allocated : ∀ high ∈ tree.highKeys laws levels, address high < levels.fresh

namespace Owned

variable {address : H → Ptr} {levels' : Levels K H V}

section

variable (owned : tree.Owned address laws levels)
include owned

theorem of_perm (perm : (final.highKeys laws levels').Perm (tree.highKeys laws levels))
    (longer : levels.fresh ≤ levels'.fresh) : final.Owned address laws levels' := by
  refine ⟨(perm.map address).nodup_iff.mpr owned.distinct, ?_⟩
  exact fun high listed => lt_of_lt_of_le (owned.allocated high (perm.subset listed)) longer

theorem of_cons (new : H)
    (perm : (final.highKeys laws levels').Perm (new :: tree.highKeys laws levels))
    (fresh : levels.fresh ≤ address new) (longer : address new < levels'.fresh) :
    final.Owned address laws levels' := by
  refine ⟨?_, ?_⟩
  · rw [(perm.map address).nodup_iff, map_cons, nodup_cons]
    refine ⟨?_, owned.distinct⟩
    intro listed
    obtain ⟨high, highListed, same⟩ := mem_map.mp listed
    exact absurd (owned.allocated high highListed) (not_lt.mpr (same ▸ fresh))
  · intro high listed
    rcases mem_cons.mp (perm.subset listed) with rfl | old
    · exact longer
    · exact lt_trans (lt_of_lt_of_le (owned.allocated high old) fresh) longer

theorem call (keeps : tree.Keeps laws levels) (announces : ops.announces = true)
    (places : ∀ copy key, address (ops.makeHigh copy key) = copy) {operation : Operation K V}
    (valid : laws.Valid operation.key)
    {result : Option (KVPair K V) × Tree leafSize K H V Mid Inner}
    {outcome : Option (KVPair K V) × Levels K H V}
    (called : tree.call ops memory operation = .ok result)
    (levelsCalled : levels.call ops.toKeyOps leafSize size operation = .ok outcome) :
    result.2.Owned address laws outcome.2 := by
  have formed := keeps.represents.wellFormed
  cases operation with
  | upsert kv =>
    rw [Levels.call] at levelsCalled
    split at levelsCalled
    · cases levelsCalled
      have same := (stored_upsert called).1
      rcases formed.upsert_bounds kv with ⟨bounds, fresh⟩ | ⟨middle, bounds, fresh⟩
      · apply owned.of_perm _ (le_of_eq fresh.symm)
        rw [highKeys, highKeys, bounds, same]
      · apply owned.of_cons (ops.makeHigh (levels.fresh + 1) middle)
        · rw [highKeys, highKeys, same]
          exact bounds.append_right _
        · rw [places]
          exact Nat.le_succ _
        · rw [places]
          exact fresh
    · cases levelsCalled
  | update kv =>
    cases levelsCalled
    have same := (framed_update called).retiredKeys_eq
    obtain ⟨bounds, fresh⟩ := Levels.update_bounds ops.highKey levels kv
    apply owned.of_perm _ (le_of_eq fresh.symm)
    rw [highKeys, highKeys, bounds, same]
  | lookup key =>
    cases levelsCalled
    obtain ⟨answer, _, rfl⟩ := map_eq_ok.mp called
    exact owned
  | remove key =>
    obtain ⟨before, leaf, after, found⟩ := formed.chain.exists_leafOf key
    obtain ⟨written, framed, _, _, retires⟩ := keeps.represents.remove_frames valid found called
    have same := framed.retiredKeys_eq.trans (retires announces)
    rw [Levels.call] at levelsCalled
    cases removed : levels.remove ops.highKey leafSize size key with
    | none =>
      rw [removed] at levelsCalled
      cases levelsCalled
    | some outcome =>
      rw [removed] at levelsCalled
      cases levelsCalled
      apply owned.of_perm _ (le_of_eq (Levels.remove_ids removed).2.symm)
      have bounds := formed.remove_bounds found removed
      have decoded : ∀ high : Option H,
        (high.toList.map ops.midOf).map laws.decode = high.toList := by
        intro high
        rw [map_map, Function.comp_def]
        simp only [laws.decode_midOf, map_id']
      rw [highKeys, highKeys, same, map_append, decoded]
      refine List.Perm.trans ?_ (bounds.symm.append_right _)
      rw [append_assoc]
      exact perm_append_comm.append_left _

end

end Owned

theorem owned_empty (address : H → Ptr) (laws : ops.Laws size)
    (memory : Memory leafSize K H V Inner) : (Tree.empty ops memory).Owned address laws .empty :=
  ⟨nodup_nil, fun _ listed => absurd listed not_mem_nil⟩

theorem run_owned (address : H → Ptr) (laws : ops.Laws size)
    (memory : Memory leafSize K H V Inner) (announces : ops.announces = true)
    (places : ∀ copy key, address (ops.makeHigh copy key) = copy)
    (valid : ∀ operation ∈ operations, laws.Valid operation.key) :
    Ends (fun result => ∃ last, result.2.Keeps laws last ∧ result.2.Owned address laws last)
      (Stops laws memory operations) ((Tree.empty ops memory).run ops memory operations) := by
  have ends := run_invariant (Owned address laws) laws memory
    (fun _ _ _ _ _ _ kept owned valid calls =>
      owned.call kept announces places valid calls.called calls.levelsCalled)
    (owned_empty address laws memory) valid
  refine ends.mono ?_
  rintro ⟨answers, tree⟩ ⟨last, kept, owned, _⟩
  exact ⟨last, kept, owned⟩

end Tree

end IndexResearch.FBTree
