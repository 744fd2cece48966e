import IndexResearch.FBTree.Levels.Bindings

/-!
# The height of a tree that only grows

Until the first removal every node but the rightmost one of its level is at least half
full, so that the number of keys is exponential in the height.
-/

namespace IndexResearch.FBTree

open List

variable {K H V : Type} {size leafSize innerSize : NodeSize}

def Level.HalfFull (size : NodeSize) (level : Level H) : Prop :=
  ∀ node ∈ level, node.view.link ≠ none → size.half ≤ node.view.seps.length

def Leaves.HalfFull (size : NodeSize) (leaves : Leaves K H V) : Prop :=
  ∀ leaf ∈ leaves, leaf.view.link ≠ none → size.half ≤ leaf.view.entries.length

structure Levels.HalfFull (leafSize innerSize : NodeSize) (levels : Levels K H V) : Prop where
  leaves : levels.leaves.HalfFull leafSize
  inner : ∀ level ∈ levels.inner, level.HalfFull innerSize

/-! ## Insertion -/

section Insert

variable {view left rightView : NodeView H} {mid newMid : H} {lchild rchild fresh : Ptr}
  {index : Nat}

theorem NodeView.insert_whole_length
    (result : view.insert size fresh lchild rchild mid index = (left, none)) :
    view.seps.length ≤ left.seps.length := by
  rw [NodeView.insert] at result
  split at result
  · cases result
    rw [NodeView.insertSeps, length_insertAt]
    omega
  · exact absurd (Prod.mk.inj result).2 (by simp)

theorem NodeView.insert_split_length
    (result : view.insert size fresh lchild rchild mid index = (left, some (rightView, newMid)))
    (bounded : view.seps.length ≤ size.slots) (last : index = view.seps.length → view.link = none) :
    size.half ≤ left.seps.length ∧
      (rightView.link ≠ none → size.half ≤ rightView.seps.length) := by
  have half := size.eight_le_half
  have slots := size.slots_eq
  rw [NodeView.insert] at result
  split at result
  · exact absurd (Prod.mk.inj result).2 (by simp)
  · rename_i full
    obtain ⟨rfl, rightEq⟩ := Prod.mk.inj result
    cases rightEq
    have length : (view.insertSeps mid index).length = size.slots + 1 := by
      rw [NodeView.insertSeps, length_insertAt]
      omega
    rw [length_take, length_drop, length]
    refine ⟨?_, ?_⟩
    · rw [NodeView.splitPoint]
      split
      · omega
      · split <;> omega
    · intro sibling
      have notLast : index ≠ size.slots := fun same => sibling (last (by omega))
      rw [NodeView.splitPoint, if_neg notLast]
      split <;> omega

end Insert

variable [LinearOrder K] {keyOf : H → K}

theorem climb_halfFull {levels : List (Level H)} {bounds₁ bounds₂ : List H} {ids₁ ids₂ : List Ptr}
    {left right fresh : Ptr} {mid : H}
    (stacked : Stacked size (bounds₁ ++ bounds₂) (ids₁ ++ left :: ids₂) levels)
    (sameLength : ids₁.length = bounds₁.length)
    (rising : Ascending keyOf (bounds₁ ++ mid :: bounds₂))
    (halfFull : ∀ level ∈ levels, level.HalfFull size) :
    ∀ level ∈ (Levels.climb keyOf size levels fresh left right mid).1, level.HalfFull size := by
  induction levels generalizing bounds₁ bounds₂ ids₁ ids₂ left right mid fresh with
  | nil =>
    intro level listed node nodeListed sibling
    obtain rfl := mem_singleton.mp listed
    obtain rfl := mem_singleton.mp nodeListed
    exact absurd rfl sibling
  | cons level above ih =>
    obtain ⟨before, node, after, rfl, receives⟩ := stacked.receives sameLength rising
    obtain ⟨levelHalf, aboveHalf⟩ := forall_mem_cons.mp halfFull
    have listed : node ∈ before ++ node :: after := by simp
    have bounded := (receives.shape.sound node listed).seps_le
    have others : ∀ other ∈ before ++ after, other.view.link ≠ none →
        size.half ≤ other.view.seps.length := by
      intro other otherListed
      apply levelHalf
      rcases mem_append.mp otherListed with inBefore | inAfter
      · simp [inBefore]
      · simp [inAfter]
    rw [Levels.climb, receives.found]
    simp only
    rcases resultEq : node.view.insert size fresh left right mid
      (rankIn keyOf node.view.seps (keyOf mid)) with ⟨view, _ | ⟨rightView, newMid⟩⟩
    · have sameLink : view.link = node.view.link := by
        rw [NodeView.insert] at resultEq
        split at resultEq
        · rw [← (Prod.mk.inj resultEq).1]
        · exact absurd (Prod.mk.inj resultEq).2 (by simp)
      refine forall_mem_cons.mpr ⟨?_, aboveHalf⟩
      intro other otherListed sibling
      rcases mem_append.mp otherListed with inBefore | later
      · exact others other (mem_append_left _ inBefore) sibling
      · rcases mem_cons.mp later with rfl | inAfter
        · exact le_trans (levelHalf node listed (sameLink ▸ sibling))
            (NodeView.insert_whole_length resultEq)
        · exact others other (mem_append_right _ inAfter) sibling
    · obtain ⟨_, sublist⟩ := receives.bounds_of_split resultEq
      obtain ⟨leftHalf, rightHalf⟩ :=
        NodeView.insert_split_length resultEq bounded receives.last
      refine forall_mem_cons.mpr ⟨?_, ih receives.stacked
        receives.shape.length_bounds_before.symm (List.Pairwise.sublist sublist rising) aboveHalf⟩
      intro other otherListed sibling
      rcases mem_append.mp otherListed with inBefore | later
      · exact others other (mem_append_left _ inBefore) sibling
      · rcases mem_cons.mp later with rfl | later
        · exact leftHalf
        · rcases mem_cons.mp later with rfl | inAfter
          · exact rightHalf sibling
          · exact others other (mem_append_right _ inAfter) sibling

/-! ## The operations -/

namespace Leaves.HalfFull

variable {before after : Leaves K H V} {leaf : LeafCell K H V}

omit [LinearOrder K] in
theorem patch (new : Leaves K H V) (halfFull : Leaves.HalfFull size (before ++ leaf :: after))
    (newHalf : Leaves.HalfFull size new) : Leaves.HalfFull size (before ++ (new ++ after)) := by
  intro other listed
  rcases mem_append.mp listed with inBefore | later
  · exact halfFull other (by simp [inBefore])
  · rcases mem_append.mp later with inNew | inAfter
    · exact newHalf other inNew
    · exact halfFull other (by simp [inAfter])

omit [LinearOrder K] in
theorem withEntries {entries : List (KVPair K V)}
    (halfFull : Leaves.HalfFull size (before ++ leaf :: after))
    (more : leaf.view.entries.length ≤ entries.length) :
    Leaves.HalfFull size (before ++ ⟨leaf.id, { leaf.view with entries := entries }⟩ :: after) := by
  refine halfFull.patch [_] ?_
  intro other listed sibling
  obtain rfl := mem_singleton.mp listed
  exact le_trans (halfFull leaf (by simp) sibling) more

end Leaves.HalfFull

namespace Levels.HalfFull

variable {ops : KeyOps K H} {levels : Levels K H V}

omit [LinearOrder K] in
theorem empty : (Levels.empty : Levels K H V).HalfFull leafSize innerSize where
  leaves := by
    intro leaf listed sibling
    obtain rfl := mem_singleton.mp listed
    exact absurd rfl sibling
  inner := nofun

theorem update (halfFull : levels.HalfFull leafSize innerSize)
    (formed : levels.WellFormed keyOf leafSize innerSize) (kv : KVPair K V) :
    (levels.update keyOf kv).2.HalfFull leafSize innerSize := by
  obtain ⟨before, leaf, after, found⟩ := formed.chain.exists_leafOf kv.key
  have leaves := halfFull.leaves
  rw [leafOf_eq_some found] at leaves
  rw [Levels.update, leafOf, found]
  exact ⟨leaves.withEntries (by rw [length_replace]), halfFull.inner⟩

theorem upsert (lawful : ∀ copy key, ops.highKey (ops.makeHigh copy key) = key)
    (halfFull : levels.HalfFull leafSize innerSize)
    (formed : levels.WellFormed ops.highKey leafSize innerSize) (kv : KVPair K V) :
    (levels.upsert ops leafSize innerSize kv).2.HalfFull leafSize innerSize := by
  have kept := (formed.upsert_spec lawful kv).2.1
  have way := formed.upserts kv
  generalize levels.upsert ops leafSize innerSize kv = result at way kept ⊢
  have leaves := halfFull.leaves
  cases way with
  | replaced found _ _ =>
    rw [leafOf_eq_some found] at leaves
    exact ⟨leaves.withEntries (by rw [length_replace]), halfFull.inner⟩
  | placed found _ _ _ =>
    rw [leafOf_eq_some found] at leaves
    exact ⟨leaves.withEntries (by rw [length_place]; exact Nat.le_succ _), halfFull.inner⟩
  | @split before after leaf left rest middle found unbound into _ =>
    have split := leafOf_eq_some found
    have chain := formed.chain
    have stacked := formed.stacked
    have bounds := kept.chain.ascending_bounds
    rw [split] at leaves chain stacked
    refine ⟨leaves.patch [_, _] ?_, ?_⟩
    · intro other listed sibling
      rcases mem_cons.mp listed with rfl | later
      · exact into.left_half
      · obtain rfl := mem_singleton.mp later
        exact into.right_half sibling
    · simp only [Leaves.bounds_append, Leaves.bounds_cons, Leaves.ids_append, Leaves.ids_cons]
        at stacked bounds
      exact climb_halfFull stacked chain.length_bounds_before.symm bounds halfFull.inner

end Levels.HalfFull

/-! ## The number of keys -/

/-- If every item with a bound has `half` parts, there are `half` parts for each bound. -/
theorem mul_length_filterMap_le {Item Part : Type} {half : Nat} {bound : Item → Option H}
    {parts : Item → List Part} {items : List Item}
    (enough : ∀ item ∈ items, bound item ≠ none → half ≤ (parts item).length) :
    half * (items.filterMap bound).length ≤ (items.flatMap parts).length := by
  induction items with
  | nil => exact le_rfl
  | cons item items ih =>
    obtain ⟨here, there⟩ := forall_mem_cons.mp enough
    have rest := ih there
    rw [flatMap_cons, length_append]
    cases high : bound item with
    | none =>
      rw [filterMap_cons_none high]
      omega
    | some _ =>
      have first := here (high ▸ nofun)
      rw [filterMap_cons_some high, length_cons, Nat.mul_succ]
      omega

theorem Level.HalfFull.length_bounds {level : Level H} (halfFull : level.HalfFull size) :
    size.half * level.bounds.length ≤ level.seps.length :=
  mul_length_filterMap_le fun node listed bounded =>
    halfFull node listed fun last => bounded (Level.high_eq_none last)

omit [LinearOrder K] in
theorem Leaves.HalfFull.length_bounds {leaves : Leaves K H V} (halfFull : leaves.HalfFull size)
    (last : ∀ leaf ∈ leaves, leaf.view.link = none → leaf.view.high = none) :
    size.half * leaves.bounds.length ≤ leaves.pairs.length :=
  mul_length_filterMap_le fun leaf listed bounded =>
    halfFull leaf listed fun none => bounded (last leaf listed none)

theorem Stacked.pow_le_length_bounds {bounds : List H} {ids : List Ptr} {level : Level H}
    {above : List (Level H)} (stacked : Stacked size bounds ids (level :: above))
    (halfFull : ∀ level ∈ above, level.HalfFull size) (levelHalf : level.HalfFull size) :
    size.half ^ above.length ≤ bounds.length := by
  induction above generalizing bounds ids level with
  | nil => exact length_pos_of_ne_nil (stacked.2.2.2.1 rfl)
  | cons upper higher ih =>
    obtain ⟨seps, _, _, _, aboveStacked⟩ := stacked
    obtain ⟨upperHalf, higherHalf⟩ := forall_mem_cons.mp halfFull
    have nodes := ih aboveStacked higherHalf upperHalf
    rw [← seps, length_cons, Nat.pow_succ, Nat.mul_comm]
    exact le_trans (Nat.mul_le_mul_left _ nodes) levelHalf.length_bounds

theorem Levels.HalfFull.pow_le_length_pairs {levels : Levels K H V}
    (halfFull : levels.HalfFull leafSize innerSize)
    (formed : levels.WellFormed keyOf leafSize innerSize) {level : Level H}
    {above : List (Level H)} (inner : levels.inner = level :: above) :
    leafSize.half * innerSize.half ^ above.length ≤ levels.leaves.pairs.length := by
  have stacked := formed.stacked
  have nodes := halfFull.inner
  rw [inner] at stacked nodes
  obtain ⟨levelHalf, aboveHalf⟩ := forall_mem_cons.mp nodes
  have leaves := stacked.pow_le_length_bounds aboveHalf levelHalf
  apply le_trans (Nat.mul_le_mul_left _ leaves)
  apply halfFull.leaves.length_bounds
  intro leaf listed last
  exact (formed.chain.sound leaf listed).high_eq_none.mpr last

end IndexResearch.FBTree
