import IndexResearch.FBTree.Levels.Bindings

/-!
# Removals that find no separator

Where a removal reads a separator that is not there, told from the levels before it.  The
merges that a removal starts climb the levels as long as the node of each level absorbs
its right sibling.  They fail at a node with a single separator whose right sibling, the
last of its level, has none: no separator is left then to compute a prefix from.
-/

namespace IndexResearch.FBTree

open List

universe u

namespace NodeView

variable {Sep : Type u}

def starves (view right : NodeView Sep) : Bool :=
  view.seps.length == 1 && right.seps.length == 0

/-- The removal of the separator at `index` makes a node absorb its right sibling. -/
def absorbs (size : NodeSize) (view right : NodeView Sep) (index : Nat) : Bool :=
  if index + 1 < view.seps.length then
    decide (view.seps.length - 1 + right.seps.length ≤ size.half ∨ right.seps.length = 0)
  else decide (index + right.seps.length ≤ size.half ∨ index = 0 ∨ right.seps.length ≤ 1)

variable {size : NodeSize} {view right : NodeView Sep} {mid : Sep} {index : Nat}
  {removal : Removal Sep}

theorem remove_eq_none (inside : index < view.seps.length) :
    view.remove size (some right) mid index = none ↔ view.starves right = true := by
  rw [starves, Bool.and_eq_true, beq_iff_eq, beq_iff_eq, remove]
  by_cases inner : index + 1 < view.seps.length
  · rw [if_pos inner]
    constructor
    · exact fun absurdity => absurd absurdity (Option.some_ne_none _)
    · rintro ⟨one, _⟩
      omega
  · rw [if_neg inner, boundRemove]
    split
    · split
      · rename_i none
        exact ⟨fun _ => ⟨by omega, none.2⟩, fun _ => rfl⟩
      · rename_i some
        refine ⟨fun absurdity => absurd absurdity (Option.some_ne_none _), ?_⟩
        rintro ⟨one, empty⟩
        exact absurd ⟨by omega, empty⟩ some
    · rename_i kept
      refine ⟨fun absurdity => absurd absurdity (Option.some_ne_none _), ?_⟩
      rintro ⟨_, empty⟩
      exact absurd (.inr (.inr (.inl empty))) kept

theorem remove_merged (inside : index < view.seps.length)
    (found : view.remove size (some right) mid index = some removal) :
    (∃ up, removal.ascent = .merged up) ↔ view.absorbs size right index = true := by
  rw [remove] at found
  rw [absorbs]
  by_cases inner : index + 1 < view.seps.length
  · rw [if_pos inner, Option.some.injEq] at found
    rw [if_pos inner, decide_eq_true_iff]
    subst found
    rw [merge]
    have length : (view.seps.eraseIdx index).length = view.seps.length - 1 :=
      length_eraseIdx_of_lt inside
    split
    · rename_i small
      rw [length] at small
      exact ⟨fun _ => small, fun _ => ⟨_, rfl⟩⟩
    · rename_i large
      rw [length] at large
      refine ⟨?_, fun small => absurd small large⟩
      rintro ⟨_, absurdity⟩
      cases absurdity
  · rw [if_neg inner, boundRemove] at found
    rw [if_neg inner, decide_eq_true_iff]
    split at found
    · rename_i small
      split at found
      · cases found
      · cases found
        exact ⟨fun _ => by omega, fun _ => ⟨mid, rfl⟩⟩
    · rename_i large
      cases found
      refine ⟨?_, fun small => absurd ?_ large⟩
      · rintro ⟨_, absurdity⟩
        cases absurdity
      · omega

end NodeView

def LeafView.absorbs {K H V : Type} (size : NodeSize) (view right : LeafView K H V) : Bool :=
  decide (view.entries.length - 1 + right.entries.length ≤ size.half ∨ view.entries.length = 1)

variable {K H V : Type} [LinearOrder K] {keyOf : H → K} {leafSize size : NodeSize}

namespace Levels

/-- The removal of the separator `mid` and the merges above it reach a node that starves. -/
def starves (keyOf : H → K) (size : NodeSize) : List (Level H) → H → Bool
  | [], _ => false
  | level :: above, mid =>
    match nodeOf keyOf level (keyOf mid) with
    | some (_, node, right :: _) =>
      node.view.starves right.view ||
        node.view.absorbs size right.view (rankIn keyOf node.view.seps (keyOf mid)) &&
          node.high.any (starves keyOf size above)
    | _ => false

def starvesAt (keyOf : H → K) (leafSize innerSize : NodeSize) (levels : Levels K H V) (key : K) :
    Bool :=
  match levels.leafOf keyOf key with
  | some (_, leaf, right :: _) =>
    (findKey KVPair.key leaf.view.entries key).isSome &&
      leaf.view.absorbs leafSize right.view &&
        leaf.view.high.any (starves keyOf innerSize levels.inner)
  | _ => false

end Levels

section Settle

variable {bounds₁ bounds₂ : List H} {ids₁ ids₂ : List Ptr} {child : Ptr} {mid : H}

theorem above_ne_nil {bounds : List H} {before after : Level H} {node right : LevelNode H}
    {above : List (Level H)}
    (stacked : Stacked size bounds (Level.ids (before ++ node :: right :: after)) above) :
    above ≠ [] := by
  rintro rfl
  have single := stacked.2
  simp only [Level.ids, length_map, length_append, length_cons] at single
  omega

theorem settle_eq_none {levels : List (Level H)}
    (stacked : Stacked size (bounds₁ ++ mid :: bounds₂) (ids₁ ++ child :: ids₂) levels)
    (sameLength : ids₁.length = bounds₁.length)
    (rising : Ascending keyOf (bounds₁ ++ mid :: bounds₂)) :
    Levels.settle keyOf size levels mid = none ↔ Levels.starves keyOf size levels mid = true := by
  induction levels generalizing bounds₁ bounds₂ ids₁ ids₂ child mid with
  | nil => exact absurd stacked.1 (by simp)
  | cons level above ih =>
    have smaller : ∀ bound ∈ bounds₁, keyOf bound < keyOf mid := fun bound listed =>
      (ascending_append.mp rising).2.2 bound listed mid mem_cons_self
    obtain ⟨before, node, after, rfl, loses⟩ :=
      stacked.loses sameLength rising smaller (le_refl (keyOf mid))
    have inside := loses.inside
    have removedSep : node.view.seps[rankIn keyOf node.view.seps (keyOf mid)]? = some mid := by
      obtain ⟨seps₁, seps₂, nodeSeps, pos, _⟩ := loses.parts
      rw [pos, nodeSeps]
      simp
    rw [Levels.settle, Levels.starves, loses.found]
    cases after with
    | nil =>
      dsimp only
      generalize rankIn keyOf node.view.seps (keyOf mid) = index at *
      have removal : ∃ removal, node.view.remove size none mid index = some removal := by
        rw [NodeView.remove]
        split
        · exact ⟨_, rfl⟩
        · exact ⟨_, rfl⟩
      obtain ⟨removal, removed⟩ := removal
      have done := NodeView.remove_rightmost removed
      simp only [head?_nil, Option.map_none, removed, Option.bind_some, done]
      split
      · simp
      · simp
    | cons right rest =>
      have notTop : above.isEmpty = false := by
        simpa using above_ne_nil loses.stacked
      dsimp only [head?_cons, Option.map_some]
      generalize rankIn keyOf node.view.seps (keyOf mid) = index at *
      cases removed : node.view.remove size (some right.view) mid index with
      | none =>
        rw [(NodeView.remove_eq_none inside).mp removed]
        simp
      | some removal =>
        have survives : node.view.starves right.view = false := by
          apply eq_false_of_ne_true
          intro starves
          rw [(NodeView.remove_eq_none inside).mpr starves] at removed
          cases removed
        have merged := NodeView.remove_merged inside removed
        have stays : (∀ up, removal.ascent ≠ .merged up) →
            node.view.absorbs size right.view index = false := by
          intro unmerged
          apply eq_false_of_ne_true
          intro absorbs
          obtain ⟨up, isMerged⟩ := merged.mpr absorbs
          exact unmerged up isMerged
        have ascent := (NodeView.remove_ascent removed removedSep).2
        rw [survives, Bool.false_or, Option.bind_some, if_neg (by simp [notTop])]
        cases ascentEq : removal.ascent with
        | done | renamed up => simp [stays (by simp [ascentEq])]
        | merged up =>
          rw [ascentEq] at ascent
          have sibling : node.view.link ≠ none := fun none =>
            absurd (loses.shape.link_eq_none.mp none) (cons_ne_nil _ _)
          have high : node.high = some up := Level.high_eq_some.mpr ⟨sibling, ascent.2⟩
          have aboveStacked := loses.stacked
          have bounds : Ascending keyOf (Level.bounds (before ++ node :: right :: rest)) :=
            List.Pairwise.sublist (Level.bounds_sublist _) (loses.seps ▸ rising)
          simp only [Level.bounds_append, Level.bounds_cons, Level.ids_append, Level.ids_cons, high,
            Option.toList_some, singleton_append] at aboveStacked bounds
          have climbs := ih aboveStacked loses.shape.length_bounds_before.symm bounds
          rw [merged.mp ⟨up, ascentEq⟩, high, Bool.true_and, Option.any_some, ← climbs]
          simp

end Settle

theorem Levels.WellFormed.remove_eq_none {levels : Levels K H V} {key : K}
    (formed : levels.WellFormed keyOf leafSize size) :
    levels.remove keyOf leafSize size key = none ↔
      levels.starvesAt keyOf leafSize size key = true := by
  obtain ⟨before, leaf, after, found⟩ := formed.chain.exists_leafOf key
  have split := Levels.leafOf_eq_some found
  have chain := formed.chain
  have stacked := formed.stacked
  rw [split] at chain stacked
  rw [Levels.remove, Levels.starvesAt, Levels.leafOf, found]
  dsimp only
  cases bound : findKey KVPair.key leaf.view.entries key with
  | none =>
    cases after with
    | nil | cons right rest => simp [LeafView.remove, bound]
  | some previous =>
    cases after with
    | nil => simp [LeafView.remove, bound]
    | cons right rest =>
      have sound := chain.sound leaf (by simp)
      obtain ⟨listed, rfl⟩ := sound.ascending.findKey_eq_some.mp bound
      have length := (sound.ascending.perm_cons_eraseKey listed).length_eq
      obtain ⟨high, highEq⟩ := chain.high_isSome (by simp)
      have bounds := chain.ascending_bounds
      simp only [Leaves.bounds_append, Leaves.bounds_cons, Leaves.ids_append, Leaves.ids_cons,
        highEq, Option.toList_some, singleton_append] at stacked bounds
      have settles := settle_eq_none stacked chain.length_bounds_before.symm bounds
      rw [length_cons] at length
      simp only [head?_cons, Option.map_some, LeafView.remove, bound, LeafView.absorbs, length,
        highEq, Nat.add_sub_cancel, Nat.add_eq_right, Option.isSome_some, Bool.true_and,
          Option.any_some, Bool.and_eq_true, decide_eq_true_iff]
      by_cases small : (eraseKey KVPair.key leaf.view.entries previous.key).length +
          right.view.entries.length ≤ leafSize.half ∨
          (eraseKey KVPair.key leaf.view.entries previous.key).length = 0
      · simp only [small, if_true, Option.map_eq_none_iff, settles, true_and]
      · simp only [small, if_false, false_and, iff_false]
        exact Option.some_ne_none _

end IndexResearch.FBTree
