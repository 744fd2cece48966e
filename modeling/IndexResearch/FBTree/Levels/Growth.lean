import IndexResearch.FBTree.Levels.Stacked

/-!
# Growth of the levels

Inserting the separator of a split node keeps the invariant of the levels, through
inner splits at every position and the growth of a new root.
-/

namespace IndexResearch.FBTree

open List

variable {K H : Type} {size : NodeSize}

namespace NodeView

variable {view : NodeView H} {left right : Ptr} {index : Nat} {rest : List Ptr}

theorem insertKids_eq (child : view.kids.drop index = left :: rest)
    (counted : view.kids.length = view.seps.length + if view.link.isSome then 0 else 1)
    (last : index = view.seps.length → view.link = none) :
    view.insertKids left right index = view.kids.take index ++ left :: right :: rest := by
  have length := congrArg List.length child
  rw [length_drop, length_cons] at length
  rw [insertKids]
  split
  · rename_i all
    rw [last all] at counted
    simp only [Option.isSome_none, Bool.false_eq_true, if_false] at counted
    obtain rfl : rest = [] := eq_nil_of_length_eq_zero (by omega)
    rfl
  · have dropNext : view.kids.drop (index + 1) = rest := by
      rw [← tail_drop, child, tail_cons]
    have takeNext : view.kids.take (index + 1) = view.kids.take index ++ [left] := by
      rw [take_add, child]
      rfl
    rw [takeNext, dropNext, append_assoc]
    rfl

end NodeView

section Insert

variable [LinearOrder K] {keyOf : H → K} {level before after : Level H} {node : LevelNode H}
  {bounds₁ bounds₂ : List H} {ids₁ ids₂ : List Ptr} {left right fresh : Ptr} {mid : H}

def inserted (node : LevelNode H) (fresh : Ptr) :
    NodeView H × Option (NodeView H × H) → Level H
  | (view, none) => [⟨node.id, view⟩]
  | (view, some (rightView, _)) => [⟨node.id, view⟩, ⟨fresh, rightView⟩]

/-- What an insertion into the node that `mid` leads to does to the level. -/
structure InsertedInto (size : NodeSize) (before : Level H) (node : LevelNode H) (after : Level H)
    (bounds : List H) (ids : List Ptr) (fresh : Ptr)
    (result : NodeView H × Option (NodeView H × H)) : Prop where
  shape : Level.Shape size (before ++ (inserted node fresh result ++ after))
  seps : Level.seps (before ++ (inserted node fresh result ++ after)) = bounds
  kids : Level.kids (before ++ (inserted node fresh result ++ after)) = ids
  /-- Without a split the high keys stay. -/
  whole : result.2 = none → Level.bounds (inserted node fresh result) = node.high.toList
  /-- With a split there is one more, the separator to insert above. -/
  split : ∀ rightView mid, result.2 = some (rightView, mid) →
    Level.bounds (inserted node fresh result) = mid :: node.high.toList

section Patch

variable {newSeps : List H} {newKids : List Ptr}
  (shape : Level.Shape size (before ++ node :: after))
  (counted : newKids.length = newSeps.length + if node.view.link.isSome then 0 else 1)
  (sameLast : node.view.link ≠ none → newSeps.getLast? = node.view.seps.getLast?)
include shape counted sameLast

omit [LinearOrder K]

omit shape counted in
theorem high_toList_eq (id : Ptr) :
    (⟨id, newSeps, newKids, node.view.link⟩ : LevelNode H).high = node.high := by
  simp only [LevelNode.high]
  cases linkEq : node.view.link with
  | none => rfl
  | some next => exact sameLast (linkEq ▸ (by simp))

theorem insert_whole (nonempty : newSeps ≠ []) (bounded : newSeps.length ≤ size.slots) :
    InsertedInto size before node after (before.seps ++ (newSeps ++ after.seps))
      (before.kids ++ (newKids ++ after.kids)) fresh
      (⟨newSeps, newKids, node.view.link⟩, none) where
  shape := by
    have linked := (linked_append.mp shape.linked).2
    refine Level.Shape.patch [node] (inserted node fresh _) shape (by simp [inserted]) rfl ?_ ?_
    · exact ⟨by simpa [Linked] using linked.1, trivial⟩
    · intro other listed
      obtain rfl := mem_singleton.mp listed
      exact ⟨fun _ => nonempty, counted, bounded⟩
  seps := by simp [inserted]
  kids := by simp [inserted]
  whole _ := by
    simp only [inserted, Level.bounds_cons, high_toList_eq sameLast]
    exact append_nil _
  split _ _ absurdity := absurd absurdity nofun

theorem insert_split {point : Nat} (fallback : H) (positive : 0 < point)
    (bounded : point ≤ size.slots) (full : newSeps.length = size.slots + 1) :
    InsertedInto size before node after (before.seps ++ (newSeps ++ after.seps))
      (before.kids ++ (newKids ++ after.kids)) fresh
      (⟨newSeps.take point, newKids.take point, some fresh⟩,
        some (⟨newSeps.drop point, newKids.drop point, node.view.link⟩,
          (newSeps.take point).getLastD fallback)) where
  shape := by
    have linked := (linked_append.mp shape.linked).2
    refine Level.Shape.patch [node] (inserted node fresh _) shape (by simp [inserted]) rfl ?_ ?_
    · exact ⟨rfl, by simpa [Linked] using linked.1, trivial⟩
    · intro other listed
      rcases mem_cons.mp listed with rfl | later
      · refine ⟨fun _ => ?_, ?_, ?_⟩
        · apply ne_nil_of_length_pos
          rw [length_take]
          omega
        · simp only [length_take, Option.isSome_some, if_true]
          omega
        · simp only [length_take]
          omega
      · obtain rfl := mem_singleton.mp later
        refine ⟨fun _ => ?_, ?_, ?_⟩
        · apply ne_nil_of_length_pos
          rw [length_drop]
          omega
        · simp only [length_drop]
          omega
        · simp only [length_drop]
          omega
  seps := by
    simp [inserted, ← append_assoc (newSeps.take point)]
  kids := by
    simp [inserted, ← append_assoc (newKids.take point)]
  whole absurdity := absurd absurdity nofun
  split rightView mid same := by
    cases same
    have leftHigh : (⟨node.id, newSeps.take point, newKids.take point, some fresh⟩ :
        LevelNode H).high = some ((newSeps.take point).getLastD fallback) := by
      have nonempty : newSeps.take point ≠ [] := by
        apply ne_nil_of_length_pos
        rw [length_take]
        omega
      obtain ⟨front, last, split⟩ := eq_nil_or_concat (newSeps.take point) |>.resolve_left
        nonempty
      simp [LevelNode.high, split]
    have rightHigh : (⟨fresh, newSeps.drop point, newKids.drop point, node.view.link⟩ :
        LevelNode H).high = node.high := by
      apply high_toList_eq
      intro sibling
      rw [getLast?_drop, if_neg (by omega), sameLast sibling]
    simp only [inserted, Level.bounds_cons, leftHigh, rightHigh]
    exact congrArg (_ :: ·) (append_nil _)

end Patch

theorem insert_node (right fresh : Ptr) (shape : Level.Shape size (before ++ node :: after))
    (located : Located keyOf (keyOf mid) before node after)
    (seps : Level.seps (before ++ node :: after) = bounds₁ ++ bounds₂)
    (kids : Level.kids (before ++ node :: after) = ids₁ ++ left :: ids₂)
    (sameLength : ids₁.length = bounds₁.length)
    (smaller : ∀ bound ∈ bounds₁, keyOf bound < keyOf mid)
    (notSmaller : ∀ bound ∈ bounds₂, ¬keyOf bound < keyOf mid) :
    InsertedInto size before node after (bounds₁ ++ mid :: bounds₂)
      (ids₁ ++ left :: right :: ids₂) fresh
      (node.view.insert size fresh left right mid (rankIn keyOf node.view.seps (keyOf mid))) := by
  obtain ⟨rfl, rfl, rest, child, rfl, rfl⟩ :=
    located.parent shape seps kids sameLength smaller notSmaller
  have sound := shape.sound node (by simp)
  have counted := sound.kids_length
  have last := located.last
  have bounded : rankIn keyOf node.view.seps (keyOf mid) ≤ node.view.seps.length :=
    rankIn_le_length _ _
  generalize rankIn keyOf node.view.seps (keyOf mid) = index at *
  have childLength := congrArg List.length child
  rw [length_drop, length_cons] at childLength
  have newSeps : before.seps ++ node.view.seps.take index ++
      mid :: (node.view.seps.drop index ++ after.seps) =
      before.seps ++ (insertAt node.view.seps index mid ++ after.seps) := by
    simp [insertAt]
  have newKids : before.kids ++ node.view.kids.take index ++ left :: right :: (rest ++ after.kids) =
      before.kids ++ ((node.view.kids.take index ++ left :: right :: rest) ++ after.kids) := by
    simp
  have newCounted : (node.view.kids.take index ++ left :: right :: rest).length =
      (insertAt node.view.seps index mid).length + if node.view.link.isSome then 0 else 1 := by
    rw [length_insertAt, length_append, length_take, length_cons, length_cons]
    omega
  have sameLast : node.view.link ≠ none →
      (insertAt node.view.seps index mid).getLast? = node.view.seps.getLast? := by
    intro sibling
    apply getLast?_insertAt
    exact Nat.lt_of_le_of_ne bounded fun all => sibling (last all)
  rw [newSeps, newKids, NodeView.insert, NodeView.insertKids_eq child counted last]
  simp only [NodeView.insertSeps]
  by_cases room : node.view.seps.length < size.slots
  · rw [if_pos room]
    apply insert_whole shape newCounted sameLast
    · exact ne_nil_of_length_pos (by rw [length_insertAt]; omega)
    · rw [length_insertAt]
      omega
  · rw [if_neg room]
    apply insert_split shape newCounted sameLast mid (NodeView.splitPoint_pos size index)
      (NodeView.splitPoint_le size index)
    rw [length_insertAt]
    have := sound.seps_le
    omega

/-- The node that the separator `mid` of the split child `left` goes to. -/
structure Receives (keyOf : H → K) (size : NodeSize) (bounds₁ bounds₂ : List H) (ids₁ : List Ptr)
    (left : Ptr) (ids₂ : List Ptr) (mid : H) (before : Level H) (node : LevelNode H)
    (after : Level H) (above : List (Level H)) : Prop where
  found : Levels.nodeOf keyOf (before ++ node :: after) (keyOf mid) = some (before, node, after)
  shape : Level.Shape size (before ++ node :: after)
  kids : Level.kids (before ++ node :: after) = ids₁ ++ left :: ids₂
  last : rankIn keyOf node.view.seps (keyOf mid) = node.view.seps.length → node.view.link = none
  child : left ∈ node.view.kids
  absent : ∀ sep ∈ node.view.seps, keyOf sep ≠ keyOf mid
  into : ∀ right fresh, InsertedInto size before node after (bounds₁ ++ mid :: bounds₂)
    (ids₁ ++ left :: right :: ids₂) fresh
    (node.view.insert size fresh left right mid (rankIn keyOf node.view.seps (keyOf mid)))
  stacked : Stacked size (before.bounds ++ (node.high.toList ++ after.bounds))
    (before.ids ++ node.id :: after.ids) above

theorem Stacked.receives {above : List (Level H)}
    (stacked : Stacked size (bounds₁ ++ bounds₂) (ids₁ ++ left :: ids₂) (level :: above))
    (sameLength : ids₁.length = bounds₁.length)
    (rising : Ascending keyOf (bounds₁ ++ mid :: bounds₂)) :
    ∃ before node after, level = before ++ node :: after ∧
      Receives keyOf size bounds₁ bounds₂ ids₁ left ids₂ mid before node after above := by
  obtain ⟨seps, kids, shape, _, aboveStacked⟩ := stacked
  obtain ⟨_, midBelow, across⟩ := ascending_append.mp rising
  have smaller : ∀ bound ∈ bounds₁, keyOf bound < keyOf mid := fun bound listed =>
    across bound listed mid mem_cons_self
  have larger : ∀ bound ∈ bounds₂, keyOf mid < keyOf bound := (ascending_cons.mp midBelow).1
  have notSmaller : ∀ bound ∈ bounds₂, ¬keyOf bound < keyOf mid := fun bound listed =>
    not_lt_of_gt (larger bound listed)
  have levelAscending : Ascending keyOf level.seps := by
    rw [seps]
    exact List.Pairwise.sublist ((sublist_cons_self mid bounds₂).append_left bounds₁) rising
  obtain ⟨before, node, after, found⟩ := exists_nodeOf keyOf shape (keyOf mid)
  obtain ⟨rfl, located⟩ := located_of_nodeOf shape levelAscending found
  obtain ⟨_, _, rest, child, _⟩ := located.parent shape seps kids sameLength smaller notSmaller
  refine ⟨before, node, after, rfl, found, shape, kids, located.last, ?_, ?_, ?_, ?_⟩
  · exact mem_of_mem_drop (child ▸ mem_cons_self)
  · intro sep listed
    have inLevel : sep ∈ bounds₁ ++ bounds₂ := by
      rw [← seps, Level.seps_append, Level.seps_cons]
      exact mem_append_right _ (mem_append_left _ listed)
    rcases mem_append.mp inLevel with low | high
    · exact ne_of_lt (smaller sep low)
    · exact ne_of_gt (larger sep high)
  · exact fun right fresh =>
      insert_node right fresh shape located seps kids sameLength smaller notSmaller
  · simpa using aboveStacked

namespace Receives

variable {above : List (Level H)} {view rightView : NodeView H} {newMid : H}

section

variable (receives : Receives keyOf size bounds₁ bounds₂ ids₁ left ids₂ mid before node after above)
include receives

theorem bounds_of_whole
    (result : node.view.insert size fresh left right mid (rankIn keyOf node.view.seps (keyOf mid)) =
      (view, none)) :
    Level.bounds (before ++ ⟨node.id, view⟩ :: after) =
      before.bounds ++ (node.high.toList ++ after.bounds) := by
  have into := receives.into right fresh
  rw [result] at into
  have appended := congrArg (fun middle => before.bounds ++ (middle ++ after.bounds))
    (into.whole rfl)
  simpa [inserted] using appended

theorem bounds_of_split
    (result : node.view.insert size fresh left right mid (rankIn keyOf node.view.seps (keyOf mid)) =
      (view, some (rightView, newMid))) :
    Level.bounds (before ++ ⟨node.id, view⟩ :: ⟨fresh, rightView⟩ :: after) =
      before.bounds ++ newMid :: (node.high.toList ++ after.bounds) ∧
    (before.bounds ++ newMid :: (node.high.toList ++ after.bounds)).Sublist
      (bounds₁ ++ mid :: bounds₂) := by
  have into := receives.into right fresh
  rw [result] at into
  have appended := congrArg (fun middle => before.bounds ++ (middle ++ after.bounds))
    (into.split rightView newMid rfl)
  have boundsEq : Level.bounds (before ++ ⟨node.id, view⟩ :: ⟨fresh, rightView⟩ :: after) =
      before.bounds ++ newMid :: (node.high.toList ++ after.bounds) := by
    simpa [inserted] using appended
  refine ⟨boundsEq, ?_⟩
  have newSeps : Level.seps (before ++ ⟨node.id, view⟩ :: ⟨fresh, rightView⟩ :: after) =
      bounds₁ ++ mid :: bounds₂ := into.seps
  rw [← boundsEq, ← newSeps]
  exact Level.bounds_sublist _

end

end Receives

theorem climb_stacked {levels : List (Level H)}
    (stacked : Stacked size (bounds₁ ++ bounds₂) (ids₁ ++ left :: ids₂) levels)
    (sameLength : ids₁.length = bounds₁.length)
    (rising : Ascending keyOf (bounds₁ ++ mid :: bounds₂)) :
    Stacked size (bounds₁ ++ mid :: bounds₂) (ids₁ ++ left :: right :: ids₂)
      (Levels.climb keyOf size levels fresh left right mid).1 := by
  induction levels generalizing bounds₁ bounds₂ ids₁ ids₂ left right mid fresh with
  | nil =>
    obtain ⟨noBounds, single⟩ := stacked
    obtain ⟨rfl, rfl⟩ := append_eq_nil_iff.mp noBounds
    obtain rfl : ids₁ = [] := eq_nil_of_length_eq_zero sameLength
    obtain rfl : ids₂ = [] := by simpa using single
    refine ⟨rfl, rfl, ⟨nofun, ⟨rfl, trivial⟩, ?_⟩, fun _ => nofun, rfl, rfl⟩
    intro node listed
    obtain rfl := mem_singleton.mp listed
    have half := size.eight_le_half
    have slots := size.slots_eq
    exact ⟨fun _ => nofun, rfl, by simp; omega⟩
  | cons level above ih =>
    obtain ⟨before, node, after, rfl, receives⟩ := stacked.receives sameLength rising
    have into := receives.into right fresh
    rw [Levels.climb, receives.found]
    simp only
    rcases resultEq : node.view.insert size fresh left right mid
      (rankIn keyOf node.view.seps (keyOf mid)) with ⟨view, _ | ⟨rightView, newMid⟩⟩
    · rw [resultEq] at into
      refine ⟨into.seps, into.kids, into.shape, fun _ => by simp, ?_⟩
      rw [receives.bounds_of_whole resultEq]
      simpa using receives.stacked
    · rw [resultEq] at into
      obtain ⟨boundsEq, sublist⟩ := receives.bounds_of_split resultEq
      refine ⟨into.seps, into.kids, into.shape, fun _ => by simp, ?_⟩
      rw [boundsEq]
      simp only [Level.ids_append, Level.ids_cons]
      exact ih receives.stacked receives.shape.length_bounds_before.symm
        (List.Pairwise.sublist sublist rising)

end Insert

end IndexResearch.FBTree
