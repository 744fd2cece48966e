import IndexResearch.FBTree.Levels.Growth

/-!
# Shrinking of the levels

Removing the separator of a merged node keeps the invariant of the levels: through
removal inside a node, absorption of the right sibling, border removal with a merge
or with the hand-over of a child, the update of separators above, and the collapse of
the root.
-/

namespace IndexResearch.FBTree

open List Level

variable {K H : Type} {size : NodeSize} {before after rest : Level H} {node next : LevelNode H}

/-- What a removal from a node does to the level, when the separators and children left
are the given ones. -/
structure RemovedFrom (size : NodeSize) (before : Level H) (node : LevelNode H) (after : Level H)
    (seps : List H) (kids : List Ptr) (removal : NodeView.Removal H) : Prop where
  shape : Level.Shape size
    (before ++ ⟨node.id, removal.node⟩ :: Levels.rightOf after removal.right)
  seps_eq : Level.seps (⟨node.id, removal.node⟩ :: Levels.rightOf after removal.right) = seps
  kids_eq : Level.kids (⟨node.id, removal.node⟩ :: Levels.rightOf after removal.right) = kids
  done : removal.ascent = .done →
    Level.bounds (⟨node.id, removal.node⟩ :: Levels.rightOf after removal.right) =
      Level.bounds (node :: after) ∧
    Level.ids (⟨node.id, removal.node⟩ :: Levels.rightOf after removal.right) =
      Level.ids (node :: after)
  merged : ∀ mid, removal.ascent = .merged mid → ∃ next rest, after = next :: rest ∧
    removal.node.seps ≠ [] ∧ node.high = some mid ∧
    Level.bounds (⟨node.id, removal.node⟩ :: Levels.rightOf after removal.right) =
      Level.bounds after ∧
    Level.ids (⟨node.id, removal.node⟩ :: Levels.rightOf after removal.right) =
      node.id :: Level.ids rest
  renamed : ∀ mid, removal.ascent = .renamed mid → ∃ old, node.high = some old ∧
    node.view.seps.getLast? = some old ∧ mid ∈ node.view.seps.dropLast ∧
    Level.bounds (⟨node.id, removal.node⟩ :: Levels.rightOf after removal.right) =
      mid :: Level.bounds after ∧
    Level.ids (⟨node.id, removal.node⟩ :: Levels.rightOf after removal.right) =
      Level.ids (node :: after)

section Node

variable {seps₁ seps₂ : List H} {kids₁ kids₂ : List Ptr} {mid : H} {left right : Ptr}

/-- A separator that is not the last one goes, with the child right of it, and the right
sibling stays. -/
theorem removedFrom_inner (shape : Level.Shape size (before ++ node :: after))
    (seps : node.view.seps = seps₁ ++ mid :: seps₂) (nonempty : seps₂ ≠ [])
    (kids : node.view.kids = kids₁ ++ left :: right :: kids₂) (keeps : Option (NodeView H))
    (sameRight : keeps = after.head?.map LevelNode.view) :
    RemovedFrom size before node after (seps₁ ++ seps₂ ++ after.seps)
      (kids₁ ++ left :: kids₂ ++ after.kids)
      ⟨⟨seps₁ ++ seps₂, kids₁ ++ left :: kids₂, node.view.link⟩, keeps, .done⟩ := by
  have sound := shape.sound node (by simp)
  have counted := sound.kids_length
  have bounded := sound.seps_le
  rw [seps, kids] at counted
  rw [seps] at bounded
  simp only [length_append, length_cons] at counted bounded
  have unchanged : Levels.rightOf after keeps = after := by
    subst sameRight
    cases after with
    | nil => rfl
    | cons => rfl
  have sameHigh : (⟨node.id, seps₁ ++ seps₂, kids₁ ++ left :: kids₂, node.view.link⟩ :
      LevelNode H).high = node.high := by
    apply high_toList_eq
    intro _
    obtain ⟨front, last, split⟩ := eq_nil_or_concat seps₂ |>.resolve_left nonempty
    simp [seps, split, getLast?_append, getLast?_cons]
  refine ⟨?_, ?_, ?_, ?_, fun _ absurdity => (by cases absurdity),
    fun _ absurdity => (by cases absurdity)⟩
  · rw [unchanged]
    have linked := (linked_append.mp shape.linked).2
    refine Level.Shape.patch [node] [_] shape nofun rfl ⟨?_, trivial⟩ ?_
    · simpa [Linked] using linked.1
    · intro other listed
      obtain rfl := mem_singleton.mp listed
      refine ⟨fun _ => by simp [nonempty], ?_, ?_⟩
      · simp only [length_append, length_cons]
        omega
      · simp only [length_append]
        omega
  · simp [unchanged]
  · simp [unchanged]
  · intro _
    rw [unchanged]
    simp [sameHigh]

theorem removedFrom_absorb (newSeps : List H) (newKids : List Ptr)
    (shape : Level.Shape size (before ++ node :: next :: rest))
    (counted : newKids.length = newSeps.length + if next.view.link.isSome then 0 else 1)
    (bounded : newSeps.length ≤ size.slots) (nonempty : newSeps ≠ [])
    (sameLast : next.view.link ≠ none → newSeps.getLast? = next.view.seps.getLast?)
    (high : node.high = some mid) :
    RemovedFrom size before node (next :: rest) (newSeps ++ rest.seps) (newKids ++ rest.kids)
      ⟨⟨newSeps, newKids, next.view.link⟩, none, .merged mid⟩ := by
  have sameHigh : (⟨node.id, newSeps, newKids, next.view.link⟩ : LevelNode H).high = next.high :=
    high_toList_eq sameLast node.id
  refine ⟨?_, by simp [Levels.rightOf], by simp [Levels.rightOf], nofun, ?_, nofun⟩
  · have linked := (linked_append.mp shape.linked).2
    refine Level.Shape.patch [node, next] [_] shape nofun rfl ⟨?_, trivial⟩ ?_
    · simpa [Linked] using linked.2.1
    · intro other listed
      obtain rfl := mem_singleton.mp listed
      exact ⟨fun _ => nonempty, counted, bounded⟩
  · intro other same
    cases same
    exact ⟨next, rest, rfl, nonempty,
      high, by simp [Levels.rightOf, sameHigh], by simp [Levels.rightOf]⟩

theorem removedFrom_handOver (shape : Level.Shape size (before ++ node :: next :: rest))
    (seps : node.view.seps = seps₁ ++ [mid]) (nonempty : seps₁ ≠ [])
    (kids : node.view.kids = kids₁ ++ [left]) (nextKids : next.view.kids = right :: kids₂)
    (fallback : H) :
    RemovedFrom size before node (next :: rest) (seps₁ ++ (next.view.seps ++ rest.seps))
      (kids₁ ++ (left :: kids₂ ++ rest.kids))
      ⟨⟨seps₁, kids₁, node.view.link⟩, some ⟨next.view.seps, left :: kids₂, next.view.link⟩,
        .renamed (seps₁.getLastD fallback)⟩ := by
  have sound := shape.sound node (by simp)
  have nextSound := shape.sound next (by simp)
  have counted := sound.kids_length
  have bounded := sound.seps_le
  have nextCounted := nextSound.kids_length
  rw [seps, kids] at counted
  rw [seps] at bounded
  rw [nextKids] at nextCounted
  simp only [length_append, length_cons, length_nil] at counted bounded nextCounted
  have sibling : node.view.link ≠ none := fun none =>
    absurd (shape.link_eq_none.mp none) (cons_ne_nil _ _)
  obtain ⟨front, last, split⟩ := eq_nil_or_concat seps₁ |>.resolve_left nonempty
  have lastEq : seps₁.getLast? = some (seps₁.getLastD fallback) := by simp [split]
  have nodeLast : node.view.seps.getLast? = some mid := by simp [seps]
  have newHigh : (⟨node.id, seps₁, kids₁, node.view.link⟩ : LevelNode H).high =
      some (seps₁.getLastD fallback) := high_eq_some.mpr ⟨sibling, lastEq⟩
  have nextHigh : (⟨next.id, next.view.seps, left :: kids₂, next.view.link⟩ : LevelNode H).high =
      next.high := high_toList_eq (fun _ => rfl) next.id
  refine ⟨?_, by simp [Levels.rightOf], by simp [Levels.rightOf], nofun, nofun, ?_⟩
  · have linked := (linked_append.mp shape.linked).2
    refine Level.Shape.patch [node, next] [_, _] shape nofun rfl ⟨?_, ?_, trivial⟩ ?_
    · simpa [Linked] using linked.1
    · simpa [Linked] using linked.2.1
    · intro other listed
      rcases mem_cons.mp listed with rfl | later
      · refine ⟨fun _ => nonempty, ?_, ?_⟩
        · simp only
          omega
        · simp only
          omega
      · obtain rfl := mem_singleton.mp later
        refine ⟨nextSound.seps_ne_nil, ?_, nextSound.seps_le⟩
        simp only [length_cons]
        omega
  · intro other same
    cases same
    refine ⟨mid, high_eq_some.mpr ⟨sibling, nodeLast⟩, nodeLast, ?_, ?_, ?_⟩
    · rw [seps, dropLast_concat]
      exact mem_of_getLast? lastEq
    · simp only [Levels.rightOf, bounds_cons, newHigh, nextHigh]
      rfl
    · simp [Levels.rightOf]

theorem removedFrom_border (shape : Level.Shape size (before ++ [node]))
    (seps : node.view.seps = seps₁ ++ [mid]) (kids : node.view.kids = kids₁ ++ [left, right]) :
    RemovedFrom size before node [] seps₁ (kids₁ ++ [left])
      ⟨⟨seps₁, kids₁ ++ [left], none⟩, none, .done⟩ := by
  have sound := shape.sound node (by simp)
  have last : node.view.link = none := shape.link_eq_none.mpr rfl
  have counted := sound.kids_length
  have bounded := sound.seps_le
  rw [seps, kids, last] at counted
  rw [seps] at bounded
  simp only [length_append, length_cons, length_nil,
    Option.isSome_none] at counted bounded
  refine ⟨?_, by simp [Levels.rightOf], by simp [Levels.rightOf], ?_, nofun, nofun⟩
  · refine Level.Shape.patch [node] [_] shape nofun rfl ⟨rfl, trivial⟩ ?_
    intro other listed
    obtain rfl := mem_singleton.mp listed
    refine ⟨fun sibling => absurd rfl sibling, ?_, ?_⟩
    · simp only [length_append, length_cons, length_nil, Option.isSome_none]
      omega
    · simp only
      omega
  · intro _
    simp [Levels.rightOf, LevelNode.high, last]

theorem merge_node (shape : Level.Shape size (before ++ node :: after))
    (seps : node.view.seps = seps₁ ++ mid :: seps₂) (nonempty : seps₂ ≠ [])
    (kids : node.view.kids = kids₁ ++ left :: right :: kids₂) (fallback : H) :
    RemovedFrom size before node after (seps₁ ++ seps₂ ++ after.seps)
      (kids₁ ++ left :: kids₂ ++ after.kids)
      (NodeView.merge size ⟨seps₁ ++ seps₂, kids₁ ++ left :: kids₂, node.view.link⟩ fallback
        (after.head?.map LevelNode.view)) := by
  cases after with
  | nil => exact removedFrom_inner shape seps nonempty kids none rfl
  | cons next rest =>
    have sound := shape.sound node (by simp)
    have nextSound := shape.sound next (by simp)
    have sibling : node.view.link ≠ none := fun none =>
      absurd (shape.link_eq_none.mp none) (cons_ne_nil _ _)
    have half := size.slots_eq
    have counted := sound.kids_length
    have bounded := sound.seps_le
    rw [seps, kids, if_pos (Option.isSome_iff_ne_none.mpr sibling)] at counted
    rw [seps] at bounded
    simp only [length_append, length_cons] at counted bounded
    simp only [head?_cons, Option.map_some, NodeView.merge]
    split
    · rename_i small
      rw [length_append] at small
      have high : node.high = some ((seps₁ ++ seps₂).getLastD fallback) := by
        obtain ⟨front, last, split⟩ := eq_nil_or_concat seps₂ |>.resolve_left nonempty
        apply high_eq_some.mpr ⟨sibling, _⟩
        simp [seps, split, getLast?_append, getLast?_cons]
      rw [seps_cons, kids_cons, ← append_assoc, ← append_assoc]
      apply removedFrom_absorb _ _ shape _ _ (by simp [nonempty]) _ high
      · rw [length_append, length_append, nextSound.kids_length]
        simp only [length_append, length_cons]
        omega
      · rw [length_append, length_append]
        rcases small with few | none <;> omega
      · intro nextSibling
        obtain ⟨front, last, split⟩ := eq_nil_or_concat next.view.seps |>.resolve_left
          (nextSound.seps_ne_nil nextSibling)
        simp [split, getLast?_append]
    · exact removedFrom_inner shape seps nonempty kids (some next.view) rfl

theorem boundRemove_node {removal : NodeView.Removal H}
    (shape : Level.Shape size (before ++ node :: next :: rest))
    (seps : node.view.seps = seps₁ ++ [mid]) (kids : node.view.kids = kids₁ ++ [left])
    (nextKids : next.view.kids = right :: kids₂)
    (result : NodeView.boundRemove size node.view mid seps₁.length (some next.view) =
      some removal) :
    RemovedFrom size before node (next :: rest) (seps₁ ++ (next.view.seps ++ rest.seps))
      (kids₁ ++ (left :: kids₂ ++ rest.kids)) removal := by
  have sound := shape.sound node (by simp)
  have nextSound := shape.sound next (by simp)
  have sibling : node.view.link ≠ none := fun none =>
    absurd (shape.link_eq_none.mp none) (cons_ne_nil _ _)
  have half := size.slots_eq
  have counted := sound.kids_length
  have bounded := sound.seps_le
  have nextCounted := nextSound.kids_length
  have nextBounded := nextSound.seps_le
  rw [seps, kids, if_pos (Option.isSome_iff_ne_none.mpr sibling)] at counted
  rw [seps] at bounded
  rw [nextKids] at nextCounted
  simp only [length_append, length_cons, length_nil] at counted bounded nextCounted
  rw [NodeView.boundRemove] at result
  simp only [seps, kids, nextKids, dropLast_concat, tail_cons] at result
  split at result
  · rename_i small
    split at result
    · cases result
    · rename_i notBoth
      cases result
      rw [← append_assoc, ← append_assoc, append_cons]
      have high : node.high = some mid := high_eq_some.mpr ⟨sibling, by simp [seps]⟩
      have absorbed := removedFrom_absorb (seps₁ ++ next.view.seps) (kids₁ ++ [left] ++ kids₂)
        shape (by
          simp only [length_append, length_cons, length_nil]
          omega) (by
          rw [length_append]
          omega) (by
          intro empty
          obtain ⟨rfl, none⟩ := append_eq_nil_iff.mp empty
          exact notBoth ⟨rfl, length_eq_zero_iff.mpr none⟩) (by
          intro nextSibling
          obtain ⟨front, last, split⟩ := eq_nil_or_concat next.view.seps |>.resolve_left
            (nextSound.seps_ne_nil nextSibling)
          simp [split, getLast?_append]) high
      simpa using absorbed
  · rename_i large
    cases result
    have nonempty : seps₁ ≠ [] := by
      rintro rfl
      exact large (.inr (.inl rfl))
    have handed := removedFrom_handOver shape seps nonempty kids nextKids mid
    simpa using handed

end Node

section Settle

variable [LinearOrder K] {keyOf : H → K} {bounds₁ bounds₂ : List H} {ids₁ ids₂ : List Ptr}
  {left right : Ptr} {mid old : H}
variable {child : Ptr} {above levels : List (Level H)}

theorem Located.separator (located : Located keyOf (keyOf mid) before node after)
    (shape : Level.Shape size (before ++ node :: after))
    (seps : Level.seps (before ++ node :: after) = bounds₁ ++ old :: bounds₂)
    (kids : Level.kids (before ++ node :: after) = ids₁ ++ child :: ids₂)
    (sameLength : ids₁.length = bounds₁.length)
    (smaller : ∀ bound ∈ bounds₁, keyOf bound < keyOf mid)
    (notSmaller : ∀ bound ∈ old :: bounds₂, ¬keyOf bound < keyOf mid) :
    ∃ seps₁ seps₂ kids₁ kids₂, node.view.seps = seps₁ ++ old :: seps₂ ∧
      node.view.kids = kids₁ ++ child :: kids₂ ∧
      rankIn keyOf node.view.seps (keyOf mid) = seps₁.length ∧ kids₁.length = seps₁.length ∧
      bounds₁ = before.seps ++ seps₁ ∧ bounds₂ = seps₂ ++ after.seps ∧
      ids₁ = before.kids ++ kids₁ ∧ ids₂ = kids₂ ++ after.kids := by
  obtain ⟨bounds₁Eq, bounds₂Eq, kids₂, childEq, ids₁Eq, ids₂Eq⟩ :=
    located.parent shape seps kids sameLength smaller notSmaller
  have bounded : rankIn keyOf node.view.seps (keyOf mid) ≤ node.view.seps.length :=
    rankIn_le_length _ _
  have inside := located.inside
  have last := located.last
  generalize rankIn keyOf node.view.seps (keyOf mid) = pos at *
  rcases dropEq : node.view.seps.drop pos with _ | ⟨sep, seps₂⟩
  · have all : pos = node.view.seps.length :=
      Nat.le_antisymm bounded (drop_eq_nil_iff.mp dropEq)
    rw [dropEq, shape.link_eq_none.mp (last all)] at bounds₂Eq
    cases bounds₂Eq
  · rw [dropEq] at bounds₂Eq
    cases bounds₂Eq
    refine ⟨node.view.seps.take pos, seps₂, node.view.kids.take pos, kids₂, ?_, ?_, ?_, ?_,
      bounds₁Eq, rfl, ids₁Eq, ids₂Eq⟩
    · rw [← dropEq, take_append_drop]
    · rw [← childEq, take_append_drop]
    · rw [length_take, Nat.min_eq_left bounded]
    · rw [length_take, length_take]
      omega

/-- What a level finds when the separator `old` of the node `child` below is to be removed
or exchanged for `mid`. -/
structure Loses (keyOf : H → K) (size : NodeSize) (bounds₁ : List H) (old : H) (bounds₂ : List H)
    (ids₁ : List Ptr) (child : Ptr) (ids₂ : List Ptr) (mid : H) (before : Level H)
    (node : LevelNode H) (after : Level H) (above : List (Level H)) : Prop where
  found : Levels.nodeOf keyOf (before ++ node :: after) (keyOf mid) = some (before, node, after)
  located : Located keyOf (keyOf mid) before node after
  shape : Level.Shape size (before ++ node :: after)
  seps : Level.seps (before ++ node :: after) = bounds₁ ++ old :: bounds₂
  kids : Level.kids (before ++ node :: after) = ids₁ ++ child :: ids₂
  notSmaller : ∀ bound ∈ old :: bounds₂, ¬keyOf bound < keyOf mid
  parts : ∃ seps₁ seps₂, node.view.seps = seps₁ ++ old :: seps₂ ∧
    rankIn keyOf node.view.seps (keyOf mid) = seps₁.length ∧ bounds₁ = before.seps ++ seps₁ ∧
    bounds₂ = seps₂ ++ after.seps
  child : child ∈ node.view.kids
  stacked : Stacked size (Level.bounds (before ++ node :: after))
    (Level.ids (before ++ node :: after)) above

theorem Stacked.loses {level : Level H}
    (stacked : Stacked size (bounds₁ ++ old :: bounds₂) (ids₁ ++ child :: ids₂) (level :: above))
    (sameLength : ids₁.length = bounds₁.length)
    (rising : Ascending keyOf (bounds₁ ++ old :: bounds₂))
    (smaller : ∀ bound ∈ bounds₁, keyOf bound < keyOf mid) (below : keyOf mid ≤ keyOf old) :
    ∃ before node after, level = before ++ node :: after ∧
      Loses keyOf size bounds₁ old bounds₂ ids₁ child ids₂ mid before node after above := by
  obtain ⟨seps, kids, shape, _, aboveStacked⟩ := stacked
  have notSmaller : ∀ bound ∈ old :: bounds₂, ¬keyOf bound < keyOf mid := by
    rintro bound (_ | ⟨_, listed⟩)
    · exact not_lt_of_ge below
    · have beyond := (ascending_cons.mp (ascending_append.mp rising).2.1).1 bound listed
      exact not_lt_of_gt (lt_of_le_of_lt below beyond)
  obtain ⟨before, node, after, found⟩ := exists_nodeOf keyOf shape (keyOf mid)
  obtain ⟨rfl, located⟩ := located_of_nodeOf shape (seps ▸ rising) found
  obtain ⟨seps₁, seps₂, kids₁, kids₂, nodeSeps, nodeKids, pos, _, bounds₁Eq, bounds₂Eq, _⟩ :=
    located.separator shape seps kids sameLength smaller notSmaller
  exact ⟨before, node, after, rfl, found, located, shape, seps, kids, notSmaller,
    ⟨seps₁, seps₂, nodeSeps, pos, bounds₁Eq, bounds₂Eq⟩, by simp [nodeKids], aboveStacked⟩

theorem Loses.inside
    (loses : Loses keyOf size bounds₁ old bounds₂ ids₁ child ids₂ mid before node after above) :
    rankIn keyOf node.view.seps (keyOf mid) < node.view.seps.length := by
  obtain ⟨seps₁, seps₂, nodeSeps, pos, _⟩ := loses.parts
  rw [pos, nodeSeps, length_append, length_cons]
  omega

theorem Loses.high_of_up
    (loses : Loses keyOf size bounds₁ old bounds₂ ids₁ child ids₂ mid before node after above)
    (up : (node.view.anchorUpdate mid (rankIn keyOf node.view.seps (keyOf mid))).2 = true) :
    node.high = some old := by
  obtain ⟨seps₁, seps₂, nodeSeps, pos, _⟩ := loses.parts
  rw [NodeView.anchorUpdate, Bool.and_eq_true, Option.isSome_iff_ne_none, beq_iff_eq, pos,
    nodeSeps] at up
  obtain ⟨sibling, last⟩ := up
  obtain rfl : seps₂ = [] := by
    apply eq_nil_of_length_eq_zero
    simp only [length_append, length_cons] at last
    omega
  exact high_eq_some.mpr ⟨sibling, by simp [nodeSeps]⟩

theorem remove_node {removal : NodeView.Removal H}
    (shape : Level.Shape size (before ++ node :: after))
    (located : Located keyOf (keyOf mid) before node after)
    (seps : Level.seps (before ++ node :: after) = bounds₁ ++ mid :: bounds₂)
    (kids : Level.kids (before ++ node :: after) = ids₁ ++ left :: right :: ids₂)
    (sameLength : ids₁.length = bounds₁.length)
    (smaller : ∀ bound ∈ bounds₁, keyOf bound < keyOf mid)
    (notSmaller : ∀ bound ∈ mid :: bounds₂, ¬keyOf bound < keyOf mid)
    (result : node.view.remove size (after.head?.map LevelNode.view) mid
      (rankIn keyOf node.view.seps (keyOf mid)) = some removal) :
    ∃ newSeps newKids, bounds₁ ++ bounds₂ = before.seps ++ newSeps ∧
      ids₁ ++ left :: ids₂ = before.kids ++ newKids ∧
      RemovedFrom size before node after newSeps newKids removal := by
  obtain ⟨seps₁, seps₂, kids₁, kids₂, nodeSeps, nodeKids, pos, kidsLength, rfl, rfl, rfl,
    ids₂Eq⟩ := located.separator shape seps kids sameLength smaller notSmaller
  have sound := shape.sound node (by simp)
  have counted := sound.kids_length
  rw [pos, NodeView.remove] at result
  rw [nodeSeps, nodeKids] at counted
  simp only [length_append, length_cons] at counted
  cases seps₂ with
  | nil =>
    rw [if_neg (by simp [nodeSeps])] at result
    cases after with
    | nil =>
      have last : node.view.link = none := shape.link_eq_none.mpr rfl
      rw [last] at counted
      simp only [length_nil, Option.isSome_none] at counted
      obtain ⟨other, rfl⟩ : ∃ other, kids₂ = [other] :=
        length_eq_one_iff.mp (by simp at counted; omega)
      cases ids₂Eq
      refine ⟨seps₁, kids₁ ++ [left], by simp, by simp, ?_⟩
      have removalEq : removal = ⟨⟨seps₁, kids₁ ++ [left], none⟩, none, .done⟩ := by
        simpa [NodeView.boundRemove, nodeSeps, nodeKids, dropLast_append_of_ne_nil]
          using result.symm
      rw [removalEq]
      exact removedFrom_border shape nodeSeps nodeKids
    | cons next rest =>
      have sibling : node.view.link ≠ none := fun none =>
        absurd (shape.link_eq_none.mp none) (cons_ne_nil _ _)
      rw [if_pos (Option.isSome_iff_ne_none.mpr sibling)] at counted
      obtain rfl : kids₂ = [] := eq_nil_of_length_eq_zero (by simp at counted; omega)
      have nextSound := shape.sound next (by simp)
      have nextCounted := nextSound.kids_length
      obtain ⟨first, tail, nextKids⟩ : ∃ first tail, next.view.kids = first :: tail := by
        apply exists_cons_of_ne_nil
        intro none
        rw [none, length_nil] at nextCounted
        cases linkEq : next.view.link with
        | none =>
          rw [linkEq] at nextCounted
          simp at nextCounted
        | some other =>
          have nonempty := nextSound.seps_ne_nil (linkEq ▸ (by simp))
          have := length_pos_of_ne_nil nonempty
          omega
      rw [nil_append, kids_cons, nextKids, cons_append] at ids₂Eq
      cases ids₂Eq
      refine ⟨_, _, ?_, ?_, boundRemove_node shape nodeSeps nodeKids nextKids result⟩
      · simp
      · simp
  | cons sep₂ more =>
    rw [if_pos (by simp [nodeSeps]), nodeSeps, nodeKids] at result
    obtain ⟨other, kids₃, rfl⟩ : ∃ other kids₃, kids₂ = other :: kids₃ := by
      apply exists_cons_of_ne_nil
      rintro rfl
      simp only [length_cons, length_nil] at counted
      omega
    rw [cons_append] at ids₂Eq
    cases ids₂Eq
    have eraseSep : (seps₁ ++ mid :: sep₂ :: more).eraseIdx seps₁.length = seps₁ ++ sep₂ ::
      more := by
      simp [eraseIdx_append_of_length_le]
    have eraseKid : (kids₁ ++ left :: right :: kids₃).eraseIdx (seps₁.length + 1) =
        kids₁ ++ left :: kids₃ := by
      rw [← kidsLength, eraseIdx_append_of_length_le (Nat.le_succ _)]
      simp
    rw [eraseSep, eraseKid] at result
    cases result
    refine ⟨_, _, ?_, ?_, merge_node shape nodeSeps (by simp) nodeKids mid⟩
    · simp
    · simp

theorem rename_eq_nil : Levels.rename keyOf levels mid = [] ↔ levels = [] := by
  cases levels with
  | nil => simp [Levels.rename]
  | cons level above =>
    rw [Levels.rename]
    cases Levels.nodeOf keyOf level (keyOf mid) with
    | none => simp
    | some found => simp

theorem rename_stacked
    (stacked : Stacked size (bounds₁ ++ old :: bounds₂) (ids₁ ++ child :: ids₂) levels)
    (sameLength : ids₁.length = bounds₁.length)
    (rising : Ascending keyOf (bounds₁ ++ old :: bounds₂))
    (newAscending : Ascending keyOf (bounds₁ ++ mid :: bounds₂)) (below : keyOf mid ≤ keyOf old) :
    Stacked size (bounds₁ ++ mid :: bounds₂) (ids₁ ++ child :: ids₂)
      (Levels.rename keyOf levels mid) := by
  induction levels generalizing bounds₁ bounds₂ ids₁ ids₂ child old with
  | nil => exact absurd stacked.1 (by simp)
  | cons level above ih =>
    obtain ⟨seps, kids, shape, top, aboveStacked⟩ := stacked
    have smaller : ∀ bound ∈ bounds₁, keyOf bound < keyOf mid := fun bound listed =>
      (ascending_append.mp newAscending).2.2 bound listed mid mem_cons_self
    have notSmaller : ∀ bound ∈ old :: bounds₂, ¬keyOf bound < keyOf mid := by
      rintro bound (_ | ⟨_, listed⟩)
      · exact not_lt_of_ge below
      · have after := (ascending_cons.mp (ascending_append.mp newAscending).2.1).1 bound listed
        exact not_lt_of_gt after
    obtain ⟨before, node, after, found⟩ := exists_nodeOf keyOf shape (keyOf mid)
    obtain ⟨rfl, located⟩ := located_of_nodeOf shape (seps ▸ rising) found
    obtain ⟨seps₁, seps₂, kids₁, kids₂, nodeSeps, nodeKids, pos, kidsLength, bounds₁Eq,
      bounds₂Eq, _, _⟩ := located.separator shape seps kids sameLength smaller notSmaller
    have sound := shape.sound node (by simp)
    rw [Levels.rename, found]
    simp only [pos, NodeView.anchorUpdate]
    have setEq : node.view.seps.set seps₁.length mid = seps₁ ++ mid :: seps₂ := by
      simp [nodeSeps]
    rw [setEq]
    have newShape : Level.Shape size
        (before ++ ⟨node.id, seps₁ ++ mid :: seps₂, node.view.kids, node.view.link⟩ :: after) := by
      have linked := (linked_append.mp shape.linked).2
      refine Level.Shape.patch [node] [_] shape nofun rfl ⟨?_, trivial⟩ ?_
      · simpa [Linked] using linked.1
      · intro other listed
        obtain rfl := mem_singleton.mp listed
        have counted := sound.kids_length
        have bounded := sound.seps_le
        rw [nodeSeps] at counted bounded
        refine ⟨fun _ => by simp, ?_, ?_⟩
        · simpa using counted
        · simpa using bounded
    have newSeps : Level.seps
        (before ++ ⟨node.id, seps₁ ++ mid :: seps₂, node.view.kids, node.view.link⟩ :: after) =
        bounds₁ ++ mid :: bounds₂ := by
      simp [bounds₁Eq, bounds₂Eq]
    refine ⟨newSeps, ?_, newShape, fun _ => by simp, ?_⟩
    · rw [← kids]
      simp
    · by_cases border : node.view.link ≠ none ∧ seps₂ = []
      · obtain ⟨sibling, rfl⟩ := border
        have up : (node.view.link.isSome && node.view.seps.length - 1 == seps₁.length) = true := by
          rw [Option.isSome_iff_ne_none.mpr sibling, nodeSeps]
          simp
        have oldHigh : node.high = some old :=
          high_eq_some.mpr ⟨sibling, by simp [nodeSeps]⟩
        have newHigh : (⟨node.id, seps₁ ++ [mid], node.view.kids, node.view.link⟩ :
            LevelNode H).high = some mid :=
          high_eq_some.mpr ⟨sibling, by simp⟩
        have newSublist := List.Pairwise.sublist (bounds_sublist _) (newSeps ▸ newAscending)
        have oldSublist := List.Pairwise.sublist (bounds_sublist _) (seps ▸ rising)
        rw [if_pos up]
        simp only [bounds_append, bounds_cons, ids_append, ids_cons,
          oldHigh,
          newHigh, Option.toList_some,
            singleton_append] at aboveStacked newSublist oldSublist ⊢
        exact ih aboveStacked shape.length_bounds_before.symm oldSublist newSublist
          below
      · have notUp : ¬(node.view.link.isSome && node.view.seps.length - 1 == seps₁.length) =
          true := by
          rw [Bool.and_eq_true, Option.isSome_iff_ne_none, beq_iff_eq, nodeSeps]
          rintro ⟨sibling, length⟩
          refine border ⟨sibling, eq_nil_of_length_eq_zero ?_⟩
          simp only [length_append, length_cons] at length
          omega
        have sameHigh : (⟨node.id, seps₁ ++ mid :: seps₂, node.view.kids, node.view.link⟩ :
            LevelNode H).high = node.high := by
          apply high_toList_eq
          intro sibling
          have nonempty : seps₂ ≠ [] := fun empty => border ⟨sibling, empty⟩
          obtain ⟨front, last, split⟩ := eq_nil_or_concat seps₂ |>.resolve_left nonempty
          simp [nodeSeps, split, getLast?_append, getLast?_cons]
        rw [if_neg notUp]
        simp only [bounds_append, bounds_cons, ids_append, ids_cons,
          sameHigh] at aboveStacked ⊢
        exact aboveStacked

theorem settle_stacked {levels' : List (Level H)}
    (stacked : Stacked size (bounds₁ ++ mid :: bounds₂) (ids₁ ++ left :: right :: ids₂) levels)
    (sameLength : ids₁.length = bounds₁.length)
    (rising : Ascending keyOf (bounds₁ ++ mid :: bounds₂))
    (result : Levels.settle keyOf size levels mid = some levels') :
    Stacked size (bounds₁ ++ bounds₂) (ids₁ ++ left :: ids₂) levels' := by
  induction levels generalizing bounds₁ bounds₂ ids₁ ids₂ left right mid levels' with
  | nil => exact absurd stacked.1 (by simp)
  | cons level above ih =>
    obtain ⟨seps, kids, shape, top, aboveStacked⟩ := stacked
    have smaller : ∀ bound ∈ bounds₁, keyOf bound < keyOf mid := fun bound listed =>
      (ascending_append.mp rising).2.2 bound listed mid mem_cons_self
    have notSmaller : ∀ bound ∈ mid :: bounds₂, ¬keyOf bound < keyOf mid := by
      rintro bound (_ | ⟨_, listed⟩)
      · exact lt_irrefl _
      · exact not_lt_of_gt ((ascending_cons.mp (ascending_append.mp rising).2.1).1 bound listed)
    obtain ⟨before, node, after, found⟩ := exists_nodeOf keyOf shape (keyOf mid)
    obtain ⟨rfl, located⟩ := located_of_nodeOf shape (seps ▸ rising) found
    rw [Levels.settle, found] at result
    obtain ⟨removal, removed, rest⟩ := Option.bind_eq_some_iff.mp result
    obtain ⟨newSeps, newKids, sepsEq, kidsEq, spec⟩ :=
      remove_node shape located seps kids sameLength smaller notSmaller removed
    have newLevelSeps := (seps_append before _).trans
      ((congrArg (before.seps ++ ·) spec.seps_eq).trans sepsEq.symm)
    have newLevelKids := (kids_append before _).trans
      ((congrArg (before.kids ++ ·) spec.kids_eq).trans kidsEq.symm)
    have oldBounds : Ascending keyOf (Level.bounds (before ++ node :: after)) :=
      List.Pairwise.sublist (bounds_sublist _) (seps ▸ rising)
    have newBounds : Ascending keyOf
        (Level.bounds (before ++ ⟨node.id, removal.node⟩ :: Levels.rightOf after removal.right)) :=
          by
      apply List.Pairwise.sublist (bounds_sublist _)
      rw [newLevelSeps]
      exact List.Pairwise.sublist ((sublist_cons_self _ _).append_left _) rising
    cases above with
    | nil =>
      obtain ⟨rfl, rfl⟩ : before = [] ∧ after = [] := by
        have single := aboveStacked.2
        simp only [Level.ids, length_map, length_append, length_cons] at single
        exact ⟨eq_nil_of_length_eq_zero (by omega), eq_nil_of_length_eq_zero (by omega)⟩
      have counted := spec.shape.length_kids
      rw [nil_append] at newLevelSeps newLevelKids
      simp only [isEmpty_nil, if_true, Option.some.injEq, nil_append, Levels.rightOf,
        List.isEmpty_iff] at rest newLevelSeps newLevelKids counted
      rw [newLevelSeps, newLevelKids] at counted
      have rootSeps : removal.node.seps = bounds₁ ++ bounds₂ := by
        simpa using newLevelSeps
      by_cases empty : removal.node.seps = []
      · rw [if_pos empty] at rest
        subst rest
        refine ⟨rootSeps ▸ empty, ?_⟩
        rw [counted, ← rootSeps, empty]
        rfl
      · rw [if_neg empty] at rest
        subst rest
        refine ⟨newLevelSeps, newLevelKids, spec.shape, fun _ => rootSeps ▸ empty, ?_, rfl⟩
        have last := spec.shape.link_eq_none.mpr rfl
        simp [high_eq_none last]
    | cons upper higher =>
      rw [if_neg (by simp)] at rest
      have notTop : upper :: higher = [] → bounds₁ ++ bounds₂ ≠ [] := fun none =>
        absurd none (cons_ne_nil _ _)
      cases ascent : removal.ascent with
      | done =>
        obtain ⟨sameBounds, sameIds⟩ := spec.done ascent
        simp only [ascent, Option.some.injEq] at rest
        subst rest
        refine ⟨newLevelSeps, newLevelKids, spec.shape, notTop, ?_⟩
        rw [bounds_append, sameBounds, ← bounds_append, ids_append, sameIds,
          ← ids_append]
        exact aboveStacked
      | merged up =>
        obtain ⟨next, others, rfl, nonempty, high, changedBounds, changedIds⟩ :=
          spec.merged up ascent
        simp only [ascent] at rest
        obtain ⟨settled, settledEq, rfl⟩ := Option.map_eq_some_iff.mp rest
        refine ⟨newLevelSeps, newLevelKids, spec.shape, fun none => ?_, ?_⟩
        · intro empty
          have kept := newLevelSeps.trans empty
          simp only [seps_append, seps_cons, append_eq_nil_iff] at kept
          exact nonempty kept.2.1
        · rw [bounds_append, changedBounds, ids_append, changedIds]
          rw [bounds_append, bounds_cons, high] at aboveStacked oldBounds
          rw [ids_append] at aboveStacked
          exact ih aboveStacked shape.length_bounds_before.symm oldBounds settledEq
      | renamed up =>
        obtain ⟨old, high, lastEq, listed, changedBounds, changedIds⟩ := spec.renamed up ascent
        simp only [ascent, Option.some.injEq] at rest
        subst rest
        refine ⟨newLevelSeps, newLevelKids, spec.shape, fun none => ?_, ?_⟩
        · exact absurd none (by simp [rename_eq_nil])
        · rw [bounds_append, changedBounds] at newBounds ⊢
          rw [ids_append, changedIds]
          rw [bounds_append, bounds_cons, high] at aboveStacked oldBounds
          rw [ids_append] at aboveStacked
          refine rename_stacked aboveStacked shape.length_bounds_before.symm oldBounds newBounds ?_
          have nodeAscending : Ascending keyOf node.view.seps := by
            rw [← seps, seps_append, seps_cons] at rising
            exact (ascending_append.mp (ascending_append.mp rising).2.1).1
          exact nodeAscending.le_getLast lastEq up (mem_of_mem_dropLast listed)

end Settle

end IndexResearch.FBTree
