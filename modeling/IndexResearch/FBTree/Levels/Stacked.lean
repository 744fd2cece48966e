import IndexResearch.FBTree.Levels

/-!
# The invariant of the levels

The separators of a level are the high keys of the level below and its children are
the nodes of the level below.  From this a key leads, on every level, to the parent of
the node it leads to on the level below.
-/

namespace IndexResearch.FBTree

open List

variable {K H V : Type} {size : NodeSize}

/-- The form of a node: only one without a sibling may lack separators, and it has one
more child than separators. -/
structure LevelNode.Sound (size : NodeSize) (node : LevelNode H) : Prop where
  seps_ne_nil : node.view.link ≠ none → node.view.seps ≠ []
  kids_length : node.view.kids.length =
    node.view.seps.length + if node.view.link.isSome then 0 else 1
  seps_le : node.view.seps.length ≤ size.slots

namespace Level

@[simp] theorem ids_nil : ids ([] : Level H) = [] := rfl

@[simp] theorem seps_nil : seps ([] : Level H) = [] := rfl

@[simp] theorem kids_nil : kids ([] : Level H) = [] := rfl

@[simp] theorem bounds_nil : bounds ([] : Level H) = [] := rfl

@[simp] theorem ids_cons (node : LevelNode H) (level : Level H) :
    ids (node :: level) = node.id :: ids level := rfl

@[simp] theorem ids_append (left right : Level H) : ids (left ++ right) = ids left ++ ids right :=
  map_append

@[simp] theorem seps_cons (node : LevelNode H) (level : Level H) :
    seps (node :: level) = node.view.seps ++ seps level := flatMap_cons

@[simp] theorem seps_append (left right : Level H) :
    seps (left ++ right) = seps left ++ seps right := flatMap_append

@[simp] theorem kids_cons (node : LevelNode H) (level : Level H) :
    kids (node :: level) = node.view.kids ++ kids level := flatMap_cons

@[simp] theorem kids_append (left right : Level H) :
    kids (left ++ right) = kids left ++ kids right := flatMap_append

@[simp] theorem bounds_cons (node : LevelNode H) (level : Level H) :
    bounds (node :: level) = node.high.toList ++ bounds level := by
  rw [bounds, bounds, filterMap_cons]
  cases node.high with
  | none => rfl
  | some high => rfl

@[simp] theorem bounds_append (left right : Level H) :
    bounds (left ++ right) = bounds left ++ bounds right := filterMap_append

structure Shape (size : NodeSize) (level : Level H) : Prop where
  nonempty : level ≠ []
  linked : Linked LevelNode.id (fun node => node.view.link) none level
  sound : ∀ node ∈ level, node.Sound size

theorem high_eq_some {node : LevelNode H} {high : H} :
    node.high = some high ↔ node.view.link ≠ none ∧ node.view.seps.getLast? = some high := by
  rw [LevelNode.high]
  cases node.view.link with
  | none => simp
  | some next => simp

theorem high_eq_none {node : LevelNode H} (last : node.view.link = none) : node.high = none := by
  rw [LevelNode.high, last]
  rfl

theorem bounds_sublist (level : Level H) : (bounds level).Sublist (seps level) := by
  induction level with
  | nil => exact List.Sublist.refl _
  | cons node rest ih =>
    rw [bounds_cons, seps_cons]
    apply List.Sublist.append _ ih
    rcases highEq : node.high with _ | high
    · exact nil_sublist _
    · have last := (high_eq_some.mp highEq).2
      exact singleton_sublist.mpr (mem_of_getLast? last)

namespace Shape

variable {level before after : Level H} {node : LevelNode H}

theorem link_ne_none (shape : Shape size (before ++ node :: after)) :
    ∀ other ∈ before, other.view.link ≠ none := by
  intro other listed
  obtain ⟨front, back, rfl⟩ := append_of_mem listed
  have linked := shape.linked
  rw [append_assoc, cons_append] at linked
  intro none
  exact absurd (linked.link_eq_none.mp none) (by simp)

theorem link_eq_none (shape : Shape size (before ++ node :: after)) :
    node.view.link = none ↔ after = [] :=
  shape.linked.link_eq_none

theorem high_isSome (shape : Shape size level) (listed : node ∈ level)
    (sibling : node.view.link ≠ none) :
    ∃ high, node.high = some high ∧ node.view.seps.getLast? = some high := by
  obtain ⟨front, last, split⟩ := eq_nil_or_concat node.view.seps |>.resolve_left
    ((shape.sound node listed).seps_ne_nil sibling)
  have lastEq : node.view.seps.getLast? = some last := by simp [split]
  exact ⟨last, high_eq_some.mpr ⟨sibling, lastEq⟩, lastEq⟩

theorem length_kids_before (shape : Shape size (before ++ node :: after)) :
    (kids before).length = (seps before).length := by
  have each : ∀ other ∈ before, other.view.kids.length = other.view.seps.length := by
    intro other listed
    have counted := (shape.sound other (mem_append_left _ listed)).kids_length
    rwa [if_pos (Option.isSome_iff_ne_none.mpr (shape.link_ne_none other listed)),
      Nat.add_zero] at counted
  clear shape
  induction before with
  | nil => rfl
  | cons first rest ih =>
    rw [kids_cons, seps_cons, length_append, length_append,
      each first mem_cons_self, ih fun other listed =>
        each other (mem_cons_of_mem first listed)]

theorem length_bounds_before (shape : Shape size (before ++ node :: after)) :
    (bounds before).length = (ids before).length := by
  rw [ids, length_map, bounds]
  apply filterMap_length_eq_length.mpr
  intro other listed
  obtain ⟨high, highEq, _⟩ := shape.high_isSome (mem_append_left _ listed)
    (shape.link_ne_none other listed)
  rw [highEq]
  rfl

theorem patch (old new : Level H) (shape : Shape size (before ++ (old ++ after)))
    (newNonempty : new ≠ []) (heads : new.head?.map LevelNode.id = old.head?.map LevelNode.id)
    (linked : Linked LevelNode.id (fun node => node.view.link) (after.head?.map LevelNode.id) new)
    (sound : ∀ node ∈ new, node.Sound size) : Shape size (before ++ (new ++ after)) where
  nonempty := by simp [newNonempty]
  linked := shape.linked.patch newNonempty heads (by simpa using linked)
  sound := by
    intro node listed
    rcases mem_append.mp listed with inBefore | inRest
    · exact shape.sound node (mem_append_left _ inBefore)
    · rcases mem_append.mp inRest with inNew | inAfter
      · exact sound node inNew
      · exact shape.sound node (mem_append_right _ (mem_append_right _ inAfter))

theorem length_kids (shape : Shape size (before ++ [node])) :
    (kids (before ++ [node])).length = (seps (before ++ [node])).length + 1 := by
  have last : node.view.link = none := shape.link_eq_none.mpr rfl
  have counted := (shape.sound node (by simp)).kids_length
  rw [last] at counted
  simp only [kids_append, seps_append, kids_cons, seps_cons, length_append,
    shape.length_kids_before, counted]
  simp [kids, seps]
  omega

end Shape

end Level

def Stacked (size : NodeSize) : List H → List Ptr → List (Level H) → Prop
  | bounds, ids, [] => bounds = [] ∧ ids.length = 1
  | bounds, ids, level :: above =>
    level.seps = bounds ∧ level.kids = ids ∧ level.Shape size ∧ (above = [] → bounds ≠ []) ∧
      Stacked size level.bounds level.ids above

theorem Level.parent_unique {level : Level H} {left right : LevelNode H} {child : Ptr}
    (distinct : level.kids.Nodup) (leftListed : left ∈ level) (rightListed : right ∈ level)
    (leftChild : child ∈ left.view.kids) (rightChild : child ∈ right.view.kids) : left = right := by
  by_contra different
  have disjoint := (nodup_flatMap.mp distinct).2
  have symmetric : Std.Symm (Function.onFun List.Disjoint fun node :
    LevelNode H => node.view.kids) :=
    ⟨fun _ _ apart => apart.symm⟩
  exact disjoint.forall leftListed rightListed different leftChild rightChild

theorem Stacked.shape {bounds : List H} {ids : List Ptr} {levels : List (Level H)} {level : Level H}
    (stacked : Stacked size bounds ids levels) (listed : level ∈ levels) : level.Shape size := by
  induction levels generalizing bounds ids with
  | nil => exact absurd listed not_mem_nil
  | cons first above ih =>
    obtain ⟨_, _, shape, _, aboveStacked⟩ := stacked
    rcases mem_cons.mp listed with rfl | later
    · exact shape
    · exact ih aboveStacked later

/-! ## The node that a key leads to -/

section Locate

variable [LinearOrder K] {keyOf : H → K} {level before after : Level H} {node : LevelNode H}
  {key : K}

theorem Stacked.ascending {bounds : List H} {ids : List Ptr} {levels : List (Level H)}
    (stacked : Stacked size bounds ids levels) (sorted : Ascending keyOf bounds)
    (listed : level ∈ levels) : Ascending keyOf level.seps := by
  induction levels generalizing bounds ids with
  | nil => exact absurd listed not_mem_nil
  | cons first above ih =>
    obtain ⟨seps, _, _, _, aboveStacked⟩ := stacked
    rw [← seps] at sorted
    rcases mem_cons.mp listed with rfl | later
    · exact sorted
    · exact ih aboveStacked
        (List.Pairwise.sublist (Level.bounds_sublist first) sorted) later

structure Located (keyOf : H → K) (key : K) (before : Level H) (node : LevelNode H)
    (after : Level H) : Prop where
  smaller : ∀ sep ∈ before.seps ++ node.view.seps.take (rankIn keyOf node.view.seps key),
    keyOf sep < key
  notSmaller : ∀ sep ∈ node.view.seps.drop (rankIn keyOf node.view.seps key) ++ after.seps,
    ¬keyOf sep < key
  /-- The position is that of a child. -/
  inside : rankIn keyOf node.view.seps key < node.view.kids.length
  /-- Only in the last node the key can be greater than all separators. -/
  last : rankIn keyOf node.view.seps key = node.view.seps.length → node.view.link = none

theorem exists_nodeOf (keyOf : H → K) (shape : level.Shape size) (key : K) :
    ∃ before node after, Levels.nodeOf keyOf level key = some (before, node, after) := by
  obtain ⟨front, last, split⟩ := eq_nil_or_concat level |>.resolve_left shape.nonempty
  rw [concat_eq_append] at split
  have stop : stopsAt keyOf key last.high = true := by
    rw [split] at shape
    rw [Level.high_eq_none (shape.link_eq_none.mpr rfl)]
    rfl
  exact exists_focus (show last ∈ level by simp [split]) stop

theorem located_of_nodeOf (shape : level.Shape size) (rising : Ascending keyOf level.seps)
    (found : Levels.nodeOf keyOf level key = some (before, node, after)) :
    level = before ++ node :: after ∧ Located keyOf key before node after := by
  obtain ⟨rfl, passed, stop⟩ := focus_eq_some.mp found
  refine ⟨rfl, ?_⟩
  simp only [Level.seps_append, Level.seps_cons] at rising
  obtain ⟨beforeAscending, restAscending, _⟩ := ascending_append.mp rising
  obtain ⟨nodeAscending, _, across⟩ := ascending_append.mp restAscending
  have beforeSmaller : ∀ sep ∈ before.seps, keyOf sep < key := by
    intro sep listed
    obtain ⟨other, otherListed, sepListed⟩ := mem_flatMap.mp listed
    obtain ⟨high, highEq, lastEq⟩ := shape.high_isSome (mem_append_left _ otherListed)
      (shape.link_ne_none other otherListed)
    have highBelow : keyOf high < key := by
      have go := passed other otherListed
      simpa [stopsAt, highEq] using go
    have otherAscending : Ascending keyOf other.view.seps := by
      obtain ⟨front, back, rfl⟩ := append_of_mem otherListed
      simp only [Level.seps_append, Level.seps_cons] at beforeAscending
      exact (ascending_append.mp (ascending_append.mp beforeAscending).2.1).1
    exact lt_of_le_of_lt (otherAscending.le_getLast lastEq sep sepListed) highBelow
  have highNotSmaller : ∀ high, node.high = some high → ¬keyOf high < key := by
    intro high highEq
    simpa [stopsAt, highEq] using stop
  have nodeListed : node ∈ before ++ node :: after := by simp
  have lastNode : rankIn keyOf node.view.seps key = node.view.seps.length →
      node.view.link = none := by
    intro all
    by_contra sibling
    obtain ⟨high, highEq, lastEq⟩ := shape.high_isSome nodeListed sibling
    apply highNotSmaller high highEq
    apply nodeAscending.take_lt key high
    rw [all, take_length]
    exact mem_of_getLast? lastEq
  refine ⟨?_, ?_, ?_, lastNode⟩
  · intro sep listed
    rcases mem_append.mp listed with inBefore | inNode
    · exact beforeSmaller sep inBefore
    · exact nodeAscending.take_lt key sep inNode
  · intro sep listed
    rcases mem_append.mp listed with inNode | inAfter
    · exact nodeAscending.drop_not_lt key sep inNode
    · have sibling : node.view.link ≠ none := by
        intro none
        rw [shape.link_eq_none.mp none] at inAfter
        exact absurd inAfter not_mem_nil
      obtain ⟨high, highEq, lastEq⟩ := shape.high_isSome nodeListed sibling
      have below := across high (mem_of_getLast? lastEq) sep inAfter
      exact fun smaller => highNotSmaller high highEq (lt_trans below smaller)
  · have counted := (shape.sound node nodeListed).kids_length
    have bounded : rankIn keyOf node.view.seps key ≤ node.view.seps.length := rankIn_le_length _ _
    rcases Nat.lt_or_eq_of_le bounded with less | all
    · omega
    · rw [lastNode all] at counted
      simp only [Option.isSome_none, Bool.false_eq_true, if_false] at counted
      omega

variable {bounds₁ bounds₂ : List H} {ids₁ ids₂ : List Ptr} {child : Ptr}

theorem Located.parent (located : Located keyOf key before node after)
    (shape : Level.Shape size (before ++ node :: after))
    (seps : Level.seps (before ++ node :: after) = bounds₁ ++ bounds₂)
    (kids : Level.kids (before ++ node :: after) = ids₁ ++ child :: ids₂)
    (sameLength : ids₁.length = bounds₁.length) (smaller : ∀ bound ∈ bounds₁, keyOf bound < key)
    (notSmaller : ∀ bound ∈ bounds₂, ¬keyOf bound < key) :
    bounds₁ = before.seps ++ node.view.seps.take (rankIn keyOf node.view.seps key) ∧
    bounds₂ = node.view.seps.drop (rankIn keyOf node.view.seps key) ++ after.seps ∧
    ∃ rest, node.view.kids.drop (rankIn keyOf node.view.seps key) = child :: rest ∧
      ids₁ = before.kids ++ node.view.kids.take (rankIn keyOf node.view.seps key) ∧
      ids₂ = rest ++ after.kids := by
  generalize positionEq : rankIn keyOf node.view.seps key = pos
  have bounded : pos ≤ node.view.seps.length := positionEq ▸ rankIn_le_length _ _
  have inside : pos < node.view.kids.length := positionEq ▸ located.inside
  have sepsSplit : (before.seps ++ node.view.seps.take pos) ++
      (node.view.seps.drop pos ++ after.seps) = bounds₁ ++ bounds₂ := by
    rw [← seps, Level.seps_append, Level.seps_cons, append_assoc,
      ← append_assoc (node.view.seps.take pos), take_append_drop]
  obtain ⟨bounds₁Eq, bounds₂Eq⟩ := append_inj_of_rank sepsSplit (positionEq ▸ located.smaller)
    (positionEq ▸ located.notSmaller) smaller notSmaller
  have childHere := drop_eq_getElem_cons inside
  have kidsSplit : (before.kids ++ node.view.kids.take pos) ++
      (node.view.kids[pos] :: (node.view.kids.drop (pos + 1) ++ after.kids)) =
      ids₁ ++ child :: ids₂ := by
    rw [← kids, Level.kids_append, Level.kids_cons, ← cons_append, ← childHere,
      append_assoc, ← append_assoc (node.view.kids.take pos),
      take_append_drop]
  have lengths : (before.kids ++ node.view.kids.take pos).length = ids₁.length := by
    rw [sameLength, ← bounds₁Eq, length_append, length_append, length_take,
      length_take, shape.length_kids_before]
    omega
  obtain ⟨ids₁Eq, restEq⟩ := append_inj kidsSplit lengths
  obtain ⟨childEq, ids₂Eq⟩ := List.cons.inj restEq
  refine ⟨bounds₁Eq.symm, bounds₂Eq.symm, node.view.kids.drop (pos + 1), ?_, ids₁Eq.symm,
    ids₂Eq.symm⟩
  rw [childHere, childEq]

end Locate

end IndexResearch.FBTree
