import IndexResearch.BLinkTree.Lookup

/-!
# Insertion into the B-link tree

When a node has been split, its cell in the level above becomes two.  The node that holds
the cell takes them, or is split itself.
-/

namespace IndexResearch.BLinkTree

open LinkedLevels List

variable {K V : Type}

def widen (branch : Branch (WithTop K) Ptr) (left right : List (WithTop K × Ptr))
    (bound : WithTop K) (current : Ptr) (leftKey : K) (new : Ptr) : Branch (WithTop K) Ptr :=
  { branch with
    cells := left ++ ((leftKey : WithTop K), current) :: (bound, new) :: right
    nonempty := by simp }

namespace BLinkNode.IsBranch

variable {size : Nat} {node : BLinkNode K V} {branch : Branch (WithTop K) Ptr} {keys : List K}
  {left right : List (WithTop K × Ptr)} {bound : WithTop K} {current : Ptr}

theorem widen_bound (cells_eq : branch.cells = left ++ (bound, current) :: right) (leftKey : K)
    (new : Ptr) :
    (widen branch left right bound current leftKey new).bound = branch.bound := by
  simp only [Branch.bound, widen, cells_eq]
  cases right with
  | nil => simp
  | cons => simp

theorem widen_kids (cells_eq : branch.cells = left ++ (bound, current) :: right) (leftKey : K)
    (new : Ptr) :
    (widen branch left right bound current leftKey new).cells.map Prod.snd =
      insertAt (branch.cells.map Prod.snd) (left.length + 1) new := by
  have split : branch.cells.map Prod.snd =
    (left.map Prod.snd ++ [current]) ++ right.map Prod.snd := by
    rw [cells_eq]
    simp
  have length : left.length + 1 = (left.map Prod.snd ++ [current]).length := by simp
  rw [split, length, insertAt_append]
  simp [widen]

theorem widen_bounds (isBranch : IsBranch size node branch keys)
    (cells_eq : branch.cells = left ++ (bound, current) :: right) (leftKey : K) (new : Ptr) :
    (widen branch left right bound current leftKey new).cells.map Prod.fst =
      (insertAt keys left.length leftKey).map WithTop.some ++ ending branch.link := by
  have bounded : left.length ≤ (keys.map WithTop.some).length := by
    rw [length_map]
    rcases isBranch.position_cases cells_eq with less | ⟨equal, _⟩
    · exact Nat.le_of_lt less
    · exact Nat.le_of_eq equal
  have inserted : (widen branch left right bound current leftKey new).cells.map Prod.fst =
      insertAt (branch.cells.map Prod.fst) left.length (leftKey : WithTop K) := by
    have length : left.length = (left.map (Prod.fst : WithTop K × Ptr → _)).length := by simp
    rw [cells_eq, map_append, length, insertAt_append]
    simp [widen]
  rw [inserted, isBranch.bounds_eq, insertAt_append_left _ bounded, map_insertAt]

theorem cut {count : Nat} (inside : count < keys.length) (positive : 0 < count) (address : Ptr)
    (bounds_eq : branch.cells.map Prod.fst = keys.map WithTop.some ++ ending branch.link) :
    ∃ lower upper, branch.Splits address lower upper ∧ lower.cells = branch.cells.take count ∧
      upper.cells = branch.cells.drop count ∧
      lower.cells.map Prod.fst = (keys.take count).map WithTop.some ++ ending lower.link ∧
      upper.cells.map Prod.fst = (keys.drop count).map WithTop.some ++ ending upper.link := by
  have lengths := congrArg List.length bounds_eq
  rw [length_map, length_append, length_map] at lengths
  refine ⟨⟨branch.id, branch.cells.take count, ?_, some address⟩,
    ⟨address, branch.cells.drop count, ?_, branch.link⟩,
    ⟨rfl, rfl, rfl, rfl, take_append_drop _ _⟩, rfl, rfl, ?_, ?_⟩
  · exact ne_nil_of_length_pos (by rw [length_take]; omega)
  · exact ne_nil_of_length_pos (by rw [length_drop]; omega)
  · rw [map_take, bounds_eq, take_append_of_le_length (by rw [length_map]; omega),
      map_take, ending, append_nil]
  · rw [map_drop, bounds_eq, drop_append_of_le_length (by rw [length_map]; omega),
      map_drop]

section Max

variable [LinearOrder K]

theorem exists_maxKey (isBranch : IsBranch size node branch keys) :
    ∃ last, node.maxKey = .ok last ∧ (last : WithTop K) ≤ branch.bound ∧
      (branch.link ≠ none → branch.bound = last) := by
  obtain ⟨last, lastEq⟩ := Option.ne_none_iff_exists'.mp
    (getLast?_eq_none_iff.not.mpr isBranch.keys_ne)
  refine ⟨last, isBranch.toHoldsKeys.maxKey_eq lastEq, ?_⟩
  cases link : branch.link with
  | none =>
    rw [isBranch.bound_eq_top link]
    exact ⟨le_top, fun linked => absurd rfl linked⟩
  | some sibling =>
    obtain ⟨last', lastEq', boundEq⟩ := isBranch.bound_eq link
    cases lastEq.symm.trans lastEq'
    rw [boundEq]
    exact ⟨le_refl _, fun _ => rfl⟩

end Max

variable [LinearOrder K] [Inhabited K] [Inhabited V]

theorem innerInsert_spec (policy : SplitPolicy size) {address : Ptr} (notNull : address ≠ nullptr)
    (isBranch : IsBranch size node branch keys) (rising : Ascending Prod.fst branch.cells)
    (cells_eq : branch.cells = left ++ (bound, current) :: right)
    {leftKey : K} (smaller : ∀ cell ∈ left, cell.1 < leftKey) (upTo : (leftKey : WithTop K) ≤ bound)
    (new : Ptr) :
    (∃ placed keys', node.innerInsert policy address leftKey current new = .ok (placed, none) ∧
      placed.IsBranch size (widen branch left right bound current leftKey new) keys') ∨
    ∃ lowerNode upperNode lower upper lowerKeys upperKeys,
      node.innerInsert policy address leftKey current new = .ok (lowerNode, some upperNode) ∧
      (widen branch left right bound current leftKey new).Splits address lower upper ∧
      lowerNode.IsBranch size lower lowerKeys ∧ upperNode.IsBranch size upper upperKeys := by
  have scanned : node.nodeScan leftKey = .ok left.length := by
    rw [isBranch.toHoldsKeys.nodeScan_eq (isBranch.ascending_keys rising),
      isBranch.rankIn_keys rising cells_eq smaller upTo]
  have pos := isBranch.position_cases cells_eq
  have bounded : left.length ≤ keys.length := by omega
  have lengths := isBranch.length_cells
  have kidsGe : keys.length ≤ (branch.cells.map Prod.snd).length := by
    rw [length_map]
    omega
  have behind : left.length + 1 ≤ (branch.cells.map Prod.snd).length := by
    rw [length_map, cells_eq, length_append, length_cons]
    omega
  have bounds := isBranch.widen_bounds cells_eq leftKey new
  have kids := widen_kids cells_eq leftKey new
  have placing : node.innerInsert policy address leftKey current new =
      node.innerPlace policy address leftKey current new left.length := by
    rw [innerInsert, assert_eq (by rw [isBranch.kind]; rfl), scanned]
    simp only [bind, Except.bind]
    rw [assert_eq (decide_eq_true (by rwa [isBranch.itemCnt_eq, isBranch.sibling_eq]))]
  rw [placing]
  by_cases safe : policy.safe keys.length = true
  · obtain ⟨placed, placedEq, isInner⟩ := isBranch.toIsInner.innerPlace_safe policy address
      isBranch.keys_ne safe bounded behind leftKey current new
    refine .inl ⟨placed, _, placedEq, ?_, ?_, bounds, isBranch.link_ne⟩
    · rw [kids]
      exact isInner
    · exact ne_nil_of_length_pos (by rw [length_insertAt]; omega)
  · obtain ⟨lowerNode, upperNode, splitEq, isLower, isUpper⟩ :=
      isBranch.toIsInner.innerPlace_split policy address safe bounded kidsGe behind leftKey current
        new
    have positive := length_pos_of_ne_nil isBranch.keys_ne
    have inside : keys.length / 2 + 1 < (insertAt keys left.length leftKey).length := by
      rw [length_insertAt]
      omega
    obtain ⟨lower, upper, splits, lowerCells, upperCells, lowerBounds, upperBounds⟩ :=
      cut inside (Nat.succ_pos _) address bounds
    refine .inr ⟨lowerNode, upperNode, lower, upper, _, _, splitEq, splits,
      ⟨?_, ?_, lowerBounds, ?_⟩, ⟨?_, ?_, upperBounds, ?_⟩⟩
    · rw [lowerCells, map_take, kids, splits.lowerLink]
      exact isLower
    · exact ne_nil_of_length_pos (by rw [length_take, length_insertAt]; omega)
    · rw [splits.lowerLink]
      exact fun same => notNull (Option.some.inj same)
    · rw [upperCells, map_drop, kids, splits.upperLink]
      exact isUpper
    · exact ne_nil_of_length_pos (by rw [length_drop, length_insertAt]; omega)
    · rw [splits.upperLink]
      exact isBranch.link_ne

end BLinkNode.IsBranch

namespace Tree

section Writes

variable {tree : Tree K V} {ptr other : Ptr} {node placed : BLinkNode K V}

theorem write_self : (tree.write ptr node).nodes ptr = some node := Function.update_self _ _ _

theorem write_of_ne (different : other ≠ ptr) :
    (tree.write ptr node).nodes other = tree.nodes other :=
  Function.update_of_ne different _ _

theorem allocate_self : (tree.allocate node).nodes tree.fresh = some node := write_self

theorem allocate_of_ne (different : other ≠ tree.fresh) :
    (tree.allocate node).nodes other = tree.nodes other := write_of_ne different

theorem allocate_write_self (inside : ptr < tree.fresh) :
    ((tree.write ptr node).allocate placed).nodes ptr = some node := by
  have notFresh : ptr ≠ (tree.write ptr node).fresh := Nat.ne_of_lt inside
  rw [allocate_of_ne notFresh, write_self]

theorem allocate_write_of_ne (different : other ≠ ptr) (inside : other < tree.fresh) :
    ((tree.write ptr node).allocate placed).nodes other = tree.nodes other := by
  have notFresh : other ≠ (tree.write ptr node).fresh := Nat.ne_of_lt inside
  rw [allocate_of_ne notFresh, write_of_ne different]

theorem setUpperLevel_eq (upper : Ptr) (found : tree.nodes ptr = some node) :
    tree.setUpperLevel ptr upper = .ok (tree.write ptr { node with upperLevel := upper }) := by
  rw [setUpperLevel, nodeAt_eq found]
  rfl

theorem keeps_write_upperLevel {upper : Ptr} (found : tree.nodes ptr = some node) (other : Ptr) :
    tree.Keeps (tree.write ptr { node with upperLevel := upper }) other := by
  intro stored storedEq
  by_cases same : other = ptr
  · subst same
    cases found.symm.trans storedEq
    exact ⟨upper, write_self⟩
  · exact ⟨stored.upperLevel, (write_of_ne same).trans storedEq⟩

end Writes

structure Grown (size : Nat) (tree tree' : Tree K V) (cells : List (WithTop K × Ptr))
    (rows rows' : List (List (Branch (WithTop K) Ptr))) : Prop extends tree'.Holds size rows' where
  stacked : Stacked (⊤, tree'.root) cells rows'
  grown : tree.fresh ≤ tree'.fresh
  new : ∀ ptr ∈ rowIds rows', ptr ∈ rowIds rows ∨ tree.fresh ≤ ptr
  kept : ∀ ptr, ptr ∉ rowIds rows → ptr < tree.fresh → tree.Keeps tree' ptr

section Row

variable {tree tree' : Tree K V} {size : Nat} {above rows' : List (List (Branch (WithTop K) Ptr))}
  {front back : List (Branch (WithTop K) Ptr)} {branch wide lower upper : Branch (WithTop K) Ptr}
  {cells : List (WithTop K × Ptr)}

theorem Holds.row_distinct (holds : tree.Holds size ((front ++ branch :: back) :: above)) :
    branch.id ∉ front.map Branch.id ++ back.map Branch.id ∧
      ∀ ptr ∈ (front ++ branch :: back).map Branch.id, ptr ∉ rowIds above := by
  have distinct := holds.nodup
  rw [rowIds, flatMap_cons, nodup_append] at distinct
  constructor
  · have row := distinct.1
    rw [map_append, map_cons, nodup_append, nodup_cons] at row
    rw [mem_append]
    rintro (inFront | inBack)
    · exact row.2.2 _ inFront _ mem_cons_self rfl
    · exact row.2.1.1 inBack
  · exact fun ptr listed inAbove => distinct.2.2 ptr listed ptr inAbove rfl

theorem Holds.branch_allocated (holds : tree.Holds size ((front ++ branch :: back) :: above))
    {ptr : Ptr} (listed : ptr ∈ (front ++ branch :: back).map Branch.id) : ptr < tree.fresh :=
  (holds.allocated ptr (mem_append_left _ listed)).2

theorem mem_row_of_mem_rest {ptr : Ptr} (listed : ptr ∈ front.map Branch.id ++ back.map Branch.id) :
    ptr ∈ (front ++ branch :: back).map Branch.id := by
  rw [map_append, map_cons]
  rcases mem_append.mp listed with inFront | inBack
  · exact mem_append_left _ inFront
  · exact mem_append_right _ (mem_cons_of_mem _ inBack)

theorem branch_mem_row : branch.id ∈ (front ++ branch :: back).map Branch.id :=
  mem_map_of_mem mem_append_cons_self

theorem grown_whole {placed : BLinkNode K V} {keys : List K}
    (holds : tree.Holds size ((front ++ branch :: back) :: above))
    (stacked : Stacked (⊤, tree.root) cells ((front ++ branch :: back) :: above))
    (sameCell : wide.cell = branch.cell) (sameLink : wide.link = branch.link)
    (isBranch : placed.IsBranch size wide keys) :
    tree.Grown size (tree.write branch.id placed)
      (front.flatMap Branch.cells ++ (wide.cells ++ back.flatMap Branch.cells))
      ((front ++ branch :: back) :: above) ((front ++ ([wide] ++ back)) :: above) := by
  obtain ⟨notRest, apart⟩ := holds.row_distinct
  have sameId : wide.id = branch.id := congrArg Prod.snd sameCell
  have aboveHolds : (tree.write branch.id placed).Holds size above := by
    refine holds.above.frame ?_ le_rfl
    intro ptr listed
    refine Keeps.of_eq (write_of_ne ?_)
    rintro rfl
    exact apart _ branch_mem_row listed
  have rowHolds : (tree.write branch.id placed).Holds size
    ((front ++ ([wide] ++ back)) :: above) := by
    refine holds.exchange aboveHolds le_rfl ?_ ?_ ?_ ?_ ?_
    · intro ptr listed
      refine Keeps.of_eq (write_of_ne ?_)
      rintro rfl
      exact notRest listed
    · intro other listed
      obtain rfl := mem_singleton.mp listed
      exact ⟨placed, keys, by rw [sameId]; exact write_self, isBranch⟩
    · exact nodup_singleton _
    · intro other listed
      obtain rfl := mem_singleton.mp listed
      exact .inl sameId
    · exact fun ptr listed => .inl listed
  refine { rowHolds with stacked := ?_, grown := Nat.le_refl _, new := ?_, kept := ?_ }
  · have higher := stacked.2.2
    rw [map_append, map_cons] at higher
    have exchanged : Stacked (⊤, tree.root) (front.flatMap Branch.cells ++
        ([wide].flatMap Branch.cells ++ back.flatMap Branch.cells))
        ((front ++ ([wide] ++ back)) :: above) := by
      refine stacked.exchange nofun (congrArg some sameId) ⟨sameLink, trivial⟩ ?_
      rw [map_singleton, sameCell]
      exact higher
    rwa [flatMap_singleton] at exchanged
  · intro ptr listed
    left
    rw [rowIds, flatMap_cons, mem_append] at listed ⊢
    rcases listed with inRow | inAbove
    · left
      rw [map_append, map_append, map_singleton, sameId] at inRow
      rw [map_append, map_cons]
      exact inRow
    · exact .inr inAbove
  · intro ptr notListed inside
    refine Keeps.of_eq (write_of_ne ?_)
    rintro rfl
    exact notListed (mem_append_left _ branch_mem_row)

theorem grown_split {lowerNode upperNode : BLinkNode K V} {lowerKeys upperKeys : List K}
    (holds : tree.Holds size ((front ++ branch :: back) :: above))
    (stacked : Stacked (⊤, tree.root) cells ((front ++ branch :: back) :: above))
    (sameId : wide.id = branch.id) (sameLink : wide.link = branch.link)
    (splits : wide.Splits tree.fresh lower upper)
    (isLower : lowerNode.IsBranch size lower lowerKeys)
    (isUpper : upperNode.IsBranch size upper upperKeys)
    (higher : ((tree.write branch.id lowerNode).allocate upperNode).Grown size tree'
      (front.map Branch.cell ++ (lower.cell :: upper.cell :: back.map Branch.cell)) above rows') :
    tree.Grown size tree' (front.flatMap Branch.cells ++ (wide.cells ++ back.flatMap Branch.cells))
      ((front ++ branch :: back) :: above) ((front ++ ([lower, upper] ++ back)) :: rows') := by
  obtain ⟨notRest, apart⟩ := holds.row_distinct
  have branchInside : branch.id < tree.fresh := holds.branch_allocated branch_mem_row
  have lowerId : lower.id = branch.id := splits.lowerId.trans sameId
  have grown : tree.fresh + 1 ≤ tree'.fresh := higher.grown
  have keptFirst {ptr : Ptr} (notBranch : ptr ≠ branch.id) (inside : ptr < tree.fresh) :
      tree.Keeps ((tree.write branch.id lowerNode).allocate upperNode) ptr :=
    Keeps.of_eq (allocate_write_of_ne notBranch inside)
  have lowerStored : ((tree.write branch.id lowerNode).allocate upperNode).Stores size lower := by
    refine ⟨lowerNode, lowerKeys, ?_, isLower⟩
    rw [lowerId]
    exact allocate_write_self branchInside
  have upperStored : ((tree.write branch.id lowerNode).allocate upperNode).Stores size upper := by
    refine ⟨upperNode, upperKeys, ?_, isUpper⟩
    rw [splits.upperId]
    exact allocate_self
  have rowHolds : tree'.Holds size ((front ++ ([lower, upper] ++ back)) :: rows') := by
    refine holds.exchange higher.toHolds (Nat.le_of_succ_le grown) ?_ ?_ ?_ ?_ ?_
    · intro ptr listed
      have inside := holds.branch_allocated (mem_row_of_mem_rest listed)
      have notBranch : ptr ≠ branch.id := by
        rintro rfl
        exact notRest listed
      exact (keptFirst notBranch inside).trans
        (higher.kept ptr (apart ptr (mem_row_of_mem_rest listed)) (Nat.lt_succ_of_lt inside))
    · intro other listed
      rcases mem_cons.mp listed with rfl | listed
      · apply lowerStored.frame
        rw [lowerId]
        exact higher.kept _ (apart _ branch_mem_row) (Nat.lt_succ_of_lt branchInside)
      · obtain rfl := mem_singleton.mp listed
        apply upperStored.frame
        rw [splits.upperId]
        refine higher.kept _ ?_ (Nat.lt_succ_self _)
        intro inAbove
        exact absurd (holds.above.allocated _ inAbove).2 (Nat.lt_irrefl _)
    · rw [map_cons, map_singleton, lowerId, splits.upperId, nodup_cons,
        mem_singleton]
      exact ⟨Nat.ne_of_lt branchInside, nodup_singleton _⟩
    · intro other listed
      rcases mem_cons.mp listed with rfl | listed
      · exact .inl lowerId
      · obtain rfl := mem_singleton.mp listed
        right
        rw [splits.upperId]
        exact ⟨Nat.le_refl _, grown⟩
    · intro ptr listed
      rcases higher.new ptr listed with old | new
      · exact .inl old
      · have newer : tree.fresh + 1 ≤ ptr := new
        refine .inr ⟨Nat.le_of_succ_le newer, ?_⟩
        rw [map_cons, map_singleton, lowerId, splits.upperId, mem_cons,
          mem_singleton]
        rintro (rfl | rfl)
        · exact absurd newer (Nat.not_le.mpr (Nat.lt_succ_of_lt branchInside))
        · exact Nat.not_succ_le_self _ newer
  refine { rowHolds with
    stacked := ?_, grown := Nat.le_of_succ_le grown, new := ?_, kept := ?_ }
  · have exchanged : Stacked (⊤, tree'.root) (front.flatMap Branch.cells ++
        ([lower, upper].flatMap Branch.cells ++ back.flatMap Branch.cells))
        ((front ++ ([lower, upper] ++ back)) :: rows') := by
      refine stacked.exchange nofun (congrArg some lowerId) ⟨?_, ?_, trivial⟩ higher.stacked
      · rw [splits.lowerLink, ← splits.upperId]
        rfl
      · rw [splits.upperLink, sameLink]
        rfl
    rwa [flatMap_cons, flatMap_singleton, splits.cells_eq] at exchanged
  · intro ptr listed
    rw [rowIds, flatMap_cons, mem_append] at listed
    rcases listed with inRow | inAbove
    · rw [map_append, map_append, map_cons, map_singleton, lowerId,
        splits.upperId, mem_append, mem_append, mem_cons,
          mem_singleton] at inRow
      rcases inRow with inFront | (rfl | rfl) | inBack
      · exact .inl (mem_append_left _ (mem_row_of_mem_rest (mem_append_left _ inFront)))
      · exact .inl (mem_append_left _ branch_mem_row)
      · exact .inr le_rfl
      · exact .inl (mem_append_left _ (mem_row_of_mem_rest (mem_append_right _ inBack)))
    · rcases higher.new ptr inAbove with old | new
      · exact .inl (mem_append_right _ old)
      · exact .inr (Nat.le_of_succ_le new)
  · intro ptr notListed inside
    rw [rowIds, flatMap_cons, mem_append, not_or] at notListed
    have notBranch : ptr ≠ branch.id := by
      rintro rfl
      exact notListed.1 branch_mem_row
    exact (keptFirst notBranch inside).trans
      (higher.kept ptr notListed.2 (Nat.lt_succ_of_lt inside))

end Row

variable [Inhabited K] [Inhabited V] (params : Parameters) {tree : Tree K V}
  {current new : Ptr} (stack : List Ptr)

theorem above_root {left right : BLinkNode K V} (atRoot : current = tree.root)
    (leftEq : tree.nodes current = some left) (rightEq : tree.nodes new = some right)
    (allocated : current < tree.fresh ∧ new < tree.fresh) (different : current ≠ new) :
    ∃ grown, tree.above params stack current new = .ok (grown, tree.fresh, stack) ∧
      grown.root = tree.fresh ∧ grown.fresh = tree.fresh + 1 ∧
      grown.nodes tree.fresh = some (.new params.innerNodeSize false) ∧
      ∀ ptr, ptr < tree.fresh → tree.Keeps grown ptr := by
  have currentNe : current ≠ tree.fresh := Nat.ne_of_lt allocated.1
  have newNe : new ≠ tree.fresh := Nat.ne_of_lt allocated.2
  have first : (tree.allocate (.new params.innerNodeSize false)).nodes current = some left :=
    (allocate_of_ne currentNe).trans leftEq
  have second : ((tree.allocate (.new params.innerNodeSize false)).write current
      { left with upperLevel := tree.fresh }).nodes new = some right :=
    (write_of_ne (Ne.symm different)).trans ((allocate_of_ne newNe).trans rightEq)
  unfold above
  rw [if_pos atRoot]
  simp only [bind, Except.bind]
  rw [setUpperLevel_eq tree.fresh first]
  simp only
  rw [setUpperLevel_eq tree.fresh second]
  refine ⟨_, rfl, rfl, rfl, ?_, ?_⟩
  · exact (write_of_ne (Ne.symm newNe)).trans
      ((write_of_ne (Ne.symm currentNe)).trans allocate_self)
  · intro ptr inside
    apply Keeps.trans (Keeps.of_eq (allocate_of_ne (Nat.ne_of_lt inside)))
    exact (keeps_write_upperLevel first ptr).trans (keeps_write_upperLevel second ptr)

variable [LinearOrder K]

theorem ascend_root {leftKey rightKey : K} {left right : BLinkNode K V} (fuel : Nat)
    (atRoot : current = tree.root)
    (leftEq : tree.nodes current = some left) (leftMax : left.maxKey = .ok leftKey)
    (rightEq : tree.nodes new = some right) (rightMax : right.maxKey = .ok rightKey)
    (allocated : current < tree.fresh ∧ new < tree.fresh) (different : current ≠ new) :
    ∃ tree' rows', ascend params (fuel + 1) tree stack current new = .ok tree' ∧
      tree.Grown params.innerNodeSize tree' [((leftKey : WithTop K), current), (⊤, new)] []
        rows' := by
  obtain ⟨grown, aboveEq, rootEq, freshEq, workEq, kept⟩ :=
    above_root params stack atRoot leftEq rightEq allocated different
  have isInner : BLinkNode.IsInner params.innerNodeSize
      (.new params.innerNodeSize false : BLinkNode K V) [] [] nullptr :=
    BLinkNode.isInner_new params.innerPolicy
  obtain ⟨placed, placedEq, isPlaced⟩ :=
    BLinkNode.innerPlace_root params.innerPolicy grown.fresh isInner leftKey current new
  have stays : grown.moveRight rightKey grown.fresh tree.fresh = .ok tree.fresh := by
    rw [freshEq, moveRight, nodeAt_eq workEq]
    rfl
  have inserted : BLinkNode.innerInsert params.innerPolicy (.new params.innerNodeSize false)
      grown.fresh leftKey current new = .ok (placed, none) := placedEq
  rw [ascend, nodeAt_eq rightEq]
  simp only [ok_bind, rightMax, nodeAt_eq leftEq, leftMax, aboveEq, stays,
    nodeAt_eq workEq, inserted]
  have positive : 0 < tree.fresh := Nat.zero_lt_of_lt allocated.1
  refine ⟨_, [[⟨tree.fresh, [(leftKey, current), (⊤, new)], (by simp), none⟩]], rfl, ⟨?_, ?_, ?_⟩,
    ?_, ?_, ?_, ?_⟩
  · intro row rowListed branch listed
    obtain rfl := mem_singleton.mp rowListed
    obtain rfl := mem_singleton.mp listed
    exact ⟨placed, [leftKey], write_self, isPlaced, (by simp), rfl, (by simp)⟩
  · exact nodup_singleton _
  · intro ptr listed
    obtain rfl := mem_singleton.mp listed
    refine ⟨Nat.ne_of_gt positive, ?_⟩
    change tree.fresh < grown.fresh
    rw [freshEq]
    exact Nat.lt_succ_self _
  · refine ⟨rfl, ⟨rfl, trivial⟩, ?_⟩
    rw [← rootEq]
    rfl
  · change tree.fresh ≤ grown.fresh
    rw [freshEq]
    exact Nat.le_succ _
  · intro ptr listed
    exact .inr (Nat.le_of_eq (mem_singleton.mp listed).symm)
  · intro ptr _ inside
    exact (kept ptr inside).trans (Keeps.of_eq (write_of_ne (Nat.ne_of_lt inside)))

variable {rows : List (List (Branch (WithTop K) Ptr))} {before after : List (WithTop K × Ptr)}
  {bound : WithTop K} {stack}

omit [Inhabited K] [Inhabited V] in
theorem ascending_without {first : WithTop K} {left right only : Ptr}
    (rising : Ascending Prod.fst (before ++ (first, left) :: (bound, right) :: after)) :
    Ascending Prod.fst (before ++ (bound, only) :: after) := by
  have bounds : ((before ++ (first, left) :: (bound, right) :: after).map Prod.fst).Pairwise
    (· < ·) :=
    pairwise_map.mpr rising
  apply pairwise_map.mp (bounds.sublist _)
  simp only [map_append, map_cons]
  exact (sublist_cons_self _ _).append_left _

theorem ascend_spec {leftKey rightKey : K} {left right : BLinkNode K V} {fuel : Nat}
    (leads : Leads rows before (bound, current) after stack)
    (holds : tree.Holds params.innerNodeSize rows)
    (stacked : Stacked (⊤, tree.root) (before ++ (bound, current) :: after) rows)
    (rising : Ascending Prod.fst
      (before ++ ((leftKey : WithTop K), current) :: (bound, new) :: after))
    (leftEq : tree.nodes current = some left) (leftMax : left.maxKey = .ok leftKey)
    (rightEq : tree.nodes new = some right) (rightMax : right.maxKey = .ok rightKey)
    (withinBound : (rightKey : WithTop K) ≤ bound)
    (allocated : current < tree.fresh ∧ new < tree.fresh) (different : current ≠ new)
    (outside : current ∉ rowIds rows) (enough : rows.length < fuel) :
    ∃ tree' rows', ascend params fuel tree stack current new = .ok tree' ∧
      tree.Grown params.innerNodeSize tree'
        (before ++ ((leftKey : WithTop K), current) :: (bound, new) :: after) rows rows' := by
  generalize cell_eq : (bound, current) = cell at leads stacked
  induction leads generalizing tree fuel leftKey rightKey left right bound current new with
  | top =>
    subst cell_eq
    obtain ⟨fuel, rfl⟩ := Nat.exists_eq_succ_of_ne_zero (Nat.ne_of_gt (Nat.zero_lt_of_lt enough))
    obtain ⟨rfl, atRoot⟩ := Prod.mk.inj (singleton_injective stacked)
    exact ascend_root params [] fuel atRoot leftEq leftMax rightEq rightMax allocated different
  | @up above front back branch leftCells rightCells cell stack cells_eq higher ih =>
    subst cell_eq
    obtain ⟨fuel, rfl⟩ := Nat.exists_eq_succ_of_ne_zero (Nat.ne_of_gt (Nat.zero_lt_of_lt enough))
    have branchAscending := stacked.ascending_branch (ascending_without rising)
      mem_cons_self mem_append_cons_self
    have rowAscending := rising
    rw [append_assoc, ascending_append, ascending_append, ascending_cons] at rowAscending
    obtain ⟨_, ⟨_, ⟨fromLeft, _⟩, acrossLeft⟩, _⟩ := rowAscending
    have smaller : ∀ other ∈ leftCells, other.1 < (leftKey : WithTop K) := fun other listed =>
      acrossLeft other listed _ mem_cons_self
    have leftBelow : (leftKey : WithTop K) < bound := fromLeft _ mem_cons_self
    obtain ⟨node, keys, workEq, isBranch⟩ := holds.stored _ mem_cons_self branch
      mem_append_cons_self
    have boundLe : bound ≤ branch.bound := Branch.le_bound branchAscending
      (show (bound, current) ∈ branch.cells by rw [cells_eq]; exact mem_append_cons_self)
    have notRoot : current ≠ tree.root := by
      rintro rfl
      exact outside (stacked.root_mem (by simp))
    have aboveEq : tree.above params (branch.id :: stack) current new = .ok
      (tree, branch.id, stack) := by
      unfold Tree.above
      rw [if_neg notRoot]
    have positive : tree.fresh ≠ nullptr := Nat.ne_of_gt (Nat.zero_lt_of_lt allocated.1)
    have stays : tree.moveRight rightKey tree.fresh branch.id = .ok branch.id := by
      obtain ⟨more, freshEq⟩ := Nat.exists_eq_succ_of_ne_zero positive
      rw [freshEq, moveRight, nodeAt_eq workEq]
      simp only [ok_bind, isBranch.isBefore_eq_false (le_trans withinBound boundLe),
        Bool.false_eq_true, if_false]
      rfl
    have wideBound := BLinkNode.IsBranch.widen_bound cells_eq leftKey new
    have cellsEq : front.flatMap Branch.cells ++ leftCells ++
        ((leftKey : WithTop K), current) :: (bound, new) ::
          (rightCells ++ back.flatMap Branch.cells) =
        front.flatMap Branch.cells ++
          ((widen branch leftCells rightCells bound current leftKey new).cells ++
          back.flatMap Branch.cells) := by
      simp [widen]
    rw [ascend, nodeAt_eq rightEq, cellsEq]
    simp only [ok_bind, rightMax, nodeAt_eq leftEq, leftMax, aboveEq, stays,
      nodeAt_eq workEq]
    rcases isBranch.innerInsert_spec params.innerPolicy positive branchAscending cells_eq smaller
      (le_of_lt leftBelow) new with ⟨placed, keys', placedEq, isPlaced⟩ |
      ⟨lowerNode, upperNode, lower, upper, lowerKeys, upperKeys, splitEq, splits, isLower, isUpper⟩
    · rw [placedEq]
      exact ⟨_, _, rfl, grown_whole holds stacked (congrArg (·, branch.id) wideBound) rfl isPlaced⟩
    · rw [splitEq]
      obtain ⟨lowerKey, lowerMax, _, lowerBound⟩ := isLower.exists_maxKey
      obtain ⟨upperKey, upperMax, upperLe, _⟩ := isUpper.exists_maxKey
      have lowerId : lower.id = branch.id := splits.lowerId
      have lowerCell : lower.cell = (↑lowerKey, branch.id) := by
        rw [Branch.cell, lowerId, lowerBound (by rw [splits.lowerLink]; simp)]
      have upperBound : upper.bound = branch.bound := splits.bound_eq.trans wideBound
      have upperCell : upper.cell = (branch.bound, tree.fresh) := by
        rw [Branch.cell, splits.upperId, upperBound]
      have branchInside := holds.branch_allocated branch_mem_row
      obtain ⟨notRest, apart⟩ := holds.row_distinct
      have higherAscending : Ascending Prod.fst (front.map Branch.cell ++
          ((lowerKey : WithTop K), branch.id) ::
            (branch.bound, tree.fresh) :: back.map Branch.cell) := by
        have rowEq : (front ++ lower :: upper :: back).flatMap Branch.cells =
            front.flatMap Branch.cells ++ leftCells ++ ((leftKey : WithTop K), current) ::
              (bound, new) :: (rightCells ++ back.flatMap Branch.cells) := by
          rw [cellsEq, ← splits.cells_eq]
          simp
        rw [← rowEq] at rising
        have cellsAscending := ascending_row rising
        rwa [map_append, map_cons, map_cons, lowerCell, upperCell] at cellsAscending
      have aboveHolds : ((tree.write branch.id lowerNode).allocate upperNode).Holds
          params.innerNodeSize above := by
        refine holds.above.frame ?_ (Nat.le_succ _)
        intro ptr listed
        refine Keeps.of_eq (allocate_write_of_ne ?_ (holds.above.allocated ptr listed).2)
        rintro rfl
        exact apart _ branch_mem_row listed
      have rootStacked := stacked.2.2
      rw [map_append, map_cons] at rootStacked
      obtain ⟨tree', rows', finished, higherGrown⟩ := ih aboveHolds higherAscending
        (allocate_write_self branchInside) lowerMax allocate_self upperMax
        (upperBound ▸ upperLe) ⟨Nat.lt_succ_of_lt branchInside, Nat.lt_succ_self _⟩
        (Nat.ne_of_lt branchInside) (apart _ branch_mem_row) (Nat.lt_of_succ_lt_succ enough) rfl
        rootStacked
      rw [← lowerCell, ← upperCell] at higherGrown
      exact ⟨tree', _, finished,
        grown_split holds stacked rfl rfl splits isLower isUpper higherGrown⟩

end Tree

/-! ## The leaf -/

namespace Tree.Represents

variable [LinearOrder K] {params : Parameters} {tree : Tree K V}
  {leaves front back : List (Leaf K V)} {leaf other : Leaf K V}
  {rows : List (List (Branch (WithTop K) Ptr))} {key : K} {value : V}

section Located

variable (represents : tree.Represents params leaves rows)
  (located : Located leaves front leaf back key)
include represents located

theorem exchange_leaf {node : BLinkNode K V} (sameId : other.id = leaf.id)
    (sameLink : other.link = leaf.link) (sameBound : other.bound = leaf.bound)
    (embodies : node.Embodies params.leafNodeSize other)
    (rising : Ascending Prod.fst (front.flatMap Leaf.entries ++
      (other.entries ++ back.flatMap Leaf.entries))) :
    (tree.write leaf.id node).Represents params (front ++ other :: back) rows := by
  obtain ⟨holds, holdsLeaves, stacked, disjoint⟩ := represents
  have notRow : leaf.id ∉ rowIds rows := disjoint leaf located.listed
  obtain ⟨rfl, _, _⟩ := located
  have distinct := holdsLeaves.leafNodup
  rw [map_append, map_cons, nodup_append, nodup_cons] at distinct
  have rowsHeld : (tree.write leaf.id node).Holds params.innerNodeSize rows := by
    refine holds.frame ?_ le_rfl
    intro ptr listed
    refine Keeps.of_eq (write_of_ne ?_)
    rintro rfl
    exact notRow listed
  have leavesHeld : (tree.write leaf.id node).HoldsLeaves params.leafNodeSize
      (front ++ ([other] ++ back)) := by
    refine holdsLeaves.exchange le_rfl ?_ nofun
      (congrArg some sameId) ⟨sameLink, trivial⟩ ?_ (nodup_singleton _) ?_ ?_
    · intro ptr listed
      refine Keeps.of_eq (write_of_ne ?_)
      rintro rfl
      rcases mem_append.mp listed with inFront | inBack
      · exact distinct.2.2 _ inFront _ mem_cons_self rfl
      · exact distinct.2.1.1 inBack
    · intro leaf' listed
      obtain rfl := mem_singleton.mp listed
      exact ⟨node, by rw [sameId]; exact write_self, embodies⟩
    · intro leaf' listed
      obtain rfl := mem_singleton.mp listed
      exact .inl sameId
    · rwa [flatMap_append, flatMap_append, flatMap_singleton]
  refine ⟨rowsHeld, leavesHeld, ?_, ?_⟩
  · have sameCell : other.cell = leaf.cell := by rw [Leaf.cell, Leaf.cell, sameBound, sameId]
    rw [map_append, map_cons] at stacked ⊢
    rwa [sameCell]
  · intro leaf' listed
    rcases mem_append.mp listed with inFront | inRest
    · exact disjoint leaf' (mem_append_left _ inFront)
    · rcases mem_cons.mp inRest with rfl | inBack
      · rwa [sameId]
      · exact disjoint leaf' (mem_append_right _ (mem_cons_of_mem _ inBack))

theorem place_bound (value : V) :
    ({ leaf with entries := place Prod.fst leaf.entries (key, value) } : Leaf K V).bound =
      leaf.bound := by
  refine Leaf.bound_congr rfl ?_
  intro linked
  exact congrArg (Option.map Prod.fst)
    (getLast?_insertAt (key, value) (represents.rank_lt located linked))

theorem place_entries (value : V) :
    place Prod.fst (leaves.flatMap Leaf.entries) (key, value) =
      front.flatMap Leaf.entries ++
        (place Prod.fst leaf.entries (key, value) ++ back.flatMap Leaf.entries) := by
  rw [located.entries_eq]
  exact place_between (represents.smaller_entries located) (represents.larger_entries located)

variable [Inhabited K] [Inhabited V]

theorem split_leaf {stack : List Ptr} {lowerNode upperNode : BLinkNode K V} {count : Nat}
    {lower upper : Leaf K V}
    (leads : Leads rows (front.map Leaf.cell) leaf.cell (back.map Leaf.cell) stack)
    (absent : findKey Prod.fst (leaves.flatMap Leaf.entries) key = none)
    (positive : 0 < count) (inside : count < leaf.entries.length + 1) (lower_eq : lower =
      ⟨leaf.id, (place Prod.fst leaf.entries (key, value)).take count, some tree.fresh⟩)
    (upper_eq : upper =
      ⟨tree.fresh, (place Prod.fst leaf.entries (key, value)).drop count, leaf.link⟩)
    (isLower : lowerNode.Embodies params.leafNodeSize lower)
    (isUpper : upperNode.Embodies params.leafNodeSize upper) :
    ∃ tree' rows', ascend params ((tree.write leaf.id lowerNode).allocate upperNode).fresh
        ((tree.write leaf.id lowerNode).allocate upperNode) stack leaf.id tree.fresh = .ok tree' ∧
      tree'.Represents params (front ++ lower :: upper :: back) rows' := by
  have wideBound := represents.place_bound located value
  have placed := represents.place_entries located value
  have newAscending : Ascending Prod.fst
    (place Prod.fst (leaves.flatMap Leaf.entries) (key, value)) :=
    represents.ascending.place (findKey_eq_none.mp absent)
  have length : (place Prod.fst leaf.entries (key, value)).length = leaf.entries.length + 1 :=
    length_place _ _
  have upperBound : upper.bound = leaf.bound := by
    rw [← wideBound]
    refine Leaf.bound_congr (by rw [upper_eq]) ?_
    intro _
    rw [upper_eq, getLast?_drop, if_neg (by omega)]
  have upperCell : upper.cell = (leaf.bound, tree.fresh) := by
    rw [Leaf.cell, upperBound, upper_eq]
  have lowerFilled : lower.entries ≠ [] := by
    rw [lower_eq]
    exact ne_nil_of_length_pos (by rw [length_take]; omega)
  have upperFilled : upper.entries ≠ [] := by
    rw [upper_eq]
    exact ne_nil_of_length_pos (by rw [length_drop]; omega)
  obtain ⟨lowerKey, lowerMax, _, lowerBound⟩ := isLower.exists_maxKey lowerFilled
  obtain ⟨upperKey, upperMax, upperLe, _⟩ := isUpper.exists_maxKey upperFilled
  have lowerCell : lower.cell = (↑lowerKey, leaf.id) := by
    rw [Leaf.cell, lowerBound (by rw [lower_eq]; nofun), lower_eq]
  have notRow : leaf.id ∉ rowIds rows := represents.disjoint leaf located.listed
  have leafInside := (represents.leafAllocated leaf located.listed).2
  have leafDistinct := represents.leafNodup
  have held := represents.toHoldsLeaves
  have stacked := represents.stacked
  rw [located.leaves_eq, map_append, map_cons] at leafDistinct stacked
  rw [nodup_append, nodup_cons] at leafDistinct
  rw [located.leaves_eq] at held
  have rowsHeld : ((tree.write leaf.id lowerNode).allocate upperNode).Holds
      params.innerNodeSize rows := by
    refine represents.toHolds.frame ?_ (Nat.le_succ _)
    intro ptr listed
    refine Keeps.of_eq (allocate_write_of_ne ?_ (represents.allocated ptr listed).2)
    rintro rfl
    exact notRow listed
  have leavesHeld : ((tree.write leaf.id lowerNode).allocate upperNode).HoldsLeaves
      params.leafNodeSize (front ++ ([lower, upper] ++ back)) := by
    refine held.exchange (Nat.le_succ _) ?_ nofun (by rw [lower_eq]; rfl) ?_ ?_ ?_ ?_ ?_
    · intro ptr listed
      refine Keeps.of_eq (allocate_write_of_ne ?_ ?_)
      · rintro rfl
        rcases mem_append.mp listed with inFront | inBack
        · exact leafDistinct.2.2 _ inFront _ mem_cons_self rfl
        · exact leafDistinct.2.1.1 inBack
      · rw [← map_append] at listed
        obtain ⟨old, oldListed, rfl⟩ := mem_map.mp listed
        refine (held.leafAllocated old ?_).2
        rcases mem_append.mp oldListed with inFront | inBack
        · exact mem_append_left _ inFront
        · exact mem_append_right _ (mem_cons_of_mem _ inBack)
    · rw [lower_eq, upper_eq]
      exact ⟨rfl, rfl, trivial⟩
    · intro new listed
      rcases mem_cons.mp listed with rfl | listed
      · refine ⟨lowerNode, ?_, isLower⟩
        rw [lower_eq]
        exact allocate_write_self leafInside
      · obtain rfl := mem_singleton.mp listed
        refine ⟨upperNode, ?_, isUpper⟩
        rw [upper_eq]
        exact allocate_self
    · rw [lower_eq, upper_eq, map_cons, map_singleton, nodup_cons,
        mem_singleton]
      exact ⟨Nat.ne_of_lt leafInside, nodup_singleton _⟩
    · intro new listed
      rcases mem_cons.mp listed with rfl | listed
      · left
        rw [lower_eq]
      · obtain rfl := mem_singleton.mp listed
        right
        rw [upper_eq]
        exact ⟨Nat.le_refl _, Nat.lt_succ_self _⟩
    · have whole : [lower, upper].flatMap Leaf.entries = place Prod.fst leaf.entries
        (key, value) := by
        rw [flatMap_cons, flatMap_singleton, lower_eq, upper_eq]
        exact take_append_drop _ _
      rw [flatMap_append, flatMap_append, whole, ← placed]
      exact newAscending
  have cellsAscending := leavesHeld.cells_ascending
  rw [map_append, map_append, map_cons, map_singleton, lowerCell, upperCell]
    at cellsAscending
  have enough : rows.length < ((tree.write leaf.id lowerNode).allocate upperNode).fresh :=
    Nat.lt_succ_of_lt (Nat.lt_of_le_of_lt (Nat.le_add_left _ _) represents.count_lt)
  obtain ⟨tree', rows', finished, grown⟩ := ascend_spec params leads rowsHeld stacked
    cellsAscending (allocate_write_self leafInside) lowerMax allocate_self upperMax
    (upperBound ▸ upperLe) ⟨Nat.lt_succ_of_lt leafInside, Nat.lt_succ_self _⟩
    (Nat.ne_of_lt leafInside) notRow enough
  have outside (new : Leaf K V) (listed : new ∈ front ++ lower :: upper :: back) :
      new.id ∉ rowIds rows ∧
        new.id < ((tree.write leaf.id lowerNode).allocate upperNode).fresh := by
    refine ⟨?_, (leavesHeld.leafAllocated new listed).2⟩
    have old (oldListed : new ∈ front ++ leaf :: back) : new.id ∉ rowIds rows :=
      represents.disjoint new (by rwa [located.leaves_eq])
    rcases mem_append.mp listed with inFront | inRest
    · exact old (mem_append_left _ inFront)
    · rcases mem_cons.mp inRest with rfl | inRest
      · rwa [lower_eq]
      · rcases mem_cons.mp inRest with rfl | inBack
        · rw [upper_eq]
          intro inRows
          exact absurd (represents.allocated _ inRows).2 (Nat.lt_irrefl _)
        · exact old (mem_append_right _ (mem_cons_of_mem _ inBack))
  refine ⟨tree', rows', finished, grown.toHolds, leavesHeld.frame ?_ grown.grown, ?_, ?_⟩
  · exact fun new listed => grown.kept _ (outside new listed).1 (outside new listed).2
  · rw [map_append, map_cons, map_cons, lowerCell, upperCell]
    exact grown.stacked
  · intro new listed inRows
    rcases grown.new _ inRows with old | newer
    · exact (outside new listed).1 old
    · exact absurd (outside new listed).2 (Nat.not_lt.mpr newer)

end Located

theorem insertPath_cases (represents : tree.Represents params leaves rows)
    (located : Located leaves front leaf back key) :
    (tree.insertPath key tree.fresh [] tree.root = .ok none ∧
      findKey Prod.fst (leaves.flatMap Leaf.entries) key ≠ none) ∨
    ∃ stack, tree.insertPath key tree.fresh [] tree.root = .ok (some (stack, leaf.id)) ∧
      Leads rows (front.map Leaf.cell) leaf.cell (back.map Leaf.cell) stack := by
  obtain ⟨stack, leads, path, fuel⟩ := represents.exists_path located
  obtain ⟨node, found, embodies, _⟩ := represents.leafNode located
  obtain ⟨more, freshEq⟩ := Nat.exists_eq_add_of_le (Nat.le_of_lt fuel)
  rw [Nat.add_assoc, Nat.add_comm 1] at freshEq
  rcases path.insertPath_eq (more + 1) with further | ⟨ended, work, workListed, node, child, workEq,
    passes⟩
  · right
    refine ⟨stack, ?_, leads⟩
    rw [freshEq, further, insertPath, nodeAt_eq found]
    simp only [ok_bind, embodies.kind, if_true]
    rfl
  · left
    refine ⟨by rw [freshEq, ended], ?_⟩
    obtain ⟨cell, cellListed, boundEq⟩ := represents.toHolds.bound_of_separator represents.stacked
      represents.cells_ascending leads workListed workEq passes
    obtain ⟨met, metListed, rfl⟩ := mem_map.mp cellListed
    change met.bound = key at boundEq
    cases link : met.link with
    | none =>
      rw [Leaf.bound, link] at boundEq
      exact absurd boundEq.symm WithTop.coe_ne_top
    | some sibling =>
      obtain ⟨last, lastEq, lastBound⟩ := Leaf.bound_of_link link
        (represents.filled met metListed (by rw [link]; simp))
      rw [boundEq, WithTop.coe_inj] at lastBound
      intro absent
      refine findKey_eq_none.mp absent last ?_ lastBound.symm
      exact mem_flatMap.mpr ⟨met, metListed, mem_of_getLast? lastEq⟩

theorem insert_eq [Inhabited K] [Inhabited V] (represents : tree.Represents params leaves rows)
    (key : K) (value : V) :
    ∃ tree' leaves' rows',
      tree.insert params key value =
        .ok ((findKey Prod.fst (leaves.flatMap Leaf.entries) key).isNone, tree') ∧
      tree'.Represents params leaves' rows' ∧
      leaves'.flatMap Leaf.entries =
        if (findKey Prod.fst (leaves.flatMap Leaf.entries) key).isNone then
          place Prod.fst (leaves.flatMap Leaf.entries) (key, value)
        else leaves.flatMap Leaf.entries := by
  obtain ⟨front, leaf, back, located⟩ := represents.exists_located key
  rcases represents.insertPath_cases located with ⟨ended, bound⟩ | ⟨stack, arrived, leads⟩
  · have notNone := Option.isNone_eq_false_iff.mpr (Option.isSome_iff_ne_none.mpr bound)
    rw [insert, ended, notNone]
    exact ⟨tree, leaves, rows, rfl, represents, rfl⟩
  · obtain ⟨node, found, embodies, _⟩ := represents.leafNode located
    have entriesAscending := represents.entries_ascending located
    have sameFind := represents.findKey_eq located
    have stays := represents.moveRight_eq located (Nat.zero_lt_of_lt represents.count_lt)
    rw [insert, arrived]
    simp only [bind, Except.bind, stays, nodeAt_eq found,
      embodies.toIsLeaf.nodeScan_eq entriesAscending, embodies.toIsLeaf.hasAt_eq entriesAscending]
    cases absent : findKey Prod.fst leaf.entries key with
    | some entry =>
      rw [sameFind, absent]
      exact ⟨tree, leaves, rows, rfl, represents, rfl⟩
    | none =>
      have absentAll := sameFind.trans absent
      rw [absentAll]
      simp only [Option.isSome_none, Bool.false_eq_true, if_false, Option.isNone_none, if_true]
      rw [embodies.toIsLeaf.leafInsert_eq params.leafPolicy tree.fresh entriesAscending key value]
      have bounded : rankIn Prod.fst leaf.entries key ≤ leaf.entries.length := rankIn_le_length _ _
      have newAscending : Ascending Prod.fst
          (place Prod.fst (leaves.flatMap Leaf.entries) (key, value)) :=
        represents.ascending.place (findKey_eq_none.mp absentAll)
      have placedEntries := represents.place_entries located value
      by_cases safe : params.leafPolicy.safe leaf.entries.length = true
      · obtain ⟨placed, placedEq, isPlaced⟩ := embodies.toIsLeaf.leafPlace_safe
          params.leafPolicy tree.fresh safe bounded key value
        rw [placedEq]
        refine ⟨_, front ++ ⟨leaf.id, place Prod.fst leaf.entries (key, value), leaf.link⟩ :: back,
          rows, rfl, ?_, ?_⟩
        · refine represents.exchange_leaf located rfl rfl
            (represents.place_bound located value) ?_ ?_
          · refine ⟨isPlaced, embodies.link_ne, fun _ => ne_nil_of_length_pos ?_⟩
            rw [length_place]
            exact Nat.succ_pos _
          · rwa [← placedEntries]
        · rw [flatMap_append, flatMap_cons, placedEntries]
      · obtain ⟨lowerNode, upperNode, splitEq, isLower, isUpper⟩ :=
          embodies.toIsLeaf.leafPlace_split params.leafPolicy tree.fresh safe bounded key value
        have notNull : tree.fresh ≠ nullptr :=
          Nat.ne_of_gt (Nat.zero_lt_of_lt represents.count_lt)
        have nonempty : leaf.entries ≠ [] := by
          intro empty
          rw [empty] at safe
          exact safe params.leafPolicy.safe_zero
        have positive := length_pos_of_ne_nil nonempty
        have inside : leaf.entries.length / 2 + 1 < leaf.entries.length + 1 := by omega
        obtain ⟨tree', rows', finished, represents'⟩ :=
          represents.split_leaf located leads absentAll (Nat.succ_pos _) inside rfl rfl
          ⟨isLower, fun same => notNull (Option.some.inj same), fun _ =>
            ne_nil_of_length_pos (by
            rw [length_take, length_place]
            omega)⟩
          ⟨isUpper, embodies.link_ne, fun _ => ne_nil_of_length_pos (by
            rw [length_drop, length_place]
            omega)⟩
        rw [splitEq]
        simp only [finished]
        refine ⟨tree', _, rows', rfl, represents', ?_⟩
        rw [flatMap_append, flatMap_cons, flatMap_cons, placedEntries,
          ← append_assoc (List.take _ _), take_append_drop]

end Tree.Represents

end IndexResearch.BLinkTree
