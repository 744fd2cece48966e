import IndexResearch.BLinkTree.Node.Insertion
import IndexResearch.LinkedLevels

/-!
# What the memory of a B-link tree represents

The nodes in memory are those of linked levels.  The bound of a node is its high key, and
the last node of a level, which has no sibling, has the bound `⊤`; this is where it has
one child more than keys.
-/

namespace IndexResearch.BLinkTree

open LinkedLevels List

variable {K V : Type}

/-! ## Inner nodes -/

def ending : Option Ptr → List (WithTop K)
  | none => [⊤]
  | some _ => []

structure BLinkNode.IsBranch (size : Nat) (node : BLinkNode K V) (branch : Branch (WithTop K) Ptr)
    (keys : List K) : Prop
    extends IsInner size node keys (branch.cells.map Prod.snd) (branch.link.getD nullptr) where
  keys_ne : keys ≠ []
  bounds_eq : branch.cells.map Prod.fst = keys.map WithTop.some ++ ending branch.link
  link_ne : branch.link ≠ some nullptr

namespace BLinkNode.IsBranch

variable {size : Nat} {node : BLinkNode K V} {branch : Branch (WithTop K) Ptr} {keys : List K}

section

variable (isBranch : IsBranch size node branch keys)
include isBranch

theorem length_cells :
    branch.cells.length = keys.length + (ending (K := K) branch.link).length := by
  have lengths := congrArg List.length isBranch.bounds_eq
  rwa [length_map, length_append, length_map] at lengths

theorem bound_eq {sibling : Ptr} (link : branch.link = some sibling) :
    ∃ last, keys.getLast? = some last ∧ branch.bound = last := by
  obtain ⟨last, lastEq⟩ := Option.ne_none_iff_exists'.mp
    (getLast?_eq_none_iff.not.mpr isBranch.keys_ne)
  refine ⟨last, lastEq, ?_⟩
  have bounds := congrArg List.getLast? isBranch.bounds_eq
  rw [link, ending, append_nil, getLast?_map, getLast?_map, lastEq,
    getLast?_eq_some_getLast branch.nonempty] at bounds
  exact Option.some.inj bounds

theorem bound_eq_top (link : branch.link = none) : branch.bound = ⊤ := by
  have bounds := congrArg List.getLast? isBranch.bounds_eq
  rw [link, ending, getLast?_append, getLast?_map,
    getLast?_eq_some_getLast branch.nonempty] at bounds
  exact Option.some.inj bounds

theorem mem_keys {key : K} (listed : key ∈ keys) : ∃ cell ∈ branch.cells, cell.1 = key := by
  have bound : (key : WithTop K) ∈ branch.cells.map Prod.fst := by
    rw [isBranch.bounds_eq]
    exact mem_append_left _ (mem_map_of_mem listed)
  exact mem_map.mp bound

end

variable {left right : List (WithTop K × Ptr)} {bound : WithTop K} {child : Ptr}

theorem position_cases (isBranch : IsBranch size node branch keys)
    (cells_eq : branch.cells = left ++ (bound, child) :: right) :
    left.length < keys.length ∨
    (left.length = keys.length ∧ branch.link.getD nullptr = nullptr):= by
  have lengths := isBranch.length_cells
  rw [cells_eq, length_append, length_cons] at lengths
  cases link : branch.link with
  | none =>
    rw [link, ending, length_singleton] at lengths
    rcases Nat.lt_or_eq_of_le (show left.length ≤ keys.length by omega) with less | equal
    · exact .inl less
    · exact .inr ⟨equal, rfl⟩
  | some sibling =>
    rw [link, ending, length_nil] at lengths
    exact .inl (by omega)

theorem child_eq_of_cells (isBranch : IsBranch size node branch keys)
    (cells_eq : branch.cells = left ++ (bound, child) :: right) :
    node.child left.length = .ok child := by
  apply isBranch.toIsInner.child_eq _ (isBranch.position_cases cells_eq)
  rw [cells_eq, map_append, getElem?_append_right (by rw [length_map]),
    length_map, Nat.sub_self]
  rfl

variable [LinearOrder K] {key : K}

section

variable (isBranch : IsBranch size node branch keys)
include isBranch

theorem ascending_keys (rising : Ascending Prod.fst branch.cells) : Ascending id keys:= by
  have bounds : (branch.cells.map Prod.fst).Pairwise (· < ·) := pairwise_map.mpr rising
  rw [isBranch.bounds_eq] at bounds
  exact (pairwise_map.mp (pairwise_append.mp bounds).1).imp WithTop.coe_lt_coe.mp

theorem rankIn_keys (rising : Ascending Prod.fst branch.cells)
    (cells_eq : branch.cells = left ++ (bound, child) :: right)
    (smaller : ∀ cell ∈ left, cell.1 < key) (upTo : (key : WithTop K) ≤ bound) :
    rankIn id keys key = left.length := by
  have ofBounds : rankIn Prod.fst branch.cells (key : WithTop K) = rankIn id keys key := by
    have asBounds : rankIn Prod.fst branch.cells (key : WithTop K) =
        rankIn id (branch.cells.map Prod.fst) (key : WithTop K) := by
      rw [rankIn_map]
      rfl
    have none : rankIn id (ending branch.link) (key : WithTop K) = 0 := by
      apply rankIn_eq_zero
      intro other listed
      cases link : branch.link with
      | none =>
        rw [link, ending, mem_singleton] at listed
        rw [listed]
        exact not_top_lt
      | some sibling =>
        rw [link] at listed
        cases listed
    rw [asBounds, isBranch.bounds_eq, rankIn_append, none, Nat.add_zero, rankIn_map]
    simp only [rankIn, id, WithTop.coe_lt_coe]
  rw [cells_eq, ascending_append, ascending_cons] at rising
  have notLarger : ∀ cell ∈ (bound, child) :: right, ¬cell.1 < (key : WithTop K) := by
    intro cell listed less
    rcases mem_cons.mp listed with rfl | later
    · exact absurd less (not_lt_of_ge upTo)
    · exact absurd (lt_trans (rising.2.1.1 cell later) less) (not_lt_of_ge upTo)
  rw [← ofBounds, cells_eq, rankIn_append, rankIn_eq_length smaller,
    rankIn_eq_zero notLarger, Nat.add_zero]

theorem isBefore_eq_false (upTo : (key : WithTop K) ≤ branch.bound) :
    node.isBefore key = .ok false:= by
  apply isBranch.toHoldsKeys.isBefore_eq
  intro hasSibling
  cases link : branch.link with
  | none =>
    rw [isBranch.sibling_eq, link] at hasSibling
    exact absurd rfl hasSibling
  | some sibling =>
    obtain ⟨last, lastEq, boundEq⟩ := isBranch.bound_eq link
    rw [boundEq, WithTop.coe_le_coe] at upTo
    exact ⟨last, lastEq, not_lt_of_ge upTo⟩

end

end BLinkNode.IsBranch

/-! ## Leaves -/

structure Leaf (K V : Type) where
  id : Ptr
  entries : List (K × V)
  link : Option Ptr

namespace Leaf

def bound (leaf : Leaf K V) : WithTop K :=
  match leaf.link with
  | none => ⊤
  | some _ => (leaf.entries.getLast?.map fun entry => (entry.1 : WithTop K)).getD ⊤

def cell (leaf : Leaf K V) : WithTop K × Ptr := (leaf.bound, leaf.id)

end Leaf

structure BLinkNode.Embodies (size : Nat) (node : BLinkNode K V) (leaf : Leaf K V) : Prop
    extends IsLeaf size node leaf.entries (leaf.link.getD nullptr) where
  link_ne : leaf.link ≠ some nullptr
  filled : leaf.link ≠ none → leaf.entries ≠ []

theorem Leaf.bound_of_link {leaf : Leaf K V} {sibling : Ptr} (link : leaf.link = some sibling)
    (filled : leaf.entries ≠ []) :
    ∃ last, leaf.entries.getLast? = some last ∧ leaf.bound = last.1 := by
  obtain ⟨last, lastEq⟩ := Option.ne_none_iff_exists'.mp (getLast?_eq_none_iff.not.mpr filled)
  refine ⟨last, lastEq, ?_⟩
  rw [bound, link, lastEq]
  rfl

theorem Leaf.bound_congr {leaf other : Leaf K V} (sameLink : other.link = leaf.link)
    (sameLast : leaf.link ≠ none →
      other.entries.getLast?.map Prod.fst = leaf.entries.getLast?.map Prod.fst) :
    other.bound = leaf.bound := by
  rw [bound, bound, sameLink]
  cases link : leaf.link with
  | none => rfl
  | some sibling =>
    have lasts := congrArg (Option.map WithTop.some) (sameLast (by rw [link]; nofun))
    rw [Option.map_map, Option.map_map] at lasts
    exact congrArg (Option.getD · ⊤) lasts

theorem BLinkNode.Embodies.exists_maxKey [LinearOrder K] {size : Nat} {node : BLinkNode K V}
    {leaf : Leaf K V} (embodies : node.Embodies size leaf) (filled : leaf.entries ≠ []) :
    ∃ last, node.maxKey = .ok last ∧ (last : WithTop K) ≤ leaf.bound ∧
      (leaf.link ≠ none → leaf.bound = last) := by
  obtain ⟨last, lastEq⟩ := Option.ne_none_iff_exists'.mp (getLast?_eq_none_iff.not.mpr filled)
  have lastKey : (leaf.entries.map Prod.fst).getLast? = some last.1 := by
    rw [getLast?_map, lastEq]
    rfl
  refine ⟨last.1, embodies.toHoldsKeys.maxKey_eq lastKey, ?_⟩
  cases link : leaf.link with
  | none =>
    rw [Leaf.bound, link]
    exact ⟨le_top, fun linked => absurd rfl linked⟩
  | some sibling =>
    obtain ⟨last', lastEq', boundEq⟩ := Leaf.bound_of_link link filled
    cases lastEq.symm.trans lastEq'
    rw [boundEq]
    exact ⟨le_refl _, fun _ => rfl⟩

/-! ## Trees -/

def Tree.Stores (size : Nat) (tree : Tree K V) (branch : Branch (WithTop K) Ptr) : Prop :=
  ∃ node keys, tree.nodes branch.id = some node ∧ node.IsBranch size branch keys

structure Tree.Holds (size : Nat) (tree : Tree K V) (rows : List (List (Branch (WithTop K) Ptr))) :
    Prop where
  stored : ∀ row ∈ rows, ∀ branch ∈ row, tree.Stores size branch
  nodup : (rowIds rows).Nodup
  allocated : ∀ ptr ∈ rowIds rows, ptr ≠ nullptr ∧ ptr < tree.fresh

theorem Tree.nodeAt_eq {tree : Tree K V} {ptr : Ptr} {node : BLinkNode K V}
    (found : tree.nodes ptr = some node) : tree.nodeAt ptr = .ok node := by
  rw [nodeAt, found]

theorem Tree.Holds.above {size : Nat} {tree : Tree K V} {row : List (Branch (WithTop K) Ptr)}
    {rows : List (List (Branch (WithTop K) Ptr))} (holds : tree.Holds size (row :: rows)) :
    tree.Holds size rows where
  stored := fun other listed => holds.stored other (mem_cons_of_mem _ listed)
  nodup := (nodup_append.mp holds.nodup).2.1
  allocated := fun ptr listed => holds.allocated ptr (mem_append_right _ listed)

structure Tree.HoldsLeaves [LinearOrder K] (size : Nat) (tree : Tree K V)
    (leaves : List (Leaf K V)) : Prop where
  linked : Linked Leaf.id Leaf.link none leaves
  leafStored : ∀ leaf ∈ leaves, ∃ node, tree.nodes leaf.id = some node ∧ node.Embodies size leaf
  ascending : Ascending Prod.fst (leaves.flatMap Leaf.entries)
  leafNodup : (leaves.map Leaf.id).Nodup
  leafAllocated : ∀ leaf ∈ leaves, leaf.id ≠ nullptr ∧ leaf.id < tree.fresh

structure Tree.Represents [LinearOrder K] (params : Parameters) (tree : Tree K V)
    (leaves : List (Leaf K V)) (rows : List (List (Branch (WithTop K) Ptr))) : Prop
    extends tree.Holds params.innerNodeSize rows,
      tree.HoldsLeaves params.leafNodeSize leaves where
  stacked : Stacked (⊤, tree.root) (leaves.map Leaf.cell) rows
  disjoint : ∀ leaf ∈ leaves, leaf.id ∉ rowIds rows

section Cells

variable [LinearOrder K] {leaves : List (Leaf K V)}

theorem ascending_cells (linked : Linked Leaf.id Leaf.link none leaves)
    (filled : ∀ leaf ∈ leaves, leaf.link ≠ none → leaf.entries ≠ [])
    (rising : Ascending Prod.fst (leaves.flatMap Leaf.entries)) :
    Ascending Prod.fst (leaves.map Leaf.cell) := by
  induction leaves with
  | nil => exact List.Pairwise.nil
  | cons leaf rest ih =>
    rw [flatMap_cons, ascending_append] at rising
    rw [map_cons, ascending_cons]
    have restFilled (other : Leaf K V) (listed : other ∈ rest) :=
      filled other (mem_cons_of_mem _ listed)
    refine ⟨?_, ih linked.2 restFilled rising.2.1⟩
    intro cell listed
    obtain ⟨other, otherListed, rfl⟩ := mem_map.mp listed
    obtain ⟨sibling, link⟩ : ∃ sibling, leaf.link = some sibling := by
      obtain ⟨next, behind, rfl⟩ := exists_cons_of_ne_nil (ne_nil_of_mem otherListed)
      exact ⟨next.id, linked.1⟩
    have leafFilled : leaf.entries ≠ [] := filled leaf mem_cons_self (by rw [link]; nofun)
    obtain ⟨last, lastEq, boundEq⟩ := Leaf.bound_of_link link leafFilled
    change leaf.bound < other.bound
    rw [boundEq]
    cases otherLink : other.link with
    | none =>
      rw [Leaf.bound, otherLink]
      exact WithTop.coe_lt_top _
    | some otherSibling =>
      obtain ⟨otherLast, otherLastEq, otherBoundEq⟩ := Leaf.bound_of_link otherLink
        (restFilled other otherListed (by rw [otherLink]; nofun))
      rw [otherBoundEq, WithTop.coe_lt_coe]
      exact rising.2.2 last (mem_of_getLast? lastEq) otherLast
        (mem_flatMap.mpr ⟨other, otherListed, mem_of_getLast? otherLastEq⟩)

theorem Tree.HoldsLeaves.filled {size : Nat} {tree : Tree K V}
    (holds : tree.HoldsLeaves size leaves) :
    ∀ leaf ∈ leaves, leaf.link ≠ none → leaf.entries ≠ [] := by
  intro leaf listed
  obtain ⟨node, _, embodies⟩ := holds.leafStored leaf listed
  exact embodies.filled

theorem Tree.HoldsLeaves.cells_ascending {size : Nat} {tree : Tree K V}
    (holds : tree.HoldsLeaves size leaves) : Ascending Prod.fst (leaves.map Leaf.cell) :=
  ascending_cells holds.linked holds.filled holds.ascending

end Cells

/-! ## Changes of the memory -/

namespace Tree

/-- A node stays as it is, but for `upper_level_`. -/
def Keeps (tree tree' : Tree K V) (ptr : Ptr) : Prop :=
  ∀ node, tree.nodes ptr = some node →
    ∃ upper, tree'.nodes ptr = some { node with upperLevel := upper }

variable {tree tree' tree'' : Tree K V} {ptr : Ptr} {size : Nat}

theorem Keeps.of_eq (same : tree'.nodes ptr = tree.nodes ptr) : tree.Keeps tree' ptr :=
  fun node found => ⟨node.upperLevel, same.trans found⟩

theorem Keeps.trans (first : tree.Keeps tree' ptr) (second : tree'.Keeps tree'' ptr) :
    tree.Keeps tree'' ptr := by
  intro node found
  obtain ⟨upper, found'⟩ := first node found
  obtain ⟨upper', found''⟩ := second _ found'
  exact ⟨upper', found''⟩

section Rows

variable {rows above above' : List (List (Branch (WithTop K) Ptr))}
  {front back others : List (Branch (WithTop K) Ptr)} {branch : Branch (WithTop K) Ptr}

theorem Stores.frame (stores : tree.Stores size branch) (kept : tree.Keeps tree' branch.id) :
    tree'.Stores size branch := by
  obtain ⟨node, keys, found, isBranch⟩ := stores
  obtain ⟨upper, found'⟩ := kept node found
  exact ⟨_, keys, found', { isBranch with }⟩

theorem Holds.frame (holds : tree.Holds size rows)
    (kept : ∀ ptr ∈ rowIds rows, tree.Keeps tree' ptr)
    (grown : tree.fresh ≤ tree'.fresh) : tree'.Holds size rows where
  stored := by
    intro row rowListed branch listed
    apply Stores.frame (holds.stored row rowListed branch listed)
    exact kept _ (mem_flatMap.mpr ⟨row, rowListed, mem_map_of_mem listed⟩)
  nodup := holds.nodup
  allocated := fun ptr listed => ⟨(holds.allocated ptr listed).1,
    Nat.lt_of_lt_of_le (holds.allocated ptr listed).2 grown⟩

/-- A node of the lowest level is exchanged for several ones, and the levels above for
others. -/
theorem Holds.exchange (holds : tree.Holds size ((front ++ branch :: back) :: above))
    (higher : tree'.Holds size above') (grown : tree.fresh ≤ tree'.fresh)
    (kept : ∀ ptr ∈ front.map Branch.id ++ back.map Branch.id, tree.Keeps tree' ptr)
    (othersStored : ∀ other ∈ others, tree'.Stores size other)
    (othersDistinct : (others.map Branch.id).Nodup)
    (othersNew : ∀ other ∈ others, other.id = branch.id ∨
      (tree.fresh ≤ other.id ∧ other.id < tree'.fresh))
    (aboveNew : ∀ ptr ∈ rowIds above', ptr ∈ rowIds above ∨
      (tree.fresh ≤ ptr ∧ ptr ∉ others.map Branch.id)) :
    tree'.Holds size ((front ++ (others ++ back)) :: above') := by
  have rowIds_eq : rowIds ((front ++ branch :: back) :: above) =
      (front.map Branch.id ++ branch.id :: back.map Branch.id) ++ rowIds above := by
    rw [rowIds, flatMap_cons, map_append, map_cons]
    rfl
  have oldRow {ptr : Ptr} (listed : ptr ∈ front.map Branch.id ++ branch.id :: back.map Branch.id) :
      ptr ∈ rowIds ((front ++ branch :: back) :: above) := by
    rw [rowIds_eq]
    exact mem_append_left _ listed
  have newIds {ptr : Ptr} (listed : ptr ∈ (front ++ (others ++ back)).map Branch.id) :
      ptr ∈ front.map Branch.id ++ branch.id :: back.map Branch.id ∨
        (ptr ∈ others.map Branch.id ∧ tree.fresh ≤ ptr ∧ ptr < tree'.fresh) := by
    rw [map_append, map_append, mem_append, mem_append] at listed
    rcases listed with inFront | inOthers | inBack
    · exact .inl (mem_append_left _ inFront)
    · obtain ⟨other, otherListed, rfl⟩ := mem_map.mp inOthers
      rcases othersNew other otherListed with same | new
      · rw [same]
        exact .inl mem_append_cons_self
      · exact .inr ⟨inOthers, new⟩
    · exact .inl (mem_append_right _ (mem_cons_of_mem _ inBack))
  have distinct := holds.nodup
  rw [rowIds_eq, nodup_append] at distinct
  refine ⟨?_, ?_, ?_⟩
  · intro row rowListed other listed
    rcases mem_cons.mp rowListed with rfl | later
    · have oldStored (old : Branch (WithTop K) Ptr) (oldListed : old ∈ front ++ branch :: back) :=
        holds.stored _ mem_cons_self old oldListed
      rcases mem_append.mp listed with inFront | inRest
      · apply (oldStored other (mem_append_left _ inFront)).frame
        exact kept _ (mem_append_left _ (mem_map_of_mem inFront))
      · rcases mem_append.mp inRest with inOthers | inBack
        · exact othersStored other inOthers
        · apply (oldStored other (mem_append_right _ (mem_cons_of_mem _ inBack))).frame
          exact kept _ (mem_append_right _ (mem_map_of_mem inBack))
    · exact higher.stored row later other listed
  · rw [rowIds, flatMap_cons, nodup_append]
    refine ⟨?_, higher.nodup, ?_⟩
    · rw [map_append, map_append]
      apply nodup_exchange distinct.1 othersDistinct
      intro ptr listed
      obtain ⟨other, otherListed, rfl⟩ := mem_map.mp listed
      rcases othersNew other otherListed with same | new
      · exact .inl same
      · right
        intro old
        exact absurd (holds.allocated _ (oldRow old)).2 (Nat.not_lt.mpr new.1)
    · rintro ptr listed _ above rfl
      rcases aboveNew ptr above with old | ⟨new, notOther⟩
      · rcases newIds listed with inRow | ⟨_, new, _⟩
        · exact distinct.2.2 ptr inRow ptr old rfl
        · have inside := (holds.above.allocated ptr old).2
          exact absurd inside (Nat.not_lt.mpr new)
      · rcases newIds listed with inRow | ⟨inOthers, _⟩
        · exact absurd (holds.allocated _ (oldRow inRow)).2 (Nat.not_lt.mpr new)
        · exact notOther inOthers
  · intro ptr listed
    rw [rowIds, flatMap_cons, mem_append] at listed
    rcases listed with inRow | above
    · rcases newIds inRow with old | ⟨_, new, inside⟩
      · obtain ⟨notNull, inside⟩ := holds.allocated _ (oldRow old)
        exact ⟨notNull, Nat.lt_of_lt_of_le inside grown⟩
      · obtain ⟨notNull, below⟩ := holds.allocated _ (oldRow mem_append_cons_self)
        exact ⟨Nat.ne_of_gt (Nat.lt_of_lt_of_le (Nat.zero_lt_of_lt below) new), inside⟩
    · exact higher.allocated ptr above

end Rows

section Leaves

variable [LinearOrder K] {leaves front back others : List (Leaf K V)} {leaf : Leaf K V}

theorem HoldsLeaves.frame (holds : tree.HoldsLeaves size leaves)
    (kept : ∀ leaf ∈ leaves, tree.Keeps tree' leaf.id) (grown : tree.fresh ≤ tree'.fresh) :
    tree'.HoldsLeaves size leaves := by
  refine { holds with leafStored := ?_, leafAllocated := ?_ }
  · intro leaf listed
    obtain ⟨node, found, embodies⟩ := holds.leafStored leaf listed
    obtain ⟨upper, found'⟩ := kept leaf listed node found
    exact ⟨_, found', { embodies with }⟩
  · exact fun leaf listed => ⟨(holds.leafAllocated leaf listed).1,
      Nat.lt_of_lt_of_le (holds.leafAllocated leaf listed).2 grown⟩

theorem HoldsLeaves.exchange (holds : tree.HoldsLeaves size (front ++ leaf :: back))
    (grown : tree.fresh ≤ tree'.fresh)
    (kept : ∀ ptr ∈ front.map Leaf.id ++ back.map Leaf.id, tree.Keeps tree' ptr)
    (nonempty : others ≠ []) (head_eq : others.head?.map Leaf.id = some leaf.id)
    (chain : Linked Leaf.id Leaf.link leaf.link others)
    (othersStored : ∀ other ∈ others, ∃ node, tree'.nodes other.id = some node ∧
      node.Embodies size other)
    (othersDistinct : (others.map Leaf.id).Nodup)
    (othersNew : ∀ other ∈ others, other.id = leaf.id ∨
      (tree.fresh ≤ other.id ∧ other.id < tree'.fresh))
    (rising : Ascending Prod.fst ((front ++ (others ++ back)).flatMap Leaf.entries)) :
    tree'.HoldsLeaves size (front ++ (others ++ back)) := by
  have oldListed {old : Leaf K V} (listed : old ∈ front ∨ old ∈ back) :
    old ∈ front ++ leaf :: back := by
    rcases listed with inFront | inBack
    · exact mem_append_left _ inFront
    · exact mem_append_right _ (mem_cons_of_mem _ inBack)
  have distinct := holds.leafNodup
  rw [map_append, map_cons] at distinct
  have members {other : Leaf K V} (listed : other ∈ front ++ (others ++ back)) :
      other ∈ others ∨ (other ∈ front ∨ other ∈ back) := by
    rw [mem_append, mem_append] at listed
    tauto
  refine ⟨holds.linked.exchange nonempty head_eq chain, ?_, rising, ?_, ?_⟩
  · intro other listed
    rcases members listed with inOthers | old
    · exact othersStored other inOthers
    · obtain ⟨node, found, embodies⟩ := holds.leafStored other (oldListed old)
      have stays : other.id ∈ front.map Leaf.id ++ back.map Leaf.id := by
        rw [← map_append]
        exact mem_map_of_mem (mem_append.mpr old)
      obtain ⟨upper, found'⟩ := kept _ stays node found
      exact ⟨_, found', { embodies with }⟩
  · rw [map_append, map_append]
    apply nodup_exchange distinct othersDistinct
    intro ptr listed
    obtain ⟨other, otherListed, rfl⟩ := mem_map.mp listed
    rcases othersNew other otherListed with same | new
    · exact .inl same
    · right
      intro old
      rw [← map_cons, ← map_append] at old
      obtain ⟨oldLeaf, oldLeafListed, same⟩ := mem_map.mp old
      have inside := (holds.leafAllocated oldLeaf oldLeafListed).2
      rw [same] at inside
      exact absurd inside (Nat.not_lt.mpr new.1)
  · intro other listed
    obtain ⟨leafNotNull, leafInside⟩ := holds.leafAllocated leaf mem_append_cons_self
    rcases members listed with inOthers | old
    · rcases othersNew other inOthers with same | ⟨new, inside⟩
      · rw [same]
        exact ⟨leafNotNull, Nat.lt_of_lt_of_le leafInside grown⟩
      · exact ⟨Nat.ne_of_gt (Nat.lt_of_lt_of_le (Nat.zero_lt_of_lt leafInside) new), inside⟩
    · obtain ⟨notNull, inside⟩ := holds.leafAllocated other (oldListed old)
      exact ⟨notNull, Nat.lt_of_lt_of_le inside grown⟩

end Leaves

end Tree

end IndexResearch.BLinkTree
