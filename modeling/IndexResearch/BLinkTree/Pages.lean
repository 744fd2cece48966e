import IndexResearch.BLinkTree.Scan
import IndexResearch.LinkedPages.Contents

/-!
# Nodes as pages

What the nodes of the B-link tree hold, as linked pages, and what the operations on a node
do to its page.
-/

namespace IndexResearch.BLinkTree

open LinkedLevels LinkedPages List

variable {K V : Type}

inductive BLinkNode.Shows (params : Parameters) (node : BLinkNode K V) : Page Ptr K V → Prop
  | leaf {leaf : Leaf K V} (embodies : node.Embodies params.leafNodeSize leaf) :
      Shows params node (.leaf leaf.entries leaf.link)
  | inner {branch : Branch (WithTop K) Ptr} {keys : List K}
      (isBranch : node.IsBranch params.innerNodeSize branch keys) :
      Shows params node (.inner branch.cells branch.link)
  | seed (isInner : node.IsInner params.innerNodeSize [] [] nullptr) :
      Shows params node (.inner [] none)

namespace BLinkNode.Shows

variable {params : Parameters} {node : BLinkNode K V} {page : Page Ptr K V}

theorem of_isLeaf {entries : List (K × V)} {link : Option Ptr}
    (isLeaf : node.IsLeaf params.leafNodeSize entries (link.getD nullptr))
    (link_ne : link ≠ some nullptr) (filled : entries ≠ []) :
    node.Shows params (.leaf entries link) :=
  @leaf _ _ _ _ ⟨nullptr, entries, link⟩ ⟨isLeaf, link_ne, fun _ => filled⟩

theorem sibling_eq (shows_ : node.Shows params page) :
    node.siblingPtr = page.link.getD nullptr ∧ page.link ≠ some nullptr := by
  cases shows_ with
  | leaf embodies => exact ⟨embodies.sibling_eq, embodies.link_ne⟩
  | inner isBranch => exact ⟨isBranch.sibling_eq, isBranch.link_ne⟩
  | seed isInner => exact ⟨isInner.sibling_eq, by simp [Page.link]⟩

theorem link_cases (shows_ : node.Shows params page) :
    (page.link = none ∧ node.siblingPtr = nullptr) ∨
      (page.link = some node.siblingPtr ∧ node.siblingPtr ≠ nullptr) := by
  obtain ⟨pointer, notNull⟩ := shows_.sibling_eq
  cases link : page.link with
  | none =>
    rw [link] at pointer
    exact .inl ⟨rfl, pointer⟩
  | some next =>
    rw [link] at pointer notNull
    refine .inr ⟨congrArg some pointer.symm, ?_⟩
    rw [pointer]
    exact fun null => notNull (congrArg some null)

theorem exists_keys (shows_ : node.Shows params page) :
    ∃ size keys, HoldsKeys size node keys ∧ (∀ key ∈ keys, (key : WithTop K) ∈ page.bounds) ∧
      (page.link ≠ none → page.bounds = keys.map WithTop.some) ∧
      (page.bounds ≠ [] → keys ≠ []) := by
  cases shows_ with
  | @leaf leaf embodies =>
    have bounds_eq : Page.bounds (.leaf leaf.entries leaf.link : Page Ptr K V) =
        (leaf.entries.map Prod.fst).map WithTop.some := by
      rw [map_map]
      rfl
    refine ⟨_, _, embodies.toHoldsKeys, ?_, fun _ => bounds_eq, ?_⟩
    · intro key listed
      rw [bounds_eq]
      exact mem_map_of_mem listed
    · intro filled empty
      rw [bounds_eq, empty] at filled
      exact filled rfl
  | @inner branch keys isBranch =>
    refine ⟨_, keys, isBranch.toHoldsKeys, ?_, ?_, fun _ => isBranch.keys_ne⟩
    · intro key listed
      rw [Page.bounds, isBranch.bounds_eq]
      exact mem_append_left _ (mem_map_of_mem listed)
    · intro linked
      obtain ⟨next, link⟩ := Option.ne_none_iff_exists'.mp linked
      rw [Page.link] at link
      rw [Page.bounds, isBranch.bounds_eq, link, ending, append_nil]
  | seed isInner =>
    exact ⟨_, [], isInner.toHoldsKeys, by simp, fun linked => absurd rfl linked, fun filled =>
      absurd rfl filled⟩

variable [LinearOrder K] {outline : Outline Ptr K V} {name : Ptr} {key : K}

section

variable (shows_ : node.Shows params page) (ordered : outline.Ordered name page)
include shows_ ordered

theorem isBefore_eq (key : K) :
    node.isBefore key = .ok (decide (page.bound < (key : WithTop K))):= by
  rw [isBefore]
  rcases shows_.link_cases with ⟨link, null⟩ | ⟨link, notNull⟩
  · rw [if_pos null, Page.bound_of_link_none link, decide_eq_false not_top_lt]
  · obtain ⟨size, keys, holds, _, bounds_eq, _⟩ := shows_.exists_keys
    have last := ordered.bound_mem link
    rw [bounds_eq (by rw [link]; simp), getLast?_map, Option.map_eq_some_iff] at last
    obtain ⟨high, highEq, boundEq⟩ := last
    rw [if_neg notNull, holds.highKey_eq highEq, ← boundEq]
    simp only [ok_bind, pure, Except.pure]
    exact congrArg Except.ok (decide_eq_decide.mpr WithTop.coe_lt_coe.symm)

theorem exists_maxKey (filled : page.bounds ≠ []) :
    ∃ last : K, node.maxKey = .ok last ∧ (last : WithTop K) ∈ page.bounds ∧
      (page.link ≠ none → page.bound = last) := by
  obtain ⟨size, keys, holds, listed, bounds_eq, nonempty⟩ := shows_.exists_keys
  have lastEq := getLast?_eq_some_getLast (nonempty filled)
  refine ⟨_, holds.maxKey_eq lastEq, listed _ (getLast_mem _), ?_⟩
  intro linked
  obtain ⟨next, link⟩ := Option.ne_none_iff_exists'.mp linked
  have last := ordered.bound_mem link
  rw [bounds_eq linked, getLast?_map, lastEq] at last
  exact (Option.some.inj last).symm

theorem isLeaf_iff : node.isLeaf = true ↔ outline.height name = 0 := by
  cases shows_ with
  | leaf embodies =>
    cases ordered with
    | leaf bottom => exact iff_of_true embodies.kind bottom
  | inner isBranch =>
    obtain ⟨height, upper⟩ := ordered.exists_height
    exact iff_of_false (by rw [isBranch.kind]; simp) (by omega)
  | seed isInner =>
    obtain ⟨height, upper⟩ := ordered.exists_height
    exact iff_of_false (by rw [isInner.kind]; simp) (by omega)

theorem exists_passes (hasCells : page.cells ≠ []) (above : outline.low name < (key : WithTop K))
    (upTo : (key : WithTop K) ≤ page.bound) :
    ∃ child hit, node.Passes key child hit ∧ (∃ cell ∈ page.cells, cell.2 = child) ∧
      outline.height name = outline.height child + 1 ∧ outline.low child < (key : WithTop K) ∧
      (hit = true → (key : WithTop K) ∈ page.bounds) := by
  cases shows_ with
  | leaf | seed => exact absurd rfl hasCells
  | @inner branch keys isBranch =>
    obtain ⟨height, upper⟩ := ordered.exists_height
    obtain ⟨hangs, last⟩ := ordered.hangs hasCells upper
    obtain ⟨left, bound, child, right, cells_eq, smaller, upToCell, heightEq, aboveChild⟩ :=
      hangs.exists_cell last above upTo
    have rising := hangs.ascending.2
    refine ⟨child, _, isBranch.passes rising cells_eq smaller upToCell,
      ⟨(bound, child), ?_, rfl⟩, by rw [upper, heightEq], aboveChild, ?_⟩
    · rw [Page.cells, cells_eq]
      exact mem_append_cons_self
    · intro hit
      obtain ⟨met, metEq⟩ := Option.isSome_iff_exists.mp hit
      obtain ⟨listed, rfl⟩ := (isBranch.ascending_keys rising).findKey_eq_some.mp metEq
      rw [Page.bounds, isBranch.bounds_eq]
      exact mem_append_left _ (mem_map_of_mem listed)

end

end BLinkNode.Shows

/-! ## The level above

Insertions leave `upper_level_` alone, and hand it on to new siblings. -/

namespace BLinkNode

variable {node newNode placed left right : BLinkNode K V} {index : Nat} {leftKey key : K}
  {value : V}
  {leftNode rightNode child address : Ptr} {nodeSize : Nat}

theorem setKey_upperLevel (written : node.setKey index key = .ok placed) :
    placed.upperLevel = node.upperLevel := by
  rw [setKey] at written
  obtain ⟨_, _, result⟩ := bind_eq_ok.mp written
  cases result
  rfl

theorem setChild_upperLevel (written : node.setChild index child = .ok placed) :
    placed.upperLevel = node.upperLevel := by
  rw [setChild] at written
  obtain ⟨_, _, result⟩ := bind_eq_ok.mp written
  cases result
  rfl

theorem setEntry_upperLevel (written : node.setEntry index key value = .ok placed) :
    placed.upperLevel = node.upperLevel := by
  rw [setEntry] at written
  obtain ⟨_, _, rest⟩ := bind_eq_ok.mp written
  obtain ⟨_, _, result⟩ := bind_eq_ok.mp rest
  cases result
  rfl

theorem setValue_upperLevel (written : node.setValue index value = .ok placed) :
    placed.upperLevel = node.upperLevel := by
  rw [setValue] at written
  obtain ⟨_, _, rest⟩ := bind_eq_ok.mp written
  obtain ⟨_, _, result⟩ := bind_eq_ok.mp rest
  cases result
  rfl

theorem leafSplit_upperLevel (split : node.leafSplit newNode key value index = .ok (left, right)) :
    left.upperLevel = node.upperLevel ∧ right.upperLevel = newNode.upperLevel := by
  rw [leafSplit] at split
  split at split
  · rw [leafSplitLow] at split
    obtain ⟨moved, _, split⟩ := bind_eq_ok.mp split
    obtain ⟨_, _, split⟩ := bind_eq_ok.mp split
    obtain ⟨shifted, _, split⟩ := bind_eq_ok.mp split
    obtain ⟨placed, written, split⟩ := bind_eq_ok.mp split
    have kept := setEntry_upperLevel written
    cases split
    exact ⟨kept, rfl⟩
  · rw [leafSplitHigh] at split
    obtain ⟨moved, _, split⟩ := bind_eq_ok.mp split
    obtain ⟨placed, written, split⟩ := bind_eq_ok.mp split
    obtain ⟨rest, _, split⟩ := bind_eq_ok.mp split
    obtain ⟨_, _, split⟩ := bind_eq_ok.mp split
    have kept := setEntry_upperLevel written
    cases split
    exact ⟨rfl, kept⟩
theorem innerSplit_upperLevel (split : node.innerSplit newNode leftKey rightNode index =
      .ok (left, right)) :
    left.upperLevel = node.upperLevel ∧ right.upperLevel = newNode.upperLevel := by
  rw [innerSplit] at split
  split at split
  · rw [innerSplitLow] at split
    obtain ⟨moved, _, split⟩ := bind_eq_ok.mp split
    obtain ⟨last, _, split⟩ := bind_eq_ok.mp split
    obtain ⟨withLast, lastWritten, split⟩ := bind_eq_ok.mp split
    obtain ⟨_, _, split⟩ := bind_eq_ok.mp split
    obtain ⟨shifted, _, split⟩ := bind_eq_ok.mp split
    obtain ⟨keyed, keyWritten, split⟩ := bind_eq_ok.mp split
    have newKept := setChild_upperLevel lastWritten
    have kept := setKey_upperLevel keyWritten
    split at split
    · obtain ⟨placed, written, split⟩ := bind_eq_ok.mp split
      cases split
      exact ⟨(setChild_upperLevel written).trans kept, newKept⟩
    · obtain ⟨placed, written, split⟩ := bind_eq_ok.mp split
      cases split
      exact ⟨kept, (setChild_upperLevel written).trans newKept⟩
  · rw [innerSplitHigh] at split
    obtain ⟨moved, _, split⟩ := bind_eq_ok.mp split
    obtain ⟨child, _, split⟩ := bind_eq_ok.mp split
    obtain ⟨withChild, childWritten, split⟩ := bind_eq_ok.mp split
    obtain ⟨keyed, keyWritten, split⟩ := bind_eq_ok.mp split
    obtain ⟨placed, written, split⟩ := bind_eq_ok.mp split
    obtain ⟨rest, _, split⟩ := bind_eq_ok.mp split
    obtain ⟨_, _, split⟩ := bind_eq_ok.mp split
    have childKept := setChild_upperLevel childWritten
    cases split
    exact ⟨rfl, (setChild_upperLevel written).trans
      ((setKey_upperLevel keyWritten).trans childKept)⟩

def KeepsUpper (node : BLinkNode K V) (result : BLinkNode K V × Option (BLinkNode K V)) : Prop :=
  result.1.upperLevel = node.upperLevel ∧
    ∀ split, result.2 = some split → split.upperLevel = node.upperLevel

variable {result : BLinkNode K V × Option (BLinkNode K V)} [Inhabited K] [Inhabited V]
variable {policy : SplitPolicy nodeSize}

theorem leafPlace_keepsUpper (placed : node.leafPlace policy address key value index = .ok result) :
    node.KeepsUpper result := by
  rw [leafPlace] at placed
  split at placed
  · obtain ⟨shifted, _, placed⟩ := bind_eq_ok.mp placed
    obtain ⟨taken, written, placed⟩ := bind_eq_ok.mp placed
    have kept := setEntry_upperLevel written
    cases placed
    exact ⟨kept, by simp⟩
  · obtain ⟨⟨left, right⟩, split, placed⟩ := bind_eq_ok.mp placed
    obtain ⟨_, _, placed⟩ := bind_eq_ok.mp placed
    obtain ⟨leftKept, rightKept⟩ := leafSplit_upperLevel split
    cases placed
    refine ⟨leftKept, ?_⟩
    rintro _ ⟨⟩
    exact rightKept

theorem innerPlace_keepsUpper
    (placed : node.innerPlace policy address leftKey leftNode rightNode index = .ok result) :
    node.KeepsUpper result := by
  have finish : ∀ {node' : BLinkNode K V}, node'.upperLevel = node.upperLevel →
      (do
        let shifted ← node'.setKey index leftKey
        let shifted ← shifted.setChild (index + 1) rightNode
        return ({ shifted with itemCnt := node.itemCnt + 1 }, none)) = Except.ok result →
      node.KeepsUpper result := by
    intro node' kept placed
    obtain ⟨keyed, keyWritten, placed⟩ := bind_eq_ok.mp placed
    obtain ⟨taken, written, placed⟩ := bind_eq_ok.mp placed
    cases placed
    refine ⟨?_, by simp⟩
    exact (setChild_upperLevel written).trans ((setKey_upperLevel keyWritten).trans kept)
  rw [innerPlace] at placed
  split at placed
  · obtain ⟨shifted, _, placed⟩ := bind_eq_ok.mp placed
    -- a node without keys gets its left child first
    split at placed
    · obtain ⟨rooted, rootWritten, placed⟩ := bind_eq_ok.mp placed
      have rootKept := setChild_upperLevel rootWritten
      exact finish rootKept placed
    · exact @finish (node.withBranches shifted) rfl placed
  · obtain ⟨⟨left, right⟩, split, placed⟩ := bind_eq_ok.mp placed
    obtain ⟨_, _, placed⟩ := bind_eq_ok.mp placed
    obtain ⟨leftKept, rightKept⟩ := innerSplit_upperLevel split
    cases placed
    refine ⟨leftKept, ?_⟩
    rintro _ ⟨⟩
    exact rightKept

variable [LinearOrder K]

theorem leafInsert_keepsUpper
    (inserted : node.leafInsert policy address key value index = .ok result) :
    node.KeepsUpper result := by
  rw [leafInsert] at inserted
  obtain ⟨_, _, inserted⟩ := bind_eq_ok.mp inserted
  split at inserted
  · obtain ⟨_, _, inserted⟩ := bind_eq_ok.mp inserted
    obtain ⟨_, _, inserted⟩ := bind_eq_ok.mp inserted
    exact leafPlace_keepsUpper inserted
  · exact leafPlace_keepsUpper inserted

theorem innerInsert_keepsUpper
    (inserted : node.innerInsert policy address leftKey leftNode rightNode = .ok result) :
    node.KeepsUpper result := by
  rw [innerInsert] at inserted
  obtain ⟨_, _, inserted⟩ := bind_eq_ok.mp inserted
  obtain ⟨_, _, inserted⟩ := bind_eq_ok.mp inserted
  obtain ⟨_, _, inserted⟩ := bind_eq_ok.mp inserted
  exact innerPlace_keepsUpper inserted

end BLinkNode

/-! ## Insertion -/

namespace BLinkNode

variable {params : Parameters} {node : BLinkNode K V} {address : Ptr} [LinearOrder K]
  [Inhabited K] [Inhabited V]

theorem Embodies.leafInsert_spec {leaf : Leaf K V}
    (embodies : node.Embodies params.leafNodeSize leaf)
    (notNull : address ≠ nullptr) (rising : Ascending Prod.fst leaf.entries) (key : K) (value : V) :
    (∃ placed, node.leafInsert params.leafPolicy address key value
        (rankIn Prod.fst leaf.entries key) = .ok (placed, none) ∧
      placed.Shows params (.leaf (place Prod.fst leaf.entries (key, value)) leaf.link)) ∨
    ∃ lowerNode upperNode lower upper, node.leafInsert params.leafPolicy address key value
        (rankIn Prod.fst leaf.entries key) = .ok (lowerNode, some upperNode) ∧
      lowerNode.Shows params (.leaf lower (some address)) ∧
      upperNode.Shows params (.leaf upper leaf.link) ∧
      lower ++ upper = place Prod.fst leaf.entries (key, value) ∧ lower ≠ [] ∧ upper ≠ [] := by
  have bounded : rankIn Prod.fst leaf.entries key ≤ leaf.entries.length := rankIn_le_length _ _
  rw [embodies.toIsLeaf.leafInsert_eq params.leafPolicy address rising key value]
  by_cases safe : params.leafPolicy.safe leaf.entries.length = true
  · obtain ⟨placed, placedEq, isLeaf⟩ := embodies.toIsLeaf.leafPlace_safe params.leafPolicy address
      safe bounded key value
    refine .inl ⟨placed, placedEq, .of_isLeaf isLeaf embodies.link_ne ?_⟩
    exact ne_nil_of_length_pos (by rw [length_place]; omega)
  · obtain ⟨lowerNode, upperNode, splitEq, isLower, isUpper⟩ := embodies.toIsLeaf.leafPlace_split
      params.leafPolicy address safe bounded key value
    have positive : 0 < leaf.entries.length := by
      refine Nat.pos_of_ne_zero fun zero => safe ?_
      rw [zero]
      exact params.leafPolicy.safe_zero
    have lowerFilled : (insertAt leaf.entries (rankIn Prod.fst leaf.entries key) (key, value)).take
        (leaf.entries.length / 2 + 1) ≠ [] :=
      ne_nil_of_length_pos (by rw [length_take, length_insertAt]; omega)
    have upperFilled : (insertAt leaf.entries (rankIn Prod.fst leaf.entries key) (key, value)).drop
        (leaf.entries.length / 2 + 1) ≠ [] :=
      ne_nil_of_length_pos (by rw [length_drop, length_insertAt]; omega)
    refine .inr ⟨lowerNode, upperNode, _, _, splitEq, .of_isLeaf isLower ?_ lowerFilled,
      .of_isLeaf isUpper embodies.link_ne upperFilled, take_append_drop _ _, lowerFilled,
      upperFilled⟩
    exact fun same => notNull (Option.some.inj same)

theorem innerInsert_congr {nodeSize : Nat} {policy : SplitPolicy nodeSize}
    (filled : node.itemCnt ≠ 0) (leftKey : K) (leftNode leftNode' rightNode : Ptr) :
    node.innerInsert policy address leftKey leftNode rightNode =
      node.innerInsert policy address leftKey leftNode' rightNode := by
  simp only [innerInsert, innerPlace, if_neg filled]

theorem IsBranch.innerInsert_page {branch : Branch (WithTop K) Ptr} {keys : List K}
    {left right : List (WithTop K × Ptr)} {bound : WithTop K} {child : Ptr} {leftKey : K}
    (isBranch : node.IsBranch params.innerNodeSize branch keys) (notNull : address ≠ nullptr)
    (rising : Ascending Prod.fst branch.cells)
    (cells_eq : branch.cells = left ++ (bound, child) :: right)
    (smaller : ∀ cell ∈ left, cell.1 < leftKey) (upTo : (leftKey : WithTop K) ≤ bound)
    (leftNode new : Ptr) :
    (∃ placed, node.innerInsert params.innerPolicy address leftKey leftNode new =
        .ok (placed, none) ∧
      placed.Shows params
        (.inner (left ++ ((leftKey : WithTop K), child) :: (bound, new) :: right) branch.link)) ∨
    ∃ lowerNode upperNode lower upper,
      node.innerInsert params.innerPolicy address leftKey leftNode new =
        .ok (lowerNode, some upperNode) ∧
      lowerNode.Shows params (.inner lower (some address)) ∧
      upperNode.Shows params (.inner upper branch.link) ∧
      lower ++ upper = left ++ ((leftKey : WithTop K), child) :: (bound, new) :: right ∧
      lower ≠ [] ∧ upper ≠ [] := by
  have filled : node.itemCnt ≠ 0 := by
    rw [isBranch.itemCnt_eq]
    exact Nat.ne_of_gt (length_pos_of_ne_nil isBranch.keys_ne)
  rw [innerInsert_congr filled leftKey leftNode child new]
  rcases isBranch.innerInsert_spec params.innerPolicy notNull rising cells_eq smaller upTo new with
    ⟨placed, keys', placedEq, isPlaced⟩ |
    ⟨lowerNode, upperNode, lower, upper, lowerKeys, upperKeys, splitEq, splits, isLower, isUpper⟩
  · exact .inl ⟨placed, placedEq, .inner isPlaced⟩
  · refine .inr ⟨lowerNode, upperNode, lower.cells, upper.cells, splitEq, ?_, ?_, splits.cells_eq,
      lower.nonempty, upper.nonempty⟩
    · rw [← splits.lowerLink]
      exact .inner isLower
    · rw [show branch.link = upper.link from splits.upperLink.symm]
      exact .inner isUpper

theorem IsInner.innerInsert_seed (isInner : node.IsInner params.innerNodeSize [] [] nullptr)
    (address : Ptr) (leftKey : K) (leftNode new : Ptr) :
    ∃ placed, node.innerInsert params.innerPolicy address leftKey leftNode new =
        .ok (placed, none) ∧
      placed.Shows params (.inner [((leftKey : WithTop K), leftNode), (⊤, new)] none) := by
  obtain ⟨placed, placedEq, isPlaced⟩ := innerPlace_root params.innerPolicy address isInner leftKey
    leftNode new
  have scanned : node.nodeScan leftKey = .ok 0 := isInner.toHoldsKeys.nodeScan_eq .nil leftKey
  refine ⟨placed, ?_, ?_⟩
  · rw [innerInsert, assert_eq (by rw [isInner.kind]; rfl), scanned]
    simp only [ok_bind]
    rw [assert_eq (decide_eq_true (.inr ⟨isInner.itemCnt_eq.symm, isInner.sibling_eq⟩))]
    exact placedEq
  · exact @Shows.inner _ _ _ _ ⟨nullptr, [((leftKey : WithTop K), leftNode), (⊤, new)], by simp,
      none⟩ _ ⟨isPlaced, by simp, rfl, by simp⟩

end BLinkNode

end IndexResearch.BLinkTree
