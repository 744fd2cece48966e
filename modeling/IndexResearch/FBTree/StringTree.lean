import IndexResearch.FBTree.StringNode.Removal
import IndexResearch.FBTree.StringNode.Search
import IndexResearch.FBTree.Tree.Insertion

/-!
# The tree with string keys

`FBTree<String, V>`.  Its inner nodes search by prefix and features, which tells keys
apart only under conditions on the set of keys in use; for such a set they satisfy the
laws that the tree needs.
-/

namespace IndexResearch.FBTree

open List

variable {size : NodeSize}

/-- The operations of `FBTree<String, V>`, for any hash function. -/
def stringOps (size : NodeSize) (hash : ByteString → Byte) :
    NodeOps ByteString Anchor Anchor (StringNode size) where
  hash := hash
  noHigh := ⟨nullptr, ⟨[]⟩⟩
  makeHigh address key := ⟨address, key⟩
  highKey := Anchor.text
  announces := true
  new := StringNode.new
  control := StringNode.control
  next := StringNode.next
  toNext := StringNode.toNext
  indexOrSibling node key := node.indexOrSibling key.text
  insert := StringNode.insert
  remove := StringNode.remove
  anchorUpdate := StringNode.anchorUpdate
  rootRemove := StringNode.rootRemove
  midOf := id

/-- Keys among which inner nodes find their way.  No key is empty, no key begins with another
one followed by a zero byte, and either all of them or none fit into `tiny_`. -/
structure Searchable (keys : Set ByteString) : Prop where
  nonempty : ∀ key ∈ keys, 0 < key.len
  unpadded : ∀ key ∈ keys, ∀ other ∈ keys, ¬key.bytes ++ [0] <+: other.bytes
  uniform : ∀ key ∈ keys, ∀ other ∈ keys, key.len ≤ StringNode.kEmbedPrSize →
    other.len ≤ StringNode.kEmbedPrSize

namespace StringNode

/-- The node finds its way among `keys`. -/
structure Guides (keys : Set ByteString) (node : StringNode size) : Prop where
  wellFormed : node.WellFormed
  separators : ∀ sep ∈ node.view.seps, sep.text ∈ keys

end StringNode

abbrev stringReading (size : NodeSize) (keys : Set ByteString) :
    NodeReading ByteString Anchor Anchor (StringNode size) where
  view := StringNode.view
  WellFormed := StringNode.Guides keys
  decode := id
  Valid key := key ∈ keys

namespace StringNode

open ByteString InnerNode

variable {node other right : StringNode size} {keys : Set ByteString} {key : ByteString}
  {index : Nat}

theorem sibling_iff : node.control.sibling = true ↔ node.view.link ≠ none := linkOf_ne_none

theorem rightView_eq : rightView node right =
    if node.view.link.isSome then some right.view else none := by
  rw [rightView, show node.view.link.isSome = _ from isSome_linkOf _ _]

theorem length_view_kids (node : StringNode size) : node.view.kids.length =
    if node.control.sibling then node.knum else node.knum + 1 := by
  simp only [view, kidsOf]
  split
  · rw [length_tabulate]
  · rw [length_append, length_tabulate]
    rfl

/-! ## Search -/

theorem toNext_view (bounded : index ≤ node.knum)
    (rank : rankIn Anchor.text node.view.seps key = index) :
    node.view.toNext Anchor.text key = node.nextAt index :=
  toNext_of_rank rank bounded

theorem indexOrSibling_view (rank : rankIn Anchor.text node.view.seps key = index) :
    node.view.indexOrSibling Anchor.text key = node.positionAt index :=
  indexOrSibling_of_rank rank (length_view_seps node)

theorem featureIndex_empty (empty : node.knum = 0) (noPrefix : node.plen = 0) (some : 0 < key.len) :
    node.featureIndex key = .ok 0 := by
  have bound : 0 < node.featureBound key := by
    simp only [featureBound, kFeatureSize, noPrefix]
    omega
  have columns : node.bitmap = 0 := by
    apply BitVec.eq_of_getLsbD_eq
    intro column _
    rw [bitmap, empty, getLsbD_inUse (Nat.zero_le _)]
    simp
  have rows : node.searchRows key = (0, 0) := by
    obtain ⟨rows, rowsEq⟩ := Nat.exists_eq_add_one_of_ne_zero (Nat.ne_of_gt bound)
    have nothing : compareEqual size (node.features 0) (key.byte (node.plen + 0) + 128#8) &&& 0 =
      0 :=
      BitVec.and_zero
    rw [searchRows, rowsEq, columns, equalRows, if_pos nothing]
  have undecided : node.suffixCall key = none := by
    simp only [suffixCall, rows, if_pos bound]
  simp [featureIndex, rows, undecided, lessMask, leastColumn]

theorem Guides.clear (guides : node.Guides keys) (searchable : Searchable keys)
    (listed : key ∈ keys) (begins : node.Begins key) : ¬node.Ambiguous key := by
  rintro ⟨pos, inside, shorter, same⟩
  have separator : node.column pos ∈ keys :=
    guides.separators _ (mem_tabulate.mpr ⟨pos, inside, rfl⟩)
  have padded := (sameBytes_iff_padded (Nat.le_of_lt shorter) begins.compared_le).mp same
  apply searchable.unpadded _ separator key listed
  have taken : key.bytes.take (node.compared key) <+: key.bytes := take_prefix _ _
  rw [padded] at taken
  refine List.IsPrefix.trans ?_ taken
  obtain ⟨fewer, count⟩ := Nat.exists_eq_add_one_of_ne_zero (Nat.sub_ne_zero_of_lt shorter)
  rw [count, replicate_succ]
  exact ⟨List.replicate fewer 0, by simp⟩

theorem Guides.covered (guides : node.Guides keys) (searchable : Searchable keys)
    (listed : key ∈ keys) : node.plen ≤ kEmbedPrSize ∨ kEmbedPrSize < key.len := by
  rcases Nat.eq_zero_or_pos node.knum with empty | positive
  · rw [guides.wellFormed.plen_empty empty]
    exact .inl (Nat.zero_le _)
  · by_contra uncovered
    rw [not_or, Nat.not_lt] at uncovered
    have first : (node.anchors 0).text ∈ keys :=
      guides.separators _ (mem_tabulate.mpr ⟨0, positive, rfl⟩)
    have short := searchable.uniform key listed _ first uncovered.2
    exact uncovered.1 (Nat.le_trans guides.wellFormed.plen_le short)

section

variable (formed : node.WellFormed)
include formed

theorem WellFormed.sameDigits_prefixText {pos : Nat} (inside : pos < node.knum) :
    SameDigits node.plen node.prefixText (node.anchors pos).text := by
  apply SameDigits.trans _ (formed.sameDigits inside)
  apply sameDigits_of_bytes (Nat.le_of_eq formed.len_prefixText.symm) formed.plen_le
  exact fun index within => byte_take within

theorem WellFormed.rank_of_lt (below : key < node.prefixText) :
    rankIn Anchor.text node.view.seps key = 0 := by
  apply rankIn_eq_zero
  intro sep listed
  obtain ⟨pos, inside, rfl⟩ := mem_tabulate.mp listed
  have isPrefix : node.prefixText.bytes <+: (node.anchors pos).text.bytes := by
    rw [isPrefix_iff, formed.len_prefixText]
    exact formed.sameDigits_prefixText inside
  exact not_lt.mpr (le_of_lt (lt_of_lt_of_le below (le_of_isPrefix isPrefix)))

theorem WellFormed.rank_of_gt (above : node.prefixText < key)
    (differs : ¬node.prefixText.bytes <+: key.bytes) :
    rankIn Anchor.text node.view.seps key = node.knum := by
  rw [← length_view_seps node]
  apply rankIn_eq_length
  intro sep listed
  obtain ⟨pos, inside, rfl⟩ := mem_tabulate.mp listed
  have shared := formed.sameDigits_prefixText inside
  obtain ⟨index, same, less⟩ := lt_iff.mp above
  have within : index < node.plen := by
    by_contra behind
    apply differs
    rw [isPrefix_iff, formed.len_prefixText]
    exact same.mono (not_lt.mp behind)
  refine lt_iff.mpr ⟨index, (shared.mono (Nat.le_of_lt within)).symm.trans same, ?_⟩
  rw [← shared index within]
  exact less

theorem Begins.of_isPrefix (isPrefix : node.prefixText.bytes <+: key.bytes) : node.Begins key:= by
  rw [isPrefix_iff, formed.len_prefixText] at isPrefix
  refine ⟨isPrefix.len_le (Nat.le_of_eq formed.len_prefixText.symm), ?_⟩
  intro index within
  rw [← isPrefix.byte_eq within]
  exact byte_take within

end

/-- The outcomes of `prefix_compare`, and of the search behind the prefix. -/
inductive Steers (node : StringNode size) (key : ByteString) : Prop where
  | below (compares : node.prefixCompare key = .ok .lt) (positive : 0 < node.knum)
      (rank : rankIn Anchor.text node.view.seps key = 0)
  | above (compares : node.prefixCompare key = .ok .gt)
      (rank : rankIn Anchor.text node.view.seps key = node.knum)
  | within (begins : node.Begins key)
      (found : node.featureIndex key = .ok (rankIn Anchor.text node.view.seps key))

theorem Guides.steers (guides : node.Guides keys) (searchable : Searchable keys)
    (listed : key ∈ keys) : node.Steers key := by
  have formed := guides.wellFormed
  obtain ⟨result, compares, comparison⟩ :=
    prefixCompare_spec formed (guides.covered searchable listed)
  cases result with
  | lt =>
    have below := comparison.less.mp rfl
    refine .below compares (Nat.pos_of_ne_zero ?_) (formed.rank_of_lt below)
    intro empty
    obtain ⟨index, _, less⟩ := lt_iff.mp below
    have short : node.prefixText.len ≤ index := by
      rw [formed.len_prefixText, formed.plen_empty empty]
      exact Nat.zero_le _
    rw [digit_eq_zero.mpr short] at less
    exact Nat.not_lt_zero _ less
  | gt =>
    obtain ⟨above, differs⟩ := comparison.greater.mp rfl
    exact .above compares (formed.rank_of_gt above differs)
  | eq =>
    have begins := Begins.of_isPrefix formed (comparison.equal.mp rfl)
    refine .within begins ?_
    rcases Nat.eq_zero_or_pos node.knum with empty | positive
    · have none : node.view.seps = [] := by
        apply eq_nil_of_length_eq_zero
        rw [length_view_seps, empty]
      rw [featureIndex_empty empty (formed.plen_empty empty) (searchable.nonempty key listed), none]
      rfl
    · obtain ⟨index, found, separates⟩ := featureIndex_spec formed begins positive
        (guides.clear searchable listed begins)
      have rank : rankIn Anchor.text node.view.seps key = index := by
        apply Separates.rankIn_eq
        exact separates
      rw [found, rank]

theorem Guides.toNext_law (guides : node.Guides keys) (searchable : Searchable keys)
    (alive : node.control.deleted = false) (listed : key ∈ keys) :
    node.toNext key = .ok (node.view.toNext Anchor.text key) := by
  have bounded : rankIn Anchor.text node.view.seps key ≤ node.knum := by
    rw [← length_view_seps node]
    exact rankIn_le_length _ _
  rw [toNext_view bounded rfl]
  cases guides.steers searchable listed with
  | below compares positive rank =>
    rw [toNext, if_neg (by simp [alive]), compares, rank, nextAt, if_neg (Nat.ne_of_lt positive)]
    rfl
  | above compares rank =>
    rw [toNext, if_neg (by simp [alive]), compares, rank, nextAt, if_pos rfl]
    rfl
  | within begins found =>
    rw [toNext_of_begins guides.wellFormed begins alive, found]
    rfl

theorem Guides.indexOrSibling_law (guides : node.Guides keys) (searchable : Searchable keys)
    (alive : node.control.deleted = false) (listed : key ∈ keys) :
    node.indexOrSibling key = .ok (node.view.indexOrSibling Anchor.text key) := by
  rw [indexOrSibling_view rfl]
  cases guides.steers searchable listed with
  | below compares positive rank =>
    have first : ¬(0 = node.knum ∧ node.control.sibling = true) := by omega
    rw [indexOrSibling, if_neg (by simp [alive]), compares, rank, positionAt, if_neg first]
    rfl
  | above compares rank =>
    rw [indexOrSibling, if_neg (by simp [alive]), compares, rank, positionAt]
    cases node.control.sibling with
    | true | false => simp [ok_bind, pure, Except.pure]
  | within begins found =>
    rw [indexOrSibling_of_begins guides.wellFormed begins alive, found]
    rfl

/-! ## Changes -/

theorem Guides.ascending (guides : node.Guides keys) : Ascending Anchor.text node.view.seps :=
  increasing_iff.mp guides.wellFormed.increasing

theorem Guides.of_current (current : node.Current) (bounded : node.view.seps.length ≤ size.slots)
    (rising : Ascending Anchor.text node.view.seps)
    (separators : ∀ sep ∈ node.view.seps, sep.text ∈ keys) (empty : node.knum = 0 → node.plen = 0) :
    node.Guides keys where
  wellFormed := current.wellFormed (length_view_seps node ▸ bounded) rising empty
  separators := separators

theorem Guides.insert_law (guides : node.Guides keys) (raw : StringNode size)
    (address lchild rchild : Ptr) {mid : Anchor} (listed : mid.text ∈ keys)
    (absent : ∀ sep ∈ node.view.seps, sep.text ≠ mid.text)
    (last : rankIn Anchor.text node.view.seps mid.text = node.view.seps.length →
      node.view.link = none) :
    ∃ result, node.insert raw address lchild rchild mid
        (rankIn Anchor.text node.view.seps mid.text) = .ok result ∧
      (stringReading size keys).Inserted control size node address lchild rchild mid
        (rankIn Anchor.text node.view.seps mid.text) result := by
  have limit := guides.wellFormed.knum_le
  have bounded : rankIn Anchor.text node.view.seps mid.text ≤ node.knum := by
    rw [← length_view_seps node]
    exact rankIn_le_length _ _
  have rightmost : node.control.sibling = true →
      rankIn Anchor.text node.view.seps mid.text < node.knum := by
    intro sibling
    apply Nat.lt_of_le_of_ne bounded
    intro all
    rw [← length_view_seps node] at all
    exact sibling_iff.mp sibling (last all)
  obtain ⟨result, returns⟩ := insert_returns raw address lchild rchild mid bounded
  obtain ⟨views, deleted, rightDeleted⟩ := insert_views limit bounded rightmost returns
  obtain ⟨left, rnode, newMid⟩ := result
  obtain ⟨current, rightCurrent⟩ := insert_current guides.wellFormed.current returns
  obtain ⟨lists, leftSizes, rightSizes⟩ :=
    NodeView.insert_lists views (length_view_seps node ▸ limit)
  have rising : Ascending Anchor.text (node.view.insertSeps mid
      (rankIn Anchor.text node.view.seps mid.text)) := guides.ascending.place absent
  have separators : ∀ sep ∈ node.view.insertSeps mid (rankIn Anchor.text node.view.seps mid.text),
      sep.text ∈ keys := by
    intro sep found
    rcases mem_cons.mp ((insertAt_perm _ _ _).mem_iff.mp found) with rfl | old
    · exact listed
    · exact guides.separators sep old
  rw [← lists, NodeView.pairSeps] at rising separators
  refine ⟨_, returns, ?_, deleted, views, ?_⟩
  · apply Guides.of_current current leftSizes.2 (ascending_append.mp rising).1
    · exact fun sep found => separators sep (mem_append_left _ found)
    · intro empty
      exact absurd (eq_nil_of_length_eq_zero ((length_view_seps left).trans empty)) leftSizes.1
  · intro right same
    obtain rfl : rnode = some right := same
    obtain ⟨nonempty, rightBounded⟩ := rightSizes right.view rfl
    refine ⟨?_, rightDeleted right rfl⟩
    apply Guides.of_current (rightCurrent right rfl) rightBounded (ascending_append.mp rising).2.1
    · exact fun sep found => separators sep (mem_append_right _ found)
    · intro empty
      exact absurd (eq_nil_of_length_eq_zero ((length_view_seps right).trans empty)) nonempty

section Remove

variable (guides : node.Guides keys)
  (neighbours : node.view.link ≠ none → (stringReading size keys).Neighbours Anchor.text node right)
include neighbours

theorem rightView_guides {view : NodeView Anchor} (some : rightView node right = some view) :
    right.Guides keys ∧ Ascending Anchor.text (node.view.seps ++ view.seps) ∧ right.view = view:= by
  rw [rightView] at some
  split at some
  · rename_i sibling
    have facts := neighbours (sibling_iff.mp sibling)
    cases some
    exact ⟨facts.wellFormed, facts.ascending, rfl⟩
  · cases some

include guides

theorem remaining_separators {mid : Anchor} {removal : NodeView.Removal Anchor}
    (found : node.view.remove size (rightView node right) mid index = some removal)
    (inside : index < node.view.seps.length) :
    Ascending Anchor.text (removal.node.pairSeps removal.right) ∧
      ∀ sep ∈ removal.node.pairSeps removal.right, sep.text ∈ keys := by
  have lengths : node.view.kids.length = if (rightView node right).isSome then
      node.view.seps.length else node.view.seps.length + 1 := by
    rw [length_view_seps, length_view_kids, rightView]
    cases node.control.sibling with
    | true => rfl
    | false => rfl
  have sublist := eraseIdx_sublist (node.view.pairSeps (rightView node right)) index
  rw [(NodeView.remove_lists found inside lengths).1]
  cases some : rightView node right with
  | none =>
    rw [some, NodeView.pairSeps, Option.map_none, Option.getD_none, append_nil] at sublist
    rw [NodeView.pairSeps, Option.map_none, Option.getD_none, append_nil]
    exact ⟨guides.ascending.sublist sublist,
      fun sep listed => guides.separators sep (sublist.subset listed)⟩
  | some view =>
    obtain ⟨rightGuides, rising, rfl⟩ := rightView_guides neighbours some
    rw [some] at sublist
    refine ⟨List.Pairwise.sublist sublist rising, fun sep listed => ?_⟩
    rcases mem_append.mp (sublist.subset listed) with own | others
    · exact guides.separators sep own
    · exact rightGuides.separators sep others

theorem Guides.remove_law (this : Ptr) (mid : Anchor) (inside : index < node.view.seps.length) :
    Follows .noSeparator
      (fun removed removal => (stringReading size keys).Matches control node right removal removed)
      (node.remove right this mid index)
      (node.view.remove size (if node.view.link.isSome then some right.view else none) mid
        index) := by
  have follows := remove_views right this mid (length_view_seps node ▸ inside) (by
    intro sibling rightSibling
    have nonempty := (neighbours (sibling_iff.mp sibling)).nonempty (sibling_iff.mp rightSibling)
    have some := length_pos_of_ne_nil nonempty
    rwa [length_view_seps] at some)
  rw [← rightView_eq]
  cases found : node.view.remove size (rightView node right) mid index with
  | none =>
    rw [found] at follows
    exact follows
  | some removal =>
    rw [found] at follows
    obtain ⟨removed, removes, spec⟩ := follows
    have fresh := remove_fresh guides.wellFormed.current removes
    obtain ⟨rising, separators⟩ := remaining_separators guides neighbours found inside
    obtain ⟨sizes, rightSizes⟩ := NodeView.remove_sizes found inside
      (length_view_seps node ▸ guides.wellFormed.knum_le) (by
        intro view some
        obtain ⟨rightGuides, _, rfl⟩ := rightView_guides neighbours some
        exact length_view_seps right ▸ rightGuides.wellFormed.knum_le)
    rw [← spec.view_eq] at sizes rising separators
    refine ⟨removed, removes, ?_, spec.deleted_eq, spec.view_eq, ?_, spec.ascent, spec.absorbed⟩
    · apply Guides.of_current fresh.current sizes (ascending_append.mp rising).1
      · exact fun sep listed => separators sep (mem_append_left _ listed)
      · exact fresh.empty
    · intro view stays
      obtain ⟨_, rfl, deleted⟩ := spec.right_eq view stays
      obtain ⟨exists', nonempty, rightBounded⟩ := rightSizes _ stays
      obtain ⟨old, some⟩ := Option.ne_none_iff_exists'.mp exists'
      obtain ⟨rightGuides, _, _⟩ := rightView_guides neighbours some
      have rightCurrent := (remove_current guides.wellFormed.current rightGuides.wellFormed.current
        removes).2
      rw [stays] at rising separators
      refine ⟨?_, rfl, deleted⟩
      apply Guides.of_current rightCurrent rightBounded (ascending_append.mp rising).2.1
      · exact fun sep listed => separators sep (mem_append_right _ listed)
      · intro empty
        exact absurd (eq_nil_of_length_eq_zero ((length_view_seps _).trans empty)) nonempty

end Remove

theorem Guides.anchorUpdate_law (guides : node.Guides keys) {mid : Anchor}
    (listed : mid.text ∈ keys) (inside : index < node.view.seps.length)
    (rising : Ascending Anchor.text (node.view.seps.set index mid)) :
    ∃ updated up, node.anchorUpdate mid index = .ok (updated, up) ∧ updated.Guides keys ∧
      updated.control.deleted = node.control.deleted ∧
      (updated.view, up) = node.view.anchorUpdate mid index := by
  obtain ⟨updated, up, updates, deleted, views⟩ :=
    anchorUpdate_views mid (length_view_seps node ▸ inside)
  refine ⟨updated, up, updates, ?_, deleted, views⟩
  have seps : updated.view.seps = node.view.seps.set index mid := by
    rw [(Prod.mk.inj views).1]
  apply Guides.of_current (anchorUpdate_current guides.wellFormed.current updates)
  · rw [seps, length_set, length_view_seps]
    exact guides.wellFormed.knum_le
  · rw [seps]
    exact rising
  · rw [seps]
    intro sep found
    rcases mem_or_eq_of_mem_set found with old | rfl
    · exact guides.separators sep old
    · exact listed
  · intro empty
    rw [(anchorUpdate_frame updates).1] at empty
    rw [length_view_seps, empty] at inside
    exact absurd inside (Nat.not_lt_zero _)

theorem rootRemove_law (last : node.view.link = none) :
    if node.view.seps = [] then
      node.view.kids = [node.next] ∧ node.rootRemove.2 = some node.next ∧
      node.rootRemove.1.control.deleted = true
    else node.rootRemove.2 = none := by
  have alone : node.control.sibling = false := by
    apply eq_false_of_ne_true
    exact fun sibling => sibling_iff.mp sibling last
  have seps : node.view.seps = [] ↔ node.knum = 0 := by
    rw [← length_eq_zero_iff, length_view_seps]
  by_cases empty : node.knum = 0
  · simp [view, kidsOf, tabulate, alone, rootRemove, empty, Control.setDelete]
  · simp [seps, rootRemove, empty]

theorem Guides.new (raw : StringNode size) : (StringNode.new raw).Guides keys := by
  apply Guides.of_current (.of_empty rfl)
  · exact Nat.zero_le _
  · exact List.Pairwise.nil
  · exact fun sep listed => absurd listed not_mem_nil
  · exact fun _ => rfl

end StringNode

def stringLaws (size : NodeSize) (hash : ByteString → Byte) {keys : Set ByteString}
    (searchable : Searchable keys) : (stringOps size hash).Laws size where
  view := StringNode.view
  WellFormed := StringNode.Guides keys
  decode := id
  Valid key := key ∈ keys
  decode_midOf _ := rfl
  highKey_makeHigh _ _ := rfl
  link_eq _ := rfl
  new_spec raw := ⟨.new raw, rfl, rfl⟩
  toNext_spec _ _ guides alive listed := guides.toNext_law searchable alive listed
  indexOrSibling_spec _ _ guides alive _ listed := guides.indexOrSibling_law searchable alive listed
  insert_spec _ raw address lchild rchild _ guides listed absent last :=
    guides.insert_law raw address lchild rchild listed absent last
  remove_spec _ _ this mid _ guides inside neighbours :=
    guides.remove_law neighbours this mid inside
  anchorUpdate_spec _ _ _ guides inside listed rising :=
    guides.anchorUpdate_law listed inside rising
  rootRemove_spec _ _ last := StringNode.rootRemove_law last

end IndexResearch.FBTree
