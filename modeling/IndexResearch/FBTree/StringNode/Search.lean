import IndexResearch.FBTree.StringNode.Prefix

/-!
# Searching a node with string separators

The column-wise comparison of the features and the binary search among the separators
that the features cannot tell apart.  The padding of a separator that ends within its
features is read as part of the separator.  This never matters in the row that decides,
but it makes such a separator a candidate of the binary search, which takes it for a sign
of a concurrent change and stops.
-/

namespace IndexResearch.FBTree.StringNode

open ByteString

variable {size : NodeSize} {node : StringNode size} {key : ByteString}

def column (node : StringNode size) (index : Nat) : ByteString := (node.anchors index).text

structure Begins (node : StringNode size) (key : ByteString) : Prop where
  plen_le : node.plen ≤ key.len
  same : ∀ index < node.plen, key.byte index = (node.anchors 0).text.byte index

def compared (node : StringNode size) (key : ByteString) : Nat := node.plen + node.featureBound key

theorem feature_eq (plen : Nat) (text : ByteString) (fid : Nat) :
    feature plen text fid = text.byte (plen + fid) + 128#8 := by
  unfold feature
  split
  · rfl
  · rename_i outside
    rw [byte_of_le (not_lt.mp outside)]

theorem featureBound_le (node : StringNode size) (key : ByteString) :
    node.featureBound key ≤ kFeatureSize := Nat.min_le_left _ _

theorem Begins.compared_le (begins : node.Begins key) : node.compared key ≤ key.len := by
  have := begins.plen_le
  simp only [compared, featureBound]
  omega

section Rows

variable (formed : node.WellFormed)
include formed

variable (key) in

theorem searchRows_spec :
    EqualRows node.features (fun rid => key.byte (node.plen + rid) + 128#8) (node.featureBound key)
      node.bitmap (node.searchRows key) := by
  apply equalRows_spec
  intro pos listed
  rw [bitmap, getLsbD_inUse formed.knum_le, decide_eq_true_eq] at listed
  exact Nat.lt_of_lt_of_le listed formed.knum_le

variable (key) in

theorem searchRows_ne_zero (positive : 0 < node.knum) : (node.searchRows key).2 ≠ 0 :=
  (searchRows_spec key formed).nonempty (inUse_ne_zero formed.knum_le positive)

theorem Begins.sameBytes (begins : node.Begins key) {pos : Nat} (inside : pos < node.knum) :
    SameBytes node.plen (node.column pos) key := by
  intro index below
  rw [begins.same index below]
  exact ((formed.sameDigits inside).byte_eq below).symm

variable (begins : node.Begins key)
include begins

theorem searchRows_member (pos : Nat) :
    (node.searchRows key).2.getLsbD pos = true ↔ pos < node.knum ∧
      SameBytes (node.plen + (node.searchRows key).1) (node.column pos) key := by
  have spec := searchRows_spec key formed
  have rowBound := Nat.le_trans spec.row_le (featureBound_le node key)
  rw [spec.agrees, bitmap, getLsbD_inUse formed.knum_le, decide_eq_true_eq]
  constructor
  · rintro ⟨inside, rows⟩
    refine ⟨inside, ?_⟩
    intro index below
    by_cases inPrefix : index < node.plen
    · exact begins.sameBytes formed inside index inPrefix
    · have row := rows (index - node.plen) (by omega)
      rw [formed.features_eq _ (by omega) _ inside, feature_eq,
        Nat.add_sub_cancel' (not_lt.mp inPrefix)] at row
      exact (BitVec.add_left_inj _).mp row
  · rintro ⟨inside, same⟩
    refine ⟨inside, ?_⟩
    intro row below
    rw [formed.features_eq _ (by omega) _ inside, feature_eq]
    exact congrArg (· + 128#8) (same (node.plen + row) (by omega))

theorem searchRows_narrowed : Narrowed node.column node.knum key (node.searchRows key).2 := by
  have member := searchRows_member formed begins
  have outsider : ∀ {pos}, pos < node.knum →
      (node.searchRows key).2.getLsbD pos = false →
      ¬SameBytes (node.plen + (node.searchRows key).1) (node.column pos) key := by
    intro pos within outside same
    rw [(member pos).mpr ⟨within, same⟩] at outside
    exact Bool.false_ne_true outside.symm
  refine ⟨fun pos listed => ((member pos).mp listed).1, formed.increasing, ?_, ?_⟩
  · intro pos inside within outside listed before
    obtain ⟨insideBound, same⟩ := (member inside).mp listed
    exact lt_of_lt_of_sameBytes (formed.increasing pos inside before insideBound) same
      (outsider within outside)
  · intro pos inside within outside listed after
    obtain ⟨_, same⟩ := (member inside).mp listed
    exact lt_asymm (lt_of_sameBytes_of_lt (formed.increasing inside pos after within) same
      (outsider within outside))

theorem getLsbD_lessMask (short : (node.searchRows key).1 < node.featureBound key) (pos : Nat) :
    (lessMask size (node.features (node.searchRows key).1)
        (key.byte (node.plen + (node.searchRows key).1) + 128#8)
        (node.searchRows key).2).getLsbD pos = true ↔
    (node.searchRows key).2.getLsbD pos = true ∧ node.column pos < key := by
  rw [lessMask, BitVec.getLsbD_and, Bool.and_eq_true, and_comm, and_congr_right_iff]
  intro listed
  have spec := searchRows_spec key formed
  have rowBound := featureBound_le node key
  obtain ⟨inside, same⟩ := (searchRows_member formed begins pos).mp listed
  have differs := spec.differs short pos listed
  rw [formed.features_eq _ (by omega) _ inside, feature_eq] at differs
  rw [getLsbD_compareLess, Bool.and_eq_true, decide_eq_true_eq,
    formed.features_eq _ (by omega) _ inside, feature_eq, slt_iff_shifted]
  have unshift : ∀ byte : Byte, byte + 128#8 + 128#8 = byte := by decide
  rw [unshift, unshift]
  constructor
  · exact fun less => lt_of_byte_lt same less.2
  · intro below
    refine ⟨Nat.lt_of_lt_of_le inside formed.knum_le, ?_⟩
    by_contra notLess
    have distinct : (key.byte (node.plen + (node.searchRows key).1)).toNat ≠
        ((node.column pos).byte (node.plen + (node.searchRows key).1)).toNat := by
      intro equal
      exact differs (congrArg (· + 128#8) (BitVec.eq_of_toNat_eq equal.symm))
    have greater : key < node.column pos := by
      apply lt_of_byte_lt (fun index before => (same index before).symm)
      exact Nat.lt_of_le_of_ne (not_lt.mp notLess) distinct
    exact lt_asymm below greater

end Rows

/-! ## Binary search -/

/-- A range of separators that agree with the key in the bytes compared so far, with all
smaller separators before and all others behind. -/
structure Searching (node : StringNode size) (key : ByteString) (cmps lid hid : Nat) : Prop where
  lid_le : lid ≤ hid
  hid_le : hid ≤ node.knum
  below : ∀ pos < lid, node.column pos < key
  above : ∀ pos, hid ≤ pos → pos < node.knum → ¬node.column pos < key
  same : ∀ pos, lid ≤ pos → pos < hid → SameDigits cmps key (node.column pos)

theorem suffixLoop_spec (formed : node.WellFormed) {cmps fuel lid hid : Nat}
    (long : cmps ≤ key.len) (searching : Searching node key cmps lid hid)
    (enough : hid - lid < fuel) : ∃ index, node.suffixLoop key cmps fuel lid hid = .ok index ∧
      Separates node.column node.knum key index := by
  induction fuel generalizing lid hid with
  | zero => exact absurd enough (Nat.not_lt_zero _)
  | succ fuel ih =>
    have ordered := searching.lid_le
    have bounded := searching.hid_le
    rw [suffixLoop]
    by_cases open' : lid < hid
    · rw [if_pos open']
      simp only
      have same := searching.same ((lid + hid) / 2) (by omega) (by omega)
      have midLong : cmps ≤ (node.column ((lid + hid) / 2)).len := same.len_le long
      have comparison := Util.compare_suffix same long midLong
      dsimp only [column] at midLong comparison
      rw [if_neg (Nat.not_lt.mpr midLong), comparison]
      cases result : cmp key (node.anchors ((lid + hid) / 2)).text with
      | lt =>
        have less := cmp_eq_lt_iff _ _ |>.mp result
        apply ih _ (by omega)
        refine ⟨by omega, by omega, searching.below, ?_, ?_⟩
        · intro pos notBefore inside
          apply lt_asymm
          rcases Nat.eq_or_lt_of_le notBefore with rfl | after
          · exact less
          · exact lt_trans less (formed.increasing _ pos after inside)
        · exact fun pos lower upper => searching.same pos lower (by omega)
      | eq =>
        have equal := cmp_eq_eq_iff _ _ |>.mp result
        refine ⟨_, rfl, by omega, ?_, ?_⟩
        · intro pos before
          rw [equal]
          exact formed.increasing pos _ before (by omega)
        · intro pos notBefore inside
          rw [equal]
          rcases Nat.eq_or_lt_of_le notBefore with rfl | after
          · exact lt_irrefl _
          · exact lt_asymm (formed.increasing _ pos after inside)
      | gt =>
        have greater := cmp_eq_gt_iff _ _ |>.mp result
        apply ih _ (by omega)
        refine ⟨by omega, by omega, ?_, searching.above, ?_⟩
        · intro pos before
          rcases Nat.lt_succ_iff_lt_or_eq.mp before with earlier | rfl
          · exact lt_trans (formed.increasing pos _ earlier (by omega)) greater
          · exact greater
        · exact fun pos lower upper => searching.same pos (by omega) upper
    · rw [if_neg open']
      have equal : lid = hid := by omega
      exact ⟨hid, rfl, bounded, equal ▸ searching.below, searching.above⟩

/-! ## The index of a key -/

section Index

variable (formed : node.WellFormed) (begins : node.Begins key)
include formed begins

/-- When all features agree, the candidates are the separators that agree with the key in
all compared bytes. -/
theorem suffixCall_range {cmps lid hid : Nat} (positive : 0 < node.knum)
    (called : node.suffixCall key = some (cmps, lid, hid)) :
    cmps = node.compared key ∧ lid = leastColumn (node.searchRows key).2 ∧
      hid = afterLast (node.searchRows key).2 ∧ ∀ pos, lid ≤ pos ∧ pos < hid ↔
        pos < node.knum ∧ SameBytes (node.compared key) (node.column pos) key := by
  have narrowed := searchRows_narrowed formed begins
  have nonempty := searchRows_ne_zero key formed positive
  simp only [suffixCall] at called
  split at called
  · cases called
  · rename_i whole
    have rowEq : (node.searchRows key).1 = node.featureBound key :=
      Nat.le_antisymm (searchRows_spec key formed).row_le (not_lt.mp whole)
    cases called
    refine ⟨rfl, rfl, rfl, ?_⟩
    intro pos
    rw [compared, ← rowEq, ← searchRows_member formed begins]
    constructor
    · rintro ⟨lower, upper⟩
      exact narrowed.between nonempty lower upper
    · intro listed
      obtain ⟨most, mostEq, _, maximal⟩ := Bitmap.countlZero_spec nonempty
      refine ⟨(leastColumn_spec nonempty).2 pos listed, ?_⟩
      rw [afterLast, mostEq]
      exact Nat.lt_succ_of_le (maximal pos listed)

def Ambiguous (node : StringNode size) (key : ByteString) : Prop :=
  ∃ pos < node.knum, (node.column pos).len < node.compared key ∧
    SameBytes (node.compared key) (node.column pos) key

theorem featureIndex_spec (positive : 0 < node.knum) (clear : ¬node.Ambiguous key) :
    ∃ index, node.featureIndex key = .ok index ∧ Separates node.column node.knum key index := by
  have narrowed := searchRows_narrowed formed begins
  have nonempty := searchRows_ne_zero key formed positive
  cases called : node.suffixCall key with
  | none =>
    have short : (node.searchRows key).1 < node.featureBound key := by
      by_contra whole
      simp only [suffixCall, if_neg whole] at called
      cases called
    have decided := narrowed.decided (fun _ => nonempty) (getLsbD_lessMask formed begins short)
    refine ⟨_, ?_, decided⟩
    simp only [featureIndex, called]
    exact (apply_ite Except.ok _ _ _).symm
  | some range =>
    obtain ⟨cmps, lid, hid⟩ := range
    obtain ⟨rfl, lidEq, hidEq, members⟩ := suffixCall_range formed begins positive called
    obtain ⟨present, _⟩ := leastColumn_spec nonempty
    obtain ⟨most, mostEq, last, maximal⟩ := Bitmap.countlZero_spec nonempty
    have lidLt : lid < hid := by
      rw [lidEq, hidEq, afterLast, mostEq]
      exact Nat.lt_succ_of_le (maximal _ present)
    have hidLe : hid ≤ node.knum := by
      rw [hidEq, afterLast, mostEq]
      exact narrowed.inside most last
    have long := begins.compared_le
    have searching : Searching node key (node.compared key) lid hid := by
      refine ⟨Nat.le_of_lt lidLt, hidLe, ?_, ?_, ?_⟩
      · intro pos before
        rw [lidEq] at before
        exact narrowed.before_least nonempty before
      · intro pos behind inside
        rw [hidEq] at behind
        exact narrowed.behind_last nonempty behind inside
      · intro pos lower upper
        obtain ⟨inside, same⟩ := (members pos).mp ⟨lower, upper⟩
        apply sameDigits_of_bytes long
        · by_contra shorter
          exact clear ⟨pos, inside, not_le.mp shorter, same⟩
        · exact fun index below => (same index below).symm
    obtain ⟨index, loopEq, separates⟩ :=
      suffixLoop_spec formed long searching (Nat.lt_succ_self (hid - lid))
    refine ⟨index, ?_, separates⟩
    simp only [featureIndex, called]
    rw [if_neg nonempty, suffixBs, if_neg (by omega), loopEq]

end Index

/-! ## Agreement with plain search -/

/-- Where a search that finds `index` continues. -/
def nextAt (node : StringNode size) (index : Nat) : Bool × Ptr :=
  if index = node.knum then (node.control.sibling, node.next) else (false, node.children index)

def positionAt (node : StringNode size) (index : Nat) : Position :=
  if index = node.knum ∧ node.control.sibling then .sibling node.next else .index index

theorem Begins.isPrefix (begins : node.Begins key) (formed : node.WellFormed) :
    node.prefixText.bytes <+: key.bytes := by
  rw [isPrefix_iff, formed.len_prefixText]
  apply sameDigits_of_bytes (Nat.le_of_eq formed.len_prefixText.symm) begins.plen_le
  intro index inside
  rw [begins.same index inside]
  exact byte_take inside

theorem prefixCompare_of_begins (formed : node.WellFormed) (begins : node.Begins key) :
    node.prefixCompare key = .ok .eq := by
  have covered : node.plen ≤ kEmbedPrSize ∨ kEmbedPrSize < key.len := by
    have := begins.plen_le
    omega
  obtain ⟨result, compareEq, comparison⟩ := prefixCompare_spec formed covered
  rw [compareEq, comparison.equal.mpr (begins.isPrefix formed)]

theorem toNext_of_begins (formed : node.WellFormed) (begins : node.Begins key)
    (alive : node.control.deleted = false) :
    node.toNext key = (node.featureIndex key).map node.nextAt := by
  rw [toNext, if_neg (by simp [alive]), prefixCompare_of_begins formed begins]
  simp only [bind, Except.bind, if_neg (Nat.not_lt.mpr begins.plen_le)]
  cases node.featureIndex key with
  | error fault => rfl
  | ok index => rfl

theorem indexOrSibling_of_begins (formed : node.WellFormed) (begins : node.Begins key)
    (alive : node.control.deleted = false) :
    node.indexOrSibling key = (node.featureIndex key).map node.positionAt := by
  rw [indexOrSibling, if_neg (by simp [alive]), prefixCompare_of_begins formed begins]
  simp only [bind, Except.bind, if_neg (Nat.not_lt.mpr begins.plen_le)]
  cases node.featureIndex key with
  | error fault => rfl
  | ok index => rfl

/-- The search agrees with a plain search among the separators `array`.  A node that has
left the tree is not searched. -/
structure SearchExact (node : StringNode size) (array : List Anchor) (key : ByteString) : Prop where
  index : node.featureIndex key = .ok (rankIn Anchor.text array key)
  toNext : node.toNext key = .ok
    (if node.control.deleted then (true, node.next)
    else if rankIn Anchor.text array key = array.length then (node.control.sibling, node.next)
    else (false, node.children (rankIn Anchor.text array key)))
  indexOrSibling : node.indexOrSibling key = .ok
    (if node.control.deleted then .sibling node.next
    else if rankIn Anchor.text array key = array.length ∧ node.control.sibling then
      .sibling node.next
    else .index (rankIn Anchor.text array key))
  /-- Every separator that the binary search may meet has the compared bytes. -/
  suffix : ∀ cmps lid hid, node.suffixCall key = some (cmps, lid, hid) →
    ∀ pos, lid ≤ pos → pos < hid → cmps ≤ (node.anchors pos).text.len

/-- Some separator is shorter than the part of the key that is compared before the binary
search, and only zero bytes of the key are missing from it. -/
def Padded (array : List Anchor) (key : ByteString) : Prop :=
  ∃ anchor ∈ array,
    anchor.text.len < min key.len ((commonText array).len + kFeatureSize) ∧
    key.bytes.take (min key.len ((commonText array).len + kFeatureSize)) = anchor.text.bytes ++
      List.replicate (min key.len ((commonText array).len + kFeatureSize) - anchor.text.len) 0

section Rebuilt

variable {array : List Anchor} {rebuilt : StringNode size}

theorem Rebuilt.ambiguous_iff (spec : Rebuilt (node.load array) rebuilt) (nonempty : array ≠ [])
    (begins : rebuilt.Begins key) : rebuilt.Ambiguous key ↔ Padded array key := by
  have lengths : (commonText array).len = rebuilt.plen := by
    rw [← spec.prefixText_eq nonempty, spec.wellFormed.len_prefixText]
  have comparedEq : min key.len ((commonText array).len + kFeatureSize) = rebuilt.compared key := by
    have := begins.plen_le
    simp only [compared, featureBound]
    omega
  have listed : array = tabulate rebuilt.knum rebuilt.anchors := by
    rw [spec.knum_eq, spec.anchors_eq, tabulate_load]
  unfold Padded Ambiguous
  rw [comparedEq]
  constructor
  · rintro ⟨pos, inside, shorter, same⟩
    refine ⟨rebuilt.anchors pos, ?_, shorter, ?_⟩
    · rw [listed]
      exact mem_tabulate.mpr ⟨pos, inside, rfl⟩
    · exact (sameBytes_iff_padded (Nat.le_of_lt shorter) begins.compared_le).mp same
  · rintro ⟨anchor, member, shorter, padded⟩
    rw [listed] at member
    obtain ⟨pos, inside, rfl⟩ := mem_tabulate.mp member
    refine ⟨pos, inside, shorter, ?_⟩
    exact (sameBytes_iff_padded (Nat.le_of_lt shorter) begins.compared_le).mpr padded

theorem Ambiguous.suffixCall (ambiguous : node.Ambiguous key) (formed : node.WellFormed)
    (begins : node.Begins key) :
    ∃ cmps lid hid, node.suffixCall key = some (cmps, lid, hid) ∧
      ∃ pos, lid ≤ pos ∧ pos < hid ∧ (node.anchors pos).text.len < cmps := by
  obtain ⟨pos, inside, shorter, same⟩ := ambiguous
  have spec := searchRows_spec key formed
  have rowLe := spec.row_le
  cases called : node.suffixCall key with
  | none =>
    have short : (node.searchRows key).1 < node.featureBound key := by
      by_contra whole
      simp only [StringNode.suffixCall, if_neg whole] at called
      cases called
    have listed := (searchRows_member formed begins pos).mpr
      ⟨inside, fun index below => same index (by unfold compared; omega)⟩
    have differs := spec.differs short pos listed
    rw [formed.features_eq _ (by have := featureBound_le node key; omega) _ inside, feature_eq]
      at differs
    exact absurd (congrArg (· + 128#8) (same _ (by unfold compared; omega))) differs
  | some range =>
    obtain ⟨cmps, lid, hid⟩ := range
    obtain ⟨rfl, _, _, members⟩ :=
      suffixCall_range formed begins (Nat.zero_lt_of_lt inside) called
    obtain ⟨lower, upper⟩ := (members pos).mpr ⟨inside, same⟩
    exact ⟨_, lid, hid, rfl, pos, lower, upper, shorter⟩

/-- The search agrees with plain search, and the binary search meets no separator that is
too short, unless a separator is padded to the compared part of the key. -/
theorem searchExact_iff (node : StringNode size) (array : List Anchor) (rebuilt : StringNode size)
    (key : ByteString) (loadable : Loadable size array)
    (rebuildEq : node.rebuild array = .ok rebuilt) (begins : rebuilt.Begins key) :
    SearchExact rebuilt array key ↔ ¬Padded array key := by
  obtain ⟨found, foundEq, spec⟩ := rebuild_spec node loadable
  rw [rebuildEq] at foundEq
  cases foundEq
  have formed := spec.wellFormed
  have positive : 0 < rebuilt.knum := by
    rw [spec.knum_eq]
    exact List.length_pos_of_ne_nil loadable.nonempty
  rw [← spec.ambiguous_iff loadable.nonempty begins]
  constructor
  · intro exact' ambiguous
    obtain ⟨cmps, lid, hid, called, pos, lower, upper, shorter⟩ :=
      ambiguous.suffixCall formed begins
    exact Nat.not_lt.mpr (exact'.suffix cmps lid hid called pos lower upper) shorter
  · intro clear
    obtain ⟨index, indexEq, separates⟩ := featureIndex_spec formed begins positive clear
    have rank : rankIn Anchor.text array key = index := by
      rw [← tabulate_load node array, ← spec.knum_eq, ← spec.anchors_eq]
      apply Separates.rankIn_eq
      exact separates
    have count : array.length = rebuilt.knum := spec.knum_eq.symm
    refine ⟨?_, ?_, ?_, ?_⟩
    · rw [indexEq, rank]
    · by_cases deleted : rebuilt.control.deleted = true
      · rw [toNext, if_pos deleted, if_pos deleted]
      · rw [toNext_of_begins formed begins (eq_false_of_ne_true deleted), indexEq, rank,
          count, if_neg deleted]
        rfl
    · by_cases deleted : rebuilt.control.deleted = true
      · rw [indexOrSibling, if_pos deleted, if_pos deleted]
      · rw [indexOrSibling_of_begins formed begins (eq_false_of_ne_true deleted), indexEq,
          rank, count, if_neg deleted]
        rfl
    · intro cmps lid hid called pos lower upper
      obtain ⟨rfl, _, _, members⟩ := suffixCall_range formed begins positive called
      obtain ⟨inside, same⟩ := (members pos).mp ⟨lower, upper⟩
      by_contra shorter
      exact clear ⟨pos, inside, not_le.mp shorter, same⟩

end Rebuilt

/-- The separators `a` and `b`. -/
def letters : List Anchor := [⟨1, ⟨[97]⟩⟩, ⟨2, ⟨[98]⟩⟩]

theorem loadable_letters : Loadable .size64 letters where
  nonempty := by decide
  bounded := by decide
  ascending := List.pairwise_pair.mpr (by decide)

def letterNode : StringNode .size64 :=
  match (blank : StringNode .size64).rebuild letters with
  | .ok rebuilt => rebuilt
  | .error _ => blank

theorem rebuild_letters : (blank : StringNode .size64).rebuild letters = .ok letterNode := by
  obtain ⟨rebuilt, rebuildEq, _⟩ := rebuild_spec (blank : StringNode .size64) loadable_letters
  rw [letterNode, rebuildEq]

theorem begins_letters (key : ByteString) : letterNode.Begins key where
  plen_le := Nat.zero_le _
  same index below := absurd below (Nat.not_lt_zero index)

/-- The key `ab` goes between the two separators. -/
theorem searchExact_letters : SearchExact letterNode letters ⟨[97, 98]⟩ :=
  (searchExact_iff blank letters letterNode ⟨[97, 98]⟩ loadable_letters rebuild_letters
    (begins_letters _)).mpr (by
      rintro ⟨anchor, listed, shorter, padded⟩
      revert shorter padded
      revert anchor
      decide)

/-- The separator `a`, padded with a zero byte, is taken for the beginning of the key `a\0`,
which is sent to the first child although it is greater than `a`. -/
theorem featureIndex_letters : letterNode.Begins ⟨[97, 0]⟩ ∧
    letterNode.featureIndex ⟨[97, 0]⟩ = .ok 0 ∧ rankIn Anchor.text letters ⟨[97, 0]⟩ = 1 ∧
    letterNode.suffixCall ⟨[97, 0]⟩ = some (2, 0, 1) ∧ (letterNode.anchors 0).text.len = 1 := by
  exact ⟨begins_letters
    _, by decide +kernel, by decide +kernel, by decide +kernel, by decide +kernel⟩

end IndexResearch.FBTree.StringNode
