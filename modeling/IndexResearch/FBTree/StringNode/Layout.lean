import IndexResearch.FBTree.InnerNode.Search
import IndexResearch.FBTree.StringNode

/-!
# The layout of string separators

What a node with string separators means, and what `content_rebuild` establishes: the
prefix and the features are those of the separators.
-/

namespace IndexResearch

namespace Util

open ByteString

variable {left right : ByteString} {offset : Nat}

theorem compare_suffix (agree : SameDigits offset left right) (leftLong : offset ≤ left.len)
    (rightLong : offset ≤ right.len) :
    compare (fun index => left.byte (offset + index)) (left.len - offset)
      (fun index => right.byte (offset + index)) (right.len - offset) = cmp left right := by
  have extend : ∀ count, count ≤ left.len - offset → count ≤ right.len - offset →
      (∀ index < count, left.byte (offset + index) = right.byte (offset + index)) →
      SameDigits (offset + count) left right := by
    intro count leftInside rightInside same
    apply sameDigits_of_bytes (by omega) (by omega)
    intro index below
    by_cases before : index < offset
    · exact agree.byte_eq before
    · have suffix := same (index - offset) (by omega)
      rwa [Nat.add_sub_cancel' (not_lt.mp before)] at suffix
  unfold compare
  rcases memcmp_cases (fun index => left.byte (offset + index))
      (fun index => right.byte (offset + index)) (min (left.len - offset) (right.len - offset))
    with ⟨equal, same⟩ | ⟨pos, below, same, ordered⟩
  · have common := extend _ (Nat.min_le_left _ _) (Nat.min_le_right _ _) same
    rw [equal]
    dsimp only
    rcases Nat.lt_trichotomy (left.len - offset) (right.len - offset) with shorter | equal | longer
    · rw [Nat.compare_eq_lt.mpr shorter, eq_comm, cmp_eq_lt_iff, lt_iff]
      rw [Nat.min_eq_left (Nat.le_of_lt shorter), Nat.add_sub_cancel' leftLong] at common
      refine ⟨left.len, common, ?_⟩
      rw [digit_eq_zero.mpr le_rfl, digit_of_lt (by omega)]
      exact Nat.succ_pos _
    · rw [Nat.compare_eq_eq.mpr equal, eq_comm, cmp_eq_eq_iff]
      rw [equal, Nat.min_self, Nat.add_sub_cancel' rightLong] at common
      apply ByteString.eq_of_sameDigits common
      omega
    · rw [Nat.compare_eq_gt.mpr longer, eq_comm, cmp_eq_gt_iff, lt_iff]
      rw [Nat.min_eq_right (Nat.le_of_lt longer), Nat.add_sub_cancel' rightLong] at common
      refine ⟨right.len, common.symm, ?_⟩
      rw [digit_eq_zero.mpr le_rfl, digit_of_lt (by omega)]
      exact Nat.succ_pos _
  · have common := extend pos (by omega) (by omega) same
    have leftDigit : left.digit (offset + pos) = _ := digit_of_lt (by omega)
    have rightDigit : right.digit (offset + pos) = _ := digit_of_lt (by omega)
    rcases ordered with ⟨less, bytes⟩ | ⟨greater, bytes⟩
    · rw [less, eq_comm, cmp_eq_lt_iff, lt_iff]
      exact ⟨offset + pos, common, by omega⟩
    · rw [greater, eq_comm, cmp_eq_gt_iff, lt_iff]
      exact ⟨offset + pos, common.symm, by omega⟩

theorem commonPrefix_le_left (first second : ByteString) : commonPrefix first second ≤ first.len :=
  Nat.le_trans scan_le (Nat.min_le_left _ _)

theorem commonPrefix_le_right (first second : ByteString) :
    commonPrefix first second ≤ second.len :=
  Nat.le_trans scan_le (Nat.min_le_right _ _)

theorem sameDigits_commonPrefix (first second : ByteString) :
    SameDigits (commonPrefix first second) first second :=
  sameDigits_of_bytes (commonPrefix_le_left _ _) (commonPrefix_le_right _ _)
    fun _ below => beq_iff_eq.mp (scan_passes below)

theorem le_commonPrefix {first second : ByteString} {length : Nat}
    (firstLong : length ≤ first.len) (agree : SameDigits length first second) :
    length ≤ commonPrefix first second := by
  by_contra longer
  have secondLong := agree.len_le firstLong
  unfold commonPrefix at longer
  have inside : scan (fun index => first.byte index == second.byte index)
      (min first.len second.len) < min first.len second.len := by omega
  have differs := scan_fails inside
  rw [beq_eq_false_iff_ne] at differs
  exact differs (agree.byte_eq (by omega))

end Util

namespace FBTree

namespace StringNode

open ByteString InnerNode

variable {size : NodeSize} {node : StringNode size} {key : ByteString}

def view (node : StringNode size) : NodeView Anchor where
  seps := tabulate node.knum node.anchors
  kids := kidsOf node.control.sibling (tabulate node.knum node.children) node.next
  link := linkOf node.control.sibling node.next

@[simp] theorem length_view_seps (node : StringNode size) :
    node.view.seps.length = node.knum := length_tabulate _ _

def Increasing (anchors : Nat → Anchor) (count : Nat) : Prop :=
  ∀ first second, first < second → second < count → (anchors first).text < (anchors second).text

structure WellFormed (node : StringNode size) : Prop where
  knum_le : node.knum ≤ size.slots
  increasing : Increasing node.anchors node.knum
  plen_empty : node.knum = 0 → node.plen = 0
  plen_eq : 0 < node.knum →
    node.plen = Util.commonPrefix (node.anchors 0).text (node.anchors (node.knum - 1)).text
  huge_eq : 0 < node.knum → node.huge = node.anchors 0
  tiny_eq : node.plen ≤ kEmbedPrSize → ∀ index < node.plen,
    node.tiny index = (node.anchors 0).text.byte index
  features_eq : ∀ fid < kFeatureSize, ∀ column < node.knum,
    node.features fid column = feature node.plen (node.anchors column).text fid

/-- What `content_rebuild` does and what it leaves as it was. -/
structure Rebuilt (node rebuilt : StringNode size) : Prop where
  wellFormed : rebuilt.WellFormed
  tiny_eq : kEmbedPrSize < rebuilt.plen → rebuilt.tiny = node.tiny
  control_eq : rebuilt.control = node.control
  knum_eq : rebuilt.knum = node.knum
  next_eq : rebuilt.next = node.next
  anchors_eq : rebuilt.anchors = node.anchors
  children_eq : rebuilt.children = node.children

theorem contentRebuild_spec (positive : 0 < node.knum) (bounded : node.knum ≤ size.slots)
    (increasing : Increasing node.anchors node.knum) :
    ∃ rebuilt, node.contentRebuild = .ok rebuilt ∧ Rebuilt node rebuilt := by
  rw [contentRebuild, if_neg (Nat.ne_of_gt positive)]
  refine ⟨_, rfl, ?_, fun long => if_neg (Nat.not_le_of_lt long), rfl, rfl, rfl, rfl, rfl⟩
  refine ⟨bounded, increasing, ?_, fun _ => rfl, fun _ => rfl, ?_, ?_⟩
  · exact fun empty => absurd empty (Nat.ne_of_gt positive)
  · intro fits index inside
    simp only at fits inside ⊢
    rw [if_pos fits, copy_of_mem (by omega), Nat.sub_zero, Nat.add_zero]
  · intro fid below column inside
    simp only at inside
    simp only [mapRows, if_pos below, if_pos inside]

/-! ## The node prefix -/

theorem WellFormed.plen_le (formed : node.WellFormed) : node.plen ≤ (node.anchors 0).text.len := by
  rcases Nat.eq_zero_or_pos node.knum with empty | positive
  · rw [formed.plen_empty empty]
    exact Nat.zero_le _
  · rw [formed.plen_eq positive]
    exact Util.commonPrefix_le_left _ _

theorem WellFormed.sameDigits (formed : node.WellFormed) {column : Nat}
    (inside : column < node.knum) :
    SameDigits node.plen (node.anchors 0).text (node.anchors column).text := by
  have positive : 0 < node.knum := Nat.zero_lt_of_lt inside
  have monotone : ∀ first second, first ≤ second → second < node.knum →
      (node.anchors first).text ≤ (node.anchors second).text := by
    intro first second before within
    rcases Nat.eq_or_lt_of_le before with rfl | less
    · exact le_refl _
    · exact le_of_lt (formed.increasing first second less within)
  rw [formed.plen_eq positive]
  apply (Util.sameDigits_commonPrefix _ _).of_between
  · exact monotone 0 column (Nat.zero_le _) inside
  · exact monotone column (node.knum - 1) (by omega) (by omega)

def prefixText (node : StringNode size) : ByteString :=
  ⟨(node.anchors 0).text.bytes.take node.plen⟩

theorem WellFormed.len_prefixText (formed : node.WellFormed) : node.prefixText.len = node.plen :=
  len_take formed.plen_le

end StringNode

end FBTree

end IndexResearch
