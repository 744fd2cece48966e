import IndexResearch.Bytes
import IndexResearch.Memory
import Mathlib.Data.List.GetD
import Mathlib.Data.List.Lex

/-!
# Byte strings

Strings of bytes in lexicographic order, bytes being compared as unsigned numbers and
a proper prefix coming first.  The order is read off the digits of a string: one more
than the byte at a position, and zero behind the end.  A string whose end is padded with
zero bytes keeps its place among strings as long as the padded bytes differ.
-/

namespace IndexResearch

open List

@[ext]
structure ByteString where
  bytes : List Byte
  deriving DecidableEq

namespace ByteString

variable {left right first second third text : ByteString} {length index : Nat}

def len (text : ByteString) : Nat := text.bytes.length

/-- The byte at `index`, zero behind the end. -/
def byte (text : ByteString) (index : Nat) : Byte := text.bytes.getD index 0

def digit (text : ByteString) (index : Nat) : Nat :=
  if index < text.len then (text.byte index).toNat + 1 else 0

instance : LinearOrder ByteString :=
  LinearOrder.lift' (fun text => text.bytes.map BitVec.toNat) fun left right same => by
    apply ByteString.ext
    exact map_injective_iff.mpr (fun _ _ => BitVec.eq_of_toNat_eq) same

theorem digit_of_lt (inside : index < text.len) : text.digit index = (text.byte index).toNat + 1 :=
  if_pos inside

theorem digit_eq_zero : text.digit index = 0 ↔ text.len ≤ index := by
  unfold digit
  split <;> omega

theorem byte_of_le (outside : text.len ≤ index) : text.byte index = 0 :=
  getD_eq_default _ _ outside

theorem lt_len_of_byte_ne_zero (nonzero : text.byte index ≠ 0) : index < text.len := by
  by_contra outside
  exact nonzero (byte_of_le (not_lt.mp outside))

theorem byte_eq_of_digit_eq (same : left.digit index = right.digit index) :
    left.byte index = right.byte index := by
  by_cases inside : index < left.len
  · have other : index < right.len := by
      by_contra outside
      rw [digit_of_lt inside, digit_eq_zero.mpr (not_lt.mp outside)] at same
      omega
    rw [digit_of_lt inside, digit_of_lt other] at same
    exact BitVec.eq_of_toNat_eq (Nat.succ.inj same)
  · have other : right.len ≤ index := by
      rw [← digit_eq_zero, ← same]
      exact digit_eq_zero.mpr (not_lt.mp inside)
    rw [byte_of_le (not_lt.mp inside), byte_of_le other]

@[simp] theorem digit_cons_zero (head : Byte) (tail : List Byte) :
    digit ⟨head :: tail⟩ 0 = head.toNat + 1 := by
  simp [digit, len, byte]

@[simp] theorem digit_cons_succ (head : Byte) (tail : List Byte) (index : Nat) :
    digit ⟨head :: tail⟩ (index + 1) = digit ⟨tail⟩ index := by
  simp [digit, len, byte]

@[simp] theorem digit_nil (index : Nat) : digit ⟨[]⟩ index = 0 := rfl

/-- The strings agree in their first `length` digits. -/
def SameDigits (length : Nat) (left right : ByteString) : Prop :=
  ∀ index < length, left.digit index = right.digit index

theorem sameDigits_cons {head other : Byte} {tail otherTail : List Byte} :
    SameDigits (length + 1) ⟨head :: tail⟩ ⟨other :: otherTail⟩ ↔
      head.toNat = other.toNat ∧ SameDigits length ⟨tail⟩ ⟨otherTail⟩ := by
  constructor
  · intro agree
    refine ⟨?_, ?_⟩
    · have heads := agree 0 (Nat.succ_pos length)
      rw [digit_cons_zero, digit_cons_zero] at heads
      exact Nat.succ.inj heads
    · intro index below
      have tails := agree (index + 1) (Nat.succ_lt_succ below)
      rwa [digit_cons_succ, digit_cons_succ] at tails
  · rintro ⟨heads, tails⟩ (_ | index) below
    · rw [digit_cons_zero, digit_cons_zero, heads]
    · rw [digit_cons_succ, digit_cons_succ]
      exact tails index (Nat.lt_of_succ_lt_succ below)

theorem mk_lt_mk {left right : List Byte} : (⟨left⟩ : ByteString) < ⟨right⟩ ↔
    left.map BitVec.toNat < right.map BitVec.toNat := Iff.rfl

theorem lt_iff : left < right ↔
    ∃ index, SameDigits index left right ∧ left.digit index < right.digit index := by
  obtain ⟨left⟩ := left
  obtain ⟨right⟩ := right
  rw [mk_lt_mk]
  induction left generalizing right with
  | nil =>
    cases right with
    | nil => simp
    | cons other otherTail =>
      have first : digit ⟨[]⟩ 0 < digit ⟨other :: otherTail⟩ 0 := by simp
      have nothing : SameDigits 0 ⟨[]⟩ ⟨other :: otherTail⟩ := fun index below =>
        absurd below (Nat.not_lt_zero index)
      simp only [map_nil, map_cons, nil_lt_cons, true_iff]
      exact ⟨0, nothing, first⟩
  | cons head tail ih =>
    cases right with
    | nil => simp
    | cons other otherTail =>
      rw [map_cons, map_cons, cons_lt_cons_iff, ih]
      constructor
      · rintro (less | ⟨same, index, agree, less⟩)
        · exact ⟨0, fun index below => absurd below (Nat.not_lt_zero index), by simpa using less⟩
        · refine ⟨index + 1, sameDigits_cons.mpr ⟨same, agree⟩, ?_⟩
          rwa [digit_cons_succ, digit_cons_succ]
      · rintro ⟨_ | index, agree, less⟩
        · exact .inl (by simpa using less)
        · obtain ⟨same, tails⟩ := sameDigits_cons.mp agree
          rw [digit_cons_succ, digit_cons_succ] at less
          exact .inr ⟨same, index, tails, less⟩

theorem SameDigits.symm (agree : SameDigits length left right) : SameDigits length right left :=
  fun index below => (agree index below).symm

theorem SameDigits.trans (agree : SameDigits length first second)
    (other : SameDigits length second third) : SameDigits length first third :=
  fun index below => (agree index below).trans (other index below)

theorem SameDigits.mono {shorter : Nat} (agree : SameDigits length left right)
    (below : shorter ≤ length) : SameDigits shorter left right :=
  fun index inside => agree index (Nat.lt_of_lt_of_le inside below)

theorem SameDigits.byte_eq (agree : SameDigits length left right) (below : index < length) :
    left.byte index = right.byte index :=
  byte_eq_of_digit_eq (agree index below)

theorem SameDigits.len_le (agree : SameDigits length left right) (long : length ≤ left.len) :
    length ≤ right.len := by
  by_contra short
  have last := agree right.len (not_le.mp short)
  rw [digit_eq_zero.mpr (Nat.le_refl right.len), digit_eq_zero] at last
  omega

theorem sameDigits_of_bytes (leftLong : length ≤ left.len) (rightLong : length ≤ right.len)
    (same : ∀ index < length, left.byte index = right.byte index) :
    SameDigits length left right := by
  intro index below
  rw [digit_of_lt (Nat.lt_of_lt_of_le below leftLong),
    digit_of_lt (Nat.lt_of_lt_of_le below rightLong), same index below]

theorem eq_of_sameDigits (agree : SameDigits right.len left right)
    (sameLength : left.len = right.len) : left = right := by
  apply ByteString.ext
  apply ext_getElem sameLength
  intro index leftInside rightInside
  have same := agree.byte_eq rightInside
  rwa [byte, byte, getD_eq_getElem _ _ leftInside, getD_eq_getElem _ _ rightInside]
    at same

theorem byte_take (inside : index < length) :
    byte ⟨text.bytes.take length⟩ index = text.byte index := by
  rw [byte, byte, getD_eq_getElem?_getD, getD_eq_getElem?_getD,
    getElem?_take_of_lt inside]

theorem len_take (bounded : length ≤ text.len) : len ⟨text.bytes.take length⟩ = length := by
  rw [len, length_take]
  exact Nat.min_eq_left bounded

theorem isPrefix_iff : left.bytes <+: right.bytes ↔ SameDigits left.len left right := by
  constructor
  · rintro ⟨rest, joined⟩
    have longer : left.len ≤ right.len := by
      rw [len, len, ← joined, length_append]
      exact Nat.le_add_right _ _
    apply sameDigits_of_bytes le_rfl longer
    intro index inside
    rw [byte, byte, ← joined, getD_append _ _ _ _ inside]
  · intro same
    rw [prefix_iff_eq_take]
    have longer := same.len_le le_rfl
    have taken : left = ⟨right.bytes.take left.len⟩ := by
      apply eq_of_sameDigits _ (len_take longer).symm
      rw [len_take longer]
      apply sameDigits_of_bytes le_rfl (Nat.le_of_eq (len_take longer).symm)
      intro index inside
      rw [byte_take inside, same.byte_eq inside]
    exact congrArg bytes taken

theorem le_of_isPrefix (isPrefix : left.bytes <+: right.bytes) : left ≤ right := by
  apply le_of_not_gt
  intro less
  obtain ⟨index, _, below⟩ := lt_iff.mp less
  have inside : index < left.len := by
    apply not_le.mp
    intro outside
    rw [digit_eq_zero.mpr outside] at below
    exact Nat.not_lt_zero _ below
  rw [isPrefix_iff.mp isPrefix index inside] at below
  exact Nat.lt_irrefl _ below

theorem SameDigits.of_between (agree : SameDigits length first third) (lower : first ≤ second)
    (upper : second ≤ third) : SameDigits length first second := by
  by_contra differs
  obtain ⟨index, below, different, earlier⟩ := exists_first_failure differs
  have upTo : SameDigits index third second :=
    (agree.mono (Nat.le_of_lt below)).symm.trans earlier
  rcases Nat.lt_or_gt_of_ne different with less | greater
  · rw [agree index below] at less
    exact absurd (lt_iff.mpr ⟨index, upTo, less⟩) (not_lt.mpr upper)
  · have reversed : SameDigits index second first := SameDigits.symm earlier
    exact absurd (lt_iff.mpr ⟨index, reversed, greater⟩) (not_lt.mpr lower)

/-- Padded with zero bytes, strings are still ordered by the first byte in which they
differ. -/
theorem lt_of_byte_lt (same : ∀ earlier < index, left.byte earlier = right.byte earlier)
    (less : (left.byte index).toNat < (right.byte index).toNat) : left < right := by
  have rightLong : index < right.len := by
    apply lt_len_of_byte_ne_zero
    intro zero
    rw [zero] at less
    exact Nat.not_lt_zero _ less
  rw [lt_iff]
  by_cases leftLong : index < left.len
  · refine ⟨index, sameDigits_of_bytes (Nat.le_of_lt leftLong) (Nat.le_of_lt rightLong) same, ?_⟩
    rw [digit_of_lt leftLong, digit_of_lt rightLong]
    omega
  · have bounded := not_lt.mp leftLong
    refine ⟨left.len, sameDigits_of_bytes le_rfl (by omega) ?_, ?_⟩
    · exact fun earlier below => same earlier (by omega)
    · rw [digit_eq_zero.mpr le_rfl, digit_of_lt (by omega)]
      exact Nat.succ_pos _

/-- The strings agree in their first `length` bytes, the shorter one being padded with
zero bytes. -/
def SameBytes (length : Nat) (left right : ByteString) : Prop :=
  ∀ index < length, left.byte index = right.byte index

theorem byte_padded (text : ByteString) (count index : Nat) :
    byte ⟨text.bytes ++ List.replicate count 0⟩ index = text.byte index := by
  by_cases inside : index < text.len
  · exact getD_append _ _ _ _ inside
  · have outside := not_lt.mp inside
    rw [byte_of_le outside, byte, getD_append_right _ _ _ _ outside,
      getD_eq_getElem?_getD, getElem?_getD_replicate_default_eq]

theorem sameBytes_iff_padded (shorter : left.len ≤ length) (longer : length ≤ right.len) :
    SameBytes length left right ↔
      right.bytes.take length = left.bytes ++ List.replicate (length - left.len) 0 := by
  have lengths : len ⟨left.bytes ++ List.replicate (length - left.len) 0⟩ = length := by
    rw [len, length_append, length_replicate]
    exact Nat.add_sub_cancel' shorter
  constructor
  · intro same
    have padded : (⟨right.bytes.take length⟩ : ByteString) =
        ⟨left.bytes ++ List.replicate (length - left.len) 0⟩ := by
      apply eq_of_sameDigits _ ((len_take longer).trans lengths.symm)
      rw [lengths]
      apply sameDigits_of_bytes (Nat.le_of_eq (len_take longer).symm) (Nat.le_of_eq lengths.symm)
      intro index inside
      rw [byte_take inside, byte_padded, same index inside]
    exact congrArg bytes padded
  · intro padded index inside
    rw [← byte_padded left (length - left.len), ← padded, byte_take inside]

/-- A string that leaves the padded prefix common to two others lies on the same side of
both. -/
theorem lt_of_lt_of_sameBytes (below : first < second) (same : SameBytes length second third)
    (differs : ¬SameBytes length first third) : first < third := by
  obtain ⟨index, inside, different, earlier⟩ := exists_first_failure differs
  have numbers := fun equal => different (BitVec.eq_of_toNat_eq equal)
  rcases Nat.lt_or_gt_of_ne numbers with less | greater
  · exact lt_of_byte_lt earlier less
  · rw [← same index inside] at greater
    have reversed : second < first := by
      apply lt_of_byte_lt _ greater
      intro pos before
      rw [same pos (Nat.lt_trans before inside), earlier pos before]
    exact absurd below (lt_asymm reversed)

theorem lt_of_sameBytes_of_lt (above : second < first) (same : SameBytes length second third)
    (differs : ¬SameBytes length first third) : third < first := by
  rcases lt_trichotomy first third with less | rfl | greater
  · have reversed : first < second := lt_of_lt_of_sameBytes less
      (fun pos before => (same pos before).symm)
      fun equal => differs fun pos before => (equal pos before).trans (same pos before)
    exact absurd above (lt_asymm reversed)
  · exact absurd (fun _ _ => rfl) differs
  · exact greater

end ByteString

/-! ## Memory comparison -/

/-- The sign of `memcmp(left, right, count)`. -/
def memcmp (left right : Nat → Byte) (count : Nat) : Ordering :=
  let pos := scan (fun index => left index == right index) count
  if pos < count then Ord.compare (left pos).toNat (right pos).toNat else .eq

section Memcmp

variable {left right : Nat → Byte} {count : Nat}

theorem memcmp_cases (left right : Nat → Byte) (count : Nat) :
    (memcmp left right count = .eq ∧ ∀ index < count, left index = right index) ∨
    ∃ pos < count, (∀ index < pos, left index = right index) ∧
      ((memcmp left right count = .lt ∧ (left pos).toNat < (right pos).toNat) ∨
       (memcmp left right count = .gt ∧ (right pos).toNat < (left pos).toNat)) := by
  have passes : ∀ index < scan (fun index => left index == right index) count,
      left index = right index := fun index below => beq_iff_eq.mp (scan_passes below)
  unfold memcmp
  by_cases inside : scan (fun index => left index == right index) count < count
  · simp only [if_pos inside]
    refine .inr ⟨_, inside, passes, ?_⟩
    have different := scan_fails inside
    rw [beq_eq_false_iff_ne] at different
    have numbers := fun same => different (BitVec.eq_of_toNat_eq same)
    rcases Nat.lt_or_gt_of_ne numbers with less | greater
    · exact .inl ⟨Nat.compare_eq_lt.mpr less, less⟩
    · exact .inr ⟨Nat.compare_eq_gt.mpr greater, greater⟩
  · simp only [if_neg inside]
    refine .inl ⟨trivial, ?_⟩
    intro index below
    exact passes index (by omega)

theorem memcmp_eq (same : ∀ index < count, left index = right index) :
    memcmp left right count = .eq := by
  rcases memcmp_cases left right count with ⟨equal, _⟩ | ⟨pos, below, _, ordered⟩
  · exact equal
  · rw [same pos below] at ordered
    rcases ordered with ⟨_, less⟩ | ⟨_, less⟩
    · exact absurd less (Nat.lt_irrefl _)
    · exact absurd less (Nat.lt_irrefl _)

end Memcmp

end IndexResearch
