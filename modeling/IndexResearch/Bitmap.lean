import Mathlib.Tactic

/-!
# Sets of positions as 64-bit masks

A mask is read as the increasing list of the positions of its one bits.  A loop
that takes the least significant one bit, works on it and clears it visits
exactly this list, so loops over masks are written as recursions over `slots`.
-/

namespace IndexResearch

open List

/-- The word of `width` bits whose bit `index` is `bit index`. -/
def ofBits (width : Nat) (bit : Nat → Bool) : BitVec width :=
  (BitVec.ofBoolListLE ((List.range width).map bit)).setWidth width

theorem getLsbD_ofBits (width : Nat) (bit : Nat → Bool) (index : Nat) :
    (ofBits width bit).getLsbD index = (decide (index < width) && bit index) := by
  rw [ofBits, BitVec.getLsbD_setWidth, BitVec.getLsbD_ofBoolListLE]
  by_cases inside : index < width <;> simp [inside]

abbrev Bitmap := BitVec 64

namespace Bitmap

def slots (mask : Bitmap) : List Nat := (List.range 64).filter mask.getLsbD

/-- The mask `1 << index`. -/
def single (index : Nat) : Bitmap := 1#64 <<< index

/-- The mask of the positions below `size`. -/
def lowest (size : Nat) : Bitmap := (1#64 <<< size) - 1#64

/-- The positions below `width` at which `test` holds: what a byte-wise vector
comparison followed by a move-mask instruction returns. -/
def movemask (width : Nat) (test : Nat → Bool) : Bitmap :=
  ofBits 64 fun index => decide (index < width) && test index

def popcount (mask : Bitmap) : Nat := mask.slots.length

/-- Position of the least significant one bit; `none` stands for `-1`. -/
def indexLeast1 (mask : Bitmap) : Option Nat := mask.slots.head?

/-- Position of the least significant zero bit; `none` stands for `-1`. -/
def indexLeast0 (mask : Bitmap) : Option Nat := indexLeast1 (~~~mask)

def countlZero (mask : Bitmap) : Nat :=
  match mask.slots.getLast? with
  | some index => 63 - index
  | none => 64

variable {mask : Bitmap} {index : Nat}

theorem lt_of_getLsbD (present : mask.getLsbD index = true) : index < 64 :=
  BitVec.lt_of_getLsbD present

@[simp] theorem mem_slots : index ∈ mask.slots ↔ mask.getLsbD index = true := by
  simp only [slots, mem_filter, mem_range, and_iff_right_iff_imp]
  exact lt_of_getLsbD

theorem slots_pairwise (mask : Bitmap) : mask.slots.Pairwise (· < ·) :=
  List.Pairwise.filter _ pairwise_lt_range

theorem slots_nodup (mask : Bitmap) : mask.slots.Nodup :=
  nodup_range.filter _

theorem getLsbD_single (index pos : Nat) :
    (single index).getLsbD pos = (decide (index < 64) && decide (index = pos)) := by
  rw [single, ← BitVec.twoPow_eq, BitVec.getLsbD_twoPow]

theorem getLsbD_lowest {size : Nat} (bounded : size ≤ 64) (pos : Nat) :
    (lowest size).getLsbD pos = decide (pos < size) := by
  have value : (lowest size).toNat = 2 ^ size - 1 := by
    rcases Nat.lt_or_ge size 64 with inside | full
    · have positive : 0 < 2 ^ size := Nat.two_pow_pos size
      have below : 2 ^ size < 2 ^ 64 := Nat.pow_lt_pow_right (by decide) inside
      rw [lowest, ← BitVec.twoPow_eq, BitVec.toNat_sub, BitVec.toNat_twoPow,
        Nat.mod_eq_of_lt below]
      simp only [BitVec.toNat_ofNat]
      omega
    · obtain rfl : size = 64 := Nat.le_antisymm bounded full
      decide
  rw [BitVec.getLsbD, value, Nat.testBit_two_pow_sub_one]

theorem getLsbD_movemask (width : Nat) (test : Nat → Bool) (pos : Nat) :
    (movemask width test).getLsbD pos =
      (decide (pos < 64) && (decide (pos < width) && test pos)) := by
  rw [movemask, getLsbD_ofBits]

theorem eq_of_increasing {left right : List Nat} (leftIncreasing : left.Pairwise (· < ·))
    (rightIncreasing : right.Pairwise (· < ·)) (sameElements : left.Perm right) :
    left = right := by
  apply sameElements.eq_of_pairwise _ leftIncreasing rightIncreasing
  intro first second _ _ below above
  omega

theorem slots_lowest {size : Nat} (bounded : size ≤ 64) :
    (lowest size).slots = List.range size := by
  apply eq_of_increasing (slots_pairwise _) pairwise_lt_range
  apply (perm_ext_iff_of_nodup (slots_nodup _) nodup_range).mpr
  intro pos
  rw [mem_slots, getLsbD_lowest bounded, mem_range, decide_eq_true_eq]

theorem slots_or_single (inside : index < 64) (absent : mask.getLsbD index = false) :
    (mask ||| single index).slots.Perm (index :: mask.slots) := by
  apply (perm_ext_iff_of_nodup (slots_nodup _) _).mpr
  · intro pos
    rw [mem_slots, BitVec.getLsbD_or, getLsbD_single, mem_cons, mem_slots]
    simp only [inside, decide_true, Bool.true_and, Bool.or_eq_true, decide_eq_true_eq]
    rw [or_comm, eq_comm]
  · apply nodup_cons.mpr
    refine ⟨?_, slots_nodup _⟩
    rw [mem_slots, absent]
    exact Bool.false_ne_true

theorem getLsbD_clear (mask : Bitmap) (index pos : Nat) :
    (mask &&& ~~~single index).getLsbD pos =
      (mask.getLsbD pos && !decide (index = pos)) := by
  rw [BitVec.getLsbD_and, BitVec.getLsbD_not, getLsbD_single]
  by_cases inside : pos < 64
  · by_cases same : index = pos
    · subst same
      simp [inside]
    · simp [inside, same]
  · have absent : mask.getLsbD pos = false :=
      BitVec.getLsbD_of_ge _ _ (not_lt.mp inside)
    simp [absent]

theorem slots_clear (present : mask.getLsbD index = true) :
    mask.slots.Perm (index :: (mask &&& ~~~single index).slots) := by
  apply (perm_ext_iff_of_nodup (slots_nodup _) _).mpr
  · intro pos
    rw [mem_slots, mem_cons, mem_slots, getLsbD_clear]
    by_cases same : index = pos
    · subst same
      simp [present]
    · simp [same, Ne.symm same]
  · apply nodup_cons.mpr
    refine ⟨?_, slots_nodup _⟩
    rw [mem_slots, getLsbD_clear]
    simp

theorem slots_eq_nil : mask.slots = [] ↔ mask = 0 := by
  constructor
  · intro empty
    apply BitVec.eq_of_getLsbD_eq
    intro pos _
    have absent : pos ∉ mask.slots := by simp [empty]
    rw [mem_slots, Bool.not_eq_true] at absent
    simpa using absent
  · rintro rfl
    decide

theorem indexLeast1_eq_none : indexLeast1 mask = none ↔ mask = 0 := by
  rw [indexLeast1, head?_eq_none_iff, slots_eq_nil]

theorem indexLeast1_eq_some (found : indexLeast1 mask = some index) :
    mask.getLsbD index = true ∧ ∀ pos, mask.getLsbD pos = true → index ≤ pos := by
  obtain ⟨rest, slotsEq⟩ := head?_eq_some_iff.mp found
  have increasing := slots_pairwise mask
  rw [slotsEq, pairwise_cons] at increasing
  refine ⟨mem_slots.mp (by simp [slotsEq]), ?_⟩
  intro pos present
  have listed := mem_slots.mpr present
  rw [slotsEq, mem_cons] at listed
  rcases listed with rfl | later
  · exact le_rfl
  · exact Nat.le_of_lt (increasing.1 pos later)

theorem indexLeast0_eq_none : indexLeast0 mask = none ↔ ∀ pos < 64, mask.getLsbD pos = true := by
  rw [indexLeast0, indexLeast1_eq_none]
  constructor
  · intro empty pos inside
    have bit := congrArg (fun word : Bitmap => word.getLsbD pos) empty
    simpa [inside] using bit
  · intro full
    apply BitVec.eq_of_getLsbD_eq
    intro pos inside
    simp [full pos inside]

theorem indexLeast0_eq_some (found : indexLeast0 mask = some index) :
    index < 64 ∧ mask.getLsbD index = false ∧
      ∀ pos < index, mask.getLsbD pos = true := by
  obtain ⟨present, least⟩ := indexLeast1_eq_some found
  have inside := lt_of_getLsbD present
  rw [BitVec.getLsbD_not] at present
  refine ⟨inside, by simpa [inside] using present, ?_⟩
  intro pos below
  by_contra absent
  have bit : (~~~mask).getLsbD pos = true := by
    rw [BitVec.getLsbD_not, eq_false_of_ne_true absent]
    simp [Nat.lt_trans below inside]
  have := least pos bit
  omega

theorem countlZero_spec (nonempty : mask ≠ 0) :
    ∃ most, 64 - countlZero mask = most + 1 ∧ mask.getLsbD most = true ∧
      ∀ pos, mask.getLsbD pos = true → pos ≤ most := by
  have slotsNonempty : mask.slots ≠ [] := fun empty => nonempty (slots_eq_nil.mp empty)
  obtain ⟨front, most, slotsEq⟩ := eq_nil_or_concat mask.slots |>.resolve_left slotsNonempty
  have last : mask.slots.getLast? = some most := by simp [slotsEq]
  have present : mask.getLsbD most = true := mem_slots.mp (by simp [slotsEq])
  have inside := lt_of_getLsbD present
  refine ⟨most, ?_, present, ?_⟩
  · simp only [countlZero, last]
    omega
  · intro pos listed
    have increasing := slots_pairwise mask
    have member := mem_slots.mpr listed
    rw [slotsEq] at increasing member
    simp only [concat_eq_append, pairwise_append, mem_append,
      mem_singleton] at increasing member
    rcases member with earlier | rfl
    · exact Nat.le_of_lt (increasing.2.2 pos earlier most rfl)
    · exact le_rfl

end Bitmap

end IndexResearch
