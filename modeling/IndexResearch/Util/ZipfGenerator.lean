import Mathlib.Tactic

/-!
# Zipf sampling

`ZipfGenerator` of `generator.h`.  The bounds are the values of a distribution function, scaled
to 64 bits.  The first terms are found by a binary search among them, and an engine output
beyond all bounds is spread over the remaining items.  Floating point numbers occur only in
the computation of the bounds and of the size of the hotspot, and these are arbitrary here.
-/

namespace IndexResearch.Util

inductive DrawFault where
  /-- `bound_` is read outside its bounds. -/
  | outOfBounds
  | divisionByZero
  /-- A loop did not end. -/
  | endless
  /-- An `assert` fires. -/
  | check
  deriving DecidableEq, Repr

abbrev UInt := BitVec 64

/-- `IntType` has `width` bits. -/
structure ZipfGenerator (width : Nat) where
  lower : BitVec width
  range : UInt
  bound : List UInt
  deriving DecidableEq, Repr

namespace ZipfGenerator

variable {width : Nat}

def leastSize : UInt := 1024 * 128

/-- The number of terms of the hotspot; `hotspot` is `range_ * hotspot`, rounded. -/
def nterm (range hotspot : UInt) : UInt :=
  let nterm := if hotspot < leastSize then leastSize else hotspot
  if range < leastSize then range else nterm

/-- The constructor; round `i` of `init` appends `cdf i`. -/
def init (lower : BitVec width) (range hotspot engineMax : UInt) (cdf : Nat → UInt) :
    Except DrawFault (ZipfGenerator width) :=
  if 0 < range ∧ range < engineMax then
    .ok ⟨lower, range, (List.range (nterm range hotspot).toNat).map cdf⟩
  else .error .check

def beyond (self : ZipfGenerator width) (unif : UInt) : Except DrawFault Nat :=
  let rest := self.range - BitVec.ofNat 64 self.bound.length
  if rest = 0 then .error .divisionByZero
  else .ok (unif % rest + BitVec.ofNat 64 self.bound.length).toNat

/-- `while(lid < hid)`, and what follows the loop. -/
def search (self : ZipfGenerator width) (unif : UInt) :
    Nat → (lid hid : Nat) → Except DrawFault Nat
  | 0, _, _ => .error .endless
  | fuel + 1, lid, hid =>
    if lid < hid then
      let mid := (lid + hid) / 2
      match self.bound[mid]? with
      | none => .error .outOfBounds
      | some bound =>
        if unif = bound then .ok mid
        else if unif < bound then self.search unif fuel lid mid
        else self.search unif fuel (mid + 1) hid
    else if lid ≠ hid then .error .check
    else if hid < self.bound.length then .ok hid
    else self.beyond unif

/-- `operator()` with the engine output `unif`. -/
def draw (self : ZipfGenerator width) (unif : UInt) : Except DrawFault (BitVec width) :=
  (self.search unif (self.bound.length + 1) 0 self.bound.length).map fun index =>
    self.lower + BitVec.ofNat width index

/-- An index is the place of `unif` among the bounds. -/
structure IsPlace (bound : List UInt) (unif : UInt) (index : Nat) : Prop where
  above : 0 < index → ∃ previous, bound[index - 1]? = some previous ∧ previous ≤ unif
  upTo : ∃ here, bound[index]? = some here ∧ unif ≤ here

/-- A draw returns an item of the range: a term of the hotspot by its place among the bounds, or
another one for an engine output that exceeds every bound. -/
def DrawsInRange (self : ZipfGenerator width) (unif : UInt) : Prop :=
  ∃ index < self.range.toNat, self.draw unif = .ok (self.lower + BitVec.ofNat width index) ∧
    (index < self.bound.length → IsPlace self.bound unif index) ∧
    (self.bound.length ≤ index → ∀ bound ∈ self.bound, bound < unif)

variable {self : ZipfGenerator width} {unif : UInt}

structure Narrows (bound : List UInt) (unif : UInt) (lid hid : Nat) : Prop where
  ordered : lid ≤ hid
  bounded : hid ≤ bound.length
  below : ∀ index passed, index < lid → bound[index]? = some passed → passed < unif
  above : ∀ index passed, hid ≤ index → bound[index]? = some passed → unif < passed

theorem Narrows.isPlace {bound : List UInt} {index : Nat} (narrows : Narrows bound unif index index)
    (inside : index < bound.length) : IsPlace bound unif index := by
  refine ⟨?_, ?_⟩
  · intro positive
    have before : index - 1 < bound.length := by omega
    refine ⟨_, List.getElem?_eq_getElem before, BitVec.le_of_lt ?_⟩
    exact narrows.below _ _ (by omega) (List.getElem?_eq_getElem before)
  · refine ⟨_, List.getElem?_eq_getElem inside, BitVec.le_of_lt ?_⟩
    exact narrows.above _ _ le_rfl (List.getElem?_eq_getElem inside)

section Sorted

variable {bound : List UInt} (sorted : bound.Pairwise (· ≤ ·))
include sorted

theorem le_of_sorted {first second : Nat} {left right : UInt} (notAfter : first ≤ second)
    (leftEq : bound[first]? = some left) (rightEq : bound[second]? = some right) :
    left ≤ right := by
  obtain ⟨firstInside, rfl⟩ := List.getElem?_eq_some_iff.mp leftEq
  obtain ⟨secondInside, rfl⟩ := List.getElem?_eq_some_iff.mp rightEq
  rcases Nat.eq_or_lt_of_le notAfter with rfl | before
  · exact BitVec.le_refl _
  · exact List.pairwise_iff_getElem.mp sorted first second firstInside secondInside before

theorem isPlace_of_eq {index : Nat} (here : bound[index]? = some unif) :
    IsPlace bound unif index := by
  refine ⟨?_, unif, here, BitVec.le_refl _⟩
  intro positive
  obtain ⟨inside, _⟩ := List.getElem?_eq_some_iff.mp here
  have before : index - 1 < bound.length := by omega
  refine ⟨_, List.getElem?_eq_getElem before, ?_⟩
  exact le_of_sorted sorted (Nat.sub_le _ _) (List.getElem?_eq_getElem before) here

variable {lid hid mid : Nat} {middle : UInt}

theorem Narrows.left (narrows : Narrows bound unif lid hid) (low : lid ≤ mid) (high : mid < hid)
    (here : bound[mid]? = some middle) (below : unif < middle) : Narrows bound unif lid mid where
  ordered := low
  bounded := Nat.le_trans (Nat.le_of_lt high) narrows.bounded
  below := narrows.below
  above index passed notBefore passedEq := by
    exact Nat.lt_of_lt_of_le below (le_of_sorted sorted notBefore here passedEq)

theorem Narrows.right (narrows : Narrows bound unif lid hid) (high : mid < hid)
    (here : bound[mid]? = some middle) (above : middle < unif) :
    Narrows bound unif (mid + 1) hid where
  ordered := high
  bounded := narrows.bounded
  below index passed before passedEq := by
    exact Nat.lt_of_le_of_lt (le_of_sorted sorted (Nat.le_of_lt_succ before) passedEq here) above
  above := narrows.above

end Sorted

theorem search_spec (sorted : self.bound.Pairwise (· ≤ ·)) {fuel lid hid : Nat}
    (narrows : Narrows self.bound unif lid hid) (enough : hid - lid < fuel) :
    (∃ index < self.bound.length, self.search unif fuel lid hid = .ok index ∧
        IsPlace self.bound unif index) ∨
      (self.search unif fuel lid hid = self.beyond unif ∧ ∀ bound ∈ self.bound, bound < unif) := by
  induction fuel generalizing lid hid with
  | zero => exact absurd enough (Nat.not_lt_zero _)
  | succ fuel ih =>
    have bounded := narrows.bounded
    rw [search]
    split
    · rename_i more
      have inside : (lid + hid) / 2 < self.bound.length := by omega
      have here := List.getElem?_eq_getElem inside
      simp only [here]
      split
      · rename_i same
        left
        refine ⟨_, inside, rfl, isPlace_of_eq sorted ?_⟩
        rw [here, same]
      · rename_i different
        split
        · rename_i below
          apply ih (narrows.left sorted (by omega) (by omega) here below)
          omega
        · rename_i notBelow
          have above := BitVec.lt_of_le_ne (BitVec.not_lt.mp notBelow) (Ne.symm different)
          apply ih (narrows.right sorted (by omega) here above)
          omega
    · rename_i done
      obtain rfl : lid = hid := Nat.le_antisymm narrows.ordered (not_lt.mp done)
      rw [if_neg (not_not_intro rfl)]
      split
      · rename_i inside
        left
        exact ⟨lid, inside, rfl, narrows.isPlace inside⟩
      · rename_i outside
        right
        refine ⟨rfl, ?_⟩
        intro bound listed
        obtain ⟨index, indexEq⟩ := List.mem_iff_getElem?.mp listed
        obtain ⟨inside, _⟩ := List.getElem?_eq_some_iff.mp indexEq
        exact narrows.below index bound (by omega) indexEq

theorem beyond_eq (few : self.bound.length < self.range.toNat) (unif : UInt) :
    ∃ index, self.bound.length ≤ index ∧ index < self.range.toNat ∧
      self.beyond unif = .ok index := by
  have size := self.range.isLt
  have length : (BitVec.ofNat 64 self.bound.length).toNat = self.bound.length := by
    rw [BitVec.toNat_ofNat, Nat.mod_eq_of_lt (by omega)]
  have rest : (self.range - BitVec.ofNat 64 self.bound.length).toNat =
      self.range.toNat - self.bound.length := by
    rw [BitVec.toNat_sub_of_le, length]
    rw [BitVec.le_def, length]
    exact Nat.le_of_lt few
  have nonzero : self.range - BitVec.ofNat 64 self.bound.length ≠ 0 := by
    intro zero
    rw [zero] at rest
    exact absurd rest.symm (Nat.sub_ne_zero_of_lt few)
  have remainder := Nat.mod_lt unif.toNat (Nat.sub_pos_of_lt few)
  have sum : (unif % (self.range - BitVec.ofNat 64 self.bound.length) +
      BitVec.ofNat 64 self.bound.length).toNat =
      unif.toNat % (self.range.toNat - self.bound.length) + self.bound.length := by
    rw [BitVec.toNat_add, BitVec.toNat_umod, rest, length]
    exact Nat.mod_eq_of_lt (by omega)
  refine ⟨_, ?_, ?_, if_neg nonzero⟩
  · rw [sum]
    exact Nat.le_add_left _ _
  · rw [sum]
    omega

theorem beyond_eq_error (whole : self.bound.length = self.range.toNat) (unif : UInt) :
    self.beyond unif = .error .divisionByZero := by
  have zero : self.range - BitVec.ofNat 64 self.bound.length = 0 := by
    rw [whole, BitVec.ofNat_toNat, BitVec.setWidth_eq, BitVec.sub_self]
    rfl
  exact if_pos zero

theorem draw_spec (sorted : self.bound.Pairwise (· ≤ ·)) (unif : UInt) :
    (∃ index < self.bound.length, self.draw unif = .ok (self.lower + BitVec.ofNat width index) ∧
        IsPlace self.bound unif index) ∨
      (self.draw unif = (self.beyond unif).map
        (fun index => self.lower + BitVec.ofNat width index) ∧
        ∀ bound ∈ self.bound, bound < unif) := by
  have start : Narrows self.bound unif 0 self.bound.length := by
    refine ⟨Nat.zero_le _, Nat.le_refl _, ?_, ?_⟩
    · exact fun index _ before => absurd before (Nat.not_lt_zero _)
    · intro index passed outside here
      obtain ⟨inside, _⟩ := List.getElem?_eq_some_iff.mp here
      exact absurd inside (Nat.not_lt.mpr outside)
  have enough : self.bound.length - 0 < self.bound.length + 1 := Nat.lt_succ_self _
  rcases search_spec sorted start enough with
    ⟨index, inside, found, place⟩ | ⟨passed, exceeds⟩
  · left
    refine ⟨index, inside, ?_, place⟩
    rw [draw, found]
    rfl
  · right
    exact ⟨by rw [draw, passed], exceeds⟩

/-- A draw stays in range exactly if there are items besides the first terms or the engine
output does not exceed every bound; otherwise it divides by zero. -/
theorem drawsInRange_iff (hotspot : UInt)
    (count : self.bound.length = (nterm self.range hotspot).toNat)
    (few : nterm self.range hotspot ≤ self.range) (sorted : self.bound.Pairwise (· ≤ ·))
    (unif : UInt) :
    self.DrawsInRange unif ↔
      nterm self.range hotspot < self.range ∨ ∃ bound ∈ self.bound, unif ≤ bound := by
  have limit : self.bound.length ≤ self.range.toNat := count ▸ few
  constructor
  · rintro ⟨index, inside, drawn, _, _⟩
    by_contra fails
    rw [not_or] at fails
    obtain ⟨noMore, none⟩ := fails
    have whole : self.bound.length = self.range.toNat := by
      apply Nat.le_antisymm limit
      rw [count]
      exact BitVec.not_lt.mp noMore
    rcases draw_spec sorted unif with ⟨found, foundInside, _, place⟩ | ⟨result, _⟩
    · obtain ⟨here, hereEq, upTo⟩ := place.upTo
      exact none ⟨here, List.mem_of_getElem? hereEq, upTo⟩
    · rw [result, beyond_eq_error whole] at drawn
      cases drawn
  · intro holds
    rcases draw_spec sorted unif with ⟨index, inside, drawn, place⟩ | ⟨result, exceeds⟩
    · refine ⟨index, Nat.lt_of_lt_of_le inside limit, drawn, fun _ => place, ?_⟩
      exact fun outside => absurd inside (Nat.not_lt.mpr outside)
    · rcases holds with more | ⟨bound, listed, upTo⟩
      · have fewer : self.bound.length < self.range.toNat := count ▸ more
        obtain ⟨index, outside, inside, found⟩ := beyond_eq fewer unif
        refine ⟨index, inside, ?_, ?_, fun _ => exceeds⟩
        · rw [result, found]
          rfl
        · exact fun within => absurd within (Nat.not_lt.mpr outside)
      · exact absurd (exceeds bound listed) (BitVec.not_lt.mpr upTo)

/-- The bounds that `init` computes for 19 items with the default skew on a machine with IEEE
doubles.  Their distribution function ends at `1 - 2⁻⁵²`. -/
def nineteenItems : ZipfGenerator 64 where
  lower := 0
  range := 19
  bound := [5136122549008675840, 7722046102256549888, 9452999339777429504, 10754954376760098816,
    11798845184373145600, 12670341669078292480, 13418491044881475584, 14073996470088474624,
    14657354651653341184, 15182930472842915840, 15661182279427418112, 16099961390491801600,
    16505312586500139008, 16881989169618380800, 17233796618878881792, 17563829031881119744,
    17874636142060785664, 18168344021359654912, 18446744073709547520]

theorem not_drawsInRange_nineteenItems :
    init 0 19 0 (BitVec.allOnes 64) (fun round => nineteenItems.bound.getD round 0) =
        .ok nineteenItems ∧
      nineteenItems.bound.Pairwise (· ≤ ·) ∧
      nineteenItems.draw (BitVec.allOnes 64) = .error .divisionByZero ∧
      ¬nineteenItems.DrawsInRange (BitVec.allOnes 64) := by
  have fails : nineteenItems.draw (BitVec.allOnes 64) = .error .divisionByZero := by decide +kernel
  refine ⟨by decide +kernel, by decide +kernel, fails, ?_⟩
  rintro ⟨index, _, drawn, _⟩
  rw [fails] at drawn
  cases drawn

theorem drawsInRange_nineteenItems : nineteenItems.DrawsInRange (BitVec.ofNat 64 (10 ^ 19)) := by
  refine (drawsInRange_iff 0 (by decide +kernel) (by decide +kernel) (by decide +kernel) _).mpr ?_
  exact .inr ⟨10754954376760098816, by decide +kernel, by decide +kernel⟩

end ZipfGenerator

end IndexResearch.Util
