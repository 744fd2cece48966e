import IndexResearch.FBTree.StringNode
import IndexResearch.StringMemory

/-!
# Extents

`Extent` of `inode.h`: a block of memory that holds the separators of a string node one
behind the other when `kExtentOpt` is on.  Separators that are given up are only counted;
their bytes stay.  The sizes are of type `int`.  A size that no `int` holds is reduced modulo
`2 ^ 32`, as a conversion from `size_t` does; the sums of two `int`s, whose overflow is
undefined, are reduced in the same way.
-/

namespace IndexResearch.FBTree

open StringMemory List

def kExtentSize : Nat := 2048

/-- `sizeof(Extent)`. -/
def sizeofExtent : Nat := 16

/-- The value of an `int` after an assignment. -/
def toInt (value : Int) : Int := value.bmod (2 ^ 32)

/-- `roundup` of `common.h`. -/
def roundup (size align : Int) : Except Fault Int :=
  if 0 ≤ size ∧ 0 < align then .ok (toInt ((toInt (size + align - 1)).tdiv align * align))
  else .error .check

/-- What `malloc` returns, and what the memory there holds. -/
structure Block where
  address : Ptr
  contents : Nat → Cell

/-- `malloc(size)`.  A negative `size` is converted to one that is never available. -/
def Block.allocate (block : Block) (size : Int) : Except Fault Block :=
  if 0 ≤ size then .ok block else .error .wildPointer

structure Extent where
  address : Ptr
  /-- The size of the available space. -/
  mlen : Int
  used : Int
  /-- The bytes of the separators that were given up. -/
  free : Int
  huge : Int
  /-- Memory, by address. -/
  mem : Nat → Cell

namespace Extent

/-- The address of `mem_`. -/
def start (extent : Extent) : Ptr := extent.address + sizeofExtent

def init (block : Block) (len : Int) : Except Fault Extent :=
  if len % kExtentSize = 0 then
    .ok ⟨block.address, toInt (len - sizeofExtent), 0, 0, 0, block.contents⟩
  else .error .check

/-- `used()`. -/
def usedSize (extent : Extent) : Int := toInt (extent.used - extent.free + sizeofExtent)

def left (extent : Extent) : Int := toInt (extent.mlen - extent.used)

def Contains (extent : Extent) (ptr : Ptr) : Prop :=
  extent.start ≤ ptr ∧ (ptr : Int) < extent.start + extent.used

instance (extent : Extent) (ptr : Ptr) : Decidable (extent.Contains ptr) :=
  inferInstanceAs (Decidable (_ ∧ _))

/-- `huge(key)`. -/
def setHuge (extent : Extent) (key : Anchor) : Except Fault Extent :=
  if extent.Contains key.address then
    .ok { extent with huge := toInt (key.address - extent.start) }
  else .error .check

/-- The sizes are compared as numbers of type `size_t`. -/
def makeAnchor (extent : Extent) (key : ByteString) : Option (Anchor × Extent) :=
  let address := (extent.start + extent.used).toNat
  if blockSize key ≤ extent.left % 2 ^ 64 then
    some (⟨address, key⟩, { extent with
      mem := writeString extent.mem address key
      used := toInt (extent.used + blockSize key) })
  else none

def ruinAnchor (extent : Extent) (key : Anchor) : Except Fault Extent :=
  if extent.Contains key.address then
    match readInt extent.mem key.address with
    | some len => .ok { extent with free := toInt (extent.free + (len + intSize)) }
    | none => .error .wildPointer
  else .error .check

def load (extent : Extent) (key : Anchor) : Except Fault ByteString :=
  if extent.Contains key.address then
    match readString extent.mem key.address with
    | some text => .ok text
    | none => .error .wildPointer
  else .error .wildPointer

end Extent

/-! ## Sizes that fit -/

theorem toInt_eq {value : Int} (low : 0 ≤ value) (high : value < 2 ^ 31) : toInt value = value :=
  Int.bmod_eq_of_le (by omega) (by omega)

theorem roundup_eq {size : Int} (nonneg : 0 ≤ size) (small : size + kExtentSize ≤ 2 ^ 31) :
    ∃ rounded, roundup size kExtentSize = .ok rounded ∧ size ≤ rounded ∧ rounded < 2 ^ 31 ∧
      rounded % kExtentSize = 0 := by
  rw [kExtentSize] at small ⊢
  have padded : toInt (size + (2048 : Nat) - 1) = size + (2048 : Nat) - 1 :=
    toInt_eq (by omega) (by omega)
  rw [roundup, if_pos ⟨nonneg, by decide⟩, padded, Int.tdiv_eq_ediv_of_nonneg (by omega),
    toInt_eq (by omega) (by omega)]
  exact ⟨_, rfl, by omega, by omega, by omega⟩

namespace Extent

/-! ## The separators in use -/

def Apart (first second : Anchor) : Prop :=
  first.address + blockSize first.text ≤ second.address ∨
    second.address + blockSize second.text ≤ first.address

theorem Apart.symm {first second : Anchor} (apart : Apart first second) : Apart second first :=
  Or.symm apart

def total (anchors : List Anchor) : Nat := (anchors.map fun anchor => blockSize anchor.text).sum

@[simp] theorem total_nil : total [] = 0 := rfl

@[simp] theorem total_cons (anchor : Anchor) (anchors : List Anchor) :
    total (anchor :: anchors) = blockSize anchor.text + total anchors := rfl

@[simp] theorem total_append (front back : List Anchor) :
    total (front ++ back) = total front + total back := by
  simp [total]

theorem total_perm {anchors others : List Anchor} (perm : anchors.Perm others) :
    total anchors = total others :=
  (perm.map _).sum_eq

/-- The separators in use lie in the extent, apart from each other, and hold the bytes that they
were made of.  All other used bytes are counted as free. -/
structure Live (extent : Extent) (anchors : List Anchor) : Prop where
  balance : extent.used = extent.free + total anchors
  free_nonneg : 0 ≤ extent.free
  used_le : extent.used ≤ extent.mlen
  mlen_lt : extent.mlen + sizeofExtent < 2 ^ 31
  inside : ∀ anchor ∈ anchors, extent.start ≤ anchor.address ∧
    (anchor.address + blockSize anchor.text : Int) ≤ extent.start + extent.used
  apart : anchors.Pairwise Apart
  holds : ∀ anchor ∈ anchors, Holds extent.mem anchor.address anchor.text

variable {extent other : Extent} {anchors others : List Anchor} {anchor : Anchor} {key : ByteString}

namespace Live

section

variable (live : Live extent anchors)
include live

theorem perm (same : anchors.Perm others) : Live extent others where
  balance := by rw [live.balance, total_perm same]
  free_nonneg := live.free_nonneg
  used_le := live.used_le
  mlen_lt := live.mlen_lt
  inside listed member := live.inside listed (same.mem_iff.mpr member)
  apart := same.pairwise live.apart Apart.symm
  holds listed member := live.holds listed (same.mem_iff.mpr member)

theorem contains (listed : anchor ∈ anchors) : extent.Contains anchor.address := by
  obtain ⟨low, high⟩ := live.inside anchor listed
  rw [blockSize, intSize] at high
  exact ⟨low, by omega⟩

theorem left_eq : extent.left = extent.mlen - extent.used := by
  have balance := live.balance
  have nonneg := live.free_nonneg
  have bounded := live.used_le
  have small := live.mlen_lt
  exact toInt_eq (by omega) (by omega)

theorem load_eq (listed : anchor ∈ anchors) : extent.load anchor = .ok anchor.text := by
  rw [load, if_pos (live.contains listed), (live.holds anchor listed).readString_eq]

theorem setHuge_eq (listed : anchor ∈ anchors) :
    ∃ marked, extent.setHuge anchor = .ok marked ∧ Live marked anchors ∧
      marked.left = extent.left := by
  rw [setHuge, if_pos (live.contains listed)]
  exact ⟨_, rfl, ⟨live.balance, live.free_nonneg, live.used_le, live.mlen_lt, live.inside,
    live.apart, live.holds⟩, rfl⟩

end

theorem init (block : Block) {len : Int} (aligned : len % kExtentSize = 0)
    (large : sizeofExtent ≤ len) (small : len < 2 ^ 31) :
    ∃ extent, Extent.init block len = .ok extent ∧ Live extent [] ∧
      extent.left = len - sizeofExtent := by
  have mlen : toInt (len - sizeofExtent) = len - sizeofExtent := toInt_eq (by omega) (by omega)
  rw [Extent.init, if_pos aligned, mlen]
  refine ⟨_, rfl, ⟨rfl, le_refl 0, ?_, ?_, nofun, .nil, nofun⟩, ?_⟩
  · simp only
    omega
  · simp only
    omega
  · simp only [left, sub_zero, mlen]

theorem makeAnchor_eq (live : Live extent anchors) (key : ByteString)
    (room : blockSize key ≤ extent.left) :
    ∃ anchor made, extent.makeAnchor key = some (anchor, made) ∧ anchor.text = key ∧
      Live made (anchors ++ [anchor]) ∧ made.left + blockSize key = extent.left := by
  have balance := live.balance
  have nonneg := live.free_nonneg
  have small := live.mlen_lt
  have left := live.left_eq
  have used : toInt (extent.used + blockSize key) = extent.used + blockSize key :=
    toInt_eq (by omega) (by omega)
  have place : ((extent.start + extent.used).toNat : Int) = extent.start + extent.used :=
    Int.toNat_of_nonneg (by omega)
  rw [makeAnchor, if_pos (by omega), used]
  generalize (extent.start + extent.used).toNat = address at place
  have made : Live { extent with
      mem := writeString extent.mem address key
      used := extent.used + blockSize key } (anchors ++ [⟨address, key⟩]) := by
    refine ⟨?_, nonneg, ?_, small, ?_, ?_, ?_⟩
    · simp only [total_append, total_cons, total_nil]
      omega
    · simp only
      omega
    · intro listed member
      rcases mem_append.mp member with old | new
      · obtain ⟨low, high⟩ := live.inside listed old
        refine ⟨low, le_trans high ?_⟩
        simp only [start]
        omega
      · obtain rfl := mem_singleton.mp new
        refine ⟨Int.ofNat_le.mp ?_, ?_⟩
        · simp only [start] at place ⊢
          omega
        · simp only [start] at place ⊢
          omega
    · rw [pairwise_append]
      refine ⟨live.apart, pairwise_singleton _ _, ?_⟩
      intro listed member new isNew
      obtain rfl := mem_singleton.mp isNew
      obtain ⟨low, high⟩ := live.inside listed member
      exact .inl (Int.ofNat_le.mp (by simp only [Int.natCast_add]; omega))
    · intro listed member
      rcases mem_append.mp member with old | new
      · obtain ⟨low, high⟩ := live.inside listed old
        exact (live.holds listed old).writeString (.inl (by omega))
      · obtain rfl := mem_singleton.mp new
        exact holds_writeString _ _ _
  refine ⟨_, _, rfl, rfl, made, ?_⟩
  rw [made.left_eq, left]
  simp only
  omega

theorem makeAnchor_eq_none (live : Live extent anchors) (full : extent.left < blockSize key) :
    extent.makeAnchor key = none := by
  have left := live.left_eq
  have bounded := live.used_le
  have small := live.mlen_lt
  have nonneg := live.free_nonneg
  have balance := live.balance
  exact if_neg (by omega)

theorem ruinAnchor_eq (live : Live extent (anchor :: anchors)) :
    ∃ ruined, extent.ruinAnchor anchor = .ok ruined ∧ Live ruined anchors ∧
      ruined.left = extent.left := by
  have listed : anchor ∈ anchor :: anchors := mem_cons_self
  have balance := live.balance
  have bounded := live.used_le
  have small := live.mlen_lt
  have nonneg := live.free_nonneg
  rw [total_cons, blockSize] at balance
  have free : toInt (extent.free + (anchor.text.len + intSize)) =
      extent.free + (anchor.text.len + intSize) := toInt_eq (by omega) (by omega)
  rw [ruinAnchor, if_pos (live.contains listed), (live.holds anchor listed).readInt_eq]
  simp only [free]
  refine ⟨_, rfl, ⟨?_, ?_, bounded, small, ?_, live.apart.of_cons, ?_⟩, rfl⟩
  · simp only
    omega
  · simp only
    omega
  · exact fun other member => live.inside other (mem_cons_of_mem _ member)
  · exact fun other member => live.holds other (mem_cons_of_mem _ member)

theorem usedSize_eq (live : Live extent anchors) :
    extent.usedSize = total anchors + sizeofExtent := by
  have balance := live.balance
  have bounded := live.used_le
  have small := live.mlen_lt
  have nonneg := live.free_nonneg
  rw [usedSize, toInt_eq (by omega) (by omega)]
  omega

end Live

end Extent

end IndexResearch.FBTree
