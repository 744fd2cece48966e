import IndexResearch.FBTree.Config

/-!
# Integer keys

The integer key types of `constant.h` and the encoding under which inner nodes
compare them byte by byte.
-/

namespace IndexResearch.FBTree

inductive KeyType where
  | uint64
  | int64
  | uint32
  | int32
  deriving DecidableEq, Repr

namespace KeyType

/-- `sizeof(K)`, which is also `Constant<K>::kFeatureSize`. -/
def size : KeyType → Nat
  | uint64 => 8
  | int64 => 8
  | uint32 => 4
  | int32 => 4

def signed : KeyType → Bool
  | uint64 => false
  | int64 => true
  | uint32 => false
  | int32 => true

theorem size_pos (type : KeyType) : 0 < type.size := by cases type <;> decide

theorem size_le (type : KeyType) : type.size ≤ 8 := by cases type <;> decide

end KeyType

@[ext]
structure Key (type : KeyType) where
  bits : BitVec (8 * type.size)
  deriving DecidableEq

/-- The encoded form of a key: a string of `sizeof(K)` bytes. -/
abbrev Encoded (type : KeyType) := BitVec (8 * type.size)

variable {type : KeyType}

namespace Key

def value (key : Key type) : Int :=
  if type.signed then key.bits.toInt else Int.ofNat key.bits.toNat

theorem value_injective : Function.Injective (@value type) := by
  intro left right same
  apply Key.ext
  unfold value at same
  split at same
  · exact BitVec.eq_of_toInt_eq same
  · exact BitVec.eq_of_toNat_eq (Int.ofNat.inj same)

instance : LinearOrder (Key type) := LinearOrder.lift' value value_injective

theorem lt_iff (left right : Key type) : left < right ↔ left.value < right.value := Iff.rfl

end Key

/-- `Constant<K>::convert`; the sum wraps around for the signed types. -/
def convert (bits : BitVec (8 * type.size)) : BitVec (8 * type.size) :=
  if type.signed then BitVec.intMax (8 * type.size) + 1 + bits else bits

def encodeConvert (key : Key type) : Encoded type :=
  shiftBytes (byteSwap (convert key.bits))

def encodeReconvert (word : Encoded type) : Key type :=
  ⟨convert (byteSwap (shiftBytes word))⟩

theorem convert_convert (bits : BitVec (8 * type.size)) : convert (convert bits) = bits := by
  unfold convert
  split
  · have cancel : BitVec.intMax (8 * type.size) + 1 + (BitVec.intMax (8 * type.size) + 1) = 0 := by
      cases type <;> decide
    rw [← BitVec.add_assoc, cancel]
    exact BitVec.zero_add bits
  · rfl

@[simp] theorem encodeReconvert_encodeConvert (key : Key type) :
    encodeReconvert (encodeConvert key) = key := by
  apply Key.ext
  simp only [encodeReconvert, encodeConvert, shiftBytes_shiftBytes, byteSwap_byteSwap,
    convert_convert]

@[simp] theorem encodeConvert_encodeReconvert (word : Encoded type) :
    encodeConvert (encodeReconvert word) = word := by
  simp only [encodeReconvert, encodeConvert, convert_convert, byteSwap_byteSwap,
    shiftBytes_shiftBytes]

theorem toNat_signBit_add_lt_iff {width : Nat} (positive : 0 < width)
    {signBit : BitVec width} (signBitValue : signBit.toNat = 2 ^ (width - 1))
    (left right : BitVec width) :
    (signBit + left).toNat < (signBit + right).toNat ↔ left.toInt < right.toInt := by
  have doubled : 2 ^ width = 2 * 2 ^ (width - 1) := by
    rw [← Nat.pow_succ', Nat.succ_eq_add_one, Nat.sub_add_cancel positive]
  have leftBound := left.isLt
  have rightBound := right.isLt
  rw [BitVec.toNat_add, BitVec.toNat_add, signBitValue, BitVec.toInt_eq_toNat_cond,
    BitVec.toInt_eq_toNat_cond]
  rw [doubled] at leftBound rightBound ⊢
  generalize 2 ^ (width - 1) = sign at *
  have residue : ∀ bits < 2 * sign, (sign + bits) % (2 * sign) =
      if bits < sign then sign + bits else bits - sign := by
    intro bits bound
    split
    · exact Nat.mod_eq_of_lt (by omega)
    · rw [Nat.mod_eq_sub_mod (by omega), Nat.mod_eq_of_lt (by omega)]
      omega
  rw [residue _ leftBound, residue _ rightBound]
  split <;> split <;> split <;> split <;> omega

theorem convert_toNat_lt_iff (left right : Key type) :
    (convert left.bits).toNat < (convert right.bits).toNat ↔ left < right := by
  rw [Key.lt_iff]
  unfold convert Key.value
  split
  · apply toNat_signBit_add_lt_iff (Nat.mul_pos (by decide) type.size_pos)
    cases type <;> decide
  · exact Int.ofNat_lt.symm

theorem lexRank_encodeConvert_lt_iff (left right : Key type) :
    lexRank (encodeConvert left) < lexRank (encodeConvert right) ↔ left < right := by
  rw [← convert_toNat_lt_iff]
  simp only [lexRank, encodeConvert, shiftBytes_shiftBytes, byteSwap_byteSwap]

theorem encodeReconvert_lt_iff (left right : Encoded type) :
    encodeReconvert left < encodeReconvert right ↔ lexRank left < lexRank right := by
  rw [← lexRank_encodeConvert_lt_iff, encodeConvert_encodeReconvert, encodeConvert_encodeReconvert]

/-- The encoding is an isomorphism of the keys with the strings of signed chars. -/
theorem encodeConvert_orderIso (left right : Key type) (word : Encoded type) :
    (left < right ↔ memoryChars (encodeConvert left) < memoryChars (encodeConvert right)) ∧
      (left = right ↔ encodeConvert left = encodeConvert right) ∧
      encodeReconvert (encodeConvert left) = left ∧
      encodeConvert (encodeReconvert word) = word := by
  refine ⟨?_, ?_, encodeReconvert_encodeConvert left, encodeConvert_encodeReconvert word⟩
  · rw [memoryChars_lt_iff]
    exact (lexRank_encodeConvert_lt_iff left right).symm
  · constructor
    · exact congrArg encodeConvert
    · intro same
      rw [← encodeReconvert_encodeConvert left, same, encodeReconvert_encodeConvert]

example : (encodeConvert (⟨1#32⟩ : Key .uint32)).toNat = 0x81808080 := by decide +kernel

end IndexResearch.FBTree
