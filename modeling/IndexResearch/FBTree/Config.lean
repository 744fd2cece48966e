import IndexResearch.Bytes

/-!
# Configuration, control words and byte comparison

Node sizes, the control word at the head of every node and the vectorised byte
comparison of `config.h`, `control.h` and `compare.h`.  A pointer is a number,
zero being the null pointer.
-/

namespace IndexResearch.FBTree

/-- The node sizes that `config.h` admits. -/
inductive NodeSize where
  | size16
  | size32
  | size64
  deriving DecidableEq, Repr

namespace NodeSize

def slots : NodeSize → Nat
  | size16 => 16
  | size32 => 32
  | size64 => 64

/-- `kNodeSize / 2`, which is also the merge threshold. -/
def half : NodeSize → Nat
  | size16 => 8
  | size32 => 16
  | size64 => 32

theorem slots_eq (size : NodeSize) : size.slots = size.half + size.half := by
  cases size <;> rfl

theorem eight_le_half (size : NodeSize) : 8 ≤ size.half := by
  cases size <;> decide

theorem slots_le (size : NodeSize) : size.slots ≤ 64 := by
  cases size <;> decide

end NodeSize

def kInnerSize : NodeSize := .size64
def kLeafSize : NodeSize := .size64

abbrev Ptr := Nat

def nullptr : Ptr := 0

inductive Fault where
  /-- A pointer does not lead to a node of the expected kind. -/
  | wildPointer
  /-- A separator array is read at an index at which it holds no separator. -/
  | noSeparator
  /-- The slots of a leaf are accessed beyond their end. -/
  | noSlot
  /-- `root_track_` is accessed beyond its end. -/
  | noTrack
  /-- A local variable is read before it was written. -/
  | uninitialised
  /-- A loop did not end. -/
  | endless
  /-- A `DEBUG_COND_ERROR` or an `assert` fires. -/
  | check
  deriving DecidableEq, Repr

structure Control where
  ordered : Bool
  leaf : Bool
  sibling : Bool
  lock : Bool
  deleted : Bool
  splitting : Nat
  version : Nat
  deriving DecidableEq, Repr

namespace Control

def new (isLeaf : Bool) : Control := ⟨false, isLeaf, false, false, false, 0, 0⟩

def updateVersion (control : Control) : Control :=
  { control with version := control.version + 1 }

def setSibling (control : Control) : Control := { control with sibling := true }
def clearSibling (control : Control) : Control := { control with sibling := false }
def setDelete (control : Control) : Control := { control with deleted := true }
def setOrder (control : Control) : Control := { control with ordered := true }
def clearOrder (control : Control) : Control := { control with ordered := false }
def beginSplitting (control : Control) : Control :=
  { control with splitting := control.splitting + 1 }
def endSplitting (control : Control) : Control :=
  { control with splitting := control.splitting - 1 }

end Control

/-! ## Byte comparison

`row` is the memory behind the compared pointer.  The comparison mode is
`SIMD256`. -/

def compareEqual16 (row : Nat → Byte) (byte : Byte) : Bitmap :=
  Bitmap.movemask 16 fun index => row index == byte

def compareEqual32 (row : Nat → Byte) (byte : Byte) : Bitmap :=
  Bitmap.movemask 32 fun index => row index == byte

def compareEqual64 (row : Nat → Byte) (byte : Byte) : Bitmap :=
  compareEqual32 (fun index => row (index + 32)) byte <<< 32 ||| compareEqual32 row byte

def compareLess16 (row : Nat → Byte) (byte : Byte) : Bitmap :=
  Bitmap.movemask 16 fun index => (row index).slt byte

def compareLess32 (row : Nat → Byte) (byte : Byte) : Bitmap :=
  Bitmap.movemask 32 fun index => (row index).slt byte

def compareLess64 (row : Nat → Byte) (byte : Byte) : Bitmap :=
  compareLess32 (fun index => row (index + 32)) byte <<< 32 ||| compareLess32 row byte

def compareEqual : NodeSize → (Nat → Byte) → Byte → Bitmap
  | .size64 => compareEqual64
  | .size32 => compareEqual32
  | .size16 => compareEqual16

def compareLess : NodeSize → (Nat → Byte) → Byte → Bitmap
  | .size64 => compareLess64
  | .size32 => compareLess32
  | .size16 => compareLess16

theorem getLsbD_movemask_pair (test : Nat → Bool) (pos : Nat) :
    (Bitmap.movemask 32 (fun index => test (index + 32)) <<< 32 |||
      Bitmap.movemask 32 test).getLsbD pos = (decide (pos < 64) && test pos) := by
  rw [BitVec.getLsbD_or, BitVec.getLsbD_shiftLeft, Bitmap.getLsbD_movemask,
    Bitmap.getLsbD_movemask]
  rcases Nat.lt_or_ge pos 32 with low | high
  · simp [low, show pos < 64 by omega]
  · by_cases inside : pos < 64
    · have offset : pos - 32 < 32 := by omega
      have below : pos - 32 < 64 := by omega
      have above : ¬pos < 32 := by omega
      simp [inside, offset, below, above, Nat.sub_add_cancel high]
    · simp [inside]

theorem getLsbD_compareEqual (size : NodeSize) (row : Nat → Byte) (byte : Byte) (pos : Nat) :
    (compareEqual size row byte).getLsbD pos =
      (decide (pos < size.slots) && row pos == byte) := by
  cases size with
  | size64 => exact getLsbD_movemask_pair (fun index => row index == byte) pos
  | size32 =>
    rw [compareEqual, compareEqual32, Bitmap.getLsbD_movemask, NodeSize.slots]
    by_cases inside : pos < 32 <;> simp [inside]
    omega
  | size16 =>
    rw [compareEqual, compareEqual16, Bitmap.getLsbD_movemask, NodeSize.slots]
    by_cases inside : pos < 16 <;> simp [inside]
    omega

theorem getLsbD_compareLess (size : NodeSize) (row : Nat → Byte) (byte : Byte) (pos : Nat) :
    (compareLess size row byte).getLsbD pos =
      (decide (pos < size.slots) && (row pos).slt byte) := by
  cases size with
  | size64 => exact getLsbD_movemask_pair (fun index => (row index).slt byte) pos
  | size32 =>
    rw [compareLess, compareLess32, Bitmap.getLsbD_movemask, NodeSize.slots]
    by_cases inside : pos < 32 <;> simp [inside]
    omega
  | size16 =>
    rw [compareLess, compareLess16, Bitmap.getLsbD_movemask, NodeSize.slots]
    by_cases inside : pos < 16 <;> simp [inside]
    omega

end IndexResearch.FBTree
