import IndexResearch.FBTree.Config

/-!
# The control word

`control.h`: the flags, the split tokens and the version of a node share one 64-bit word,
on which every operation is one atomic addition or subtraction.  An operation whose
`DEBUG_COND_ERROR` fires has no result.
-/

namespace IndexResearch.FBTree

abbrev Word := BitVec 64

namespace Word

def kOrderBit : Word := 0x10
def kLeafBit : Word := 0x8
def kSiblingBit : Word := 0x4
def kLockBit : Word := 0x2
def kDelBit : Word := 0x1
def kSplitMask : Word := 0x0000000000FFFF00
def kVersionMask : Word := 0xFFFFFFFFFF000000
def kSplitOne : Word := 0x0000000000000100
def kVersionOne : Word := 0x0000000001000000

def new (isLeaf : Bool) : Word := if isLeaf then kLeafBit else 0

variable (word : Word)

/-- `control_ & bit`. -/
def has (bit : Word) : Bool := word &&& bit != 0

def locked : Bool := word.has kLockBit

def loadVersion : Word := word &&& kVersionMask

def raise (bit : Word) : Option Word := if word.has bit then none else some (word + bit)

def lower (bit : Word) : Option Word := if word.has bit then some (word - bit) else none

def setOrder : Option Word := word.raise kOrderBit
def clearOrder : Option Word := word.lower kOrderBit
def setDelete : Option Word := word.raise kDelBit
def setSibling : Option Word := word.raise kSiblingBit
def clearSibling : Option Word := word.lower kSiblingBit
def unlatchExclusive : Option Word := word.lower kLockBit

/-- The word that `latch_exclusive` exchanges for the one it expects. -/
def latched : Word := word ||| kLockBit

def updateVersion : Word := word + kVersionOne

def beginSplitting : Option Word :=
  if word &&& kSplitMask = kSplitMask then none else some (word + kSplitOne)

def endSplitting : Option Word :=
  if word &&& kSplitMask = 0 then none else some (word - kSplitOne)

def flags (control : Control) : Nat :=
  control.ordered.toNat * 16 + control.leaf.toNat * 8 + control.sibling.toNat * 4 +
    control.lock.toNat * 2 + control.deleted.toNat

theorem flags_lt (control : Control) : flags control < 2 ^ 5 := by
  have deleted := Bool.toNat_le control.deleted
  have lock := Bool.toNat_le control.lock
  have sibling := Bool.toNat_le control.sibling
  have leaf := Bool.toNat_le control.leaf
  have ordered := Bool.toNat_le control.ordered
  rw [flags]
  omega

/-- The word holds the fields of `control`; the version wraps around. -/
structure Codes (word : Word) (control : Control) : Prop where
  toNat_eq : word.toNat =
    control.version % 2 ^ 40 * 2 ^ 24 + control.splitting * 2 ^ 8 + flags control
  splitting_lt : control.splitting < 2 ^ 16

theorem toNat_and_mask {mask : Word} {low high : Nat}
    (bits : ∀ position < 64, mask.getLsbD position = decide (low ≤ position ∧ position < high)) :
    (word &&& mask).toNat = word.toNat % 2 ^ high / 2 ^ low * 2 ^ low := by
  apply Nat.eq_of_testBit_eq
  intro position
  rw [BitVec.testBit_toNat, BitVec.getLsbD_and, ← Nat.shiftLeft_eq, Nat.testBit_shiftLeft,
    Nat.testBit_div_two_pow, Nat.testBit_mod_two_pow, BitVec.testBit_toNat]
  by_cases inside : position < 64
  · rw [bits position inside]
    by_cases above : low ≤ position
    · simp [above, Nat.sub_add_cancel above, Bool.and_comm]
    · simp [above]
  · rw [BitVec.getLsbD_of_ge word position (by omega)]
    by_cases above : low ≤ position
    · have same : position - low + low = position := Nat.sub_add_cancel above
      simp [same, BitVec.getLsbD_of_ge word position (by omega)]
    · simp [above]

inductive Flag where
  | deleted
  | lock
  | sibling
  | leaf
  | ordered

namespace Flag

def position : Flag → Nat
  | deleted => 0
  | lock => 1
  | sibling => 2
  | leaf => 3
  | ordered => 4

def bit : Flag → Word
  | deleted => kDelBit
  | lock => kLockBit
  | sibling => kSiblingBit
  | leaf => kLeafBit
  | ordered => kOrderBit

def get (control : Control) : Flag → Bool
  | deleted => control.deleted
  | lock => control.lock
  | sibling => control.sibling
  | leaf => control.leaf
  | ordered => control.ordered

def put (control : Control) (value : Bool) : Flag → Control
  | deleted => { control with deleted := value }
  | lock => { control with lock := value }
  | sibling => { control with sibling := value }
  | leaf => { control with leaf := value }
  | ordered => { control with ordered := value }

theorem toNat_bit (flag : Flag) : flag.bit.toNat = 2 ^ flag.position := by
  cases flag <;> rfl

theorem getLsbD_bit (flag : Flag) (position : Nat) (inside : position < 64) :
    flag.bit.getLsbD position =
      decide (flag.position ≤ position ∧ position < flag.position + 1) := by
  revert position
  cases flag <;> decide

end Flag

namespace Codes

variable {word word' : Word} {control : Control}

theorem new (isLeaf : Bool) : Codes (Word.new isLeaf) (Control.new isLeaf) := by
  cases isLeaf with
  | false | true => exact ⟨rfl, by decide⟩

section

variable (codes : Codes word control)
include codes

theorem toNat_flag (flag : Flag) :
    word.toNat % 2 ^ (flag.position + 1) / 2 ^ flag.position = (flag.get control).toNat := by
  have toNat := codes.toNat_eq
  rw [flags] at toNat
  have deleted := Bool.toNat_le control.deleted
  have lock := Bool.toNat_le control.lock
  have sibling := Bool.toNat_le control.sibling
  have leaf := Bool.toNat_le control.leaf
  have ordered := Bool.toNat_le control.ordered
  cases flag <;> simp only [Flag.position, Flag.get] <;> omega

theorem toNat_and_bit (flag : Flag) :
    (word &&& flag.bit).toNat = (flag.get control).toNat * 2 ^ flag.position := by
  rw [toNat_and_mask word flag.getLsbD_bit, codes.toNat_flag]

theorem has_eq (flag : Flag) : word.has flag.bit = flag.get control := by
  have cut := codes.toNat_and_bit flag
  rw [has]
  cases value : flag.get control with
  | false =>
    rw [value] at cut
    have zero : word &&& flag.bit = 0 := BitVec.eq_of_toNat_eq (by simpa using cut)
    simp [zero]
  | true =>
    rw [value] at cut
    have nonzero : word &&& flag.bit ≠ 0 := by
      intro zero
      rw [zero, Bool.toNat_true, Nat.one_mul] at cut
      exact (Nat.two_pow_pos flag.position).ne cut
    simpa using nonzero

theorem put_true (flag : Flag) (unset : flag.get control = false) :
    Codes (word + flag.bit) (flag.put control true) := by
  have toNat := codes.toNat_eq
  have few := codes.splitting_lt
  have sum : (word + flag.bit).toNat = word.toNat + 2 ^ flag.position := by
    have low := flags_lt control
    rw [BitVec.toNat_add, flag.toNat_bit, Nat.mod_eq_of_lt]
    cases flag <;> simp only [Flag.position] <;> omega
  refine ⟨?_, by cases flag <;> exact few⟩
  rw [sum, toNat]
  cases flag <;> simp only [Flag.get] at unset <;>
    simp only [Flag.put, flags, Flag.position, unset, Bool.toNat_true, Bool.toNat_false] <;> omega

theorem put_false (flag : Flag) (set : flag.get control = true) :
    Codes (word - flag.bit) (flag.put control false) := by
  have toNat := codes.toNat_eq
  have few := codes.splitting_lt
  have holds : 2 ^ flag.position ≤ word.toNat := by
    cases flag <;> simp only [Flag.get] at set <;>
      simp only [flags, set, Bool.toNat_true] at toNat <;> simp only [Flag.position] <;> omega
  have difference : (word - flag.bit).toNat = word.toNat - 2 ^ flag.position := by
    rw [← flag.toNat_bit] at holds ⊢
    exact BitVec.toNat_sub_of_le holds
  refine ⟨?_, by cases flag <;> exact few⟩
  rw [difference, toNat]
  cases flag <;> simp only [Flag.get] at set <;>
    simp only [Flag.put, flags, Flag.position, set, Bool.toNat_true, Bool.toNat_false] <;> omega

theorem raise_eq_some (flag : Flag)
    (raised : word.raise flag.bit = some word') : Codes word' (flag.put control true) := by
  rw [raise, codes.has_eq] at raised
  split at raised
  · cases raised
  · rename_i unset
    cases raised
    exact codes.put_true flag (eq_false_of_ne_true unset)

theorem lower_eq_some (flag : Flag)
    (lowered : word.lower flag.bit = some word') : Codes word' (flag.put control false) := by
  rw [lower, codes.has_eq] at lowered
  split at lowered
  · rename_i set
    cases lowered
    exact codes.put_false flag set
  · cases lowered

theorem locked_eq : word.locked = control.lock :=
  codes.has_eq .lock

theorem latched (free : control.lock = false) :
    Codes word.latched { control with lock := true } := by
  have disjoint : word &&& kLockBit = 0#64 := by
    simpa [has, free, Flag.bit, Flag.get] using codes.has_eq .lock
  rw [Word.latched, ← BitVec.add_eq_or_of_and_eq_zero word kLockBit disjoint]
  exact codes.put_true .lock free

theorem updateVersion : Codes word.updateVersion control.updateVersion := by
  have toNat := codes.toNat_eq
  have few := codes.splitting_lt
  have low := flags_lt control
  refine ⟨?_, few⟩
  rw [Word.updateVersion, BitVec.toNat_add, show kVersionOne.toNat = 2 ^ 24 from rfl, toNat]
  simp only [Control.updateVersion, flags] at low ⊢
  omega

theorem toNat_splitting : (word &&& kSplitMask).toNat = control.splitting * 2 ^ 8 := by
  have toNat := codes.toNat_eq
  have few := codes.splitting_lt
  have low := flags_lt control
  have bits : ∀ position < 64, kSplitMask.getLsbD position = decide
    (8 ≤ position ∧ position < 24) := by
    decide
  rw [toNat_and_mask word bits]
  omega

end

theorem toNat_kSplitMask : kSplitMask.toNat = (2 ^ 16 - 1) * 2 ^ 8 := rfl

section

variable (codes : Codes word control)
include codes

theorem and_kSplitMask_eq_iff (tokens : Nat) {value : Word}
    (scaled : value.toNat = tokens * 2 ^ 8) :
    word &&& kSplitMask = value ↔ control.splitting = tokens := by
  rw [← BitVec.toNat_inj, codes.toNat_splitting, scaled]
  exact Nat.mul_left_inj (Nat.two_pow_pos 8).ne'

theorem toNat_loadVersion : word.loadVersion.toNat = control.version % 2 ^ 40 * 2 ^ 24 := by
  have toNat := codes.toNat_eq
  have few := codes.splitting_lt
  have low := flags_lt control
  have bits : ∀ position < 64,
      kVersionMask.getLsbD position = decide (24 ≤ position ∧ position < 64) := by
    decide
  rw [loadVersion, toNat_and_mask word bits]
  omega

theorem beginSplitting_eq_some
    (began : word.beginSplitting = some word') : Codes word' control.beginSplitting := by
  have toNat := codes.toNat_eq
  have few := codes.splitting_lt
  rw [beginSplitting] at began
  split at began
  · cases began
  · rename_i room
    cases began
    have notFull := mt (codes.and_kSplitMask_eq_iff (2 ^ 16 - 1) toNat_kSplitMask).mpr room
    have low := flags_lt control
    refine ⟨?_, ?_⟩
    · rw [BitVec.toNat_add, show kSplitOne.toNat = 2 ^ 8 from rfl, toNat]
      simp only [Control.beginSplitting, flags] at low ⊢
      omega
    · simp only [Control.beginSplitting]
      omega

theorem endSplitting_eq_some
    (ended : word.endSplitting = some word') : Codes word' control.endSplitting := by
  have toNat := codes.toNat_eq
  have few := codes.splitting_lt
  rw [endSplitting] at ended
  split at ended
  · cases ended
  · rename_i some
    cases ended
    have positive := mt (codes.and_kSplitMask_eq_iff 0 BitVec.toNat_zero).mpr some
    have holds : kSplitOne.toNat ≤ word.toNat := by
      rw [toNat, show kSplitOne.toNat = 2 ^ 8 from rfl]
      omega
    refine ⟨?_, ?_⟩
    · rw [BitVec.toNat_sub_of_le holds, show kSplitOne.toNat = 2 ^ 8 from rfl, toNat]
      simp only [Control.endSplitting, flags]
      omega
    · simp only [Control.endSplitting]
      omega

end

end Codes

end Word

end IndexResearch.FBTree
