import IndexResearch.ByteString

/-!
# Strings in memory

Memory whose cells are characters or the bytes of an integer.  A string is stored as its
length, an integer of four bytes, followed by its characters.  An integer can be read where
all its bytes are found together.
-/

namespace IndexResearch

inductive Cell where
  | char (byte : Byte)
  /-- A byte of an integer. -/
  | int (value part : Nat)
  deriving DecidableEq

namespace StringMemory

def intSize : Nat := 4

def blockSize (text : ByteString) : Nat := text.len + intSize

def writeInt (memory : Nat → Cell) (address value : Nat) : Nat → Cell := fun pos =>
  if address ≤ pos ∧ pos < address + intSize then .int value (pos - address)
  else memory pos

def writeChars (memory : Nat → Cell) (address : Nat) (text : ByteString) : Nat → Cell :=
  fun pos =>
    if address ≤ pos ∧ pos < address + text.len then .char (text.byte (pos - address))
    else memory pos

def writeString (memory : Nat → Cell) (address : Nat) (text : ByteString) : Nat → Cell :=
  writeChars (writeInt memory address text.len) (address + intSize) text

def readInt (memory : Nat → Cell) (address : Nat) : Option Nat :=
  match memory address with
  | .int value _ =>
    if ∀ part < intSize, memory (address + part) = .int value part then some value else none
  | .char _ => none

def readChar (memory : Nat → Cell) (address : Nat) : Option Byte :=
  match memory address with
  | .char byte => some byte
  | .int _ _ => none

def readChars (memory : Nat → Cell) : (address count : Nat) → Option (List Byte)
  | _, 0 => some []
  | address, count + 1 =>
    (readChar memory address).bind fun byte =>
      (readChars memory (address + 1) count).map (byte :: ·)

def readString (memory : Nat → Cell) (address : Nat) : Option ByteString :=
  (readInt memory address).bind fun len =>
    (readChars memory (address + intSize) len).map ByteString.mk

variable {memory other : Nat → Cell} {address target : Nat} {text written : ByteString}

structure Holds (memory : Nat → Cell) (address : Nat) (text : ByteString) : Prop where
  length : ∀ part < intSize, memory (address + part) = .int text.len part
  chars : ∀ index < text.len, memory (address + intSize + index) = .char (text.byte index)

theorem holds_writeString (memory : Nat → Cell) (address : Nat) (text : ByteString) :
    Holds (writeString memory address text) address text where
  length part inside := by
    rw [writeString, writeChars, if_neg (by omega), writeInt, if_pos (by omega),
      Nat.add_sub_cancel_left]
  chars index inside := by
    rw [writeString, writeChars, if_pos (by omega), Nat.add_sub_cancel_left]

theorem Holds.congr (holds : Holds memory address text)
    (same : ∀ pos, address ≤ pos → pos < address + blockSize text →
      other pos = memory pos) : Holds other address text where
  length part inside := by
    rw [same _ (by omega) (by rw [blockSize]; omega), holds.length part inside]
  chars index inside := by
    rw [same _ (by omega) (by rw [blockSize]; omega), holds.chars index inside]

theorem Holds.writeString (holds : Holds memory address text)
    (apart : address + blockSize text ≤ target ∨ target + blockSize written ≤ address) :
    Holds (writeString memory target written) address text := by
  rw [blockSize, blockSize] at apart
  apply holds.congr
  intro pos low high
  rw [blockSize] at high
  rw [StringMemory.writeString, writeChars, if_neg (by omega), writeInt, if_neg (by omega)]

theorem Holds.readInt_eq (holds : Holds memory address text) :
    readInt memory address = some text.len := by
  have first := holds.length 0 (by decide)
  rw [Nat.add_zero] at first
  rw [readInt, first]
  exact if_pos holds.length

theorem readChars_eq (memory : Nat → Cell) {bytes : List Byte}
    (stored : ∀ index < bytes.length, memory (address + index) = .char (bytes.getD index 0)) :
    readChars memory address bytes.length = some bytes := by
  induction bytes generalizing address with
  | nil => rfl
  | cons byte rest ih =>
    have first : memory address = .char byte := stored 0 (Nat.succ_pos _)
    have later : ∀ index < rest.length,
        memory (address + 1 + index) = .char (rest.getD index 0) := by
      intro index inside
      have next := stored (index + 1) (Nat.succ_lt_succ inside)
      rwa [show address + (index + 1) = address + 1 + index by omega] at next
    rw [List.length_cons, readChars, readChar, first, ih later]
    rfl

theorem Holds.readString_eq (holds : Holds memory address text) :
    readString memory address = some text := by
  have chars : readChars memory (address + intSize) text.len = some text.bytes :=
    readChars_eq memory holds.chars
  rw [readString, holds.readInt_eq, Option.bind_some, chars]
  rfl

end StringMemory

end IndexResearch
