import Mathlib.Tactic

/-!
# Limbo lists

A thread collects the blocks it retires in bags of `kBagSize` entries.  The
bags form a queue: new entries go to the tail, reclamation empties the head.
The plain and the type-erased lists of `util/epoch.h` differ only in what is
stored in a bag, so one queue serves both.
-/

namespace IndexResearch.Epoch

open List

def kEpochIncrement : Nat := 2
def kOpThreshold : Nat := 10
def kBagSize : Nat := 13

def isQuiescent (epoch : Nat) : Bool := epoch % 2 == 1

def withQuiescent (epoch : Nat) : Nat := 2 * (epoch / 2) + 1

def realEpoch (epoch : Nat) : Nat := 2 * (epoch / 2)

def subtract64 (left right : Nat) : Nat := (left + 2 ^ 64 - right % 2 ^ 64) % 2 ^ 64

theorem subtract64_of_le {left right : Nat} (ordered : right ≤ left) :
    subtract64 left right = (left - right) % 2 ^ 64 := by
  unfold subtract64
  omega

universe u

structure LimboBag (Entry : Type u) where
  /-- Where the allocator placed the bag. -/
  address : Nat
  epoch : Nat
  freed : Nat
  /-- `pointers[0 .. count)`. -/
  pointers : List Entry

structure BagQueue (Entry : Type u) where
  /-- The bags from `retired_head_` to `retired_tail_`. -/
  retired : List (LimboBag Entry)
  /-- The bags that `empty_bag_` leads to. -/
  empty : List (LimboBag Entry)
  /-- Number of bags obtained from the allocator so far. -/
  allocated : Nat

namespace BagQueue

variable {Entry : Type u}

def initial : BagQueue Entry := ⟨[], [], 0⟩

/-- Take a bag from the empty list, or a new one from the allocator, and
reset its counters. -/
def openBag (queue : BagQueue Entry) : LimboBag Entry × BagQueue Entry :=
  match queue.empty with
  | [] => (⟨queue.allocated, 0, 0, []⟩,
      { queue with allocated := queue.allocated + 1 })
  | bag :: rest => ({ bag with freed := 0, pointers := [] },
      { queue with empty := rest })

/-- `LimboList::add`. -/
def add (queue : BagQueue Entry) (localEpoch : Nat) (entry : Entry) : BagQueue Entry :=
  match queue.retired.getLast? with
  | some tail =>
    if tail.pointers.length = kBagSize then
      let (bag, rest) := queue.openBag
      { rest with
        retired := queue.retired ++
          [{ bag with pointers := [entry], epoch := localEpoch }] }
    else
      { queue with
        retired := queue.retired.dropLast ++
          [{ tail with
              pointers := tail.pointers ++ [entry]
              epoch := localEpoch }] }
  | none =>
    let (bag, rest) := queue.openBag
    { rest with retired := [{ bag with pointers := [entry], epoch := localEpoch }] }

/-- What one call of `free` does: the entries handed to the allocator, the
queue and the token it leaves. -/
structure FreeResult (Entry : Type u) where
  entries : List Entry
  queue : BagQueue Entry
  token : Bool

/-- `LimboList::free` and `LimboList::type_free`.  The tail bag is still being
filled and is never touched. -/
def free (queue : BagQueue Entry) (token : Bool) (gepoch nfree : Nat) : FreeResult Entry :=
  match queue.retired with
  | bag :: next :: rest =>
    if token then
      if subtract64 gepoch bag.epoch > 2 * kEpochIncrement then
        let entries := (bag.pointers.drop bag.freed).take nfree
        let emptied := { bag with freed := bag.freed + entries.length }
        if bag.pointers.length ≤ emptied.freed then
          ⟨entries, { queue with
            retired := next :: rest
            empty := emptied :: queue.empty }, true⟩
        else
          ⟨entries, { queue with retired := emptied :: next :: rest }, true⟩
      else
        ⟨[], queue, false⟩
    else
      ⟨[], queue, false⟩
  | _ => ⟨[], queue, false⟩

/-- A bag after `add` is an old one, or the tail stamped with the epoch of
the new entry. -/
theorem mem_retired_add {queue : BagQueue Entry} {localEpoch : Nat} {entry : Entry}
    {bag : LimboBag Entry} (membership : bag ∈ (queue.add localEpoch entry).retired) :
    bag ∈ queue.retired ∨ bag.epoch = localEpoch ∧
      ∀ other ∈ bag.pointers, other = entry ∨
        ∃ old ∈ queue.retired, other ∈ old.pointers := by
  unfold add at membership
  split at membership
  next tail found =>
    have tailMember : tail ∈ queue.retired := mem_of_getLast? found
    split at membership
    next =>
      rcases mem_append.mp membership with old | new
      · exact .inl old
      · rw [mem_singleton] at new
        subst new
        exact .inr ⟨rfl, by simp⟩
    next =>
      rcases mem_append.mp membership with old | new
      · exact .inl (mem_of_mem_dropLast old)
      · rw [mem_singleton] at new
        subst new
        refine .inr ⟨rfl, fun other present => ?_⟩
        rcases mem_append.mp present with old | same
        · exact .inr ⟨tail, tailMember, old⟩
        · exact .inl (mem_singleton.mp same)
  next =>
    rw [mem_singleton] at membership
    subst membership
    exact .inr ⟨rfl, by simp⟩

theorem mem_entries_free {queue : BagQueue Entry} {token : Bool} {gepoch nfree : Nat}
    {entry : Entry} (freed : entry ∈ (queue.free token gepoch nfree).entries) :
    ∃ bag ∈ queue.retired, entry ∈ bag.pointers ∧
      subtract64 gepoch bag.epoch > 2 * kEpochIncrement := by
  unfold free at freed
  split at freed
  next bag next rest shape =>
    have fromHead : subtract64 gepoch bag.epoch > 2 * kEpochIncrement →
        entry ∈ (bag.pointers.drop bag.freed).take nfree →
        ∃ bag ∈ queue.retired, entry ∈ bag.pointers ∧
          subtract64 gepoch bag.epoch > 2 * kEpochIncrement := fun old taken =>
      ⟨bag, by simp [shape], mem_of_mem_drop (mem_of_mem_take taken), old⟩
    split at freed
    next =>
      split at freed
      next old =>
        dsimp only at freed
        split at freed <;> exact fromHead old freed
      next => simp at freed
    next => simp at freed
  next => simp at freed

theorem mem_retired_free {queue : BagQueue Entry} {token : Bool} {gepoch nfree : Nat}
    {bag : LimboBag Entry} (membership : bag ∈ (queue.free token gepoch nfree).queue.retired) :
    ∃ old ∈ queue.retired, bag.epoch = old.epoch ∧ bag.pointers = old.pointers := by
  unfold free at membership
  split at membership
  next head next rest shape =>
    split at membership
    next =>
      split at membership
      next =>
        dsimp only at membership
        split at membership
        next => exact ⟨bag, by rw [shape]; exact mem_cons_of_mem _ membership, rfl, rfl⟩
        next =>
          rcases mem_cons.mp membership with same | later
          · exact ⟨head, by simp [shape], by rw [same], by rw [same]⟩
          · exact ⟨bag, by rw [shape]; exact mem_cons_of_mem _ later, rfl, rfl⟩
      next => exact ⟨bag, membership, rfl, rfl⟩
    next => exact ⟨bag, membership, rfl, rfl⟩
  next => exact ⟨bag, membership, rfl, rfl⟩

end BagQueue

end IndexResearch.Epoch
