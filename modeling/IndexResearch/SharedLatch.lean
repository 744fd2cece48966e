import IndexResearch.Transition

/-!
# Latches for readers and writers

A latch is held by many readers or by one writer.  It knows who holds it, and a table of
latches agrees with what every thread takes itself to hold.
-/

namespace IndexResearch

open List Function

inductive Mode where
  | shared
  | exclusive
  deriving DecidableEq

structure SharedLatch (Thread : Type*) where
  readers : List Thread
  writer : Option Thread

namespace SharedLatch

variable {Thread : Type*}

def free : SharedLatch Thread := ⟨[], none⟩

def acquire (latch : SharedLatch Thread) (thread : Thread) : Mode → Option (SharedLatch Thread)
  | .shared =>
    match latch.writer with
    | none => some { latch with readers := thread :: latch.readers }
    | some _ => none
  | .exclusive =>
    if latch.readers.isEmpty ∧ latch.writer.isNone then some { latch with writer := some thread }
    else none

def release [DecidableEq Thread] (latch : SharedLatch Thread) (thread : Thread) :
    Mode → SharedLatch Thread
  | .shared => { latch with readers := latch.readers.erase thread }
  | .exclusive => { latch with writer := none }

inductive Move (Thread : Type*) where
  | acquire (thread : Thread) (mode : Mode)
  | release (thread : Thread) (mode : Mode)

def heldBy [DecidableEq Thread] (latch : SharedLatch Thread) (thread : Thread) : Mode → Bool
  | .shared => decide (thread ∈ latch.readers)
  | .exclusive => decide (latch.writer = some thread)

/-- A latch by itself: whoever holds it may give it up. -/
def machine [DecidableEq Thread] : Machine (SharedLatch Thread) (Move Thread) where
  initial latch := latch = free
  next latch
    | .acquire thread mode => latch.acquire thread mode
    | .release thread mode =>
      if latch.heldBy thread mode then some (latch.release thread mode) else none

structure Agrees (latch : SharedLatch Thread) (holds : Thread → Mode → Prop) : Prop where
  readers_iff : ∀ thread, thread ∈ latch.readers ↔ holds thread .shared
  writer_iff : ∀ thread, latch.writer = some thread ↔ holds thread .exclusive
  nodup : latch.readers.Nodup
  apart : latch.writer ≠ none → latch.readers = []

variable {latch latch' : SharedLatch Thread} {holds holds' : Thread → Mode → Prop}
  {thread other : Thread} {mode : Mode}

theorem agrees_free (none : ∀ thread mode, ¬holds thread mode) : free.Agrees holds where
  readers_iff thread := iff_of_false not_mem_nil (none thread .shared)
  writer_iff thread := iff_of_false (by simp [free]) (none thread .exclusive)
  nodup := nodup_nil
  apart := fun writer => absurd rfl writer

namespace Agrees

section

variable (agrees : latch.Agrees holds)
include agrees

theorem congr (same : ∀ thread mode, holds' thread mode ↔ holds thread mode) :
    latch.Agrees holds' where
  readers_iff thread := (agrees.readers_iff thread).trans (same thread .shared).symm
  writer_iff thread := (agrees.writer_iff thread).trans (same thread .exclusive).symm
  nodup := agrees.nodup
  apart := agrees.apart

theorem alone (writes : holds thread .exclusive)
    (held : holds other mode) : other = thread ∧ mode = .exclusive := by
  have writer := (agrees.writer_iff thread).mpr writes
  cases mode with
  | exclusive =>
    have same := writer.symm.trans ((agrees.writer_iff other).mpr held)
    exact ⟨(Option.some.inj same).symm, rfl⟩
  | shared =>
    have listed := (agrees.readers_iff other).mpr held
    rw [agrees.apart (by rw [writer]; simp)] at listed
    exact absurd listed not_mem_nil

/-- Nobody else holds a latch that a thread gets for itself, and no writer one that it
shares. -/
theorem of_acquire (taken : latch.acquire thread mode = some latch')
    (held : holds other .exclusive ∨ mode = .exclusive ∧ holds other .shared) : False := by
  cases mode with
  | shared =>
    rw [acquire] at taken
    split at taken
    · rename_i noWriter
      rcases held with writes | ⟨never, _⟩
      · have writer := (agrees.writer_iff other).mpr writes
        rw [noWriter] at writer
        cases writer
      · cases never
    · cases taken
  | exclusive =>
    rw [acquire] at taken
    split at taken
    · rename_i unheld
      rcases held with writes | ⟨_, reads⟩
      · have writer := (agrees.writer_iff other).mpr writes
        rw [Option.isNone_iff_eq_none.mp unheld.2] at writer
        cases writer
      · have reader := (agrees.readers_iff other).mpr reads
        rw [isEmpty_iff.mp unheld.1] at reader
        exact not_mem_nil reader
    · cases taken

theorem acquire (taken : latch.acquire thread mode = some latch') (new : ¬holds thread .shared)
    (now : ∀ other mode', holds' other mode' ↔ holds other mode' ∨
      (other = thread ∧ mode' = mode)) : latch'.Agrees holds' := by
  cases mode with
  | shared =>
    rw [SharedLatch.acquire] at taken
    split at taken
    · rename_i noWriter
      cases taken
      refine ⟨fun other => ?_, fun other => ?_, ?_, fun writer => absurd noWriter writer⟩
      · rw [now, mem_cons, agrees.readers_iff, or_comm]
        simp
      · rw [now, ← agrees.writer_iff]
        simp
      · rw [nodup_cons, agrees.readers_iff]
        exact ⟨new, agrees.nodup⟩
    · cases taken
  | exclusive =>
    rw [SharedLatch.acquire] at taken
    split at taken
    · rename_i unheld
      cases taken
      refine ⟨fun other => ?_, fun other => ?_, agrees.nodup, fun _ => isEmpty_iff.mp unheld.1⟩
      · rw [now, ← agrees.readers_iff]
        simp
      · rw [now, ← agrees.writer_iff, Option.isNone_iff_eq_none.mp unheld.2]
        simp only [Option.some.injEq, and_true, reduceCtorEq, false_or]
        exact eq_comm
    · cases taken

theorem release [DecidableEq Thread] (held : holds thread mode)
    (now : ∀ other mode', holds' other mode' ↔ holds other mode' ∧
      ¬(other = thread ∧ mode' = mode)) : (latch.release thread mode).Agrees holds' := by
  cases mode with
  | shared =>
    refine ⟨fun other => ?_, fun other => ?_, agrees.nodup.erase thread, fun writer => ?_⟩
    · rw [now, SharedLatch.release, agrees.nodup.mem_erase_iff, agrees.readers_iff]
      simp [and_comm]
    · rw [now, SharedLatch.release, agrees.writer_iff]
      simp
    · rw [SharedLatch.release, agrees.apart writer]
      rfl
  | exclusive =>
    refine ⟨fun other => ?_, fun other => ?_, agrees.nodup, fun writer => absurd rfl writer⟩
    · rw [now, SharedLatch.release, agrees.readers_iff]
      simp
    · rw [now, SharedLatch.release]
      simp only [reduceCtorEq, and_true, false_iff, not_and, not_not]
      exact fun writes => (agrees.alone held writes).1

theorem exists_holder (waits : latch.acquire thread mode = none) :
    ∃ other mode', holds other mode' := by
  cases writer : latch.writer with
  | some other => exact ⟨other, .exclusive, (agrees.writer_iff other).mp writer⟩
  | none =>
    cases readers : latch.readers with
    | cons other rest =>
      exact ⟨other, .shared, (agrees.readers_iff other).mp
        (by rw [readers]; exact mem_cons_self)⟩
    | nil =>
      cases mode with
      | shared =>
        rw [SharedLatch.acquire, writer] at waits
        cases waits
      | exclusive =>
        rw [SharedLatch.acquire, writer, readers] at waits
        cases waits

end

end Agrees

/-! ## Tables of latches -/

variable {Name : Type*} [DecidableEq Name] [DecidableEq Thread]

def TableAgrees (latches : Name → SharedLatch Thread) (held : Thread → List (Name × Mode)) : Prop :=
  ∀ name, (latches name).Agrees fun thread mode => (name, mode) ∈ held thread

variable {latches : Name → SharedLatch Thread} {held held' : Thread → List (Name × Mode)}
  {name : Name}

namespace TableAgrees

omit [DecidableEq Name] [DecidableEq Thread] in
theorem congr (agrees : TableAgrees latches held)
    (same : ∀ thread item, item ∈ held' thread ↔ item ∈ held thread) :
    TableAgrees latches held' := fun name =>
  (agrees name).congr fun thread mode => same thread (name, mode)

omit [DecidableEq Thread] in
theorem update_here (agrees : TableAgrees latches held)
    (here : latch'.Agrees fun thread mode => (name, mode) ∈ held' thread)
    (others : ∀ thread item, item.1 ≠ name → (item ∈ held' thread ↔ item ∈ held thread)) :
    TableAgrees (update latches name latch') held' := by
  intro place
  by_cases same : place = name
  · subst same
    rw [update_self]
    exact here
  · rw [update_of_ne same]
    exact (agrees place).congr fun thread mode => others thread (place, mode) same

theorem acquire (agrees : TableAgrees latches held)
    (taken : (latches name).acquire thread mode = some latch') (new : (name, .shared) ∉ held thread)
    (others : ∀ other, other ≠ thread → held' other = held other)
    (now : ∀ item, item ∈ held' thread ↔ item ∈ held thread ∨ item = (name, mode)) :
    TableAgrees (update latches name latch') held' := by
  have changes : ∀ other item, item ∈ held' other ↔
      item ∈ held other ∨ (other = thread ∧ item = (name, mode)) := by
    intro other item
    by_cases same : other = thread
    · subst same
      simp [now]
    · simp [others other same, same]
  refine agrees.update_here ((agrees name).acquire taken new fun other mode' => ?_) ?_
  · simp [changes]
  · intro other item apart
    simp [changes, Prod.ext_iff, apart]

theorem release (agrees : TableAgrees latches held) (holds : (name, mode) ∈ held thread)
    (others : ∀ other, other ≠ thread → held' other = held other)
    (now : ∀ item, item ∈ held' thread ↔ item ∈ held thread ∧ item ≠ (name, mode)) :
    TableAgrees (update latches name ((latches name).release thread mode)) held' := by
  have changes : ∀ other item, item ∈ held' other ↔
      item ∈ held other ∧ ¬(other = thread ∧ item = (name, mode)) := by
    intro other item
    by_cases same : other = thread
    · subst same
      simp [now]
    · simp [others other same, same]
  refine agrees.update_here ((agrees name).release holds fun other mode' => ?_) ?_
  · simp [changes]
  · intro other item apart
    simp [changes, Prod.ext_iff, apart]

omit [DecidableEq Name] [DecidableEq Thread] in
/-- If threads wait only for latches that are above all those that they hold, they cannot all
wait: one of them gets its latch, or one that holds a latch does not wait. -/
theorem exists_running {Rank : Type*} [LinearOrder Rank] (agrees : TableAgrees latches held)
    (rank : Name → Rank) (names : Finset Name) (waits : Thread → Option (Name × Mode))
    (inside : ∀ thread name mode, waits thread = some (name, mode) → name ∈ names)
    (above : ∀ thread name mode, waits thread = some (name, mode) →
      ∀ item ∈ held thread, rank item.1 < rank name)
    (waiting : waits thread = some (name, mode)) :
    ∃ other, (∃ name mode latch, waits other = some (name, mode) ∧
        (latches name).acquire other mode = some latch) ∨
        (waits other = none ∧ held other ≠ []) := by
  classical
  -- the highest latch that a thread waits for
  obtain ⟨top, topListed, highest⟩ := Finset.exists_max_image
    (names.filter fun name => ∃ thread mode, waits thread = some (name, mode)) rank
    ⟨name, Finset.mem_filter.mpr ⟨inside _ _ _ waiting, _, _, waiting⟩⟩
  obtain ⟨_, waiter, wanted, waitsTop⟩ := Finset.mem_filter.mp topListed
  cases acquired : (latches top).acquire waiter wanted with
  | some latch => exact ⟨waiter, .inl ⟨top, wanted, latch, waitsTop, acquired⟩⟩
  | none =>
    obtain ⟨holder, mode', holds⟩ := (agrees top).exists_holder acquired
    refine ⟨holder, .inr ⟨?_, ne_nil_of_mem holds⟩⟩
    cases further : waits holder with
    | none => rfl
    | some item =>
      have higher := above holder item.1 item.2 further _ holds
      have notHigher := highest item.1
        (Finset.mem_filter.mpr ⟨inside holder item.1 item.2 further, holder, item.2, further⟩)
      exact absurd higher (not_lt_of_ge notHigher)

end TableAgrees

end SharedLatch

end IndexResearch
