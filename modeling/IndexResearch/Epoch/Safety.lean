import IndexResearch.Epoch.Protocol

/-!
# When reclamation is safe

A thread that stays in its operation holds the global epoch back: it cannot move
more than one increment past the value it had when the thread announced itself.
A block that is stamped with an epoch at most one increment behind the global
one is therefore safe until the operations that were open have ended.

The stamp is the *private* epoch of the retiring thread.  `startop` reads the
global epoch before it announces it, and in between nothing holds the global
epoch back, so the stamp can lag arbitrarily far behind.
-/

namespace IndexResearch.Epoch

open List

variable {Block : Type}

/-- An operation recorded with a block is over, or it was announced while the
global epoch was at most one increment past the stamp. -/
def Covered (state : State Block) (announcedAt : Nat → Nat) (stamp : Nat)
    (operation : Nat × Nat) : Prop :=
  ∃ thread, state.threads[operation.1]? = some thread ∧
    (operation.2 < thread.finished ∨
      thread.finished = operation.2 ∧ thread.phase.inOperation = true ∧
        announcedAt operation.1 ≤ stamp + kEpochIncrement)

/-- The bags of a thread, whose private epoch is `localEpoch`. -/
def QueueCovered (state : State Block) (announcedAt : Nat → Nat) (localEpoch : Nat)
    (queue : BagQueue (Retired Block)) : Prop :=
  ∀ bag ∈ queue.retired, bag.epoch ≤ localEpoch ∧ bag.epoch ≤ state.gepoch ∧
    ∀ entry ∈ bag.pointers, ∀ operation ∈ entry.witnesses,
      Covered state announcedAt bag.epoch operation

/-- The epoch that a call of `startop` in progress has loaded. -/
def Phase.loadedEpoch : Phase → Option Nat
  | .loaded gepoch _ | .reclaimed gepoch _ | .typeReclaimed gepoch
  | .announced gepoch | .advancing gepoch => some gepoch
  | _ => none

/-- What holds of the thread at `index`, where `announcedAt` gives the value of
the global epoch at the last announcement of each thread. -/
structure ThreadInvariant (state : State Block) (announcedAt : Nat → Nat)
    (index : Nat) (thread : Thread Block) : Prop where
  started : thread.phase ≠ .idle ∨ 0 < thread.list.checkedIt →
    thread.list.localEpoch ≤ state.gepoch
  loaded : ∀ gepoch, thread.phase.loadedEpoch = some gepoch →
    gepoch = thread.list.localEpoch
  even : thread.phase ≠ .idle → thread.list.localEpoch % 2 = 0
  announced : thread.phase.inOperation = true →
    thread.list.threadEpoch = thread.list.localEpoch ∧
    thread.list.localEpoch ≤ announcedAt index ∧
    announcedAt index ≤ state.gepoch ∧
    state.gepoch ≤ announcedAt index + kEpochIncrement
  scanned : ∀ pos < thread.list.checkedIt, ∀ other,
    state.threads[pos]? = some other → other.phase.inOperation = true →
    thread.list.localEpoch ≤ announcedAt pos
  complete : ∀ gepoch, thread.phase = .advancing gepoch → ∀ pos other,
    state.threads[pos]? = some other → other.phase.inOperation = true →
    gepoch ≤ announcedAt pos
  retired : QueueCovered state announcedAt thread.list.localEpoch thread.list.retired
  typed : QueueCovered state announcedAt thread.list.localEpoch thread.list.typed

structure Invariant (state : State Block) (announcedAt : Nat → Nat) : Prop where
  even : state.gepoch % 2 = 0
  threads : ∀ index thread, state.threads[index]? = some thread →
    ThreadInvariant state announcedAt index thread

/-! ## What a step means for the other threads -/

/-- Operations only end, or begin while the global epoch is at its present
value. -/
structure Evolves (before after : State Block) (announcedAt announcedAt' : Nat → Nat) :
    Prop where
  grows : before.gepoch ≤ after.gepoch
  remains : ∀ index thread, before.threads[index]? = some thread →
    ∃ thread', after.threads[index]? = some thread' ∧
      (thread.finished < thread'.finished ∨
        thread'.finished = thread.finished ∧
          (thread.phase.inOperation = true → thread'.phase.inOperation = true ∧
            announcedAt' index = announcedAt index))
  opened : ∀ index thread', after.threads[index]? = some thread' →
    thread'.phase.inOperation = true →
    before.gepoch ≤ announcedAt' index ∨
      ∃ thread, before.threads[index]? = some thread ∧
        thread.phase.inOperation = true ∧ announcedAt' index = announcedAt index

namespace Evolves

variable {before after : State Block} {announcedAt announcedAt' : Nat → Nat}

section

variable (evolves : Evolves before after announcedAt announcedAt')
include evolves

theorem covered {stamp : Nat} {operation : Nat × Nat}
    (covers : Covered before announcedAt stamp operation) :
    Covered after announcedAt' stamp operation := by
  obtain ⟨thread, found, cases⟩ := covers
  obtain ⟨thread', found', later⟩ := evolves.remains _ _ found
  refine ⟨thread', found', ?_⟩
  rcases later with ended | ⟨same, keeps⟩
  · left
    rcases cases with past | ⟨current, _⟩ <;> omega
  · rcases cases with past | ⟨current, isOpen, bound⟩
    · left
      omega
    · obtain ⟨isOpen', unchanged⟩ := keeps isOpen
      exact .inr ⟨by omega, isOpen', by omega⟩

theorem queueCovered {localEpoch : Nat} {queue : BagQueue (Retired Block)}
    (covers : QueueCovered before announcedAt localEpoch queue) :
    QueueCovered after announcedAt' localEpoch queue := by
  intro bag membership
  obtain ⟨localBound, globalBound, entries⟩ := covers bag membership
  exact ⟨localBound, le_trans globalBound evolves.grows,
    fun entry present operation witnessed =>
      evolves.covered (entries entry present operation witnessed)⟩

theorem bounded {bound : Nat} (small : bound ≤ before.gepoch) {pos : Nat}
    (held : ∀ other, before.threads[pos]? = some other →
      other.phase.inOperation = true → bound ≤ announcedAt pos)
    {other : Thread Block} (found : after.threads[pos]? = some other)
    (isOpen : other.phase.inOperation = true) : bound ≤ announcedAt' pos := by
  rcases evolves.opened _ _ found isOpen with fresh | ⟨old, foundOld, openOld, unchanged⟩
  · exact le_trans small fresh
  · rw [unchanged]
    exact held old foundOld openOld

theorem threadInvariant
    (sameEpoch : after.gepoch = before.gepoch) {index : Nat} {thread : Thread Block}
    (sameAnnounced : thread.phase.inOperation = true →
      announcedAt' index = announcedAt index)
    (holds : ThreadInvariant before announcedAt index thread) :
    ThreadInvariant after announcedAt' index thread where
  started active := sameEpoch ▸ holds.started active
  loaded := holds.loaded
  even := holds.even
  announced isOpen := by
    rw [sameEpoch, sameAnnounced isOpen]
    exact holds.announced isOpen
  scanned pos checked _ found isOpen :=
    evolves.bounded (holds.started (.inr (by omega)))
      (fun old foundOld openOld => holds.scanned pos checked old foundOld openOld)
      found isOpen
  complete gepoch phase pos _ found isOpen := by
    have small : gepoch ≤ before.gepoch := by
      rw [holds.loaded gepoch (by simp [phase, Phase.loadedEpoch])]
      exact holds.started (.inl (by simp [phase]))
    exact evolves.bounded small
      (fun old foundOld openOld => holds.complete gepoch phase pos old foundOld openOld)
      found isOpen
  retired := evolves.queueCovered holds.retired
  typed := evolves.queueCovered holds.typed

end

end Evolves

theorem mem_openOperations {threads : List (Thread Block)} {operation : Nat × Nat} :
    operation ∈ openOperations threads ↔
      ∃ thread, threads[operation.1]? = some thread ∧
        thread.phase.inOperation = true ∧ thread.finished = operation.2 := by
  obtain ⟨index, number⟩ := operation
  simp only [openOperations, mem_filterMap, Prod.exists, Option.ite_none_right_eq_some,
    Option.some.injEq, Prod.mk.injEq, mk_mem_zipIdx_iff_getElem?]
  constructor
  · rintro ⟨thread, pos, found, isOpen, rfl, rfl⟩
    exact ⟨thread, found, isOpen, rfl⟩
  · rintro ⟨thread, found, isOpen, rfl⟩
    exact ⟨thread, index, found, isOpen, rfl, rfl⟩

variable {state : State Block}

section Moves

variable {state : State Block} {announcedAt announcedAt' : Nat → Nat} {index : Nat}
  {thread thread' : Thread Block}

theorem Evolves.set (announcedAt announcedAt' : Nat → Nat) (thread' : Thread Block)
    {gepoch : Nat} (grows : state.gepoch ≤ gepoch) (found : state.threads[index]? = some thread)
    (later : thread.finished < thread'.finished ∨
      thread'.finished = thread.finished ∧
        (thread.phase.inOperation = true → thread'.phase.inOperation = true ∧
          announcedAt' index = announcedAt index))
    (opened : thread'.phase.inOperation = true → state.gepoch ≤ announcedAt' index ∨
      thread.phase.inOperation = true ∧ announcedAt' index = announcedAt index)
    (others : ∀ pos, pos ≠ index → announcedAt' pos = announcedAt pos) :
    Evolves state ⟨gepoch, state.threads.set index thread'⟩ announcedAt announcedAt' where
  grows := grows
  remains pos other foundOther := by
    by_cases same : pos = index
    · subst same
      rw [found] at foundOther
      cases foundOther
      have bound : pos < state.threads.length := (List.getElem?_eq_some_iff.mp found).1
      exact ⟨thread', by simp [bound], later⟩
    · refine ⟨other, by simp [getElem?_set_ne (Ne.symm same), foundOther], .inr ⟨rfl, ?_⟩⟩
      exact fun isOpen => ⟨isOpen, others pos same⟩
  opened pos other foundOther isOpen := by
    by_cases same : pos = index
    · subst same
      have bound : pos < state.threads.length := (List.getElem?_eq_some_iff.mp found).1
      simp only [getElem?_set_self bound, Option.some.injEq] at foundOther
      subst foundOther
      rcases opened isOpen with fresh | ⟨wasOpen, same⟩
      · exact .inl fresh
      · exact .inr ⟨thread, found, wasOpen, same⟩
    · rw [getElem?_set_ne (Ne.symm same)] at foundOther
      exact .inr ⟨other, foundOther, isOpen, others pos same⟩

theorem Invariant.set (holds : Invariant state announcedAt)
    (evolves : Evolves state { state with threads := state.threads.set index thread' }
      announcedAt announcedAt')
    (others : ∀ pos, pos ≠ index → announcedAt' pos = announcedAt pos)
    (moved : ThreadInvariant { state with threads := state.threads.set index thread' }
      announcedAt' index thread') :
    Invariant { state with threads := state.threads.set index thread' } announcedAt' where
  even := holds.even
  threads pos other found := by
    by_cases same : pos = index
    · subst same
      rw [getElem?_set] at found
      simp only [↓reduceIte] at found
      split at found
      next => cases found; exact moved
      next => simp at found
    · rw [getElem?_set_ne (Ne.symm same)] at found
      exact evolves.threadInvariant rfl (fun _ => others pos same)
        (holds.threads pos other found)

theorem Evolves.silent (announcedAt : Nat → Nat) (thread' : Thread Block)
    (found : state.threads[index]? = some thread)
    (sameFinished : thread'.finished = thread.finished)
    (samePhase : thread'.phase.inOperation = thread.phase.inOperation) :
    Evolves state { state with threads := state.threads.set index thread' }
      announcedAt announcedAt :=
  .set announcedAt announcedAt thread' le_rfl found
    (.inr ⟨sameFinished, fun isOpen => ⟨samePhase ▸ isOpen, rfl⟩⟩)
    (fun isOpen => .inr ⟨samePhase ▸ isOpen, rfl⟩) (fun _ _ => rfl)

variable {queue : BagQueue (Retired Block)}

theorem QueueCovered.free {localEpoch : Nat}
    (covers : QueueCovered state announcedAt localEpoch queue) (token : Bool) (gepoch nfree : Nat) :
    QueueCovered state announcedAt localEpoch (queue.free token gepoch nfree).queue := by
  intro bag membership
  obtain ⟨old, present, sameEpoch, samePointers⟩ := BagQueue.mem_retired_free membership
  rw [sameEpoch, samePointers]
  exact covers old present

theorem Covered.mono {stamp stamp' : Nat} {operation : Nat × Nat}
    (covers : Covered state announcedAt stamp operation) (ordered : stamp ≤ stamp') :
    Covered state announcedAt stamp' operation := by
  obtain ⟨other, found, cases⟩ := covers
  refine ⟨other, found, cases.imp id ?_⟩
  rintro ⟨current, isOpen, bound⟩
  exact ⟨current, isOpen, by omega⟩

theorem QueueCovered.add {localEpoch : Nat}
    (covers : QueueCovered state announcedAt localEpoch queue) {entry : Retired Block}
    (started : localEpoch ≤ state.gepoch) (fresh : ∀ operation ∈ entry.witnesses,
      Covered state announcedAt localEpoch operation) :
    QueueCovered state announcedAt localEpoch (queue.add localEpoch entry) := by
  intro bag membership
  rcases BagQueue.mem_retired_add membership with old | ⟨stamped, entries⟩
  · exact covers bag old
  · rw [stamped]
    refine ⟨le_rfl, started, fun other present operation witnessed => ?_⟩
    rcases entries other present with rfl | ⟨old, oldMember, oldPresent⟩
    · exact fresh operation witnessed
    · obtain ⟨localBound, _, oldEntries⟩ := covers old oldMember
      exact (oldEntries other oldPresent operation witnessed).mono localBound

section

variable (holds : Invariant state announcedAt) (found : state.threads[index]? = some thread)
include holds found

/-- A step of one thread that neither opens nor ends an operation. -/
theorem Invariant.silent (sameFinished : thread'.finished = thread.finished)
    (samePhase : thread'.phase.inOperation = thread.phase.inOperation)
    (own : ∀ after, after = { state with threads := state.threads.set index thread' } →
      Evolves state after announcedAt announcedAt →
      ThreadInvariant after announcedAt index thread →
      ThreadInvariant after announcedAt index thread') :
    Invariant { state with threads := state.threads.set index thread' } announcedAt := by
  have evolves := Evolves.silent announcedAt thread' found sameFinished samePhase
  exact holds.set evolves (fun _ _ => rfl)
    (own _ rfl evolves (evolves.threadInvariant rfl (fun _ => rfl) (holds.threads _ _ found)))

theorem Invariant.load {nfree : Nat} (step : Thread.load state.gepoch nfree thread = some thread') :
    Invariant { state with threads := state.threads.set index thread' } announcedAt := by
  unfold Thread.load at step
  split at step
  next allowed =>
    cases step
    have loadedEpoch : (thread.list.load state.gepoch).localEpoch = state.gepoch := by
      unfold LimboList.load
      split <;> rfl
    have sameQueues : (thread.list.load state.gepoch).retired = thread.list.retired ∧
        (thread.list.load state.gepoch).typed = thread.list.typed := by
      unfold LimboList.load
      split <;> exact ⟨rfl, rfl⟩
    refine holds.silent found rfl (by simp [allowed.1, Phase.inOperation]) ?_
    rintro after rfl evolves base
    constructor
    · exact fun _ => le_of_eq loadedEpoch
    · intro gepoch same
      simp only [Phase.loadedEpoch, Option.some.injEq] at same
      exact same.symm.trans loadedEpoch.symm
    · intro _
      rw [loadedEpoch]
      exact holds.even
    · simp [Phase.inOperation]
    · intro pos checked other foundOther isOpen
      rw [loadedEpoch]
      by_cases sameEpoch : state.gepoch = thread.list.localEpoch
      · rw [sameEpoch]
        refine base.scanned pos ?_ other foundOther isOpen
        simpa [LimboList.load, sameEpoch] using checked
      · simp [LimboList.load, sameEpoch] at checked
    · simp
    · intro bag membership
      rw [loadedEpoch]
      have := base.retired bag (by rw [← sameQueues.1]; exact membership)
      exact ⟨this.2.1, this.2⟩
    · intro bag membership
      rw [loadedEpoch]
      have := base.typed bag (by rw [← sameQueues.2]; exact membership)
      exact ⟨this.2.1, this.2⟩
  next => simp at step

theorem Invariant.free (step : thread.free = some thread') :
    Invariant { state with threads := state.threads.set index thread' } announcedAt := by
  unfold Thread.free at step
  split at step
  next gepoch nfree phase =>
    cases step
    refine holds.silent found rfl (by simp [phase, Phase.inOperation]) fun _ _ _ base => ?_
    exact {
      started := fun _ => base.started (.inl (by simp [phase]))
      loaded := fun value same => base.loaded value (by rw [phase]; exact same)
      even := fun _ => base.even (by simp [phase])
      announced := by simp [Phase.inOperation]
      scanned := base.scanned
      complete := by simp
      retired := base.retired.free _ _ _
      typed := base.typed }
  next => simp at step

theorem Invariant.typeFree (step : thread.typeFree = some thread') :
    Invariant { state with threads := state.threads.set index thread' } announcedAt := by
  unfold Thread.typeFree at step
  split at step
  next gepoch nfree phase =>
    cases step
    refine holds.silent found rfl (by simp [phase, Phase.inOperation]) fun _ _ _ base => ?_
    exact {
      started := fun _ => base.started (.inl (by simp [phase]))
      loaded := fun value same => base.loaded value (by rw [phase]; exact same)
      even := fun _ => base.even (by simp [phase])
      announced := by simp [Phase.inOperation]
      scanned := base.scanned
      complete := by simp
      retired := base.retired
      typed := base.typed.free _ _ _ }
  next => simp at step

theorem Invariant.store (step : thread.store = some thread') :
    Invariant { state with threads := state.threads.set index thread' }
      (Function.update announcedAt index state.gepoch) := by
  unfold Thread.store at step
  split at step
  next gepoch phase =>
    cases step
    have closed : thread.phase.inOperation = false := by simp [phase, Phase.inOperation]
    have others : ∀ pos, pos ≠ index →
        Function.update announcedAt index state.gepoch pos = announcedAt pos :=
      fun pos different => Function.update_of_ne different _ _
    have evolves := Evolves.set announcedAt
      (Function.update announcedAt index state.gepoch)
      { thread with
        list := { thread.list with threadEpoch := gepoch }
        phase := .announced gepoch }
      le_rfl found (.inr ⟨rfl, fun isOpen => by simp [closed] at isOpen⟩)
      (fun _ => .inl (by simp)) others
    have base := evolves.threadInvariant rfl (fun isOpen => by simp [closed] at isOpen)
      (holds.threads _ _ found)
    have started := base.started (.inl (by simp [phase]))
    refine holds.set evolves others ?_
    exact {
      started := fun _ => started
      loaded := fun value same => base.loaded value (by rw [phase]; exact same)
      even := fun _ => base.even (by simp [phase])
      announced := fun _ => ⟨base.loaded gepoch (by simp [phase, Phase.loadedEpoch]),
        by simpa using started, by simp, by simp⟩
      scanned := base.scanned
      complete := by simp
      retired := base.retired
      typed := base.typed }
  next => simp at step

end

theorem eq_of_passes {gepoch tepoch : Nat} (even : tepoch % 2 = 0)
    (passed : passes gepoch tepoch = true) : tepoch = gepoch := by
  simp only [passes, realEpoch, isQuiescent, Bool.or_eq_true, beq_iff_eq] at passed
  omega

theorem scanNext_cases (threads : List (Thread Block)) (list : LimboList Block) (gepoch : Nat) :
    ∃ opcount checkedIt, (scanNext threads list gepoch).1 =
        { list with opcount := opcount, checkedIt := checkedIt } ∧
      (checkedIt = list.checkedIt ∧ (scanNext threads list gepoch).2 = .operating ∨
        checkedIt = list.checkedIt + 1 ∧
        (∃ other, threads[list.checkedIt]? = some other ∧
          passes gepoch other.list.threadEpoch = true) ∧
        ((scanNext threads list gepoch).2 = .operating ∨
          (scanNext threads list gepoch).2 = .advancing gepoch ∧
            checkedIt = threads.length)) := by
  unfold scanNext
  split
  next =>
    dsimp only
    split
    next => exact ⟨0, list.checkedIt, rfl, .inl ⟨rfl, rfl⟩⟩
    next other found =>
      split
      next passed =>
        refine ⟨0, list.checkedIt + 1, rfl, .inr ⟨rfl, ⟨other, found, passed⟩, ?_⟩⟩
        split
        next last => exact .inr ⟨rfl, last⟩
        next => exact .inl rfl
      next => exact ⟨0, list.checkedIt, rfl, .inl ⟨rfl, rfl⟩⟩
  next => exact ⟨list.opcount + 1, list.checkedIt, rfl, .inl ⟨rfl, rfl⟩⟩

theorem Invariant.scan (holds : Invariant state announcedAt)
    (found : state.threads[index]? = some thread)
    (step : Thread.scan state.threads thread = some thread') :
    Invariant { state with threads := state.threads.set index thread' } announcedAt := by
  unfold Thread.scan at step
  split at step
  next gepoch phase =>
    cases step
    obtain ⟨opcount, checkedIt, sameList, outcome⟩ :=
      scanNext_cases state.threads thread.list gepoch
    rw [sameList]
    have isOpen : (scanNext state.threads thread.list gepoch).2.inOperation = true := by
      rcases outcome with ⟨_, same⟩ | ⟨_, _, same | ⟨same, _⟩⟩ <;>
        rw [same] <;> rfl
    have own := holds.threads _ _ found
    have ownEpoch : gepoch = thread.list.localEpoch :=
      own.loaded gepoch (by simp [phase, Phase.loadedEpoch])
    -- Every position below the new iterator is held, by its own announcement if need be.
    have held : ∀ pos < checkedIt, ∀ other,
        state.threads[pos]? = some other → other.phase.inOperation = true →
        thread.list.localEpoch ≤ announcedAt pos := by
      intro pos checked other foundOther openOther
      rcases outcome with ⟨same, _⟩ | ⟨same, ⟨passed, foundPassed, passes⟩, _⟩
      · exact own.scanned pos (by omega) other foundOther openOther
      · by_cases last : pos = thread.list.checkedIt
        · subst last
          rw [foundPassed] at foundOther
          cases foundOther
          have other := holds.threads _ _ foundPassed
          obtain ⟨announcedEpoch, bound, _⟩ := other.announced openOther
          have even := other.even (by rintro same; simp [same, Phase.inOperation] at openOther)
          rw [announcedEpoch] at passes
          rw [← ownEpoch, ← eq_of_passes even passes]
          exact bound
        · exact own.scanned pos (by omega) other foundOther openOther
    refine holds.silent found rfl (by rw [isOpen]; simp [phase, Phase.inOperation]) ?_
    rintro after rfl evolves base
    have started := base.started (.inl (by simp [phase]))
    exact {
      started := fun _ => started
      loaded := by
        intro value same
        rcases outcome with ⟨_, phase⟩ | ⟨_, _, phase | ⟨phase, _⟩⟩
        · simp [phase, Phase.loadedEpoch] at same
        · simp [phase, Phase.loadedEpoch] at same
        · simp only [phase, Phase.loadedEpoch, Option.some.injEq] at same
          exact same.symm.trans ownEpoch
      even := fun _ => base.even (by simp [phase])
      announced := fun _ => base.announced (by simp [phase, Phase.inOperation])
      scanned := fun pos checked _ foundOther openOther =>
        evolves.bounded started (held pos checked) foundOther openOther
      complete := by
        intro value same pos other foundOther openOther
        rcases outcome with ⟨_, phase⟩ | ⟨_, _, phase | ⟨phase, last⟩⟩
        · simp [phase] at same
        · simp [phase] at same
        · simp only [phase, Phase.advancing.injEq] at same
          rw [← same, ownEpoch]
          refine evolves.bounded started (held pos ?_) foundOther openOther
          have := (List.getElem?_eq_some_iff.mp foundOther).1
          simp only [length_set] at this
          omega
      retired := base.retired
      typed := base.typed }
  next => simp at step

theorem Invariant.advance {after : State Block} (holds : Invariant state announcedAt)
    (step : state.advance index = some after) : Invariant after announcedAt := by
  unfold State.advance at step
  split at step
  next thread found =>
    split at step
    next gepoch phase =>
      cases step
      have own := holds.threads _ _ found
      have ownEpoch : gepoch = thread.list.localEpoch :=
        own.loaded gepoch (by simp [phase, Phase.loadedEpoch])
      generalize advanced :
        (if state.gepoch = gepoch then gepoch + kEpochIncrement else state.gepoch) = target
      have grows : state.gepoch ≤ target := by
        rw [← advanced]
        split <;> omega
      have evolves := Evolves.set announcedAt announcedAt
        { thread with phase := .operating } grows found
        (.inr ⟨rfl, fun isOpen => ⟨rfl, rfl⟩⟩)
        (fun _ => .inr ⟨by simp [phase, Phase.inOperation], rfl⟩) (fun _ _ => rfl)
      -- The scan is complete, so no announcement is older than the epoch left behind.
      have heldBack : ∀ pos other, state.threads[pos]? = some other →
          other.phase.inOperation = true →
          target ≤ announcedAt pos + kEpochIncrement := by
        intro pos other foundOther openOther
        rw [← advanced]
        split
        next =>
          have := own.complete gepoch phase pos other foundOther openOther
          omega
        next => exact ((holds.threads _ _ foundOther).announced openOther).2.2.2
      refine ⟨?_, fun pos other foundOther => ?_⟩
      · have := holds.even
        rw [← advanced]
        simp only [kEpochIncrement]
        split <;> omega
      · obtain ⟨old, foundOld, sameList, phases⟩ : ∃ old,
            state.threads[pos]? = some old ∧ other.list = old.list ∧
            (other.phase = old.phase ∨
              old.phase = .advancing gepoch ∧ other.phase = .operating) := by
          by_cases same : pos = index
          · subst same
            have bound := (List.getElem?_eq_some_iff.mp found).1
            simp only [getElem?_set_self bound, Option.some.injEq] at foundOther
            subst foundOther
            exact ⟨thread, found, rfl, .inr ⟨phase, rfl⟩⟩
          · simp only [getElem?_set_ne (Ne.symm same)] at foundOther
            exact ⟨other, foundOther, rfl, .inl rfl⟩
        have holdsOld := holds.threads _ _ foundOld
        have active : other.phase ≠ .idle → old.phase ≠ .idle := by
          rcases phases with same | ⟨before, _⟩
          · rw [same]; exact id
          · simp [before]
        have openBefore : other.phase.inOperation = true → old.phase.inOperation = true := by
          rcases phases with same | ⟨before, _⟩
          · rw [same]; exact id
          · simp [before, Phase.inOperation]
        constructor
        · intro condition
          rw [sameList] at condition ⊢
          exact le_trans (holdsOld.started (condition.imp active id)) grows
        · intro value same
          rw [sameList]
          rcases phases with samePhase | ⟨_, after⟩
          · exact holdsOld.loaded value (samePhase ▸ same)
          · simp [after, Phase.loadedEpoch] at same
        · rw [sameList]
          exact fun condition => holdsOld.even (active condition)
        · intro isOpen
          rw [sameList]
          obtain ⟨epoch, lower, upper, _⟩ := holdsOld.announced (openBefore isOpen)
          exact ⟨epoch, lower, le_trans upper grows,
            heldBack pos old foundOld (openBefore isOpen)⟩
        · intro place checked third foundThird openThird
          rw [sameList] at checked ⊢
          exact evolves.bounded (holdsOld.started (.inr (by omega)))
            (holdsOld.scanned place checked) foundThird openThird
        · intro value same place third foundThird openThird
          rcases phases with samePhase | ⟨_, after⟩
          · have valueEpoch := holdsOld.loaded value
              (by simp [← samePhase, same, Phase.loadedEpoch])
            refine evolves.bounded ?_ (holdsOld.complete value (samePhase ▸ same) place)
              foundThird openThird
            rw [valueEpoch]
            exact holdsOld.started (.inl (by simp [← samePhase, same]))
          · simp [after] at same
        · rw [sameList]
          exact evolves.queueCovered holdsOld.retired
        · rw [sameList]
          exact evolves.queueCovered holdsOld.typed
    next => simp at step
  next => simp at step

def FreshStamp (state : State Block) (index : Nat) : Prop :=
  ∀ thread, state.threads[index]? = some thread →
    state.gepoch ≤ thread.list.localEpoch + kEpochIncrement

section

variable (holds : Invariant state announcedAt) (found : state.threads[index]? = some thread)
include holds found

theorem Invariant.openOperations_covered (fresh : FreshStamp state index)
    {operation : Nat × Nat} (isOpen : operation ∈ openOperations state.threads) :
    Covered state announcedAt thread.list.localEpoch operation := by
  obtain ⟨other, foundOther, openOther, current⟩ := mem_openOperations.mp isOpen
  have bound := ((holds.threads _ _ foundOther).announced openOther).2.2.1
  exact ⟨other, foundOther, .inr ⟨current, openOther, le_trans bound (fresh thread found)⟩⟩

theorem Invariant.retire {block : Block} (fresh : FreshStamp state index)
    (step : Thread.retire ⟨block, openOperations state.threads⟩ thread = some thread') :
    Invariant { state with threads := state.threads.set index thread' } announcedAt := by
  unfold Thread.retire at step
  split at step
  next phase =>
    cases step
    refine holds.silent found rfl rfl fun _ _ evolves base => ?_
    exact { base with
      retired := base.retired.add (base.started (.inl (by simp [phase])))
        fun operation isOpen =>
          evolves.covered (holds.openOperations_covered found fresh isOpen) }
  next => simp at step

theorem Invariant.retireFunc {block : Block} (fresh : FreshStamp state index)
    (step : Thread.retireFunc ⟨block, openOperations state.threads⟩ thread = some thread') :
    Invariant { state with threads := state.threads.set index thread' } announcedAt := by
  unfold Thread.retireFunc at step
  split at step
  next phase =>
    cases step
    refine holds.silent found rfl rfl fun _ _ evolves base => ?_
    exact { base with
      typed := base.typed.add (base.started (.inl (by simp [phase])))
        fun operation isOpen =>
          evolves.covered (holds.openOperations_covered found fresh isOpen) }
  next => simp at step

theorem Invariant.endop (step : thread.endop = some thread') :
    Invariant { state with threads := state.threads.set index thread' } announcedAt := by
  unfold Thread.endop at step
  split at step
  next phase =>
    cases step
    have evolves := Evolves.set announcedAt announcedAt
      {
        list := { thread.list with threadEpoch := withQuiescent thread.list.localEpoch }
        phase := .idle
        finished := thread.finished + 1 }
      le_rfl found (.inl (Nat.lt_succ_self _)) (by simp [Phase.inOperation]) (fun _ _ => rfl)
    have base := evolves.threadInvariant rfl (fun _ => rfl) (holds.threads _ _ found)
    refine holds.set evolves (fun _ _ => rfl) ?_
    exact {
      started := fun _ => base.started (.inl (by simp [phase]))
      loaded := by simp [Phase.loadedEpoch]
      even := by simp
      announced := by simp [Phase.inOperation]
      scanned := base.scanned
      complete := by simp
      retired := base.retired
      typed := base.typed }
  next => simp at step

end

theorem found_of_register {fresh other : Thread Block} {pos : Nat}
    (found : (state.threads ++ [fresh])[pos]? = some other) :
    state.threads[pos]? = some other ∨ other = fresh := by
  rw [getElem?_append] at found
  split at found
  next => exact .inl found
  next =>
    rw [getElem?_singleton] at found
    split at found
    next => exact .inr (Option.some.inj found).symm
    next => simp at found

theorem Invariant.register (holds : Invariant state announcedAt) :
    Invariant { state with threads := state.threads ++ [⟨.initial, .idle, 0⟩] }
      announcedAt := by
  have evolves : Evolves state
      { state with threads := state.threads ++ [⟨.initial, .idle, 0⟩] }
      announcedAt announcedAt := by
    refine ⟨le_rfl, fun pos other found => ⟨other, ?_, .inr ⟨rfl, fun isOpen => ⟨isOpen, rfl⟩⟩⟩,
      fun pos other found isOpen => .inr ⟨other, ?_, isOpen, rfl⟩⟩
    · have bound := (List.getElem?_eq_some_iff.mp found).1
      simpa [getElem?_append_left bound] using found
    · rcases found_of_register found with old | rfl
      · exact old
      · simp [Phase.inOperation] at isOpen
  refine ⟨holds.even, fun pos other found => ?_⟩
  rcases found_of_register found with old | rfl
  · exact evolves.threadInvariant rfl (fun _ => rfl) (holds.threads _ _ old)
  · constructor <;>
      simp [LimboList.initial, Phase.loadedEpoch, Phase.inOperation, QueueCovered,
        BagQueue.initial]

end Moves

/-! ## Safety -/

/-- The condition on a step: a thread only retires while the global epoch is at
most one increment past its private epoch. -/
def RetiresFresh (state : State Block) : Action Block → Prop
  | .retire index _ | .retireFunc index _ => FreshStamp state index
  | _ => True

instance (state : State Block) (index : Nat) : Decidable (FreshStamp state index) :=
  match found : state.threads[index]? with
  | none => .isTrue (by intro thread same; simp [found] at same)
  | some thread =>
    decidable_of_iff (state.gepoch ≤ thread.list.localEpoch + kEpochIncrement)
      ⟨fun bound other same => by rw [found] at same; cases same; exact bound,
        fun fresh => fresh thread found⟩

instance (state : State Block) (action : Action Block) : Decidable (RetiresFresh state action) :=
  match action with
  | .retire index _ => inferInstanceAs (Decidable (FreshStamp state index))
  | .retireFunc index _ => inferInstanceAs (Decidable (FreshStamp state index))
  | .register | .load .. | .free _ | .typeFree _ | .store _ | .scan _ | .advance _
  | .endop _ => .isTrue trivial

theorem Invariant.next {after : State Block} {action : Action Block}
    (holds : ∃ announcedAt, Invariant state announcedAt) (fresh : RetiresFresh state action)
    (step : next state action = some after) :
    ∃ announcedAt, Invariant after announcedAt := by
  obtain ⟨announcedAt, holds⟩ := holds
  cases action with
  | register =>
    cases step
    exact ⟨announcedAt, holds.register⟩
  | load index nfree =>
    obtain ⟨thread, thread', found, moved, rfl⟩ := onThread_eq_some step
    exact ⟨announcedAt, holds.load found moved⟩
  | free index =>
    obtain ⟨thread, thread', found, moved, rfl⟩ := onThread_eq_some step
    exact ⟨announcedAt, holds.free found moved⟩
  | typeFree index =>
    obtain ⟨thread, thread', found, moved, rfl⟩ := onThread_eq_some step
    exact ⟨announcedAt, holds.typeFree found moved⟩
  | store index =>
    obtain ⟨thread, thread', found, moved, rfl⟩ := onThread_eq_some step
    exact ⟨_, holds.store found moved⟩
  | scan index =>
    obtain ⟨thread, thread', found, moved, rfl⟩ := onThread_eq_some step
    exact ⟨announcedAt, holds.scan found moved⟩
  | advance index => exact ⟨announcedAt, holds.advance step⟩
  | retire index block =>
    obtain ⟨thread, thread', found, moved, rfl⟩ := onThread_eq_some step
    exact ⟨announcedAt, holds.retire found fresh moved⟩
  | retireFunc index block =>
    obtain ⟨thread, thread', found, moved, rfl⟩ := onThread_eq_some step
    exact ⟨announcedAt, holds.retireFunc found fresh moved⟩
  | endop index =>
    obtain ⟨thread, thread', found, moved, rfl⟩ := onThread_eq_some step
    exact ⟨announcedAt, holds.endop found moved⟩

theorem invariant_of_reachable (reached : (machine Block).Reachable RetiresFresh state) :
    ∃ announcedAt, Invariant state announcedAt := by
  refine reached.invariant ?_ fun _ _ _ holds fresh step => Invariant.next holds fresh step
  rintro _ rfl
  exact ⟨fun _ => 0, by simp, by simp⟩

theorem QueueCovered.closed {announcedAt : Nat → Nat}
    (holds : Invariant state announcedAt) {localEpoch nfree : Nat} {token : Bool}
    {queue : BagQueue (Retired Block)} (covers : QueueCovered state announcedAt localEpoch queue)
    (started : localEpoch ≤ state.gepoch) {entry : Retired Block}
    (freed : entry ∈ (queue.free token localEpoch nfree).entries)
    {operation : Nat × Nat} (witnessed : operation ∈ entry.witnesses) :
    ¬ StillOpen state operation := by
  rintro ⟨thread, found, isOpen, current⟩
  obtain ⟨bag, membership, present, old⟩ := BagQueue.mem_entries_free freed
  obtain ⟨localBound, _, entries⟩ := covers bag membership
  obtain ⟨same, foundSame, cases⟩ := entries entry present operation witnessed
  rw [found] at foundSame
  cases foundSame
  rcases cases with past | ⟨_, _, bound⟩
  · omega
  · have held := ((holds.threads _ _ found).announced isOpen).2.2.2
    have age : localEpoch - bag.epoch > 2 * kEpochIncrement := by
      rw [subtract64_of_le localBound] at old
      exact lt_of_lt_of_le old (Nat.mod_le _ _)
    simp only [kEpochIncrement] at *
    omega

/-- In every run whose retirements are all stamped with an epoch at most one
increment old, no block is freed while an operation that was open when the block
was retired is still open. -/
theorem reclamation_safe_of_freshStamps
    (reached : (machine Block).Reachable RetiresFresh state) (action : Action Block) :
    FreesSafely state action := by
  obtain ⟨announcedAt, holds⟩ := invariant_of_reachable reached
  intro entry freed operation witnessed
  cases action with
  | free index =>
    simp only [freedBy] at freed
    split at freed
    next thread found =>
      split at freed
      next gepoch nfree phase =>
        have own := holds.threads _ _ found
        rw [own.loaded gepoch (by simp [phase, Phase.loadedEpoch])] at freed
        exact own.retired.closed holds (own.started (.inl (by simp [phase]))) freed witnessed
      next => simp at freed
    next => simp at freed
  | typeFree index =>
    simp only [freedBy] at freed
    split at freed
    next thread found =>
      split at freed
      next gepoch nfree phase =>
        have own := holds.threads _ _ found
        rw [own.loaded gepoch (by simp [phase, Phase.loadedEpoch])] at freed
        exact own.typed.closed holds (own.started (.inl (by simp [phase]))) freed witnessed
      next => simp at freed
    next => simp at freed
  | _ => simp [freedBy] at freed

/-- Thread `index` goes into an operation. -/
def openOperation (index : Nat) (rest : List (Action Nat)) : List (Action Nat) :=
  .load index kBagSize :: .free index :: .typeFree index :: .store index :: .scan index :: rest

/-- Operations in which thread `index` retires nothing. -/
def emptyOperations (index : Nat) : Nat → List (Action Nat)
  | 0 => []
  | count + 1 => openOperation index (.endop index :: emptyOperations index count)

/-- Operations of thread `index` that look at `lists` limbo lists, the last of
which advances the global epoch. -/
def advanceOnce (index lists : Nat) (rest : List (Action Nat)) : List (Action Nat) :=
  List.append (emptyOperations index (kOpThreshold * lists - 1))
    (openOperation index (.advance index :: .endop index :: rest))

/-- Thread `index` retires `count` blocks. -/
def retireBlocks (index : Nat) : Nat → List (Action Nat) → List (Action Nat)
  | 0, rest => rest
  | count + 1, rest => .retire index count :: retireBlocks index count rest

/-- Thread `0` advances once, retires fourteen blocks while thread `1` is inside
an operation, advances three more times after that operation has ended and
comes back. -/
def freshSchedule : List (Action Nat) :=
  .register :: .register :: advanceOnce 0 2
    (openOperation 1 (openOperation 0
      (retireBlocks 0 14 (.endop 0 :: .endop 1 ::
        List.append (emptyOperations 0 (kOpThreshold * 2 - 2))
          (openOperation 0 (.advance 0 :: .endop 0 ::
            advanceOnce 0 2 (advanceOnce 0 2 [.load 0 kBagSize])))))))

/-- `RetiresFresh` as a check on the fly. -/
def retiresFresh (state : State Block) (action : Action Block) : Bool :=
  decide (RetiresFresh state action)

theorem freshSchedule_frees_safely :
    ∃ state, (machine Nat).Reachable RetiresFresh state ∧
      (∃ entry ∈ freedBy state (.free 0), (1, 0) ∈ entry.witnesses) ∧
      FreesSafely state (.free 0) := by
  have evaluated : (((machine Nat).execChecked retiresFresh ⟨0, []⟩ freshSchedule).any
      fun state => decide (∃ entry ∈ freedBy state (.free 0), (1, 0) ∈ entry.witnesses)) =
        true := by decide +kernel
  obtain ⟨state, executed, witnessed⟩ := (Option.any_eq_true _ _).mp evaluated
  have reached : (machine Nat).Reachable RetiresFresh state :=
    Machine.Reachable.execChecked (fun _ _ checked => of_decide_eq_true checked)
      (.start rfl) executed
  exact ⟨state, reached, of_decide_eq_true witnessed, reclamation_safe_of_freshStamps reached _⟩

/-- Thread `0` loads epoch zero and is descheduled before announcing it; thread
`1` advances three times and opens an operation; thread `0` announces epoch
zero, retires fourteen blocks stamped with it and starts its next operation. -/
def staleSchedule : List (Action Nat) :=
  .register :: .register :: .load 0 kBagSize ::
    advanceOnce 1 2 (advanceOnce 1 2 (advanceOnce 1 2
      (openOperation 1 (.free 0 :: .typeFree 0 :: .store 0 :: .scan 0 ::
        retireBlocks 0 14 [.endop 0, .load 0 kBagSize]))))

theorem staleSchedule_frees_witnessed_block :
    ¬ ∀ state, (machine Nat).Reachable Machine.anyStep state →
      ∀ action, FreesSafely state action := by
  intro safe
  have evaluated : (((machine Nat).exec ⟨0, []⟩ staleSchedule).any
      fun state => !decide (FreesSafely state (.free 0))) = true := by decide +kernel
  obtain ⟨state, executed, unsafeFree⟩ := (Option.any_eq_true _ _).mp evaluated
  have reached : (machine Nat).Reachable Machine.anyStep state :=
    Machine.Reachable.exec (.start rfl) executed
  simp only [Bool.not_eq_true', decide_eq_false_iff_not] at unsafeFree
  exact unsafeFree (safe state reached (.free 0))

end IndexResearch.Epoch
