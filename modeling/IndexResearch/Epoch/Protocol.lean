import IndexResearch.Transition
import IndexResearch.Epoch.LimboList

/-!
# Epoch-based reclamation as a transition system

`EpochDetail` shares one global epoch between the threads that have called
`limbo_list()`.  Each such thread is identified with the position of its limbo
list in `limbo_lists_`, so registering appends and the iterator `checked_it` is
an index.  Every atomic access of `startop`, `retire` and `endop` is one action.

Epochs are unbounded counters here; only the age computed by `free` is a 64-bit
subtraction.
-/

namespace IndexResearch.Epoch

/-- A block given to `retire`.  `witnesses` is a history variable: it names the
operations that were open at that moment and is never read by the protocol. -/
structure Retired (Block : Type) where
  block : Block
  witnesses : List (Nat × Nat)

structure LimboList (Block : Type) where
  freeToken : Bool
  typeToken : Bool
  opcount : Nat
  threadEpoch : Nat
  localEpoch : Nat
  retired : BagQueue (Retired Block)
  typed : BagQueue (Retired Block)
  checkedIt : Nat

def LimboList.initial {Block : Type} : LimboList Block where
  freeToken := false
  typeToken := false
  opcount := 0
  threadEpoch := withQuiescent 0
  localEpoch := withQuiescent 0
  retired := .initial
  typed := .initial
  checkedIt := 0

/-- Where a thread stands in `startop`, in its operation, or outside. -/
inductive Phase where
  | idle
  /-- `gepoch_` has been loaded, `free` is next. -/
  | loaded (gepoch nfree : Nat)
  /-- `type_free` is next. -/
  | reclaimed (gepoch nfree : Nat)
  /-- The store to `thread_epoch` is next. -/
  | typeReclaimed (gepoch : Nat)
  /-- The incremental scan is next. -/
  | announced (gepoch : Nat)
  /-- The scan has reached the end, the compare-exchange of `gepoch_` is next. -/
  | advancing (gepoch : Nat)
  | operating
  deriving DecidableEq

/-- The thread has announced its epoch and not yet called `endop`. -/
def Phase.inOperation : Phase → Bool
  | .announced _ | .advancing _ | .operating => true
  | _ => false

structure Thread (Block : Type) where
  list : LimboList Block
  phase : Phase
  /-- History variable: how many operations the thread has finished. -/
  finished : Nat

structure State (Block : Type) where
  gepoch : Nat
  threads : List (Thread Block)

inductive Action (Block : Type) where
  /-- First `limbo_list()` call of a new thread. -/
  | register
  /-- `startop(nfree)` up to and including the load of `gepoch_`. -/
  | load (thread nfree : Nat)
  | free (thread : Nat)
  | typeFree (thread : Nat)
  /-- The store of `thread_epoch` in `startop`. -/
  | store (thread : Nat)
  /-- Look at the announced epoch of one thread. -/
  | scan (thread : Nat)
  /-- The compare-exchange of `gepoch_`. -/
  | advance (thread : Nat)
  | retire (thread : Nat) (block : Block)
  /-- `retire` of a type-erased release function. -/
  | retireFunc (thread : Nat) (block : Block)
  | endop (thread : Nat)

variable {Block : Type}

/-- `startop` from the load of `gepoch_` to the reset of the tokens. -/
def LimboList.load (list : LimboList Block) (gepoch : Nat) : LimboList Block :=
  if gepoch ≠ list.localEpoch then
    { list with
      localEpoch := gepoch
      checkedIt := 0
      freeToken := true
      typeToken := true }
  else
    { list with localEpoch := gepoch }

def LimboList.free (list : LimboList Block) (gepoch nfree : Nat) : LimboList Block :=
  let result := list.retired.free list.freeToken gepoch nfree
  { list with retired := result.queue, freeToken := result.token }

def LimboList.typeFree (list : LimboList Block) (gepoch nfree : Nat) : LimboList Block :=
  let result := list.typed.free list.typeToken gepoch nfree
  { list with typed := result.queue, typeToken := result.token }

/-- The announced epoch does not hold back an advance from `gepoch`. -/
def passes (gepoch tepoch : Nat) : Bool :=
  realEpoch tepoch == gepoch || isQuiescent tepoch

/-- The scan at the end of `startop`: one list every `kOpThreshold` calls. -/
def scanNext (threads : List (Thread Block)) (list : LimboList Block)
    (gepoch : Nat) : LimboList Block × Phase :=
  if list.opcount + 1 = kOpThreshold then
    let list := { list with opcount := 0 }
    match threads[list.checkedIt]? with
    | none => (list, .operating)
    | some other =>
      if passes gepoch other.list.threadEpoch then
        ({ list with checkedIt := list.checkedIt + 1 },
          if list.checkedIt + 1 = threads.length then .advancing gepoch
          else .operating)
      else
        (list, .operating)
  else
    ({ list with opcount := list.opcount + 1 }, .operating)

def openOperations (threads : List (Thread Block)) : List (Nat × Nat) :=
  threads.zipIdx.filterMap fun (thread, index) =>
    if thread.phase.inOperation then some (index, thread.finished) else none

/-- Replace one thread by what `move` makes of it. -/
def State.onThread (state : State Block) (index : Nat)
    (move : Thread Block → Option (Thread Block)) : Option (State Block) :=
  match state.threads[index]? with
  | some thread => (move thread).map fun thread =>
    { state with threads := state.threads.set index thread }
  | none => none

theorem onThread_eq_some {state after : State Block} {index : Nat}
    {move : Thread Block → Option (Thread Block)} (moved : state.onThread index move = some after) :
    ∃ thread thread', state.threads[index]? = some thread ∧ move thread = some thread' ∧
      after = { state with threads := state.threads.set index thread' } := by
  unfold State.onThread at moved
  split at moved
  next thread found =>
    obtain ⟨thread', step, same⟩ := Option.map_eq_some_iff.mp moved
    exact ⟨thread, thread', found, step, same.symm⟩
  next => simp at moved

/-- `startop(nfree)` up to the load of `gepoch_`. -/
def Thread.load (gepoch nfree : Nat) (thread : Thread Block) : Option (Thread Block) :=
  if thread.phase = .idle ∧ 0 < nfree ∧ nfree ≤ kBagSize then
    some { thread with
      list := thread.list.load gepoch
      phase := .loaded gepoch nfree }
  else
    none

def Thread.free (thread : Thread Block) : Option (Thread Block) :=
  match thread.phase with
  | .loaded gepoch nfree => some { thread with
      list := thread.list.free gepoch nfree
      phase := .reclaimed gepoch nfree }
  | _ => none

def Thread.typeFree (thread : Thread Block) : Option (Thread Block) :=
  match thread.phase with
  | .reclaimed gepoch nfree => some { thread with
      list := thread.list.typeFree gepoch nfree
      phase := .typeReclaimed gepoch }
  | _ => none

def Thread.store (thread : Thread Block) : Option (Thread Block) :=
  match thread.phase with
  | .typeReclaimed gepoch => some { thread with
      list := { thread.list with threadEpoch := gepoch }
      phase := .announced gepoch }
  | _ => none

def Thread.scan (threads : List (Thread Block)) (thread : Thread Block) : Option (Thread Block) :=
  match thread.phase with
  | .announced gepoch => some { thread with
      list := (scanNext threads thread.list gepoch).1
      phase := (scanNext threads thread.list gepoch).2 }
  | _ => none

/-- The compare-exchange of `gepoch_` by a thread whose scan has ended. -/
def State.advance (state : State Block) (index : Nat) : Option (State Block) :=
  match state.threads[index]? with
  | some thread =>
    match thread.phase with
    | .advancing gepoch => some {
        gepoch := if state.gepoch = gepoch then gepoch + kEpochIncrement
          else state.gepoch
        threads := state.threads.set index { thread with phase := .operating } }
    | _ => none
  | none => none

def Thread.retire (entry : Retired Block) (thread : Thread Block) : Option (Thread Block) :=
  if thread.phase = .operating then
    some { thread with list := { thread.list with
      retired := thread.list.retired.add thread.list.localEpoch entry } }
  else
    none

def Thread.retireFunc (entry : Retired Block) (thread : Thread Block) : Option (Thread Block) :=
  if thread.phase = .operating then
    some { thread with list := { thread.list with
      typed := thread.list.typed.add thread.list.localEpoch entry } }
  else
    none

def Thread.endop (thread : Thread Block) : Option (Thread Block) :=
  if thread.phase = .operating then
    some {
      list := { thread.list with
        threadEpoch := withQuiescent thread.list.localEpoch }
      phase := .idle
      finished := thread.finished + 1 }
  else
    none

def next (state : State Block) : Action Block → Option (State Block)
  | .register => some { state with threads := state.threads ++ [⟨.initial, .idle, 0⟩] }
  | .load index nfree => state.onThread index (Thread.load state.gepoch nfree)
  | .free index => state.onThread index Thread.free
  | .typeFree index => state.onThread index Thread.typeFree
  | .store index => state.onThread index Thread.store
  | .scan index => state.onThread index (Thread.scan state.threads)
  | .advance index => state.advance index
  | .retire index block =>
    state.onThread index (Thread.retire ⟨block, openOperations state.threads⟩)
  | .retireFunc index block =>
    state.onThread index (Thread.retireFunc ⟨block, openOperations state.threads⟩)
  | .endop index => state.onThread index Thread.endop

def freedBy (state : State Block) : Action Block → List (Retired Block)
  | .free index =>
    match state.threads[index]? with
    | some thread =>
      match thread.phase with
      | .loaded gepoch nfree =>
        (thread.list.retired.free thread.list.freeToken gepoch nfree).entries
      | _ => []
    | none => []
  | .typeFree index =>
    match state.threads[index]? with
    | some thread =>
      match thread.phase with
      | .reclaimed gepoch nfree =>
        (thread.list.typed.free thread.list.typeToken gepoch nfree).entries
      | _ => []
    | none => []
  | _ => []

/-- The operation number `operation.2` of thread `operation.1` has been
announced and has not ended. -/
def StillOpen (state : State Block) (operation : Nat × Nat) : Prop :=
  ∃ thread, state.threads[operation.1]? = some thread ∧
    thread.phase.inOperation = true ∧ thread.finished = operation.2

instance (state : State Block) (operation : Nat × Nat) : Decidable (StillOpen state operation) :=
  match found : state.threads[operation.1]? with
  | none => .isFalse (by rintro ⟨thread, same, _⟩; simp [found] at same)
  | some thread =>
    if holds : thread.phase.inOperation = true ∧ thread.finished = operation.2 then
      .isTrue ⟨thread, found, holds⟩
    else
      .isFalse (by
        rintro ⟨other, same, rest⟩
        rw [found] at same
        cases same
        exact holds rest)

/-- `Epoch` and the threads that use it. -/
def machine (Block : Type) : Machine (State Block) (Action Block) where
  initial state := state = ⟨0, []⟩
  next := next

def FreesSafely (state : State Block) (action : Action Block) : Prop :=
  ∀ entry ∈ freedBy state action, ∀ operation ∈ entry.witnesses,
    ¬ StillOpen state operation

instance (state : State Block) (action : Action Block) : Decidable (FreesSafely state action) :=
  inferInstanceAs (Decidable (∀ entry ∈ freedBy state action,
    ∀ operation ∈ entry.witnesses, ¬ StillOpen state operation))

end IndexResearch.Epoch
