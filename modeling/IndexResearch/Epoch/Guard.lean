import IndexResearch.Epoch.Protocol

/-!
# Guards

An `EpochGuard` calls `startop` when it is constructed and `endop` when it is destroyed.
All guards of a thread share the one word `thread_epoch` of its limbo list.

The thread under consideration runs each of its calls without interruption here: between
two of its calls the other threads may do anything to the global epoch and to their own
lists, but nothing they do reaches its announced epoch.
-/

namespace IndexResearch.Epoch

open List

variable {Block : Type}

/-- `startop(nfree)`; nothing keeps a thread from calling it inside an operation. -/
def State.startop (state : State Block) (index nfree : Nat) : Option (State Block) :=
  match state.threads[index]? with
  | none => none
  | some thread =>
    let gepoch := state.gepoch
    let list := ((thread.list.load gepoch).free gepoch nfree).typeFree gepoch nfree
    let list := { list with threadEpoch := gepoch }
    let scanned := scanNext (state.threads.set index { thread with list := list }) list gepoch
    some {
      gepoch := if scanned.2 = .advancing gepoch then gepoch + kEpochIncrement else gepoch
      threads := state.threads.set index
        { thread with list := scanned.1, phase := .operating } }

/-- `endop()`: the step of the protocol, wherever the thread is. -/
def State.endop (state : State Block) (index : Nat) : Option (State Block) :=
  state.onThread index fun thread => Thread.endop { thread with phase := .operating }

/-- `retire(p)`: the step of the protocol, wherever the thread is. -/
def State.retire (state : State Block) (index : Nat) (block : Block) : Option (State Block) :=
  state.onThread index fun thread =>
    (Thread.retire ⟨block, openOperations state.threads⟩ { thread with phase := .operating }).map
      fun retired => { retired with phase := thread.phase }

/-- `guarded()`, as the thread itself asks it. -/
def State.guarded (state : State Block) (index : Nat) : Bool :=
  match state.threads[index]? with
  | none => false
  | some thread => !isQuiescent thread.list.threadEpoch

structure Guards (Block : Type) where
  epoch : State Block
  /-- The guards that are alive. -/
  alive : List Nat

inductive GuardAction (Block : Type) where
  /-- `EpochGuard(epoch, nfree)`. -/
  | construct (guard nfree : Nat)
  /-- `~EpochGuard()`. -/
  | destroy (guard : Nat)
  | retire (block : Block)
  /-- The other threads advance the global epoch, register and change their lists. -/
  | interfere (advances : Nat) (others : List (Thread Block))

/-- The shared state after other threads have run; `self` keeps its own list. -/
def State.interfere (state : State Block) (self advances : Nat) (others : List (Thread Block)) :
    Option (State Block) :=
  match state.threads[self]? with
  | none => none
  | some thread =>
    if self < others.length then
      some ⟨state.gepoch + advances * kEpochIncrement, others.set self thread⟩
    else none

/-- One call of thread `self`, or what the others do between two of them. -/
def Guards.next (self : Nat) (guards : Guards Block) : GuardAction Block → Option (Guards Block)
  | .construct guard nfree =>
    if guard ∈ guards.alive then none
    else (guards.epoch.startop self nfree).map fun epoch => ⟨epoch, guard :: guards.alive⟩
  | .destroy guard =>
    if guard ∈ guards.alive then
      (guards.epoch.endop self).map fun epoch => ⟨epoch, guards.alive.erase guard⟩
    else none
  | .retire block => (guards.epoch.retire self block).map fun epoch => ⟨epoch, guards.alive⟩
  | .interfere advances others =>
    (guards.epoch.interfere self advances others).map fun epoch => ⟨epoch, guards.alive⟩

/-- The guards of thread `self`, which has registered and has none at first. -/
def guardMachine (Block : Type) (self : Nat) : Machine (Guards Block) (GuardAction Block) where
  initial guards := guards.alive = [] ∧ guards.epoch.gepoch % 2 = 0
  next := Guards.next self

def Guards.Announced (self : Nat) (guards : Guards Block) : Prop :=
  guards.alive ≠ [] → guards.epoch.guarded self = true

def Guards.DestroysLast (guards : Guards Block) : GuardAction Block → Prop
  | .destroy guard => guards.alive = [guard]
  | _ => True

/-! ## The announced epoch -/

namespace State

variable {state state' : State Block} {self : Nat}

theorem guarded_set {thread : Thread Block} (inside : self < state.threads.length) (gepoch : Nat) :
    guarded ⟨gepoch, state.threads.set self thread⟩ self = !isQuiescent thread.list.threadEpoch:= by
  simp [guarded, inside]

theorem threadEpoch_scanNext (threads : List (Thread Block)) (list : LimboList Block)
    (gepoch : Nat) : (scanNext threads list gepoch).1.threadEpoch = list.threadEpoch := by
  unfold scanNext
  split
  · dsimp only
    split
    · rfl
    · split <;> rfl
  · rfl

theorem startop_spec (even : state.gepoch % 2 = 0) {nfree : Nat}
    (started : state.startop self nfree = some state') :
    state'.gepoch % 2 = 0 ∧ state'.guarded self = true := by
  rw [startop] at started
  split at started
  · cases started
  · rename_i thread found
    have inside := (List.getElem?_eq_some_iff.mp found).1
    cases started
    refine ⟨?_, ?_⟩
    · simp only [kEpochIncrement]
      split <;> omega
    · rw [guarded_set inside, threadEpoch_scanNext]
      simp [isQuiescent, even]

theorem endop_spec (ended : state.endop self = some state') :
    state'.gepoch = state.gepoch ∧ state'.guarded self = false := by
  obtain ⟨thread, _, found, moved, rfl⟩ := onThread_eq_some ended
  cases moved
  refine ⟨rfl, ?_⟩
  rw [guarded_set (List.getElem?_eq_some_iff.mp found).1]
  simp [isQuiescent, withQuiescent]

theorem retire_spec {block : Block} (retired : state.retire self block = some state') :
    state'.gepoch = state.gepoch ∧ state'.guarded self = state.guarded self := by
  obtain ⟨thread, _, found, moved, rfl⟩ := onThread_eq_some retired
  cases moved
  refine ⟨rfl, ?_⟩
  rw [guarded_set (List.getElem?_eq_some_iff.mp found).1, guarded, found]

theorem interfere_spec {advances : Nat} {others : List (Thread Block)}
    (interfered : state.interfere self advances others = some state') :
    state'.gepoch % 2 = state.gepoch % 2 ∧ state'.guarded self = state.guarded self := by
  rw [interfere] at interfered
  split at interfered
  · cases interfered
  · rename_i thread found
    split at interfered
    · rename_i inside
      cases interfered
      refine ⟨?_, ?_⟩
      · simp only [kEpochIncrement]
        omega
      · simp [guarded, found, inside]
    · cases interfered

end State

/-! ## The steps of the protocol -/

namespace State

variable {state : State Block} {self nfree : Nat} {thread : Thread Block}

/-- The scan reads the lists of the threads and nothing else of them. -/
theorem scanNext_congr {threads threads' : List (Thread Block)}
    (same : threads.map Thread.list = threads'.map Thread.list) (list : LimboList Block)
    (gepoch : Nat) : scanNext threads list gepoch = scanNext threads' list gepoch := by
  have length : threads.length = threads'.length := by simpa using congrArg List.length same
  have listed : (threads[list.checkedIt]?).map Thread.list =
      (threads'[list.checkedIt]?).map Thread.list := by
    rw [← getElem?_map, same, getElem?_map]
  unfold scanNext
  rw [length]
  cases here : threads[list.checkedIt]? <;> cases there : threads'[list.checkedIt]? <;>
    simp_all

theorem phase_scanNext (threads : List (Thread Block)) (list : LimboList Block) (gepoch : Nat) :
    (scanNext threads list gepoch).2 = .operating ∨
      (scanNext threads list gepoch).2 = .advancing gepoch := by
  unfold scanNext
  grind

section

variable (found : state.threads[self]? = some thread)
include found

/-- A `startop` of a thread outside its operations runs through the steps of the protocol,
with none of another thread between them. -/
theorem exec_eq_startop (idle : thread.phase = .idle) (positive : 0 < nfree)
    (bounded : nfree ≤ kBagSize) :
    ∃ last, (last = [] ∨ last = [.advance self]) ∧
      (machine Block).exec state ([.load self nfree, .free self, .typeFree self, .store self,
        .scan self] ++ last) = state.startop self nfree := by
  have inside := (List.getElem?_eq_some_iff.mp found).1
  obtain ⟨list, phase, finished⟩ := thread
  obtain rfl := idle
  let list' : LimboList Block :=
    { ((list.load state.gepoch).free state.gepoch nfree).typeFree state.gepoch nfree with
      threadEpoch := state.gepoch }
  let scanned := scanNext (state.threads.set self ⟨list', .idle, finished⟩) list' state.gepoch
  have same : scanNext (state.threads.set self ⟨list', .announced state.gepoch, finished⟩) list'
      state.gepoch = scanned := scanNext_congr (by rw [map_set, map_set]) _ _
  have executed : (machine Block).exec state [.load self nfree, .free self, .typeFree self,
      .store self, .scan self] =
        some ⟨state.gepoch, state.threads.set self ⟨scanned.1, scanned.2, finished⟩⟩ := by
    rw [← same]
    simp only [Machine.exec, machine, next, onThread, found, Thread.load, positive, bounded,
      and_self, if_true, Option.map_some, List.getElem?_set_self inside, set_set, Thread.free,
      Thread.typeFree, Thread.store, Thread.scan]
    rfl
  have started : state.startop self nfree =
      some ⟨if scanned.2 = .advancing state.gepoch then state.gepoch + kEpochIncrement
        else state.gepoch, state.threads.set self ⟨scanned.1, .operating, finished⟩⟩ := by
    rw [startop, found]
  rw [started]
  rcases phase_scanNext _ list' state.gepoch with operating | advancing
  · refine ⟨[], .inl rfl, ?_⟩
    rw [append_nil, executed, show scanned.2 = .operating from operating, if_neg (by simp)]
  · refine ⟨[.advance self], .inr rfl, ?_⟩
    rw [Machine.exec_append executed, show scanned.2 = .advancing state.gepoch from advancing,
      if_pos rfl]
    simp [Machine.exec, machine, next, advance, inside]

theorem exec_eq_endop (operating : thread.phase = .operating) :
    (machine Block).exec state [.endop self] = state.endop self := by
  rw [Machine.exec_singleton]
  simp [machine, next, endop, onThread, found, ← operating]

theorem exec_eq_retire (operating : thread.phase = .operating) (block : Block) :
    (machine Block).exec state [.retire self block] = state.retire self block := by
  rw [Machine.exec_singleton]
  simp [machine, next, retire, onThread, found, Thread.retire, operating]

end

end State

/-! ## Runs -/

namespace Guards

variable {self : Nat} {guards guards' : Guards Block} {action : GuardAction Block}

theorem next_cases (even : guards.epoch.gepoch % 2 = 0)
    (moved : guards.next self action = some guards') :
    guards'.epoch.gepoch % 2 = 0 ∧
      match action with
      | .construct _ _ => guards'.epoch.guarded self = true
      | .destroy guard => guard ∈ guards.alive ∧ guards'.alive = guards.alive.erase guard ∧
          guards'.epoch.guarded self = false
      | .retire _ | .interfere _ _ => guards'.alive = guards.alive ∧
          guards'.epoch.guarded self = guards.epoch.guarded self := by
  cases action with
  | construct guard nfree =>
    rw [next] at moved
    split at moved
    · cases moved
    · obtain ⟨epoch, started, rfl⟩ := Option.map_eq_some_iff.mp moved
      exact State.startop_spec even started
  | destroy guard =>
    rw [next] at moved
    split at moved
    · rename_i living
      obtain ⟨epoch, ended, rfl⟩ := Option.map_eq_some_iff.mp moved
      obtain ⟨sameEpoch, quiescent⟩ := State.endop_spec ended
      exact ⟨sameEpoch ▸ even, living, rfl, quiescent⟩
    · cases moved
  | retire block =>
    obtain ⟨epoch, retired, rfl⟩ := Option.map_eq_some_iff.mp moved
    obtain ⟨sameEpoch, same⟩ := State.retire_spec retired
    exact ⟨sameEpoch ▸ even, rfl, same⟩
  | interfere advances others =>
    obtain ⟨epoch, interfered, rfl⟩ := Option.map_eq_some_iff.mp moved
    obtain ⟨parity, same⟩ := State.interfere_spec interfered
    exact ⟨parity.trans even, rfl, same⟩

/-- The phase that the protocol keeps for the thread agrees with its guards. -/
def InStep (self : Nat) (guards : Guards Block) : Prop :=
  ∃ thread, guards.epoch.threads[self]? = some thread ∧
    (guards.alive = [] ∧ thread.phase = .idle ∨
      guards.alive.length = 1 ∧ thread.phase = .operating)

/-- Calls of a thread that has one guard at a time and retires blocks under it. -/
def OneAtATime (guards : Guards Block) : GuardAction Block → Prop
  | .construct _ nfree => guards.alive = [] ∧ 0 < nfree ∧ nfree ≤ kBagSize
  | .destroy _ => True
  | .retire _ => guards.alive ≠ []
  | .interfere .. => False

/-- As long as the guards of a thread do not overlap, its calls are steps of the protocol. -/
theorem exec_of_next (inStep : guards.InStep self) (plain : guards.OneAtATime action)
    (moved : guards.next self action = some guards') :
    guards'.InStep self ∧
      ∃ actions, (machine Block).exec guards.epoch actions = some guards'.epoch := by
  obtain ⟨thread, found, phase⟩ := inStep
  have inside := (List.getElem?_eq_some_iff.mp found).1
  cases action with
  | construct guard nfree =>
    obtain ⟨noGuard, positive, bounded⟩ := plain
    obtain ⟨_, idle⟩ | ⟨single, _⟩ := phase
    · simp only [next, noGuard, not_mem_nil, if_false] at moved
      obtain ⟨epoch, started, rfl⟩ := Option.map_eq_some_iff.mp moved
      obtain ⟨last, _, executed⟩ := State.exec_eq_startop found idle positive bounded
      refine ⟨?_, _, executed.trans started⟩
      rw [State.startop, found] at started
      cases started
      exact ⟨_, List.getElem?_set_self inside, .inr ⟨rfl, rfl⟩⟩
    · simp [noGuard] at single
  | destroy guard =>
    rw [next] at moved
    split at moved
    · rename_i living
      obtain ⟨epoch, ended, rfl⟩ := Option.map_eq_some_iff.mp moved
      obtain ⟨noGuard, _⟩ | ⟨single, operating⟩ := phase
      · simp [noGuard] at living
      · refine ⟨?_, _, (State.exec_eq_endop found operating).trans ended⟩
        obtain ⟨_, _, _, left, rfl⟩ := onThread_eq_some ended
        cases left
        refine ⟨_, List.getElem?_set_self inside, .inl ⟨?_, rfl⟩⟩
        rw [← length_eq_zero_iff, length_erase_of_mem living, single]
    · cases moved
  | retire block =>
    obtain ⟨epoch, retired, rfl⟩ := Option.map_eq_some_iff.mp moved
    obtain ⟨noGuard, _⟩ | ⟨single, operating⟩ := phase
    · exact absurd noGuard plain
    · refine ⟨?_, _, (State.exec_eq_retire found operating block).trans retired⟩
      obtain ⟨_, _, foundSame, added, rfl⟩ := onThread_eq_some retired
      rw [found] at foundSame
      cases foundSame
      cases added
      exact ⟨_, List.getElem?_set_self inside, .inr ⟨single, operating⟩⟩
  | interfere advances others => exact plain.elim

theorem erase_eq_nil_iff_singleton {guard : Nat} {alive : List Nat} (living : guard ∈ alive) :
    alive.erase guard = [] ↔ alive = [guard] := by
  rw [erase_eq_nil_iff]
  constructor
  · rintro (none | single)
    · rw [none] at living
      exact absurd living not_mem_nil
    · exact single
  · exact Or.inr

theorem announced_next (even : guards.epoch.gepoch % 2 = 0) (announced : guards.Announced self)
    (moved : guards.next self action = some guards') :
    guards'.Announced self ↔ guards.DestroysLast action := by
  have effect := (next_cases even moved).2
  cases action with
  | construct guard nfree => exact ⟨fun _ => trivial, fun _ _ => effect⟩
  | destroy guard =>
    obtain ⟨living, alive, quiescent⟩ := effect
    rw [Announced, alive, quiescent, DestroysLast, ← erase_eq_nil_iff_singleton living]
    exact ⟨fun stays => by_contra fun others => absurd (stays others) nofun,
      fun last others => absurd last others⟩
  | retire block | interfere advances others =>
    rw [Announced, effect.1, effect.2]
    exact ⟨fun _ => trivial, fun _ => announced⟩

def Invariant (self : Nat) (guards : Guards Block) : Prop :=
  guards.epoch.gepoch % 2 = 0 ∧ guards.Announced self

/-- While guards are destroyed only as the last ones, the thread is announced as long as it
has a guard; the first guard that is destroyed before the last one ends that. -/
theorem announced_iff_destroysLast
    (reached : (guardMachine Block self).Reachable DestroysLast guards) :
    guards.Announced self ∧ ∀ action guards', guards.next self action = some guards' →
      (guards'.Announced self ↔ guards.DestroysLast action) := by
  have holds : guards.Invariant self := by
    apply reached.invariant
    · rintro state ⟨noGuard, even⟩
      exact ⟨even, fun living => absurd noGuard living⟩
    · rintro state action state' ⟨even, announced⟩ allowed moved
      exact ⟨(next_cases even moved).1, (announced_next even announced moved).mpr allowed⟩
  exact ⟨holds.2, fun action guards' moved => announced_next holds.1 holds.2 moved⟩

def single : Guards Nat := ⟨⟨0, [⟨.initial, .idle, 0⟩]⟩, []⟩

instance (guards : Guards Block) (action : GuardAction Block) :
    Decidable (guards.DestroysLast action) :=
  match action with
  | .destroy guard => inferInstanceAs (Decidable (guards.alive = [guard]))
  | .construct .. | .retire _ | .interfere .. => .isTrue trivial

/-- A guard comes and goes before two others are constructed. -/
def guardCalls : List (GuardAction Nat) :=
  [.construct 0 kBagSize, .retire 7, .destroy 0, .construct 1 kBagSize, .construct 2 kBagSize]

def singleGuarded : Guards Nat := ((guardMachine Nat 0).exec single guardCalls).getD single

def singleNested : Guards Nat :=
  ((guardMachine Nat 0).exec single
    [.construct 0 kBagSize, .construct 1 kBagSize, .destroy 1]).getD single

theorem singleGuarded_announced :
    singleGuarded.alive = [2, 1] ∧ singleGuarded.Announced 0 ∧
      ∀ guards', singleGuarded.next 0 (.destroy 2) = some guards' → ¬guards'.Announced 0 := by
  have executed : (guardMachine Nat 0).execChecked
      (fun guards action => decide (guards.DestroysLast action)) single guardCalls =
        some singleGuarded := rfl
  have reached : (guardMachine Nat 0).Reachable DestroysLast singleGuarded := by
    refine Machine.Reachable.execChecked ?_ (.start ⟨rfl, rfl⟩) executed
    exact fun _ _ checked => of_decide_eq_true checked
  obtain ⟨announced, destroys⟩ := announced_iff_destroysLast reached
  refine ⟨rfl, announced, fun guards' moved stays => ?_⟩
  exact absurd ((destroys _ guards' moved).mp stays) (by decide)

/-- The inner guard ends the announcement of the outer one. -/
theorem singleNested_not_announced :
    (guardMachine Nat 0).Reachable Machine.anyStep singleNested ∧ singleNested.alive = [0] ∧
      ¬singleNested.Announced 0 := by
  have start : (guardMachine Nat 0).Reachable Machine.anyStep single := .start ⟨rfl, rfl⟩
  have executed : (guardMachine Nat 0).exec single
      [.construct 0 kBagSize, .construct 1 kBagSize, .destroy 1] = some singleNested := rfl
  refine ⟨start.exec executed, by decide, ?_⟩
  intro announced
  exact absurd (announced (by decide)) (by decide)

end Guards

end IndexResearch.Epoch
