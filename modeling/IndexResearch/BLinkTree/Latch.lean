import IndexResearch.SharedLatch

/-!
# The reader-first spin latch

`RSpinSharedLatch` of `BLinkTree/latch.h`, run by finitely many threads.  Every load,
compare-exchange, `fetch_add` and `fetch_sub` of `flag_` is one action.  The calls that
delay a thread and the counters that decide about them change nothing that another
thread can see and are left out.

A thread may hold the latch more than once in shared mode, and it may ask for the latch
while it holds it.
-/

namespace IndexResearch.BLinkTree.RSpinSharedLatch

open Function

abbrev Flag := BitVec 64

def wLatch : Flag := 1#64 <<< 63

def wLatched (flag : Flag) : Bool := flag >>> 63 == 1#64

def noneLatched (flag : Flag) : Bool := flag == 0#64

theorem wLatched_iff (flag : Flag) : wLatched flag = true ↔ 2 ^ 63 ≤ flag.toNat := by
  have limit := flag.isLt
  rw [wLatched, beq_iff_eq, BitVec.toNat_inj.symm, BitVec.toNat_ushiftRight,
    Nat.shiftRight_eq_div_pow]
  simp only [BitVec.toNat_ofNat]
  omega

theorem toNat_add_one {flag : Flag} (room : flag.toNat + 1 < 2 ^ 64) :
    (flag + 1).toNat = flag.toNat + 1 := by
  rw [BitVec.toNat_add]
  exact Nat.mod_eq_of_lt room

theorem toNat_sub_one {flag : Flag} (positive : 0 < flag.toNat) :
    (flag - 1).toNat = flag.toNat - 1 :=
  BitVec.toNat_sub_of_le (BitVec.le_def.mpr positive)

theorem toNat_sub_wLatch {flag : Flag} (latched : 2 ^ 63 ≤ flag.toNat) :
    (flag - wLatch).toNat = flag.toNat - 2 ^ 63 :=
  BitVec.toNat_sub_of_le (BitVec.le_def.mpr latched)

inductive Phase where
  | outside
  /-- In the loop of `latch_shared`, before the `fetch_add`. -/
  | requesting
  /-- The `fetch_add` met a writer, the `fetch_sub` is next. -/
  | backing
  /-- In the loop of `latch_exclusive`, before the load. -/
  | seeking
  /-- The flag has been loaded. -/
  | loaded (flag : Flag)
  deriving DecidableEq

namespace Phase

def increments : Phase → Nat
  | backing => 1
  | _ => 0

def waits : Phase → Nat
  | requesting => 1
  | _ => 0

end Phase

structure State (Thread : Type*) where
  flag : Flag
  phases : Thread → Phase
  /-- How often a thread holds the latch in shared mode. -/
  shared : Thread → Nat
  /-- How often a thread holds the latch in exclusive mode. -/
  exclusive : Thread → Nat

inductive Action (Thread : Type*) where
  /-- The call of `latch_shared`. -/
  | latchShared (thread : Thread)
  /-- The `fetch_add` in `latch_shared`. -/
  | fetchAdd (thread : Thread)
  /-- The `fetch_sub` in `latch_shared`. -/
  | backOut (thread : Thread)
  | unlatchShared (thread : Thread)
  /-- The call of `latch_exclusive`. -/
  | latchExclusive (thread : Thread)
  /-- The load in `latch_exclusive`. -/
  | load (thread : Thread)
  /-- The test of the loaded flag and the compare-exchange in `latch_exclusive`. -/
  | exchange (thread : Thread)
  | unlatchExclusive (thread : Thread)

section Steps

variable {Thread : Type*} [DecidableEq Thread]

namespace State

variable (state : State Thread)

def move (thread : Thread) (phase : Phase) : State Thread :=
  { state with phases := update state.phases thread phase }

def fetchAdd (thread : Thread) : State Thread :=
  if wLatched state.flag then { state.move thread .backing with flag := state.flag + 1 }
  else
    { state.move thread .outside with
      flag := state.flag + 1
      shared := update state.shared thread (state.shared thread + 1) }

def backOut (thread : Thread) : State Thread :=
  { state.move thread .requesting with flag := state.flag - 1 }

def unlatchShared (thread : Thread) : State Thread :=
  { state with
    flag := state.flag - 1
    shared := update state.shared thread (state.shared thread - 1) }

def exchange (thread : Thread) (flag : Flag) : State Thread :=
  if noneLatched flag ∧ state.flag = flag then
    { state.move thread .outside with
      flag := wLatch
      exclusive := update state.exclusive thread (state.exclusive thread + 1) }
  else state.move thread .seeking

def unlatchExclusive (thread : Thread) : State Thread :=
  { state with
    flag := state.flag - wLatch
    exclusive := update state.exclusive thread (state.exclusive thread - 1) }

end State

variable (state : State Thread)

def next : Action Thread → Option (State Thread)
  | .latchShared thread =>
    if state.phases thread = .outside then some (state.move thread .requesting) else none
  | .fetchAdd thread =>
    if state.phases thread = .requesting then some (state.fetchAdd thread) else none
  | .backOut thread =>
    if state.phases thread = .backing then some (state.backOut thread) else none
  | .unlatchShared thread =>
    if state.phases thread = .outside ∧ 0 < state.shared thread then
      some (state.unlatchShared thread)
    else none
  | .latchExclusive thread =>
    if state.phases thread = .outside then some (state.move thread .seeking) else none
  | .load thread =>
    if state.phases thread = .seeking then some (state.move thread (.loaded state.flag))
    else none
  | .exchange thread =>
    match state.phases thread with
    | .loaded flag => some (state.exchange thread flag)
    | _ => none
  | .unlatchExclusive thread =>
    if state.phases thread = .outside ∧ 0 < state.exclusive thread then
      some (state.unlatchExclusive thread)
    else none

/-- The assertion at the end of `unlatch_exclusive`. -/
def Asserts : Action Thread → Prop
  | .unlatchExclusive _ => wLatched state.flag = true
  | _ => True

def machine : Machine (State Thread) (Action Thread) where
  initial state := state = ⟨0, fun _ => .outside, fun _ => 0, fun _ => 0⟩
  next := next

end Steps

section Counting

variable {Thread : Type*} [Fintype Thread]

def count {Item : Type*} (measure : Item → Nat) (items : Thread → Item) : Nat :=
  ∑ thread, measure (items thread)

namespace State

variable (state : State Thread)

def readers : Nat := count id state.shared

def writers : Nat := count id state.exclusive

def transients : Nat := count Phase.increments state.phases

/-- Number of shared requests: those granted, those that back out and those that are
about to try. -/
def requests : Nat :=
  state.readers + state.transients + count Phase.waits state.phases

end State

variable (state : State Thread)

/-- There are fewer than `2 ^ 63` shared requests at once. -/
def allowed : Action Thread → Prop
  | .latchShared _ => state.requests + 1 < 2 ^ 63
  | _ => True

/-- A test of `allowed`. -/
def permits : Action Thread → Bool
  | .latchShared _ => decide (state.requests + 1 < 2 ^ 63)
  | _ => true

theorem permits_sound (action : Action Thread)
    (permitted : permits state action = true) : allowed state action := by
  cases action with
  | latchShared thread => exact (decide_eq_true_iff (p := state.requests + 1 < 2 ^ 63)).mp permitted
  | _ => trivial

theorem count_zero {Item : Type*} {measure : Item → Nat} {items : Thread → Item}
    (zero : ∀ thread, measure (items thread) = 0) : count measure items = 0 :=
  Finset.sum_eq_zero fun thread _ => zero thread

theorem le_count {Item : Type*} (measure : Item → Nat) (items : Thread → Item) (thread : Thread) :
    measure (items thread) ≤ count measure items :=
  Finset.single_le_sum_of_canonicallyOrdered (f := fun other => measure (items other))
    (Finset.mem_univ thread)

structure Invariant (state : State Thread) : Prop where
  flag_eq : state.flag.toNat = 2 ^ 63 * state.writers + state.readers + state.transients
  writers_le : state.writers ≤ 1
  alone : 0 < state.writers → state.readers = 0
  bounded : state.requests < 2 ^ 63

namespace Invariant

variable {state : State Thread}

theorem of_counts {flag : Flag} {phases : Thread → Phase} {shared exclusive : Thread → Nat}
    (flagEq : flag.toNat =
      2 ^ 63 * count id exclusive + count id shared + count Phase.increments phases)
    (writersLe : count id exclusive ≤ 1) (alone : 0 < count id exclusive → count id shared = 0)
    (bounded : count id shared + count Phase.increments phases + count Phase.waits phases <
      2 ^ 63) : Invariant ⟨flag, phases, shared, exclusive⟩ :=
  ⟨flagEq, writersLe, alone, bounded⟩

theorem counts (invariant : Invariant state) : state.flag.toNat =
      2 ^ 63 * count id state.exclusive + count id state.shared +
      count Phase.increments state.phases ∧
    count id state.exclusive ≤ 1 ∧ (0 < count id state.exclusive → count id state.shared = 0) ∧
    count id state.shared + count Phase.increments state.phases + count Phase.waits state.phases <
      2 ^ 63 :=
  ⟨invariant.flag_eq, invariant.writers_le, invariant.alone, invariant.bounded⟩

theorem initially : Invariant (⟨0, fun _ => .outside, fun _ => 0, fun _ => 0⟩ : State Thread) := by
  have shared : count id (fun _ : Thread => 0) = 0 := count_zero fun _ => rfl
  have transients : count Phase.increments (fun _ : Thread => .outside) = 0 :=
    count_zero fun _ => rfl
  have waits : count Phase.waits (fun _ : Thread => .outside) = 0 := count_zero fun _ => rfl
  apply of_counts
  · rw [shared, transients]
    rfl
  all_goals omega

theorem writers_eq (invariant : Invariant state) :
    state.writers = if ∃ thread, 0 < state.exclusive thread then 1 else 0 := by
  split
  · rename_i some
    obtain ⟨thread, held⟩ := some
    exact Nat.le_antisymm invariant.writers_le
      (Nat.le_trans held (le_count id state.exclusive thread))
  · rename_i none
    exact count_zero fun thread => Nat.eq_zero_of_not_pos fun held => none ⟨thread, held⟩

end Invariant

variable [DecidableEq Thread]

theorem count_update {Item : Type*} (measure : Item → Nat) (items : Thread → Item)
    (thread : Thread) (item : Item) :
    count measure (update items thread item) + measure (items thread) =
      count measure items + measure item := by
  have rest (items : Thread → Item) : count measure items = measure (items thread) +
      ∑ other ∈ Finset.univ.erase thread, measure (items other) :=
    (Finset.add_sum_erase _ _ (Finset.mem_univ thread)).symm
  have same : ∑ other ∈ Finset.univ.erase thread,
    measure (update items thread item other) =
      ∑ other ∈ Finset.univ.erase thread, measure (items other) := by
    apply Finset.sum_congr rfl
    intro other listed
    rw [update_of_ne (Finset.ne_of_mem_erase listed)]
  rw [rest, rest items, same, update_self]
  omega

theorem add_le_count {Item : Type*} (measure : Item → Nat) (items : Thread → Item)
    {thread other : Thread} (distinct : other ≠ thread) :
    measure (items thread) + measure (items other) ≤ count measure items := by
  have pair : ∑ each ∈ {thread, other}, measure (items each) ≤ count measure items :=
    Finset.sum_le_sum_of_subset (Finset.subset_univ _)
  rwa [Finset.sum_pair distinct.symm] at pair

namespace Invariant

variable {state : State Thread} {thread : Thread} {phase : Phase}

section

variable (invariant : Invariant state)
include invariant

theorem move (still : (state.phases thread).increments = phase.increments)
    (fewer : count Phase.waits (update state.phases thread phase) +
      state.readers + state.transients < 2 ^ 63) : Invariant (state.move thread phase) := by
  have transients := count_update Phase.increments state.phases thread phase
  rw [still] at transients
  have same : (state.move thread phase).transients = state.transients :=
    Nat.add_right_cancel transients
  refine ⟨?_, invariant.writers_le, invariant.alone, ?_⟩
  · rw [same]
    exact invariant.flag_eq
  · rw [State.requests, same]
    change state.readers + state.transients +
      count Phase.waits (update state.phases thread phase) < 2 ^ 63
    omega

theorem move_of_waits_eq_zero
    (still : (state.phases thread).increments = phase.increments) (leaves : phase.waits = 0) :
    Invariant (state.move thread phase) := by
  have waits := count_update Phase.waits state.phases thread phase
  have bounded := invariant.bounded
  unfold State.requests at bounded
  apply invariant.move still
  omega

theorem fetchAdd (requesting : state.phases thread = .requesting) :
    Invariant (state.fetchAdd thread) := by
  obtain ⟨flagEq, writersLe, alone, bounded⟩ := invariant.counts
  have waiting := le_count Phase.waits state.phases thread
  have transients := count_update Phase.increments state.phases thread
  have waits := count_update Phase.waits state.phases thread
  simp only [requesting, Phase.increments, Phase.waits] at waiting transients waits
  have grown : (state.flag + 1).toNat = state.flag.toNat + 1 := toNat_add_one (by omega)
  rw [State.fetchAdd]
  split
  · rename_i latched
    rw [wLatched_iff] at latched
    have transients := transients .backing
    have waits := waits .backing
    apply of_counts <;> dsimp only [State.move] at * <;> omega
  · rename_i unlatched
    rw [wLatched_iff] at unlatched
    have transients := transients .outside
    have waits := waits .outside
    have readers := count_update id state.shared thread (state.shared thread + 1)
    apply of_counts <;> dsimp only [State.move, id] at * <;> omega

theorem backOut (backing : state.phases thread = .backing) : Invariant (state.backOut thread) := by
  obtain ⟨flagEq, writersLe, alone, bounded⟩ := invariant.counts
  have present := le_count Phase.increments state.phases thread
  have transients := count_update Phase.increments state.phases thread .requesting
  have waits := count_update Phase.waits state.phases thread .requesting
  simp only [backing, Phase.increments, Phase.waits] at present transients waits
  have lowered : (state.flag - 1).toNat = state.flag.toNat - 1 := toNat_sub_one (by omega)
  apply of_counts <;> dsimp only [State.move] <;> omega

theorem unlatchShared (held : 0 < state.shared thread) :
    Invariant (state.unlatchShared thread) := by
  obtain ⟨flagEq, writersLe, alone, bounded⟩ := invariant.counts
  have present := le_count id state.shared thread
  have readers := count_update id state.shared thread (state.shared thread - 1)
  simp only [id] at present readers
  have lowered : (state.flag - 1).toNat = state.flag.toNat - 1 := toNat_sub_one (by omega)
  apply of_counts <;> omega

theorem exchange {flag : Flag}
    (loaded : state.phases thread = .loaded flag) : Invariant (state.exchange thread flag) := by
  rw [State.exchange]
  split
  · rename_i unlatched
    obtain ⟨flagEq, writersLe, alone, bounded⟩ := invariant.counts
    have zero : state.flag.toNat = 0 := by
      rw [unlatched.2, beq_iff_eq.mp unlatched.1]
      rfl
    have transients := count_update Phase.increments state.phases thread .outside
    have waits := count_update Phase.waits state.phases thread .outside
    have writers := count_update id state.exclusive thread (state.exclusive thread + 1)
    simp only [loaded, Phase.increments, Phase.waits, id] at transients waits writers
    have taken : wLatch.toNat = 2 ^ 63 := rfl
    change Invariant ⟨wLatch, update state.phases thread .outside, state.shared,
      update state.exclusive thread (state.exclusive thread + 1)⟩
    apply of_counts <;> omega
  · exact invariant.move_of_waits_eq_zero (by rw [loaded]; rfl) rfl

theorem unlatchExclusive (held : 0 < state.exclusive thread) :
    Invariant (state.unlatchExclusive thread) := by
  obtain ⟨flagEq, writersLe, alone, bounded⟩ := invariant.counts
  have present := le_count id state.exclusive thread
  have writers := count_update id state.exclusive thread (state.exclusive thread - 1)
  simp only [id] at present writers
  have released : (state.flag - wLatch).toNat = state.flag.toNat - 2 ^ 63 :=
    toNat_sub_wLatch (by omega)
  apply of_counts <;> omega

theorem next {action : Action Thread} {state' : State Thread}
    (permitted : allowed state action) (moved : next state action = some state') :
    Invariant state' := by
  cases action with
  | latchShared thread =>
    obtain ⟨outside, ⟨⟩⟩ := Option.ite_none_right_eq_some.mp moved
    have waits := count_update Phase.waits state.phases thread .requesting
    simp only [outside, Phase.waits] at waits
    simp only [allowed, State.requests] at permitted
    exact invariant.move (by rw [outside]; rfl) (by omega)
  | fetchAdd thread =>
    obtain ⟨requesting, ⟨⟩⟩ := Option.ite_none_right_eq_some.mp moved
    exact invariant.fetchAdd requesting
  | backOut thread =>
    obtain ⟨backing, ⟨⟩⟩ := Option.ite_none_right_eq_some.mp moved
    exact invariant.backOut backing
  | unlatchShared thread =>
    obtain ⟨⟨_, held⟩, ⟨⟩⟩ := Option.ite_none_right_eq_some.mp moved
    exact invariant.unlatchShared held
  | latchExclusive thread =>
    obtain ⟨outside, ⟨⟩⟩ := Option.ite_none_right_eq_some.mp moved
    exact invariant.move_of_waits_eq_zero (by rw [outside]; rfl) rfl
  | load thread =>
    obtain ⟨seeking, ⟨⟩⟩ := Option.ite_none_right_eq_some.mp moved
    exact invariant.move_of_waits_eq_zero (by rw [seeking]; rfl) rfl
  | exchange thread =>
    simp only [RSpinSharedLatch.next] at moved
    split at moved
    · rename_i flag loaded
      obtain ⟨⟩ := moved
      exact invariant.exchange loaded
    · cases moved
  | unlatchExclusive thread =>
    obtain ⟨⟨_, held⟩, ⟨⟩⟩ := Option.ite_none_right_eq_some.mp moved
    exact invariant.unlatchExclusive held

theorem asserts {action : Action Thread} {state' : State Thread}
    (moved : RSpinSharedLatch.next state action = some state') : Asserts state action := by
  cases action with
  | unlatchExclusive thread =>
    obtain ⟨⟨_, held⟩, _⟩ := Option.ite_none_right_eq_some.mp moved
    have present := le_count id state.exclusive thread
    obtain ⟨flagEq, _⟩ := invariant.counts
    simp only [id] at present
    rw [Asserts, wLatched_iff]
    omega
  | _ => trivial

theorem exclusive (held : 0 < state.exclusive thread) :
    state.exclusive thread = 1 ∧ (∀ other, state.shared other = 0) ∧
      ∀ other, other ≠ thread → state.exclusive other = 0 := by
  obtain ⟨_, writersLe, alone, _⟩ := invariant.counts
  have present := le_count id state.exclusive thread
  simp only [id] at present
  refine ⟨by omega, ?_, ?_⟩
  · intro other
    have bounded := le_count id state.shared other
    simp only [id] at bounded
    have none := alone (by omega)
    omega
  · intro other distinct
    have both := add_le_count id state.exclusive distinct
    simp only [id] at both
    omega

end

end Invariant

theorem invariant_of_reachable {state : State Thread} (reached : machine.Reachable allowed state) :
    Invariant state := by
  apply reached.invariant
  · rintro _ rfl
    exact Invariant.initially
  · exact fun state action state' holds permitted moved => holds.next permitted moved

/-- In every interleaving a writer excludes all other holders, the flag counts the
holders and the readers that have yet to back out, and the assertion of
`unlatch_exclusive` holds. -/
theorem reachable_exclusive {state : State Thread} (reached : machine.Reachable allowed state) :
    (∀ thread, 0 < state.exclusive thread → state.exclusive thread = 1 ∧
      (∀ other, state.shared other = 0) ∧ ∀ other, other ≠ thread → state.exclusive other = 0) ∧
    state.flag.toNat = (if ∃ thread, 0 < state.exclusive thread then 2 ^ 63 else 0) +
      (state.readers + state.transients) ∧
    ∀ action state', next state action = some state' → Asserts state action := by
  have invariant := invariant_of_reachable reached
  refine ⟨fun thread held => invariant.exclusive held, ?_,
    fun action state' moved => invariant.asserts moved⟩
  rw [invariant.flag_eq, invariant.writers_eq]
  split <;> omega

def readerMeetsWriter : State (Fin 2) :=
  (machine.execChecked permits
    ⟨0, fun _ => .outside, fun _ => 0, fun _ => 0⟩
    [.latchExclusive 0, .load 0, .exchange 0, .latchShared 1, .fetchAdd 1]).getD
    ⟨0, fun _ => .outside, fun _ => 0, fun _ => 0⟩

theorem readerMeetsWriter_exclusive :
    readerMeetsWriter.exclusive 0 = 1 ∧ readerMeetsWriter.transients = 1 ∧
      readerMeetsWriter.shared 1 = 0 ∧ readerMeetsWriter.flag.toNat = 2 ^ 63 + 1 := by
  have transients : readerMeetsWriter.transients = 1 := by decide +kernel
  have readers : readerMeetsWriter.readers = 0 := by decide +kernel
  have writes : readerMeetsWriter.exclusive 0 = 1 := by decide +kernel
  have runs : (machine.execChecked permits
      ⟨0, fun _ => .outside, fun _ => 0, fun _ => 0⟩
      ([.latchExclusive 0, .load 0, .exchange 0, .latchShared 1, .fetchAdd 1] :
        List (Action (Fin 2)))).isSome = true := by decide +kernel
  obtain ⟨state, executed⟩ := Option.isSome_iff_exists.mp runs
  have reached : machine.Reachable allowed readerMeetsWriter := by
    rw [readerMeetsWriter, executed]
    exact Machine.Reachable.execChecked permits_sound (.start rfl) executed
  obtain ⟨exclusive, flagEq, _⟩ := reachable_exclusive reached
  refine ⟨writes, transients, (exclusive 0 (by omega)).2.1 1, ?_⟩
  rw [flagEq, if_pos ⟨0, by omega⟩, transients, readers]

/-! ## The latch that the threads use -/

/-- `latch` is held as the word and the phases say. -/
structure Implements (state : State Thread) (latch : SharedLatch Thread) : Prop where
  readers : ∀ thread, latch.readers.count thread = state.shared thread
  writer : ∀ thread, latch.writer = some thread ↔ 0 < state.exclusive thread

/-- What an action does to the latch: the `fetch_add` that meets no writer and the
compare-exchange that succeeds take it. -/
def effect (state : State Thread) : Action Thread → Option (SharedLatch.Move Thread)
  | .fetchAdd thread => if wLatched state.flag then none else some (.acquire thread .shared)
  | .exchange thread =>
    if state.phases thread = .loaded 0 ∧ state.flag = 0 then some (.acquire thread .exclusive)
    else none
  | .unlatchShared thread => some (.release thread .shared)
  | .unlatchExclusive thread => some (.release thread .exclusive)
  | _ => none

namespace Implements

variable {state state' : State Thread} {latch : SharedLatch Thread}

section

variable (implements : Implements state latch) (invariant : Invariant state)
include implements invariant

theorem writer_eq_none (unlatched : wLatched state.flag = false) : latch.writer = none := by
  rw [Option.eq_none_iff_forall_ne_some]
  intro thread writer
  have writes := (implements.writer thread).mp writer
  have present := le_count id state.exclusive thread
  obtain ⟨flagEq, _⟩ := invariant.counts
  have below : ¬2 ^ 63 ≤ state.flag.toNat := by rw [← wLatched_iff, unlatched]; simp
  simp only [id] at present
  omega

theorem readers_eq_nil (zero : state.flag = 0) : latch.readers = [] := by
  rw [List.eq_nil_iff_forall_not_mem]
  intro thread reads
  have present := le_count id state.shared thread
  obtain ⟨flagEq, _⟩ := invariant.counts
  have counted := List.count_pos_iff.mpr reads
  rw [implements.readers] at counted
  rw [zero] at flagEq
  simp only [id] at present
  simp at flagEq
  omega

/-- Each step takes or gives up the latch as `effect` says, and the latch does not refuse. -/
theorem next {action : Action Thread} (moved : next state action = some state') :
    ∃ latch', SharedLatch.machine.exec latch (effect state action).toList = some latch' ∧
      Implements state' latch' := by
  cases action with
  | fetchAdd thread =>
    obtain ⟨requesting, ⟨⟩⟩ := Option.ite_none_right_eq_some.mp moved
    rw [State.fetchAdd, effect]
    split
    · exact ⟨latch, rfl, implements.readers, implements.writer⟩
    · rename_i unlatched
      have noWriter := implements.writer_eq_none invariant (by simpa using unlatched)
      refine ⟨{ latch with readers := thread :: latch.readers }, ?_, ?_, implements.writer⟩
      · rw [Option.toList_some, Machine.exec_singleton]
        simp [SharedLatch.machine, SharedLatch.acquire, noWriter]
      · intro other
        rw [List.count_cons, implements.readers]
        by_cases same : other = thread
        · simp [same]
        · simp [same, Ne.symm same]
  | exchange thread =>
    simp only [RSpinSharedLatch.next] at moved
    split at moved
    · rename_i flag loaded
      obtain ⟨⟩ := moved
      by_cases taken : flag = 0 ∧ state.flag = 0
      · obtain ⟨rfl, zero⟩ := taken
        have noWriter := implements.writer_eq_none invariant (by rw [zero]; rfl)
        have noReader := implements.readers_eq_nil invariant zero
        rw [State.exchange, if_pos ⟨rfl, zero⟩, effect, if_pos ⟨loaded, zero⟩]
        refine ⟨{ latch with writer := some thread }, ?_, implements.readers, ?_⟩
        · rw [Option.toList_some, Machine.exec_singleton]
          simp [SharedLatch.machine, SharedLatch.acquire, noWriter, noReader]
        · intro other
          have none := implements.writer other
          by_cases same : other = thread
          · simp [same]
          · rw [noWriter] at none
            simp_all [Ne.symm same]
      · refine ⟨latch, ?_, ?_⟩
        · rw [effect, if_neg (by simpa [loaded] using taken)]
          rfl
        · rw [State.exchange, if_neg (by simp_all [noneLatched])]
          exact ⟨implements.readers, implements.writer⟩
    · cases moved
  | unlatchShared thread =>
    obtain ⟨⟨_, held⟩, ⟨⟩⟩ := Option.ite_none_right_eq_some.mp moved
    refine ⟨latch.release thread .shared, ?_, ?_, implements.writer⟩
    · have reads : thread ∈ latch.readers :=
        List.count_pos_iff.mp (by rw [implements.readers]; exact held)
      rw [effect, Option.toList_some, Machine.exec_singleton]
      simp [SharedLatch.machine, SharedLatch.heldBy, reads]
    · intro other
      by_cases same : other = thread
      · simp [SharedLatch.release, State.unlatchShared, same, implements.readers]
      · simp [SharedLatch.release, State.unlatchShared, same, List.count_erase_of_ne,
          implements.readers]
  | unlatchExclusive thread =>
    obtain ⟨⟨_, held⟩, ⟨⟩⟩ := Option.ite_none_right_eq_some.mp moved
    refine ⟨latch.release thread .exclusive, ?_, implements.readers, ?_⟩
    · rw [effect, Option.toList_some, Machine.exec_singleton]
      simp [SharedLatch.machine, SharedLatch.heldBy, (implements.writer thread).mpr held]
    · intro other
      obtain ⟨one, _, others⟩ := invariant.exclusive held
      by_cases same : other = thread
      · simp [SharedLatch.release, State.unlatchExclusive, same, one]
      · simp [SharedLatch.release, State.unlatchExclusive, same, others other same]
  | latchShared thread | latchExclusive thread | load thread | backOut thread =>
    obtain ⟨_, ⟨⟩⟩ := Option.ite_none_right_eq_some.mp moved
    exact ⟨latch, rfl, implements.readers, implements.writer⟩

end

end Implements

/-- In every interleaving the spin latch is held as a latch for readers and writers that took
the same requests one after the other. -/
theorem reachable_implements {state : State Thread} (reached : machine.Reachable allowed state) :
    ∃ latch, SharedLatch.machine.Reachable Machine.anyStep latch ∧ Implements state latch := by
  have both : Invariant state ∧ ∃ latch, SharedLatch.machine.Reachable Machine.anyStep latch ∧
      Implements state latch := by
    apply reached.invariant
    · rintro _ rfl
      exact ⟨.initially, .free, .start rfl, fun _ => rfl, by simp [SharedLatch.free]⟩
    · rintro state action state' ⟨invariant, latch, taken, implements⟩ permitted moved
      obtain ⟨latch', executed, implements'⟩ := implements.next invariant moved
      exact ⟨invariant.next permitted moved, latch', taken.exec executed, implements'⟩
  exact both.2

end Counting

end IndexResearch.BLinkTree.RSpinSharedLatch
