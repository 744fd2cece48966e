import IndexResearch.BLinkTree.Threads.Atomicity
import Mathlib.Data.Prod.Lex

/-!
# No thread is stuck

No computation of a thread fails, and threads do not wait for each other in a circle: a
thread that holds latches waits only for nodes further up, or further right on the same
level.
-/

namespace IndexResearch.BLinkTree

open LinkedPages

variable {Thread K V : Type} [DecidableEq Thread] [LinearOrder K] [Inhabited K] [Inhabited V]
  {params : Parameters} {outline : Outline Ptr K V} {state : State Thread K V} {thread : Thread}
  {ptr : Ptr} {mode : Mode} {next : Phase K V}

def latchRank (outline : Outline Ptr K V) (ptr : Ptr) : Lex (Nat × Edge K) :=
  toLex (outline.height ptr, outline.low ptr)

omit [DecidableEq Thread] [Inhabited K] [Inhabited V] in
theorem latchRank_lt {other : Ptr} : latchRank outline ptr < latchRank outline other ↔
    outline.height ptr < outline.height other ∨
      (outline.height ptr = outline.height other ∧ outline.low ptr < outline.low other) :=
  Prod.Lex.toLex_lt_toLex

def waitsFor (params : Parameters) (state : State Thread K V) (thread : Thread) :
    Option (Ptr × Mode) :=
  match move params state.tree (state.phases thread) with
  | .latch ptr mode _ => some (ptr, mode)
  | _ => none

omit [DecidableEq Thread] in
theorem exists_move_of_waitsFor (waits : waitsFor params state thread = some (ptr, mode)) :
    ∃ next, move params state.tree (state.phases thread) = .latch ptr mode next := by
  rw [waitsFor] at waits
  split at waits
  · rename_i next moves
    cases waits
    exact ⟨next, moves⟩
  · cases waits

omit [DecidableEq Thread] in
theorem Sound.waits_above (sound : Sound params outline state)
    (moves : move params state.tree (state.phases thread) = .latch ptr mode next) :
    (outline.page ptr).isSome ∧
      ∀ item ∈ (state.phases thread).held, latchRank outline item.1 < latchRank outline ptr := by
  have knows := sound.knows thread
  -- a link leads to the right
  have linkAbove : ∀ {current work page}, outline.page current = some page → page.link = some work →
      latchRank outline current < latchRank outline work := by
    intro current work page here link
    obtain ⟨_, heightEq, lowEq⟩ := sound.wellFormed.linked current page work here link
    refine latchRank_lt.mpr (.inr ⟨heightEq.symm, ?_⟩)
    rw [lowEq]
    exact sound.wellFormed.proper current page here
  cases phase : state.phases thread with
  | entering =>
    rw [phase] at moves knows
    cases moves
    obtain ⟨height, onWay, _⟩ := knows
    exact ⟨onWay.isPublic.1, fun item held => absurd held List.not_mem_nil⟩
  | arriving =>
    rw [phase] at moves knows
    cases moves
    exact ⟨knows.1.isPublic.1, fun item held => absurd held List.not_mem_nil⟩
  | coupling =>
    rw [phase] at moves knows
    cases moves
    obtain ⟨onWay, _, page, here, link⟩ := knows
    refine ⟨onWay.isPublic.1, fun item held => ?_⟩
    rw [List.mem_singleton.mp held]
    exact linkAbove here link
  | scanNext =>
    rw [phase] at moves knows
    cases moves
    obtain ⟨current, rest, rfl, scans, _, isPublic, page, here, link⟩ := knows
    have chained := (scans.extend sound.wellFormed here link).1.chained
    refine ⟨isPublic.1, fun item held => ?_⟩
    obtain ⟨leaf, listed, rfl⟩ := List.mem_map.mp held
    exact latchRank_lt.mpr (.inr ⟨sound.wellFormed.chain_height chained leaf listed,
      sound.wellFormed.chain_low chained leaf listed⟩)
  | raising climber work =>
    rw [phase] at moves knows
    obtain ⟨rfl, rfl, rfl⟩ := Move.latch.inj moves
    obtain ⟨height, ascends, covers, _⟩ := knows
    refine ⟨covers.isStored, fun item held => ?_⟩
    obtain rfl := List.mem_singleton.mp held
    have upper : outline.height work = height + 1 := covers.height_eq
    have heightLeft : outline.height climber.current = height := ascends.height_eq
    exact latchRank_lt.mpr (.inl (by simp only; omega))
  | slidingOn climber work siblingNode =>
    rw [phase] at moves knows
    obtain ⟨rfl, rfl, rfl⟩ := Move.latch.inj moves
    obtain ⟨⟨height, ascends, covers, isPublic, _⟩, page, here, link⟩ := knows
    have upper : outline.height siblingNode = height + 1 := covers.height_eq
    have heightLeft : outline.height climber.current = height := ascends.height_eq
    refine ⟨isPublic.1, fun item held => ?_⟩
    rcases List.mem_cons.mp held with rfl | held
    · exact latchRank_lt.mpr (.inl (by simp only; omega))
    · rw [List.mem_singleton.mp held]
      exact linkAbove here link
  | finishing answer mode' latched =>
    rw [phase] at moves
    cases latched <;> cases moves
  | _ =>
    rw [phase] at moves
    cases moves

theorem Sound.goes_on (sound : Sound params outline state)
    (free : waitsFor params state thread = none) (busy : state.phases thread ≠ .idle) :
    (∃ later, state.next params (.step thread) = some later) ∨
      ∃ later, state.next params (.answer thread) = some later := by
  have knows := sound.knows thread
  cases moves : move params state.tree (state.phases thread) with
  | latch ptr mode next =>
    rw [waitsFor, moves] at free
    cases free
  | unlatch ptr mode next =>
    refine .inl ⟨state.unlatch thread ptr mode next, ?_⟩
    simp only [State.next, State.step, moves]
  | compute result =>
    cases result with
    | error fault =>
      refine .inl ⟨state.goTo thread (.crashed fault), ?_⟩
      simp only [State.next, State.step, moves]
    | ok result =>
      refine .inl ⟨{ state.goTo thread result.2 with tree := result.1 }, ?_⟩
      simp only [State.next, State.step, moves]
  | rest =>
    cases phase : state.phases thread with
    | idle => exact absurd phase busy
    | crashed fault =>
      rw [phase] at knows
      exact knows.elim
    | finishing answer mode latched =>
      cases latched with
      | nil =>
        refine .inr ⟨state.goTo thread .idle, ?_⟩
        simp only [State.next, phase]
      | cons =>
        rw [phase] at moves
        cases moves
    | _ =>
      rw [phase] at moves
      cases moves

/-- No computation of a thread ever fails. -/
theorem threads_never_crash {actions : List (State.Action Thread K V)}
    (executed : (State.machine params).exec (State.initial params) actions = some state)
    (thread : Thread) (fault : Fault) : state.phases thread ≠ .crashed fault := by
  obtain ⟨outline, _, sound, _⟩ := Sound.of_exec executed
  intro crashed
  have knows := sound.knows thread
  rw [crashed] at knows
  exact knows

def insertAlone (key : Nat) : List (State.Action Bool Nat Nat) :=
  .call true (.insert key key) :: List.replicate 5 (.step true) ++ [.answer true]

/-- The fourth insertion splits the root and has just made a new one, while another thread
waits for the leaf that was the root when it began. -/
def race : List (State.Action Bool Nat Nat) :=
  insertAlone 1 ++ insertAlone 2 ++ insertAlone 3 ++
    .call true (.insert 4 4) :: List.replicate 3 (.step true) ++
    .call false (.insert 5 5) :: List.replicate 2 (.step false) ++ List.replicate 4 (.step true)

theorem threads_never_crash_race : ∃ state : State Bool Nat Nat,
    (State.machine Tree.smallNodes).exec (State.initial Tree.smallNodes) race = some state ∧
      state.tree.root = 3 ∧ ∀ thread fault, state.phases thread ≠ .crashed fault := by
  have executed : ((State.machine Tree.smallNodes).exec (State.initial Tree.smallNodes) race).map
      (fun state => state.tree.root) = some 3 := by
    decide +kernel
  obtain ⟨state, result, root⟩ := Option.map_eq_some_iff.mp executed
  exact ⟨state, result, root, threads_never_crash result⟩

/-- As long as a thread has a call, some thread takes a step or returns from its call. -/
theorem threads_never_deadlock {actions : List (State.Action Thread K V)}
    (executed : (State.machine params).exec (State.initial params) actions = some state)
    (busy : state.phases thread ≠ .idle) :
    ∃ other, (∃ later, state.next params (.step other) = some later) ∨
      ∃ later, state.next params (.answer other) = some later := by
  obtain ⟨outline, _, sound, _⟩ := Sound.of_exec executed
  cases waits : waitsFor params state thread with
  | none => exact ⟨thread, sound.goes_on waits busy⟩
  | some item =>
    have inside : ∀ thread ptr mode, waitsFor params state thread = some (ptr, mode) →
        ptr ∈ Finset.range state.tree.fresh := by
      intro thread ptr mode waits
      obtain ⟨next, moves⟩ := exists_move_of_waitsFor waits
      exact Finset.mem_range.mpr (sound.draws.allocated ptr (sound.waits_above moves).1).2
    have above : ∀ thread ptr mode, waitsFor params state thread = some (ptr, mode) →
        ∀ item ∈ (state.phases thread).held, latchRank outline item.1 < latchRank outline ptr := by
      intro thread ptr mode waits
      obtain ⟨next, moves⟩ := exists_move_of_waitsFor waits
      exact (sound.waits_above moves).2
    obtain ⟨other, ⟨ptr, mode, latch, waitsOther, acquired⟩ | ⟨free, holds⟩⟩ :=
      sound.latched.exists_running (latchRank outline) (Finset.range state.tree.fresh)
        (waitsFor params state) inside above waits
    · obtain ⟨next, moves⟩ := exists_move_of_waitsFor waitsOther
      refine ⟨other, .inl
        ⟨{ state.goTo other next with latches := Function.update state.latches ptr latch }, ?_⟩⟩
      simp only [State.next, State.step, moves, State.latch, acquired, Option.map_some]
    · refine ⟨other, sound.goes_on free fun idle => ?_⟩
      rw [idle] at holds
      exact holds rfl

theorem threads_never_deadlock_race : ∃ state : State Bool Nat Nat,
    (State.machine Tree.smallNodes).exec (State.initial Tree.smallNodes) race = some state ∧
      state.tree.root = 3 ∧ waitsFor Tree.smallNodes state false = some (1, .exclusive) ∧
      ∃ other, (∃ later, state.next Tree.smallNodes (.step other) = some later) ∨
        ∃ later, state.next Tree.smallNodes (.answer other) = some later := by
  have executed : ((State.machine Tree.smallNodes).exec (State.initial Tree.smallNodes) race).map
      (fun state => (state.tree.root, waitsFor Tree.smallNodes state false)) =
        some (3, some (1, .exclusive)) := by
    decide +kernel
  obtain ⟨state, result, same⟩ := Option.map_eq_some_iff.mp executed
  obtain ⟨root, waits⟩ := Prod.mk.inj same
  have busy : state.phases false ≠ .idle := by
    intro idle
    rw [waitsFor, idle] at waits
    cases waits
  exact ⟨state, result, root, waits, threads_never_deadlock result busy⟩

end IndexResearch.BLinkTree
