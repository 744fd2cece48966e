import IndexResearch.BLinkTree.Threads.Latching

/-!
# The B-link tree among many threads

Every schedule of the threads keeps the state sound.  So the calls and answers of the
threads are those of an ordered map whose calls take effect one after the other, and no
thread ever reads a node that is not there or breaks an assertion.
-/

namespace IndexResearch.BLinkTree

open LinkedPages Function

variable {Thread K V : Type} [DecidableEq Thread] [LinearOrder K] {params : Parameters}
  {outline : Outline Ptr K V} {state state' : State Thread K V} {thread : Thread}
  {map : OrderedMap K V}

/-! ## The first state -/

def firstOutline : Outline Ptr K V where
  page := update (fun _ => none) 1 (some (.leaf [] none))
  height _ := 0
  low _ := ⊥

omit [LinearOrder K] in
theorem firstOutline_page {ptr : Ptr} {page : Page Ptr K V}
    (here : (firstOutline : Outline Ptr K V).page ptr = some page) : ptr = 1 ∧
    page = .leaf [] none:= by
  change update (fun _ => none) 1 (some (.leaf [] none)) ptr = some page at here
  by_cases first : ptr = 1
  · rw [first, update_self] at here
    exact ⟨first, (Option.some.inj here).symm⟩
  · rw [update_of_ne first] at here
    cases here

theorem wellFormed_firstOutline : (firstOutline : Outline Ptr K V).WellFormed where
  ordered ptr page here := by
    obtain ⟨rfl, rfl⟩ := firstOutline_page here
    exact .leaf rfl .nil (fun _ listed => absurd listed List.not_mem_nil)
      (fun linked => absurd rfl linked)
  proper ptr page here := by
    obtain ⟨rfl, rfl⟩ := firstOutline_page here
    exact WithBot.bot_lt_coe _
  linked ptr page next here link := by
    obtain ⟨rfl, rfl⟩ := firstOutline_page here
    cases link
  apart name page other page' here there different := by
    obtain ⟨rfl, _⟩ := firstOutline_page here
    obtain ⟨rfl, _⟩ := firstOutline_page there
    exact absurd rfl different
  grounded ptr page key here listed := by
    obtain ⟨rfl, rfl⟩ := firstOutline_page here
    cases listed

theorem holds_firstOutline : (firstOutline : Outline Ptr K V).Holds .empty := by
  intro entry
  refine iff_of_false List.not_mem_nil ?_
  rintro ⟨ptr, page, here, listed⟩
  obtain ⟨_, rfl⟩ := firstOutline_page here
  cases listed

variable [Inhabited K] [Inhabited V]

omit [DecidableEq Thread] in
theorem sound_initial (params : Parameters) :
    Sound params firstOutline (State.initial params : State Thread K V) where
  rootPublic := ⟨by simp [firstOutline, State.initial, Tree.empty], fun _ => List.not_mem_nil⟩
  rootLow := rfl
  top ptr isPublic := by
    obtain ⟨page, here⟩ := Option.isSome_iff_exists.mp isPublic.1
    exact .inl (firstOutline_page here).1
  upper ptr _ lower := absurd lower (Nat.lt_irrefl 0)
  wellFormed := wellFormed_firstOutline
  draws := by
    have room := params.leafPolicy.room 0 params.leafPolicy.safe_zero
    refine ⟨?_, ?_, by simp [State.initial, Tree.empty, nullptr]⟩
    · intro ptr page here
      obtain ⟨rfl, rfl⟩ := firstOutline_page here
      refine ⟨.new params.leafNodeSize true, by simp [State.initial, Tree.empty], ?_⟩
      exact @BLinkNode.Shows.leaf _ _ _ _ ⟨1, [], none⟩
        ⟨⟨⟨rfl, rfl, rfl, Nat.lt_of_succ_lt room, rfl⟩, rfl, rfl, rfl, rfl⟩, by simp,
          fun linked => absurd rfl linked⟩
    · intro ptr stored
      obtain ⟨page, here⟩ := Option.isSome_iff_exists.mp stored
      obtain ⟨rfl, _⟩ := firstOutline_page here
      simp [State.initial, Tree.empty, nullptr]
  latched _ := SharedLatch.agrees_free fun _ _ => List.not_mem_nil
  claimed _ _ _ claimed := absurd claimed List.not_mem_nil
  exclusive _ _ _ _ claimed := absurd claimed List.not_mem_nil
  pending_inj _ _ _ isPending := by cases isPending
  unposted _ _ _ _ _ _ isPending := by cases isPending
  posted name page here cell listed := by
    obtain ⟨_, rfl⟩ := firstOutline_page here
    cases listed
  seeds ptr link here := by cases (firstOutline_page here).2
  knows _ := trivial

/-! ## Steps -/

theorem Sound.compute_proceeds (sound : Sound params outline state) (holds : outline.Holds map)
    {result : Except Fault (Tree K V × Phase K V)}
    (moves : move params state.tree (state.phases thread) = .compute result) :
    Proceeds params map state thread result := by
  have returns : ∀ {found}, move params state.tree (state.phases thread) = .compute found →
      Proceeds params map state thread found → Proceeds params map state thread result :=
    fun same proceeds => Move.compute.inj (same.symm.trans moves) ▸ proceeds
  cases phase : state.phases thread with
  | started => exact returns (by rw [phase]; rfl) (start_proceeds sound holds phase)
  | descending => exact returns (by rw [phase]; rfl) (descend_proceeds sound holds phase)
  | visiting => exact returns (by rw [phase]; rfl) (visit_proceeds sound holds phase)
  | arrived => exact returns (by rw [phase]; rfl) (arrive_proceeds sound holds phase)
  | scanning => exact returns (by rw [phase]; rfl) (scanRound_proceeds sound holds phase)
  | climbing => exact returns (by rw [phase]; rfl) (climb_proceeds sound holds phase)
  | raised => exact returns (by rw [phase]; rfl) (setRoot_proceeds sound holds phase)
  | sliding => exact returns (by rw [phase]; rfl) (slide_proceeds sound holds phase)
  | joining => exact returns (by rw [phase]; rfl) (join_proceeds sound holds phase)
  | finishing answer mode latched =>
    rw [phase] at moves
    cases latched <;> cases moves
  | _ =>
    rw [phase] at moves
    cases moves

theorem Sound.step (sound : Sound params outline state) (holds : outline.Holds map)
    (taken : state.step params thread = some state') :
    ∃ later map', Sound params later state' ∧ later.Holds map' ∧
      Advances Operation.apply (state.phases thread).status map
        (state'.phases thread).status map' ∧
      ∀ other, other ≠ thread → state'.phases other = state.phases other := by
  rw [State.step] at taken
  cases moves : move params state.tree (state.phases thread) with
  | latch ptr mode next =>
    rw [moves] at taken
    change state.latch thread ptr mode next = some state' at taken
    obtain ⟨sound', status⟩ := sound.latch_step moves taken
    rw [State.latch, Option.map_eq_some_iff] at taken
    obtain ⟨latch, _, rfl⟩ := taken
    refine ⟨outline, map, sound', holds, ?_, fun other => State.goTo_of_ne⟩
    rw [show State.phases _ thread = next from State.goTo_self, status]
    exact .rest
  | unlatch ptr mode next =>
    rw [moves] at taken
    cases taken
    obtain ⟨sound', status⟩ := sound.unlatch_step moves
    refine ⟨outline, map, sound', holds, ?_, fun other => State.unlatch_of_ne⟩
    rw [State.unlatch_self, status]
    exact .rest
  | compute result =>
    obtain ⟨tree, phase, later, map', rfl, sound', holds', advances⟩ :=
      sound.compute_proceeds holds moves
    rw [moves] at taken
    cases taken
    refine ⟨later, map', sound', holds', ?_, fun other => State.goTo_of_ne⟩
    rw [show State.phases _ thread = phase from State.goTo_self]
    exact advances
  | rest =>
    rw [moves] at taken
    cases taken

omit [Inhabited K] [Inhabited V] in
/-- A call begins or ends. -/
theorem Sound.begin_or_end (sound : Sound params outline state) {before phase : Phase K V}
    (was : state.phases thread = before) (plainBefore : before.Plain) (held : before.held = [])
    (plain : phase.Plain) (heldAfter : phase.held = []) (knows : Knows (state.view outline) phase) :
    Sound params outline (state.goTo thread phase) := by
  obtain ⟨secrets, _, grows⟩ := plainBefore state.tree.root
  obtain ⟨secrets', pending', _⟩ := plain state.tree.root
  refine sound.goTo was (heldAfter.trans held.symm) (secrets'.trans secrets.symm) ?_ ?_ knows
  · intro ptr isPending
    rw [pending'] at isPending
    cases isPending
  · intro current ptr link growing
    rw [grows] at growing
    cases growing

theorem Sound.call (sound : Sound params outline state) {operation : Operation K V}
    (taken : state.next params (.call thread operation) = some state') :
    state.phases thread = .idle ∧ state' = state.goTo thread (.started operation) ∧
      Sound params outline state' := by
  rw [State.next] at taken
  split at taken
  · rename_i idle
    cases taken
    exact ⟨idle, rfl, sound.begin_or_end idle (fun _ => ⟨rfl, rfl, rfl⟩) rfl
      (fun _ => ⟨rfl, rfl, rfl⟩) rfl trivial⟩
  · cases taken

theorem Sound.answer (sound : Sound params outline state)
    (taken : state.next params (.answer thread) = some state') :
    ∃ answer mode, state.phases thread = .finishing answer mode [] ∧
    state' = state.goTo thread .idle ∧
      Sound params outline state' := by
  rw [State.next] at taken
  split at taken
  · rename_i answer mode done
    cases taken
    exact ⟨answer, mode, done, rfl, sound.begin_or_end done (fun _ => ⟨rfl, rfl, rfl⟩) rfl
      (fun _ => ⟨rfl, rfl, rfl⟩) rfl trivial⟩
  · cases taken

/-! ## Runs -/

def Agrees (params : Parameters) (state : State Thread K V)
    (abstract : Atomic Thread (OrderedMap K V) (Operation K V) (Answer K V)) : Prop :=
  ∃ outline, Sound params outline state ∧ outline.Holds abstract.object ∧
    ∀ thread, abstract.status thread = (state.phases thread).status

omit [Inhabited K] [Inhabited V] in
theorem Agrees.move (thread : Thread)
    {abstract : Atomic Thread (OrderedMap K V) (Operation K V) (Answer K V)}
    (statuses : ∀ other, abstract.status other = (state.phases other).status)
    (sound : Sound params outline state') (holds : outline.Holds map)
    (others : ∀ other, other ≠ thread → state'.phases other = state.phases other) :
    Agrees params state'
      { abstract.move thread (state'.phases thread).status with object := map } := by
  refine ⟨outline, sound, holds, fun other => ?_⟩
  by_cases same : other = thread
  · rw [same]
    exact update_self _ _ _
  · rw [others other same, ← statuses other]
    exact update_of_ne same _ _

/-- Calls and answers of the threads are those of an ordered map. -/
theorem threads_linearizable (params : Parameters) :
    Linearizable (State.machine params : Machine (State Thread K V) (State.Action Thread K V))
      State.visible Operation.apply OrderedMap.empty := by
  have initially : ∀ state : State Thread K V, (State.machine params).initial state →
      Agrees params state (.fresh .empty) := by
    rintro _ rfl
    exact ⟨firstOutline, sound_initial params, holds_firstOutline, fun _ => rfl⟩
  refine Linearizable.of_progress initially ?_
  · rintro state action next abstract ⟨outline, sound, holds, statuses⟩ taken
    cases action with
    | call thread operation =>
      obtain ⟨idle, rfl, sound'⟩ := sound.call taken
      have agrees := Agrees.move thread statuses sound' holds fun other => State.goTo_of_ne
      rw [State.goTo_self] at agrees
      exact ⟨thread, _, .call (by rw [statuses, idle]; rfl), agrees⟩
    | step thread =>
      obtain ⟨later, map', sound', holds', advances, others⟩ := sound.step holds taken
      rw [← statuses thread] at advances
      exact ⟨thread, _, advances.progress, Agrees.move thread statuses sound' holds' others⟩
    | answer thread =>
      obtain ⟨answer, mode, done, rfl, sound'⟩ := sound.answer taken
      have agrees := Agrees.move thread statuses sound' holds fun other => State.goTo_of_ne
      rw [State.goTo_self] at agrees
      refine ⟨thread, _, ?_, agrees⟩
      simp only [State.visible, done]
      exact .answer (by rw [statuses, done]; rfl)

theorem Sound.of_exec {actions : List (State.Action Thread K V)}
    (executed : (State.machine params).exec (State.initial params) actions = some state) :
    ∃ outline map, Sound params outline state ∧ outline.Holds map := by
  have reached : (State.machine params).Reachable Machine.anyStep state :=
    .exec (.start rfl) executed
  have initially : ∀ state : State Thread K V, (State.machine params).initial state →
      ∃ outline map, Sound params outline state ∧ outline.Holds map := by
    rintro _ rfl
    exact ⟨firstOutline, .empty, sound_initial params, holds_firstOutline⟩
  have preserved : ∀ (state : State Thread K V) action next,
      (∃ outline map, Sound params outline state ∧ outline.Holds map) →
        Machine.anyStep state action →
      (State.machine params).next state action = some next →
      ∃ outline map, Sound params outline next ∧ outline.Holds map := by
    rintro state action next ⟨outline, map, sound, holds⟩ _ taken
    cases action with
    | call thread operation => exact ⟨outline, map, (sound.call taken).2.2, holds⟩
    | step thread =>
      obtain ⟨later, map', sound', holds', _⟩ := sound.step holds taken
      exact ⟨later, map', sound', holds'⟩
    | answer thread =>
      obtain ⟨_, _, _, _, sound'⟩ := sound.answer taken
      exact ⟨outline, map, sound', holds⟩
  exact reached.invariant initially preserved

end IndexResearch.BLinkTree
