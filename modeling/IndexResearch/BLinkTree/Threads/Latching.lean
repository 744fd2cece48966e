import IndexResearch.BLinkTree.Threads.Posting

/-!
# Latches are taken and given back

What a thread knows when it gets a latch, or when it has given one back.
-/

namespace IndexResearch.BLinkTree

open LinkedPages List

variable {Thread K V : Type} [DecidableEq Thread] [LinearOrder K] {params : Parameters}
  {outline : Outline Ptr K V} {state state' : State Thread K V} {thread : Thread} {ptr : Ptr}
  {mode : Mode} {next : Phase K V}

omit [LinearOrder K] in
theorem State.unlatch_self : (state.unlatch thread ptr mode next).phases thread = next :=
  State.goTo_self

omit [LinearOrder K] in
theorem State.unlatch_of_ne {other : Thread} (notSame : other ≠ thread) :
    (state.unlatch thread ptr mode next).phases other = state.phases other :=
    State.goTo_of_ne notSame

omit [LinearOrder K] in
theorem evolves_unlatch (secrets : ∀ other ∈ next.secrets state.tree.root,
      other ∈ (state.phases thread).secrets state.tree.root) (claims : List (Ptr × Mode)) :
    (state.view outline).Evolves ((state.unlatch thread ptr mode next).view outline) claims where
  stored _ := id
  height_eq _ _ := rfl
  low_eq _ _ := rfl
  grounded _ := id
  kept _ _ _ := ⟨rfl, rfl⟩
  isPublic other known := by
    refine ⟨known.1, fun anyone secret => ?_⟩
    by_cases same : anyone = thread
    · rw [same, State.unlatch_self] at secret
      exact known.2 thread (secrets other secret)
    · rw [State.unlatch_of_ne same] at secret
      exact known.2 anyone secret
  root_iff _ _ := Iff.rfl

theorem Sound.release {before : Phase K V} (sound : Sound params outline state)
    (was : state.phases thread = before) (holds : (ptr, mode) ∈ before.held)
    (held : ∀ item, item ∈ next.held ↔ item ∈ before.held ∧ item ≠ (ptr, mode))
    (secrets : next.secrets state.tree.root = before.secrets state.tree.root)
    (pending : next.pending = before.pending)
    (grows : ∀ current other, before.grows state.tree.root = some (current, other) →
      next.grows state.tree.root = some (current, other))
    (knows : Knows (state.view outline) next) :
    Sound params outline (state.unlatch thread ptr mode next) := by
  refine sound.unlatch was holds held (fun other => ?_) (fun other => ?_) pending grows
    (knows.mono (evolves_unlatch (fun other => ?_) _))
  · rw [secrets]
    exact id
  · rw [secrets]
    exact .inl
  · rw [was, secrets]
    exact id

theorem Scans.extend {operation : Operation K V} {current nextLeaf : Ptr} {rest : List Ptr}
    {page : Page Ptr K V} (scans : Scans outline operation current rest)
    (formed : outline.WellFormed)
    (here : outline.page current = some page) (link : page.link = some nextLeaf) :
    Scans outline operation nextLeaf (current :: rest) ∧
      outline.entriesAt nextLeaf = found outline operation.key [nextLeaf] := by
  obtain ⟨stored, heightEq, lowEq⟩ := formed.linked current page nextLeaf here link
  obtain ⟨nextPage, nextHere⟩ := Option.isSome_iff_exists.mp stored
  obtain ⟨page', here', upTo⟩ := scans.inside
  cases here.symm.trans here'
  have keyLe : ((operation.key : WithTop K) : Edge K) ≤ outline.low nextLeaf := by
    rw [lowEq]
    exact WithBot.coe_le_coe.mpr upTo
  have proper := formed.proper nextLeaf nextPage nextHere
  refine ⟨⟨heightEq.trans scans.bottom, ⟨⟨page, here, link⟩, scans.chained⟩,
    ⟨nextPage, nextHere, WithBot.coe_le_coe.mp (keyLe.trans proper.le)⟩, ?_, ?_⟩, ?_⟩
  · obtain ⟨first, firstEq, above⟩ := scans.start
    exact ⟨first, by rw [getLast?_cons_cons, firstEq], above⟩
  · rw [found_cons]
    exact append_ne_nil_of_left_ne_nil scans.filled _
  · rw [found_singleton]
    symm
    apply filter_eq_self.mpr
    intro entry listed
    rw [Outline.entriesAt, nextHere] at listed
    have above := ((formed.ordered nextLeaf nextPage nextHere).of_entry listed).2.1
    exact decide_eq_true (WithTop.coe_le_coe.mp (WithBot.coe_le_coe.mp (keyLe.trans above.le)))

variable [Inhabited K] [Inhabited V]

theorem Sound.latch_step (sound : Sound params outline state)
    (moves : move params state.tree (state.phases thread) = .latch ptr mode next)
    (taken : state.latch thread ptr mode next = some state') :
    Sound params outline state' ∧ next.status = (state.phases thread).status := by
  have knows := sound.knows thread
  cases phase : state.phases thread with
  | entering =>
    rw [phase] at moves knows
    cases moves
    have isPublic := knows
    obtain ⟨height, onWay, _⟩ := isPublic
    exact ⟨sound.latch taken phase (.inl onWay.isPublic) (by simp [Phase.held])
      (by simp [Phase.held]) rfl rfl rfl knows, rfl⟩
  | arriving | coupling =>
    rw [phase] at moves knows
    cases moves
    exact ⟨sound.latch taken phase (.inl knows.1.isPublic) (by simp [Phase.held])
      (by simp [Phase.held]) rfl rfl rfl knows, rfl⟩
  | scanNext operation scanStack nextLeaf scanned kvPairs =>
    rw [phase] at moves knows
    obtain ⟨rfl, rfl, rfl⟩ := Move.latch.inj moves
    obtain ⟨current, rest, rfl, scans, gathers, isPublic, page, here, link⟩ := knows
    obtain ⟨scansNext, entriesEq⟩ := scans.extend sound.wellFormed here link
    have nodup := sound.wellFormed.chain_nodup scansNext.chained
    refine ⟨sound.latch taken phase (.inl isPublic) ?_ ?_ rfl rfl rfl
      ⟨nextLeaf, current :: rest, rfl, scansNext, gathers, Nat.zero_le _, entriesEq⟩, rfl⟩
    · intro listed
      obtain ⟨other, otherListed, same⟩ := mem_map.mp listed
      cases same
      exact (nodup_cons.mp nodup).1 otherListed
    · intro item
      rw [Phase.held, Phase.held, map_cons, mem_cons, or_comm]
  | raising climber work =>
    rw [phase] at moves knows
    obtain ⟨rfl, rfl, rfl⟩ := Move.latch.inj moves
    have reached : (state.view outline).Public work ∨
        work ∈ (Phase.raising climber work : Phase K V).secrets state.tree.root := by
      obtain ⟨_, _, _, isPublic | sprouts⟩ := knows
      · exact .inl isPublic
      · right
        have isRoot : climber.current = state.tree.root := sprouts.root_eq
        rw [Phase.secrets, if_pos isRoot]
        exact mem_cons_of_mem _ mem_cons_self
    exact ⟨sound.latch taken phase reached (by simp [Phase.held]) (by simp [Phase.held]) rfl rfl rfl
      knows, rfl⟩
  | slidingOn =>
    rw [phase] at moves knows
    cases moves
    have isPublic := knows
    obtain ⟨⟨_, _, _, isPublic, _⟩, _⟩ := isPublic
    exact ⟨sound.latch taken phase (.inl isPublic) (by simp [Phase.held])
      (by simp [Phase.held, or_assoc]) rfl rfl rfl knows, rfl⟩
  | finishing answer mode' latched =>
    rw [phase] at moves
    cases latched <;> cases moves
  | _ =>
    rw [phase] at moves
    cases moves

omit [Inhabited K] [Inhabited V] in
theorem Sound.part (sound : Sound params outline state) {climber : Climb K} {work : Ptr}
    (phase : state.phases thread = .parting climber work) :
    Sound params outline
    (state.unlatch thread climber.current .exclusive (.joining climber work)):= by
  have knows := sound.knows thread
  rw [phase] at knows
  obtain ⟨⟨height, ascends, covers, isPublic, notRoot⟩, page, here, wide, keyUpTo⟩ := knows
  obtain ⟨left, right, hereLeft, _, hereRight, _, _, heightRight, lowRight, proper⟩ :=
    ascends.toSplit.exists_pages sound.wellFormed
  obtain ⟨_, hereLeft', leftEq⟩ := ascends.leftMax
  cases hereLeft.symm.trans hereLeft'
  have heightLeft : outline.height climber.current = height := ascends.height_eq
  have upper : outline.height work = height + 1 := covers.height_eq
  have different : work ≠ climber.current := by
    rintro rfl
    omega
  have secret : climber.newNode ∈ (state.phases thread).secrets state.tree.root := by
    rw [phase]
    exact mem_cons_self
  refine sound.unlatch phase mem_cons_self ?_
    (fun other listed => absurd listed not_mem_nil) ?_ rfl (fun _ _ growing => growing) ?_
  · intro item
    simp only [Phase.held, mem_cons, not_mem_nil, or_false]
    constructor
    · rintro rfl
      exact ⟨.inr rfl, fun same => different (Prod.mk.inj same).1⟩
    · rintro ⟨same | same, notSame⟩
      · exact absurd same notSame
      · exact same
  · intro other listed
    obtain rfl := mem_singleton.mp listed
    right
    have below := (sound.top climber.current ascends.isPublic).resolve_left notRoot
    have newHeight : outline.height climber.newNode = height := heightRight
    omega
  · have evolves : (state.view outline).Evolves
        ((state.unlatch thread climber.current .exclusive (.joining climber work)).view outline)
          [] :=
      evolves_unlatch (fun other listed => absurd listed not_mem_nil) []
    refine ⟨height, ⟨⟨evolves.isPublic _ isPublic, upper, ?_⟩, evolves.trail ascends.trail,
      evolves.isPublic _ ascends.isPublic, heightLeft, ⟨?_, fun anyone listed => ?_⟩, heightRight,
        ?_, ?_,
      ⟨page, here, wide, keyUpTo⟩, ascends.grounded⟩⟩
    · exact lt_of_le_of_lt covers.low_le ascends.above
    · exact sound.claimed thread _ _ (mem_claims_of_secret secret)
    · by_cases same : anyone = thread
      · rw [same, State.unlatch_self] at listed
        cases listed
      · rw [State.unlatch_of_ne same] at listed
        exact same (sound.exclusive anyone thread _ _ (mem_claims_of_secret listed)
          (mem_claims_of_secret secret))
    · exact lowRight.trans (congrArg WithBot.some leftEq)
    · refine lt_of_le_of_lt covers.low_le ?_
      rw [← leftEq]
      exact proper

theorem Sound.unlatch_step (sound : Sound params outline state)
    (moves : move params state.tree (state.phases thread) = .unlatch ptr mode next) :
    Sound params outline (state.unlatch thread ptr mode next) ∧
      next.status = (state.phases thread).status := by
  have knows := sound.knows thread
  -- a link leads to a page that starts further right
  have linkNe : ∀ {current work page}, outline.page current = some page → page.link = some work →
      work ≠ current := by
    rintro current work page here link rfl
    obtain ⟨_, _, lowEq⟩ := sound.wellFormed.linked work page work here link
    have proper := sound.wellFormed.proper work page here
    rw [← lowEq] at proper
    exact lt_irrefl _ proper
  cases phase : state.phases thread with
  | leaving =>
    rw [phase] at moves knows
    cases moves
    exact ⟨sound.release phase (by simp [Phase.held]) (by simp [Phase.held]) rfl rfl
      (by simp [Phase.grows]) knows, rfl⟩
  | coupled key value stack current work =>
    rw [phase] at moves knows
    cases moves
    obtain ⟨onWay, trail, page, here, link⟩ := knows
    have different := linkNe here link
    refine ⟨sound.release phase (by simp [Phase.held]) ?_ rfl rfl (by simp [Phase.grows])
      ⟨onWay, trail⟩, rfl⟩
    intro item
    simp only [Phase.held, Operation.mode, mem_cons, not_mem_nil, or_false]
    constructor
    · rintro rfl
      exact ⟨.inr rfl, fun same => different (Prod.mk.inj same).1⟩
    · rintro ⟨same | same, notSame⟩
      · exact absurd same notSame
      · exact same
  | hopping =>
    rw [phase] at moves knows
    cases moves
    exact ⟨sound.release phase (by simp [Phase.held]) (by simp [Phase.held]) rfl rfl
      (by simp [Phase.grows]) ⟨knows, trivial⟩, rfl⟩
  | slidOn climber work siblingNode =>
    rw [phase] at moves knows
    obtain ⟨rfl, rfl, rfl⟩ := Move.unlatch.inj moves
    obtain ⟨slides, page, here, link⟩ := knows
    have different := linkNe here link
    have notCurrent : climber.current ≠ work := by
      obtain ⟨height, ascends, covers, _⟩ := slides
      obtain ⟨_, heightEq, _⟩ := sound.wellFormed.linked work page siblingNode here link
      have upper : outline.height siblingNode = height + 1 := covers.height_eq
      have heightLeft : outline.height climber.current = height := ascends.height_eq
      intro same
      rw [same] at heightLeft
      omega
    refine ⟨sound.release phase (by simp [Phase.held]) ?_ rfl rfl (by simp [Phase.grows]) slides,
      rfl⟩
    intro item
    simp only [Phase.held, mem_cons, not_mem_nil, or_false]
    constructor
    · rintro (rfl | rfl)
      · exact ⟨.inl rfl, fun same => notCurrent (Prod.mk.inj same).1⟩
      · exact ⟨.inr (.inr rfl), fun same => different (Prod.mk.inj same).1⟩
    · rintro ⟨same | same | same, notSame⟩
      · exact .inl same
      · exact absurd same notSame
      · exact .inr same
  | parting climber work =>
    rw [phase] at moves
    cases moves
    exact ⟨sound.part phase, rfl⟩
  | finishing answer mode' latched =>
    rw [phase] at moves knows
    cases latched with
    | nil => cases moves
    | cons first rest =>
      cases moves
      obtain ⟨notListed, nodup⟩ := nodup_cons.mp knows
      refine ⟨sound.release phase (by simp [Phase.held]) ?_ rfl rfl (by simp [Phase.grows]) nodup,
        rfl⟩
      intro item
      rw [Phase.held, Phase.held, map_cons, mem_cons]
      constructor
      · intro listed
        refine ⟨.inr listed, ?_⟩
        rintro rfl
        obtain ⟨other, otherListed, same⟩ := mem_map.mp listed
        cases same
        exact notListed otherListed
      · rintro ⟨same | listed, notSame⟩
        · exact absurd same notSame
        · exact listed
  | _ =>
    rw [phase] at moves
    cases moves

end IndexResearch.BLinkTree
