import IndexResearch.BLinkTree.Threads.Leaves

/-!
# The ascent among other threads

A thread that has split a node posts the new node to the level above.  Other threads may
have split the node of the level above in the meantime; then the thread goes to the right
until it is at the node that the new node belongs to.
-/

namespace IndexResearch.BLinkTree

open LinkedPages List

variable {Thread K V : Type} [LinearOrder K] {params : Parameters} {outline : Outline Ptr K V}
  {state : State Thread K V} {thread : Thread} {map : OrderedMap K V} {current newNode work : Ptr}
  {key : K} {height : Nat} {page : Page Ptr K V}

/-! ## The two parts of a split -/

namespace View.Split

variable {view : View K V}

theorem exists_pages (split : view.Split key height current newNode)
    (formed : view.outline.WellFormed) :
    ∃ left right, view.outline.page current = some left ∧ left.link = some newNode ∧
      view.outline.page newNode = some right ∧ right.bounds ≠ [] ∧ (key : WithTop K) ≤ right.bound ∧
      view.outline.height newNode = height ∧ view.outline.low newNode = left.bound ∧
      view.outline.low current < left.bound := by
  obtain ⟨left, hereLeft, link⟩ := split.left
  obtain ⟨right, hereRight, filled, upTo⟩ := split.right
  obtain ⟨_, heightEq, lowEq⟩ := formed.linked current left newNode hereLeft link
  exact ⟨left, right, hereLeft, link, hereRight, filled, upTo, heightEq.trans split.height_eq,
    lowEq, formed.proper current left hereLeft⟩

theorem ne (split : view.Split key height current newNode) (formed : view.outline.WellFormed) :
    current ≠ newNode := by
  obtain ⟨left, _, _, _, _, _, _, _, lowEq, proper⟩ := split.exists_pages formed
  rintro rfl
  rw [lowEq] at proper
  exact lt_irrefl _ proper

end View.Split

/-- A node of the level above that starts before a place of the new node starts before the
old node, since nothing leads to the new node yet. -/
theorem Sound.low_le_of_split (sound : Sound params outline state)
    (split : (state.view outline).Split key height current newNode)
    (pending : (state.phases thread).pending = some newNode) {right : Page Ptr K V}
    (hereRight : outline.page newNode = some right) (here : outline.page work = some page)
    (upper : outline.height work = height + 1) {place : Edge K} (above : outline.low work < place)
    (upTo : place ≤ right.bound) : outline.low work ≤ outline.low current := by
  by_contra behind
  have behind := lt_of_not_ge behind
  obtain ⟨cell, listed, childStored, childHeight, childLow⟩ :=
    (sound.wellFormed.ordered work page here).exists_child upper (ne_bot_of_gt behind)
  obtain ⟨child, childHere⟩ := Option.isSome_iff_exists.mp childStored
  obtain ⟨left, right', hereLeft, _, hereRight', _, _, heightRight, lowRight, _⟩ :=
    split.exists_pages sound.wellFormed
  cases hereRight.symm.trans hereRight'
  have properChild := sound.wellFormed.proper _ _ childHere
  rw [← childLow] at behind above
  have heightLeft : outline.height current = height := split.height_eq
  have notCurrent : current ≠ cell.2 := by
    rintro rfl
    exact lt_irrefl _ behind
  have notNew : newNode ≠ cell.2 := by
    rintro rfl
    exact sound.unposted thread work page here cell listed pending
  -- the first child starts behind the old node, and then behind the start of the new one
  have afterLeft : (left.bound : Edge K) ≤ outline.low cell.2 := by
    rcases sound.wellFormed.apart _ _ _ _ hereLeft childHere notCurrent
      (heightLeft.trans childHeight.symm) with before | after
    · exact before
    · exact absurd (lt_of_lt_of_le properChild after) (lt_asymm behind)
  rcases sound.wellFormed.apart _ _ _ _ hereRight childHere notNew
    (heightRight.trans childHeight.symm) with before | after
  · exact absurd (lt_of_lt_of_le above (upTo.trans before)) (lt_irrefl _)
  · have lowRight' : outline.low newNode = (left.bound : Edge K) := lowRight
    rw [lowRight'] at after
    exact absurd (lt_of_lt_of_le properChild (after.trans afterLeft)) (lt_irrefl _)

theorem Sound.no_higher (sound : Sound params outline state)
    (held : (state.tree.root, .exclusive) ∈ (state.phases thread).held)
    (low_ne : ∀ ptr ∈ (state.phases thread).secrets state.tree.root, outline.low ptr ≠ ⊥) :
    ∀ other found, outline.page other = some found →
      outline.height other ≠ outline.height state.tree.root + 1 := by
  intro other found there higher
  by_cases isPublic : (state.view outline).Public other
  · rcases sound.top other isPublic with isRoot | lower
    · rw [isRoot] at higher
      omega
    · omega
  · have hidden : ∃ anyone, other ∈ (state.phases anyone).secrets state.tree.root := by
      by_contra none
      exact isPublic ⟨by rw [there]; rfl, fun anyone secret => none ⟨anyone, secret⟩⟩
    obtain ⟨anyone, secret⟩ := hidden
    rcases (sound.knows anyone).of_secret sound.rootLow secret with
      ⟨_, _, left, split, _⟩ | ⟨low, _, held'⟩
    · obtain ⟨_, _, _, _, _, _, _, heightEq, _⟩ := split.exists_pages sound.wellFormed
      have leftHeight : outline.height left = outline.height other :=
        split.height_eq.trans heightEq.symm
      rcases sound.top left split.isPublic with isRoot | lower
      · rw [isRoot] at leftHeight
        omega
      · omega
    · obtain rfl := sound.exclusive anyone thread _ _ (mem_claims_of_held held')
        (mem_claims_of_held held)
      exact low_ne other secret low

omit [LinearOrder K] in
theorem BLinkNode.Shows.withUpper {node : BLinkNode K V} (shows_ : node.Shows params page)
    (upper : Ptr) : { node with upperLevel := upper }.Shows params page := by
  cases shows_ with
  | leaf embodies => exact .leaf { embodies with }
  | inner isBranch => exact .inner { isBranch with }
  | seed isInner => exact .seed { isInner with }

section Steps

variable [DecidableEq Thread] {stack : List Ptr} {climber : Climb K}
variable (sound : Sound params outline state) (holds : outline.Holds map)
include sound holds

theorem slide_proceeds (phase : state.phases thread = .sliding climber work) :
    Proceeds params map state thread (do
      let phase ← slide state.tree climber work
      return (state.tree, phase)) := by
  have knows := sound.knows thread
  rw [phase] at knows
  obtain ⟨height, ascends, covers, isPublic, notRoot⟩ := knows
  obtain ⟨page, here⟩ := Option.isSome_iff_exists.mp isPublic.1
  change outline.page work = some page at here
  obtain ⟨node, nodeEq, _, shows_, ordered⟩ := sound.exists_node here
  have before := shows_.isBefore_eq ordered climber.rightMaxKey
  have upper : outline.height work = height + 1 := covers.height_eq
  have pending : (state.phases thread).pending = some climber.newNode := by
    rw [phase]
    rfl
  have held : (work, Mode.exclusive) ∈ (state.phases thread).held := by
    rw [phase]
    exact mem_cons_of_mem _ mem_cons_self
  obtain ⟨left, right, hereLeft, _, hereRight, _, keyUpTo, heightRight, lowRight, proper⟩ :=
    ascends.toSplit.exists_pages sound.wellFormed
  obtain ⟨_, hereRight', rightListed, _⟩ := ascends.rightMax
  cases hereRight.symm.trans hereRight'
  obtain ⟨_, hereLeft', leftEq⟩ := ascends.leftMax
  cases hereLeft.symm.trans hereLeft'
  have orderedRight := sound.wellFormed.ordered climber.newNode right hereRight
  -- a sibling that starts within the new node is above the old node too
  have sibling : ∀ {next place}, page.link = some next → (page.bound : Edge K) < place →
      place ≤ right.bound → outline.height next = height + 1 ∧
        outline.low next ≤ outline.low climber.current := by
    intro next place link less upTo
    obtain ⟨nextStored, nextHeight, nextLow⟩ := sound.wellFormed.linked work page next here link
    obtain ⟨nextPage, nextHere⟩ := Option.isSome_iff_exists.mp nextStored
    refine ⟨nextHeight.trans upper, sound.low_le_of_split ascends.toSplit pending hereRight nextHere
      (nextHeight.trans upper) ?_ upTo⟩
    rwa [nextLow]
  by_cases beyond : page.bound < (climber.rightMaxKey : WithTop K)
  · rcases shows_.link_cases with ⟨link, _⟩ | ⟨link, _⟩
    · rw [Page.bound_of_link_none link] at beyond
      exact absurd beyond not_top_lt
    · obtain ⟨nextHeight, nextLow⟩ := sibling link (WithBot.coe_lt_coe.mpr beyond)
        (WithBot.coe_le_coe.mpr (orderedRight.le_bound rightListed))
      have nextPublic := sound.link_public here link (mem_claims_of_held held) (by
        rw [phase]
        intro secret
        have same := mem_singleton.mp secret
        rw [same] at nextHeight
        have newHeight : outline.height climber.newNode = height := heightRight
        omega)
      refine ⟨state.tree, .slidingOn climber work node.siblingPtr, outline, map, ?_, ?_, holds, ?_⟩
      · rw [slide, nodeEq]
        simp only [ok_bind, before, decide_eq_true beyond, if_true]
        rfl
      · refine sound.goTo phase rfl rfl (fun _ => id) ?_
          ⟨⟨height, ascends, ⟨nextPublic.1, nextHeight, nextLow⟩, nextPublic, notRoot⟩, page, here,
            link⟩
        intro _ ptr _ growing seed
        cases growing
        cases here.symm.trans seed
        have last := ordered.bound_mem link
        cases last
      · rw [phase]
        exact .rest
  · have upTo : (climber.rightMaxKey : WithTop K) ≤ page.bound := le_of_not_gt beyond
    have leftLess : (climber.leftMaxKey : WithTop K) < climber.rightMaxKey := by
      have above := orderedRight.above rightListed
      have lowRight' : outline.low climber.newNode = (left.bound : Edge K) := lowRight
      rw [lowRight', leftEq] at above
      exact WithBot.coe_lt_coe.mp above
    have leftUpTo := lt_of_lt_of_le leftLess upTo
    refine ⟨state.tree, .parting climber work, outline, map, ?_, ?_, holds, ?_⟩
    · rw [slide, nodeEq]
      simp only [ok_bind, before, decide_eq_false beyond, Bool.false_eq_true, if_false]
      rfl
    · refine sound.goTo phase rfl rfl (fun _ => id) (fun _ _ _ growing _ => growing)
        ⟨⟨height, ascends, covers, isPublic, notRoot⟩, page, here, leftUpTo, ?_⟩
      -- otherwise the sibling would be above the old node, which ends before it starts
      by_contra short
      have short := lt_of_not_ge short
      rcases shows_.link_cases with ⟨link, _⟩ | ⟨link, _⟩
      · rw [Page.bound_of_link_none link] at short
        exact absurd short not_top_lt
      · obtain ⟨_, nextLow⟩ := sibling link (WithBot.coe_lt_coe.mpr short)
          (WithBot.coe_le_coe.mpr keyUpTo)
        obtain ⟨_, _, lowEq⟩ := sound.wellFormed.linked work page _ here link
        rw [lowEq] at nextLow
        have proper' : outline.low climber.current < (left.bound : Edge K) := proper
        rw [leftEq] at proper'
        exact absurd (lt_trans (lt_of_le_of_lt nextLow proper') (WithBot.coe_lt_coe.mpr leftUpTo))
          (lt_irrefl _)
    · rw [phase]
      exact .rest

theorem setRoot_proceeds (phase : state.phases thread = .raised climber work) :
    Proceeds params map state thread
    (.ok (setRoot state.tree climber work, .sliding climber work)):= by
  have knows := sound.knows thread
  rw [phase] at knows
  obtain ⟨height, ascends, covers, isNew⟩ := knows
  have upper : outline.height work = height + 1 := covers.height_eq
  have heightLeft : outline.height climber.current = height := ascends.height_eq
  by_cases isRoot : climber.current = state.tree.root
  · have secrets : (state.phases thread).secrets state.tree.root = [climber.newNode, work] := by
      rw [phase, Phase.secrets, if_pos isRoot]
    have heldRoot : (state.tree.root, Mode.exclusive) ∈ (state.phases thread).held := by
      rw [phase, ← isRoot]
      exact mem_cons_self
    have claimRoot := mem_claims_of_held heldRoot
    have claimWork : (work, Mode.exclusive) ∈ state.claims thread :=
      mem_claims_of_secret (by rw [secrets]; simp)
    have sprouts : (state.view outline).Sprouts climber work := by
      rcases isNew with isPublic | sprouts
      · exact absurd (by rw [secrets]; simp) (isPublic.2 thread)
      · exact sprouts
    have lowWork : outline.low work = ⊥ := by
      have lowLe : outline.low work ≤ outline.low climber.current := covers.low_le
      rw [isRoot, sound.rootLow] at lowLe
      exact le_bot_iff.mp lowLe
    obtain ⟨left, right, hereLeft, linkLeft, hereRight, _, _, heightRight, lowRight, _⟩ :=
      ascends.toSplit.exists_pages sound.wellFormed
    have workNe : work ≠ climber.newNode := by
      rintro rfl
      have newHeight : outline.height climber.newNode = height := heightRight
      omega
    have own : (state.goTo thread (.sliding climber work)).phases thread = .sliding climber work :=
      State.goTo_self
    have acts : Acts outline outline state { state.goTo thread (.sliding climber work) with
        tree := { state.tree with root := work } } thread := by
      refine ⟨⟨fun _ => id, fun _ _ => rfl, fun _ _ => rfl, fun _ => id⟩, fun other =>
        State.goTo_of_ne, fun _ _ _ => ⟨rfl, rfl⟩, ?_, .inr ⟨claimRoot, claimWork⟩⟩
      intro ptr secret
      rw [own] at secret
      rw [secrets, mem_singleton.mp secret]
      exact .inl mem_cons_self
    have workPublic : (State.view outline { state.goTo thread (.sliding climber work) with
        tree := { state.tree with root := work } }).Public work := by
      refine ⟨covers.isStored, fun anyone secret => ?_⟩
      by_cases same : anyone = thread
      · rw [same, own] at secret
        exact workNe (mem_singleton.mp secret)
      · rw [acts.others anyone same, acts.secrets_eq sound same] at secret
        exact same (sound.exclusive anyone thread work _ (mem_claims_of_secret secret) claimWork)
    have rootHeight : outline.height state.tree.root = height := by rw [← isRoot, heightLeft]
    refine ⟨{ state.tree with root := work }, .sliding climber work, outline, map, ?_, ?_, holds,
      ?_⟩
    · rw [setRoot, if_pos isRoot]
    · refine sound.of_acts acts ⟨workPublic, lowWork, ?_, ?_⟩ sound.wellFormed
        ⟨sound.draws.shown, sound.draws.allocated, sound.draws.fresh_ne⟩ ?_ ?_ ?_ ?_ ?_ ?_
      · -- the old root is below the new one
        intro ptr isPublic
        by_cases isWork : ptr = work
        · exact .inl isWork
        · right
          have before : (state.view outline).Public ptr := by
            refine acts.public_before sound isPublic isPublic.1 fun secret => ?_
            have hidden := isPublic.2 thread
            rw [own] at hidden
            rw [secrets, mem_cons, mem_singleton] at secret
            rcases secret with rfl | rfl
            · exact hidden mem_cons_self
            · exact isWork rfl
          change outline.height ptr < outline.height work
          rcases sound.top ptr before with same | lower
          · rw [same]
            omega
          · omega
      · intro ptr stored lower
        change outline.height ptr < outline.height work at lower
        by_cases below : outline.height ptr < outline.height state.tree.root
        · obtain ⟨isPublic, facts⟩ := sound.upper ptr stored below
          exact ⟨acts.isPublic sound isPublic, facts⟩
        · -- the old root and its new neighbour
          have heightEq : outline.height ptr = height := by omega
          have upperEq : (state.view outline).upper ptr = work := by
            by_cases isPublic : (state.view outline).Public ptr
            · rcases sound.top ptr isPublic with same | less
              · rw [same, ← isRoot]
                exact sprouts.upperLeft
              · omega
            · have hidden : ∃ anyone, ptr ∈ (state.phases anyone).secrets state.tree.root := by
                by_contra none
                exact isPublic ⟨stored, fun anyone secret => none ⟨anyone, secret⟩⟩
              obtain ⟨anyone, secret⟩ := hidden
              rcases (sound.knows anyone).of_secret sound.rootLow secret with
                ⟨_, _, other, split, held⟩ | ⟨_, higher, _⟩
              · obtain ⟨page, _, here, link, _, _, _, sameHeight, _⟩ :=
                  split.exists_pages sound.wellFormed
                have otherHeight : outline.height other = outline.height ptr :=
                  split.height_eq.trans sameHeight.symm
                rcases sound.top other split.isPublic with same | less
                · rw [same, ← isRoot] at here
                  cases hereLeft.symm.trans here
                  cases linkLeft.symm.trans link
                  exact sprouts.upperRight
                · omega
              · change outline.height ptr = outline.height state.tree.root + 1 at higher
                omega
          change (State.view outline _).Public ((state.view outline).upper ptr) ∧
            outline.height ((state.view outline).upper ptr) = _ ∧
            outline.low ((state.view outline).upper ptr) = _
          rw [upperEq]
          exact ⟨workPublic, by omega, lowWork⟩
      · exact State.latched_goTo sound.latched (by rw [phase]; rfl)
      · intro ptr mode claimed
        have before : (ptr, mode) ∈ state.claims thread := by
          rw [State.claims, own] at claimed
          rcases mem_append.mp claimed with held | secret
          · refine mem_claims_of_held ?_
            rw [phase]
            exact held
          · obtain ⟨rfl, rfl⟩ := Prod.mk.inj (mem_singleton.mp secret)
            exact mem_claims_of_secret (by rw [secrets]; exact mem_cons_self)
        exact ⟨sound.claimed thread ptr mode before,
          fun other mode' notSame claim' => sound.shared_of_both notSame before claim'⟩
      · intro ptr isPending
        rw [own] at isPending
        rw [phase]
        exact .inl isPending
      · intro name page stored cell listed
        refine ⟨.inl ⟨name, page, stored, cell, listed, rfl⟩, fun isPending => ?_⟩
        rw [own] at isPending
        refine sound.unposted thread name page stored cell listed ?_
        rw [phase]
        exact isPending
      · intro ptr link stored
        refine .inl ⟨stored, fun current growing => ?_⟩
        rw [phase, Phase.grows, if_pos isRoot] at growing
        rw [own]
        exact growing
      · rw [own]
        have evolves := acts.evolves_own sound
        refine ⟨height, evolves.ascends_of_pages ascends rfl rfl,
          evolves.covers covers ascends.isPublic, workPublic, ?_⟩
        intro same
        have same : climber.current = work := same
        rw [same] at heightLeft
        omega
    · rw [phase]
      exact .rest
  · have secrets : (Phase.raised climber work : Phase K V).secrets state.tree.root =
      [climber.newNode] := by
      rw [Phase.secrets, if_neg isRoot]
    refine ⟨state.tree, .sliding climber work, outline, map, ?_, ?_, holds, ?_⟩
    · rw [setRoot, if_neg isRoot]
    · refine sound.goTo phase rfl secrets.symm
        (fun _ => id) ?_ ⟨height, ascends, covers, ?_, isRoot⟩
      · intro _ _ _ growing
        rw [Phase.grows, if_neg isRoot] at growing
        cases growing
      · rcases isNew with isPublic | sprouts
        · exact isPublic
        · exact absurd sprouts.root_eq isRoot
    · rw [phase]
      exact .rest

end Steps

end IndexResearch.BLinkTree
