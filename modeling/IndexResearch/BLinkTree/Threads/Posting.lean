import IndexResearch.BLinkTree.Threads.Ascent

/-!
# New nodes are posted

The level above gets a cell for the new node, or a new level is made if the root was split.
-/

namespace IndexResearch.BLinkTree

open LinkedPages List

variable {Thread K V : Type} [LinearOrder K] {params : Parameters} {outline : Outline Ptr K V}
  {state : State Thread K V} {thread : Thread} {map : OrderedMap K V} {current newNode work : Ptr}
  {key : K} {height : Nat}

omit [LinearOrder K] in
theorem inner_bound_congr {cells cells' : List (WithTop K × Ptr)} {link : Option Ptr}
    (same : cells'.getLast?.map Prod.fst = cells.getLast?.map Prod.fst) :
    Page.bound (.inner cells' link : Page Ptr K V) = Page.bound
    (.inner cells link : Page Ptr K V):= by
  cases link with
  | none => rfl
  | some next => simp only [Page.bound, Page.link, Page.bounds, getLast?_map, same]

omit [LinearOrder K] in
theorem getLast?_widen {left right : List (WithTop K × Ptr)} {bound : WithTop K} {child : Ptr}
    (first : WithTop K × Ptr) (new : Ptr) :
    (left ++ first :: (bound, new) :: right).getLast?.map Prod.fst =
      (left ++ (bound, child) :: right).getLast?.map Prod.fst := by
  rw [getLast?_append_of_ne_nil _ (by simp), getLast?_append_of_ne_nil _ (by simp),
    getLast?_cons_cons]
  cases right with
  | nil => rfl
  | cons cell rest => rw [getLast?_cons_cons, getLast?_cons_cons]

omit [LinearOrder K] in
theorem Outline.Holds.iff_of_inner {cells cells' : List (WithTop K × Ptr)} {link link' : Option Ptr}
    {entries : List (K × V)} (entry : K × V) : entry ∈ entries ↔
      entry ∈ Page.entries (.inner cells link : Page Ptr K V) ∨
        (entry ∈ entries ∧ entry ∉ Page.entries (.inner cells' link' : Page Ptr K V)) := by
  simp [Page.entries]

omit [LinearOrder K] in
theorem hasOnly_joining {climber : Climb K} (phase : state.phases thread = .joining climber work) :
    HasOnly state thread work := by
  refine ⟨by rw [phase]; rfl, by rw [phase]; rfl, fun _ _ growing => ?_⟩
  rw [phase] at growing
  cases growing
  rfl

section Steps

variable [DecidableEq Thread] [Inhabited K] [Inhabited V] {stack : List Ptr} {climber : Climb K}
variable (sound : Sound params outline state) (holds : outline.Holds map)
include sound holds

omit holds in
theorem climb_root {rightMaxKey leftMaxKey : K} {left right : BLinkNode K V}
    (phase : state.phases thread = .climbing key stack current newNode)
    (isRoot : current = state.tree.root) (leftStored : state.tree.nodes current = some left)
    (rightStored : state.tree.nodes newNode = some right)
    (ascends : (state.view outline).Ascends ⟨key, stack, current, newNode, rightMaxKey, leftMaxKey⟩
      height) : ∃ tree, (do
        let tree := state.tree.allocate (.new params.innerNodeSize false)
        let tree ← tree.setUpperLevel current state.tree.fresh
        let tree ← tree.setUpperLevel newNode state.tree.fresh
        return { tree with treeDepth := tree.treeDepth + 1 }) = Except.ok tree ∧
      Sound params (outline.add state.tree.fresh (height + 1) ⊥ (.inner [] none))
        { state.goTo thread (.raising ⟨key, stack, current, newNode, rightMaxKey, leftMaxKey⟩
          state.tree.fresh) with tree := tree } := by
  have split := ascends.toSplit
  have fresh := sound.page_fresh
  obtain ⟨leftPage, rightPage, hereLeft, _, hereRight, _, _, heightRight, lowRight, _⟩ :=
    split.exists_pages sound.wellFormed
  change outline.page current = some leftPage at hereLeft
  change outline.page newNode = some rightPage at hereRight
  have different : current ≠ newNode := split.ne sound.wellFormed
  have storedLeft : (outline.page current).isSome := by rw [hereLeft]; rfl
  have storedRight : (outline.page newNode).isSome := by rw [hereRight]; rfl
  have notFresh : ∀ {other}, (outline.page other).isSome → other ≠ state.tree.fresh :=
    fun stored => Outline.ne_of_stored stored fresh
  have first : (state.tree.allocate (.new params.innerNodeSize false)).nodes current = some left :=
    (Tree.allocate_of_ne (notFresh storedLeft)).trans leftStored
  have second : ((state.tree.allocate (.new params.innerNodeSize false)).write current
      { left with upperLevel := state.tree.fresh }).nodes newNode = some right :=
    (Tree.write_of_ne (Ne.symm different)).trans
      ((Tree.allocate_of_ne (notFresh storedRight)).trans rightStored)
  have heldEq : (state.phases thread).held = [(current, .exclusive)] := by rw [phase]; rfl
  have secretsEq : (state.phases thread).secrets state.tree.root = [newNode] := by rw [phase]; rfl
  have claimLeft : (current, Mode.exclusive) ∈ state.claims thread :=
    mem_claims_of_held (by rw [heldEq]; exact mem_cons_self)
  have claimRight : (newNode, Mode.exclusive) ∈ state.claims thread :=
    mem_claims_of_secret (by rw [secretsEq]; exact mem_cons_self)
  have rootHeight : outline.height state.tree.root = height := by
    rw [← isRoot]
    exact split.height_eq
  have highest : ∀ other found, outline.page other = some found →
    outline.height other ≠ height + 1 := by
    rw [← rootHeight]
    have heldRoot : (state.tree.root, Mode.exclusive) ∈ (state.phases thread).held := by
      rw [heldEq, isRoot]
      exact mem_cons_self
    refine sound.no_higher heldRoot fun ptr secret => ?_
    rw [secretsEq] at secret
    rw [mem_singleton.mp secret]
    have lowRight : outline.low newNode = (leftPage.bound : Edge K) := lowRight
    rw [lowRight]
    exact WithBot.coe_ne_bot
  have extends_ : outline.Extends (outline.add state.tree.fresh (height + 1) ⊥ (.inner [] none)) :=
    Outline.extends_add fresh
  simp only [bind, Except.bind]
  rw [Tree.setUpperLevel_eq state.tree.fresh first]
  simp only
  rw [Tree.setUpperLevel_eq state.tree.fresh second]
  refine ⟨_, rfl, ?_⟩
  generalize after : (Phase.raising ⟨key, stack, current, newNode, rightMaxKey, leftMaxKey⟩
    state.tree.fresh : Phase K V) = next
  generalize treeEq : ({ (((state.tree.allocate (.new params.innerNodeSize false)).write current
    { left with upperLevel := state.tree.fresh }).write newNode
    { right with upperLevel := state.tree.fresh }) with treeDepth := _ } : Tree K V) = tree
  have own : (state.goTo thread next).phases thread = next := State.goTo_self
  have treeRoot : tree.root = state.tree.root := by rw [← treeEq]; rfl
  have treeFresh : tree.fresh = state.tree.fresh + 1 := by rw [← treeEq]; rfl
  have nodesRight : tree.nodes newNode = some { right with upperLevel := state.tree.fresh } := by
    rw [← treeEq]
    exact Tree.write_self
  have nodesLeft : tree.nodes current = some { left with upperLevel := state.tree.fresh } := by
    rw [← treeEq]
    exact (Tree.write_of_ne different).trans Tree.write_self
  have nodesOther : ∀ {other}, other ≠ newNode → other ≠ current → other ≠ state.tree.fresh →
      tree.nodes other = state.tree.nodes other := by
    intro other notRight notLeft notNew
    rw [← treeEq]
    exact (Tree.write_of_ne notRight).trans
      ((Tree.write_of_ne notLeft).trans (Tree.allocate_of_ne notNew))
  have nodesNew : tree.nodes state.tree.fresh = some (.new params.innerNodeSize false) := by
    rw [← treeEq]
    exact (Tree.write_of_ne (Ne.symm (notFresh storedRight))).trans
      ((Tree.write_of_ne (Ne.symm (notFresh storedLeft))).trans Tree.allocate_self)
  have nextSecrets : next.secrets state.tree.root = [newNode, state.tree.fresh] := by
    rw [← after, Phase.secrets, if_pos isRoot]
  have acts : Acts outline (outline.add state.tree.fresh (height + 1) ⊥ (.inner [] none)) state
      { state.goTo thread next with tree := tree } thread := by
    refine ⟨extends_, fun other => State.goTo_of_ne, ?_, ?_, .inl treeRoot⟩
    · intro other stored unclaimed
      refine ⟨(Outline.add_of_ne (notFresh stored)).1, ?_⟩
      change ((tree.nodes other).map _).getD _ = ((state.tree.nodes other).map _).getD _
      rw [nodesOther ?_ ?_ (notFresh stored)]
      · rintro rfl
        exact unclaimed claimRight
      · rintro rfl
        exact unclaimed claimLeft
    · intro ptr secret
      rw [own] at secret
      change ptr ∈ next.secrets tree.root at secret
      rw [treeRoot, nextSecrets, mem_cons, mem_singleton] at secret
      rcases secret with rfl | rfl
      · exact .inl (by rw [secretsEq]; exact mem_cons_self)
      · exact .inr fresh
  have storedCases : ∀ {other},
      ((outline.add state.tree.fresh (height + 1) ⊥ (.inner [] none)).page other).isSome →
      other ≠ state.tree.fresh → (outline.page other).isSome := by
    intro other stored notNew
    rwa [(Outline.add_of_ne notNew).1] at stored
  refine sound.of_acts acts ?_ (sound.wellFormed.sprout fresh highest) ?_ ?_ ?_ ?_ ?_ ?_ ?_
  · refine acts.rooted sound treeRoot ?_ ?_
    · intro other isPublic
      have hiddenOwn := isPublic.2 thread
      rw [own] at hiddenOwn
      change other ∉ next.secrets tree.root at hiddenOwn
      rw [treeRoot, nextSecrets, mem_cons, mem_singleton, not_or] at hiddenOwn
      exact .inl (acts.public_before sound isPublic (storedCases isPublic.1 hiddenOwn.2)
        (by rw [secretsEq, mem_singleton]; exact hiddenOwn.1))
    · intro other stored lower
      rw [rootHeight] at lower
      have notNew : other ≠ state.tree.fresh := by
        rintro rfl
        rw [Outline.add_self.2.1] at lower
        omega
      rw [(Outline.add_of_ne notNew).2.1] at lower ⊢
      refine ⟨other, storedCases stored notNew, rfl, ?_⟩
      change ((tree.nodes other).map _).getD _ = ((state.tree.nodes other).map _).getD _
      rw [nodesOther ?_ ?_ notNew]
      · rintro rfl
        have heightRight : outline.height other = height := heightRight
        omega
      · rintro rfl
        rw [isRoot] at lower
        omega
  · refine ⟨?_, ?_, ?_⟩
    · intro other found there
      rcases Outline.add_cases there with ⟨rfl, rfl⟩ | ⟨notNew, old⟩
      · exact ⟨_, nodesNew, .seed (BLinkNode.isInner_new params.innerPolicy)⟩
      · obtain ⟨node, stored, shows_⟩ := sound.draws.shown other found old
        by_cases isRight : other = newNode
        · subst isRight
          cases rightStored.symm.trans stored
          exact ⟨_, nodesRight, shows_.withUpper _⟩
        · by_cases isLeft : other = current
          · subst isLeft
            cases leftStored.symm.trans stored
            exact ⟨_, nodesLeft, shows_.withUpper _⟩
          · exact ⟨node, (nodesOther isRight isLeft notNew).trans stored, shows_⟩
    · intro other stored
      change other ≠ nullptr ∧ other < tree.fresh
      rw [treeFresh]
      by_cases isNew : other = state.tree.fresh
      · rw [isNew]
        exact ⟨sound.draws.fresh_ne, Nat.lt_succ_self _⟩
      · obtain ⟨notNull, inside⟩ := sound.draws.allocated other (storedCases stored isNew)
        exact ⟨notNull, Nat.lt_succ_of_lt inside⟩
    · change tree.fresh ≠ nullptr
      rw [treeFresh]
      exact Nat.succ_ne_zero _
  · exact State.latched_goTo sound.latched (by rw [heldEq, ← after]; rfl)
  · intro ptr mode claimed
    rw [State.claims, own, Phase.claims] at claimed
    change _ ∈ _ ++ (next.secrets tree.root).map _ at claimed
    rw [treeRoot, nextSecrets, ← after] at claimed
    rcases mem_cons.mp claimed with same | claimed
    · cases same
      exact ⟨extends_.stored _ storedLeft,
        fun anyone mode' notSame => sound.shared_of_both notSame claimLeft⟩
    · rcases mem_cons.mp claimed with same | claimed
      · cases same
        exact ⟨extends_.stored _ storedRight,
          fun anyone mode' notSame => sound.shared_of_both notSame claimRight⟩
      · obtain ⟨rfl, rfl⟩ := Prod.mk.inj (mem_singleton.mp claimed)
        refine ⟨by rw [Outline.add_self.1]; rfl, fun anyone mode' notSame claim' => ?_⟩
        exact absurd rfl (notFresh (sound.claimed anyone _ mode' claim'))
  · intro ptr isPending
    rw [own, ← after] at isPending
    rw [phase]
    exact .inl isPending
  · intro name found there cell listed
    rcases Outline.add_cases there with ⟨rfl, rfl⟩ | ⟨_, old⟩
    · cases listed
    · refine ⟨.inl ⟨name, found, old, cell, listed, rfl⟩, fun isPending => ?_⟩
      rw [own, ← after] at isPending
      refine sound.unposted thread name found old cell listed ?_
      rw [phase]
      exact isPending
  · intro ptr link there
    rcases Outline.add_cases there with ⟨rfl, _⟩ | ⟨_, old⟩
    · refine .inr ⟨current, ?_, extends_.stored _ storedLeft, ?_⟩
      · rw [own, ← after]
        change Phase.grows tree.root _ = _
        rw [treeRoot, Phase.grows, if_pos isRoot]
      · rw [extends_.low_eq _ storedLeft, isRoot]
        exact sound.rootLow
    · refine .inl ⟨old, fun _ growing => ?_⟩
      rw [phase] at growing
      cases growing
  · have evolves := acts.evolves_own sound
    have knows : Knows (State.view (outline.add state.tree.fresh (height + 1) ⊥ (.inner [] none))
        { state.goTo thread next with tree := tree })
        (.raising ⟨key, stack, current, newNode, rightMaxKey, leftMaxKey⟩ state.tree.fresh) := by
      refine ⟨height, evolves.ascends_of_pages ascends (Outline.add_of_ne (notFresh storedLeft)).1
        (Outline.add_of_ne (notFresh storedRight)).1, ⟨?_, Outline.add_self.2.1, ?_⟩,
          .inr ⟨?_, ?_, ?_⟩⟩
      · change ((outline.add _ _ _ _).page _).isSome
        rw [Outline.add_self.1]
        rfl
      · change (outline.add _ _ _ _).low _ ≤ _
        rw [Outline.add_self.2.2]
        exact bot_le
      · exact isRoot.trans treeRoot.symm
      · change ((tree.nodes current).map _).getD _ = _
        rw [nodesLeft]
        rfl
      · change ((tree.nodes newNode).map _).getD _ = _
        rw [nodesRight]
        rfl
    rw [own]
    exact after ▸ knows

theorem climb_proceeds (phase : state.phases thread = .climbing key stack current newNode) :
    Proceeds params map state thread (climb params state.tree key stack current newNode) := by
  have knows := sound.knows thread
  rw [phase] at knows
  obtain ⟨height, split, trail⟩ := knows
  obtain ⟨leftPage, rightPage, hereLeft, link, hereRight, filled, upTo, _, lowRight, _⟩ :=
    split.exists_pages sound.wellFormed
  obtain ⟨left, leftEq, leftStored, leftShows, leftOrdered⟩ := sound.exists_node hereLeft
  obtain ⟨right, rightEq, rightStored, rightShows, rightOrdered⟩ := sound.exists_node hereRight
  have leftFilled : leftPage.bounds ≠ [] := by
    intro empty
    have last := leftOrdered.bound_mem link
    rw [empty] at last
    cases last
  obtain ⟨leftMaxKey, leftMax, leftListed, leftBound⟩ :=
    leftShows.exists_maxKey leftOrdered leftFilled
  obtain ⟨rightMaxKey, rightMax, rightListed, rightBound⟩ :=
    rightShows.exists_maxKey rightOrdered filled
  have pending : (state.phases thread).pending = some newNode := by rw [phase]; rfl
  have ascends : ∀ {rest}, (state.view outline).Trail key (height + 1) rest →
      (state.view outline).Ascends ⟨key, rest, current, newNode, rightMaxKey, leftMaxKey⟩ height :=
    fun restTrail => ⟨split, restTrail, ⟨leftPage, hereLeft, leftBound (by rw [link]; simp)⟩,
      ⟨rightPage, hereRight, rightListed, rightBound⟩,
      sound.wellFormed.grounded current leftPage leftMaxKey hereLeft leftListed⟩
  by_cases isRoot : current = state.tree.root
  · -- nothing is above the root, so nothing is on the stack
    have restTrail : (state.view outline).Trail key (height + 1) stack := by
      cases stack with
      | nil => trivial
      | cons above rest =>
        obtain ⟨onWay, _⟩ := trail
        have aboveHeight : outline.height above = height + 1 := onWay.height_eq
        have rootHeight : outline.height state.tree.root = height := isRoot ▸ split.height_eq
        rcases sound.top above onWay.isPublic with same | lower
        · rw [same] at aboveHeight
          omega
        · omega
    obtain ⟨tree, treeEq, sound'⟩ := climb_root sound phase isRoot leftStored rightStored
      (ascends restTrail)
    refine ⟨tree, _, _, map, ?_, sound', holds.sprout sound.page_fresh rfl, ?_⟩
    · rw [climb, rightEq]
      simp only [bind, Except.bind, rightMax, leftEq, leftMax, if_pos isRoot] at treeEq ⊢
      split at treeEq
      · cases treeEq
      · split at treeEq
        · cases treeEq
        · cases treeEq
          rfl
    · rw [phase]
      exact .rest
  · have raises : ∀ {above rest}, climb params state.tree key stack current newNode =
        .ok (state.tree, .raising ⟨key, rest, current, newNode, rightMaxKey, leftMaxKey⟩ above) →
        (state.view outline).Trail key (height + 1) rest → (state.view outline).Public above →
        (state.view outline).Covers height current above →
        Proceeds params map state thread (climb params state.tree key stack current newNode) := by
      intro above rest returns restTrail isPublic covers
      have secrets : (Phase.raising ⟨key, rest, current, newNode, rightMaxKey, leftMaxKey⟩ above :
          Phase K V).secrets state.tree.root = [newNode] := by
        rw [Phase.secrets, if_neg isRoot]
      refine ⟨state.tree, _, outline, map, returns, sound.goTo phase rfl secrets (fun _ => id) ?_
        ⟨height, ascends restTrail, covers, .inl isPublic⟩, holds, ?_⟩
      · intro _ _ _ growing
        cases growing
      · rw [phase]
        exact .rest
    cases stack with
    | cons above rest =>
      obtain ⟨onWay, restTrail⟩ := trail
      obtain ⟨abovePage, aboveHere⟩ := Option.isSome_iff_exists.mp onWay.isPublic.1
      refine raises ?_ restTrail onWay.isPublic ⟨onWay.isPublic.1, onWay.height_eq,
        sound.low_le_of_split split pending hereRight aboveHere onWay.height_eq onWay.above
          (WithBot.coe_le_coe.mpr upTo)⟩
      rw [climb, rightEq]
      simp only [ok_bind, rightMax, leftEq, leftMax, if_neg isRoot]
      rfl
    | nil =>
      have below : outline.height current < outline.height state.tree.root :=
        (sound.top current split.isPublic).resolve_left isRoot
      obtain ⟨isPublic, upperHeight, upperLow⟩ := sound.upper current split.isPublic.1 below
      have upperEq : (state.view outline).upper current = left.upperLevel := by
        change ((state.tree.nodes current).map _).getD _ = _
        rw [leftStored]
        rfl
      rw [upperEq] at isPublic upperHeight upperLow
      refine @raises left.upperLevel [] ?_ trivial isPublic
        ⟨isPublic.1, upperHeight.trans (congrArg (· + 1) split.height_eq), ?_⟩
      · have notNull := (sound.draws.allocated _ isPublic.1).1
        rw [climb, rightEq]
        simp only [ok_bind, rightMax, leftEq, leftMax, if_neg isRoot,
          assert_eq (decide_eq_true notNull)]
        rfl
      · change outline.low left.upperLevel ≤ _
        rw [upperLow]
        exact bot_le

/-! ## `InnerInsert` on the level above -/

omit holds [DecidableEq Thread] [Inhabited K] [Inhabited V] in
theorem Sound.postable_new (phase : state.phases thread = .joining climber work)
    (isPublic : (state.view outline).Public climber.newNode) :
    Postable outline state thread climber.newNode := by
  refine .inr ⟨isPublic, fun other notSame isPending => notSame ?_⟩
  exact sound.pending_inj other thread _ isPending (by rw [phase]; rfl)

theorem join_seed {node : BLinkNode K V} (phase : state.phases thread = .joining climber work)
    (joins : (state.view outline).Joins climber work height)
    (here : outline.page work = some (.inner [] none)) (nodeEq : state.tree.nodeAt work = .ok node)
    (stored : state.tree.nodes work = some node)
    (isInner : node.IsInner params.innerNodeSize [] [] nullptr) :
    Proceeds params map state thread (join params state.tree climber work) := by
  have claim : (work, Mode.exclusive) ∈ state.claims thread :=
    mem_claims_of_held (by rw [phase]; exact mem_cons_self)
  have lowLeft : outline.low climber.current = ⊥ := by
    obtain ⟨anyone, current, growing, _, lowEq⟩ := sound.seeds work none here
    obtain rfl := sound.exclusive anyone thread work _ (Phase.claims_of_grows growing) claim
    rw [phase] at growing
    cases growing
    exact lowEq
  have upper : outline.height work = height + 1 := joins.onWay.height_eq
  have lowWork : outline.low work = ⊥ := by
    cases sound.wellFormed.ordered work _ here with
    | inner _ _ last => cases last
    | seed _ leftmost => exact leftmost
  obtain ⟨placed, placedEq, shows_⟩ :=
    isInner.innerInsert_seed state.tree.fresh climber.leftMaxKey climber.current climber.newNode
  have extends_ : outline.Extends (outline.set work
      (.inner [((climber.leftMaxKey : WithTop K), climber.current), (⊤, climber.newNode)] none)) :=
        by
    refine Outline.extends_set fun old oldStored entry listed => ?_
    cases here.symm.trans oldStored
    cases listed
  refine ⟨state.tree.write work placed, .finishing (.status true) .exclusive [work],
    outline.set work
      (.inner [((climber.leftMaxKey : WithTop K), climber.current), (⊤, climber.newNode)] none),
        map,
    ?_, ?_, holds.set sound.wellFormed here Outline.Holds.iff_of_inner, ?_⟩
  · rw [join, nodeEq]
    simp only [ok_bind, placedEq]
    rfl
  · refine sound.set (hasOnly_joining phase) here stored shows_
      (BLinkNode.innerInsert_keepsUpper placedEq).1 (.inner upper ?_ rfl) rfl rfl ?_ ?_
        (.inl (by simp [Page.bounds]))
      ?_ _
    · refine ⟨joins.isPublicLeft.1, joins.height_left, ?_, ?_, joins.isPublicRight.1,
        joins.height_right, joins.low_right, WithBot.coe_lt_coe.mpr (WithTop.coe_lt_top _), trivial⟩
      · rw [lowLeft, lowWork]
      · exact joins.above
    · exact fun entry listed => absurd listed not_mem_nil
    · intro key listed
      rcases mem_cons.mp listed with same | last
      · rw [WithTop.coe_injective same]
        exact extends_.grounded _ joins.grounded
      · cases mem_singleton.mp last
    · intro cell listed
      rcases mem_cons.mp listed with rfl | last
      · refine .inr ⟨joins.isPublicLeft, fun other _ isPending => ?_⟩
        exact ((sound.knows other).of_pending sound.wellFormed isPending).2 lowLeft
      · rw [mem_singleton.mp last]
        exact sound.postable_new phase joins.isPublicRight
  · rw [phase]
    exact .rest

omit holds [DecidableEq Thread] [Inhabited K] [Inhabited V] in
theorem Sound.lt_cell_bound {cells left right : List (WithTop K × Ptr)} {link : Option Ptr}
    {bound : WithTop K} {child : Ptr} (phase : state.phases thread = .joining climber work)
    (joins : (state.view outline).Joins climber work height)
    (here : outline.page work = some (.inner cells link))
    (hangs : outline.Hangs height (outline.low work) cells)
    (last : cells.getLast?.map Prod.fst = some (Page.bound (.inner cells link : Page Ptr K V)))
    (wide : (climber.leftMaxKey : WithTop K) < Page.bound (.inner cells link : Page Ptr K V))
    (cells_eq : cells = left ++ (bound, child) :: right)
    (upTo : (climber.leftMaxKey : WithTop K) ≤ bound) :
    (climber.leftMaxKey : WithTop K) < bound := by
  refine lt_of_le_of_ne upTo fun same => ?_
  rw [cells_eq, Outline.Hangs.append] at hangs
  cases right with
  | nil =>
    rw [cells_eq, getLast?_concat] at last
    have boundEq : bound = Page.bound (.inner cells link : Page Ptr K V) := by
      rw [cells_eq]
      exact Option.some.inj last
    rw [← boundEq, same] at wide
    exact lt_irrefl _ wide
  | cons next rest =>
    -- the next child would start where the new node starts
    obtain ⟨_, _, _, _, _, nextStored, nextHeight, nextLow, _⟩ := hangs
    obtain ⟨nextPage, nextHere⟩ := Option.isSome_iff_exists.mp nextStored
    obtain ⟨newPage, newHere⟩ := Option.isSome_iff_exists.mp joins.isPublicRight.1
    change outline.page climber.newNode = some newPage at newHere
    have newLow : outline.low climber.newNode = ((climber.leftMaxKey : WithTop K) : Edge K) :=
      joins.low_right
    have newHeight : outline.height climber.newNode = height := joins.height_right
    have sameLow : outline.low next.2 = outline.low climber.newNode := by rw [nextLow, newLow, same]
    have notNew : next.2 ≠ climber.newNode := by
      intro isNew
      refine sound.unposted thread work _ here next ?_ (by rw [phase, isNew]; rfl)
      change next ∈ cells
      rw [cells_eq]
      simp
    rcases sound.wellFormed.apart _ _ _ _ nextHere newHere notNew
      (nextHeight.trans newHeight.symm) with before | after
    · have proper := sound.wellFormed.proper _ _ nextHere
      rw [sameLow] at proper
      exact absurd (lt_of_lt_of_le proper before) (lt_irrefl _)
    · have proper := sound.wellFormed.proper _ _ newHere
      rw [← sameLow] at proper
      exact absurd (lt_of_lt_of_le proper after) (lt_irrefl _)

theorem join_proceeds (phase : state.phases thread = .joining climber work) :
    Proceeds params map state thread (join params state.tree climber work) := by
  have knows := sound.knows thread
  rw [phase] at knows
  obtain ⟨height, joins⟩ := knows
  obtain ⟨page, here, wide, keyUpTo⟩ := joins.wide
  change outline.page work = some page at here
  have upper : outline.height work = height + 1 := joins.onWay.height_eq
  obtain ⟨node, nodeEq, stored, shows_, ordered⟩ := sound.exists_node here
  cases shows_ with
  | leaf =>
    cases ordered with
    | leaf bottom => omega
  | seed isInner => exact join_seed sound holds phase joins here nodeEq stored isInner
  | @inner branch keys isBranch =>
    obtain ⟨hangs, last⟩ := ordered.hangs branch.nonempty upper
    obtain ⟨left, bound, child, right, cells_eq, smaller, upTo, _⟩ :=
      hangs.exists_cell last joins.above wide.le
    have less := sound.lt_cell_bound phase joins here hangs last wide cells_eq upTo
    have rising := hangs.ascending.2
    obtain ⟨wider, widerEq⟩ : ∃ wider, wider = left ++ ((climber.leftMaxKey : WithTop K), child) ::
        (bound, climber.newNode) :: right := ⟨_, rfl⟩
    have wideHangs : outline.Hangs height (outline.low work) wider := by
      rw [cells_eq] at hangs
      rw [widerEq]
      exact hangs.widen smaller joins.above less joins.isPublicRight.1 joins.height_right
        joins.low_right
    have sameLast : wider.getLast?.map Prod.fst = branch.cells.getLast?.map Prod.fst := by
      rw [cells_eq, widerEq]
      exact getLast?_widen _ _
    have sameBound : Page.bound (.inner wider branch.link : Page Ptr K V) =
        Page.bound (.inner branch.cells branch.link : Page Ptr K V) := inner_bound_congr sameLast
    -- the cells are those of before, with the new key and the new node
    have postable : ∀ cell ∈ wider, Postable outline state thread cell.2 := by
      have old : ∀ cell ∈ left ++ (bound, child) :: right,
        Postable outline state thread cell.2 := by
        intro cell listed
        exact .inl ⟨work, _, here, cell, by change cell ∈ branch.cells; rwa [cells_eq], rfl⟩
      intro cell listed
      rw [widerEq] at listed
      rcases mem_append.mp listed with inLeft | listed
      · exact old cell (mem_append_left _ inLeft)
      · rcases mem_cons.mp listed with rfl | listed
        · exact old (bound, child) mem_append_cons_self
        · rcases mem_cons.mp listed with rfl | inRight
          · exact sound.postable_new phase joins.isPublicRight
          · exact old cell (mem_append_right _ (mem_cons_of_mem _ inRight))
    have grounded : ∀ key : K, (key : WithTop K) ∈ wider.map Prod.fst → outline.Grounded key := by
      have old : ∀ key : K, (key : WithTop K) ∈ (left ++ (bound, child) :: right).map Prod.fst →
          outline.Grounded key := by
        intro key listed
        refine sound.wellFormed.grounded work _ key here ?_
        change _ ∈ branch.cells.map Prod.fst
        rwa [cells_eq]
      intro key listed
      rw [widerEq] at listed
      simp only [map_append, map_cons, mem_append, mem_cons] at listed old
      rcases listed with inLeft | same | same | inRight
      · exact old key (.inl inLeft)
      · rw [WithTop.coe_injective same]
        exact joins.grounded
      · exact old key (.inr (.inl same))
      · exact old key (.inr (.inr inRight))
    rcases isBranch.innerInsert_page sound.draws.fresh_ne rising cells_eq smaller upTo
      climber.current climber.newNode with ⟨placed, placedEq, shows_⟩ |
      ⟨lowerNode, upperNode, lower, upper', splitEq, lowerShows, upperShows, parts, lowerFilled,
        upperFilled⟩
    · rw [← widerEq] at shows_
      have extends_ : outline.Extends (outline.set work (.inner wider branch.link)) := by
        refine Outline.extends_set fun old oldStored entry listed => ?_
        cases here.symm.trans oldStored
        cases listed
      refine ⟨state.tree.write work placed, .finishing (.status true) .exclusive [work], _, map, ?_,
        sound.set (hasOnly_joining phase) here stored shows_
          (BLinkNode.innerInsert_keepsUpper placedEq).1
            (.inner upper wideHangs ?_) rfl sameBound ?_ ?_ ?_
          postable _,
        holds.set sound.wellFormed here Outline.Holds.iff_of_inner, ?_⟩
      · rw [join, nodeEq]
        simp only [ok_bind, placedEq]
        rfl
      · rw [sameLast, sameBound, last]
      · exact fun entry listed => absurd listed not_mem_nil
      · exact fun key listed => extends_.grounded key (grounded key listed)
      · left
        simp [Page.bounds, widerEq]
      · rw [phase]
        exact .rest
    · have fresh := sound.page_fresh
      have kept := BLinkNode.innerInsert_keepsUpper splitEq
      have keysKept : ∀ entry ∈ Page.entries (.inner branch.cells branch.link : Page Ptr K V),
          ∃ entry' ∈ Page.entries (.inner lower (some state.tree.fresh) : Page Ptr K V) ++
            Page.entries (.inner upper' branch.link : Page Ptr K V), entry'.1 = entry.1 :=
        fun entry listed => absurd listed not_mem_nil
      have extends_ : outline.Extends (outline.split work (.inner lower (some state.tree.fresh))
          state.tree.fresh (.inner upper' branch.link)) := Outline.extends_split here fresh keysKept
      obtain ⟨lowerLast, lowerLastEq⟩ :=
        Option.ne_none_iff_exists'.mp (getLast?_eq_none_iff.not.mpr lowerFilled)
      have lowerBound : Page.bound (.inner lower (some state.tree.fresh) : Page Ptr K V) =
        lowerLast.1 := by
        simp only [Page.bound, Page.link, Page.bounds, getLast?_map, lowerLastEq,
          Option.map_some, Option.getD_some]
      rw [widerEq, ← parts] at wideHangs sameLast postable grounded sameBound
      obtain ⟨lowerHangs, upperHangs⟩ := Outline.Hangs.append.mp wideHangs
      rw [lowerLastEq] at upperHangs
      have divides : Outline.Divides (.inner branch.cells branch.link)
          (.inner lower (some state.tree.fresh)) state.tree.fresh
          (.inner upper' branch.link : Page Ptr K V) := by
        refine Outline.divides_of_bounds (by rfl) sameBound rfl rfl ?_ ?_ ?_ ?_
        · exact map_append.symm
        · exact ascending_map.mpr wideHangs.ascending.2
        · simpa [Page.bounds] using lowerFilled
        · simpa [Page.bounds] using upperFilled
      refine ⟨(state.tree.write work lowerNode).allocate upperNode,
        .climbing climber.key climber.stack work state.tree.fresh, _, map, ?_,
        sound.split (hasOnly_joining phase) here stored lowerShows upperShows kept.1 (kept.2 _ rfl)
          divides ?_ ?_ ?_ ?_ keysKept ?_ postable joins.onWay joins.trail keyUpTo,
        holds.split sound.wellFormed here fresh ?_, ?_⟩
      · rw [join, nodeEq]
        simp only [ok_bind, splitEq]
        rfl
      · refine Outline.Ordered.mono (.inner upper lowerHangs ?_) (by rw [here]; rfl) extends_
        rw [lowerLastEq, lowerBound]
        rfl
      · refine .inner (Outline.add_self.2.1.trans upper) ?_ ?_
        · have lowEq : (outline.split work (.inner lower (some state.tree.fresh)) state.tree.fresh
              (.inner upper' branch.link)).low state.tree.fresh = (lowerLast.1 : Edge K) := by
            rw [← lowerBound]
            exact Outline.add_self.2.2
          rw [lowEq]
          exact upperHangs.mono extends_
        · rw [divides.upperBound, ← last, ← sameLast, getLast?_append_of_ne_nil _ upperFilled]
      · simpa [Page.bounds] using lowerFilled
      · simpa [Page.bounds] using upperFilled
      · intro key listed
        refine extends_.grounded key (grounded key ?_)
        rw [map_append]
        exact listed
      · intro entry
        simp [Page.entries]
      · rw [phase]
        exact .rest

end Steps

end IndexResearch.BLinkTree
