import IndexResearch.BLinkTree.Threads.Descent

/-!
# Changes of nodes

A thread rewrites a node that it has latched for itself, or splits it.
-/

namespace IndexResearch.BLinkTree

open LinkedPages List

variable {Thread K V : Type} [LinearOrder K] {params : Parameters}
  {outline later : Outline Ptr K V} {state state' : State Thread K V} {thread : Thread} {ptr : Ptr}
  {page page' lower upper : Page Ptr K V} {node placed lowerNode upperNode : BLinkNode K V}

section

variable (sound : Sound params outline state)
include sound

theorem Acts.evolves_own (acts : Acts outline later state state' thread) :
    (state.view outline).Evolves (state'.view later) [] where
  toExtends := acts.toExtends
  kept _ _ claimed := absurd claimed not_mem_nil
  isPublic _ known := acts.isPublic sound known
  root_iff _ claimed := absurd claimed not_mem_nil

theorem Sound.page_fresh : outline.page state.tree.fresh = none := by
  cases stored : outline.page state.tree.fresh with
  | none => rfl
  | some page =>
    have inside := (sound.draws.allocated state.tree.fresh (by rw [stored]; rfl)).2
    exact absurd inside (Nat.lt_irrefl _)

theorem Sound.stored_of_postable
    (postable : Postable outline state thread ptr) : (outline.page ptr).isSome := by
  rcases postable with ⟨name, page, stored, cell, listed, rfl⟩ | ⟨isPublic, _⟩
  · exact (sound.posted name page stored cell listed).1
  · exact isPublic.1

end

omit [LinearOrder K] in
theorem view_upper_write (stored : state.tree.nodes ptr = some node)
    (kept : placed.upperLevel = node.upperLevel) (other : Ptr) :
    (((state.tree.write ptr placed).nodes other).map BLinkNode.upperLevel).getD nullptr =
      ((state.tree.nodes other).map BLinkNode.upperLevel).getD nullptr := by
  by_cases same : other = ptr
  · rw [same, Tree.write_self, stored]
    exact kept
  · rw [Tree.write_of_ne same]

variable [DecidableEq Thread]

structure HasOnly (state : State Thread K V) (thread : Thread) (ptr : Ptr) : Prop where
  held : (state.phases thread).held = [(ptr, .exclusive)]
  secrets : (state.phases thread).secrets state.tree.root = []
  grows : ∀ current other, (state.phases thread).grows state.tree.root = some (current, other) →
    other = ptr

theorem Sound.set (sound : Sound params outline state) (only : HasOnly state thread ptr)
    (here : outline.page ptr = some page) (stored : state.tree.nodes ptr = some node)
    (shows_ : placed.Shows params page') (kept : placed.upperLevel = node.upperLevel)
    (ordered : outline.Ordered ptr page') (sameLink : page'.link = page.link)
    (sameBound : page'.bound = page.bound)
    (keys : ∀ entry ∈ page.entries, ∃ entry' ∈ page'.entries, entry'.1 = entry.1)
    (grounded : ∀ key : K, (key : WithTop K) ∈ page'.bounds → (outline.set ptr page').Grounded key)
    (filled : page'.bounds ≠ [] ∨ page'.cells = [] ∧ outline.height ptr = 0)
    (postable : ∀ cell ∈ page'.cells, Postable outline state thread cell.2) (answer : Answer K V) :
    Sound params (outline.set ptr page')
      { state.goTo thread (.finishing answer .exclusive
        [ptr]) with tree := state.tree.write ptr placed } := by
  have extends_ : outline.Extends (outline.set ptr page') := by
    refine Outline.extends_set fun old oldStored => ?_
    cases here.symm.trans oldStored
    exact keys
  have claim : (ptr, .exclusive) ∈ state.claims thread :=
    mem_claims_of_held (by rw [only.held]; exact mem_cons_self)
  have own : (state.goTo thread (.finishing answer .exclusive [ptr])).phases thread =
      .finishing answer .exclusive [ptr] := State.goTo_self
  have ptrStored : (outline.page ptr).isSome := by rw [here]; rfl
  have acts : Acts outline (outline.set ptr page') state
      { state.goTo thread (.finishing answer .exclusive [ptr]) with
        tree := state.tree.write ptr placed } thread := by
    refine ⟨extends_, fun other => State.goTo_of_ne, ?_, ?_, .inl rfl⟩
    · intro other _ unclaimed
      refine ⟨Outline.set_of_ne ?_, view_upper_write stored kept other⟩
      rintro rfl
      exact unclaimed claim
    · intro other secret
      rw [own] at secret
      cases secret
  refine sound.of_acts acts ?_ ?_ ?_ ?_ ?_ ?_ ?_ ?_ ?_
  · refine acts.rooted sound rfl ?_ ?_
    · intro other isPublic
      refine .inl
        (acts.public_before sound isPublic ?_ (by rw [only.secrets]; exact not_mem_nil))
      by_cases same : other = ptr
      · rw [same]
        exact ptrStored
      · have stored' := isPublic.1
        change ((outline.set ptr page').page other).isSome at stored'
        rwa [Outline.set_of_ne same] at stored'
    · intro other stored' _
      refine ⟨other, ?_, rfl, view_upper_write stored kept other⟩
      by_cases same : other = ptr
      · rw [same]
        exact ptrStored
      · rwa [Outline.set_of_ne same] at stored'
  · exact sound.wellFormed.set here ordered sameLink sameBound extends_ grounded
  · refine ⟨?_, ?_, sound.draws.fresh_ne⟩
    · intro other found there
      by_cases same : other = ptr
      · subst same
        rw [Outline.set_self] at there
        cases there
        exact ⟨placed, Tree.write_self, shows_⟩
      · rw [Outline.set_of_ne same] at there
        obtain ⟨node', stored', shows'⟩ := sound.draws.shown other found there
        exact ⟨node', (Tree.write_of_ne same).trans stored', shows'⟩
    · intro other there
      by_cases same : other = ptr
      · rw [same]
        exact sound.draws.allocated ptr ptrStored
      · rw [Outline.set_of_ne same] at there
        exact sound.draws.allocated other there
  · exact State.latched_goTo sound.latched (by rw [only.held]; rfl)
  · intro other mode claimed
    rw [State.claims, own] at claimed
    obtain ⟨rfl, rfl⟩ := Prod.mk.inj (mem_singleton.mp claimed)
    exact ⟨extends_.stored _ ptrStored, fun anyone mode' notSame =>
      sound.shared_of_both notSame claim⟩
  · intro other isPending
    rw [own] at isPending
    cases isPending
  · intro name found there cell listed
    refine ⟨?_, by rw [own]; simp [Phase.pending]⟩
    by_cases same : name = ptr
    · subst same
      rw [Outline.set_self] at there
      cases there
      exact postable cell listed
    · rw [Outline.set_of_ne same] at there
      exact .inl ⟨name, found, there, cell, listed, rfl⟩
  · intro other link there
    by_cases same : other = ptr
    · subst same
      rw [Outline.set_self] at there
      cases there
      rcases filled with filled | ⟨_, bottom⟩
      · exact absurd rfl filled
      · obtain ⟨height, upperEq⟩ := ordered.exists_height
        omega
    · rw [Outline.set_of_ne same] at there
      exact .inl ⟨there, fun current grows => absurd (only.grows current other grows) same⟩
  · rw [own]
    exact nodup_singleton _

theorem Sound.split (sound : Sound params outline state) (only : HasOnly state thread ptr)
    (here : outline.page ptr = some page) (stored : state.tree.nodes ptr = some node)
    (lowerShows : lowerNode.Shows params lower) (upperShows : upperNode.Shows params upper)
    (lowerKept : lowerNode.upperLevel = node.upperLevel)
    (upperKept : upperNode.upperLevel = node.upperLevel)
    (divides : Outline.Divides page lower state.tree.fresh upper)
    (lowerOrdered : (outline.split ptr lower state.tree.fresh upper).Ordered ptr lower)
    (upperOrdered : (outline.split ptr lower state.tree.fresh upper).Ordered state.tree.fresh upper)
    (lowerFilled : lower.bounds ≠ []) (upperFilled : upper.bounds ≠ [])
    (keys : ∀ entry ∈ page.entries, ∃ entry' ∈ lower.entries ++ upper.entries, entry'.1 = entry.1)
    (grounded : ∀ key : K, (key : WithTop K) ∈ lower.bounds ++ upper.bounds →
      (outline.split ptr lower state.tree.fresh upper).Grounded key)
    (postable : ∀ cell ∈ lower.cells ++ upper.cells, Postable outline state thread cell.2)
    {key : K} {height : Nat} {stack : List Ptr} (onWay : (state.view outline).OnWay key height ptr)
    (trail : (state.view outline).Trail key height stack) (upTo : (key : WithTop K) ≤ page.bound) :
    Sound params (outline.split ptr lower state.tree.fresh upper)
      { state.goTo thread (.climbing key stack ptr state.tree.fresh) with
        tree := (state.tree.write ptr lowerNode).allocate upperNode } := by
  have fresh := sound.page_fresh
  have ptrStored : (outline.page ptr).isSome := by rw [here]; rfl
  have ptrInside := (sound.draws.allocated ptr ptrStored).2
  have extends_ : outline.Extends (outline.split ptr lower state.tree.fresh upper) :=
    Outline.extends_split here fresh keys
  have claim : (ptr, .exclusive) ∈ state.claims thread :=
    mem_claims_of_held (by rw [only.held]; exact mem_cons_self)
  have own : (state.goTo thread (.climbing key stack ptr state.tree.fresh)).phases thread =
      .climbing key stack ptr state.tree.fresh := State.goTo_self
  have notFresh : ∀ {other}, (outline.page other).isSome → other ≠ state.tree.fresh :=
    fun stored' => Outline.ne_of_stored stored' fresh
  -- what the new tree has as nodes above
  have upperEq : ∀ other, other ≠ state.tree.fresh →
      ((((state.tree.write ptr lowerNode).allocate upperNode).nodes other).map
        BLinkNode.upperLevel).getD nullptr =
      ((state.tree.nodes other).map BLinkNode.upperLevel).getD nullptr := by
    intro other notNew
    rw [show ((state.tree.write ptr lowerNode).allocate upperNode).nodes other =
      (state.tree.write ptr lowerNode).nodes other from Tree.allocate_of_ne notNew]
    exact view_upper_write stored lowerKept other
  have acts : Acts outline (outline.split ptr lower state.tree.fresh upper) state
      { state.goTo thread (.climbing key stack ptr state.tree.fresh) with
        tree := (state.tree.write ptr lowerNode).allocate upperNode } thread := by
    refine ⟨extends_, fun other => State.goTo_of_ne, ?_, ?_, .inl rfl⟩
    · intro other stored' unclaimed
      refine ⟨Outline.split_of_ne ?_ (notFresh stored'), upperEq other (notFresh stored')⟩
      rintro rfl
      exact unclaimed claim
    · intro other secret
      rw [own] at secret
      obtain rfl := mem_singleton.mp secret
      exact .inr fresh
  -- the pages before, and the new one
  have storedCases : ∀ {other},
    ((outline.split ptr lower state.tree.fresh upper).page other).isSome →
      other ≠ state.tree.fresh → (outline.page other).isSome := by
    intro other stored' notNew
    by_cases same : other = ptr
    · rw [same]
      exact ptrStored
    · rwa [Outline.split_of_ne same notNew] at stored'
  refine sound.of_acts acts ?_ ?_ ?_ ?_ ?_ ?_ ?_ ?_ ?_
  · refine acts.rooted sound rfl ?_ ?_
    · intro other isPublic
      have notNew : other ≠ state.tree.fresh := by
        rintro rfl
        have hidden := isPublic.2 thread
        rw [own] at hidden
        exact hidden mem_cons_self
      exact .inl (acts.public_before sound isPublic (storedCases isPublic.1 notNew)
        (by rw [only.secrets]; exact not_mem_nil))
    · intro other stored' _
      by_cases isNew : other = state.tree.fresh
      · subst isNew
        refine ⟨ptr, ptrStored, Outline.add_self.2.1, ?_⟩
        change (((state.tree.write ptr lowerNode).allocate upperNode).nodes _ |>.map _).getD _ =
          ((state.tree.nodes ptr).map _).getD _
        rw [show ((state.tree.write ptr lowerNode).allocate upperNode).nodes state.tree.fresh =
          some upperNode from Tree.allocate_self, stored]
        exact upperKept
      · have before := storedCases stored' isNew
        exact ⟨other, before, extends_.height_eq other before, upperEq other isNew⟩
  · exact sound.wellFormed.split here fresh divides lowerOrdered upperOrdered (by
      have proper := lowerOrdered.above
        (mem_of_getLast? (lowerOrdered.bound_mem divides.lowerLink))
      rwa [extends_.low_eq ptr ptrStored] at proper) extends_ grounded
  · refine ⟨?_, ?_, Nat.succ_ne_zero _⟩
    · intro other found there
      rcases Outline.split_cases here fresh
        there with ⟨rfl, rfl⟩ | ⟨rfl, rfl⟩ | ⟨notPtr, notNew, old⟩
      · exact ⟨lowerNode, Tree.allocate_write_self ptrInside, lowerShows⟩
      · exact ⟨upperNode, Tree.allocate_self, upperShows⟩
      · obtain ⟨node', stored', shows'⟩ := sound.draws.shown other found old
        have inside := (sound.draws.allocated other (by rw [old]; rfl)).2
        exact ⟨node', (Tree.allocate_write_of_ne notPtr inside).trans stored', shows'⟩
    · intro other there
      by_cases isNew : other = state.tree.fresh
      · rw [isNew]
        exact ⟨sound.draws.fresh_ne, Nat.lt_succ_self _⟩
      · obtain ⟨notNull, inside⟩ := sound.draws.allocated other (storedCases there isNew)
        exact ⟨notNull, Nat.lt_succ_of_lt inside⟩
  · exact State.latched_goTo sound.latched (by rw [only.held]; rfl)
  · intro other mode claimed
    rw [State.claims, own] at claimed
    rcases mem_cons.mp claimed with same | secret
    · cases same
      exact ⟨extends_.stored _ ptrStored, fun anyone mode' notSame =>
        sound.shared_of_both notSame claim⟩
    · obtain ⟨rfl, rfl⟩ := Prod.mk.inj (mem_singleton.mp secret)
      refine ⟨by rw [Outline.split_upper]; rfl, fun anyone mode' notSame claim' => ?_⟩
      exact absurd rfl (notFresh (sound.claimed anyone _ mode' claim'))
  · intro other isPending
    rw [own] at isPending
    cases isPending
    exact .inr fresh
  · intro name found there cell listed
    have isPostable : Postable outline state thread cell.2 := by
      rcases Outline.split_cases here fresh there with ⟨rfl, rfl⟩ | ⟨rfl, rfl⟩ | ⟨_, _, old⟩
      · exact postable cell (mem_append_left _ listed)
      · exact postable cell (mem_append_right _ listed)
      · exact .inl ⟨name, found, old, cell, listed, rfl⟩
    refine ⟨isPostable, fun isPending => ?_⟩
    rw [own] at isPending
    exact notFresh (sound.stored_of_postable isPostable) (Option.some.inj isPending).symm
  · intro other link there
    rcases Outline.split_cases here fresh there with ⟨rfl, same⟩ | ⟨rfl, same⟩ | ⟨notPtr, _, old⟩
    · rw [← same] at lowerFilled
      exact absurd rfl lowerFilled
    · rw [← same] at upperFilled
      exact absurd rfl upperFilled
    · exact .inl ⟨old, fun current grows => absurd (only.grows current other grows) notPtr⟩
  · rw [own]
    have evolves := acts.evolves_own sound
    refine ⟨height,
      ⟨evolves.onWay onWay, ⟨lower, Outline.split_lower here fresh, divides.lowerLink⟩,
      upper, Outline.split_upper, upperFilled, ?_⟩, evolves.trail trail⟩
    rw [divides.upperBound]
    exact upTo

end IndexResearch.BLinkTree
