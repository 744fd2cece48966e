import IndexResearch.BLinkTree.Threads.Knowledge

/-!
# Sound states

What holds of the tree, of the latches and of every thread, whatever the threads have
done.  An action of a thread leaves what the others know, since it changes only nodes that
the thread has for itself.
-/

namespace IndexResearch.BLinkTree

open LinkedPages List

variable {Thread K V : Type}

def Phase.grows (root : Ptr) : Phase K V → Option (Ptr × Ptr)
  | raising climb work | raised climb work =>
    if climb.current = root then some (climb.current, work) else none
  | sliding climb work | parting climb work | joining climb work => some (climb.current, work)
  | _ => none

theorem Phase.claims_of_grows {root current work : Ptr} {phase : Phase K V}
    (grows : phase.grows root = some (current, work)) : (work, .exclusive) ∈ phase.claims root := by
  cases phase with
  | raising climb work' =>
    rw [Phase.grows] at grows
    split at grows
    · rename_i isRoot
      cases grows
      simp [claims, secrets, isRoot]
    · cases grows
  | raised climb work' =>
    rw [Phase.grows] at grows
    split at grows
    · cases grows
      simp [claims, held]
    · cases grows
  | sliding | parting | joining =>
    cases grows
    simp [claims, held]
  | _ => cases grows

theorem Phase.secrets_congr {root root' : Ptr} {phase : Phase K V}
    (same : ∀ ptr, (ptr, .exclusive) ∈ phase.held → (ptr = root' ↔ ptr = root)) :
    phase.secrets root' = phase.secrets root := by
  cases phase with
  | raising climb work | raised climb work =>
    simp only [secrets, same climb.current mem_cons_self]
  | _ => rfl

theorem Phase.grows_congr {root root' : Ptr} {phase : Phase K V}
    (same : ∀ ptr, (ptr, .exclusive) ∈ phase.held → (ptr = root' ↔ ptr = root)) :
    phase.grows root' = phase.grows root := by
  cases phase with
  | raising climb work | raised climb work =>
    simp only [grows, same climb.current mem_cons_self]
  | _ => rfl

namespace State

def view (outline : Outline Ptr K V) (state : State Thread K V) : View K V where
  outline := outline
  root := state.tree.root
  upper ptr := ((state.tree.nodes ptr).map BLinkNode.upperLevel).getD nullptr
  Public ptr :=
    (outline.page ptr).isSome ∧ ∀ thread, ptr ∉ (state.phases thread).secrets state.tree.root
  stored _ isPublic := isPublic.1

def claims (state : State Thread K V) (thread : Thread) : List (Ptr × Mode) :=
  (state.phases thread).claims state.tree.root

end State

structure Tree.Draws (params : Parameters) (tree : Tree K V) (outline : Outline Ptr K V) :
    Prop where
  shown : ∀ ptr page, outline.page ptr = some page →
    ∃ node, tree.nodes ptr = some node ∧ node.Shows params page
  allocated : ∀ ptr, (outline.page ptr).isSome → ptr ≠ nullptr ∧ ptr < tree.fresh
  fresh_ne : tree.fresh ≠ nullptr

variable [LinearOrder K]

/-- The levels below the root, as `upper_level_` leads through them. -/
structure Rooted (outline : Outline Ptr K V) (state : State Thread K V) : Prop where
  rootPublic : (state.view outline).Public state.tree.root
  rootLow : outline.low state.tree.root = ⊥
  top : ∀ ptr, (state.view outline).Public ptr →
    ptr = state.tree.root ∨ outline.height ptr < outline.height state.tree.root
  upper : ∀ ptr, (outline.page ptr).isSome → outline.height ptr < outline.height state.tree.root →
    (state.view outline).Public ((state.view outline).upper ptr) ∧
      outline.height ((state.view outline).upper ptr) = outline.height ptr + 1 ∧
      outline.low ((state.view outline).upper ptr) = ⊥

structure Sound (params : Parameters) (outline : Outline Ptr K V) (state : State Thread K V) :
    Prop extends Rooted outline state where
  wellFormed : outline.WellFormed
  draws : state.tree.Draws params outline
  latched : SharedLatch.TableAgrees state.latches fun thread => (state.phases thread).held
  claimed : ∀ thread ptr mode, (ptr, mode) ∈ state.claims thread → (outline.page ptr).isSome
  exclusive : ∀ thread other ptr mode, (ptr, .exclusive) ∈ state.claims thread →
    (ptr, mode) ∈ state.claims other → thread = other
  pending_inj : ∀ thread other ptr, (state.phases thread).pending = some ptr →
    (state.phases other).pending = some ptr → thread = other
  unposted : ∀ thread name page, outline.page name = some page → ∀ cell ∈ page.cells,
    (state.phases thread).pending ≠ some cell.2
  posted : ∀ name page, outline.page name = some page → ∀ cell ∈ page.cells,
    (state.view outline).Public cell.2
  /-- A new root without children is in the hands of the thread that made it. -/
  seeds : ∀ ptr link, outline.page ptr = some (.inner [] link) →
    ∃ thread current, (state.phases thread).grows state.tree.root = some (current, ptr) ∧
      (outline.page current).isSome ∧ outline.low current = ⊥
  knows : ∀ thread, Knows (state.view outline) (state.phases thread)

variable {params : Parameters} {outline later : Outline Ptr K V} {state state' : State Thread K V}
  {thread other : Thread} {ptr next : Ptr} {mode : Mode} {page : Page Ptr K V}

structure Acts (outline later : Outline Ptr K V) (state state' : State Thread K V)
    (thread : Thread) : Prop extends outline.Extends later where
  others : ∀ other, other ≠ thread → state'.phases other = state.phases other
  changed : ∀ ptr, (outline.page ptr).isSome → (ptr, .exclusive) ∉ state.claims thread →
    later.page ptr = outline.page ptr ∧
      (state'.view later).upper ptr = (state.view outline).upper ptr
  secrets : ∀ ptr ∈ (state'.phases thread).secrets state'.tree.root,
    ptr ∈ (state.phases thread).secrets state.tree.root ∨ outline.page ptr = none
  root_eq : state'.tree.root = state.tree.root ∨
    ((state.tree.root, .exclusive) ∈ state.claims thread ∧
      (state'.tree.root, .exclusive) ∈ state.claims thread)

omit [LinearOrder K] in
theorem mem_claims_of_held (held : (ptr, mode) ∈ (state.phases thread).held) :
    (ptr, mode) ∈ state.claims thread := mem_append_left _ held

omit [LinearOrder K] in
theorem mem_claims_of_secret (secret : ptr ∈ (state.phases thread).secrets state.tree.root) :
    (ptr, .exclusive) ∈ state.claims thread := mem_append_right _ (mem_map_of_mem secret)

namespace Acts

variable (sound : Sound params outline state) (acts : Acts outline later state state' thread)
  (notSame : other ≠ thread)
include sound acts notSame

theorem root_iff (claimed : (ptr, .exclusive) ∈ state.claims other) :
    ptr = state'.tree.root ↔ ptr = state.tree.root := by
  rcases acts.root_eq with same | ⟨old, new⟩
  · rw [same]
  · constructor
    · rintro rfl
      exact absurd (sound.exclusive other thread _ _ claimed new) notSame
    · rintro rfl
      exact absurd (sound.exclusive other thread _ _ claimed old) notSame

theorem secrets_eq :
    (state.phases other).secrets state'.tree.root = (state.phases other).secrets state.tree.root :=
  Phase.secrets_congr fun _ held => acts.root_iff sound notSame (mem_claims_of_held held)

theorem claims_eq : state'.claims other = state.claims other := by
  rw [State.claims, State.claims, Phase.claims, Phase.claims, acts.others other notSame,
    acts.secrets_eq sound notSame]

omit notSame in
theorem isPublic (known : (state.view outline).Public ptr) : (state'.view later).Public ptr := by
  refine ⟨acts.stored ptr known.1, ?_⟩
  intro anyone secret
  by_cases same : anyone = thread
  · subst same
    rcases acts.secrets ptr secret with old | fresh
    · exact known.2 anyone old
    · have stored := known.1
      rw [fresh] at stored
      cases stored
  · rw [acts.others anyone same, acts.secrets_eq sound same] at secret
    exact known.2 anyone secret

omit notSame in
/-- What everybody may know of is no secret of the thread, or the thread has shown it. -/
theorem public_before (isPublic : (state'.view later).Public ptr)
    (stored : (outline.page ptr).isSome)
    (own : ptr ∉ (state.phases thread).secrets state.tree.root) :
    (state.view outline).Public ptr := by
  refine ⟨stored, fun anyone secret => ?_⟩
  by_cases same : anyone = thread
  · rw [same] at secret
    exact own secret
  · have hidden := isPublic.2 anyone
    rw [acts.others anyone same, acts.secrets_eq sound same] at hidden
    exact hidden secret

theorem evolves :
    (state.view outline).Evolves (state'.view later) (state.claims other) where
  toExtends := acts.toExtends
  kept := by
    intro ptr mode claimed
    refine acts.changed ptr (sound.claimed other ptr mode claimed) fun own => ?_
    exact notSame (sound.exclusive thread other ptr mode own claimed).symm
  isPublic := fun ptr known => acts.isPublic sound known
  root_iff := fun ptr claimed => acts.root_iff sound notSame claimed

theorem knows : Knows (state'.view later) (state'.phases other) := by
  rw [acts.others other notSame]
  exact (sound.knows other).mono (acts.evolves sound notSame)

theorem grows_eq : (state'.phases other).grows state'.tree.root =
    (state.phases other).grows state.tree.root := by
  rw [acts.others other notSame]
  exact Phase.grows_congr fun _ held => acts.root_iff sound notSame (mem_claims_of_held held)

omit notSame in
theorem rooted (root_eq : state'.tree.root = state.tree.root)
    (shown : ∀ ptr, (state'.view later).Public ptr → (state.view outline).Public ptr ∨
      later.height ptr < later.height state.tree.root)
    (upper : ∀ ptr, (later.page ptr).isSome → later.height ptr < outline.height state.tree.root →
      ∃ left, (outline.page left).isSome ∧ later.height ptr = outline.height left ∧
        (state'.view later).upper ptr = (state.view outline).upper left) :
    Rooted later state' := by
  have rootStored := sound.rootPublic.1
  have rootHeight := acts.height_eq _ rootStored
  constructor
  · rw [root_eq]
    exact acts.isPublic sound sound.rootPublic
  · rw [root_eq, acts.low_eq _ rootStored, sound.rootLow]
  · intro ptr isPublic
    rw [root_eq]
    rcases shown ptr isPublic with before | lower
    · rw [acts.height_eq ptr before.1, rootHeight]
      exact sound.top ptr before
    · exact .inr lower
  · intro ptr stored lower
    rw [root_eq, rootHeight] at lower
    obtain ⟨left, leftStored, heightEq, upperEq⟩ := upper ptr stored lower
    rw [heightEq] at lower
    obtain ⟨isPublic, upperHeight, upperLow⟩ := sound.upper left leftStored lower
    rw [upperEq, heightEq, acts.height_eq _ isPublic.1, acts.low_eq _ isPublic.1]
    exact ⟨acts.isPublic sound isPublic, upperHeight, upperLow⟩

end Acts

theorem Knows.of_pending {view : View K V} {phase : Phase K V} (knows : Knows view phase)
    (formed : view.outline.WellFormed) (pending : phase.pending = some ptr) :
    (view.outline.page ptr).isSome ∧ view.outline.low ptr ≠ ⊥ := by
  have ofSplit : ∀ {key : K} {height : Nat} {current : Ptr}, view.Split key height current ptr →
      (view.outline.page ptr).isSome ∧ view.outline.low ptr ≠ ⊥ := by
    intro key height current split
    obtain ⟨page, here, link⟩ := split.left
    obtain ⟨stored, _, low_eq⟩ := formed.linked _ _ _ here link
    rw [low_eq]
    exact ⟨stored, WithBot.coe_ne_bot⟩
  cases phase with
  | climbing =>
    cases pending
    obtain ⟨height, split, _⟩ := knows
    exact ofSplit split
  | raising | raised | sliding =>
    cases pending
    obtain ⟨height, ascends, _⟩ := knows
    exact ofSplit ascends.toSplit
  | slidingOn | slidOn | parting =>
    cases pending
    obtain ⟨⟨height, ascends, _⟩, _⟩ := knows
    exact ofSplit ascends.toSplit
  | joining =>
    cases pending
    obtain ⟨height, joins⟩ := knows
    refine ⟨view.stored _ joins.isPublicRight, ?_⟩
    rw [joins.low_right]
    exact WithBot.coe_ne_bot
  | _ => cases pending

def Postable (outline : Outline Ptr K V) (state : State Thread K V) (thread : Thread)
    (child : Ptr) : Prop :=
  (∃ name page, outline.page name = some page ∧ ∃ cell ∈ page.cells, cell.2 = child) ∨
    ((state.view outline).Public child ∧
      ∀ other, other ≠ thread → (state.phases other).pending ≠ some child)

theorem Sound.of_acts (sound : Sound params outline state)
    (acts : Acts outline later state state' thread) (rooted : Rooted later state')
    (formed : later.WellFormed) (draws : state'.tree.Draws params later)
    (latched : SharedLatch.TableAgrees state'.latches fun thread => (state'.phases thread).held)
    (claimed : ∀ ptr mode, (ptr, mode) ∈ state'.claims thread → (later.page ptr).isSome ∧
      ∀ other mode', other ≠ thread → (ptr, mode') ∈ state.claims other →
        mode = .shared ∧ mode' = .shared)
    (pending : ∀ ptr, (state'.phases thread).pending = some ptr →
      (state.phases thread).pending = some ptr ∨ outline.page ptr = none)
    (cells : ∀ name page, later.page name = some page → ∀ cell ∈ page.cells,
      Postable outline state thread cell.2 ∧ (state'.phases thread).pending ≠ some cell.2)
    (seeds : ∀ ptr link, later.page ptr = some (.inner [] link) →
      (outline.page ptr = some (.inner [] link) ∧ ∀ current,
        (state.phases thread).grows state.tree.root = some (current, ptr) →
        (state'.phases thread).grows state'.tree.root = some (current, ptr)) ∨
      ∃ current, (state'.phases thread).grows state'.tree.root = some (current, ptr) ∧
        (later.page current).isSome ∧ later.low current = ⊥)
    (knows : Knows (state'.view later) (state'.phases thread)) :
    Sound params later state' where
  toRooted := rooted
  wellFormed := formed
  draws := draws
  latched := latched
  claimed := by
    intro anyone ptr mode claim
    by_cases same : anyone = thread
    · subst same
      exact (claimed ptr mode claim).1
    · rw [acts.claims_eq sound same] at claim
      exact acts.stored ptr (sound.claimed anyone ptr mode claim)
  exclusive := by
    intro first second ptr mode claim claim'
    by_cases isFirst : first = thread
    · by_cases isSecond : second = thread
      · rw [isFirst, isSecond]
      · subst isFirst
        rw [acts.claims_eq sound isSecond] at claim'
        cases ((claimed ptr _ claim).2 second mode isSecond claim').1
    · rw [acts.claims_eq sound isFirst] at claim
      by_cases isSecond : second = thread
      · subst isSecond
        cases ((claimed ptr _ claim').2 first _ isFirst claim).2
      · rw [acts.claims_eq sound isSecond] at claim'
        exact sound.exclusive first second ptr mode claim claim'
  pending_inj := by
    -- a new node is nobody's node before
    have notOther : ∀ {other ptr}, other ≠ thread → (state'.phases thread).pending = some ptr →
        (state'.phases other).pending ≠ some ptr := by
      intro other ptr notSame isPending isPending'
      rw [acts.others other notSame] at isPending'
      rcases pending ptr isPending with before | fresh
      · exact notSame (sound.pending_inj other thread ptr isPending' before)
      · have stored := ((sound.knows other).of_pending sound.wellFormed isPending').1
        change (outline.page ptr).isSome at stored
        rw [fresh] at stored
        cases stored
    intro first second ptr isPending isPending'
    by_cases isFirst : first = thread
    · by_cases isSecond : second = thread
      · rw [isFirst, isSecond]
      · subst isFirst
        exact absurd isPending' (notOther isSecond isPending)
    · by_cases isSecond : second = thread
      · subst isSecond
        exact absurd isPending (notOther isFirst isPending')
      · rw [acts.others first isFirst] at isPending
        rw [acts.others second isSecond] at isPending'
        exact sound.pending_inj first second ptr isPending isPending'
  unposted := by
    intro anyone name page stored cell listed
    by_cases same : anyone = thread
    · subst same
      exact (cells name page stored cell listed).2
    · rw [acts.others anyone same]
      rcases (cells name page stored cell listed).1 with ⟨name', page', stored', cell', listed',
        childEq⟩ | ⟨_, notPending⟩
      · rw [← childEq]
        exact sound.unposted anyone name' page' stored' cell' listed'
      · exact notPending anyone same
  posted := by
    intro name page stored cell listed
    rcases (cells name page stored cell listed).1 with ⟨name', page', stored', cell', listed',
      childEq⟩ | ⟨isPublic, _⟩
    · rw [← childEq]
      exact acts.isPublic sound (sound.posted name' page' stored' cell' listed')
    · exact acts.isPublic sound isPublic
  seeds := by
    intro ptr link stored
    rcases seeds ptr link stored with ⟨before, grows⟩ | ⟨current, grows, facts⟩
    · obtain ⟨anyone, current, growing, currentStored, lowEq⟩ := sound.seeds ptr link before
      refine ⟨anyone, current, ?_, acts.stored current currentStored, ?_⟩
      · by_cases same : anyone = thread
        · subst same
          exact grows current growing
        · rw [acts.grows_eq sound same]
          exact growing
      · rw [acts.low_eq current currentStored]
        exact lowEq
    · exact ⟨thread, current, grows, facts⟩
  knows := by
    intro anyone
    by_cases same : anyone = thread
    · subst same
      exact knows
    · exact acts.knows sound same

/-! ## Actions that leave the tree alone -/

theorem Sound.shared_of_both (sound : Sound params outline state) (notSame : other ≠ thread)
    {mode' : Mode} (claim : (ptr, mode) ∈ state.claims thread)
    (claim' : (ptr, mode') ∈ state.claims other) : mode = .shared ∧ mode' = .shared := by
  cases mode with
  | exclusive => exact absurd (sound.exclusive thread other ptr mode' claim claim').symm notSame
  | shared =>
    cases mode' with
    | exclusive => exact absurd (sound.exclusive other thread ptr _ claim' claim) notSame
    | shared => exact ⟨rfl, rfl⟩

structure Stays (outline : Outline Ptr K V) (state state' : State Thread K V) (thread : Thread) :
    Prop where
  tree_eq : state'.tree = state.tree
  others : ∀ other, other ≠ thread → state'.phases other = state.phases other
  secrets : ∀ ptr ∈ (state'.phases thread).secrets state.tree.root,
    ptr ∈ (state.phases thread).secrets state.tree.root
  shown : ∀ ptr ∈ (state.phases thread).secrets state.tree.root,
    ptr ∈ (state'.phases thread).secrets state.tree.root ∨
      outline.height ptr < outline.height state.tree.root
  pending : ∀ ptr, (state'.phases thread).pending = some ptr →
    (state.phases thread).pending = some ptr
  grows : ∀ current ptr link, (state.phases thread).grows state.tree.root = some (current, ptr) →
    outline.page ptr = some (.inner [] link) →
    (state'.phases thread).grows state.tree.root = some (current, ptr)

namespace Stays

variable (stays : Stays outline state state' thread)
include stays

omit [LinearOrder K] in
theorem acts : Acts outline outline state state' thread where
  stored _ := id
  height_eq _ _ := rfl
  low_eq _ _ := rfl
  grounded _ := id
  others := stays.others
  changed ptr _ _ := by
    refine ⟨rfl, ?_⟩
    simp only [State.view, stays.tree_eq]
  secrets ptr secret := by
    rw [stays.tree_eq] at secret
    exact .inl (stays.secrets ptr secret)
  root_eq := .inl (congrArg Tree.root stays.tree_eq)

theorem evolves (sound : Sound params outline state) (claims : List (Ptr × Mode)) :
    (state.view outline).Evolves (state'.view outline) claims where
  toExtends := stays.acts.toExtends
  kept ptr mode _ := by
    refine ⟨rfl, ?_⟩
    simp only [State.view, stays.tree_eq]
  isPublic ptr known := stays.acts.isPublic sound known
  root_iff ptr _ := by simp only [State.view, stays.tree_eq]

theorem sound (sound : Sound params outline state)
    (latched : SharedLatch.TableAgrees state'.latches fun thread => (state'.phases thread).held)
    (claimed : ∀ ptr mode, (ptr, mode) ∈ state'.claims thread →
      (ptr, mode) ∈ state.claims thread ∨ ((outline.page ptr).isSome ∧
        ∀ other mode', other ≠ thread → (ptr, mode') ∈ state.claims other →
          mode = .shared ∧ mode' = .shared))
    (knows : Knows (state'.view outline) (state'.phases thread)) :
    Sound params outline state' := by
  have root_eq : state'.tree.root = state.tree.root := congrArg Tree.root stays.tree_eq
  refine sound.of_acts stays.acts ?_ sound.wellFormed ?_ latched ?_ ?_ ?_ ?_ knows
  · refine stays.acts.rooted sound root_eq ?_ ?_
    · intro ptr isPublic
      by_cases secret : ptr ∈ (state.phases thread).secrets state.tree.root
      · rcases stays.shown ptr secret with still | lower
        · rw [← root_eq] at still
          exact absurd still (isPublic.2 thread)
        · exact .inr lower
      · exact .inl (stays.acts.public_before sound isPublic isPublic.1 secret)
    · intro ptr stored _
      refine ⟨ptr, stored, rfl, ?_⟩
      simp only [State.view, stays.tree_eq]
  · rw [stays.tree_eq]
    exact sound.draws
  · intro ptr mode claim
    rcases claimed ptr mode claim with before | facts
    · exact ⟨sound.claimed thread ptr mode before,
        fun other mode' notSame claim' => sound.shared_of_both notSame before claim'⟩
    · exact facts
  · exact fun ptr isPending => .inl (stays.pending ptr isPending)
  · intro name page stored cell listed
    refine ⟨.inl ⟨name, page, stored, cell, listed, rfl⟩, fun isPending => ?_⟩
    exact sound.unposted thread name page stored cell listed (stays.pending _ isPending)
  · intro ptr link stored
    rw [root_eq]
    exact .inl ⟨stored, fun current grows => stays.grows current ptr link grows stored⟩

end Stays

section Steps

variable [DecidableEq Thread] {before phase : Phase K V}

omit [LinearOrder K] in
@[simp] theorem State.goTo_self : (state.goTo thread phase).phases thread = phase :=
  Function.update_self _ _ _

omit [LinearOrder K] in
theorem State.goTo_of_ne (notSame : other ≠ thread) :
    (state.goTo thread phase).phases other = state.phases other := Function.update_of_ne notSame _ _

omit [LinearOrder K] in
/-- A thread goes on with the latches that it has. -/
theorem State.latched_goTo (latched : SharedLatch.TableAgrees state.latches fun thread =>
      (state.phases thread).held) (held : phase.held = (state.phases thread).held) :
    SharedLatch.TableAgrees state.latches fun other =>
    ((state.goTo thread phase).phases other).held:= by
  refine latched.congr fun anyone item => ?_
  by_cases same : anyone = thread
  · rw [same, State.goTo_self, held]
  · rw [State.goTo_of_ne same]

section

variable (sound : Sound params outline state)
include sound

theorem Sound.goTo (was : state.phases thread = before) (held : phase.held = before.held)
    (secrets : phase.secrets state.tree.root = before.secrets state.tree.root)
    (pending : ∀ ptr, phase.pending = some ptr → before.pending = some ptr)
    (grows : ∀ current ptr link, before.grows state.tree.root = some (current, ptr) →
      outline.page ptr = some (.inner [] link) → phase.grows state.tree.root = some (current, ptr))
    (knows : Knows (state.view outline) phase) :
    Sound params outline (state.goTo thread phase) := by
  subst was
  have stays : Stays outline state (state.goTo thread phase) thread := by
    refine ⟨rfl, fun other => State.goTo_of_ne, ?_, ?_, ?_, ?_⟩
    · rw [State.goTo_self, secrets]
      exact fun _ => id
    · rw [State.goTo_self, secrets]
      exact fun _ => .inl
    · rwa [State.goTo_self]
    · rwa [State.goTo_self]
  refine stays.sound sound ?_ ?_ ?_
  · exact State.latched_goTo sound.latched held
  · intro ptr mode claim
    left
    rw [State.claims, State.goTo_self, Phase.claims, held] at claim
    change _ ∈ _ ++ (phase.secrets state.tree.root).map _ at claim
    rwa [secrets] at claim
  · rw [State.goTo_self]
    exact knows.mono (stays.evolves sound _)

theorem Sound.latch (taken : state.latch thread ptr mode phase = some state')
    (was : state.phases thread = before)
    (reached : (state.view outline).Public ptr ∨ ptr ∈ before.secrets state.tree.root)
    (new : (ptr, .shared) ∉ before.held)
    (held : ∀ item, item ∈ phase.held ↔ item ∈ before.held ∨ item = (ptr, mode))
    (secrets : phase.secrets state.tree.root = before.secrets state.tree.root)
    (pending : phase.pending = before.pending)
    (grows : phase.grows state.tree.root = before.grows state.tree.root)
    (knows : Knows (state.view outline) phase) : Sound params outline state' := by
  subst was
  rw [State.latch, Option.map_eq_some_iff] at taken
  obtain ⟨latch, acquired, rfl⟩ := taken
  have own : (state.goTo thread phase).phases thread = phase := State.goTo_self
  have stays : Stays outline state { state.goTo thread phase with
      latches := Function.update state.latches ptr latch } thread := by
    refine ⟨rfl, fun other => State.goTo_of_ne, ?_, ?_, ?_, ?_⟩
    · rw [own, secrets]
      exact fun _ => id
    · rw [own, secrets]
      exact fun _ => .inl
    · rw [own, pending]
      exact fun _ => id
    · rw [own, grows]
      exact fun _ _ _ same _ => same
  refine stays.sound sound ?_ ?_ ?_
  · refine sound.latched.acquire acquired new ?_ ?_
    · exact fun other notSame => congrArg Phase.held (State.goTo_of_ne notSame)
    · intro item
      rw [own, held]
  · intro ptr' mode' claim
    rw [State.claims, own, Phase.claims, mem_append, held] at claim
    change _ ∨ _ ∈ (phase.secrets state.tree.root).map _ at claim
    rw [secrets] at claim
    rcases claim with (before | same) | secret
    · exact .inl (mem_claims_of_held before)
    · cases same
      right
      refine ⟨?_, ?_⟩
      · rcases reached with isPublic | secret
        · exact isPublic.1
        · exact sound.claimed thread _ _ (mem_claims_of_secret secret)
      · intro other mode' notSame claim'
        rcases reached with isPublic | secret
        · rcases mem_append.mp claim' with otherHeld | otherSecret
          · cases mode' with
            | exclusive => exact ((sound.latched _).of_acquire acquired (.inl otherHeld)).elim
            | shared =>
              cases mode with
              | exclusive =>
                exact ((sound.latched _).of_acquire acquired (.inr ⟨rfl, otherHeld⟩)).elim
              | shared => exact ⟨rfl, rfl⟩
          · obtain ⟨hidden, hiddenListed, same⟩ := mem_map.mp otherSecret
            cases same
            exact absurd hiddenListed (isPublic.2 other)
        · exact absurd (sound.exclusive thread other _ _ (mem_claims_of_secret secret) claim').symm
            notSame
    · exact .inl (mem_append_right _ secret)
  · rw [own]
    exact knows.mono (stays.evolves sound _)

theorem Sound.unlatch (was : state.phases thread = before) (holds : (ptr, mode) ∈ before.held)
    (held : ∀ item, item ∈ phase.held ↔ item ∈ before.held ∧ item ≠ (ptr, mode))
    (secrets : ∀ ptr ∈ phase.secrets state.tree.root, ptr ∈ before.secrets state.tree.root)
    (shown : ∀ ptr ∈ before.secrets state.tree.root,
      ptr ∈ phase.secrets state.tree.root ∨ outline.height ptr < outline.height state.tree.root)
    (pending : phase.pending = before.pending)
    (grows : ∀ current ptr, before.grows state.tree.root = some (current, ptr) →
      phase.grows state.tree.root = some (current, ptr))
    (knows : Knows ((state.unlatch thread ptr mode phase).view outline) phase) :
    Sound params outline (state.unlatch thread ptr mode phase) := by
  subst was
  have own : (state.unlatch thread ptr mode phase).phases thread = phase := State.goTo_self
  have stays : Stays outline state (state.unlatch thread ptr mode phase) thread := by
    refine ⟨rfl, fun other => State.goTo_of_ne, ?_, ?_, ?_, ?_⟩
    · rwa [own]
    · rwa [own]
    · rw [own, pending]
      exact fun _ => id
    · rw [own]
      exact fun current ptr _ same _ => grows current ptr same
  refine stays.sound sound ?_ ?_ ?_
  · refine sound.latched.release holds ?_ ?_
    · exact fun other notSame => congrArg Phase.held (State.goTo_of_ne notSame)
    · intro item
      rw [own, held]
  · intro ptr' mode' claim
    left
    rw [State.claims, own, Phase.claims, mem_append, held] at claim
    rcases claim with ⟨before, _⟩ | secret
    · exact mem_claims_of_held before
    · obtain ⟨hidden, hiddenListed, same⟩ := mem_map.mp secret
      cases same
      exact mem_claims_of_secret (secrets _ hiddenListed)
  · rwa [own]

end

end Steps

end IndexResearch.BLinkTree
