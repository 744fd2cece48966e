import IndexResearch.BLinkTree.Pages
import IndexResearch.BLinkTree.Threads

/-!
# What a thread can rely on

The nodes that a thread has latched are not changed by others, and neither are those that
it made and has not shown yet.  Apart from these, it can rely only on what never changes:
the heights and low edges of the nodes that everybody may know of.
-/

namespace IndexResearch.BLinkTree

open LinkedPages List

variable {K V : Type}

namespace Phase

/-- The nodes that nobody else can reach: a new node until the latch of its left neighbour
is given back, and a new root until it is the root. -/
def secrets (root : Ptr) : Phase K V → List Ptr
  | climbing _ _ _ newNode => [newNode]
  | raising climb work | raised climb work =>
    if climb.current = root then [climb.newNode, work] else [climb.newNode]
  | sliding climb _ | slidingOn climb _ _ | slidOn climb _ _ | parting climb _ => [climb.newNode]
  | _ => []

def claims (root : Ptr) (phase : Phase K V) : List (Ptr × Mode) :=
  phase.held ++ (phase.secrets root).map (·, .exclusive)

def pending : Phase K V → Option Ptr
  | climbing _ _ _ newNode => some newNode
  | raising climb _ | raised climb _ | sliding climb _ | slidingOn climb _ _ | slidOn climb _ _
  | parting climb _ | joining climb _ => some climb.newNode
  | _ => none

end Phase

structure View (K V : Type) where
  outline : Outline Ptr K V
  root : Ptr
  /-- `upper_level_`. -/
  upper : Ptr → Ptr
  /-- The nodes that every thread may know of. -/
  Public : Ptr → Prop
  stored : ∀ ptr, Public ptr → (outline.page ptr).isSome

section Order

variable [LinearOrder K]

namespace View

variable (view : View K V)

structure OnWay (key : K) (height : Nat) (ptr : Ptr) : Prop where
  isPublic : view.Public ptr
  height_eq : view.outline.height ptr = height
  above : view.outline.low ptr < (key : WithTop K)

def Trail (key : K) : Nat → List Ptr → Prop
  | _, [] => True
  | height, ptr :: rest => view.OnWay key (height + 1) ptr ∧ Trail key (height + 1) rest

structure Split (key : K) (height : Nat) (current newNode : Ptr) : Prop
    extends OnWay view key height current where
  left : ∃ page, view.outline.page current = some page ∧ page.link = some newNode
  right : ∃ page, view.outline.page newNode = some page ∧ page.bounds ≠ [] ∧
    (key : WithTop K) ≤ page.bound

structure Ascends (climb : Climb K) (height : Nat) : Prop
    extends Split view climb.key height climb.current climb.newNode where
  trail : view.Trail climb.key (height + 1) climb.stack
  leftMax : ∃ page, view.outline.page climb.current = some page ∧ page.bound = climb.leftMaxKey
  rightMax : ∃ page, view.outline.page climb.newNode = some page ∧
    (climb.rightMaxKey : WithTop K) ∈ page.bounds ∧
    (page.link ≠ none → page.bound = climb.rightMaxKey)
  grounded : view.outline.Grounded climb.leftMaxKey

/-- A node of the level above that does not start behind `current`. -/
structure Covers (height : Nat) (current work : Ptr) : Prop where
  isStored : (view.outline.page work).isSome
  height_eq : view.outline.height work = height + 1
  low_le : view.outline.low work ≤ view.outline.low current

/-- `current` is the root, and `work` is going to be the root above it. -/
structure Sprouts (climb : Climb K) (work : Ptr) : Prop where
  root_eq : climb.current = view.root
  upperLeft : view.upper climb.current = work
  upperRight : view.upper climb.newNode = work

def Rises (climb : Climb K) (work : Ptr) : Prop :=
  ∃ height, view.Ascends climb height ∧ view.Covers height climb.current work ∧
    (view.Public work ∨ view.Sprouts climb work)

def Slides (climb : Climb K) (work : Ptr) : Prop :=
  ∃ height, view.Ascends climb height ∧ view.Covers height climb.current work ∧
    view.Public work ∧ climb.current ≠ view.root

/-- The new node belongs behind a cell of `work`. -/
structure Joins (climb : Climb K) (work : Ptr) (height : Nat) : Prop where
  onWay : view.OnWay climb.key (height + 1) work
  trail : view.Trail climb.key (height + 1) climb.stack
  isPublicLeft : view.Public climb.current
  height_left : view.outline.height climb.current = height
  isPublicRight : view.Public climb.newNode
  height_right : view.outline.height climb.newNode = height
  low_right : view.outline.low climb.newNode = (climb.leftMaxKey : WithTop K)
  above : view.outline.low work < (climb.leftMaxKey : WithTop K)
  wide : ∃ page, view.outline.page work = some page ∧
    (climb.leftMaxKey : WithTop K) < page.bound ∧ (climb.key : WithTop K) ≤ page.bound
  grounded : view.outline.Grounded climb.leftMaxKey

end View

/-! ## Scans -/

namespace Operation

/-- `kv_pairs` of a scan. -/
def kvPairs : Operation K V → Option (List (K × V))
  | scanFixed _ _ kvPairs => some kvPairs
  | scanRange _ _ kvPairs => some kvPairs
  | _ => none

/-- What a scan takes from a list when it has appended `scanned` entries. -/
def cutAt (scanned : Nat) (entries : List (K × V)) : Operation K V → List (K × V)
  | scanFixed _ scanSz _ => entries.take (scanSz - scanned)
  | scanRange _ rightKey _ => entries.takeWhile fun entry => decide (entry.1 < rightKey)
  | _ => []

end Operation

def found (outline : Outline Ptr K V) (key : K) (leaves : List Ptr) : List (K × V) :=
  (leaves.reverse.flatMap outline.entriesAt).filter fun entry => decide (key ≤ entry.1)

structure Scans (outline : Outline Ptr K V) (operation : Operation K V) (current : Ptr)
    (rest : List Ptr) : Prop where
  bottom : outline.height current = 0
  chained : outline.Chained (current :: rest)
  inside : ∃ page, outline.page current = some page ∧ (operation.key : WithTop K) ≤ page.bound
  start : ∃ first, (current :: rest).getLast? = some first ∧
    outline.low first < (operation.key : WithTop K)
  filled : found outline operation.key (current :: rest) ≠ []

structure Gathers (outline : Outline Ptr K V) (operation : Operation K V) (leaves : List Ptr)
    (scanned : Nat) (kvPairs : List (K × V)) : Prop where
  kvPairs_eq : ∃ initial, operation.kvPairs = some initial ∧
    kvPairs = initial ++ found outline operation.key leaves
  goesOn : ∀ tail, operation.cutAt 0 (found outline operation.key leaves ++ tail) =
    found outline operation.key leaves ++ operation.cutAt scanned tail

def Knows (view : View K V) : Phase K V → Prop
  | .descending operation stack current | .leaving operation stack _ current =>
    ∃ height, view.OnWay operation.key height current ∧ view.Trail operation.key height stack
  | .entering operation stack work | .visiting operation stack work =>
    ∃ height, view.OnWay operation.key (height + 1) work ∧
      view.Trail operation.key (height + 1) stack
  | .arriving operation stack current | .arrived operation stack current =>
    view.OnWay operation.key 0 current ∧ view.Trail operation.key 0 stack
  | .coupling key _ stack current work | .coupled key _ stack current work =>
    view.OnWay key 0 work ∧ view.Trail key 0 stack ∧
      ∃ page, view.outline.page current = some page ∧ page.link = some work
  | .hopping operation _ work => view.OnWay operation.key 0 work
  | .scanning operation scanStack index scanned kvPairs =>
    ∃ current rest, scanStack = current :: rest ∧ Scans view.outline operation current rest ∧
      Gathers view.outline operation rest scanned kvPairs ∧
      index ≤ (view.outline.entriesAt current).length ∧
      (view.outline.entriesAt current).drop index = found view.outline operation.key [current]
  | .scanNext operation scanStack next scanned kvPairs =>
    ∃ current rest, scanStack = current :: rest ∧ Scans view.outline operation current rest ∧
      Gathers view.outline operation (current :: rest) scanned kvPairs ∧ view.Public next ∧
      ∃ page, view.outline.page current = some page ∧ page.link = some next
  | .climbing key stack current newNode =>
    ∃ height, view.Split key height current newNode ∧ view.Trail key height stack
  | .raising climb work | .raised climb work => view.Rises climb work
  | .sliding climb work => view.Slides climb work
  | .slidingOn climb work siblingNode | .slidOn climb work siblingNode =>
    view.Slides climb siblingNode ∧
      ∃ page, view.outline.page work = some page ∧ page.link = some siblingNode
  | .parting climb work =>
    view.Slides climb work ∧ ∃ page, view.outline.page work = some page ∧
      (climb.leftMaxKey : WithTop K) < page.bound ∧ (climb.key : WithTop K) ≤ page.bound
  | .joining climb work => ∃ height, view.Joins climb work height
  | .finishing _ _ latched => latched.Nodup
  | .crashed _ => False
  | _ => True

structure View.Evolves (view later : View K V) (claims : List (Ptr × Mode)) : Prop
    extends view.outline.Extends later.outline where
  kept : ∀ ptr mode, (ptr, mode) ∈ claims →
    later.outline.page ptr = view.outline.page ptr ∧ later.upper ptr = view.upper ptr
  isPublic : ∀ ptr, view.Public ptr → later.Public ptr
  root_iff : ∀ ptr, (ptr, .exclusive) ∈ claims → (ptr = later.root ↔ ptr = view.root)

namespace View.Evolves

variable {view later : View K V} {claims : List (Ptr × Mode)} {key : K} {height : Nat}
  {current newNode work : Ptr} {stack : List Ptr} {climb : Climb K}

theorem onWay (evolves : view.Evolves later claims) (known : view.OnWay key height current) :
    later.OnWay key height current := by
  have stored := view.stored current known.isPublic
  refine ⟨evolves.isPublic current known.isPublic, ?_, ?_⟩
  · rw [evolves.height_eq current stored, known.height_eq]
  · rw [evolves.low_eq current stored]
    exact known.above

theorem trail (evolves : view.Evolves later claims) (known : view.Trail key height stack) :
    later.Trail key height stack := by
  induction stack generalizing height with
  | nil => trivial
  | cons ptr rest ih => exact ⟨evolves.onWay known.1, ih known.2⟩

omit [LinearOrder K] in
theorem page_eq (evolves : view.Evolves later claims) {mode : Mode}
    (claimed : (current, mode) ∈ claims)
    {page : Page Ptr K V} (known : view.outline.page current = some page) :
    later.outline.page current = some page := (evolves.kept current mode claimed).1.trans known

theorem ascends_of_pages (evolves : view.Evolves later claims) (known : view.Ascends climb height)
    (left : later.outline.page climb.current = view.outline.page climb.current)
    (right : later.outline.page climb.newNode = view.outline.page climb.newNode) :
    later.Ascends climb height where
  toOnWay := evolves.onWay known.toOnWay
  left := by rw [left]; exact known.left
  right := by rw [right]; exact known.right
  trail := evolves.trail known.trail
  leftMax := by rw [left]; exact known.leftMax
  rightMax := by rw [right]; exact known.rightMax
  grounded := evolves.grounded _ known.grounded

theorem split (evolves : view.Evolves later claims) (known : view.Split key height current newNode)
    (left : (current, .exclusive) ∈ claims) (right : (newNode, .exclusive) ∈ claims) :
    later.Split key height current newNode := by
  obtain ⟨page, stored, link⟩ := known.left
  obtain ⟨page', stored', facts⟩ := known.right
  exact ⟨evolves.onWay known.toOnWay, ⟨page, evolves.page_eq left stored, link⟩,
    page', evolves.page_eq right stored', facts⟩

theorem ascends (evolves : view.Evolves later claims) (known : view.Ascends climb height)
    (left : (climb.current, .exclusive) ∈ claims) (right : (climb.newNode, .exclusive) ∈ claims) :
    later.Ascends climb height :=
  evolves.ascends_of_pages known (evolves.kept _ _ left).1 (evolves.kept _ _ right).1

theorem covers (evolves : view.Evolves later claims) (known : view.Covers height current work)
    (isPublic : view.Public current) : later.Covers height current work := by
  refine ⟨evolves.stored work known.isStored, ?_, ?_⟩
  · rw [evolves.height_eq work known.isStored, known.height_eq]
  · rw [evolves.low_eq work known.isStored, evolves.low_eq current (view.stored current isPublic)]
    exact known.low_le

omit [LinearOrder K] in
theorem sprouts (evolves : view.Evolves later claims) (known : view.Sprouts climb work)
    (left : (climb.current, .exclusive) ∈ claims) (right : (climb.newNode, .exclusive) ∈ claims) :
    later.Sprouts climb work where
  root_eq := (evolves.root_iff _ left).mpr known.root_eq
  upperLeft := (evolves.kept _ _ left).2.trans known.upperLeft
  upperRight := (evolves.kept _ _ right).2.trans known.upperRight

theorem rises (evolves : view.Evolves later claims) (known : view.Rises climb work)
    (left : (climb.current, .exclusive) ∈ claims) (right : (climb.newNode, .exclusive) ∈ claims) :
    later.Rises climb work := by
  obtain ⟨height, ascends, covers, isNew⟩ := known
  refine ⟨height, evolves.ascends ascends left right, evolves.covers covers ascends.isPublic, ?_⟩
  rcases isNew with isPublic | sprouts
  · exact .inl (evolves.isPublic _ isPublic)
  · exact .inr (evolves.sprouts sprouts left right)

theorem slides (evolves : view.Evolves later claims) (known : view.Slides climb work)
    (left : (climb.current, .exclusive) ∈ claims) (right : (climb.newNode, .exclusive) ∈ claims) :
    later.Slides climb work := by
  obtain ⟨height, ascends, covers, isPublic, notRoot⟩ := known
  exact ⟨height, evolves.ascends ascends left right, evolves.covers covers ascends.isPublic,
    evolves.isPublic _ isPublic, (evolves.root_iff _ left).not.mpr notRoot⟩

theorem joins (evolves : view.Evolves later claims) (known : view.Joins climb work height)
    (claimed : (work, .exclusive) ∈ claims) : later.Joins climb work height := by
  have storedLeft := view.stored _ known.isPublicLeft
  have storedRight := view.stored _ known.isPublicRight
  obtain ⟨page, stored, facts⟩ := known.wide
  constructor
  · exact evolves.onWay known.onWay
  · exact evolves.trail known.trail
  · exact evolves.isPublic _ known.isPublicLeft
  · rw [evolves.height_eq _ storedLeft, known.height_left]
  · exact evolves.isPublic _ known.isPublicRight
  · rw [evolves.height_eq _ storedRight, known.height_right]
  · rw [evolves.low_eq _ storedRight, known.low_right]
  · rw [evolves.low_eq work (by rw [stored]; rfl)]
    exact known.above
  · exact ⟨page, evolves.page_eq claimed stored, facts⟩
  · exact evolves.grounded _ known.grounded

end View.Evolves

section Leaves

variable {outline later : Outline Ptr K V} {operation : Operation K V} {current : Ptr}
  {leaves rest : List Ptr}

theorem found_congr (same : ∀ ptr ∈ leaves, later.page ptr = outline.page ptr) (key : K) :
    found later key leaves = found outline key leaves := by
  rw [found, found]
  congr 1
  apply flatMap_congr
  intro ptr listed
  rw [Outline.entriesAt, Outline.entriesAt, same ptr (mem_reverse.mp listed)]

omit [LinearOrder K] in
theorem chained_congr (same : ∀ ptr ∈ leaves, later.page ptr = outline.page ptr)
    (chained : outline.Chained leaves) : later.Chained leaves := by
  induction leaves with
  | nil => trivial
  | cons ptr rest ih =>
    cases rest with
    | nil => trivial
    | cons before rest =>
      obtain ⟨⟨page, stored, link⟩, chainedRest⟩ := chained
      refine ⟨⟨page, ?_, link⟩, ih (fun other listed =>
        same other (mem_cons_of_mem _ listed)) chainedRest⟩
      rw [same before (mem_cons_of_mem _ mem_cons_self), stored]

theorem Gathers.congr {scanned : Nat} {kvPairs : List (K × V)}
    (gathers : Gathers outline operation leaves scanned kvPairs)
    (same : ∀ ptr ∈ leaves, later.page ptr = outline.page ptr) :
    Gathers later operation leaves scanned kvPairs := by
  obtain ⟨kvPairs_eq, goesOn⟩ := gathers
  rw [← found_congr same] at kvPairs_eq goesOn
  exact ⟨kvPairs_eq, goesOn⟩

end Leaves

theorem Scans.mono {view later : View K V} {claims : List (Ptr × Mode)} {operation : Operation K V}
    {current : Ptr} {rest : List Ptr} (scans : Scans view.outline operation current rest)
    (evolves : view.Evolves later claims)
    (claimed : ∀ ptr ∈ current :: rest, (ptr, .shared) ∈ claims)
    (stored : ∀ ptr ∈ current :: rest, (view.outline.page ptr).isSome) :
    Scans later.outline operation current rest := by
  have same : ∀ ptr ∈ current :: rest, later.outline.page ptr = view.outline.page ptr :=
    fun ptr listed => (evolves.kept ptr _ (claimed ptr listed)).1
  obtain ⟨page, here, inside⟩ := scans.inside
  obtain ⟨first, firstEq, above⟩ := scans.start
  constructor
  · rw [evolves.height_eq current (stored current mem_cons_self), scans.bottom]
  · exact chained_congr same scans.chained
  · exact ⟨page, (same current mem_cons_self).trans here, inside⟩
  · refine ⟨first, firstEq, ?_⟩
    rw [evolves.low_eq first (stored first (mem_of_getLast? firstEq))]
    exact above
  · rw [found_congr same]
    exact scans.filled

theorem Scans.stored {outline : Outline Ptr K V} {operation : Operation K V} {current : Ptr}
    {rest : List Ptr} (scans : Scans outline operation current rest) :
    ∀ ptr ∈ current :: rest, (outline.page ptr).isSome := by
  obtain ⟨page, here, _⟩ := scans.inside
  have chained := scans.chained
  clear scans
  have behind : ∀ {before : List Ptr} {last : Ptr}, outline.Chained (last :: before) →
      ∀ ptr ∈ before, (outline.page ptr).isSome := by
    intro before
    induction before with
    | nil => simp
    | cons ptr more ih =>
      rintro last ⟨⟨page, stored, _⟩, chainedRest⟩ other listed
      rcases mem_cons.mp listed with rfl | later
      · rw [stored]
        rfl
      · exact ih chainedRest other later
  intro ptr listed
  rcases mem_cons.mp listed with rfl | later
  · rw [here]
    rfl
  · exact behind chained ptr later

theorem Knows.mono {view later : View K V} {phase : Phase K V} (knows : Knows view phase)
    (evolves : view.Evolves later (phase.claims view.root)) : Knows later phase := by
  have held : ∀ {ptr mode}, (ptr, mode) ∈ phase.held → (ptr, mode) ∈ phase.claims view.root :=
    fun listed => mem_append_left _ listed
  have secret : ∀ {ptr}, ptr ∈ phase.secrets view.root →
    (ptr, .exclusive) ∈ phase.claims view.root :=
    fun listed => mem_append_right _ (mem_map_of_mem listed)
  cases phase with
  | idle => trivial
  | started => trivial
  | finishing | crashed => exact knows
  | descending | entering | visiting | leaving =>
    obtain ⟨height, onWay, trail⟩ := knows
    exact ⟨height, evolves.onWay onWay, evolves.trail trail⟩
  | arriving | arrived => exact ⟨evolves.onWay knows.1, evolves.trail knows.2⟩
  | coupling | coupled =>
    obtain ⟨onWay, trail, page, stored, link⟩ := knows
    exact ⟨evolves.onWay onWay, evolves.trail trail, page,
      evolves.page_eq (held mem_cons_self) stored, link⟩
  | hopping => exact evolves.onWay knows
  | scanning =>
    obtain ⟨current, rest, rfl, scans, gathers, bounded, drop_eq⟩ := knows
    have claimed : ∀ ptr ∈ current :: rest, (ptr, Mode.shared) ∈ _ :=
      fun ptr listed => held (mem_map_of_mem listed)
    have same : ∀ ptr ∈ current :: rest, later.outline.page ptr = view.outline.page ptr :=
      fun ptr listed => (evolves.kept ptr _ (claimed ptr listed)).1
    have sameEntries : later.outline.entriesAt current = view.outline.entriesAt current := by
      rw [Outline.entriesAt, Outline.entriesAt, same current mem_cons_self]
    refine ⟨current, rest, rfl, scans.mono evolves claimed scans.stored,
      gathers.congr fun ptr listed => same ptr (mem_cons_of_mem _ listed), ?_, ?_⟩
    · rwa [sameEntries]
    · rw [sameEntries, drop_eq]
      refine (found_congr (fun ptr listed => ?_) _).symm
      obtain rfl := mem_singleton.mp listed
      exact same ptr mem_cons_self
  | scanNext =>
    obtain ⟨current, rest, rfl, scans, gathers, isPublic, page, stored, link⟩ := knows
    have claimed : ∀ ptr ∈ current :: rest, (ptr, Mode.shared) ∈ _ :=
      fun ptr listed => held (mem_map_of_mem listed)
    have same : ∀ ptr ∈ current :: rest, later.outline.page ptr = view.outline.page ptr :=
      fun ptr listed => (evolves.kept ptr _ (claimed ptr listed)).1
    exact ⟨current, rest, rfl, scans.mono evolves claimed scans.stored, gathers.congr same,
      evolves.isPublic _ isPublic, page, (same current mem_cons_self).trans stored, link⟩
  | climbing =>
    obtain ⟨height, split, trail⟩ := knows
    exact ⟨height, evolves.split split (held mem_cons_self) (secret mem_cons_self),
      evolves.trail trail⟩
  | raising climb work | raised climb work =>
    refine evolves.rises knows (held mem_cons_self) (secret ?_)
    rw [Phase.secrets]
    split <;> exact mem_cons_self
  | sliding => exact evolves.slides knows (held mem_cons_self) (secret mem_cons_self)
  | slidingOn | slidOn =>
    obtain ⟨slides, page, stored, link⟩ := knows
    exact ⟨evolves.slides slides (held mem_cons_self) (secret mem_cons_self), page,
      evolves.page_eq (held (mem_cons_of_mem _ mem_cons_self)) stored, link⟩
  | parting =>
    obtain ⟨slides, page, stored, wide⟩ := knows
    exact ⟨evolves.slides slides (held mem_cons_self) (secret mem_cons_self), page,
      evolves.page_eq (held (mem_cons_of_mem _ mem_cons_self)) stored, wide⟩
  | joining climb work =>
    obtain ⟨height, joins⟩ := knows
    exact ⟨height, evolves.joins joins (held mem_cons_self)⟩

end Order

end IndexResearch.BLinkTree
