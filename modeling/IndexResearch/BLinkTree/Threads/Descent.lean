import IndexResearch.BLinkTree.Threads.Sound

/-!
# Descents among other threads

A thread that looks for a key goes to nodes that do not start behind the key.  A node may
have been split since it was found; then the key is further right, and the links lead
there.
-/

namespace IndexResearch.BLinkTree

open LinkedPages List

variable {Thread K V : Type}

/-- Where the call of a thread stands for those who see only calls and answers.  An
insertion has taken effect when its entry is in a leaf. -/
def Phase.status : Phase K V → Status (Operation K V) (Answer K V)
  | idle | crashed _ => .idle
  | started operation | descending operation _ _ | entering operation _ _ | visiting operation _ _
  | leaving operation _ _ _ | arriving operation _ _ | arrived operation _ _ | hopping operation _ _
  | scanning operation _ _ _ _ | scanNext operation _ _ _ _ => .pending operation
  | coupling key value _ _ _ | coupled key value _ _ _ => .pending (.insert key value)
  | climbing _ _ _ _ | raising _ _ | raised _ _ | sliding _ _ | slidingOn _ _ _ | slidOn _ _ _
  | parting _ _ | joining _ _ => .done (.status true)
  | finishing answer _ _ => .done answer

variable [LinearOrder K]

def Proceeds [DecidableEq Thread] (params : Parameters) (map : OrderedMap K V)
    (state : State Thread K V) (thread : Thread) (result : Except Fault (Tree K V × Phase K V)) :
    Prop :=
  ∃ tree phase outline map', result = .ok (tree, phase) ∧
    Sound params outline { state.goTo thread phase with tree := tree } ∧ outline.Holds map' ∧
    Advances Operation.apply (state.phases thread).status map
      phase.status map'

variable {params : Parameters} {outline : Outline Ptr K V} {state : State Thread K V}
  {thread other : Thread} {ptr next : Ptr} {mode : Mode} {page : Page Ptr K V}
  {map : OrderedMap K V}

theorem Knows.of_secret {view : View K V} {phase : Phase K V} (knows : Knows view phase)
    (rootLow : view.outline.low view.root = ⊥) (secret : ptr ∈ phase.secrets view.root) :
    (∃ key height current, view.Split key height current ptr ∧ (current, .exclusive) ∈ phase.held) ∨
      (view.outline.low ptr = ⊥ ∧ view.outline.height ptr = view.outline.height view.root + 1 ∧
        ((view.root, .exclusive) ∈ phase.held)) := by
  have ofAscends : ∀ {climb : Climb K} {height : Nat}, ptr ∈ [climb.newNode] →
      view.Ascends climb height → (climb.current, Mode.exclusive) ∈ phase.held →
      ∃ key height current, view.Split key height current ptr ∧
        (current, Mode.exclusive) ∈ phase.held := by
    intro climb height listed ascends held
    obtain rfl := mem_singleton.mp listed
    exact ⟨_, height, _, ascends.toSplit, held⟩
  have ofRises : ∀ {climb : Climb K} {work : Ptr},
      ptr ∈ (if climb.current = view.root then [climb.newNode, work] else [climb.newNode]) →
      view.Rises climb work → (climb.current, Mode.exclusive) ∈ phase.held →
      (∃ key height current, view.Split key height current ptr ∧
        (current, Mode.exclusive) ∈ phase.held) ∨
      (view.outline.low ptr = ⊥ ∧ view.outline.height ptr = view.outline.height view.root + 1 ∧
        ((view.root, Mode.exclusive) ∈ phase.held)) := by
    rintro climb work listed ⟨height, ascends, covers, _⟩ held
    by_cases isRoot : climb.current = view.root
    · rw [if_pos isRoot, mem_cons, mem_singleton] at listed
      rcases listed with rfl | rfl
      · exact .inl (ofAscends mem_cons_self ascends held)
      · right
        have lowLe := covers.low_le
        rw [isRoot, rootLow] at lowLe
        have heightEq := ascends.height_eq
        rw [isRoot] at heightEq held
        exact ⟨le_bot_iff.mp lowLe, by rw [covers.height_eq, heightEq], held⟩
    · rw [if_neg isRoot] at listed
      exact .inl (ofAscends listed ascends held)
  cases phase with
  | climbing =>
    obtain rfl := mem_singleton.mp secret
    obtain ⟨height, split, _⟩ := knows
    exact .inl ⟨_, height, _, split, mem_cons_self⟩
  | raising | raised => exact ofRises secret knows mem_cons_self
  | sliding =>
    obtain ⟨height, ascends, _⟩ := knows
    exact .inl (ofAscends secret ascends mem_cons_self)
  | slidingOn | slidOn | parting =>
    obtain ⟨⟨height, ascends, _⟩, _⟩ := knows
    exact .inl (ofAscends secret ascends mem_cons_self)
  | _ => cases secret

section

variable (sound : Sound params outline state)
include sound

theorem Sound.link_public (here : outline.page ptr = some page) (link : page.link = some next)
    (claimed : (ptr, mode) ∈ state.claims thread)
    (notOwn : next ∉ (state.phases thread).secrets state.tree.root) :
    (state.view outline).Public next := by
  obtain ⟨stored, _, lowEq⟩ := sound.wellFormed.linked ptr page next here link
  refine ⟨stored, fun anyone secret => ?_⟩
  rcases (sound.knows anyone).of_secret sound.rootLow secret with
    ⟨_, _, current, split, held⟩ | ⟨low, _⟩
  · obtain ⟨page', there, link'⟩ := split.left
    obtain rfl := sound.wellFormed.link_inj here link there link'
    obtain rfl := sound.exclusive anyone thread ptr mode (mem_claims_of_held held) claimed
    exact notOwn secret
  · change outline.low next = ⊥ at low
    rw [lowEq] at low
    exact WithBot.coe_ne_bot low

theorem Sound.not_seed (claimed : (ptr, mode) ∈ state.claims thread)
    (grows : (state.phases thread).grows state.tree.root = none) {link : Option Ptr} :
    outline.page ptr ≠ some (.inner [] link) := by
  intro seed
  obtain ⟨anyone, current, growing, _⟩ := sound.seeds ptr link seed
  obtain rfl := sound.exclusive anyone thread ptr mode (Phase.claims_of_grows growing) claimed
  rw [grows] at growing
  cases growing

theorem Sound.exists_node (here : outline.page ptr = some page) :
    ∃ node, state.tree.nodeAt ptr = .ok node ∧ state.tree.nodes ptr = some node ∧
      node.Shows params page ∧ outline.Ordered ptr page := by
  obtain ⟨node, stored, shows_⟩ := sound.draws.shown ptr page here
  exact ⟨node, Tree.nodeAt_eq stored, stored, shows_, sound.wellFormed.ordered ptr page here⟩

end

theorem insert_of_separator (holds : outline.Holds map) {key : K} {value : V}
    (grounded : outline.Grounded key) :
    Operation.apply map (.insert key value) = (.status false, map) := by
  obtain ⟨entry, listed, same⟩ := holds.of_grounded grounded
  have bound : findKey Prod.fst map.entries key ≠ none := by
    intro absent
    exact findKey_eq_none.mp absent entry listed same
  simp only [Operation.apply, OrderedMap.insert, dif_neg bound]

section Steps

variable [DecidableEq Thread]

def Phase.Plain (phase : Phase K V) : Prop :=
  ∀ root, phase.secrets root = [] ∧ phase.pending = none ∧ phase.grows root = none

variable (sound : Sound params outline state) (holds : outline.Holds map)
  {operation : Operation K V} {stack : List Ptr} {current work : Ptr}
include sound holds

theorem Proceeds.think {result : Except Fault (Tree K V × Phase K V)} {before : Phase K V}
    (after : Phase K V) (phase : state.phases thread = before) (plain : before.Plain)
    (returns : result = .ok (state.tree, after)) (plain' : after.Plain)
    (held : after.held = before.held) (knows : Knows (state.view outline) after)
    (advances : Advances Operation.apply
      before.status map after.status map) :
    Proceeds params map state thread result := by
  obtain ⟨secrets, _, grows⟩ := plain state.tree.root
  obtain ⟨secrets', pending', _⟩ := plain' state.tree.root
  refine ⟨state.tree, after, outline, map, returns, sound.goTo phase held
    (secrets'.trans secrets.symm) ?_ ?_ knows, holds, ?_⟩
  · intro ptr isPending
    rw [pending'] at isPending
    cases isPending
  · intro current ptr link growing
    rw [grows] at growing
    cases growing
  · rw [phase]
    exact advances

theorem start_proceeds (phase : state.phases thread = .started operation) :
    Proceeds params map state thread
      (.ok (state.tree, .descending operation [] state.tree.root)) := by
  refine .think sound holds _ phase (fun _ => ⟨rfl, rfl, rfl⟩) rfl (fun _ => ⟨rfl, rfl, rfl⟩) rfl
    ⟨_, ⟨sound.rootPublic, rfl, ?_⟩, trivial⟩ .rest
  change outline.low state.tree.root < _
  rw [sound.rootLow]
  exact WithBot.bot_lt_coe _

theorem descend_proceeds (phase : state.phases thread = .descending operation stack current) :
    Proceeds params map state thread (do
      let node ← state.tree.nodeAt current
      return (state.tree, if node.isLeaf then .arriving operation stack current
        else .entering operation stack current)) := by
  have knows := sound.knows thread
  rw [phase] at knows
  obtain ⟨height, onWay, trail⟩ := knows
  obtain ⟨page, here⟩ := Option.isSome_iff_exists.mp onWay.isPublic.1
  obtain ⟨node, nodeEq, _, shows_, ordered⟩ := sound.exists_node here
  have kind := shows_.isLeaf_iff ordered
  by_cases leaf : node.isLeaf = true
  · obtain rfl : height = 0 := onWay.height_eq.symm.trans (kind.mp leaf)
    refine .think sound holds (.arriving operation stack current) phase
      (fun _ => ⟨rfl, rfl, rfl⟩) ?_
      (fun _ => ⟨rfl, rfl, rfl⟩) rfl ⟨onWay, trail⟩ .rest
    rw [nodeEq]
    simp only [ok_bind, leaf, if_true]
    rfl
  · have notBottom : outline.height current ≠ 0 := fun bottom => leaf (kind.mpr bottom)
    obtain ⟨below, heightEq⟩ := Nat.exists_eq_succ_of_ne_zero notBottom
    obtain rfl : height = below + 1 := onWay.height_eq.symm.trans heightEq
    refine .think sound holds (.entering operation stack current) phase
      (fun _ => ⟨rfl, rfl, rfl⟩) ?_
      (fun _ => ⟨rfl, rfl, rfl⟩) rfl ⟨below, onWay, trail⟩ .rest
    rw [nodeEq]
    simp only [ok_bind, leaf]
    rfl

theorem visit_proceeds (phase : state.phases thread = .visiting operation stack work) :
    Proceeds params map state thread (do
      let phase ← visit state.tree operation stack work
      return (state.tree, phase)) := by
  have knows := sound.knows thread
  rw [phase] at knows
  obtain ⟨height, onWay, trail⟩ := knows
  obtain ⟨page, here⟩ := Option.isSome_iff_exists.mp onWay.isPublic.1
  obtain ⟨node, nodeEq, _, shows_, ordered⟩ := sound.exists_node here
  have held : (work, Mode.shared) ∈ (state.phases thread).held := by
    rw [phase]
    exact mem_cons_self
  have plain : (Phase.visiting operation stack work : Phase K V).Plain := fun _ => ⟨rfl, rfl, rfl⟩
  have before := shows_.isBefore_eq ordered operation.key
  by_cases beyond : page.bound < (operation.key : WithTop K)
  · rcases shows_.link_cases with ⟨link, _⟩ | ⟨link, _⟩
    · rw [Page.bound_of_link_none link] at beyond
      exact absurd beyond not_top_lt
    · obtain ⟨_, heightEq, lowEq⟩ := sound.wellFormed.linked _ _ _ here link
      have isPublic := sound.link_public here link (mem_claims_of_held held) (by
        rw [phase]
        exact not_mem_nil)
      refine .think sound holds (.leaving operation stack work node.siblingPtr) phase plain ?_
        (fun _ => ⟨rfl, rfl, rfl⟩) rfl ⟨height + 1, ⟨isPublic, ?_, ?_⟩, trail⟩ .rest
      · rw [visit, nodeEq]
        simp only [ok_bind, before, decide_eq_true beyond, if_true]
        rfl
      · exact heightEq.trans onWay.height_eq
      · change outline.low node.siblingPtr < _
        rw [lowEq]
        exact WithBot.coe_lt_coe.mpr beyond
  · have upTo : (operation.key : WithTop K) ≤ page.bound := le_of_not_gt beyond
    have hasCells : page.cells ≠ [] := by
      intro empty
      cases shows_ with
      | leaf =>
        cases ordered with
        | leaf bottom =>
          have upper : outline.height work = height + 1 := onWay.height_eq
          omega
      | inner isBranch =>
        rw [Page.cells] at empty
        rw [empty] at here
        exact sound.not_seed (mem_claims_of_held held) (by rw [phase]; rfl) here
      | seed => exact sound.not_seed (mem_claims_of_held held) (by rw [phase]; rfl) here
    obtain ⟨child, hit, passes, ⟨cell, listed, childEq⟩, heightEq, above, ground⟩ :=
      shows_.exists_passes ordered hasCells onWay.above upTo
    obtain ⟨index, scanned, childAt, hits⟩ := passes.child
    have isPublic : (state.view outline).Public child :=
      childEq ▸ sound.posted work page here cell listed
    have childWay : (state.view outline).OnWay operation.key height child := by
      refine ⟨isPublic, ?_, above⟩
      have upper : outline.height work = height + 1 := onWay.height_eq
      change outline.height child = height
      omega
    have passOn : (∀ key value, operation ≠ .insert key value) →
      Proceeds params map state thread (do
        let phase ← visit state.tree operation stack work
        return (state.tree, phase)) := by
      intro notInsert
      refine .think sound holds (.leaving operation [] work child) phase plain ?_
        (fun _ => ⟨rfl, rfl, rfl⟩) rfl ⟨height, childWay, trivial⟩ .rest
      rw [visit, nodeEq]
      simp only [ok_bind, before, decide_eq_false beyond, Bool.false_eq_true, if_false, scanned]
      cases operation with
      | insert key value => exact absurd rfl (notInsert key value)
      | _ =>
        simp only [childAt]
        rfl
    cases operation with
    | insert key value =>
      have hits' : node.hasAt index key = .ok hit := hits
      cases hit with
      | true =>
        refine .think sound holds (.finishing (.status false) .shared [work]) phase plain ?_
          (fun _ => ⟨rfl, rfl, rfl⟩) rfl (nodup_singleton _) (.effect ?_)
        · rw [visit, nodeEq]
          simp only [ok_bind, before, decide_eq_false beyond, Bool.false_eq_true, if_false,
            scanned, hits', if_true]
          rfl
        · exact insert_of_separator holds
            (sound.wellFormed.grounded work page key here (ground rfl))
      | false =>
        refine .think sound holds (.leaving (.insert key value) (work :: stack) work child) phase
          plain ?_
          (fun _ => ⟨rfl, rfl, rfl⟩) rfl ⟨height, childWay, onWay, trail⟩ .rest
        rw [visit, nodeEq]
        simp only [ok_bind, before, decide_eq_false beyond, Bool.false_eq_true, if_false, scanned,
          hits', childAt]
        rfl
    | update | search | scanFixed | scanRange => exact passOn (by simp)

end Steps

end IndexResearch.BLinkTree
