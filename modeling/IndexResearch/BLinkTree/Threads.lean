import IndexResearch.BLinkTree.Run
import IndexResearch.Linearizable
import IndexResearch.SharedLatch

/-!
# The B-link tree with many threads

`BLinkTree` of `b_link_tree.h`, run by any number of threads.  The latch of a node is one
for readers and writers.  What a thread reads and writes in nodes while it holds their
latches is one action, since no other thread can come in between; taking a latch, giving
it back, and every access to `root_` are actions of their own.  `is_leaf_` never changes
and is read without a latch.  A node that was just made is reached by nobody else before
the latch of its left neighbour is given back, or before it becomes the root.
-/

namespace IndexResearch.BLinkTree

variable {K V : Type}

namespace Operation

def key : Operation K V → K
  | insert key _ => key
  | update key _ => key
  | search key => key
  | scanFixed leftKey _ _ => leftKey
  | scanRange leftKey _ _ => leftKey

def mode : Operation K V → Mode
  | insert _ _ => .exclusive
  | update _ _ => .exclusive
  | search _ => .shared
  | scanFixed _ _ _ => .shared
  | scanRange _ _ _ => .shared

end Operation

/-- The variables of `Insert` after a split, when the greatest keys of the two nodes are
known. -/
structure Climb (K : Type) where
  key : K
  stack : List Ptr
  current : Ptr
  newNode : Ptr
  rightMaxKey : K
  leftMaxKey : K

inductive Phase (K V : Type) where
  | idle
  /-- Before `root_` is read. -/
  | started (operation : Operation K V)
  /-- Before `current->is_leaf()` is read.  The stack is `path_stack`, the last node first. -/
  | descending (operation : Operation K V) (stack : List Ptr) (current : Ptr)
  /-- Before `work->latch_shared()`. -/
  | entering (operation : Operation K V) (stack : List Ptr) (work : Ptr)
  | visiting (operation : Operation K V) (stack : List Ptr) (work : Ptr)
  /-- Before `work->unlatch_shared()`. -/
  | leaving (operation : Operation K V) (stack : List Ptr) (work current : Ptr)
  /-- Before the latch of the leaf is taken. -/
  | arriving (operation : Operation K V) (stack : List Ptr) (current : Ptr)
  | arrived (operation : Operation K V) (stack : List Ptr) (current : Ptr)
  /-- `Insert` moves right: before `work->latch_exclusive()`. -/
  | coupling (key : K) (value : V) (stack : List Ptr) (current work : Ptr)
  /-- Before `current->unlatch_exclusive()`. -/
  | coupled (key : K) (value : V) (stack : List Ptr) (current work : Ptr)
  /-- The other calls move right: before the latch of `current` is given back. -/
  | hopping (operation : Operation K V) (current work : Ptr)
  /-- A scan in the last leaf of `scan_stack`. -/
  | scanning (operation : Operation K V) (scanStack : List Ptr) (index scanned : Nat)
      (kvPairs : List (K × V))
  /-- Before `current->latch_shared()` of the next leaf. -/
  | scanNext (operation : Operation K V) (scanStack : List Ptr) (current : Ptr) (scanned : Nat)
      (kvPairs : List (K × V))
  /-- Before `while(new_node != nullptr)`. -/
  | climbing (key : K) (stack : List Ptr) (current newNode : Ptr)
  /-- Before `work->latch_exclusive()` of the level above. -/
  | raising (climb : Climb K) (work : Ptr)
  /-- Before the second test of `current == root_`. -/
  | raised (climb : Climb K) (work : Ptr)
  /-- Before the test of `work->high_key() < right_max_key`. -/
  | sliding (climb : Climb K) (work : Ptr)
  /-- Before `sibling_node->latch_exclusive()`. -/
  | slidingOn (climb : Climb K) (work siblingNode : Ptr)
  /-- Before `work->unlatch_exclusive()`. -/
  | slidOn (climb : Climb K) (work siblingNode : Ptr)
  /-- Before `current->unlatch_exclusive()`. -/
  | parting (climb : Climb K) (work : Ptr)
  /-- Before `InnerInsert`. -/
  | joining (climb : Climb K) (work : Ptr)
  /-- The call knows its answer and gives back its latches, the last one first. -/
  | finishing (answer : Answer K V) (mode : Mode) (latched : List Ptr)
  | crashed (fault : Fault)

def Phase.held : Phase K V → List (Ptr × Mode)
  | visiting _ _ work | leaving _ _ work _ => [(work, .shared)]
  | arrived operation _ current | hopping operation current _ => [(current, operation.mode)]
  | coupling _ _ _ current _ => [(current, .exclusive)]
  | coupled _ _ _ current work => [(current, .exclusive), (work, .exclusive)]
  | scanning _ scanStack _ _ _ | scanNext _ scanStack _ _ _ => scanStack.map (·, .shared)
  | climbing _ _ current _ => [(current, .exclusive)]
  | raising climb _ => [(climb.current, .exclusive)]
  | raised climb work | sliding climb work | slidingOn climb work _ | parting climb work =>
    [(climb.current, .exclusive), (work, .exclusive)]
  | slidOn climb work siblingNode =>
    [(climb.current, .exclusive), (work, .exclusive), (siblingNode, .exclusive)]
  | joining _ work => [(work, .exclusive)]
  | finishing _ mode latched => latched.map (·, mode)
  | _ => []

inductive Move (K V : Type) where
  | latch (ptr : Ptr) (mode : Mode) (next : Phase K V)
  | unlatch (ptr : Ptr) (mode : Mode) (next : Phase K V)
  | compute (result : Except Fault (Tree K V × Phase K V))
  /-- Nothing before the next call or return. -/
  | rest

section Moves

variable [LinearOrder K]

variable (tree : Tree K V)

def visit (operation : Operation K V) (stack : List Ptr) (work : Ptr) :
    Except Fault (Phase K V) := do
  let node ← tree.nodeAt work
  if ← node.isBefore operation.key then return .leaving operation stack work node.siblingPtr
  else
    let index ← node.nodeScan operation.key
    match operation with
    | .insert key _ =>
      if ← node.hasAt index key then return .finishing (.status false) .shared [work]
      else
        let child ← node.child index
        return .leaving operation (work :: stack) work child
    | _ =>
      let child ← node.child index
      return .leaving operation [] work child

def scanLeaf (node : BLinkNode K V) (index scanned : Nat) (kvPairs : List (K × V)) :
    Operation K V → Except Fault (Bool × Nat × List (K × V))
  | .scanFixed _ scanSz _ =>
    if scanned < scanSz then do
      let (scanned, kvPairs) ←
        Tree.takeEntries node scanSz (node.itemCnt - index) index scanned kvPairs
      return (scanSz ≤ scanned, scanned, kvPairs)
    else .ok (true, scanned, kvPairs)
  | .scanRange _ rightKey _ => do
      let (stopped, kvPairs) ← Tree.takeBelow node rightKey (node.itemCnt - index) index kvPairs
      return (stopped, scanned, kvPairs)
  | _ => .ok (true, scanned, kvPairs)

def scanRound (operation : Operation K V) (scanStack : List Ptr)
    (index scanned : Nat) (kvPairs : List (K × V)) : Except Fault (Phase K V) :=
  match scanStack with
  | [] => .error .wildPointer
  | current :: _ => do
      let node ← tree.nodeAt current
      let (ended, scanned, kvPairs) ← scanLeaf node index scanned kvPairs operation
      if ended ∨ node.siblingPtr = nullptr then
        return .finishing (.pairs true kvPairs) .shared scanStack
      else return .scanNext operation scanStack node.siblingPtr scanned kvPairs

def scanStart (node : BLinkNode K V) (operation : Operation K V) (current : Ptr)
    (kvPairs : List (K × V)) : Except Fault (Phase K V) := do
  let index ← node.nodeScan operation.key
  if index = node.itemCnt then return .finishing (.pairs false kvPairs) .shared [current]
  else return .scanning operation [current] index 0 kvPairs

variable [Inhabited K] [Inhabited V] (params : Parameters)

variable (tree : Tree K V)

/-- `Insert` in a leaf that the key belongs to. -/
def insertHere (key : K) (value : V) (stack : List Ptr) (current : Ptr)
    (node : BLinkNode K V) : Except Fault (Tree K V × Phase K V) := do
  let index ← node.nodeScan key
  if ← node.hasAt index key then return (tree, .finishing (.status false) .exclusive [current])
  else
    match ← node.leafInsert params.leafPolicy tree.fresh key value index with
    | (node, none) =>
      return (tree.write current node, .finishing (.status true) .exclusive [current])
    | (node, some split) =>
      return ((tree.write current node).allocate split, .climbing key stack current tree.fresh)

omit [Inhabited K] [Inhabited V] in
/-- `Update` in a leaf that the key belongs to. -/
def updateHere (key : K) (value : V) (current : Ptr) (node : BLinkNode K V) :
    Except Fault (Tree K V × Phase K V) := do
  let index ← node.nodeScan key
  if ← node.hasAt index key then
    let node ← node.setValue index value
    return (tree.write current node, .finishing (.status true) .exclusive [current])
  else return (tree, .finishing (.status false) .exclusive [current])

def arrive (operation : Operation K V) (stack : List Ptr) (current : Ptr) :
    Except Fault (Tree K V × Phase K V) := do
  let node ← tree.nodeAt current
  if ← node.isBefore operation.key then
    match operation with
    | .insert key value => return (tree, .coupling key value stack current node.siblingPtr)
    | _ => return (tree, .hopping operation current node.siblingPtr)
  else
    match operation with
    | .insert key value => insertHere params tree key value stack current node
    | .update key value => updateHere tree key value current node
    | .search key =>
      let found ← Tree.valueIn node key
      return (tree, .finishing (.value found) .shared [current])
    | .scanFixed _ _ kvPairs =>
      let phase ← scanStart node operation current kvPairs
      return (tree, phase)
    | .scanRange _ _ kvPairs =>
      let phase ← scanStart node operation current kvPairs
      return (tree, phase)

def climb (key : K) (stack : List Ptr) (current newNode : Ptr) :
    Except Fault (Tree K V × Phase K V) := do
  let right ← tree.nodeAt newNode
  let rightMaxKey ← right.maxKey
  let left ← tree.nodeAt current
  let leftMaxKey ← left.maxKey
  if current = tree.root then
    let work := tree.fresh
    let tree := tree.allocate (.new params.innerNodeSize false)
    let tree ← tree.setUpperLevel current work
    let tree ← tree.setUpperLevel newNode work
    return ({ tree with treeDepth := tree.treeDepth + 1 },
      .raising ⟨key, stack, current, newNode, rightMaxKey, leftMaxKey⟩ work)
  else
    match stack with
    | work :: rest =>
      return (tree, .raising ⟨key, rest, current, newNode, rightMaxKey, leftMaxKey⟩ work)
    | [] =>
      assert (left.upperLevel ≠ nullptr)
      return (tree, .raising ⟨key, [], current, newNode, rightMaxKey, leftMaxKey⟩ left.upperLevel)

omit [LinearOrder K] [Inhabited K] [Inhabited V] in
/-- `if(current == root_) root_ = work`. -/
def setRoot (climb : Climb K) (work : Ptr) : Tree K V :=
  if climb.current = tree.root then { tree with root := work } else tree

omit [Inhabited K] [Inhabited V] in
def slide (climb : Climb K) (work : Ptr) : Except Fault (Phase K V) := do
  let node ← tree.nodeAt work
  if ← node.isBefore climb.rightMaxKey then return .slidingOn climb work node.siblingPtr
  else return .parting climb work

/-- `InnerInsert` on the level above. -/
def join (climb : Climb K) (work : Ptr) : Except Fault (Tree K V × Phase K V) := do
  let node ← tree.nodeAt work
  match ← node.innerInsert params.innerPolicy tree.fresh climb.leftMaxKey climb.current
      climb.newNode with
  | (node, none) => return (tree.write work node, .finishing (.status true) .exclusive [work])
  | (node, some split) =>
    return ((tree.write work node).allocate split,
      .climbing climb.key climb.stack work tree.fresh)

def move : Phase K V → Move K V
  | .idle => .rest
  | .started operation => .compute (.ok (tree, .descending operation [] tree.root))
  | .descending operation stack current => .compute do
      let node ← tree.nodeAt current
      return (tree, if node.isLeaf then .arriving operation stack current
        else .entering operation stack current)
  | .entering operation stack work => .latch work .shared (.visiting operation stack work)
  | .visiting operation stack work => .compute do
      let phase ← visit tree operation stack work
      return (tree, phase)
  | .leaving operation stack work current =>
    .unlatch work .shared (.descending operation stack current)
  | .arriving operation stack current =>
    .latch current operation.mode (.arrived operation stack current)
  | .arrived operation stack current => .compute (arrive params tree operation stack current)
  | .coupling key value stack current work =>
    .latch work .exclusive (.coupled key value stack current work)
  | .coupled key value stack current work =>
    .unlatch current .exclusive (.arrived (.insert key value) stack work)
  | .hopping operation current work => .unlatch current operation.mode (.arriving operation [] work)
  | .scanning operation scanStack index scanned kvPairs => .compute do
      let phase ← scanRound tree operation scanStack index scanned kvPairs
      return (tree, phase)
  | .scanNext operation scanStack current scanned kvPairs =>
    .latch current .shared (.scanning operation (current :: scanStack) 0 scanned kvPairs)
  | .climbing key stack current newNode => .compute (climb params tree key stack current newNode)
  | .raising climb work => .latch work .exclusive (.raised climb work)
  | .raised climb work => .compute (.ok (setRoot tree climb work, .sliding climb work))
  | .sliding climb work => .compute do
      let phase ← slide tree climb work
      return (tree, phase)
  | .slidingOn climb work siblingNode =>
    .latch siblingNode .exclusive (.slidOn climb work siblingNode)
  | .slidOn climb work siblingNode => .unlatch work .exclusive (.sliding climb siblingNode)
  | .parting climb work => .unlatch climb.current .exclusive (.joining climb work)
  | .joining climb work => .compute (join params tree climb work)
  | .finishing _ _ [] => .rest
  | .finishing answer mode (ptr :: latched) => .unlatch ptr mode (.finishing answer mode latched)
  | .crashed _ => .rest

end Moves

/-! ## Schedules -/

structure State (Thread K V : Type) where
  tree : Tree K V
  latches : Ptr → SharedLatch Thread
  phases : Thread → Phase K V

namespace State

inductive Action (Thread K V : Type) where
  | call (thread : Thread) (operation : Operation K V)
  | step (thread : Thread)
  | answer (thread : Thread)

variable {Thread : Type} [DecidableEq Thread]

def goTo (state : State Thread K V) (thread : Thread) (phase : Phase K V) : State Thread K V :=
  { state with phases := Function.update state.phases thread phase }

def latch (state : State Thread K V) (thread : Thread) (ptr : Ptr) (mode : Mode)
    (next : Phase K V) : Option (State Thread K V) :=
  ((state.latches ptr).acquire thread mode).map fun latch =>
    { state.goTo thread next with latches := Function.update state.latches ptr latch }

def unlatch (state : State Thread K V) (thread : Thread) (ptr : Ptr) (mode : Mode)
    (next : Phase K V) : State Thread K V :=
  { state.goTo thread next with
    latches := Function.update state.latches ptr ((state.latches ptr).release thread mode) }

variable [LinearOrder K] [Inhabited K] [Inhabited V] (params : Parameters)

def step (state : State Thread K V) (thread : Thread) : Option (State Thread K V) :=
  match move params state.tree (state.phases thread) with
  | .latch ptr mode next => state.latch thread ptr mode next
  | .unlatch ptr mode next => some (state.unlatch thread ptr mode next)
  | .compute (.ok (tree, next)) => some { state.goTo thread next with tree := tree }
  | .compute (.error fault) => some (state.goTo thread (.crashed fault))
  | .rest => none

def next (state : State Thread K V) : Action Thread K V → Option (State Thread K V)
  | .call thread operation =>
    match state.phases thread with
    | .idle => some (state.goTo thread (.started operation))
    | _ => none
  | .step thread => state.step params thread
  | .answer thread =>
    match state.phases thread with
    | .finishing _ _ [] => some (state.goTo thread .idle)
    | _ => none

def visible (state : State Thread K V) :
    Action Thread K V → Option (Event Thread (Operation K V) (Answer K V))
  | .call thread operation => some (.call thread operation)
  | .step _ => none
  | .answer thread =>
    match state.phases thread with
    | .finishing answer _ _ => some (.answer thread answer)
    | _ => none

def initial : State Thread K V := ⟨.empty params, fun _ => .free, fun _ => .idle⟩

def machine : Machine (State Thread K V) (Action Thread K V) where
  initial state := state = initial params
  next := next params

end State

end IndexResearch.BLinkTree
