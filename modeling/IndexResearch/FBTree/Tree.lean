import IndexResearch.FBTree.LeafNode
import IndexResearch.FBTree.NodeView

/-!
# The tree

`FBTree<K, V>` and `FBTree<String, V>` of `fbtree.h`, run by one thread.  The two
templates share their code up to the operations of their inner nodes and the points
that `KeyOps.announces` marks: the string tree compares the high key of a leaf only when
it has to, takes split tokens and retires the high key of a merged leaf.

Nodes live in a memory of cells.  Addresses are handed out in increasing order and
never reused; a leaf split takes one for the new leaf and one for the copy of the high
key, which only the string tree makes.  A loop is given as many rounds as addresses
were handed out, and running out of them is a fault of its own.
-/

namespace IndexResearch.FBTree

def kMaxHeight : Nat := 13

structure NodeOps (K H Mid Inner : Type) extends KeyOps K H where
  new : Inner → Inner
  control : Inner → Control
  next : Inner → Ptr
  toNext : Inner → K → Except Fault (Bool × Ptr)
  indexOrSibling : Inner → Mid → Except Fault Position
  insert : Inner → Inner → Ptr → Ptr → Ptr → Mid → Nat → Except Fault (Inner × Option Inner × Mid)
  remove : Inner → Inner → Ptr → Mid → Nat → Except Fault (Removed Inner Mid)
  anchorUpdate : Inner → Mid → Nat → Except Fault (Inner × Bool)
  rootRemove : Inner → Inner × Option Ptr
  /-- The form in which a high key is looked for in inner nodes. -/
  midOf : H → Mid

inductive Node (size : NodeSize) (K H V Inner : Type) where
  | inner (node : Inner)
  | leaf (node : LeafNode size K H V)

structure Memory (size : NodeSize) (K H V Inner : Type) where
  inner : Ptr → Inner
  leaf : Ptr → LeafNode size K H V
  track : Nat → Ptr

structure Tree (size : NodeSize) (K H V Mid Inner : Type) where
  nodes : Ptr → Option (Node size K H V Inner)
  root : Ptr
  treeDepth : Nat
  rootTrack : Nat → Ptr
  /-- The next address that is handed out. -/
  fresh : Ptr
  /-- The nodes given to `retire`, a null pointer for every call without one. -/
  retired : List Ptr
  /-- The high keys given to `retire`. -/
  retiredKeys : List Mid

structure Path where
  /-- `path_stack`, the last node first. -/
  stack : List Ptr
  parent : Ptr
  version : Nat
  current : Ptr

namespace Tree

variable {size : NodeSize} {K H V Mid Inner : Type}

variable (tree : Tree size K H V Mid Inner)

def innerAt (ptr : Ptr) : Except Fault Inner :=
  match tree.nodes ptr with
  | some (.inner node) => .ok node
  | _ => .error .wildPointer

def leafAt (ptr : Ptr) : Except Fault (LeafNode size K H V) :=
  match tree.nodes ptr with
  | some (.leaf node) => .ok node
  | _ => .error .wildPointer

def write (ptr : Ptr) (node : Node size K H V Inner) : Tree size K H V Mid Inner :=
  { tree with nodes := Function.update tree.nodes ptr (some node) }

@[simp] theorem nodes_write_self (ptr : Ptr)
    (node : Node size K H V Inner) : (tree.write ptr node).nodes ptr = some node :=
  Function.update_self _ _ _

theorem nodes_write_of_ne {tree : Tree size K H V Mid Inner} {ptr other : Ptr}
    {node : Node size K H V Inner} (different : other ≠ ptr) :
    (tree.write ptr node).nodes other = tree.nodes other :=
  Function.update_of_ne different _ _

/-- An entry of `root_track_`. -/
def trackAt (rootid : Nat) : Except Fault Ptr :=
  if rootid < kMaxHeight then .ok (tree.rootTrack rootid) else .error .noTrack

def retire (ptr : Ptr) : Tree size K H V Mid Inner :=
  { tree with retired := tree.retired ++ [ptr] }

variable (ops : NodeOps K H Mid Inner) (memory : Memory size K H V Inner)

/-- `FBTree()`. -/
def empty : Tree size K H V Mid Inner where
  nodes := Function.update (fun _ => none) 1 (some (.leaf (.new ops.toKeyOps (memory.leaf 1))))
  root := 1
  treeDepth := 1
  rootTrack := Function.update memory.track 0 1
  fresh := 2
  retired := []
  retiredKeys := []

variable (tree : Tree size K H V Mid Inner)

/-- `control(ptr)->load_version()`. -/
def loadVersion (ptr : Ptr) : Except Fault Nat :=
  match tree.nodes ptr with
  | some (.inner node) => .ok (ops.control node).version
  | some (.leaf leaf) => .ok leaf.control.version
  | none => .error .wildPointer

/-! ## Descent -/

/-- `while(!is_leaf(current))`. -/
def descend (tree : Tree size K H V Mid Inner) (key : K) : Nat → Path → Except Fault Path
  | 0, _ => .error .endless
  | fuel + 1, path =>
    match tree.nodes path.current with
    | none => .error .wildPointer
    | some (.leaf _) => .ok path
    | some (.inner node) => do
        let (toSibling, next) ← ops.toNext node key
        tree.descend key fuel {
          stack := if toSibling then path.stack else path.current :: path.stack
          parent := path.current
          version := (ops.control node).version
          current := next }

variable [LinearOrder K]

/-- `while(leaf(current)->to_sibling(...))`. -/
def moveRight (tree : Tree size K H V Mid Inner) (key : K) (changed : Bool) :
    Nat → Ptr → Except Fault Ptr
  | 0, _ => .error .endless
  | fuel + 1, current => do
      let leaf ← tree.leafAt current
      match ← leaf.toSibling ops.toKeyOps key changed with
      | some next => tree.moveRight key changed fuel next
      | none => return current

def locate (key : K) : Except Fault Path := do
  let path ← tree.descend ops key tree.fresh ⟨[], tree.root, 0, tree.root⟩
  let version ← tree.loadVersion ops path.parent
  let current ← tree.moveRight ops key (path.version != version) tree.fresh path.current
  return { path with current := current }

def lookup (tree : Tree size K H V Mid Inner) (key : K) : Except Fault (Option (KVPair K V)) := do
  let path ← tree.locate ops key
  let leaf ← tree.leafAt path.current
  return leaf.lookup ops.toKeyOps key

def update (tree : Tree size K H V Mid Inner) (kv : KVPair K V) :
    Except Fault (Option (KVPair K V) × Tree size K H V Mid Inner) := do
  let path ← tree.locate ops kv.key
  let leaf ← tree.leafAt path.current
  let (old, leaf) := leaf.update ops.toKeyOps kv
  return (old, tree.write path.current (.leaf leaf))

/-! ## Insertion -/

omit [LinearOrder K] in
/-- `while(inner(work)->index_or_sibling(...))`. -/
def index (tree : Tree size K H V Mid Inner) (mid : Mid) : Nat → Ptr → Except Fault (Ptr × Nat)
  | 0, _ => .error .endless
  | fuel + 1, work => do
      let node ← tree.innerAt work
      match ← ops.indexOrSibling node mid with
      | .sibling next => if next = nullptr then .error .check else tree.index mid fuel next
      | .index pos => return (work, pos)

omit [LinearOrder K] in
/-- The node above `current` to insert into: a new root, the last node of the path, or
the tracked node of the level. -/
def above (stack : List Ptr) (rootid : Nat) (current : Ptr) :
    Except Fault (Tree size K H V Mid Inner × Ptr × List Ptr) :=
  if current = tree.root then
    if rootid < kMaxHeight then
      let work := tree.fresh
      .ok ({ tree.write work (.inner (ops.new (memory.inner work))) with
        fresh := tree.fresh + 1
        root := work
        treeDepth := tree.treeDepth + 1
        rootTrack := Function.update tree.rootTrack rootid work }, work, stack)
    else .error .noTrack
  else
    match stack with
    | work :: rest => .ok (tree, work, rest)
    | [] => do
        let work ← tree.trackAt rootid
        if work = nullptr then .error .check else return (tree, work, [])

omit [LinearOrder K] in
/-- `end_splitting` on the leaf that was split. -/
def endSplitting (tree : Tree size K H V Mid Inner) (rootid : Nat) (current : Ptr) :
    Except Fault (Tree size K H V Mid Inner) :=
  if ops.announces ∧ rootid = 1 then do
    let leaf ← tree.leafAt current
    return tree.write current (.leaf { leaf with control := leaf.control.endSplitting })
  else .ok tree

omit [LinearOrder K] in
/-- The loop of `upsert` that inserts the separators of split nodes. -/
def ascend : Nat → Tree size K H V Mid Inner → (stack : List Ptr) → (rootid : Nat) →
    (current rnode : Ptr) → Mid → Except Fault (Tree size K H V Mid Inner)
  | 0, _, _, _, _, _, _ => .error .endless
  | fuel + 1, tree, stack, rootid, current, rnode, mid => do
      let (tree, work, stack) ← tree.above ops memory stack (rootid + 1) current
      let (work, pos) ← tree.index ops mid tree.fresh work
      let node ← tree.innerAt work
      let (node, right, mid) ←
        ops.insert node (memory.inner tree.fresh) tree.fresh current rnode mid pos
      let tree ← (tree.write work (.inner node)).endSplitting ops (rootid + 1) current
      match right with
      | none => return tree
      | some right =>
        ascend fuel { tree.write tree.fresh (.inner right) with fresh := tree.fresh + 1 }
          stack (rootid + 1) work tree.fresh mid

def upsert (tree : Tree size K H V Mid Inner) (kv : KVPair K V) :
    Except Fault (Option (KVPair K V) × Tree size K H V Mid Inner) := do
  let path ← tree.locate ops kv.key
  let leaf ← tree.leafAt path.current
  let rnode := tree.fresh
  let upserted ← leaf.upsert ops.toKeyOps (memory.leaf rnode) rnode (rnode + 1) kv
  let written := tree.write path.current (.leaf upserted.leaf)
  match upserted.rnode with
  | none => return (upserted.old, written)
  | some right =>
    let grown := { written.write rnode (.leaf right) with fresh := tree.fresh + 2 }
    let final ← ascend ops memory grown.fresh grown path.stack 0 path.current rnode
      (ops.midOf upserted.leaf.highKey)
    return (upserted.old, final)

/-! ## Removal -/

omit [LinearOrder K] in
def parentOf (stack : List Ptr) (rootid : Nat) : Except Fault (Ptr × List Ptr) :=
  match stack with
  | work :: rest => .ok (work, rest)
  | [] => do
      let work ← tree.trackAt rootid
      if work = nullptr then .error .check else return (work, [])

omit [LinearOrder K] in
/-- One inner `remove` or `anchor_update`; the results are the node absorbed, whether the
last separator changed, and the separator to look for above. -/
def removeFrom (merged : Option Ptr) (work : Ptr) (mid : Mid) (pos : Nat) :
    Except Fault (Tree size K H V Mid Inner × Option Ptr × Bool × Mid) := do
  let node ← tree.innerAt work
  match merged with
  | some _ =>
    if (ops.control node).sibling then
      let right ← tree.innerAt (ops.next node)
      let removed ← ops.remove node right work mid pos
      return ((tree.write work (.inner removed.node)).write (ops.next node)
        (.inner removed.right),
        if removed.merged then some (ops.next node) else none, removed.up, removed.mid)
    else
      let removed ← ops.remove node node work mid pos
      return (tree.write work (.inner removed.node), none, removed.up, removed.mid)
  | none =>
    let (node, up) ← ops.anchorUpdate node mid pos
    return (tree.write work (.inner node), none, up, mid)

omit [LinearOrder K] in
/-- `root_remove` on the root. -/
def collapse (current : Ptr) : Except Fault (Tree size K H V Mid Inner) := do
  let node ← tree.innerAt tree.root
  match ops.rootRemove node with
  | (node, some next) =>
    if next = current then
      return { (tree.write tree.root (.inner node)).retire tree.root with
        root := next
        treeDepth := tree.treeDepth - 1 }
    else .error .check
  | (_, none) => return tree

omit [LinearOrder K] in
/-- The loop of `remove` that removes the separators of merged nodes. -/
def settle : Nat → Tree size K H V Mid Inner → (stack : List Ptr) → (rootid : Nat) →
    (current : Ptr) → (merged : Option Ptr) → (up : Bool) → Mid →
    Except Fault (Tree size K H V Mid Inner)
  | 0, _, _, _, _, _, _, _ => .error .endless
  | fuel + 1, tree, stack, rootid, current, merged, up, mid =>
    if merged.isNone && !up then .ok tree
    else do
      let tree := tree.retire (merged.getD nullptr)
      let (work, stack) ← tree.parentOf stack (rootid + 1)
      let (work, pos) ← tree.index ops mid tree.fresh work
      let (tree, merged, up, mid) ← tree.removeFrom ops merged work mid pos
      if work = tree.root then tree.collapse ops current
      else settle fuel tree stack (rootid + 1) work merged up mid

def remove (tree : Tree size K H V Mid Inner) (key : K) :
    Except Fault (Option (KVPair K V) × Tree size K H V Mid Inner) := do
  let path ← tree.locate ops key
  let leaf ← tree.leafAt path.current
  let right ← if leaf.control.sibling then tree.leafAt leaf.sibling else .ok leaf
  let detached ← leaf.remove ops.toKeyOps right path.current key
  let written := tree.write path.current (.leaf detached.leaf)
  match detached.merged with
  | none => return (detached.kv, written)
  | some high =>
    let written := written.write leaf.sibling (.leaf detached.right)
    let written := if ops.announces then
        { written with retiredKeys := written.retiredKeys ++ [ops.midOf high] }
      else written
    let final ← settle ops tree.fresh written path.stack 0 path.current (some leaf.sibling) false
      (ops.midOf high)
    return (detached.kv, final)

end Tree

end IndexResearch.FBTree
