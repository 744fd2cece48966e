import IndexResearch.Loop
import IndexResearch.Memory

/-!
# Nodes of the B-link tree

`BLinkNode` of `b_link_node.h`, run by one thread.  The arrays of a node have the sizes
that the constructor gives them, and every access is checked against them.  `values_` and
`children_` share their memory in a union; a node has only the one that its kind calls
for, so that the other is an array of size zero here.

The test `double(item_cnt_ + 1) / node_size_ < threshold` is any predicate on `item_cnt_`
that leaves room and does not split empty nodes.
-/

namespace IndexResearch.BLinkTree

abbrev Ptr := Nat

def nullptr : Ptr := 0

inductive Fault where
  /-- A pointer does not lead to a node. -/
  | wildPointer
  /-- An array is accessed outside its bounds. -/
  | outOfBounds
  /-- A loop did not end. -/
  | endless
  /-- An `assert` fires. -/
  | check
  deriving DecidableEq, Repr

/-- An array from `new T[size]`. -/
structure Buffer (Value : Type) where
  size : Nat
  cells : Nat → Value

namespace Buffer

variable {Value : Type}

/-- `new T[size]{}`. -/
def new [Inhabited Value] (size : Nat) : Buffer Value := ⟨size, fun _ => default⟩

def read (buffer : Buffer Value) (index : Nat) : Except Fault Value :=
  if index < buffer.size then .ok (buffer.cells index) else .error .outOfBounds

def write (buffer : Buffer Value) (index : Nat) (value : Value) : Except Fault (Buffer Value) :=
  if index < buffer.size then .ok { buffer with cells := Function.update buffer.cells index value }
  else .error .outOfBounds

/-- `target[dst] = source[src]`. -/
def copyCell (target source : Buffer Value) (dst src : Nat) : Except Fault (Buffer Value) := do
  let value ← source.read src
  target.write dst value

variable {Other : Type}

/-- Copy a key together with what belongs to it, which is found `shift` slots later. -/
def copyBoth (target source : Buffer Value × Buffer Other) (shift dst src : Nat) :
    Except Fault (Buffer Value × Buffer Other) := do
  let first ← target.1.copyCell source.1 dst src
  let second ← target.2.copyCell source.2 (dst + shift) (src + shift)
  return (first, second)

/-- Move the slots from `index` to `high - 1` one slot up, the last one first. -/
def shiftUp (buffers : Buffer Value × Buffer Other) (shift index high : Nat) :
    Except Fault (Buffer Value × Buffer Other) :=
  forDown (fun i buffers => copyBoth buffers buffers shift i (i - 1)) index high buffers

/-- Copy `count` slots from `src` on to `dst` on. -/
def copyRange (target source : Buffer Value × Buffer Other) (shift dst src count : Nat) :
    Except Fault (Buffer Value × Buffer Other) :=
  forUp (fun i target => copyBoth target source shift i (i - dst + src)) count dst target

end Buffer

/-- The split decision for nodes with arrays of `nodeSize` keys. -/
structure SplitPolicy (nodeSize : Nat) where
  /-- A node with so many keys takes one more without being split. -/
  safe : Nat → Bool
  room : ∀ count, safe count = true → count + 1 < nodeSize
  safe_zero : safe 0 = true

structure BLinkNode (K V : Type) where
  isLeaf : Bool
  nodeSize : Nat
  itemCnt : Nat
  siblingPtr : Ptr
  /-- The leftmost node of the level above, for nodes that were the root. -/
  upperLevel : Ptr
  keys : Buffer K
  values : Buffer V
  children : Buffer Ptr

def assert (condition : Bool) : Except Fault Unit := if condition then .ok () else .error .check

namespace BLinkNode

variable {K V : Type}

def new [Inhabited K] [Inhabited V] (nodeSize : Nat) (isLeaf : Bool) : BLinkNode K V where
  isLeaf := isLeaf
  nodeSize := nodeSize
  itemCnt := 0
  siblingPtr := nullptr
  upperLevel := nullptr
  keys := .new nodeSize
  values := .new (if isLeaf then nodeSize else 0)
  children := .new (if isLeaf then 0 else nodeSize + 1)

variable (node : BLinkNode K V)

def highKey : Except Fault K :=
  if node.itemCnt = 0 then .error .outOfBounds else node.keys.read (node.itemCnt - 1)

def key (index : Nat) : Except Fault K := do
  assert (index < node.itemCnt)
  node.keys.read index

def value (index : Nat) : Except Fault V := do
  assert (index < node.itemCnt)
  node.values.read index

/-- `value(index) = value`. -/
def setValue (index : Nat) (value : V) : Except Fault (BLinkNode K V) := do
  assert (index < node.itemCnt)
  let values ← node.values.write index value
  return { node with values := values }

def child (index : Nat) : Except Fault Ptr := do
  assert (!node.isLeaf)
  assert (index < node.itemCnt ∨ (index = node.itemCnt ∧ node.siblingPtr = nullptr))
  node.children.read index

section Scan

variable [LinearOrder K]

/-- `while(low < high)` of `NodeScan`. -/
def scanLoop (node : BLinkNode K V) (key : K) : Nat → (low high : Nat) → Except Fault Nat
  | 0, _, _ => .error .endless
  | fuel + 1, low, high =>
    if low < high then do
      let mid := (low + high) / 2
      let pivot ← node.keys.read mid
      if key < pivot then node.scanLoop key fuel low mid
      else if key = pivot then return mid
      else node.scanLoop key fuel (mid + 1) high
    else do
      assert (low = high)
      return high

/-- The index of the first key that is not less than `key`. -/
def nodeScan (key : K) : Except Fault Nat :=
  if node.itemCnt = 0 then .ok 0
  else do
    let last ← node.keys.read (node.itemCnt - 1)
    if last < key then return node.itemCnt
    else node.scanLoop key node.itemCnt 0 (node.itemCnt - 1)

end Scan

/-! ## Insertion -/

def newSibling [Inhabited K] [Inhabited V] (node : BLinkNode K V) (isLeaf : Bool) : BLinkNode K V :=
  { new node.nodeSize isLeaf with
    siblingPtr := node.siblingPtr
    upperLevel := node.upperLevel }

def setKey (index : Nat) (key : K) : Except Fault (BLinkNode K V) := do
  let keys ← node.keys.write index key
  return { node with keys := keys }

def setChild (index : Nat) (child : Ptr) : Except Fault (BLinkNode K V) := do
  let children ← node.children.write index child
  return { node with children := children }

def branches : Buffer K × Buffer Ptr := (node.keys, node.children)

def withBranches (branches : Buffer K × Buffer Ptr) : BLinkNode K V :=
  { node with keys := branches.1, children := branches.2 }

def innerSplitLow (newNode : BLinkNode K V) (leftKey : K) (rightNode : Ptr) (index : Nat) :
    Except Fault (BLinkNode K V × BLinkNode K V) := do
  let mid := node.itemCnt / 2
  let moved ← Buffer.copyRange newNode.branches node.branches 0 0 mid (node.itemCnt - mid)
  let last ← node.children.read node.itemCnt
  let newNode ← (newNode.withBranches moved).setChild (node.itemCnt - mid) last
  let newNode := { newNode with itemCnt := node.itemCnt - mid }
  assert (0 < newNode.itemCnt)
  let shifted ← Buffer.shiftUp node.branches 1 index mid
  let node ← (node.withBranches shifted).setKey index leftKey
  if index < mid then
    let node ← node.setChild (index + 1) rightNode
    return ({ node with itemCnt := mid + 1 }, newNode)
  else
    let newNode ← newNode.setChild 0 rightNode
    return ({ node with itemCnt := mid + 1 }, newNode)

def innerSplitHigh (newNode : BLinkNode K V) (leftKey : K) (rightNode : Ptr) (index : Nat) :
    Except Fault (BLinkNode K V × BLinkNode K V) := do
  let mid := node.itemCnt / 2 + 1
  let moved ← Buffer.copyRange newNode.branches node.branches 0 0 mid (index - mid)
  let left ← node.children.read index
  let newNode ← (newNode.withBranches moved).setChild (index - mid) left
  let newNode ← newNode.setKey (index - mid) leftKey
  let newNode ← newNode.setChild (index - mid + 1) rightNode
  let moved ← Buffer.copyRange newNode.branches node.branches 1 (index - mid + 1) index
    (node.itemCnt - index)
  let newNode := { newNode.withBranches moved with itemCnt := node.itemCnt - mid + 1 }
  assert (0 < newNode.itemCnt)
  return ({ node with itemCnt := mid }, newNode)

def innerSplit (newNode : BLinkNode K V) (leftKey : K) (rightNode : Ptr) (index : Nat) :
    Except Fault (BLinkNode K V × BLinkNode K V) :=
  if index ≤ node.itemCnt / 2 then node.innerSplitLow newNode leftKey rightNode index
  else node.innerSplitHigh newNode leftKey rightNode index

section Inner

variable [LinearOrder K] [Inhabited K] [Inhabited V] {nodeSize : Nat}

omit [LinearOrder K] in
/-- `InnerInsert` at the index that the scan found. -/
def innerPlace (policy : SplitPolicy nodeSize) (node : BLinkNode K V) (address : Ptr) (leftKey : K)
    (leftNode rightNode : Ptr) (index : Nat) :
    Except Fault (BLinkNode K V × Option (BLinkNode K V)) := do
  if policy.safe node.itemCnt then
    let shifted ← Buffer.shiftUp node.branches 1 index node.itemCnt
    let shifted := node.withBranches shifted
    -- a new root
    let shifted ← if node.itemCnt = 0 then shifted.setChild index leftNode else .ok shifted
    let shifted ← shifted.setKey index leftKey
    let shifted ← shifted.setChild (index + 1) rightNode
    return ({ shifted with itemCnt := node.itemCnt + 1 }, none)
  else
    let (left, right) ← node.innerSplit (node.newSibling false) leftKey rightNode index
    assert (0 < left.itemCnt)
    return ({ left with siblingPtr := address }, some right)

/-- Insert the separator `leftKey` and the child `rightNode` behind it. -/
def innerInsert (policy : SplitPolicy nodeSize) (node : BLinkNode K V) (address : Ptr) (leftKey : K)
    (leftNode rightNode : Ptr) : Except Fault (BLinkNode K V × Option (BLinkNode K V)) := do
  assert (!node.isLeaf)
  let index ← node.nodeScan leftKey
  assert (index < node.itemCnt ∨ (index = node.itemCnt ∧ node.siblingPtr = nullptr))
  node.innerPlace policy address leftKey leftNode rightNode index

end Inner

def setEntry (index : Nat) (key : K) (value : V) : Except Fault (BLinkNode K V) := do
  let keys ← node.keys.write index key
  let values ← node.values.write index value
  return { node with keys := keys, values := values }

def entries : Buffer K × Buffer V := (node.keys, node.values)

def withEntries (entries : Buffer K × Buffer V) : BLinkNode K V :=
  { node with keys := entries.1, values := entries.2 }

def leafSplitLow (newNode : BLinkNode K V) (key : K) (value : V) (index : Nat) :
    Except Fault (BLinkNode K V × BLinkNode K V) := do
  let mid := node.itemCnt / 2
  let moved ← Buffer.copyRange newNode.entries node.entries 0 0 mid (node.itemCnt - mid)
  let newNode := { newNode.withEntries moved with itemCnt := node.itemCnt - mid }
  assert (0 < newNode.itemCnt)
  let shifted ← Buffer.shiftUp node.entries 0 index mid
  let node ← (node.withEntries shifted).setEntry index key value
  return ({ node with itemCnt := mid + 1 }, newNode)

def leafSplitHigh (newNode : BLinkNode K V) (key : K) (value : V) (index : Nat) :
    Except Fault (BLinkNode K V × BLinkNode K V) := do
  let mid := node.itemCnt / 2 + 1
  let moved ← Buffer.copyRange newNode.entries node.entries 0 0 mid (index - mid)
  let newNode ← (newNode.withEntries moved).setEntry (index - mid) key value
  let moved ← Buffer.copyRange newNode.entries node.entries 0 (index - mid + 1) index
    (node.itemCnt - index)
  let newNode := { newNode.withEntries moved with itemCnt := node.itemCnt - mid + 1 }
  assert (0 < newNode.itemCnt)
  return ({ node with itemCnt := mid }, newNode)

def leafSplit (newNode : BLinkNode K V) (key : K) (value : V) (index : Nat) :
    Except Fault (BLinkNode K V × BLinkNode K V) :=
  if index ≤ node.itemCnt / 2 then node.leafSplitLow newNode key value index
  else node.leafSplitHigh newNode key value index

variable [LinearOrder K] [Inhabited K] [Inhabited V] {nodeSize : Nat}

omit [LinearOrder K] in
/-- `LeafInsert` behind its asserts. -/
def leafPlace (policy : SplitPolicy nodeSize) (node : BLinkNode K V) (address : Ptr) (key : K)
    (value : V) (index : Nat) : Except Fault (BLinkNode K V × Option (BLinkNode K V)) := do
  if policy.safe node.itemCnt then
    let shifted ← Buffer.shiftUp node.entries 0 index node.itemCnt
    let shifted ← (node.withEntries shifted).setEntry index key value
    return ({ shifted with itemCnt := node.itemCnt + 1 }, none)
  else
    let (left, right) ← node.leafSplit (node.newSibling true) key value index
    assert (0 < left.itemCnt)
    return ({ left with siblingPtr := address }, some right)

/-- Insert an entry at `index`.  `address` is where the new node is placed if the node is
split. -/
def leafInsert (policy : SplitPolicy nodeSize) (node : BLinkNode K V) (address : Ptr) (key : K)
    (value : V) (index : Nat) : Except Fault (BLinkNode K V × Option (BLinkNode K V)) := do
  assert node.isLeaf
  if index ≠ 0 then
    let before ← node.keys.read (index - 1)
    assert (before < key)
    node.leafPlace policy address key value index
  else node.leafPlace policy address key value index

end BLinkNode

end IndexResearch.BLinkTree
