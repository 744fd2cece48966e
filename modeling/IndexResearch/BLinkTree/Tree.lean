import IndexResearch.BLinkTree.Node

/-!
# The B-link tree

`BLinkTree` of `b_link_tree.h`, run by one thread.  Nodes live in a memory of cells whose
addresses are handed out in increasing order.  A loop is given as many rounds as
addresses were handed out, and running out of them is a fault of its own.
-/

namespace IndexResearch.BLinkTree

structure Parameters where
  innerNodeSize : Nat
  leafNodeSize : Nat
  innerPolicy : SplitPolicy innerNodeSize
  leafPolicy : SplitPolicy leafNodeSize

structure Tree (K V : Type) where
  nodes : Ptr → Option (BLinkNode K V)
  root : Ptr
  treeDepth : Nat
  /-- The next address that is handed out. -/
  fresh : Ptr

namespace BLinkNode

variable {K V : Type} [LinearOrder K]

/-- `sibling() != nullptr && high_key() < key`. -/
def isBefore (node : BLinkNode K V) (key : K) : Except Fault Bool :=
  if node.siblingPtr = nullptr then .ok false
  else do
    let high ← node.highKey
    return high < key

/-- `index < size() && key(index) == key`. -/
def hasAt (node : BLinkNode K V) (index : Nat) (key : K) : Except Fault Bool :=
  if index < node.itemCnt then do
    let found ← node.key index
    return found = key
  else .ok false

/-- `key(size() - 1)`. -/
def maxKey (node : BLinkNode K V) : Except Fault K :=
  if node.itemCnt = 0 then .error .check else node.key (node.itemCnt - 1)

end BLinkNode

namespace Tree

variable {K V : Type}

variable (tree : Tree K V)

def nodeAt (ptr : Ptr) : Except Fault (BLinkNode K V) :=
  match tree.nodes ptr with
  | some node => .ok node
  | none => .error .wildPointer

def write (ptr : Ptr) (node : BLinkNode K V) : Tree K V :=
  { tree with nodes := Function.update tree.nodes ptr (some node) }

def allocate (node : BLinkNode K V) : Tree K V :=
  { tree.write tree.fresh node with fresh := tree.fresh + 1 }

/-- `upper_level() = upper`. -/
def setUpperLevel (ptr upper : Ptr) : Except Fault (Tree K V) := do
  let node ← tree.nodeAt ptr
  return tree.write ptr { node with upperLevel := upper }

section Empty

variable [Inhabited K] [Inhabited V]

/-- `BLinkTree(...)`. -/
def empty (parameters : Parameters) : Tree K V where
  nodes := Function.update (fun _ => none) 1 (some (.new parameters.leafNodeSize true))
  root := 1
  treeDepth := 1
  fresh := 2

end Empty

section Search

variable [LinearOrder K]

def traverseInner (tree : Tree K V) (key : K) : Nat → Ptr → Except Fault Ptr
  | 0, _ => .error .endless
  | fuel + 1, current => do
      let work ← tree.nodeAt current
      if work.isLeaf then return current
      else if ← work.isBefore key then tree.traverseInner key fuel work.siblingPtr
      else
        let index ← work.nodeScan key
        let next ← work.child index
        tree.traverseInner key fuel next

/-- `while(current->sibling() != nullptr && current->high_key() < key)`. -/
def moveRight (tree : Tree K V) (key : K) : Nat → Ptr → Except Fault Ptr
  | 0, _ => .error .endless
  | fuel + 1, current => do
      let node ← tree.nodeAt current
      if ← node.isBefore key then tree.moveRight key fuel node.siblingPtr else return current

def leafOf (key : K) : Except Fault Ptr := do
  let current ← tree.traverseInner key tree.fresh tree.root
  tree.moveRight key tree.fresh current

def valueIn (node : BLinkNode K V) (key : K) : Except Fault (Option V) := do
  let index ← node.nodeScan key
  if ← node.hasAt index key then
    let value ← node.value index
    return some value
  else return none

def search (key : K) : Except Fault (Option V) := do
  let current ← tree.leafOf key
  let node ← tree.nodeAt current
  valueIn node key

/-- The loops of `SearchUnsafe`, in which moving to a sibling is asserted not to happen. -/
def searchUnsafeFrom (tree : Tree K V) (key : K) : Nat → Ptr → Except Fault (Option V)
  | 0, _ => .error .endless
  | fuel + 1, current => do
      let node ← tree.nodeAt current
      if ← node.isBefore key then .error .check
      else if node.isLeaf then valueIn node key
      else
        let index ← node.nodeScan key
        let next ← node.child index
        tree.searchUnsafeFrom key fuel next

def searchUnsafe (key : K) : Except Fault (Option V) :=
  tree.searchUnsafeFrom key tree.fresh tree.root

def update (key : K) (value : V) : Except Fault (Bool × Tree K V) := do
  let current ← tree.leafOf key
  let node ← tree.nodeAt current
  let index ← node.nodeScan key
  if ← node.hasAt index key then
    let node ← node.setValue index value
    return (true, tree.write current node)
  else return (false, tree)

/-! ## Insertion -/

/-- The descent of `Insert` with its `path_stack`, the last node first.  The result is
`none` when the key is met as a separator. -/
def insertPath (tree : Tree K V) (key : K) :
    Nat → (stack : List Ptr) → Ptr → Except Fault (Option (List Ptr × Ptr))
  | 0, _, _ => .error .endless
  | fuel + 1, stack, current => do
      let work ← tree.nodeAt current
      if work.isLeaf then return some (stack, current)
      else if ← work.isBefore key then tree.insertPath key fuel stack work.siblingPtr
      else
        let index ← work.nodeScan key
        if ← work.hasAt index key then return none
        else
          let next ← work.child index
          tree.insertPath key fuel (current :: stack) next

variable [Inhabited K] [Inhabited V] (parameters : Parameters)

variable (tree : Tree K V)

omit [LinearOrder K] in
/-- The node above `current`: a new root, the last node of the path, or the one that
`upper_level_` remembers. -/
def above (stack : List Ptr) (current newNode : Ptr) : Except Fault (Tree K V × Ptr × List Ptr) :=
  if current = tree.root then do
    let work := tree.fresh
    let tree := tree.allocate (.new parameters.innerNodeSize false)
    let tree ← tree.setUpperLevel current work
    let tree ← tree.setUpperLevel newNode work
    return ({ tree with root := work, treeDepth := tree.treeDepth + 1 }, work, stack)
  else
    match stack with
    | work :: rest => .ok (tree, work, rest)
    | [] => do
        let node ← tree.nodeAt current
        assert (node.upperLevel ≠ nullptr)
        return (tree, node.upperLevel, [])

/-- `while(new_node != nullptr)`. -/
def ascend : Nat → Tree K V → (stack : List Ptr) → (current newNode : Ptr) → Except Fault (Tree K V)
  | 0, _, _, _, _ => .error .endless
  | fuel + 1, tree, stack, current, newNode => do
      let right ← tree.nodeAt newNode
      let rightMaxKey ← right.maxKey
      let left ← tree.nodeAt current
      let leftMaxKey ← left.maxKey
      let (tree, work, stack) ← tree.above parameters stack current newNode
      let work ← tree.moveRight rightMaxKey tree.fresh work
      let node ← tree.nodeAt work
      match ← node.innerInsert parameters.innerPolicy tree.fresh leftMaxKey current newNode with
      | (node, none) => return tree.write work node
      | (node, some split) =>
        ascend fuel ((tree.write work node).allocate split) stack work tree.fresh

def insert (key : K) (value : V) : Except Fault (Bool × Tree K V) := do
  match ← tree.insertPath key tree.fresh [] tree.root with
  | none => return (false, tree)
  | some (stack, current) =>
    let current ← tree.moveRight key tree.fresh current
    let node ← tree.nodeAt current
    let index ← node.nodeScan key
    if ← node.hasAt index key then return (false, tree)
    else
      match ← node.leafInsert parameters.leafPolicy tree.fresh key value index with
      | (node, none) => return (true, tree.write current node)
      | (node, some split) =>
        let grown := (tree.write current node).allocate split
        let final ← ascend parameters grown.fresh grown stack current tree.fresh
        return (true, final)

end Search

/-! ## Scans

`scanned` and `found` are `scan_index` and `kv_pairs`. -/

/-- Append entries of a leaf until it ends or enough are found; `count` are left. -/
def takeEntries (node : BLinkNode K V) (scanSz : Nat) :
    (count index scanned : Nat) → List (K × V) → Except Fault (Nat × List (K × V))
  | 0, _, scanned, found => .ok (scanned, found)
  | count + 1, index, scanned, found => do
      let key ← node.key index
      let value ← node.value index
      let found := found ++ [(key, value)]
      if scanSz ≤ scanned + 1 then return (scanned + 1, found)
      else takeEntries node scanSz count (index + 1) (scanned + 1) found

/-- `while(scan_index < scan_sz)`. -/
def scanFixedFrom (tree : Tree K V) (scanSz : Nat) :
    Nat → (current : Ptr) → (index scanned : Nat) → List (K × V) → Except Fault (List (K × V))
  | 0, _, _, _, _ => .error .endless
  | fuel + 1, current, index, scanned, found =>
    if scanned < scanSz then do
      let node ← tree.nodeAt current
      let (scanned, found) ← takeEntries node scanSz (node.itemCnt - index) index scanned found
      if scanSz ≤ scanned then return found
      else if node.siblingPtr = nullptr then return found
      else tree.scanFixedFrom scanSz fuel node.siblingPtr 0 scanned found
    else .ok found

variable [LinearOrder K]

/-- Append the entries of a leaf less than `rightKey`; the result tells whether a greater
one was met. -/
def takeBelow (node : BLinkNode K V) (rightKey : K) :
    (count index : Nat) → List (K × V) → Except Fault (Bool × List (K × V))
  | 0, _, found => .ok (false, found)
  | count + 1, index, found => do
      let key ← node.key index
      if rightKey ≤ key then return (true, found)
      else
        let value ← node.value index
        takeBelow node rightKey count (index + 1) (found ++ [(key, value)])

/-- `while(true)` of `ScanRange`. -/
def scanRangeFrom (tree : Tree K V) (rightKey : K) :
    Nat → (current : Ptr) → (index : Nat) → List (K × V) → Except Fault (List (K × V))
  | 0, _, _, _ => .error .endless
  | fuel + 1, current, index, found => do
      let node ← tree.nodeAt current
      let (stopped, found) ← takeBelow node rightKey (node.itemCnt - index) index found
      if stopped then return found
      else if node.siblingPtr = nullptr then return found
      else tree.scanRangeFrom rightKey fuel node.siblingPtr 0 found

variable (tree : Tree K V)

/-- The results are the value returned and `kv_pairs`. -/
def scanFixed (leftKey : K) (scanSz : Nat) (kvPairs : List (K × V)) :
    Except Fault (Bool × List (K × V)) := do
  let current ← tree.leafOf leftKey
  let node ← tree.nodeAt current
  let index ← node.nodeScan leftKey
  if index = node.itemCnt then return (false, kvPairs)
  else
    let found ← tree.scanFixedFrom scanSz tree.fresh current index 0 kvPairs
    return (true, found)

def scanRange (leftKey rightKey : K) (kvPairs : List (K × V)) :
    Except Fault (Bool × List (K × V)) := do
  let current ← tree.leafOf leftKey
  let node ← tree.nodeAt current
  let index ← node.nodeScan leftKey
  if index = node.itemCnt then return (false, kvPairs)
  else
    let found ← tree.scanRangeFrom rightKey tree.fresh current index kvPairs
    return (true, found)

end Tree

end IndexResearch.BLinkTree
