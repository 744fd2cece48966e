import IndexResearch.FBTree.Extent
import IndexResearch.Loop

/-!
# String nodes with extents

`InnerNode<String>` of `inode.h` with `kExtentOpt` on.  The node owns a copy of each of its
separators in its extent.  Everything else is as with `kExtentOpt` off, and the code without
extents is used for it; its field `huge` shares its memory with the pointer to the extent
and has no meaning here.  An operation may call `malloc` several times; `malloc` tells what
each of the calls returns.
-/

namespace IndexResearch.FBTree

open StringMemory

structure ExtentNode (size : NodeSize) where
  node : StringNode size
  extent : Extent

namespace ExtentNode

variable {size : NodeSize}

/-- The constructor, run on memory that holds `raw`. -/
def new (raw : StringNode size) (block : Block) : Except Fault (ExtentNode size) :=
  (Extent.init block kExtentSize).map fun extent => ⟨raw.new, extent⟩

/-! ## Separators -/

def relocate (old : Extent) (kid : Nat) (state : (Nat → Anchor) × Extent) :
    Except Fault ((Nat → Anchor) × Extent) := do
  let key ← old.load (state.1 kid)
  match state.2.makeAnchor key with
  | some (anchor, extent) => return (Function.update state.1 kid anchor, extent)
  | none => .error .check

variable (self : ExtentNode size)

def extentResize (block : Block) (rlen : Int) : Except Fault (ExtentNode size) :=
  if self.extent.left < rlen then do
    let len ← roundup (toInt (self.extent.usedSize + rlen)) kExtentSize
    let block ← block.allocate len
    let fresh ← Extent.init block len
    let (anchors, extent) ← forUp (relocate self.extent) self.node.knum 0 (self.node.anchors, fresh)
    (if 0 < self.node.knum then extent.setHuge (anchors 0) else .ok extent).map fun extent =>
      ⟨{ self.node with anchors := anchors }, extent⟩
  else .ok self

def makeAnchor (self : ExtentNode size) (block : Block) (key : ByteString) :
    Except Fault (ExtentNode size × Anchor) :=
  match self.extent.makeAnchor key with
  | some (anchor, extent) => .ok (⟨self.node, extent⟩, anchor)
  | none => do
      let self ← self.extentResize block (toInt (blockSize key))
      match self.extent.makeAnchor key with
      | some (anchor, extent) => return (⟨self.node, extent⟩, anchor)
      | none => .error .check

def ruinAnchor (self : ExtentNode size) (key : Anchor) : Except Fault (ExtentNode size) :=
  (self.extent.ruinAnchor key).map fun extent => ⟨self.node, extent⟩

def setAnchor (index : Nat) (anchor : Anchor) : ExtentNode size :=
  ⟨{ self.node with anchors := Function.update self.node.anchors index anchor }, self.extent⟩

def setKnum (knum : Nat) : ExtentNode size :=
  ⟨{ self.node with knum := knum }, self.extent⟩

/-- Move the separator at `kid` to the place `dst` of another node. -/
def transfer (source target : ExtentNode size) (block : Block) (kid dst : Nat) :
    Except Fault (ExtentNode size × ExtentNode size) := do
  let key ← source.extent.load (source.node.anchors kid)
  let (target, anchor) ← target.makeAnchor block key
  let source ← source.ruinAnchor (source.node.anchors kid)
  return (source, target.setAnchor dst anchor)

def markHuge (node : StringNode size) (extent : Extent) (rebuilt : Bool) :
    Except Fault (ExtentNode size) :=
  if rebuilt then (extent.setHuge (node.anchors 0)).map fun extent => ⟨node, extent⟩
  else .ok ⟨node, extent⟩

def contentRebuild (self : ExtentNode size) : Except Fault (ExtentNode size) := do
  let node ← self.node.contentRebuild
  markHuge node self.extent true

/-! ## Insertion -/

def splitLast (rnode : ExtentNode size) (malloc : Nat → Block) (lchild rchild : Ptr)
    (key : ByteString) : Except Fault (ExtentNode size × ExtentNode size × Anchor) := do
  let (rnode, key) ← rnode.makeAnchor (malloc 1) key
  let rnode ← contentRebuild ⟨rnode.node.lastRight lchild rchild key, rnode.extent⟩
  return (self, rnode, self.node.anchors (size.slots - 1))

def lowRight (rnode self : ExtentNode size) : ExtentNode size :=
  ⟨{ rnode.node with
      children := copy rnode.node.children self.node.children 0 size.half size.half
      knum := size.half }, rnode.extent⟩

def splitLow (rnode : ExtentNode size) (malloc : Nat → Block) (rchild : Ptr)
    (key : ByteString) (index : Nat) :
    Except Fault (ExtentNode size × ExtentNode size × Anchor) := do
  let rnode ← rnode.extentResize (malloc 1) self.extent.usedSize
  let (self, rnode) ← forUp
    (fun kid pair => pair.1.transfer pair.2 (malloc (kid + 2)) kid (kid - size.half))
    size.half size.half (self, rnode)
  let rnode := rnode.lowRight self
  let (self, key) ← (self.setKnum size.half).makeAnchor (malloc 2) key
  let self ← contentRebuild ⟨self.node.lowLeft rchild key index, self.extent⟩
  let rnode ← rnode.contentRebuild
  return (self, rnode, self.node.anchors size.half)

/-- The new separator goes in front of the one at `index`. -/
def highPlace (rnode : ExtentNode size) (block : Block) (key : ByteString) (index kid : Nat) :
    Except Fault (ExtentNode size) :=
  if kid = index then (rnode.makeAnchor block key).map fun (rnode, key) =>
    (rnode.setAnchor (index - size.half) key).setKnum (rnode.node.knum + 1)
  else .ok rnode

def highRound (malloc : Nat → Block) (key : ByteString) (index kid : Nat)
    (pair : ExtentNode size × ExtentNode size) :
    Except Fault (ExtentNode size × ExtentNode size) := do
  let rnode ← pair.2.highPlace (malloc (2 * kid)) key index kid
  let (self, rnode) ← pair.1.transfer rnode (malloc (2 * kid + 1)) kid
    (if kid < index then kid - size.half else kid - size.half + 1)
  return (self, rnode.setKnum (rnode.node.knum + 1))

def highRight (rnode self : ExtentNode size) (rchild : Ptr) (index : Nat) : ExtentNode size :=
  ⟨{ rnode.node with
      children :=
        let children :=
          copy rnode.node.children self.node.children 0 size.half (index - size.half + 1)
        let children := copy children self.node.children (index - size.half + 2) (index + 1)
          (size.slots - index - 1)
        Function.update children (index - size.half + 1) rchild
      knum := size.half + 1 }, rnode.extent⟩

def splitHigh (rnode : ExtentNode size) (malloc : Nat → Block) (rchild : Ptr)
    (key : ByteString) (index : Nat) :
    Except Fault (ExtentNode size × ExtentNode size × Anchor) := do
  let (self, rnode) ← forUp (highRound malloc key index) size.half size.half (self, rnode)
  let rnode := rnode.highRight self rchild index
  let self ← (self.setKnum size.half).contentRebuild
  let rnode ← rnode.contentRebuild
  return (self, rnode, self.node.anchors (size.half - 1))

/-- Split a full node; `raw` is what the allocator placed at `address`. -/
def split (raw : StringNode size) (malloc : Nat → Block)
    (address lchild rchild : Ptr) (key : ByteString) (index : Nat) :
    Except Fault (ExtentNode size × ExtentNode size × Anchor) := do
  let extent ← Extent.init (malloc 0) kExtentSize
  let rnode : ExtentNode size := ⟨self.node.newSibling raw, extent⟩
  let self : ExtentNode size := ⟨self.node.linkTo address, self.extent⟩
  if index = size.slots then self.splitLast rnode malloc lchild rchild key
  else if index < size.half then self.splitLow rnode malloc rchild key index
  else self.splitHigh rnode malloc rchild key index

def insert (self : ExtentNode size) (raw : StringNode size) (malloc : Nat → Block)
    (address lchild rchild : Ptr) (key : ByteString) (index : Nat) :
    Except Fault (ExtentNode size × Option (ExtentNode size) × Anchor) :=
  if self.node.knum < index then .error .check
  else if self.node.knum < size.slots then do
    let (made, key) ← self.makeAnchor (malloc 0) key
    let (node, _, _) ← made.node.insert raw address lchild rchild key index
    (markHuge node made.extent (index == 0 || index == self.node.knum)).map fun self =>
      (self, none, key)
  else
    (split ⟨self.node.updateVersion, self.extent⟩ raw malloc address lchild rchild key index).map
      fun result => (result.1, some result.2.1, result.2.2)

/-! ## Removal

`this` is the address of the node and `right` the node that `next_` leads to
when the node has a sibling. -/

def absorb (right : ExtentNode size) (malloc : Nat → Block) :
    Except Fault (ExtentNode size × ExtentNode size) := do
  let self ← self.extentResize (malloc 0) right.extent.usedSize
  forUp (fun kid pair =>
      (pair.1.transfer pair.2 (malloc (kid + 1)) kid pair.2.node.knum).map fun (right, self) =>
        (right, self.setKnum (self.node.knum + 1)))
    right.node.knum 0 (right, self)

/-- Copy `count` children of the right node, from `src` on, to the place `dst`. -/
def takeChildren (right : ExtentNode size) (dst src count : Nat) : ExtentNode size :=
  ⟨{ self.node with children := copy self.node.children right.node.children dst src count },
    self.extent⟩

def merge (right : ExtentNode size) (malloc : Nat → Block) (this : Ptr) (key : Anchor) :
    Except Fault (Removed (ExtentNode size) Anchor) :=
  if self.node.control.sibling then
    if self.node.knum < 1 then .error .check
    else if self.node.knum + right.node.knum ≤ size.half ∨ right.node.knum = 0 then do
      let (rest, merged) ← self.absorb right malloc
      let merged ← (merged.takeChildren right (merged.node.knum - right.node.knum) 0
        right.node.knum).contentRebuild
      return ⟨⟨merged.node.inherit right.node right.node.next, merged.extent⟩,
        ⟨(rest.node.discard this).updateVersion, rest.extent⟩, true, false,
        self.node.anchors (self.node.knum - 1)⟩
    else .ok ⟨self, right, false, false, key⟩
  else .ok ⟨self, right, false, false, key⟩

def removeLast (self : ExtentNode size) (index : Nat) : Except Fault (ExtentNode size) := do
  let node ← self.node.removeLast index
  markHuge node self.extent (node.knum != 0)

def boundMerge (right : ExtentNode size) (malloc : Nat → Block) (this : Ptr) (key : Anchor)
    (index : Nat) : Except Fault (Removed (ExtentNode size) Anchor) := do
  let (rest, merged) ← (self.setKnum (self.node.knum - 1)).absorb right malloc
  let merged ← (merged.takeChildren right (merged.node.knum - right.node.knum + 1) 1
    (right.node.knum - 1)).contentRebuild
  let next := if right.node.knum ≠ 0 then right.node.next else merged.node.children index
  return ⟨⟨merged.node.inherit right.node next, merged.extent⟩,
    ⟨rest.node.discard this, rest.extent⟩, true, false, key⟩

def handOver (right : ExtentNode size) (index : Nat) :
    Except Fault (Removed (ExtentNode size) Anchor) := do
  let kept ← (self.setKnum (self.node.knum - 1)).contentRebuild
  return ⟨kept, ⟨{ right.node with
      children := Function.update right.node.children 0 (self.node.children index) }, right.extent⟩,
    false, true, self.node.anchors (index - 1)⟩

def boundRemove (right : ExtentNode size) (malloc : Nat → Block) (this : Ptr) (key : Anchor)
    (index : Nat) : Except Fault (Removed (ExtentNode size) Anchor) :=
  if self.node.control.sibling then
    let right : ExtentNode size := ⟨right.node.updateVersion, right.extent⟩
    if index + right.node.knum ≤ size.half ∨ index = 0 ∨ right.node.knum = 0 ∨
        right.node.knum = 1 then
      self.boundMerge right malloc this key index
    else self.handOver right index
  else (self.removeLast index).map fun self => ⟨self, right, false, false, key⟩

def remove (right : ExtentNode size) (malloc : Nat → Block) (this : Ptr) (key : Anchor)
    (index : Nat) : Except Fault (Removed (ExtentNode size) Anchor) :=
  if self.node.knum ≤ index then .error .check
  else do
    let self ← ruinAnchor ⟨self.node.updateVersion, self.extent⟩ (self.node.anchors index)
    if index < self.node.knum - 1 then
      let node ← self.node.removeInner index
      let removed ← markHuge node self.extent (index == 0)
      removed.merge right malloc this key
    else self.boundRemove right malloc this key index

def anchorUpdate (self : ExtentNode size) (block : Block) (key : ByteString) (index : Nat) :
    Except Fault (ExtentNode size × Bool) :=
  if self.node.knum ≤ index then .error .check
  else do
    let (self, key) ← self.makeAnchor block key
    let self ← self.ruinAnchor (self.node.anchors index)
    let (node, up) ← self.node.anchorUpdate key index
    (markHuge node self.extent (index == 0 || index == self.node.knum - 1)).map fun self =>
      (self, up)

end ExtentNode

end IndexResearch.FBTree
