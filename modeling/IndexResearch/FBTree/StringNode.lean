import IndexResearch.ByteString
import IndexResearch.FBTree.InnerNode

/-!
# Inner nodes with string separators

`InnerNode<String>` of `inode.h` with `kExtentOpt` off.  A separator is a pointer to the
high key of a leaf.  Next to the pointers a node keeps the length of the prefix common to
all separators, the prefix itself as long as it fits into `tiny_`, and the four bytes
behind the prefix column-wise in `features_`, padded with zero bytes.  As for integer
keys, the functions are run by one thread and the arrays hold arbitrary values outside
the part in use.
-/

namespace IndexResearch.Util

/-- `compare` of `strutil.h`. -/
def compare (s1 : Nat → Byte) (n1 : Nat) (s2 : Nat → Byte) (n2 : Nat) : Ordering :=
  match memcmp s1 s2 (min n1 n2) with
  | .eq => Ord.compare n1 n2
  | result => result

/-- `common_prefix` of `strutil.h`. -/
def commonPrefix (first second : ByteString) : Nat :=
  scan (fun index => first.byte index == second.byte index) (min first.len second.len)

end IndexResearch.Util

namespace IndexResearch.FBTree

/-- A `String*` and the string it points to, which is never written to. -/
structure Anchor where
  address : Ptr
  text : ByteString
  deriving DecidableEq

structure StringNode (size : NodeSize) where
  control : Control
  knum : Nat
  plen : Nat
  /-- The first separator at the last rebuild. -/
  huge : Anchor
  /-- The right sibling, or the last child of the rightmost node. -/
  next : Ptr
  features : Nat → Nat → Byte
  tiny : Nat → Byte
  anchors : Nat → Anchor
  children : Nat → Ptr

namespace StringNode

open InnerNode (mapRows)

variable {size : NodeSize}

def kFeatureSize : Nat := 4
def kEmbedPrSize : Nat := 224

/-- The constructor, run on memory that holds `raw`. -/
def new (raw : StringNode size) : StringNode size :=
  { raw with control := .new false, knum := 0, plen := 0, next := nullptr }

def updateVersion (node : StringNode size) : StringNode size :=
  { node with control := node.control.updateVersion }

variable (node : StringNode size)

def bitmap : Bitmap := inUse size node.knum

/-! ## Search -/

/-- Compare the key with the node prefix.  `huge_` is used only where the key and the
prefix are both too long for `tiny_`. -/
def prefixCompare (key : ByteString) : Except Fault Ordering := do
  let cmps := min key.len node.plen
  let pcmp ←
    if cmps ≤ kEmbedPrSize then .ok (memcmp key.byte node.tiny cmps)
    else if cmps ≤ node.huge.text.len then .ok (memcmp key.byte node.huge.text.byte cmps)
    else .error .uninitialised
  return if pcmp = .eq ∧ cmps < node.plen then .lt else pcmp

/-- The loop of `suffix_bs`. -/
def suffixLoop (node : StringNode size) (key : ByteString) (cmps : Nat) :
    Nat → (lid hid : Nat) → Except Fault Nat
  | 0, _, _ => .error .endless
  | fuel + 1, lid, hid =>
    if lid < hid then
      let mid := (lid + hid) / 2
      let sep := (node.anchors mid).text
      if sep.len < cmps then .ok mid
      else
        match Util.compare (fun index => key.byte (cmps + index)) (key.len - cmps)
            (fun index => sep.byte (cmps + index)) (sep.len - cmps) with
        | .lt => node.suffixLoop key cmps fuel lid mid
        | .eq => .ok mid
        | .gt => node.suffixLoop key cmps fuel (mid + 1) hid
    else .ok hid

/-- Binary search among the separators whose first `cmps` bytes were compared. -/
def suffixBs (key : ByteString) (cmps lid hid : Nat) : Except Fault Nat :=
  if key.len < cmps ∨ hid ≤ lid then .error .check
  else node.suffixLoop key cmps (hid - lid + 1) lid hid

def featureBound (key : ByteString) : Nat :=
  min kFeatureSize (key.len - node.plen)

def searchRows (key : ByteString) : Nat × Bitmap :=
  equalRows size node.features (fun rid => key.byte (node.plen + rid) + 128#8)
    (node.featureBound key) 0 node.bitmap

/-- The arguments `cmps`, `lid` and `hid` of the call of `suffix_bs`, when the features
do not decide. -/
def suffixCall (key : ByteString) : Option (Nat × Nat × Nat) :=
  let (rid, eqmask) := node.searchRows key
  if rid < node.featureBound key then none
  else some (node.plen + node.featureBound key, leastColumn eqmask, afterLast eqmask)

def featureIndex (key : ByteString) : Except Fault Nat :=
  let (rid, eqmask) := node.searchRows key
  match node.suffixCall key with
  | none =>
    let mask := lessMask size (node.features rid) (key.byte (node.plen + rid) + 128#8) eqmask
    if mask = 0 then .ok (leastColumn eqmask) else .ok (afterLast mask)
  | some (cmps, lid, hid) =>
    if eqmask = 0 then .error .check else node.suffixBs key cmps lid hid

def toNext (key : ByteString) : Except Fault (Bool × Ptr) :=
  if node.control.deleted then .ok (true, node.next)
  else do
    match ← node.prefixCompare key with
    | .lt => return (false, node.children 0)
    | .gt => return (node.control.sibling, node.next)
    | .eq =>
      -- the loop starts again
      if key.len < node.plen then .error .endless
      else
        let index ← node.featureIndex key
        return if index = node.knum then (node.control.sibling, node.next)
          else (false, node.children index)

def indexOrSibling (key : ByteString) : Except Fault Position :=
  if node.control.deleted then .ok (.sibling node.next)
  else do
    match ← node.prefixCompare key with
    | .lt => return .index 0
    | .gt => return if node.control.sibling then .sibling node.next else .index node.knum
    | .eq =>
      if key.len < node.plen then .error .check
      else
        let index ← node.featureIndex key
        return if index = node.knum ∧ node.control.sibling then .sibling node.next
          else .index index

/-! ## Layout -/

/-- The feature of a separator in row `fid`, for a prefix of length `plen`. -/
def feature (plen : Nat) (text : ByteString) (fid : Nat) : Byte :=
  (if plen + fid < text.len then text.byte (plen + fid) else 0) + 128#8

def contentRebuild : Except Fault (StringNode size) :=
  if node.knum = 0 then .error .noSeparator
  else
    let fk := (node.anchors 0).text
    let lk := (node.anchors (node.knum - 1)).text
    let plen := Util.commonPrefix fk lk
    .ok { node with
      plen := plen
      huge := node.anchors 0
      tiny := if plen ≤ kEmbedPrSize then copy node.tiny fk.byte 0 0 plen else node.tiny
      features := mapRows kFeatureSize
        (fun fid row column =>
          if column < node.knum then feature plen (node.anchors column).text fid else row column)
        node.features }

/-! ## Insertion -/

def newSibling (raw : StringNode size) : StringNode size :=
  { raw.new with
    next := node.next
    control := if node.control.sibling then Control.setSibling (.new false) else .new false }

def linkTo (address : Ptr) : StringNode size :=
  { node with next := address, control := node.control.setSibling }

def lastRight (rnode : StringNode size) (lchild rchild : Ptr) (key : Anchor) : StringNode size :=
  { rnode with
    anchors := Function.update rnode.anchors 0 key
    children := Function.update rnode.children 0 lchild
    next := rchild
    knum := 1 }

def lowRight (rnode node : StringNode size) : StringNode size :=
  { rnode with
    anchors := copy rnode.anchors node.anchors 0 size.half size.half
    children := copy rnode.children node.children 0 size.half size.half
    knum := size.half }

def lowLeft (rchild : Ptr) (key : Anchor) (index : Nat) : StringNode size :=
  { node with
    anchors := Function.update
      (moveBackward node.anchors index (index + 1) (size.half - index)) index key
    children := Function.update
      (moveBackward node.children index (index + 1) (size.half - index)) (index + 1) rchild
    knum := size.half + 1 }

def highRight (rnode node : StringNode size) (rchild : Ptr) (key : Anchor) (index : Nat) :
    StringNode size :=
  { rnode with
    anchors :=
      let anchors := copy rnode.anchors node.anchors 0 size.half (index - size.half)
      let anchors := copy anchors node.anchors (index - size.half + 1) index (size.slots - index)
      Function.update anchors (index - size.half) key
    children :=
      let children := copy rnode.children node.children 0 size.half (index - size.half + 1)
      let children :=
        copy children node.children (index - size.half + 2) (index + 1) (size.slots - index - 1)
      Function.update children (index - size.half + 1) rchild
    knum := size.half + 1 }

def highLeft : StringNode size := { node with knum := size.half }

/-- Split a full node; `raw` is what the allocator placed at `address`. -/
def split (raw : StringNode size) (address lchild rchild : Ptr) (key : Anchor)
    (index : Nat) : Except Fault (StringNode size × StringNode size × Anchor) := do
  let rnode := node.newSibling raw
  let node := node.linkTo address
  if index = size.slots then
    let rnode ← (rnode.lastRight lchild rchild key).contentRebuild
    return (node, rnode, node.anchors (size.slots - 1))
  else if index < size.half then
    let rnode := rnode.lowRight node
    let node ← (node.lowLeft rchild key index).contentRebuild
    let rnode ← rnode.contentRebuild
    return (node, rnode, node.anchors size.half)
  else
    let rnode := rnode.highRight node rchild key index
    let node ← node.highLeft.contentRebuild
    let rnode ← rnode.contentRebuild
    return (node, rnode, node.anchors (size.half - 1))

def place (lchild rchild : Ptr) (key : Anchor) (index : Nat) : StringNode size :=
  { node with
    anchors := Function.update
      (moveBackward node.anchors index (index + 1) (node.knum - index)) index key
    children :=
      if index ≠ node.knum then
        Function.update
          (moveBackward node.children (index + 1) (index + 2) (node.knum - index - 1)) (index + 1)
          rchild
      else Function.update node.children index lchild
    next := if index ≠ node.knum then node.next else rchild
    knum := node.knum + 1 }

/-- Make room for a column at `index` and fill it. -/
def insertColumn (key : Anchor) (index : Nat) : StringNode size :=
  { node with
    features := mapRows kFeatureSize
      (fun rid row => Function.update (copy row row (index + 1) index (node.knum - index - 1)) index
        (feature node.plen key.text rid)) node.features }

def insert (raw : StringNode size) (address lchild rchild : Ptr) (key : Anchor)
    (index : Nat) : Except Fault (StringNode size × Option (StringNode size) × Anchor) :=
  let node := node.updateVersion
  if node.knum < index then .error .check
  else if node.knum < size.slots then
    if index = 0 ∨ index = node.knum then
      (node.place lchild rchild key index).contentRebuild.map fun node => (node, none, key)
    else .ok ((node.place lchild rchild key index).insertColumn key index, none, key)
  else (node.split raw address lchild rchild key index).map fun result =>
    (result.1, some result.2.1, result.2.2)

/-! ## Removal

`this` is the address of the node and `right` the node that `next_` leads to
when the node has a sibling. -/

/-- Copy the separators of the right node behind the first `pos` ones and
`count` of its children, from `src` on, behind the own ones. -/
def absorb (right : StringNode size) (pos src count knum : Nat) : StringNode size :=
  { node with
    anchors := copy node.anchors right.anchors pos 0 right.knum
    children := copy node.children right.children node.knum src count
    knum := knum }

def inherit (right : StringNode size) (next : Ptr) : StringNode size :=
  { node with
    next := next
    control := if right.control.sibling then node.control else node.control.clearSibling }

/-- The right node after it was absorbed by the node at `this`. -/
def discard (right : StringNode size) (this : Ptr) : StringNode size :=
  { right with knum := 0, next := this, control := right.control.setDelete }

def merge (right : StringNode size) (this : Ptr) (key : Anchor) :
    Except Fault (Removed (StringNode size) Anchor) :=
  if node.control.sibling then
    if node.knum < 1 then .error .check
    else if node.knum + right.knum ≤ size.half ∨ right.knum = 0 then
      (node.absorb right node.knum 0 right.knum (node.knum + right.knum)).contentRebuild.map
        fun merged => ⟨merged.inherit right right.next, (right.discard this).updateVersion, true,
          false, node.anchors (node.knum - 1)⟩
    else .ok ⟨node, right, false, false, key⟩
  else .ok ⟨node, right, false, false, key⟩

def removeLast (index : Nat) : Except Fault (StringNode size) :=
  let node : StringNode size := { node with next := node.children index, knum := node.knum - 1 }
  if node.knum = 0 then .ok { node with plen := 0 } else node.contentRebuild

def boundMerge (right : StringNode size) (this : Ptr) (key : Anchor) (index : Nat) :
    Except Fault (Removed (StringNode size) Anchor) :=
  (node.absorb right index 1 (right.knum - 1) (node.knum + right.knum - 1)).contentRebuild.map
    fun merged =>
      ⟨merged.inherit right (if right.knum ≠ 0 then right.next else merged.children index),
      right.discard this, true, false, key⟩

def handOver (right : StringNode size) (index : Nat) :
    Except Fault (Removed (StringNode size) Anchor) :=
  let kept : StringNode size := { node with knum := node.knum - 1 }
  kept.contentRebuild.map fun node' =>
    ⟨node', { right with children := Function.update right.children 0 (node.children index) },
      false, true, node.anchors (index - 1)⟩

def boundRemove (right : StringNode size) (this : Ptr) (key : Anchor) (index : Nat) :
    Except Fault (Removed (StringNode size) Anchor) :=
  if node.control.sibling then
    let right := right.updateVersion
    if index + right.knum ≤ size.half ∨ index = 0 ∨ right.knum = 0 ∨ right.knum = 1 then
      node.boundMerge right this key index
    else node.handOver right index
  else (node.removeLast index).map fun node => ⟨node, right, false, false, key⟩

def removeInner (index : Nat) : Except Fault (StringNode size) :=
  let removed : StringNode size := { node with
    anchors := moveForward node.anchors (index + 1) index (node.knum - index - 1)
    children := moveForward node.children (index + 2) (index + 1) (node.knum - index - 2)
    features :=
      if index ≠ 0 then
        mapRows kFeatureSize (fun _ row => copy row row index (index + 1) (node.knum - index - 1))
          node.features
      else node.features
    knum := node.knum - 1 }
  if index = 0 then removed.contentRebuild else .ok removed

/-- `remove` after the update of the version. -/
def removeAt (right : StringNode size) (this : Ptr) (key : Anchor) (index : Nat) :
    Except Fault (Removed (StringNode size) Anchor) :=
  if node.knum ≤ index then .error .check
  else if index < node.knum - 1 then do
    let removed ← node.removeInner index
    removed.merge right this key
  else node.boundRemove right this key index

def remove (right : StringNode size) (this : Ptr) (key : Anchor) (index : Nat) :
    Except Fault (Removed (StringNode size) Anchor) :=
  node.updateVersion.removeAt right this key index

def anchorUpdate (key : Anchor) (index : Nat) : Except Fault (StringNode size × Bool) :=
  if node.knum ≤ index then .error .check
  else
    let node := node.updateVersion
    let node : StringNode size := { node with anchors := Function.update node.anchors index key }
    let up := node.control.sibling && node.knum - 1 == index
    if index = 0 ∨ index = node.knum - 1 then node.contentRebuild.map fun node => (node, up)
    else
      .ok ({ node with
        features := mapRows kFeatureSize
          (fun rid row => Function.update row index (feature node.plen key.text rid))
          node.features }, up)

def rootRemove : StringNode size × Option Ptr :=
  if node.knum = 0 then ({ node with control := node.control.setDelete }, some node.next)
  else (node, none)

end StringNode

end IndexResearch.FBTree
