import IndexResearch.FBTree.Constant
import IndexResearch.FBTree.FeatureSearch
import IndexResearch.FBTree.NodeView

/-!
# Inner nodes with integer separators

`InnerNode<K>` of `inode.h`.  Separators are stored encoded: the bytes common to
all of them in `prefix_`, the remaining ones column-wise in `features_`.  The
arrays hold arbitrary bytes outside the part in use, as memory from the allocator
does.  The functions are run by one thread, so latches are free and a reader
never observes a change of version.
-/

namespace IndexResearch.FBTree

open Function

structure InnerNode (size : NodeSize) (type : KeyType) where
  control : Control
  knum : Nat
  plen : Nat
  prefixBytes : Nat → Byte
  /-- The right sibling, or the last child of the rightmost node. -/
  next : Ptr
  features : Nat → Nat → Byte
  children : Nat → Ptr

namespace InnerNode

variable {size : NodeSize} {type : KeyType}

/-- The constructor, run on memory that holds `raw`. -/
def new (raw : InnerNode size type) : InnerNode size type :=
  { raw with control := .new false, knum := 0, plen := 0, next := nullptr }

def updateVersion (node : InnerNode size type) : InnerNode size type :=
  { node with control := node.control.updateVersion }

variable (node : InnerNode size type)

@[simp] theorem knum_updateVersion : node.updateVersion.knum = node.knum := by
  cases node
  rfl

def bitmap : Bitmap :=
  if size = .size64 ∧ node.knum = size.slots then 0#64 - 1#64
  else (1#64 <<< node.knum) - 1#64

/-- Apply `row` to the first `count` rows. -/
def mapRows (count : Nat) (row : Nat → (Nat → Byte) → Nat → Byte) (features : Nat → Nat → Byte) :
    Nat → Nat → Byte :=
  fun rid => if rid < count then row rid (features rid) else features rid

/-! ## Search -/

/-- Length of the part of `prefix_` that agrees with the key. -/
def prefixScan (key : Encoded type) : Nat :=
  scan (fun pid => byteAt key pid == node.prefixBytes pid) node.plen

def searchRows (key : Encoded type) : Nat × Bitmap :=
  equalRows size node.features (fun rid => byteAt key (rid + node.plen))
    (type.size - node.plen) 0 node.bitmap

def featureIndex (key : Encoded type) : Except Fault Nat :=
  let (rid, eqmask) := node.searchRows key
  if rid + node.plen < type.size then
    let mask := lessMask size (node.features rid) (byteAt key (rid + node.plen)) eqmask
    if mask = 0 then .ok (leastColumn eqmask) else .ok (afterLast mask)
  else if Bitmap.popcount eqmask = 1 then .ok ((Bitmap.indexLeast1 eqmask).getD 0)
  else .error .check

def toNext (key : Encoded type) : Except Fault (Bool × Ptr) :=
  if node.control.deleted then .ok (true, node.next)
  else
    let pid := node.prefixScan key
    if pid = node.plen then
      (node.featureIndex key).map fun index =>
        if index = node.knum then (node.control.sibling, node.next)
        else (false, node.children index)
    else if (byteAt key pid).slt (node.prefixBytes pid) then .ok (false, node.children 0)
    else .ok (node.control.sibling, node.next)

def indexOrSibling (key : Encoded type) : Except Fault Position :=
  if node.control.deleted then .ok (.sibling node.next)
  else
    let pid := node.prefixScan key
    if pid = node.plen then
      let (rid, eqmask) := node.searchRows key
      if rid + node.plen < type.size then
        let mask := lessMask size (node.features rid) (byteAt key (rid + node.plen)) eqmask
        if mask = 0 then .ok (.index (leastColumn eqmask))
        else if afterLast mask = node.knum ∧ node.control.sibling then .ok (.sibling node.next)
        else .ok (.index (afterLast mask))
      else if Bitmap.popcount eqmask = 1 then .ok (.index ((Bitmap.indexLeast1 eqmask).getD 0))
      else .error .check
    else if (byteAt key pid).slt (node.prefixBytes pid) then .ok (.index 0)
    else if node.control.sibling then .ok (.sibling node.next)
    else .ok (.index node.knum)

/-! ## Column layout -/

/-- `*(K*) prefix_ = mid`. -/
def storePrefix (bytes : Nat → Byte) (mid : Encoded type) : Nat → Byte :=
  copy bytes (byteAt mid) 0 0 type.size

def keyInsert (mid : Encoded type) (index : Nat) : InnerNode size type :=
  if node.knum = 0 then
    { node with prefixBytes := storePrefix node.prefixBytes mid, plen := type.size }
  else
    let shifted := mapRows (type.size - node.plen)
      (fun rid row => update (copy row row (index + 1) index (node.knum - index)) index
        (byteAt mid (rid + node.plen))) node.features
    let pid := scan (fun pid => node.prefixBytes pid == byteAt mid pid) node.plen
    if (index = 0 ∨ index = node.knum) ∧ pid < node.plen then
      -- prefix reduction
      let moved := copy shifted shifted (node.plen - pid) 0 (type.size - node.plen)
      { node with
        features := mapRows (node.plen - pid)
          (fun rid row => update (fill row (node.prefixBytes (pid + rid)) (node.knum + 1))
            index (byteAt mid (rid + pid))) moved
        plen := pid }
    else { node with features := shifted }

/-- Move the bytes shared by the first and the last of `count` columns to the prefix. -/
def prefixExtension (count : Nat) : InnerNode size type :=
  let pid := scan (fun pid => node.features pid 0 == node.features pid (count - 1))
    (type.size - node.plen)
  { node with
    prefixBytes := fun index =>
      if node.plen ≤ index ∧ index < node.plen + pid then node.features (index - node.plen) 0
      else node.prefixBytes index
    features := copy node.features node.features 0 pid (type.size - node.plen - pid)
    plen := node.plen + pid }

def keyRemove (index : Nat) : Except Fault (InnerNode size type) :=
  if node.knum < 2 ∨ node.knum - 1 ≤ index then .error .check
  else
    let shifted : InnerNode size type := { node with
      features := mapRows (type.size - node.plen)
        (fun _ row => copy row row index (index + 1) (node.knum - index - 1)) node.features }
    if index = 0 then .ok (shifted.prefixExtension (node.knum - 1)) else .ok shifted

def boundExtension : Except Fault (InnerNode size type) :=
  if node.knum < 1 then .error .noSeparator else .ok (node.prefixExtension node.knum)

/-- Undo the prefix compression; `plen_` is left as it was. -/
def memoryExpand : InnerNode size type :=
  let moved := copy node.features node.features node.plen 0 (type.size - node.plen)
  { node with
    features := mapRows node.plen (fun rid row => fill row (node.prefixBytes rid) size.slots) moved
      }

/-- Redo the prefix compression of expanded columns.  The loop reads column `knum_ - 1`:
without separators that is `features_[pid][-1]`, outside the array, and the model stops. -/
def memoryShrink : Except Fault (InnerNode size type) :=
  if node.knum = 0 then .error .noSeparator
  else
    let pid := scan (fun pid => node.features pid 0 == node.features pid (node.knum - 1)) type.size
    .ok { node with
      prefixBytes := fun index =>
        if index ≤ pid ∧ index < type.size then node.features index 0 else node.prefixBytes index
      features := copy node.features node.features 0 pid (type.size - pid)
      plen := pid }

def separator (index : Nat) : Encoded type :=
  ofBytes type.size fun rid =>
    if rid < node.plen then node.prefixBytes rid else node.features (rid - node.plen) index

/-! ## Insertion -/

def newSibling (raw : InnerNode size type) : InnerNode size type :=
  { raw.new with
    next := node.next
    control := if node.control.sibling then Control.setSibling (.new false) else .new false }

def linkTo (address : Ptr) : InnerNode size type :=
  { node with next := address, control := node.control.setSibling }

def lastRight (rnode : InnerNode size type) (lchild rchild : Ptr) (mid : Encoded type) :
    InnerNode size type :=
  { rnode with
    prefixBytes := storePrefix rnode.prefixBytes mid
    plen := type.size
    children := update rnode.children 0 lchild
    next := rchild
    knum := 1 }

def lowRight (rnode node : InnerNode size type) : InnerNode size type :=
  { rnode with
    features := mapRows type.size
      (fun rid row => copy row (node.features rid) 0 size.half size.half) rnode.features
    children := copy rnode.children node.children 0 size.half size.half
    knum := size.half }

def lowLeft (rchild : Ptr) (mid : Encoded type) (index : Nat) : InnerNode size type :=
  { node with
    features := mapRows type.size
      (fun rid row => update (copy row row (index + 1) index (size.half - index)) index
        (byteAt mid rid)) node.features
    children := update
      (moveBackward node.children index (index + 1) (size.half - index)) (index + 1) rchild
    knum := size.half + 1 }

def highRight (rnode node : InnerNode size type) (rchild : Ptr) (mid : Encoded type)
    (index : Nat) : InnerNode size type :=
  { rnode with
    features := mapRows type.size
      (fun rid row =>
        let row := copy row (node.features rid) 0 size.half (index - size.half)
        let row := update row (index - size.half) (byteAt mid rid)
        copy row (node.features rid) (index - size.half + 1) index (size.slots - index))
      rnode.features
    children :=
      let children := copy rnode.children node.children 0 size.half (index - size.half + 1)
      let children := update children (index - size.half + 1) rchild
      copy children node.children (index - size.half + 2) (index + 1) (size.slots - index - 1)
    knum := size.half + 1 }

def highLeft : InnerNode size type := { node with knum := size.half }

/-- Split a full node; `raw` is what the allocator placed at `address`. -/
def split (raw : InnerNode size type) (address lchild rchild : Ptr) (mid : Encoded type)
    (index : Nat) :
    Except Fault (InnerNode size type × InnerNode size type × Encoded type) := do
  let rnode := node.newSibling raw
  let node := node.linkTo address
  if index = size.slots then
    return (node, rnode.lastRight lchild rchild mid, node.separator (size.slots - 1))
  else if index < size.half then
    let node := node.memoryExpand
    let rnode := rnode.lowRight node
    let node ← (node.lowLeft rchild mid index).memoryShrink
    let rnode ← rnode.memoryShrink
    return (node, rnode, node.separator size.half)
  else
    let node := node.memoryExpand
    let rnode := rnode.highRight node rchild mid index
    let node ← node.highLeft.memoryShrink
    let rnode ← rnode.memoryShrink
    return (node, rnode, node.separator (size.half - 1))

def insertInner (rchild : Ptr) (mid : Encoded type) (index : Nat) : InnerNode size type :=
  { node.keyInsert mid index with
    children := update
      (moveBackward node.children (index + 1) (index + 2) (node.knum - index - 1)) (index + 1)
      rchild
    knum := node.knum + 1 }

def insertLast (lchild rchild : Ptr) (mid : Encoded type) (index : Nat) : InnerNode size type:=
  { node.keyInsert mid index with
    children := update node.children index lchild
    next := rchild
    knum := node.knum + 1 }

def insert (raw : InnerNode size type) (address lchild rchild : Ptr) (mid : Encoded type)
    (index : Nat) :
    Except Fault (InnerNode size type × Option (InnerNode size type) × Encoded type) :=
  let node := node.updateVersion
  if node.knum < index then .error .check
  else if node.knum < size.slots then
    if index ≠ node.knum then .ok (node.insertInner rchild mid index, none, mid)
    else .ok (node.insertLast lchild rchild mid index, none, mid)
  else (node.split raw address lchild rchild mid index).map fun result =>
    (result.1, some result.2.1, result.2.2)

/-! ## Removal

`this` is the address of the node and `right` the node that `next_` leads to
when the node has a sibling. -/

/-- Copy the columns of the right node behind the first `pos` ones and
`count` of its children, from `src` on, behind the own ones. -/
def absorb (right : InnerNode size type) (pos src count knum : Nat) : InnerNode size type :=
  { node.memoryExpand with
    features := mapRows type.size
      (fun rid row => copy row (right.memoryExpand.features rid) pos 0 right.knum)
      node.memoryExpand.features
    children := copy node.children right.children node.knum src count
    knum := knum }

def inherit (right : InnerNode size type) (next : Ptr) : InnerNode size type :=
  { node with
    next := next
    control := if right.control.sibling then node.control else node.control.clearSibling }

/-- The right node after it was absorbed by the node at `this`. -/
def discard (right : InnerNode size type) (this : Ptr) : InnerNode size type :=
  { right.memoryExpand with knum := 0, next := this, control := right.control.setDelete }

def merge (right : InnerNode size type) (this : Ptr) (mid : Encoded type) :
    Except Fault (Removed (InnerNode size type) (Encoded type)) :=
  if node.control.sibling then
    if node.knum < 1 then .error .check
    else if node.knum + right.knum ≤ size.half ∨ right.knum = 0 then
      (node.absorb right node.knum 0 right.knum (node.knum + right.knum)).memoryShrink.map
        fun merged => ⟨merged.inherit right right.next, (right.discard this).updateVersion, true,
          false, node.separator (node.knum - 1)⟩
    else .ok ⟨node, right, false, false, mid⟩
  else .ok ⟨node, right, false, false, mid⟩

def removeLast (index : Nat) : Except Fault (InnerNode size type) :=
  let node : InnerNode size type :=
    { node with next := node.children index, knum := node.knum - 1 }
  if node.knum = 0 then .ok { node with plen := 0 } else node.boundExtension

def boundMerge (right : InnerNode size type) (this : Ptr) (mid : Encoded type) (index : Nat) :
    Except Fault (Removed (InnerNode size type) (Encoded type)) :=
  (node.absorb right index 1 (right.knum - 1) (node.knum + right.knum - 1)).memoryShrink.map
    fun merged =>
      ⟨merged.inherit right (if right.knum ≠ 0 then right.next else merged.children index),
      right.discard this, true, false, mid⟩

def handOver (right : InnerNode size type) (index : Nat) :
    Except Fault (Removed (InnerNode size type) (Encoded type)) :=
  let kept : InnerNode size type := { node with knum := node.knum - 1 }
  kept.boundExtension.map fun node' =>
    ⟨node', { right with children := update right.children 0 (node.children index) },
      false, true, node.separator (index - 1)⟩

def boundRemove (right : InnerNode size type) (this : Ptr) (mid : Encoded type)
    (index : Nat) : Except Fault (Removed (InnerNode size type) (Encoded type)) :=
  if node.control.sibling then
    let right := right.updateVersion
    if index + right.knum ≤ size.half ∨ index = 0 ∨ right.knum = 0 ∨ right.knum = 1 then
      node.boundMerge right this mid index
    else node.handOver right index
  else (node.removeLast index).map fun node => ⟨node, right, false, false, mid⟩

def removeInner (index : Nat) : Except Fault (InnerNode size type) :=
  (node.keyRemove index).map fun removed =>
    { removed with
      children := moveForward node.children (index + 2) (index + 1) (node.knum - index - 2)
      knum := node.knum - 1 }

/-- `remove` after the update of the version. -/
def removeAt (right : InnerNode size type) (this : Ptr) (mid : Encoded type) (index : Nat) :
    Except Fault (Removed (InnerNode size type) (Encoded type)) :=
  if node.knum ≤ index then .error .check
  else if index < node.knum - 1 then do
    let removed ← node.removeInner index
    removed.merge right this mid
  else node.boundRemove right this mid index

def remove (right : InnerNode size type) (this : Ptr) (mid : Encoded type) (index : Nat) :
    Except Fault (Removed (InnerNode size type) (Encoded type)) :=
  node.updateVersion.removeAt right this mid index

def anchorUpdate (mid : Encoded type) (index : Nat) : Except Fault (InnerNode size type × Bool) :=
  if node.knum ≤ index then .error .check
  else do
    let node := node.updateVersion
    let node := node.memoryExpand
    let node : InnerNode size type := { node with
      features := mapRows type.size (fun rid row => update row index (byteAt mid rid))
        node.features }
    let node ← node.memoryShrink
    return (node, node.control.sibling && node.knum - 1 == index)

def rootRemove : InnerNode size type × Option Ptr :=
  if node.knum = 0 then ({ node with control := node.control.setDelete }, some node.next)
  else (node, none)

end InnerNode

end IndexResearch.FBTree
