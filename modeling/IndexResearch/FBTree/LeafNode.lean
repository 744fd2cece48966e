import IndexResearch.FBTree.Config

/-!
# Leaf nodes

`LeafNode<K, V>` and `LeafNode<String, V>` of `lnode.h`.  A leaf keeps its pairs in
no particular order in the slots that `bitmap_` marks; a tag, one byte of the hash
of the key, guards every slot.  The two templates share their code up to the type of
the high key and the split tokens, which are the fields of `KeyOps`.  The functions
are run by one thread: latches are free and an exchange is a load and a store.
-/

namespace IndexResearch.FBTree

structure KVPair (K V : Type) where
  address : Ptr
  key : K
  value : V
  deriving DecidableEq

structure KeyOps (K H : Type) where
  hash : K → Byte
  /-- The high key of a new leaf. -/
  noHigh : H
  /-- The high key made of a key; a string is copied to the given address. -/
  makeHigh : Ptr → K → H
  /-- The key that a high key stands for. -/
  highKey : H → K
  /-- String leaves announce a split with a token and compare the high key only
  when a token is out or the parent has changed. -/
  announces : Bool

structure LeafNode (size : NodeSize) (K H V : Type) where
  control : Control
  bitmap : Bitmap
  highKey : H
  /-- The right sibling, or the left node after a merge. -/
  sibling : Ptr
  tags : Nat → Byte
  kvs : Nat → Option (KVPair K V)

namespace LeafNode

variable {size : NodeSize} {K H V : Type}

def halfFill : NodeSize → Bitmap
  | .size64 => 0xFFFFFFFF#64
  | .size32 => 0xFFFF#64
  | .size16 => 0xFF#64

/-- What `index_least0` returns for a full leaf. -/
def fullIdx : NodeSize → Option Nat
  | .size64 => none
  | .size32 => some 32
  | .size16 => some 16

/-- The mask of the first `count` slots. -/
def bitmapOf (size : NodeSize) (count : Nat) : Bitmap :=
  if size = .size64 ∧ count = size.slots then 0#64 - 1#64 else (1#64 <<< count) - 1#64

/-- The constructor, run on memory that holds `raw`. -/
def new (ops : KeyOps K H) (raw : LeafNode size K H V) : LeafNode size K H V :=
  { raw with control := .new true, bitmap := 0#64, highKey := ops.noHigh, sibling := nullptr }

variable (leaf : LeafNode size K H V)

/-- `sibling()`. -/
def siblingPtr : Ptr :=
  if leaf.control.sibling then leaf.sibling
  else if leaf.control.deleted then leaf.sibling
  else nullptr

def hop : Except Fault (Option Ptr) :=
  if leaf.sibling = nullptr then .error .check else .ok (some leaf.sibling)

/-- `kvs_[index]` with the bounds of the array. -/
def load (index : Nat) : Except Fault (Option (KVPair K V)) :=
  if index < size.slots then .ok (leaf.kvs index) else .error .noSlot

/-- The order `less` of the calls of `std::sort`. -/
def keyLe [LinearOrder K] (left right : KVPair K V × Nat) : Prop := left.1.key ≤ right.1.key

instance [LinearOrder K] : DecidableRel (keyLe (K := K) (V := V)) :=
  fun left right => inferInstanceAs (Decidable (left.1.key ≤ right.1.key))

variable [LinearOrder K] (ops : KeyOps K H)

variable (leaf : LeafNode size K H V)

/-- The node to move to, if any; `changed` tells that the version of the parent is
no longer the one read during the descent. -/
def toSibling (key : K) (changed : Bool) : Except Fault (Option Ptr) :=
  if leaf.control.deleted then leaf.hop
  else if (!ops.announces || leaf.control.splitting != 0 || changed) && leaf.control.sibling &&
      decide (ops.highKey leaf.highKey < key) then leaf.hop
  else .ok none

/-- The slots whose tags are those of the key, in the order in which the loops
visit them. -/
def candidates (key : K) : List Nat :=
  Bitmap.slots (leaf.bitmap &&& compareEqual size leaf.tags (ops.hash key))

def search (leaf : LeafNode size K H V) (key : K) : List Nat → Option (Nat × KVPair K V)
  | [] => none
  | index :: rest =>
    match leaf.kvs index with
    | some kv => if key = kv.key then some (index, kv) else leaf.search key rest
    | none => leaf.search key rest

def searchLatched (leaf : LeafNode size K H V) (key : K) :
    List Nat → Except Fault (Option (Nat × KVPair K V))
  | [] => .ok none
  | index :: rest =>
    match leaf.kvs index with
    | some kv => if key = kv.key then .ok (some (index, kv)) else leaf.searchLatched key rest
    | none => .error .wildPointer

def lookup (key : K) : Option (KVPair K V) :=
  (leaf.search key (leaf.candidates ops key)).map Prod.snd

/-- `kvs_[index].exchange(kv)`. -/
def exchange (index : Nat) (kv : KVPair K V) : LeafNode size K H V :=
  { leaf with kvs := Function.update leaf.kvs index (some kv) }

def update (kv : KVPair K V) : Option (KVPair K V) × LeafNode size K H V :=
  match leaf.search kv.key (leaf.candidates ops kv.key) with
  | some (index, old) => (some old, leaf.exchange index kv)
  | none => (none, leaf)

/-! ## Insertion -/

def loadAll (leaf : LeafNode size K H V) : List Nat → Except Fault (List (KVPair K V × Nat))
  | [] => .ok []
  | index :: rest =>
    match leaf.kvs index with
    | some kv => (leaf.loadAll rest).map ((kv, index) :: ·)
    | none => .error .wildPointer

def store (kv : KVPair K V) (index : Nat) : Except Fault (LeafNode size K H V) :=
  if leaf.bitmap.getLsbD index then .error .check
  else .ok { leaf with
    kvs := Function.update leaf.kvs index (some kv)
    tags := Function.update leaf.tags index (ops.hash kv.key)
    bitmap := leaf.bitmap ||| Bitmap.single index }

/-- What an upsert returns: the pair replaced, the leaf, and the new right leaf
when the leaf was split. -/
structure Upserted (size : NodeSize) (K H V : Type) where
  old : Option (KVPair K V)
  leaf : LeafNode size K H V
  rnode : Option (LeafNode size K H V)

def movedMask (moved : List (KVPair K V × Nat)) : Bitmap :=
  moved.foldl (fun mask entry => mask ||| Bitmap.single entry.2) 0#64

def splitLeft (moved : List (KVPair K V × Nat)) (address : Ptr) (high : H) : LeafNode size K H V:=
  { leaf with
    kvs := fun index => if index ∈ moved.map Prod.snd then none else leaf.kvs index
    bitmap := leaf.bitmap &&& ~~~movedMask moved
    sibling := address
    highKey := high
    control := leaf.control.setSibling }

def splitRight (raw : LeafNode size K H V) (moved : List (KVPair K V × Nat)) :
    LeafNode size K H V :=
  let rnode := new ops raw
  { rnode with
    tags := fun index => match moved[index]? with
      | some entry => leaf.tags entry.2
      | none => rnode.tags index
    kvs := fun index => match moved[index]? with
      | some entry => leaf.kvs entry.2
      | none => rnode.kvs index
    bitmap := halfFill size
    sibling := leaf.sibling
    highKey := leaf.highKey
    control := if leaf.control.sibling then rnode.control.setSibling else rnode.control }

/-- `begin_splitting`, in string leaves. -/
def announce : LeafNode size K H V :=
  { leaf with control := if ops.announces then leaf.control.beginSplitting else leaf.control }

def extend (raw : LeafNode size K H V) (address : Ptr) (high : H) (kv : KVPair K V) :
    Except Fault (LeafNode size K H V × LeafNode size K H V) :=
  ((new ops raw).store ops kv 0).map fun rnode =>
    ({ leaf with sibling := address, highKey := high, control := leaf.control.setSibling }, rnode)

/-- Move the right half of the sorted pairs out and insert the new one; `lid` is the slot
that was emptied last. -/
def divide (raw : LeafNode size K H V) (keys : List (KVPair K V × Nat)) (address : Ptr)
    (middle : K) (high : H) (lid : Nat) (kv : KVPair K V) :
    Except Fault (LeafNode size K H V × LeafNode size K H V) :=
  let moved := keys.drop size.half
  let rnode := leaf.splitRight ops raw moved
  let left := leaf.splitLeft moved address high
  if Bitmap.popcount (movedMask moved) ≠ size.half ∨ Bitmap.popcount left.bitmap ≠ size.half then
    .error .check
  else if middle < kv.key then (rnode.store ops kv size.half).map fun rnode => (left, rnode)
  else (left.store ops kv lid).map fun left => (left, rnode)

/-- Insertion into a full leaf; `raw` is what the allocator placed at `address` and
`copy` where a copy of the high key goes. -/
def split (raw : LeafNode size K H V) (address copy : Ptr) (kv : KVPair K V) :
    Except Fault (LeafNode size K H V × LeafNode size K H V) := do
  let loaded ← leaf.loadAll (List.range size.slots)
  let keys := loaded.insertionSort keyLe
  match keys.getLast?, keys[size.half - 1]? with
  | some last, some middle =>
    if leaf.control.sibling = false ∧ last.1.key < kv.key then
      (leaf.announce ops).extend ops raw address (ops.makeHigh copy last.1.key) kv
    else
      (leaf.announce ops).divide ops raw keys address middle.1.key
        (ops.makeHigh copy middle.1.key) last.2 kv
  | _, _ => .error .noSlot

def upsert (raw : LeafNode size K H V) (address copy : Ptr) (kv : KVPair K V) :
    Except Fault (Upserted size K H V) := do
  match ← leaf.searchLatched kv.key (leaf.candidates ops kv.key) with
  | some (index, old) =>
    return ⟨some old, leaf.exchange index kv, none⟩
  | none =>
    let leaf : LeafNode size K H V :=
      { leaf with control := leaf.control.updateVersion.clearOrder }
    if Bitmap.indexLeast0 leaf.bitmap = fullIdx size then
      let (left, right) ← leaf.split ops raw address copy kv
      return ⟨none, left, some right⟩
    else
      match Bitmap.indexLeast0 leaf.bitmap with
      | some index => return ⟨none, ← leaf.store ops kv index, none⟩
      | none => .error .noSlot

/-! ## Removal -/

/-- What a removal returns: the pair removed, the leaf, its right sibling, and the
old high key when the sibling was absorbed. -/
structure Detached (size : NodeSize) (K H V : Type) where
  kv : Option (KVPair K V)
  leaf : LeafNode size K H V
  right : LeafNode size K H V
  merged : Option H

def moveIn : List Nat → LeafNode size K H V → LeafNode size K H V →
    Except Fault (LeafNode size K H V × LeafNode size K H V)
  | [], leaf, right => .ok (leaf, right)
  | ridx :: rest, leaf, right =>
    match Bitmap.indexLeast0 leaf.bitmap with
    | some lidx =>
      if lidx < size.slots then
        moveIn rest
          { leaf with
            tags := Function.update leaf.tags lidx (right.tags ridx)
            kvs := Function.update leaf.kvs lidx (right.kvs ridx)
            bitmap := leaf.bitmap ||| Bitmap.single lidx }
          { right with kvs := Function.update right.kvs ridx none }
      else .error .noSlot
    | none => .error .noSlot

/-- `merge`; `this` is the address of the leaf and `right` the leaf that `sibling_`
leads to when the leaf has a sibling. -/
def merge (right : LeafNode size K H V) (this : Ptr) :
    Except Fault (LeafNode size K H V × LeafNode size K H V × Option H) :=
  if leaf.control.sibling then
    let lnkey := Bitmap.popcount leaf.bitmap
    let rnkey := Bitmap.popcount right.bitmap
    if lnkey + rnkey ≤ size.half ∨ lnkey = 0 then
      (moveIn right.bitmap.slots leaf right).map fun (left, rest) =>
        ({ left with
            highKey := right.highKey
            sibling := right.sibling
            control := if right.control.sibling then left.control else left.control.clearSibling },
          { rest with
            bitmap := 0#64
            sibling := this
            control := rest.control.setDelete.updateVersion },
          some leaf.highKey)
    else .ok (leaf, right, none)
  else .ok (leaf, right, none)

def remove (right : LeafNode size K H V) (this : Ptr) (key : K) :
    Except Fault (Detached size K H V) := do
  match ← leaf.searchLatched key (leaf.candidates ops key) with
  | some (index, kv) =>
    let leaf : LeafNode size K H V := { leaf with
      control := leaf.control.updateVersion
      bitmap := leaf.bitmap &&& ~~~Bitmap.single index
      kvs := Function.update leaf.kvs index none }
    let (left, right, merged) ← leaf.merge right this
    return ⟨some kv, { left with control := left.control.clearOrder }, right, merged⟩
  | none => return ⟨none, leaf, right, none⟩

/-! ## Ordered access -/

/-- `kv_sort`; the bytes behind the last tag come from an array on the stack that
holds `raw`. -/
def kvSort (raw : Nat → Byte) : Except Fault (LeafNode size K H V) :=
  if leaf.control.ordered then .ok leaf
  else (leaf.loadAll leaf.bitmap.slots).map fun loaded =>
    let keys := loaded.insertionSort keyLe
    { leaf with
      tags := fun index => match keys[index]? with
        | some entry => leaf.tags entry.2
        | none => raw index
      kvs := fun index => match keys[index]? with
        | some entry => some entry.1
        | none => if leaf.bitmap.getLsbD index then none else leaf.kvs index
      bitmap := bitmapOf size keys.length
      control := leaf.control.setOrder.updateVersion }

/-- The keys of the first `count` slots, unless one of them is null. -/
def firstKeys (count : Nat) : Option (List K) :=
  (List.range count).mapM fun index => (leaf.kvs index).map KVPair.key

/-- `bound`.  For `upper`, the result of the comparison of `idx + 1` with the number
of pairs is not used. -/
def bound (key : K) (upper : Bool) : Except Fault (Option (KVPair K V) × Nat) :=
  let nkey := Bitmap.popcount leaf.bitmap
  match leaf.search key (leaf.candidates ops key) with
  | some (index, kv) =>
    if upper then (leaf.load (index + 1)).map fun next => (next, index + 1)
    else .ok (some kv, index)
  | none =>
    match leaf.firstKeys nkey with
    | none => .ok (none, 0)
    | some keys =>
      let kid := (keys.takeWhile fun other => !decide (key < other)).length
      if nkey ≤ kid then .ok (none, 0) else .ok (leaf.kvs kid, kid)

/-- The slots that `search` loads. -/
def searchReads (leaf : LeafNode size K H V) (key : K) : List Nat → List Nat
  | [] => []
  | index :: rest =>
    index :: match leaf.kvs index with
      | some kv => if key = kv.key then [] else leaf.searchReads key rest
      | none => leaf.searchReads key rest

/-- The slots that the loop of `bound` over the first `count` slots loads: it stops at a
null slot. -/
def firstReads (leaf : LeafNode size K H V) : List Nat → List Nat
  | [] => []
  | index :: rest => index :: if (leaf.kvs index).isSome then leaf.firstReads rest else []

/-- The slots that `bound` loads. -/
def boundReads (key : K) (upper : Bool) : List Nat :=
  let nkey := Bitmap.popcount leaf.bitmap
  leaf.searchReads key (leaf.candidates ops key) ++
    match leaf.search key (leaf.candidates ops key) with
    | some (index, _) => if upper then [index + 1] else []
    | none => leaf.firstReads (List.range nkey) ++
        match leaf.firstKeys nkey with
        | none => []
        | some keys =>
          let kid := (keys.takeWhile fun other => !decide (key < other)).length
          if nkey ≤ kid then [] else [kid]

/-- `access(pos)`. -/
def slotAt (pos : Nat) : Option (KVPair K V) :=
  if size.slots ≤ pos then none
  else if leaf.bitmap.getLsbD pos then leaf.kvs pos
  else none

/-- `access(kv, pos, version)`: the next pair, its position and the version, and the
leaf, which may have been sorted. -/
def access (raw : Nat → Byte) (kv : Option (KVPair K V)) (pos : Nat) (version : Nat) :
    Except Fault ((Option (KVPair K V) × Nat × Nat) × LeafNode size K H V) :=
  if leaf.control.ordered ∧ leaf.control.version = version then
    .ok ((leaf.slotAt pos, pos, version), leaf)
  else do
    let leaf ← leaf.kvSort raw
    match kv with
    | some kv =>
      let (next, pos) ← leaf.bound ops kv.key true
      return ((next, pos, leaf.control.version), leaf)
    | none => return ((leaf.slotAt pos, pos, leaf.control.version), leaf)

end LeafNode

end IndexResearch.FBTree
