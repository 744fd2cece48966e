import IndexResearch.FBTree.LeafNode
import IndexResearch.SortedList

/-!
# Leaves as sorted lists

What a leaf means, independently of the slots its pairs are in: its pairs in the
order of their keys, its high key and its right sibling.  The rightmost leaf has
neither of the latter.  The operations are the list readings of those of `lnode.h`.
-/

namespace IndexResearch.FBTree

structure LeafView (K H V : Type) where
  entries : List (KVPair K V)
  /-- The upper bound of the keys, when there is a right sibling. -/
  high : Option H
  link : Option Ptr

namespace LeafView

variable {K H V : Type} [LinearOrder K] (size : NodeSize)

/-- Insertion into a full leaf.  `address` is where the new leaf is placed and `copy`
where a copy of its high key goes. -/
def split (ops : KeyOps K H) (view : LeafView K H V) (address copy : Ptr) (kv : KVPair K V) :
    LeafView K H V × Option (LeafView K H V) :=
  match view.entries.getLast?, view.entries[size.half - 1]? with
  | some last, some middle =>
    if view.link = none ∧ last.key < kv.key then
      (⟨view.entries, some (ops.makeHigh copy last.key), some address⟩, some ⟨[kv], none, none⟩)
    else
      let left := view.entries.take size.half
      let right := view.entries.drop size.half
      let high := some (ops.makeHigh copy middle.key)
      if middle.key < kv.key then
        (⟨left, high, some address⟩, some ⟨place KVPair.key right kv, view.high, view.link⟩)
      else (⟨place KVPair.key left kv, high, some address⟩, some ⟨right, view.high, view.link⟩)
  | _, _ => (view, none)

def upsert (ops : KeyOps K H) (view : LeafView K H V) (address copy : Ptr) (kv : KVPair K V) :
    Option (KVPair K V) × LeafView K H V × Option (LeafView K H V) :=
  match findKey KVPair.key view.entries kv.key with
  | some old => (some old, { view with entries := replace KVPair.key view.entries kv }, none)
  | none =>
    if view.entries.length < size.slots then
      (none, { view with entries := place KVPair.key view.entries kv }, none)
    else (none, view.split size ops address copy kv)

/-- The pair removed, the leaf, and the old high key when the right sibling was
absorbed. -/
def remove (view : LeafView K H V) (right : Option (LeafView K H V)) (key : K) :
    Option (KVPair K V) × LeafView K H V × Option H :=
  match findKey KVPair.key view.entries key with
  | none => (none, view, none)
  | some kv =>
    let entries := eraseKey KVPair.key view.entries key
    match right with
    | none => (some kv, { view with entries := entries }, none)
    | some right =>
      if entries.length + right.entries.length ≤ size.half ∨ entries.length = 0 then
        (some kv, ⟨entries ++ right.entries, right.high, right.link⟩, view.high)
      else (some kv, { view with entries := entries }, none)

end LeafView

end IndexResearch.FBTree
