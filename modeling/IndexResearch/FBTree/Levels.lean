import IndexResearch.Chain
import IndexResearch.FBTree.LeafView
import IndexResearch.FBTree.NodeView

/-!
# The tree as levels of lists

What the tree means, independently of the memory its nodes live in: the chain of its
leaves and, from bottom to top, the chains of its inner nodes.  On every level the
separators, read along the chain, are the high keys of the level below, and the
children are its nodes.  The root is the only node of the last level.

An operation works on the node of every level that a key leads to; `none` as the
result of a removal stands for the reading of a separator that is not there.
-/

namespace IndexResearch.FBTree

structure LevelNode (H : Type) where
  id : Ptr
  view : NodeView H

structure LeafCell (K H V : Type) where
  id : Ptr
  view : LeafView K H V

abbrev Level (H : Type) := List (LevelNode H)

abbrev Leaves (K H V : Type) := List (LeafCell K H V)

variable {K H V : Type}

namespace LevelNode

def high (node : LevelNode H) : Option H :=
  if node.view.link.isSome then node.view.seps.getLast? else none

end LevelNode

namespace Level

def ids (level : Level H) : List Ptr := level.map LevelNode.id
def bounds (level : Level H) : List H := level.filterMap LevelNode.high
def seps (level : Level H) : List H := level.flatMap fun node => node.view.seps
def kids (level : Level H) : List Ptr := level.flatMap fun node => node.view.kids

end Level

def stopsAt [LinearOrder K] (keyOf : H → K) (key : K) : Option H → Bool
  | none => true
  | some high => !decide (keyOf high < key)

structure Levels (K H V : Type) where
  leaves : Leaves K H V
  inner : List (Level H)
  /-- The next address that is handed out. -/
  fresh : Ptr

namespace Levels

/-- The tree that `FBTree()` makes. -/
def empty : Levels K H V := ⟨[⟨1, [], none, none⟩], [], 2⟩

variable [LinearOrder K]

def leafOf (keyOf : H → K) (levels : Levels K H V) (key : K) :
    Option (Leaves K H V × LeafCell K H V × Leaves K H V) :=
  focus (fun leaf => stopsAt keyOf key leaf.view.high) levels.leaves

def nodeOf (keyOf : H → K) (level : Level H) (key : K) : Option (Level H × LevelNode H × Level H) :=
  focus (fun node => stopsAt keyOf key node.high) level

def lookup (keyOf : H → K) (levels : Levels K H V) (key : K) : Option (KVPair K V) :=
  (levels.leafOf keyOf key).bind fun found => findKey KVPair.key found.2.1.view.entries key

def update (keyOf : H → K) (levels : Levels K H V) (kv : KVPair K V) :
    Option (KVPair K V) × Levels K H V :=
  match levels.leafOf keyOf kv.key with
  | some (before, leaf, after) =>
    let view := { leaf.view with entries := replace KVPair.key leaf.view.entries kv }
    (findKey KVPair.key leaf.view.entries kv.key,
      { levels with leaves := before ++ ⟨leaf.id, view⟩ :: after })
  | none => (none, levels)

/-- Insert the separator `mid` of the split node `left` and its new right sibling `right`
into the levels above them, which takes addresses from `fresh` on. -/
def climb (keyOf : H → K) (size : NodeSize) : List (Level H) → Ptr → (left right : Ptr) → H →
    List (Level H) × Ptr
  | [], fresh, left, right, mid => ([[⟨fresh, [mid], [left, right], none⟩]], fresh + 1)
  | level :: above, fresh, left, right, mid =>
    match nodeOf keyOf level (keyOf mid) with
    | none => (level :: above, fresh)
    | some (before, node, after) =>
      let index := rankIn keyOf node.view.seps (keyOf mid)
      match node.view.insert size fresh left right mid index with
      | (view, none) => ((before ++ ⟨node.id, view⟩ :: after) :: above, fresh)
      | (view, some (rightView, mid)) =>
        let (above, last) := climb keyOf size above (fresh + 1) node.id fresh mid
        ((before ++ ⟨node.id, view⟩ :: ⟨fresh, rightView⟩ :: after) :: above, last)

def upsert (ops : KeyOps K H) (leafSize innerSize : NodeSize) (levels : Levels K H V)
    (kv : KVPair K V) : Option (KVPair K V) × Levels K H V :=
  match levels.leafOf ops.highKey kv.key with
  | none => (none, levels)
  | some (before, leaf, after) =>
    match leaf.view.upsert leafSize ops levels.fresh (levels.fresh + 1) kv with
    | (old, view, none) =>
      (old, { levels with leaves := before ++ ⟨leaf.id, view⟩ :: after })
    | (old, view, some right) =>
      match view.high with
      | none => (old, levels)
      | some mid =>
        let (inner, fresh) := climb ops.highKey innerSize levels.inner (levels.fresh + 2)
          leaf.id levels.fresh mid
        (old, ⟨before ++ ⟨leaf.id, view⟩ :: ⟨levels.fresh, right⟩ :: after, inner, fresh⟩)

/-- Exchange the separator above a node whose last separator became `mid`. -/
def rename (keyOf : H → K) : List (Level H) → H → List (Level H)
  | [], _ => []
  | level :: above, mid =>
    match nodeOf keyOf level (keyOf mid) with
    | none => level :: above
    | some (before, node, after) =>
      let index := rankIn keyOf node.view.seps (keyOf mid)
      let (view, up) := node.view.anchorUpdate mid index
      (before ++ ⟨node.id, view⟩ :: after) :: if up then rename keyOf above mid else above

def rightOf : Level H → Option (NodeView H) → Level H
  | [], _ => []
  | next :: rest, some view => ⟨next.id, view⟩ :: rest
  | _ :: rest, none => rest

/-- Remove the separator `mid` and the child right of it from the levels above. -/
def settle (keyOf : H → K) (size : NodeSize) : List (Level H) → H → Option (List (Level H))
  | [], _ => some []
  | level :: above, mid =>
    match nodeOf keyOf level (keyOf mid) with
    | none => some (level :: above)
    | some (before, node, after) =>
      let index := rankIn keyOf node.view.seps (keyOf mid)
      (node.view.remove size (after.head?.map LevelNode.view) mid index).bind fun removal =>
        let level := before ++ ⟨node.id, removal.node⟩ :: rightOf after removal.right
        if above.isEmpty then some (if removal.node.seps.isEmpty then [] else [level])
        else
          match removal.ascent with
          | .done => some (level :: above)
          | .merged mid => (settle keyOf size above mid).map (level :: ·)
          | .renamed mid => some (level :: rename keyOf above mid)

def remove (keyOf : H → K) (leafSize innerSize : NodeSize) (levels : Levels K H V) (key : K) :
    Option (Option (KVPair K V) × Levels K H V) :=
  match levels.leafOf keyOf key with
  | none => some (none, levels)
  | some (before, leaf, after) =>
    match leaf.view.remove leafSize (after.head?.map LeafCell.view) key with
    | (kv, view, none) =>
      some (kv, { levels with leaves := before ++ ⟨leaf.id, view⟩ :: after })
    | (kv, view, some mid) =>
      (settle keyOf innerSize levels.inner mid).map fun inner =>
        (kv, { levels with leaves := before ++ ⟨leaf.id, view⟩ :: after.tail, inner := inner })

end Levels

end IndexResearch.FBTree
