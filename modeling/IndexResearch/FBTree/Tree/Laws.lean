import IndexResearch.FBTree.Tree
import IndexResearch.Loop

/-!
# What the tree needs of its inner nodes

The laws that tie the operations of a memory layout of inner nodes to the list reading
of nodes.  The tree is verified from these laws alone, for integer and for string keys
at once.
-/

namespace IndexResearch.FBTree

structure NodeReading (K H Mid Inner : Type) where
  view : Inner → NodeView H
  WellFormed : Inner → Prop
  decode : Mid → H
  /-- The keys that the layout can tell apart. -/
  Valid : K → Prop

namespace NodeReading

variable {K H Mid Inner : Type} (reading : NodeReading K H Mid Inner)

abbrev Inserted := NodeView.Inserted reading.WellFormed reading.view reading.decode

abbrev Matches := NodeView.Matches reading.WellFormed reading.view reading.decode

structure Neighbours [LinearOrder K] (keyOf : H → K) (node right : Inner) : Prop where
  wellFormed : reading.WellFormed right
  ascending : Ascending keyOf ((reading.view node).seps ++ (reading.view right).seps)
  nonempty : (reading.view right).link ≠ none → (reading.view right).seps ≠ []

end NodeReading

structure NodeOps.Laws {K H Mid Inner : Type} [LinearOrder K] (ops : NodeOps K H Mid Inner)
    (size : NodeSize) extends NodeReading K H Mid Inner where
  decode_midOf : ∀ high, decode (ops.midOf high) = high
  highKey_makeHigh : ∀ address key, ops.highKey (ops.makeHigh address key) = key
  link_eq : ∀ node, (view node).link =
    if (ops.control node).sibling then some (ops.next node) else none
  new_spec : ∀ raw, WellFormed (ops.new raw) ∧ (ops.control (ops.new raw)).deleted = false ∧
    view (ops.new raw) = ⟨[], [nullptr], none⟩
  toNext_spec : ∀ node key, WellFormed node → (ops.control node).deleted = false → Valid key →
    ops.toNext node key = .ok ((view node).toNext ops.highKey key)
  indexOrSibling_spec : ∀ node mid, WellFormed node → (ops.control node).deleted = false →
    ((view node).link ≠ none → (view node).seps ≠ []) → Valid (ops.highKey (decode mid)) →
    ops.indexOrSibling node mid =
      .ok ((view node).indexOrSibling ops.highKey (ops.highKey (decode mid)))
  insert_spec : ∀ node raw address lchild rchild mid, WellFormed node →
    Valid (ops.highKey (decode mid)) →
    (∀ sep ∈ (view node).seps, ops.highKey sep ≠ ops.highKey (decode mid)) →
    (rankIn ops.highKey (view node).seps (ops.highKey (decode mid)) = (view node).seps.length →
      (view node).link = none) →
    ∃ result, ops.insert node raw address lchild rchild mid
        (rankIn ops.highKey (view node).seps (ops.highKey (decode mid))) = .ok result ∧
      toNodeReading.Inserted ops.control size node address lchild rchild mid
        (rankIn ops.highKey (view node).seps (ops.highKey (decode mid))) result
  remove_spec : ∀ node right this mid index, WellFormed node → index < (view node).seps.length →
    ((view node).link ≠ none → toNodeReading.Neighbours ops.highKey node right) →
    Follows .noSeparator
      (fun removed removal => toNodeReading.Matches ops.control node right removal removed)
      (ops.remove node right this mid index)
      ((view node).remove size (if (view node).link.isSome then some (view right) else none)
        (decode mid) index)
  anchorUpdate_spec : ∀ node mid index, WellFormed node → index < (view node).seps.length →
    Valid (ops.highKey (decode mid)) →
    Ascending ops.highKey ((view node).seps.set index (decode mid)) →
    ∃ updated up, ops.anchorUpdate node mid index = .ok (updated, up) ∧ WellFormed updated ∧
      (ops.control updated).deleted = (ops.control node).deleted ∧
      (view updated, up) = (view node).anchorUpdate (decode mid) index
  /-- A node without separators and without sibling has one child. -/
  rootRemove_spec : ∀ node, WellFormed node → (view node).link = none →
    if (view node).seps = [] then
      (view node).kids = [ops.next node] ∧ (ops.rootRemove node).2 = some (ops.next node) ∧
      (ops.control (ops.rootRemove node).1).deleted = true
    else (ops.rootRemove node).2 = none

end IndexResearch.FBTree
