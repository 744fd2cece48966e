import IndexResearch.FBTree.LeafNode.Ordered

/-!
# What an iterator reads in a leaf

An iterator enters a leaf by sorting it.  In a sorted leaf a position leads to the pair of
that rank, and `bound` splits the pairs at the key.
-/

namespace IndexResearch.FBTree.LeafNode

open List

variable {size : NodeSize} {K H V : Type} [LinearOrder K] {ops : KeyOps K H}
  {leaf : LeafNode size K H V} {entries : List (KVPair K V)} {view : LeafView K H V} {key : K}
  {upper : Bool}

omit [LinearOrder K] in
theorem map_kvs_eq (slots : List Nat) (filled : ∀ slot ∈ slots, ∃ kv, leaf.kvs slot = some kv) :
    slots.map leaf.kvs = (slots.filterMap leaf.kvs).map some := by
  induction slots with
  | nil => rfl
  | cons slot rest ih =>
    obtain ⟨⟨kv, loaded⟩, filledThere⟩ := forall_mem_cons.mp filled
    rw [map_cons, filterMap_cons_some loaded, map_cons, loaded,
      ih filledThere]

theorem Holds.inOrder (holds : Holds ops leaf entries) (isOrdered : leaf.control.ordered = true)
    (bounded : entries.length ≤ size.slots) : InOrder ops leaf entries := by
  obtain ⟨slots, contents⟩ := holds.ordered isOrdered
  have marked : ∀ slot, leaf.bitmap.getLsbD slot = true ↔ slot < entries.length := by
    intro slot
    rw [← Bitmap.mem_slots, slots, mem_range]
  have loads := leaf.map_kvs_eq leaf.bitmap.slots fun slot listed =>
    (holds.keeps.filled slot (Bitmap.mem_slots.mp listed)).imp fun _ spec => spec.1
  refine ⟨?_, bounded, ?_, holds.ascending⟩
  · apply BitVec.eq_of_getLsbD_eq
    intro slot _
    rw [Bool.eq_iff_iff, marked, ← Bitmap.mem_slots, slots_bitmapOf bounded, mem_range]
  · intro index kv found
    have inside := (List.getElem?_eq_some_iff.mp found).1
    have loaded : leaf.kvs index = some kv := by
      rw [← LeafNode.contents, contents, slots] at loads
      have here := congrArg (fun items => items[index]?) loads
      rw [getElem?_map, getElem?_map, found, getElem?_range inside] at here
      exact Option.some.inj here
    obtain ⟨other, otherLoaded, tag⟩ := holds.keeps.filled index ((marked index).mpr inside)
    cases loaded.symm.trans otherLoaded
    exact ⟨loaded, tag⟩

theorem InOrder.slotAt_eq (inOrder : InOrder ops leaf entries) (pos : Nat) :
    leaf.slotAt pos = entries[pos]? := by
  have limit := inOrder.bounded
  rw [slotAt]
  by_cases inside : pos < entries.length
  · rw [if_neg (by omega), if_pos (inOrder.present_iff.mpr inside), inOrder.kvs_eq inside]
  · have unmarked : ¬leaf.bitmap.getLsbD pos = true := fun marked =>
      inside (inOrder.present_iff.mp marked)
    rw [getElem?_eq_none (not_lt.mp inside), if_neg unmarked, ite_self]

structure Arranged (ops : KeyOps K H) (leaf : LeafNode size K H V) (view : LeafView K H V) : Prop
    extends Represents ops leaf view where
  isOrdered : leaf.control.ordered = true
  inOrder : InOrder ops leaf view.entries

theorem Represents.arranged (represents : Represents ops leaf view)
    (isOrdered : leaf.control.ordered = true) (bounded : view.entries.length ≤ size.slots) :
    Arranged ops leaf view :=
  { represents with isOrdered, inOrder := represents.holds.inOrder isOrdered bounded }

theorem Represents.exists_arranged (represents : Represents ops leaf view)
    (bounded : view.entries.length ≤ size.slots) (raw : Nat → Byte) :
    ∃ sorted, leaf.kvSort raw = .ok sorted ∧ Arranged ops sorted view := by
  obtain ⟨sorted, result, holds, isOrdered, sibling, deleted, highKey, next⟩ :=
    represents.holds.kvSort bounded raw
  refine ⟨sorted, result, Represents.arranged ⟨holds, ?_, ?_, ?_⟩ isOrdered bounded⟩
  · rw [sibling, next]
    exact represents.link
  · rw [sibling, highKey]
    exact represents.high
  · exact deleted.trans represents.deleted

theorem Arranged.access_eq (arranged : Arranged ops leaf view) (raw : Nat → Byte)
    (kv : Option (KVPair K V)) (pos : Nat) :
    leaf.access ops raw kv pos leaf.control.version =
      .ok ((view.entries[pos]?, pos, leaf.control.version), leaf) := by
  rw [access, if_pos ⟨arranged.isOrdered, rfl⟩, arranged.inOrder.slotAt_eq]

theorem Represents.access_eq (represents : Represents ops leaf view)
    (bounded : view.entries.length ≤ size.slots) (raw : Nat → Byte) (pos : Nat) :
    ∃ sorted, Arranged ops sorted view ∧ leaf.access ops raw none pos leaf.control.version =
      .ok ((view.entries[pos]?, pos, sorted.control.version), sorted) := by
  by_cases isOrdered : leaf.control.ordered = true
  · have arranged := represents.arranged isOrdered bounded
    exact ⟨leaf, arranged, arranged.access_eq raw none pos⟩
  · obtain ⟨sorted, result, arranged⟩ := represents.exists_arranged bounded raw
    refine ⟨sorted, arranged, ?_⟩
    rw [access, if_neg fun both => isOrdered both.1, result]
    simp only [bind, Except.bind, arranged.inOrder.slotAt_eq]
    rfl

/-! ## `bound` -/

instance (key : K) (upper : Bool) (other : K) : Decidable (Beyond key upper other) :=
  inferInstanceAs (Decidable (if upper then key < other else key ≤ other))

theorem Beyond.mono {other third : K} (beyond : Beyond key upper other) (above : other ≤ third) :
    Beyond key upper third := by
  cases upper with
  | true => exact lt_of_lt_of_le beyond above
  | false => exact le_trans beyond above

theorem Beyond.of_lt {other : K} (greater : key < other) : Beyond key upper other := by
  cases upper with
  | true => exact greater
  | false => exact le_of_lt greater

theorem BoundExact.split (exact : BoundExact ops leaf entries key upper)
    (rising : Ascending KVPair.key entries) :
    (∃ front kv back, entries = front ++ kv :: back ∧
      (entries.filter fun other => decide (Beyond key upper other.key)) = kv :: back ∧
      leaf.bound ops key upper = .ok (some kv, front.length)) ∨
    (entries.filter fun other => decide (Beyond key upper other.key)) = [] ∧
      ∃ pos, leaf.bound ops key upper = .ok (none, pos) := by
  obtain ⟨_, ⟨found, slot⟩, result, spec⟩ := exact
  cases found with
  | none =>
    refine .inr ⟨?_, slot, result⟩
    apply filter_eq_nil_iff.mpr
    exact fun other listed => by simpa using spec other listed
  | some kv =>
    obtain ⟨position, beyond, least⟩ := spec
    obtain ⟨inside, kvEq⟩ := List.getElem?_eq_some_iff.mp position
    have split : entries = entries.take slot ++ kv :: entries.drop (slot + 1) := by
      rw [← kvEq, ← drop_eq_getElem_cons inside, take_append_drop]
    have order := rising
    rw [split] at order
    obtain ⟨_, behind, across⟩ := ascending_append.mp order
    refine .inl ⟨_, kv, _, split, ?_, ?_⟩
    · have none : ((entries.take slot).filter fun other => decide (Beyond key upper other.key)) =
        [] := by
        apply filter_eq_nil_iff.mpr
        intro other listed
        rw [decide_eq_true_iff]
        intro otherBeyond
        have smaller := across other listed kv mem_cons_self
        exact absurd (least other (mem_of_mem_take listed) otherBeyond) (not_le_of_gt smaller)
      have all : ((kv :: entries.drop (slot + 1)).filter
          fun other => decide (Beyond key upper other.key)) = kv :: entries.drop (slot + 1) := by
        apply filter_eq_self.mpr
        intro other listed
        rw [decide_eq_true_iff]
        rcases mem_cons.mp listed with rfl | later
        · exact beyond
        · exact beyond.mono (le_of_lt ((ascending_cons.mp behind).1 other later))
      conv_lhs => rw [split]
      rw [filter_append, none, all, nil_append]
    · rw [result, length_take, Nat.min_eq_left (Nat.le_of_lt inside)]

end IndexResearch.FBTree.LeafNode
