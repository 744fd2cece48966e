import IndexResearch.FBTree.LeafNode.Insertion

/-!
# Removing from a leaf

Removal of a pair and absorption of the right sibling, in terms of the sorted lists
of pairs.
-/

namespace IndexResearch.FBTree.LeafNode

open List

variable {size : NodeSize} {K H V : Type} {ops : KeyOps K H}
  {leaf right : LeafNode size K H V} {pairs : List (KVPair K V)}

theorem Keeps.length_le (keeps : Keeps ops leaf pairs) : pairs.length ≤ size.slots := by
  have subset : leaf.bitmap.slots ⊆ List.range size.slots := by
    intro slot listed
    exact mem_range.mpr (keeps.bounded slot (Bitmap.mem_slots.mp listed))
  have count := (leaf.bitmap.slots_nodup.subperm subset).length_le
  rwa [length_range, ← Bitmap.popcount, keeps.popcount_eq] at count

/-! ## Absorbing the right sibling -/

theorem moveIn_spec {slots : List Nat} (keeps : Keeps ops leaf pairs) (nodup : slots.Nodup)
    (filled : ∀ slot ∈ slots, ∃ kv, right.kvs slot = some kv ∧ right.tags slot = ops.hash kv.key)
    (room : pairs.length + slots.length ≤ size.slots) :
    ∃ left rest, moveIn slots leaf right = .ok (left, rest) ∧
      Keeps ops left (pairs ++ slots.filterMap right.kvs) ∧ SameHead leaf left ∧
      rest.control = right.control := by
  induction slots generalizing leaf right pairs with
  | nil =>
    refine ⟨leaf, right, rfl, ?_, ⟨rfl, rfl, rfl⟩, rfl⟩
    rw [filterMap_nil, append_nil]
    exact keeps
  | cons ridx others ih =>
    obtain ⟨kv, loaded, tag⟩ := filled ridx mem_cons_self
    obtain ⟨absent, othersNodup⟩ := nodup_cons.mp nodup
    rw [length_cons] at room
    obtain ⟨lidx, least, inside, empty⟩ := keeps.indexLeast0_eq (by omega)
    have added : Keeps ops ({ leaf with
        tags := Function.update leaf.tags lidx (right.tags ridx)
        kvs := Function.update leaf.kvs lidx (right.kvs ridx)
        bitmap := leaf.bitmap ||| Bitmap.single lidx } : LeafNode size K H V) (kv :: pairs) := by
      apply keeps.add inside empty rfl
      · rw [loaded]
      · rw [tag]
    have unchanged : ∀ slot ∈ others,
        Function.update right.kvs ridx none slot = right.kvs slot := by
      intro slot listed
      apply Function.update_of_ne
      rintro rfl
      exact absent listed
    have othersFilled : ∀ slot ∈ others, ∃ kv,
        ({ right with kvs := Function.update right.kvs ridx none } :
          LeafNode size K H V).kvs slot = some kv ∧ right.tags slot = ops.hash kv.key := by
      intro slot listed
      simp only [unchanged slot listed]
      exact filled slot (mem_cons_of_mem ridx listed)
    obtain ⟨left, rest, result, leftKeeps, head, control⟩ := ih added othersNodup
      othersFilled (by rw [length_cons]; omega)
    refine ⟨left, rest, ?_, ?_, ⟨head.control, head.highKey, head.sibling⟩, control⟩
    · rw [moveIn]
      simp only [least]
      rw [if_pos inside]
      exact result
    · apply leftKeeps.congr_perm
      rw [filterMap_congr unchanged, filterMap_cons_some loaded]
      exact perm_middle.symm

variable [LinearOrder K] {view rightView : LeafView K H V} {entries : List (KVPair K V)}

structure Neighbour (ops : KeyOps K H) (leaf right : LeafNode size K H V) (view : LeafView K H V)
    (rightView : Option (LeafView K H V)) : Prop where
  none : leaf.control.sibling = false → rightView = none
  some : leaf.control.sibling = true → ∃ other, rightView = some other ∧
    Represents ops right other ∧
    ∀ entry ∈ view.entries, ∀ next ∈ other.entries, entry.key < next.key

theorem merge_spec (this : Ptr) (stored : Stored ops leaf entries)
    (sibling : leaf.control.sibling = true) (deleted : leaf.control.deleted = false)
    (represents : Represents ops right rightView)
    (before : ∀ entry ∈ entries, ∀ next ∈ rightView.entries, entry.key < next.key)
    (small : entries.length + rightView.entries.length ≤ size.half ∨ entries.length = 0) :
    ∃ left rest, leaf.merge right this = .ok (left, rest, some leaf.highKey) ∧
      Stored ops left (entries ++ rightView.entries) ∧
      rightView.link = (if left.control.sibling then some left.sibling else none) ∧
      rightView.high = (if left.control.sibling then some left.highKey else none) ∧
      left.control.deleted = false ∧ rest.control.deleted = true ∧ rest.sibling = this := by
  have half := size.eight_le_half
  have slots := size.slots_eq
  have rightKeeps := represents.holds.keeps
  have rightLength := rightKeeps.length_le
  have rightCount : right.bitmap.slots.length = rightView.entries.length := rightKeeps.popcount_eq
  obtain ⟨left, rest, result, keeps, head, control⟩ := moveIn_spec stored.keeps
    right.bitmap.slots_nodup
    (fun slot listed => rightKeeps.filled slot (Bitmap.mem_slots.mp listed)) (by omega)
  rw [merge, if_pos sibling]
  simp only [stored.keeps.popcount_eq, rightKeeps.popcount_eq]
  rw [if_pos small, result]
  refine ⟨_, _, rfl, ⟨?_, ?_⟩, ?_, ?_, ?_, rfl, rfl⟩
  · exact (keeps.congr_perm (rightKeeps.perm.append_left entries)).congr rfl rfl rfl
  · exact pairwise_append.mpr ⟨stored.ascending, represents.holds.ascending, before⟩
  · rw [represents.link]
    simp only [head.control]
    cases right.control.sibling with
    | true => simp [sibling]
    | false => simp [Control.clearSibling]
  · rw [represents.high]
    simp only [head.control]
    cases right.control.sibling with
    | true => simp [sibling]
    | false => simp [Control.clearSibling]
  · simp only [head.control]
    split
    · exact deleted
    · exact deleted

/-! ## `remove` -/

theorem Stored.detach {slot : Nat} {kv : KVPair K V} {other : LeafNode size K H V}
    (stored : Stored ops leaf entries) (present : leaf.bitmap.getLsbD slot = true)
    (loaded : leaf.kvs slot = some kv)
    (bitmap : other.bitmap = leaf.bitmap &&& ~~~Bitmap.single slot)
    (kvs : other.kvs = Function.update leaf.kvs slot none) (tags : other.tags = leaf.tags) :
    Stored ops other (eraseKey KVPair.key entries kv.key) := by
  have bits : ∀ pos, other.bitmap.getLsbD pos = true →
      leaf.bitmap.getLsbD pos = true ∧ pos ≠ slot := by
    intro pos marked
    rw [bitmap, Bitmap.getLsbD_clear, Bool.and_eq_true] at marked
    exact ⟨marked.1, fun same => by simp [same] at marked⟩
  have kept : ∀ pos, other.bitmap.getLsbD pos = true →
      other.kvs pos = leaf.kvs pos := by
    intro pos marked
    rw [kvs, Function.update_of_ne (bits pos marked).2]
  refine ⟨⟨?_, ?_, ?_⟩, stored.ascending.eraseKey⟩
  · exact fun pos marked => stored.keeps.bounded pos (bits pos marked).1
  · intro pos marked
    rw [kept pos marked, tags]
    exact stored.keeps.filled pos (bits pos marked).1
  · have slots : leaf.bitmap.slots.Perm (slot :: other.bitmap.slots) := by
      rw [bitmap]
      exact Bitmap.slots_clear present
    have rest : other.contents = other.bitmap.slots.filterMap leaf.kvs :=
      filterMap_congr fun pos listed => kept pos (Bitmap.mem_slots.mp listed)
    have whole : leaf.contents.Perm (kv :: other.contents) := by
      rw [rest, ← filterMap_cons_some loaded]
      exact slots.filterMap leaf.kvs
    have listed : kv ∈ entries := stored.keeps.mem_iff.mpr ⟨slot, present, loaded⟩
    have erased := stored.ascending.perm_cons_eraseKey listed
    exact (whole.symm.trans (stored.keeps.perm.trans erased)).cons_inv

/-- `remove` on a leaf is `remove` on its list of pairs.  An absorbed sibling is marked
and leads back to the leaf. -/
theorem remove_spec {neighbour : Option (LeafView K H V)} (this : Ptr) (key : K)
    (represents : Represents ops leaf view) (adjacent : Neighbour ops leaf right view neighbour) :
    ∃ detached, leaf.remove ops right this key = .ok detached ∧
      detached.kv = (view.remove size neighbour key).1 ∧
      Represents ops detached.leaf (view.remove size neighbour key).2.1 ∧
      detached.merged = (view.remove size neighbour key).2.2 ∧
      (detached.merged = none → detached.right = right) ∧
      (detached.merged.isSome →
        detached.right.control.deleted = true ∧ detached.right.sibling = this) := by
  obtain ⟨holds, link, high, deleted⟩ := represents
  rw [remove, holds.toStored.searchLatched_eq, LeafView.remove]
  rcases found : findKey KVPair.key view.entries key with _ | kv
  · rw [holds.toStored.search_eq_none found]
    exact ⟨_, rfl, rfl, ⟨holds, link, high, deleted⟩,
      rfl, fun _ => rfl, fun absurdity => (by cases absurdity)⟩
  · obtain ⟨slot, present, loaded, result⟩ := holds.toStored.search_eq_some found
    obtain ⟨_, rfl⟩ := holds.ascending.findKey_eq_some.mp found
    rw [result]
    simp only [bind, Except.bind]
    generalize emptiedEq : ({ leaf with
      control := leaf.control.updateVersion
      bitmap := leaf.bitmap &&& ~~~Bitmap.single slot
      kvs := Function.update leaf.kvs slot none } : LeafNode size K H V) = emptied
    have stored : Stored ops emptied (eraseKey KVPair.key view.entries kv.key) := by
      apply holds.toStored.detach present loaded <;> rw [← emptiedEq]
    have sibling : emptied.control.sibling = leaf.control.sibling := by
      rw [← emptiedEq]
      rfl
    have highKey : emptied.highKey = leaf.highKey := by rw [← emptiedEq]
    have notDeleted : emptied.control.deleted = false := by
      rw [← emptiedEq]
      exact deleted
    have kept : Represents ops
        ({ emptied with control := emptied.control.clearOrder } : LeafNode size K H V)
        { view with entries := eraseKey KVPair.key view.entries kv.key } := by
      have unordered : Stored ops
          ({ emptied with control := emptied.control.clearOrder } : LeafNode size K H V)
          (eraseKey KVPair.key view.entries kv.key) :=
        ⟨stored.keeps.congr rfl rfl rfl, stored.ascending⟩
      subst emptiedEq
      exact .of_stored unordered rfl link high deleted
    rcases siblingEq : leaf.control.sibling with _ | _
    · have alone : ¬emptied.control.sibling = true := by simp [sibling, siblingEq]
      rw [adjacent.none siblingEq, merge, if_neg alone]
      exact ⟨_, rfl, rfl, kept, rfl, fun _ => rfl, fun absurdity => (by cases absurdity)⟩
    · obtain ⟨other, rfl, rightRepresents, before⟩ := adjacent.some siblingEq
      simp only
      by_cases small : (eraseKey KVPair.key view.entries kv.key).length + other.entries.length ≤
          size.half ∨ (eraseKey KVPair.key view.entries kv.key).length = 0
      · obtain ⟨left, rest, merged, leftStored, leftLink, leftHigh, leftDeleted, restDeleted,
          restSibling⟩ := merge_spec this stored (sibling.trans siblingEq) notDeleted
            rightRepresents
            (fun entry listed => before entry (mem_eraseKey.mp listed).1) small
        rw [if_pos small, merged]
        refine ⟨_, rfl, rfl, ?_, ?_, fun none => (by cases none),
          fun _ => ⟨restDeleted, restSibling⟩⟩
        · exact .of_stored ⟨leftStored.keeps.congr rfl rfl rfl, leftStored.ascending⟩ rfl leftLink
            leftHigh leftDeleted
        · rw [high, siblingEq, highKey]
          rfl
      · rw [if_neg small, merge, if_pos (sibling.trans siblingEq)]
        simp only [stored.keeps.popcount_eq, rightRepresents.holds.keeps.popcount_eq]
        rw [if_neg small]
        exact ⟨_, rfl, rfl, kept, rfl, fun _ => rfl, fun absurdity => (by cases absurdity)⟩

end IndexResearch.FBTree.LeafNode
