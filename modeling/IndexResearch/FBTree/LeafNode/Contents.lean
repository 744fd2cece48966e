import IndexResearch.FBTree.LeafView

/-!
# The contents of a leaf

The relation between the slots of a leaf and the sorted list of its pairs, and the
searches and the latch-free update in terms of it.
-/

namespace IndexResearch.FBTree.LeafNode

open List

variable {size : NodeSize} {K H V : Type} {ops : KeyOps K H}
  {leaf : LeafNode size K H V} {pairs entries : List (KVPair K V)} {key : K} {kv : KVPair K V}

def contents (leaf : LeafNode size K H V) : List (KVPair K V) :=
  leaf.bitmap.slots.filterMap leaf.kvs

/-- The slots marked in `bitmap_` keep the given pairs. -/
structure Keeps (ops : KeyOps K H) (leaf : LeafNode size K H V) (pairs : List (KVPair K V)) :
    Prop where
  bounded : ∀ slot, leaf.bitmap.getLsbD slot = true → slot < size.slots
  filled : ∀ slot, leaf.bitmap.getLsbD slot = true →
    ∃ kv, leaf.kvs slot = some kv ∧ leaf.tags slot = ops.hash kv.key
  perm : leaf.contents.Perm pairs

namespace Keeps

section

variable (keeps : Keeps ops leaf pairs)
include keeps

theorem mem_iff :
    kv ∈ pairs ↔ ∃ slot, leaf.bitmap.getLsbD slot = true ∧ leaf.kvs slot = some kv := by
  rw [← keeps.perm.mem_iff, contents, mem_filterMap]
  simp only [Bitmap.mem_slots]

theorem popcount_eq : Bitmap.popcount leaf.bitmap = pairs.length := by
  rw [← keeps.perm.length_eq, Bitmap.popcount, contents]
  apply Eq.symm
  apply filterMap_length_eq_length.mpr
  intro slot listed
  obtain ⟨kv, loaded, _⟩ := keeps.filled slot (Bitmap.mem_slots.mp listed)
  rw [loaded]
  rfl

theorem congr_perm {other : List (KVPair K V)} (same : pairs.Perm other) : Keeps ops leaf other:=
  ⟨keeps.bounded, keeps.filled, keeps.perm.trans same⟩

theorem congr {other : LeafNode size K H V}
    (sameBitmap : other.bitmap = leaf.bitmap) (sameTags : other.tags = leaf.tags)
    (sameKvs : other.kvs = leaf.kvs) : Keeps ops other pairs where
  bounded := sameBitmap ▸ keeps.bounded
  filled := by
    rw [sameBitmap, sameTags, sameKvs]
    exact keeps.filled
  perm := by
    rw [contents, sameBitmap, sameKvs]
    exact keeps.perm

theorem indexLeast0_eq (room : pairs.length < size.slots) :
    ∃ index, Bitmap.indexLeast0 leaf.bitmap = some index ∧ index < size.slots ∧
      leaf.bitmap.getLsbD index = false := by
  have gap : ∃ index < size.slots, leaf.bitmap.getLsbD index = false := by
    by_contra full
    have subset : List.range size.slots ⊆ leaf.bitmap.slots := by
      intro index inside
      rw [Bitmap.mem_slots]
      by_contra absent
      exact full ⟨index, mem_range.mp inside, eq_false_of_ne_true absent⟩
    have count := (nodup_range.subperm subset).length_le
    rw [length_range, ← Bitmap.popcount, keeps.popcount_eq] at count
    omega
  obtain ⟨gapIndex, inside, absent⟩ := gap
  have bound := size.slots_le
  rcases least : Bitmap.indexLeast0 leaf.bitmap with _ | index
  · have present := Bitmap.indexLeast0_eq_none.mp least gapIndex (by omega)
    rw [absent] at present
    exact absurd present Bool.false_ne_true
  · obtain ⟨_, empty, below⟩ := Bitmap.indexLeast0_eq_some least
    refine ⟨index, rfl, ?_, empty⟩
    by_contra outside
    have present := below gapIndex (by omega)
    rw [absent] at present
    exact absurd present Bool.false_ne_true

theorem indexLeast0_of_full (full : pairs.length = size.slots) :
    Bitmap.indexLeast0 leaf.bitmap = fullIdx size ∧
      ∀ slot, leaf.bitmap.getLsbD slot = true ↔ slot < size.slots := by
  have subset : leaf.bitmap.slots ⊆ List.range size.slots := by
    intro slot listed
    exact mem_range.mpr (keeps.bounded slot (Bitmap.mem_slots.mp listed))
  have same : leaf.bitmap.slots.Perm (List.range size.slots) := by
    apply (leaf.bitmap.slots_nodup.subperm subset).perm_of_length_le
    rw [length_range, ← Bitmap.popcount, keeps.popcount_eq, full]
  have slots : ∀ slot, leaf.bitmap.getLsbD slot = true ↔ slot < size.slots := by
    intro slot
    rw [← Bitmap.mem_slots, same.mem_iff, mem_range]
  refine ⟨?_, slots⟩
  have bound := size.slots_le
  rcases least : Bitmap.indexLeast0 leaf.bitmap with _ | index
  · have present := (slots size.slots).mp
    cases size with
    | size64 => rfl
    | size32 => exact absurd (present (Bitmap.indexLeast0_eq_none.mp least 32 (by decide))) (by
      decide)
    | size16 => exact absurd (present
      (Bitmap.indexLeast0_eq_none.mp least 16 (by decide))) (by decide)
  · obtain ⟨inside, empty, below⟩ := Bitmap.indexLeast0_eq_some least
    have atLeast : size.slots ≤ index := by
      by_contra outside
      rw [(slots index).mpr (by omega)] at empty
      cases empty
    have atMost : ¬size.slots < index := fun outside =>
      Nat.lt_irrefl _ ((slots size.slots).mp (below size.slots outside))
    obtain rfl : index = size.slots := by omega
    cases size with
    | size64 => exact absurd inside (by decide)
    | size32 => rfl
    | size16 => rfl

end

end Keeps

variable [LinearOrder K]

structure Stored (ops : KeyOps K H) (leaf : LeafNode size K H V) (entries : List (KVPair K V)) :
    Prop where
  keeps : Keeps ops leaf entries
  ascending : Ascending KVPair.key entries

/-- The flag `ordered` tells that the pairs are in the first slots, in order. -/
structure Holds (ops : KeyOps K H) (leaf : LeafNode size K H V) (entries : List (KVPair K V)) :
    Prop extends Stored ops leaf entries where
  ordered : leaf.control.ordered = true →
    leaf.bitmap.slots = List.range entries.length ∧ leaf.contents = entries

structure Represents (ops : KeyOps K H) (leaf : LeafNode size K H V) (view : LeafView K H V) :
    Prop where
  holds : Holds ops leaf view.entries
  link : view.link = if leaf.control.sibling then some leaf.sibling else none
  high : view.high = if leaf.control.sibling then some leaf.highKey else none
  deleted : leaf.control.deleted = false

/-! ## Search -/

omit [LinearOrder K] in
theorem mem_candidates {slot : Nat} :
    slot ∈ leaf.candidates ops key ↔ leaf.bitmap.getLsbD slot = true ∧ slot < size.slots ∧
      leaf.tags slot = ops.hash key := by
  rw [candidates, Bitmap.mem_slots, BitVec.getLsbD_and, getLsbD_compareEqual]
  simp

theorem search_spec (leaf : LeafNode size K H V) (key : K) (slots : List Nat) :
    (∃ slot kv, slot ∈ slots ∧ leaf.kvs slot = some kv ∧ kv.key = key ∧
      leaf.search key slots = some (slot, kv)) ∨
    ((∀ slot ∈ slots, ∀ kv, leaf.kvs slot = some kv → kv.key ≠ key) ∧
      leaf.search key slots = none) := by
  induction slots with
  | nil => exact .inr ⟨fun _ listed => absurd listed not_mem_nil, rfl⟩
  | cons slot rest ih =>
    by_cases here : ∃ kv, leaf.kvs slot = some kv ∧ kv.key = key
    · obtain ⟨kv, loaded, same⟩ := here
      refine .inl ⟨slot, kv, mem_cons_self, loaded, same, ?_⟩
      simp only [search, loaded]
      rw [if_pos same.symm]
    · have skipped : leaf.search key (slot :: rest) = leaf.search key rest := by
        rw [search]
        split
        · rename_i kv loaded
          exact if_neg fun same => here ⟨kv, loaded, same.symm⟩
        · rfl
      rw [skipped]
      rcases ih with ⟨found, kv, listed, spec⟩ | ⟨absent, result⟩
      · exact .inl ⟨found, kv, mem_cons_of_mem slot listed, spec⟩
      · refine .inr ⟨?_, result⟩
        rintro other (_ | ⟨_, later⟩) kv loaded same
        · exact here ⟨kv, loaded, same⟩
        · exact absent other later kv loaded same

theorem searchLatched_eq (key : K) {slots : List Nat}
    (filled : ∀ slot ∈ slots, ∃ kv, leaf.kvs slot = some kv) :
    leaf.searchLatched key slots = .ok (leaf.search key slots) := by
  induction slots with
  | nil => rfl
  | cons slot rest ih =>
    obtain ⟨kv, loaded⟩ := filled slot mem_cons_self
    rw [searchLatched, search]
    simp only [loaded]
    split
    · rfl
    · exact ih fun other listed => filled other (mem_cons_of_mem slot listed)

namespace Stored

section

variable (stored : Stored ops leaf entries)
include stored

theorem search_eq_some (found : findKey KVPair.key entries key = some kv) :
    ∃ slot, leaf.bitmap.getLsbD slot = true ∧ leaf.kvs slot = some kv ∧
      leaf.search key (leaf.candidates ops key) = some (slot, kv) := by
  obtain ⟨listed, same⟩ := stored.ascending.findKey_eq_some.mp found
  rcases leaf.search_spec key (leaf.candidates ops key) with
    ⟨slot, other, candidate, loaded, otherSame, result⟩ | ⟨absent, _⟩
  · have present := (mem_candidates.mp candidate).1
    have otherListed := stored.keeps.mem_iff.mpr ⟨slot, present, loaded⟩
    have otherFound := stored.ascending.findKey_eq_some.mpr ⟨otherListed, otherSame⟩
    cases found.symm.trans otherFound
    exact ⟨slot, present, loaded, result⟩
  · obtain ⟨slot, present, loaded⟩ := stored.keeps.mem_iff.mp listed
    obtain ⟨other, otherLoaded, tag⟩ := stored.keeps.filled slot present
    cases loaded.symm.trans otherLoaded
    have candidate := mem_candidates.mpr ⟨present, stored.keeps.bounded slot present, same ▸ tag⟩
    exact absurd same (absent slot candidate kv loaded)

theorem search_eq_none (absent : findKey KVPair.key entries key = none) :
    leaf.search key (leaf.candidates ops key) = none := by
  rcases leaf.search_spec key (leaf.candidates ops key) with
    ⟨slot, other, candidate, loaded, same, _⟩ | ⟨_, result⟩
  · have listed := stored.keeps.mem_iff.mpr ⟨slot, (mem_candidates.mp candidate).1, loaded⟩
    exact absurd same (findKey_eq_none.mp absent other listed)
  · exact result

theorem searchLatched_eq (key : K) :
    leaf.searchLatched key (leaf.candidates ops key) =
      .ok (leaf.search key (leaf.candidates ops key)) := by
  apply LeafNode.searchLatched_eq
  intro slot candidate
  obtain ⟨kv, loaded, _⟩ := stored.keeps.filled slot (mem_candidates.mp candidate).1
  exact ⟨kv, loaded⟩

theorem lookup_eq (key : K) : leaf.lookup ops key = findKey KVPair.key entries key := by
  rw [lookup]
  rcases found : findKey KVPair.key entries key with _ | kv
  · rw [stored.search_eq_none found]
    rfl
  · obtain ⟨slot, _, _, result⟩ := stored.search_eq_some found
    rw [result]
    rfl

theorem slot_inj {slot other : Nat} {kv' : KVPair K V}
    (present : leaf.bitmap.getLsbD slot = true) (otherPresent : leaf.bitmap.getLsbD other = true)
    (loaded : leaf.kvs slot = some kv) (otherLoaded : leaf.kvs other = some kv')
    (same : kv.key = kv'.key) : slot = other := by
  have nodup : entries.Nodup :=
    List.Pairwise.imp (fun below equal => absurd below (by simp [equal])) stored.ascending
  have contentsNodup : leaf.contents.Nodup := stored.keeps.perm.nodup_iff.mpr nodup
  have listed := stored.keeps.mem_iff.mpr ⟨slot, present, loaded⟩
  have otherListed := stored.keeps.mem_iff.mpr ⟨other, otherPresent, otherLoaded⟩
  have found := stored.ascending.findKey_eq_some.mpr ⟨listed, same⟩
  have otherFound := stored.ascending.findKey_eq_some.mpr ⟨otherListed, rfl⟩
  cases found.symm.trans otherFound
  by_contra different
  have symmetric : Std.Symm fun first second => ∀ kv, leaf.kvs first = some kv →
      ∀ kv', leaf.kvs second = some kv' → kv ≠ kv' :=
    ⟨fun _ _ apart kv loaded kv' loaded' => (apart kv' loaded' kv loaded).symm⟩
  have apart := (pairwise_filterMap.mp contentsNodup).forall (Bitmap.mem_slots.mpr present)
    (Bitmap.mem_slots.mpr otherPresent) different
  exact apart kv loaded kv otherLoaded rfl

end

end Stored

/-! ## Exchange of a pair -/

theorem Stored.contents_exchange (stored : Stored ops leaf entries) {slot : Nat}
    {old : KVPair K V} (present : leaf.bitmap.getLsbD slot = true)
    (loaded : leaf.kvs slot = some old) (same : old.key = kv.key) :
    leaf.bitmap.slots.filterMap (Function.update leaf.kvs slot (some kv)) =
      replace KVPair.key leaf.contents kv := by
  rw [replace, contents, map_filterMap]
  apply filterMap_congr
  intro other listed
  have otherPresent := Bitmap.mem_slots.mp listed
  obtain ⟨otherKv, otherLoaded, _⟩ := stored.keeps.filled other otherPresent
  by_cases here : other = slot
  · subst here
    rw [Function.update_self, loaded, Option.map_some, if_pos same]
  · have different : otherKv.key ≠ kv.key := fun equal =>
      here (stored.slot_inj otherPresent present otherLoaded loaded (equal.trans same.symm))
    rw [Function.update_of_ne here, otherLoaded, Option.map_some, if_neg different]

theorem Holds.exchange (holds : Holds ops leaf entries) {slot : Nat} {old : KVPair K V}
    (present : leaf.bitmap.getLsbD slot = true) (loaded : leaf.kvs slot = some old)
    (same : old.key = kv.key) :
    Holds ops (leaf.exchange slot kv) (replace KVPair.key entries kv) where
  keeps := {
    bounded := holds.keeps.bounded
    filled := by
      intro other otherPresent
      by_cases here : other = slot
      · subst here
        obtain ⟨otherKv, otherLoaded, tag⟩ := holds.keeps.filled other otherPresent
        cases loaded.symm.trans otherLoaded
        exact ⟨kv, Function.update_self .., same ▸ tag⟩
      · simp only [LeafNode.exchange, Function.update_of_ne here]
        exact holds.keeps.filled other otherPresent
    perm := by
      have exchanged := holds.toStored.contents_exchange present loaded same
      rw [contents, LeafNode.exchange, exchanged]
      exact holds.keeps.perm.map _ }
  ascending := holds.ascending.replace
  ordered := by
    intro isOrdered
    obtain ⟨slots, inOrder⟩ := holds.ordered isOrdered
    refine ⟨?_, ?_⟩
    · rw [replace, length_map]
      exact slots
    · have exchanged := holds.toStored.contents_exchange present loaded same
      rw [contents, LeafNode.exchange, exchanged, inOrder]

theorem Holds.update (holds : Holds ops leaf entries) (kv : KVPair K V) :
    (leaf.update ops kv).1 = findKey KVPair.key entries kv.key ∧
      Holds ops (leaf.update ops kv).2 (replace KVPair.key entries kv) ∧
      (leaf.update ops kv).2.control = leaf.control ∧
      (leaf.update ops kv).2.highKey = leaf.highKey ∧
      (leaf.update ops kv).2.sibling = leaf.sibling := by
  rw [LeafNode.update]
  rcases found : findKey KVPair.key entries kv.key with _ | old
  · rw [holds.search_eq_none found]
    refine ⟨rfl, ?_, rfl, rfl, rfl⟩
    rw [replace_of_absent (findKey_eq_none.mp found)]
    exact holds
  · obtain ⟨slot, present, loaded, result⟩ := holds.search_eq_some found
    obtain ⟨_, same⟩ := holds.ascending.findKey_eq_some.mp found
    rw [result]
    exact ⟨rfl, holds.exchange present loaded same, rfl, rfl, rfl⟩

end IndexResearch.FBTree.LeafNode
