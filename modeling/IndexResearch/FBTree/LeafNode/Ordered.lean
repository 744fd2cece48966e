import IndexResearch.FBTree.Constant
import IndexResearch.FBTree.LeafNode.Insertion
import Mathlib.Data.List.TakeWhile

/-!
# Ordered access to a leaf

`kv_sort` brings the pairs of a leaf into the first slots, and `bound` searches them there.
When the key itself is the greatest of the leaf, the search for a greater key loads the
slot behind the last pair.
-/

namespace IndexResearch.FBTree.LeafNode

open List

variable {size : NodeSize} {K H V : Type} [LinearOrder K] {ops : KeyOps K H}
  {leaf : LeafNode size K H V} {entries : List (KVPair K V)} {key : K}

structure InOrder (ops : KeyOps K H) (leaf : LeafNode size K H V) (entries : List (KVPair K V)) :
    Prop where
  bitmap_eq : leaf.bitmap = bitmapOf size entries.length
  bounded : entries.length ≤ size.slots
  filled : ∀ index kv, entries[index]? = some kv →
    leaf.kvs index = some kv ∧ leaf.tags index = ops.hash kv.key
  ascending : Ascending KVPair.key entries

omit [LinearOrder K] in
theorem slots_bitmapOf {count : Nat} (bounded : count ≤ size.slots) :
    (bitmapOf size count).slots = List.range count := by
  have limit := size.slots_le
  rw [bitmapOf]
  split
  · rename_i full
    obtain ⟨rfl, rfl⟩ := full
    decide
  · exact Bitmap.slots_lowest (by omega)

namespace InOrder

section

variable (inOrder : InOrder ops leaf entries)
include inOrder

theorem slots_eq : leaf.bitmap.slots = List.range entries.length := by
  rw [inOrder.bitmap_eq, slots_bitmapOf inOrder.bounded]

theorem popcount_eq : Bitmap.popcount leaf.bitmap = entries.length := by
  rw [Bitmap.popcount, inOrder.slots_eq, length_range]

theorem contents_eq : leaf.contents = entries := by
  rw [contents, inOrder.slots_eq]
  have read := filterMap_range_getElem? entries id fun index kv found =>
    (inOrder.filled index kv found).1
  rwa [map_id] at read

theorem present_iff {slot : Nat} : leaf.bitmap.getLsbD slot = true ↔ slot < entries.length := by
  rw [← Bitmap.mem_slots, inOrder.slots_eq, mem_range]

theorem kvs_eq {slot : Nat} (inside : slot < entries.length) : leaf.kvs slot = entries[slot]? := by
  have found := getElem?_eq_getElem inside
  rw [found]
  exact (inOrder.filled slot _ found).1

theorem stored : Stored ops leaf entries where
  keeps := {
    bounded := fun slot present =>
      Nat.lt_of_lt_of_le (inOrder.present_iff.mp present) inOrder.bounded
    filled := by
      intro slot present
      have found := getElem?_eq_getElem (inOrder.present_iff.mp present)
      exact ⟨_, inOrder.filled slot _ found⟩
    perm := by rw [inOrder.contents_eq] }
  ascending := inOrder.ascending

theorem holds : Holds ops leaf entries :=
  { inOrder.stored with ordered := fun _ => ⟨inOrder.slots_eq, inOrder.contents_eq⟩ }

theorem firstKeys_eq : leaf.firstKeys entries.length = some (entries.map KVPair.key) := by
  have general : ∀ slots : List Nat, (∀ slot ∈ slots, slot < entries.length) →
      slots.mapM (fun index => (leaf.kvs index).map KVPair.key) =
        some (slots.filterMap fun index => (leaf.kvs index).map KVPair.key) := by
    intro slots
    induction slots with
    | nil => exact fun _ => rfl
    | cons slot rest ih =>
      intro inside
      obtain ⟨here, there⟩ := forall_mem_cons.mp inside
      have loaded := (inOrder.kvs_eq here).trans (getElem?_eq_getElem here)
      simp [loaded, ih there]
  rw [firstKeys, general _ fun slot listed => mem_range.mp listed]
  apply congrArg
  apply filterMap_range_getElem?
  intro index kv found
  rw [(inOrder.filled index kv found).1]
  rfl

end

end InOrder

omit [LinearOrder K] in
theorem firstReads_subset (leaf : LeafNode size K H V) (slots : List Nat) :
    leaf.firstReads slots ⊆ slots := by
  induction slots with
  | nil => exact List.Subset.refl _
  | cons slot rest ih =>
    intro other listed
    rw [firstReads] at listed
    rcases mem_cons.mp listed with rfl | later
    · exact mem_cons_self
    · apply mem_cons_of_mem
      split at later
      · exact ih later
      · exact absurd later not_mem_nil

theorem searchReads_subset (leaf : LeafNode size K H V) (key : K) (slots : List Nat) :
    leaf.searchReads key slots ⊆ slots := by
  induction slots with
  | nil => exact List.Subset.refl _
  | cons slot rest ih =>
    intro other listed
    rw [searchReads] at listed
    rcases mem_cons.mp listed with rfl | later
    · exact mem_cons_self
    · apply mem_cons_of_mem
      split at later
      · split at later
        · exact absurd later not_mem_nil
        · exact ih later
      · exact ih later

/-! ## `kv_sort` -/

theorem Stored.loadAll_slots (stored : Stored ops leaf entries) :
    ∃ loaded, leaf.loadAll leaf.bitmap.slots = .ok loaded ∧
      (loaded.insertionSort keyLe).map Prod.fst = entries ∧
      ∀ entry ∈ loaded.insertionSort keyLe,
        leaf.bitmap.getLsbD entry.2 = true ∧ leaf.kvs entry.2 = some entry.1 := by
  obtain ⟨loaded, result, firsts, seconds, loads⟩ := loadAll_spec leaf leaf.bitmap.slots
    fun slot listed => (stored.keeps.filled slot (Bitmap.mem_slots.mp listed)).imp
      fun _ spec => spec.1
  refine ⟨loaded, result, ?_, ?_⟩
  · apply map_fst_insertionSort _ stored.ascending
    rw [firsts]
    exact stored.keeps.perm
  · intro entry listed
    have member := (perm_insertionSort keyLe loaded).mem_iff.mp listed
    refine ⟨?_, loads entry member⟩
    rw [← Bitmap.mem_slots, ← seconds]
    exact mem_map_of_mem member

theorem Holds.kvSort (holds : Holds ops leaf entries) (bounded : entries.length ≤ size.slots)
    (raw : Nat → Byte) :
    ∃ sorted, leaf.kvSort raw = .ok sorted ∧ Holds ops sorted entries ∧
      sorted.control.ordered = true ∧ sorted.control.sibling = leaf.control.sibling ∧
      sorted.control.deleted = leaf.control.deleted ∧ sorted.highKey = leaf.highKey ∧
      sorted.sibling = leaf.sibling := by
  rw [LeafNode.kvSort]
  split
  · rename_i ordered
    exact ⟨leaf, rfl, holds, ordered, rfl, rfl, rfl, rfl⟩
  · obtain ⟨loaded, result, firsts, loads⟩ := holds.toStored.loadAll_slots
    rw [result]
    refine ⟨_, rfl, ?_, rfl, rfl, rfl, rfl, rfl⟩
    dsimp only
    generalize loaded.insertionSort keyLe = keys at firsts loads
    have length : keys.length = entries.length := by rw [← firsts, length_map]
    apply InOrder.holds
    refine ⟨congrArg (bitmapOf size) length, bounded, ?_, holds.ascending⟩
    intro index kv found
    rw [← firsts, getElem?_map] at found
    obtain ⟨entry, keyAt, rfl⟩ := Option.map_eq_some_iff.mp found
    obtain ⟨present, loaded⟩ := loads entry (mem_of_getElem? keyAt)
    obtain ⟨kv, same, tag⟩ := holds.keeps.filled entry.2 present
    cases loaded.symm.trans same
    simp only [keyAt]
    exact ⟨trivial, tag⟩

theorem Represents.kvSort {view : LeafView K H V} (represents : Represents ops leaf view)
    (bounded : view.entries.length ≤ size.slots) (raw : Nat → Byte) :
    ∃ sorted, leaf.kvSort raw = .ok sorted ∧ Represents ops sorted view := by
  obtain ⟨sorted, result, holds, _, sibling, deleted, highKey, next⟩ :=
    represents.holds.kvSort bounded raw
  refine ⟨sorted, result, holds, ?_, ?_, deleted.trans represents.deleted⟩
  · rw [sibling, next]
    exact represents.link
  · rw [sibling, highKey]
    exact represents.high

/-! ## `bound` -/

/-- A key that `bound` looks for. -/
def Beyond (key : K) (upper : Bool) (other : K) : Prop :=
  if upper then key < other else key ≤ other

/-- The answer is the slot and the pair of the least key beyond the given one, and null
when there is none. -/
def BoundOf (entries : List (KVPair K V)) (key : K) (upper : Bool) :
    Option (KVPair K V) × Nat → Prop
  | (some kv, slot) => entries[slot]? = some kv ∧ Beyond key upper kv.key ∧
      ∀ other ∈ entries, Beyond key upper other.key → kv.key ≤ other.key
  | (none, _) => ∀ other ∈ entries, ¬Beyond key upper other.key

/-- `bound` answers rightly and loads only slots of pairs. -/
def BoundExact (ops : KeyOps K H) (leaf : LeafNode size K H V) (entries : List (KVPair K V))
    (key : K) (upper : Bool) : Prop :=
  (∀ slot ∈ leaf.boundReads ops key upper, slot < entries.length) ∧
    ∃ answer, leaf.bound ops key upper = .ok answer ∧ BoundOf entries key upper answer

namespace InOrder

theorem candidates_lt (inOrder : InOrder ops leaf entries) (key : K) :
    ∀ slot ∈ leaf.searchReads key (leaf.candidates ops key), slot < entries.length := by
  intro slot listed
  have candidate := searchReads_subset leaf key _ listed
  exact inOrder.present_iff.mp (mem_candidates.mp candidate).1

theorem search_eq_some (inOrder : InOrder ops leaf entries) {kv : KVPair K V}
    (found : findKey KVPair.key entries key = some kv) :
    ∃ slot, entries[slot]? = some kv ∧
      leaf.search key (leaf.candidates ops key) = some (slot, kv) := by
  obtain ⟨slot, present, loaded, result⟩ := inOrder.stored.search_eq_some found
  refine ⟨slot, ?_, result⟩
  rw [← loaded, inOrder.kvs_eq (inOrder.present_iff.mp present)]

theorem split_at_key (rising : Ascending KVPair.key entries) (key : K) :
    ∃ front back, entries = front ++ back ∧ (∀ kv ∈ front, ¬key < kv.key) ∧
      (∀ kv ∈ back, key < kv.key) ∧
      ((entries.map KVPair.key).takeWhile fun other => !decide (key < other)).length =
        front.length := by
  refine ⟨entries.takeWhile fun kv => !decide (key < kv.key),
    entries.dropWhile fun kv => !decide (key < kv.key), takeWhile_append_dropWhile.symm,
    ?_, ?_, ?_⟩
  · intro kv listed
    simpa using mem_takeWhile_imp listed
  · have behind : Ascending KVPair.key (entries.dropWhile fun kv => !decide (key < kv.key)) :=
      List.Pairwise.sublist (dropWhile_sublist _) rising
    cases backEq : entries.dropWhile fun kv => !decide (key < kv.key) with
    | nil => exact fun _ listed => absurd listed not_mem_nil
    | cons first rest =>
      have greater : key < first.key := by
        have stop := head?_dropWhile_not (fun kv => !decide (key < kv.key)) entries
        simpa [backEq] using stop
      rw [backEq] at behind
      intro kv listed
      rcases mem_cons.mp listed with rfl | later
      · exact greater
      · exact lt_trans greater ((ascending_cons.mp behind).1 kv later)
  · rw [takeWhile_map, length_map]
    rfl

theorem bound_of_absent (inOrder : InOrder ops leaf entries)
    (absent : findKey KVPair.key entries key = none) (upper : Bool) :
    BoundExact ops leaf entries key upper := by
  have notFound := inOrder.stored.search_eq_none absent
  have different := findKey_eq_none.mp absent
  have beyond : ∀ other ∈ entries, Beyond key upper other.key ↔ key < other.key := by
    intro other listed
    cases upper with
    | true => exact Iff.rfl
    | false => exact ⟨fun atLeast => lt_of_le_of_ne atLeast (different other listed).symm, le_of_lt⟩
  obtain ⟨front, back, split, upTo, greater, kid⟩ := split_at_key inOrder.ascending key
  have total : entries.length = front.length + back.length := by rw [split, length_append]
  refine ⟨?_, ?_⟩
  · intro slot listed
    simp only [boundReads, inOrder.popcount_eq, notFound, inOrder.firstKeys_eq, kid,
      mem_append] at listed
    rcases listed with searched | collected | final
    · exact inOrder.candidates_lt key slot searched
    · exact mem_range.mp (firstReads_subset leaf _ collected)
    · split at final
      · exact absurd final not_mem_nil
      · obtain rfl := mem_singleton.mp final
        omega
  · simp only [bound, inOrder.popcount_eq, notFound, inOrder.firstKeys_eq, kid]
    cases back with
    | nil =>
      rw [if_pos (by simp [total])]
      refine ⟨_, rfl, ?_⟩
      intro other listed
      rw [beyond other listed]
      rw [split, append_nil] at listed
      exact upTo other listed
    | cons next rest =>
      have inside : front.length < entries.length := by simp [total]
      have here : entries[front.length]? = some next := by simp [split]
      rw [if_neg (Nat.not_le.mpr inside)]
      refine ⟨_, rfl, ?_⟩
      rw [inOrder.kvs_eq inside, here]
      have listed : next ∈ entries := mem_of_getElem? here
      refine ⟨here, (beyond next listed).mpr (greater next mem_cons_self), ?_⟩
      intro other otherListed otherBeyond
      have otherGreater := (beyond other otherListed).mp otherBeyond
      rw [split] at otherListed
      rcases mem_append.mp otherListed with early | late
      · exact absurd otherGreater (upTo other early)
      · have ordered := inOrder.ascending
        rw [split] at ordered
        rcases mem_cons.mp late with rfl | later
        · exact le_refl _
        · exact le_of_lt ((ascending_cons.mp (ascending_append.mp ordered).2.1).1 other later)

theorem bound_of_present (inOrder : InOrder ops leaf entries) {front back : List (KVPair K V)}
    {kv : KVPair K V} (split : entries = front ++ kv :: back) (upper : Bool) :
    BoundExact ops leaf entries kv.key upper ↔ ¬(upper = true ∧ back = []) := by
  have ordered := inOrder.ascending
  rw [split] at ordered
  obtain ⟨_, behind, across⟩ := ascending_append.mp ordered
  have later := (ascending_cons.mp behind).1
  have listed : kv ∈ entries := by simp [split]
  have found := inOrder.ascending.findKey_eq_some.mpr ⟨listed, rfl⟩
  have here : entries[front.length]? = some kv := by simp [split]
  obtain ⟨slot, pos, result⟩ := inOrder.search_eq_some found
  obtain rfl : slot = front.length := by
    by_contra apart
    have nodup : entries.Nodup :=
      List.Pairwise.imp (fun below equal => absurd below (by simp [equal])) inOrder.ascending
    exact apart ((getElem?_inj (List.getElem?_eq_some_iff.mp pos).1 nodup).mp
      (pos.trans here.symm))
  cases upper with
  | false =>
    refine ⟨fun _ => by simp, fun _ => ⟨?_, ?_⟩⟩
    · intro slot read
      simp only [boundReads, result, mem_append] at read
      rcases read with searched | none
      · exact inOrder.candidates_lt _ slot searched
      · exact absurd none (by simp)
    · refine ⟨(some kv, front.length), ?_, here, le_refl kv.key, fun other _ atLeast => atLeast⟩
      simp [bound, result]
  | true =>
    cases back with
    | nil =>
      refine ⟨fun exact => ?_, fun allowed => absurd ⟨rfl, rfl⟩ allowed⟩
      have behindLast : front.length + 1 ∈ leaf.boundReads ops kv.key true := by
        simp [boundReads, result]
      have inside := exact.1 _ behindLast
      rw [split] at inside
      simp at inside
    | cons next rest =>
      have nextHere : entries[front.length + 1]? = some next := by simp [split]
      have inside : front.length + 1 < entries.length := by simp [split]
      have loaded : leaf.kvs (front.length + 1) = some next :=
        (inOrder.kvs_eq inside).trans nextHere
      refine ⟨fun _ => by simp, fun _ => ⟨?_, ?_⟩⟩
      · intro slot read
        simp only [boundReads, result, mem_append] at read
        rcases read with searched | final
        · exact inOrder.candidates_lt _ slot searched
        · obtain rfl : slot = front.length + 1 := by simpa using final
          exact inside
      · refine ⟨(some next, front.length + 1), ?_, nextHere, later next mem_cons_self, ?_⟩
        · have room := Nat.lt_of_lt_of_le inside inOrder.bounded
          simp [bound, result, load, room, loaded]
          rfl
        · intro other otherListed greater
          rw [split] at otherListed
          rcases mem_append.mp otherListed with early | late
          · exact absurd greater (not_lt_of_gt (across other early kv mem_cons_self))
          · rcases mem_cons.mp late with rfl | late
            · exact absurd greater (lt_irrefl _)
            · rcases mem_cons.mp late with rfl | last
              · exact le_refl _
              · have order := (ascending_cons.mp behind).2
                exact le_of_lt ((ascending_cons.mp order).1 other last)

end InOrder

/-- `bound` is exact but for the search beyond the greatest key of the leaf. -/
theorem boundExact_iff (inOrder : InOrder ops leaf entries) (key : K) (upper : Bool) :
    BoundExact ops leaf entries key upper ↔
      ¬(upper = true ∧ entries.getLast?.map KVPair.key = some key) := by
  rcases found : findKey KVPair.key entries key with _ | kv
  · have different := findKey_eq_none.mp found
    refine ⟨fun _ => ?_, fun _ => inOrder.bound_of_absent found upper⟩
    rintro ⟨_, greatest⟩
    obtain ⟨last, lastEq, same⟩ := Option.map_eq_some_iff.mp greatest
    exact different last (mem_of_getLast? lastEq) same
  · obtain ⟨listed, rfl⟩ := inOrder.ascending.findKey_eq_some.mp found
    obtain ⟨front, back, split⟩ := append_of_mem listed
    rw [inOrder.bound_of_present split]
    have last : entries.getLast?.map KVPair.key = some kv.key ↔ back = [] := by
      have ordered := inOrder.ascending
      rw [split] at ordered
      have later := (ascending_cons.mp (ascending_append.mp ordered).2.1).1
      rw [split]
      rcases eq_nil_or_concat back with rfl | ⟨middle, final, rfl⟩
      · simp
      · have greater := later final (by simp)
        simp [getLast?_append, getLast?_cons, ne_of_gt greater]
    rw [last]

def plainOps : KeyOps (Key .uint64) (Key .uint64) := ⟨fun _ => 0, ⟨0⟩, fun _ key => key, id, false⟩

/-- A leaf with the one key 7; its second slot was never written and memory holds a pair
with the key 3 there. -/
def singleLeaf : LeafNode kLeafSize (Key .uint64) (Key .uint64) Nat where
  control := (Control.new true).setOrder
  bitmap := 1#64
  highKey := ⟨0⟩
  sibling := nullptr
  tags _ := 0
  kvs index := if index = 0 then some ⟨1, ⟨7⟩, 70⟩ else some ⟨2, ⟨3⟩, 30⟩

theorem inOrder_singleLeaf : InOrder plainOps singleLeaf [⟨1, ⟨7⟩, 70⟩] where
  bitmap_eq := by decide
  bounded := by decide
  filled := by
    intro index kv found
    cases index with
    | zero =>
      cases found
      exact ⟨rfl, rfl⟩
    | succ index => exact absurd found (by simp)
  ascending := pairwise_singleton _ _

def threePairs : List (KVPair (Key .uint64) Nat) := [⟨1, ⟨7⟩, 70⟩, ⟨2, ⟨17⟩, 71⟩, ⟨3, ⟨27⟩, 72⟩]

def threeLeaf : LeafNode kLeafSize (Key .uint64) (Key .uint64) Nat :=
  { singleLeaf with bitmap := 7#64, kvs := fun index => threePairs[index]? }

theorem inOrder_threeLeaf : InOrder plainOps threeLeaf threePairs where
  bitmap_eq := by decide
  bounded := by decide
  filled := fun _ _ found => ⟨found, rfl⟩
  ascending := by decide

/-- The least key that is at least 10, which no fingerprint leads to, and the least key
that is greater than 17. -/
theorem boundExact_threeLeaf : BoundExact plainOps threeLeaf threePairs ⟨10⟩ false ∧
    BoundExact plainOps threeLeaf threePairs ⟨17⟩ true :=
  ⟨(boundExact_iff inOrder_threeLeaf ⟨10⟩ false).mpr (by simp),
    (boundExact_iff inOrder_threeLeaf ⟨17⟩ true).mpr (by decide)⟩

set_option maxRecDepth 2000 in
/-- The search for a key greater than 7 answers with what the second slot holds. -/
theorem upperBound_singleLeaf : InOrder plainOps singleLeaf [⟨1, ⟨7⟩, 70⟩] ∧
    singleLeaf.bound plainOps ⟨7⟩ true = .ok (some ⟨2, ⟨3⟩, 30⟩, 1) ∧
    ¬BoundExact plainOps singleLeaf [⟨1, ⟨7⟩, 70⟩] ⟨7⟩ true := by
  refine ⟨inOrder_singleLeaf, by rfl, ?_⟩
  rintro ⟨inside, _⟩
  have outside : 1 ∈ singleLeaf.boundReads plainOps ⟨7⟩ true := by decide
  exact absurd (inside 1 outside) (by decide)

end IndexResearch.FBTree.LeafNode
