import IndexResearch.FBTree.LeafNode.Ordered
import IndexResearch.FBTree.LeafNode.Removal
import IndexResearch.Loop

/-!
# Slots that are given up

Every operation on a leaf sets the slots that it gives up to null, and it touches no other
unmarked slot.
-/

namespace IndexResearch.FBTree.LeafNode

variable {size : NodeSize} {K H V : Type} {ops : KeyOps K H}
  {leaf other third raw right : LeafNode size K H V} {kv : KVPair K V}

def Vacates (leaf other : LeafNode size K H V) : Prop :=
  ∀ slot, other.bitmap.getLsbD slot = false →
    other.kvs slot = none ∨ (leaf.bitmap.getLsbD slot = false ∧ other.kvs slot = leaf.kvs slot)

namespace Vacates

theorem of_eq (bitmap : other.bitmap = leaf.bitmap) (kvs : other.kvs = leaf.kvs) :
    Vacates leaf other := by
  intro slot unmarked
  rw [kvs]
  exact .inr ⟨bitmap ▸ unmarked, rfl⟩

theorem trans (first : Vacates leaf other) (second : Vacates other third) : Vacates leaf third := by
  intro slot unmarked
  rcases second slot unmarked with none | ⟨still, same⟩
  · exact .inl none
  · rcases first slot still with none | ⟨before, same'⟩
    · exact .inl (same.trans none)
    · exact .inr ⟨before, same.trans same'⟩

theorem fill {index : Nat} (inside : index < 64)
    (bitmap : other.bitmap = leaf.bitmap ||| Bitmap.single index)
    (kvs : ∀ slot, slot ≠ index → other.kvs slot = leaf.kvs slot) : Vacates leaf other := by
  intro slot unmarked
  rw [bitmap, BitVec.getLsbD_or, Bool.or_eq_false_iff, Bitmap.getLsbD_single] at unmarked
  have different : slot ≠ index := by
    rintro rfl
    simp [inside] at unmarked
  exact .inr ⟨unmarked.1, kvs slot different⟩

theorem empty {index : Nat} (bitmap : other.bitmap = leaf.bitmap &&& ~~~Bitmap.single index)
    (kvs : other.kvs = Function.update leaf.kvs index none) : Vacates leaf other := by
  intro slot unmarked
  by_cases here : slot = index
  · left
    rw [kvs, here, Function.update_self]
  · right
    rw [bitmap, Bitmap.getLsbD_clear, decide_eq_false (Ne.symm here), Bool.not_false,
      Bool.and_true] at unmarked
    rw [kvs, Function.update_of_ne here]
    exact ⟨unmarked, rfl⟩

end Vacates

theorem store_vacates {index : Nat} (inside : index < 64)
    (result : leaf.store ops kv index = .ok other) : Vacates leaf other := by
  rw [store] at result
  split at result
  · cases result
  · cases result
    exact .fill inside rfl fun slot different => Function.update_of_ne different ..

theorem exchange_vacates {slot : Nat} (present : leaf.bitmap.getLsbD slot = true) :
    Vacates leaf (leaf.exchange slot kv) := by
  intro other unmarked
  have different : other ≠ slot := by
    rintro rfl
    exact absurd (present.symm.trans unmarked) nofun
  exact .inr ⟨unmarked, Function.update_of_ne different ..⟩

theorem splitLeft_vacates {moved : List (KVPair K V × Nat)} (address : Ptr) (high : H)
    (inside : ∀ entry ∈ moved, entry.2 < 64) :
    Vacates leaf (leaf.splitLeft moved address high) := by
  intro slot unmarked
  simp only [splitLeft] at unmarked ⊢
  by_cases out : slot ∈ moved.map Prod.snd
  · exact .inl (if_pos out)
  · right
    rw [if_neg out]
    refine ⟨?_, rfl⟩
    by_cases within : slot < 64
    · rwa [BitVec.getLsbD_and, BitVec.getLsbD_not, getLsbD_movedMask inside, decide_eq_false out,
        decide_eq_true within, Bool.not_false, Bool.and_true, Bool.and_true] at unmarked
    · exact BitVec.getLsbD_of_ge _ _ (not_lt.mp within)

theorem moveIn_vacates {slots : List Nat} {left rest : LeafNode size K H V}
    (result : moveIn slots leaf right = .ok (left, rest)) : Vacates leaf left := by
  induction slots generalizing leaf right with
  | nil =>
    cases result
    exact .of_eq rfl rfl
  | cons ridx others ih =>
    rw [moveIn] at result
    split at result
    · rename_i lidx least
      split at result
      · refine Vacates.trans ?_ (ih result)
        exact .fill (Bitmap.indexLeast0_eq_some least).1 rfl
          fun slot different => Function.update_of_ne different ..
      · cases result
    · cases result

theorem merge_vacates {this : Ptr} {left rest : LeafNode size K H V} {merged : Option H}
    (result : leaf.merge right this = .ok (left, rest, merged)) : Vacates leaf left := by
  rw [merge] at result
  split at result
  · dsimp only at result
    split at result
    · obtain ⟨⟨moved, emptied⟩, moves, ends⟩ := map_eq_ok.mp result
      cases ends
      exact (moveIn_vacates moves).trans (.of_eq rfl rfl)
    · cases result
      exact .of_eq rfl rfl
  · cases result
    exact .of_eq rfl rfl

theorem Keeps.full_of_indexLeast0 {pairs : List (KVPair K V)} (keeps : Keeps ops leaf pairs)
    (full : Bitmap.indexLeast0 leaf.bitmap = fullIdx size) : pairs.length = size.slots := by
  apply Nat.le_antisymm keeps.length_le
  apply not_lt.mp
  intro room
  obtain ⟨index, least, inside, _⟩ := keeps.indexLeast0_eq room
  rw [least] at full
  cases size with
  | size64 => cases full
  | size32 | size16 => exact Nat.lt_irrefl _ (Option.some.inj full ▸ inside)

variable [LinearOrder K] {entries : List (KVPair K V)} {key : K}

theorem divide_vacates {keys : List (KVPair K V × Nat)} {address : Ptr} {middle : K} {high : H}
    {lid : Nat} {left rnode : LeafNode size K H V} (inside : ∀ entry ∈ keys, entry.2 < 64)
    (lidInside : lid < 64)
    (result : leaf.divide ops raw keys address middle high lid kv = .ok (left, rnode)) :
    Vacates leaf left := by
  have vacates : Vacates leaf (leaf.splitLeft (keys.drop size.half) address high) :=
    splitLeft_vacates address high fun entry listed => inside entry (List.mem_of_mem_drop listed)
  rw [divide] at result
  split at result
  · cases result
  · split at result
    · obtain ⟨_, _, ends⟩ := map_eq_ok.mp result
      cases ends
      exact vacates
    · obtain ⟨_, stored, ends⟩ := map_eq_ok.mp result
      cases ends
      exact vacates.trans (store_vacates lidInside stored)

theorem split_vacates {address copy : Ptr} {left rnode : LeafNode size K H V}
    (stored : Stored ops leaf entries) (full : entries.length = size.slots)
    (result : leaf.split ops raw address copy kv = .ok (left, rnode)) : Vacates leaf left := by
  obtain ⟨loaded, loads, sorted⟩ := stored.sorted full
  have inside : ∀ entry ∈ loaded.insertionSort keyLe, entry.2 < 64 := fun entry listed =>
    Nat.lt_of_lt_of_le (sorted.slot_lt entry listed) size.slots_le
  have announced : Vacates leaf (leaf.announce ops) := .of_eq rfl rfl
  rw [split, loads] at result
  obtain ⟨_, ⟨⟩, result⟩ := bind_eq_ok.mp result
  dsimp only at result
  split at result
  · rename_i last middle lastKey _
    split at result
    · obtain ⟨_, _, ends⟩ := map_eq_ok.mp result
      cases ends
      exact announced.trans (.of_eq rfl rfl)
    · exact announced.trans (divide_vacates inside
        (inside last (List.mem_of_getLast? lastKey)) result)
  · cases result

theorem upsert_vacates {address copy : Ptr} {upserted : Upserted size K H V}
    (stored : Stored ops leaf entries)
    (result : leaf.upsert ops raw address copy kv = .ok upserted) : Vacates leaf upserted.leaf := by
  rw [upsert, stored.searchLatched_eq] at result
  obtain ⟨_, ⟨⟩, result⟩ := bind_eq_ok.mp result
  rcases leaf.search_spec kv.key (leaf.candidates ops kv.key) with
    ⟨slot, old, candidate, loaded, _, found⟩ | ⟨_, found⟩
  · rw [found] at result
    cases result
    exact exchange_vacates (mem_candidates.mp candidate).1
  · rw [found] at result
    dsimp only at result
    split at result
    · rename_i full
      obtain ⟨⟨left, rnode⟩, splits, ends⟩ := bind_eq_ok.mp result
      cases ends
      have whole := stored.keeps.full_of_indexLeast0 full
      have released : Stored ops ({ leaf with control := leaf.control.updateVersion.clearOrder } :
          LeafNode size K H V) entries :=
        ⟨stored.keeps.congr rfl rfl rfl, stored.ascending⟩
      have vacates := split_vacates released whole splits
      exact vacates
    · split at result
      · rename_i index least
        obtain ⟨left, stores, ends⟩ := bind_eq_ok.mp result
        cases ends
        have vacates := store_vacates (Bitmap.indexLeast0_eq_some least).1 stores
        exact vacates
      · cases result

theorem update_vacates (leaf : LeafNode size K H V) (kv : KVPair K V) :
    Vacates leaf (leaf.update ops kv).2 := by
  rw [update]
  rcases leaf.search_spec kv.key (leaf.candidates ops kv.key) with
    ⟨slot, old, candidate, loaded, _, found⟩ | ⟨_, found⟩
  · rw [found]
    exact exchange_vacates (mem_candidates.mp candidate).1
  · rw [found]
    exact .of_eq rfl rfl

theorem remove_vacates {this : Ptr} {detached : Detached size K H V}
    (stored : Stored ops leaf entries) (result : leaf.remove ops right this key = .ok detached) :
    Vacates leaf detached.leaf := by
  rw [remove, stored.searchLatched_eq] at result
  obtain ⟨_, ⟨⟩, result⟩ := bind_eq_ok.mp result
  split at result
  · obtain ⟨⟨left, rest, merged⟩, merges, ends⟩ := bind_eq_ok.mp result
    cases ends
    have emptied := merge_vacates merges
    refine Vacates.trans ?_ (emptied.trans (.of_eq rfl rfl))
    exact .empty rfl rfl
  · cases result
    exact .of_eq rfl rfl

theorem kvSort_vacates {bytes : Nat → Byte} (stored : Stored ops leaf entries)
    (result : leaf.kvSort bytes = .ok other) : Vacates leaf other := by
  rw [kvSort] at result
  split at result
  · cases result
    exact .of_eq rfl rfl
  · obtain ⟨keys, loads, rfl⟩ := map_eq_ok.mp result
    obtain ⟨loaded, same, firsts, _⟩ := stored.loadAll_slots
    cases loads.symm.trans same
    have bounded : (keys.insertionSort keyLe).length ≤ size.slots := by
      rw [← List.length_map, firsts]
      exact stored.keeps.length_le
    intro slot unmarked
    have outside : (keys.insertionSort keyLe)[slot]? = none := by
      apply List.getElem?_eq_none
      apply not_lt.mp
      rw [← List.mem_range, ← slots_bitmapOf bounded, Bitmap.mem_slots, unmarked]
      simp
    simp only [outside]
    cases marked : leaf.bitmap.getLsbD slot with
    | true => exact .inl rfl
    | false => exact .inr ⟨rfl, rfl⟩

end IndexResearch.FBTree.LeafNode
