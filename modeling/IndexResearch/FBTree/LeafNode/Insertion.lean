import IndexResearch.FBTree.LeafNode.Contents

/-!
# Inserting into a leaf

Storing a pair in an empty slot, the two kinds of split, and `upsert`, in terms of
the sorted list of pairs.
-/

namespace IndexResearch.FBTree.LeafNode

open List

variable {size : NodeSize} {K H V : Type} {ops : KeyOps K H}
  {leaf other raw : LeafNode size K H V} {pairs entries : List (KVPair K V)} {kv : KVPair K V}

/-! ## Storing a pair -/

theorem Keeps.add (keeps : Keeps ops leaf pairs) {index : Nat} (inside : index < size.slots)
    (empty : leaf.bitmap.getLsbD index = false)
    (bitmap : other.bitmap = leaf.bitmap ||| Bitmap.single index)
    (kvs : other.kvs = Function.update leaf.kvs index (some kv))
    (tags : other.tags = Function.update leaf.tags index (ops.hash kv.key)) :
    Keeps ops other (kv :: pairs) := by
  have limit := size.slots_le
  have present : ∀ slot, other.bitmap.getLsbD slot = true →
      slot = index ∨ (slot ≠ index ∧ leaf.bitmap.getLsbD slot = true) := by
    intro slot marked
    rw [bitmap, BitVec.getLsbD_or, Bitmap.getLsbD_single, Bool.or_eq_true, Bool.and_eq_true,
      decide_eq_true_eq, decide_eq_true_eq] at marked
    rcases marked with old | ⟨_, rfl⟩
    · refine .inr ⟨?_, old⟩
      rintro rfl
      rw [empty] at old
      exact absurd old Bool.false_ne_true
    · exact .inl rfl
  refine ⟨?_, ?_, ?_⟩
  · intro slot marked
    rcases present slot marked with rfl | ⟨_, old⟩
    · exact inside
    · exact keeps.bounded slot old
  · intro slot marked
    rw [kvs, tags]
    rcases present slot marked with rfl | ⟨different, old⟩
    · exact ⟨kv, Function.update_self .., Function.update_self ..⟩
    · rw [Function.update_of_ne different, Function.update_of_ne different]
      exact keeps.filled slot old
  · have slots : other.bitmap.slots.Perm (index :: leaf.bitmap.slots) := by
      rw [bitmap]
      exact Bitmap.slots_or_single (by omega) empty
    have loaded : (index :: leaf.bitmap.slots).filterMap other.kvs = kv :: leaf.contents := by
      have rest : leaf.bitmap.slots.filterMap other.kvs = leaf.contents := by
        apply filterMap_congr
        intro slot listed
        have different : slot ≠ index := by
          rintro rfl
          rw [Bitmap.mem_slots, empty] at listed
          exact absurd listed Bool.false_ne_true
        rw [kvs, Function.update_of_ne different]
      have here : other.kvs index = some kv := by rw [kvs, Function.update_self]
      rw [filterMap_cons_some here, rest]
    rw [contents]
    exact (slots.filterMap other.kvs).trans (loaded ▸ keeps.perm.cons kv)

structure SameHead (leaf other : LeafNode size K H V) : Prop where
  control : other.control = leaf.control
  highKey : other.highKey = leaf.highKey
  sibling : other.sibling = leaf.sibling

theorem store_spec (keeps : Keeps ops leaf pairs) (kv : KVPair K V) {index : Nat}
    (inside : index < size.slots) (empty : leaf.bitmap.getLsbD index = false) :
    ∃ stored, leaf.store ops kv index = .ok stored ∧ Keeps ops stored (kv :: pairs) ∧
      SameHead leaf stored := by
  have notMarked : ¬leaf.bitmap.getLsbD index = true := by
    rw [empty]
    exact Bool.false_ne_true
  rw [store, if_neg notMarked]
  exact ⟨_, rfl, keeps.add inside empty rfl rfl rfl, rfl, rfl, rfl⟩

theorem keeps_new (ops : KeyOps K H) (raw : LeafNode size K H V) : Keeps ops (new ops raw) [] where
  bounded slot marked := absurd marked (by simp [new])
  filled slot marked := absurd marked (by simp [new])
  perm := by
    have none : Bitmap.slots 0#64 = [] := Bitmap.slots_eq_nil.mpr rfl
    simp only [contents, new, none, filterMap_nil]
    exact List.Perm.refl _

/-! ## Loading and sorting -/

theorem loadAll_spec (leaf : LeafNode size K H V) (slots : List Nat)
    (filled : ∀ slot ∈ slots, ∃ kv, leaf.kvs slot = some kv) :
    ∃ loaded, leaf.loadAll slots = .ok loaded ∧ loaded.map Prod.fst = slots.filterMap leaf.kvs ∧
      loaded.map Prod.snd = slots ∧ ∀ entry ∈ loaded, leaf.kvs entry.2 = some entry.1 := by
  induction slots with
  | nil => exact ⟨[], rfl, rfl, rfl, fun _ listed => absurd listed not_mem_nil⟩
  | cons slot rest ih =>
    obtain ⟨loaded, result, firsts, seconds, loads⟩ := ih fun other listed =>
      filled other (mem_cons_of_mem slot listed)
    obtain ⟨kv, here⟩ := filled slot mem_cons_self
    refine ⟨(kv, slot) :: loaded, ?_, ?_, ?_, ?_⟩
    · simp only [loadAll, here, result]
      rfl
    · rw [map_cons, firsts, filterMap_cons_some here]
    · rw [map_cons, seconds]
    · rintro entry (_ | ⟨_, listed⟩)
      · exact here
      · exact loads entry listed

theorem filterMap_range_getElem? {Value Image : Type} (values : List Value) (image : Value → Image)
    {read : Nat → Option Image}
    (reads : ∀ index value, values[index]? = some value → read index = some (image value)) :
    (List.range values.length).filterMap read = values.map image := by
  induction values using List.reverseRecOn with
  | nil => rfl
  | append_singleton front last ih =>
    have frontReads : ∀ index value, front[index]? = some value →
        read index = some (image value) := by
      intro index value found
      apply reads
      rw [getElem?_append_left (List.getElem?_eq_some_iff.mp found).1]
      exact found
    have lastRead : read front.length = some (image last) := reads _ _ (by simp)
    rw [length_append, length_singleton, range_succ, filterMap_append,
      ih frontReads, map_append, filterMap_cons_some lastRead]
    rfl

theorem slots_of_full {count : Nat}
    (marked : ∀ slot, leaf.bitmap.getLsbD slot = true ↔ slot < count) :
    leaf.bitmap.slots = List.range count := by
  apply Bitmap.eq_of_increasing (Bitmap.slots_pairwise _) pairwise_lt_range
  apply (perm_ext_iff_of_nodup (Bitmap.slots_nodup _) nodup_range).mpr
  intro slot
  rw [Bitmap.mem_slots, marked, mem_range]

structure Sorted (leaf : LeafNode size K H V) (entries : List (KVPair K V))
    (keys : List (KVPair K V × Nat)) : Prop where
  firsts : keys.map Prod.fst = entries
  seconds : (keys.map Prod.snd).Perm (List.range size.slots)
  loads : ∀ entry ∈ keys, leaf.kvs entry.2 = some entry.1

theorem getLsbD_movedMask {moved : List (KVPair K V × Nat)} (inside : ∀ entry ∈ moved, entry.2 < 64)
    (slot : Nat) : (movedMask moved).getLsbD slot = decide (slot ∈ moved.map Prod.snd) := by
  have general : ∀ mask : Bitmap,
      (moved.foldl (fun mask entry => mask ||| Bitmap.single entry.2) mask).getLsbD slot =
        (mask.getLsbD slot || decide (slot ∈ moved.map Prod.snd)) := by
    induction moved with
    | nil => simp
    | cons entry rest ih =>
      intro mask
      have here : entry.2 < 64 := inside entry mem_cons_self
      rw [foldl_cons, ih fun other listed =>
        inside other (mem_cons_of_mem entry listed), BitVec.getLsbD_or, Bitmap.getLsbD_single,
        map_cons]
      simp only [here, decide_true, Bool.true_and, mem_cons, Bool.decide_or, Bool.or_assoc,
        eq_comm]
  rw [movedMask, general]
  simp

theorem slots_halfFill (size : NodeSize) : (halfFill size).slots = List.range size.half := by
  cases size <;> decide

namespace Sorted

variable {keys : List (KVPair K V × Nat)}

section

variable (sorted : Sorted leaf entries keys)
include sorted

theorem length_eq : keys.length = size.slots := by
  rw [← length_map, sorted.seconds.length_eq, length_range]

theorem slot_lt : ∀ entry ∈ keys, entry.2 < size.slots := by
  intro entry listed
  exact mem_range.mp (sorted.seconds.mem_iff.mp (mem_map_of_mem listed))

theorem seconds_nodup : (keys.map Prod.snd).Nodup :=
  sorted.seconds.nodup_iff.mpr nodup_range

theorem popcount_movedMask : Bitmap.popcount (movedMask (keys.drop size.half)) = size.half := by
  have limit := size.slots_le
  have count := size.slots_eq
  have inside : ∀ entry ∈ keys.drop size.half, entry.2 < 64 := fun entry listed =>
    Nat.lt_of_lt_of_le (sorted.slot_lt entry (mem_of_mem_drop listed)) limit
  have same : (movedMask (keys.drop size.half)).slots.Perm
    ((keys.drop size.half).map Prod.snd) := by
    apply (perm_ext_iff_of_nodup (Bitmap.slots_nodup _) _).mpr
    · intro slot
      rw [Bitmap.mem_slots, getLsbD_movedMask inside, decide_eq_true_eq]
    · rw [map_drop]
      exact sorted.seconds_nodup.sublist (drop_sublist _ _)
  rw [Bitmap.popcount, same.length_eq, length_map, length_drop, sorted.length_eq]
  omega

theorem splitLeft_bits
    (marked : ∀ slot, leaf.bitmap.getLsbD slot = true ↔ slot < size.slots) (address : Ptr)
    (high : H) (slot : Nat) :
    (leaf.splitLeft (keys.drop size.half) address high).bitmap.getLsbD slot = true ↔
      slot < size.slots ∧ slot ∉ (keys.drop size.half).map Prod.snd := by
  have limit := size.slots_le
  have inside : ∀ entry ∈ keys.drop size.half, entry.2 < 64 := fun entry listed =>
    Nat.lt_of_lt_of_le (sorted.slot_lt entry (mem_of_mem_drop listed)) limit
  rw [splitLeft, BitVec.getLsbD_and, Bool.and_eq_true, marked, BitVec.getLsbD_not,
    getLsbD_movedMask inside]
  constructor
  · rintro ⟨below, absent⟩
    exact ⟨below, by simpa using (Bool.and_eq_true_iff.mp absent).2⟩
  · rintro ⟨below, absent⟩
    rw [decide_eq_false absent, decide_eq_true (Nat.lt_of_lt_of_le below limit)]
    exact ⟨below, rfl⟩

theorem splitLeft_keeps (keeps : Keeps ops leaf entries)
    (marked : ∀ slot, leaf.bitmap.getLsbD slot = true ↔ slot < size.slots) (address : Ptr)
    (high : H) :
    Keeps ops (leaf.splitLeft (keys.drop size.half) address high) (entries.take size.half) := by
  have bits := sorted.splitLeft_bits marked address high
  have kept : ∀ slot, slot ∉ (keys.drop size.half).map Prod.snd →
      (leaf.splitLeft (keys.drop size.half) address high).kvs slot = leaf.kvs slot :=
    fun slot absent => if_neg absent
  have split : (keys.take size.half).map Prod.snd ++ (keys.drop size.half).map Prod.snd =
      keys.map Prod.snd := by
    rw [← map_append, take_append_drop]
  have nodup :
    ((keys.take size.half).map Prod.snd ++ (keys.drop size.half).map Prod.snd).Nodup := by
    rw [split]
    exact sorted.seconds_nodup
  refine ⟨fun slot present => ((bits slot).mp present).1, ?_, ?_⟩
  · intro slot present
    obtain ⟨below, absent⟩ := (bits slot).mp present
    rw [kept slot absent]
    exact keeps.filled slot ((marked slot).mpr below)
  · have slots : (leaf.splitLeft (keys.drop size.half) address high).bitmap.slots.Perm
        ((keys.take size.half).map Prod.snd) := by
      apply (perm_ext_iff_of_nodup (Bitmap.slots_nodup _) nodup.of_append_left).mpr
      intro slot
      rw [Bitmap.mem_slots, bits, ← mem_range, ← sorted.seconds.mem_iff, ← split,
        mem_append]
      constructor
      · rintro ⟨left | right, absent⟩
        · exact left
        · exact absurd right absent
      · intro left
        exact ⟨.inl left, fun right => disjoint_of_nodup_append nodup left right⟩
    have loaded : ((keys.take size.half).map Prod.snd).filterMap
        (leaf.splitLeft (keys.drop size.half) address high).kvs =
        (keys.take size.half).map Prod.fst := by
      rw [filterMap_map, ← filterMap_eq_map]
      apply filterMap_congr
      intro entry listed
      have absent : entry.2 ∉ (keys.drop size.half).map Prod.snd := fun right =>
        disjoint_of_nodup_append nodup (mem_map_of_mem listed) right
      exact (kept entry.2 absent).trans (sorted.loads entry (mem_of_mem_take listed))
    rw [contents, ← sorted.firsts, ← map_take]
    exact loaded ▸ slots.filterMap _

theorem splitRight_keeps (keeps : Keeps ops leaf entries)
    (marked : ∀ slot, leaf.bitmap.getLsbD slot = true ↔ slot < size.slots) :
    Keeps ops (leaf.splitRight ops raw (keys.drop size.half)) (entries.drop size.half) := by
  have count := size.slots_eq
  have length : (keys.drop size.half).length = size.half := by
    rw [length_drop, sorted.length_eq]
    omega
  have slots : (leaf.splitRight ops raw (keys.drop size.half)).bitmap.slots =
      List.range (keys.drop size.half).length := by
    rw [length]
    exact slots_halfFill size
  have reads : ∀ slot entry, (keys.drop size.half)[slot]? = some entry →
      (leaf.splitRight ops raw (keys.drop size.half)).kvs slot = some entry.1 ∧
        (leaf.splitRight ops raw (keys.drop size.half)).tags slot = leaf.tags entry.2 := by
    intro slot entry found
    simp only [splitRight, found]
    exact ⟨sorted.loads entry (mem_of_mem_drop (mem_of_getElem? found)), trivial⟩
  have below : ∀ slot, (leaf.splitRight ops raw (keys.drop size.half)).bitmap.getLsbD slot = true →
      slot < (keys.drop size.half).length := by
    intro slot present
    rw [← Bitmap.mem_slots, slots] at present
    exact mem_range.mp present
  refine ⟨?_, ?_, ?_⟩
  · intro slot present
    have := below slot present
    omega
  · intro slot present
    have found := getElem?_eq_getElem (below slot present)
    obtain ⟨loaded, tag⟩ := reads slot _ found
    have listed := mem_of_mem_drop (mem_of_getElem? found)
    obtain ⟨kv, own, ownTag⟩ := keeps.filled _ ((marked _).mpr (sorted.slot_lt _ listed))
    cases (sorted.loads _ listed).symm.trans own
    exact ⟨_, loaded, tag.trans ownTag⟩
  · rw [contents, slots, filterMap_range_getElem? _ Prod.fst fun slot entry found =>
      (reads slot entry found).1, map_drop, sorted.firsts]

end

end Sorted

variable [LinearOrder K]

instance : Std.Total (keyLe (K := K) (V := V)) :=
    ⟨fun left right => le_total left.1.key right.1.key⟩

instance : IsTrans (KVPair K V × Nat) keyLe := ⟨fun _ _ _ => le_trans⟩

theorem map_fst_insertionSort {loaded : List (KVPair K V × Nat)}
    (perm : (loaded.map Prod.fst).Perm entries) (rising : Ascending KVPair.key entries) :
    (loaded.insertionSort keyLe).map Prod.fst = entries := by
  have sortedPerm : ((loaded.insertionSort keyLe).map Prod.fst).Perm entries :=
    ((perm_insertionSort keyLe loaded).map Prod.fst).trans perm
  have sorted : ((loaded.insertionSort keyLe).map Prod.fst).Pairwise
      fun left right => left.key ≤ right.key :=
    pairwise_map.mpr (pairwise_insertionSort keyLe loaded)
  have entriesSorted : entries.Pairwise fun left right => left.key ≤ right.key :=
    List.Pairwise.imp le_of_lt rising
  apply sortedPerm.eq_of_pairwise _ sorted entriesSorted
  intro left right leftListed rightListed below above
  have found := rising.findKey_eq_some.mpr
    ⟨sortedPerm.mem_iff.mp leftListed, le_antisymm below above⟩
  have found' := rising.findKey_eq_some.mpr ⟨rightListed, rfl⟩
  exact Option.some.inj (found.symm.trans found')

theorem Stored.sorted (stored : Stored ops leaf entries) (full : entries.length = size.slots) :
    ∃ loaded, leaf.loadAll (List.range size.slots) = .ok loaded ∧
      Sorted leaf entries (loaded.insertionSort keyLe) := by
  have marked := (stored.keeps.indexLeast0_of_full full).2
  obtain ⟨loaded, result, firsts, seconds, loads⟩ :=
    loadAll_spec leaf (List.range size.slots) fun slot listed =>
      (stored.keeps.filled slot ((marked slot).mpr (mem_range.mp listed))).imp
        fun _ spec => spec.1
  have slots : leaf.bitmap.slots = List.range size.slots := slots_of_full marked
  refine ⟨loaded, result, ?_, ?_, ?_⟩
  · apply map_fst_insertionSort _ stored.ascending
    rw [firsts, ← slots]
    exact stored.keeps.perm
  · rw [← seconds]
    exact (perm_insertionSort keyLe loaded).map Prod.snd
  · intro entry listed
    exact loads entry ((perm_insertionSort keyLe loaded).mem_iff.mp listed)

theorem Represents.of_stored {view : LeafView K H V} (stored : Stored ops leaf view.entries)
    (unordered : leaf.control.ordered = false)
    (link : view.link = if leaf.control.sibling then some leaf.sibling else none)
    (high : view.high = if leaf.control.sibling then some leaf.highKey else none)
    (deleted : leaf.control.deleted = false) : Represents ops leaf view where
  holds := { stored with ordered := fun ordered => absurd (unordered.symm.trans ordered) nofun }
  link := link
  high := high
  deleted := deleted

theorem Stored.place (stored : Stored ops leaf entries)
    (fresh : ∀ other ∈ entries, other.key ≠ kv.key) (keeps : Keeps ops other (kv :: entries)) :
    Stored ops other (place KVPair.key entries kv) where
  keeps := keeps.congr_perm (place_perm entries kv).symm
  ascending := stored.ascending.place fresh

/-! ## `split` and `upsert` -/

section Upsert

variable {view : LeafView K H V} (raw : LeafNode size K H V) (address copy : Ptr)

omit [LinearOrder K] in
theorem announce_keeps (keeps : Keeps ops leaf entries) : Keeps ops (leaf.announce ops) entries :=
  keeps.congr rfl rfl rfl

omit [LinearOrder K] in
theorem announce_flags (ops : KeyOps K H) (leaf : LeafNode size K H V) :
    (leaf.announce ops).control.sibling = leaf.control.sibling ∧
      (leaf.announce ops).control.ordered = leaf.control.ordered ∧
      (leaf.announce ops).control.deleted = leaf.control.deleted := by
  simp only [announce]
  split <;> exact ⟨rfl, rfl, rfl⟩

theorem extend_spec (stored : Stored ops leaf view.entries)
    (unordered : leaf.control.ordered = false)
    (deleted : leaf.control.deleted = false) (high : H) (kv : KVPair K V) :
    ∃ left right, leaf.extend ops raw address high kv = .ok (left, right) ∧
      Represents ops left ⟨view.entries, some high, some address⟩ ∧
      Represents ops right ⟨[kv], none, none⟩ := by
  have half := size.eight_le_half
  have slots := size.slots_eq
  obtain ⟨right, result, rightKeeps, head⟩ := store_spec (keeps_new ops raw) kv
    (show 0 < size.slots by omega) (by simp [new])
  rw [extend, result]
  refine ⟨_, right, rfl, ?_, ?_⟩
  · exact .of_stored ⟨stored.keeps.congr rfl rfl rfl, stored.ascending⟩ unordered rfl rfl deleted
  · apply Represents.of_stored
    · exact ⟨rightKeeps, pairwise_singleton _ _⟩
    · rw [head.control]
      rfl
    · rw [head.control]
      rfl
    · rw [head.control]
      rfl
    · rw [head.control]
      rfl

variable (stored : Stored ops leaf view.entries)
  (fresh : ∀ other ∈ view.entries, other.key ≠ kv.key)
  (unordered : leaf.control.ordered = false)
  (link : view.link = if leaf.control.sibling then some leaf.sibling else none)
  (high : view.high = if leaf.control.sibling then some leaf.highKey else none)
  (deleted : leaf.control.deleted = false)
include stored fresh unordered link high deleted

theorem divide_spec {keys : List (KVPair K V × Nat)} {last : KVPair K V × Nat}
    (sorted : Sorted leaf view.entries keys)
    (marked : ∀ slot, leaf.bitmap.getLsbD slot = true ↔ slot < size.slots)
    (lastKey : keys.getLast? = some last) (middle : K) (bound : H) :
    ∃ left right, leaf.divide ops raw keys address middle bound last.2 kv = .ok (left, right) ∧
      if middle < kv.key then
        Represents ops left ⟨view.entries.take size.half, some bound, some address⟩ ∧
        Represents ops right
          ⟨place KVPair.key (view.entries.drop size.half) kv, view.high, view.link⟩
      else
        Represents ops left
          ⟨place KVPair.key (view.entries.take size.half) kv, some bound, some address⟩ ∧
        Represents ops right ⟨view.entries.drop size.half, view.high, view.link⟩ := by
  have half := size.eight_le_half
  have slots := size.slots_eq
  have entriesLength : view.entries.length = size.slots := by
    rw [← sorted.firsts, length_map, sorted.length_eq]
  have leftStored : Stored ops (leaf.splitLeft (keys.drop size.half) address bound)
      (view.entries.take size.half) :=
    ⟨sorted.splitLeft_keeps stored.keeps marked address bound,
      stored.ascending.sublist (take_sublist _ _)⟩
  have rightStored : Stored ops (leaf.splitRight ops raw (keys.drop size.half))
      (view.entries.drop size.half) :=
    ⟨sorted.splitRight_keeps stored.keeps marked, stored.ascending.sublist (drop_sublist _ _)⟩
  have leftCount : Bitmap.popcount (leaf.splitLeft (keys.drop size.half) address bound).bitmap =
      size.half := by
    rw [leftStored.keeps.popcount_eq, length_take, entriesLength]
    omega
  have leftRepresents : ∀ {left entries},
    SameHead (leaf.splitLeft (keys.drop size.half) address bound) left → Stored ops left entries →
      Represents ops left ⟨entries, some bound, some address⟩ := by
    intro left entries head leftStored
    apply Represents.of_stored leftStored
    · rw [head.control]
      exact unordered
    · rw [head.control, head.sibling]
      rfl
    · rw [head.control, head.highKey]
      rfl
    · rw [head.control]
      exact deleted
  have rightRepresents : ∀ {right entries}, SameHead (leaf.splitRight ops raw (keys.drop size.half))
      right → Stored ops right entries → Represents ops right ⟨entries, view.high, view.link⟩ := by
    intro right entries head rightStored
    have flags : right.control.sibling = leaf.control.sibling ∧ right.control.ordered = false ∧
        right.control.deleted = false := by
      rw [head.control]
      simp only [splitRight]
      cases leaf.control.sibling <;> exact ⟨rfl, rfl, rfl⟩
    apply Represents.of_stored rightStored flags.2.1
    · rw [flags.1, head.sibling]
      exact link
    · rw [flags.1, head.highKey]
      exact high
    · exact flags.2.2
  rw [divide, if_neg (by simp [sorted.popcount_movedMask, leftCount])]
  by_cases above : middle < kv.key
  · have empty : (leaf.splitRight ops raw (keys.drop size.half)).bitmap.getLsbD size.half =
      false := by
      apply eq_false_of_ne_true
      rw [← Bitmap.mem_slots, splitRight, slots_halfFill, mem_range]
      exact Nat.lt_irrefl _
    obtain ⟨right, result, keeps, head⟩ := store_spec rightStored.keeps kv (by omega) empty
    simp only [if_pos above, result]
    refine ⟨_, right, rfl, leftRepresents ⟨rfl, rfl, rfl⟩ leftStored, rightRepresents head ?_⟩
    exact rightStored.place (fun other listed => fresh other (mem_of_mem_drop listed)) keeps
  · have lastMoved : last ∈ keys.drop size.half := by
      apply mem_of_getLast?
      rw [getLast?_drop, if_neg (by rw [sorted.length_eq]; omega), lastKey]
    have empty : (leaf.splitLeft (keys.drop size.half) address bound).bitmap.getLsbD last.2 =
        false := by
      apply eq_false_of_ne_true
      rw [sorted.splitLeft_bits marked]
      exact fun present => present.2 (mem_map_of_mem lastMoved)
    obtain ⟨left, result, keeps, head⟩ := store_spec leftStored.keeps kv
      (sorted.slot_lt last (mem_of_mem_drop lastMoved)) empty
    simp only [if_neg above, result]
    refine ⟨left, _, rfl, leftRepresents head ?_, rightRepresents ⟨rfl, rfl, rfl⟩ rightStored⟩
    exact leftStored.place (fun other listed => fresh other (mem_of_mem_take listed)) keeps

theorem split_spec (full : view.entries.length = size.slots) :
    ∃ left right rightView, leaf.split ops raw address copy kv = .ok (left, right) ∧
      Represents ops left (view.split size ops address copy kv).1 ∧
      (view.split size ops address copy kv).2 = some rightView ∧
      Represents ops right rightView := by
  have half := size.eight_le_half
  have slots := size.slots_eq
  obtain ⟨_, marked⟩ := stored.keeps.indexLeast0_of_full full
  obtain ⟨loaded, loadResult, sorted⟩ := stored.sorted full
  generalize keysEq : loaded.insertionSort keyLe = keys at sorted
  have keysLength := sorted.length_eq
  obtain ⟨front, last, keysSplit⟩ := eq_nil_or_concat keys |>.resolve_left
    (by rintro rfl; simp at keysLength; omega)
  have lastKey : keys.getLast? = some last := by simp [keysSplit]
  obtain ⟨middle, middleKey⟩ : ∃ middle, keys[size.half - 1]? = some middle :=
    ⟨_, getElem?_eq_getElem (by omega)⟩
  have lastEntry : view.entries.getLast? = some last.1 := by
    rw [← sorted.firsts, getLast?_map, lastKey]
    rfl
  have middleEntry : view.entries[size.half - 1]? = some middle.1 := by
    rw [← sorted.firsts, getElem?_map, middleKey]
    rfl
  obtain ⟨sibling, order, deletion⟩ := announce_flags ops leaf
  have announced : Stored ops (leaf.announce ops) view.entries :=
    ⟨announce_keeps stored.keeps, stored.ascending⟩
  have rightmost : view.link = none ↔ leaf.control.sibling = false := by
    rw [link]
    cases leaf.control.sibling <;> simp
  have result : leaf.split ops raw address copy kv =
      if leaf.control.sibling = false ∧ last.1.key < kv.key then
        (leaf.announce ops).extend ops raw address (ops.makeHigh copy last.1.key) kv
      else
        (leaf.announce ops).divide ops raw keys address middle.1.key
          (ops.makeHigh copy middle.1.key) last.2 kv := by
    rw [split, loadResult]
    simp only [bind, Except.bind, keysEq, lastKey, middleKey]
  rw [result]
  simp only [LeafView.split, lastEntry, middleEntry, rightmost]
  by_cases last : leaf.control.sibling = false ∧ last.1.key < kv.key
  · rw [if_pos last, if_pos last]
    obtain ⟨left, right, extended, leftRepresents, rightRepresents⟩ := extend_spec raw address
      announced (order.trans unordered) (deletion.trans deleted) (ops.makeHigh copy _) kv
    exact ⟨left, right, _, extended, leftRepresents, rfl, rightRepresents⟩
  · rw [if_neg last, if_neg last]
    obtain ⟨left, right, divided, represents⟩ := divide_spec raw address announced fresh
      (order.trans unordered) (by rw [sibling]; exact link) (by rw [sibling]; exact high)
      (deletion.trans deleted) ⟨sorted.firsts, sorted.seconds, sorted.loads⟩ marked lastKey
      middle.1.key (ops.makeHigh copy middle.1.key)
    by_cases above : middle.1.key < kv.key
    · rw [if_pos above] at represents ⊢
      exact ⟨left, right, _, divided, represents.1, rfl, represents.2⟩
    · rw [if_neg above] at represents ⊢
      exact ⟨left, right, _, divided, represents.1, rfl, represents.2⟩

omit stored fresh unordered link high deleted

theorem upsert_spec (represents : Represents ops leaf view)
    (bounded : view.entries.length ≤ size.slots) (kv : KVPair K V) :
    ∃ upserted, leaf.upsert ops raw address copy kv = .ok upserted ∧
      upserted.old = (view.upsert size ops address copy kv).1 ∧
      Represents ops upserted.leaf (view.upsert size ops address copy kv).2.1 ∧
      Option.Rel (Represents ops) upserted.rnode (view.upsert size ops address copy kv).2.2 := by
  obtain ⟨holds, link, high, deleted⟩ := represents
  rw [upsert, holds.toStored.searchLatched_eq, LeafView.upsert]
  rcases found : findKey KVPair.key view.entries kv.key with _ | old
  · have fresh := findKey_eq_none.mp found
    have stored : Stored ops ({ leaf with control := leaf.control.updateVersion.clearOrder } :
        LeafNode size K H V) view.entries :=
      ⟨holds.keeps.congr rfl rfl rfl, holds.ascending⟩
    rw [holds.toStored.search_eq_none found]
    simp only [bind, Except.bind]
    by_cases room : view.entries.length < size.slots
    · obtain ⟨index, least, inside, empty⟩ := stored.keeps.indexLeast0_eq room
      have notFull : ¬Bitmap.indexLeast0 leaf.bitmap = fullIdx size := by
        rw [least]
        cases size <;> simp [fullIdx, NodeSize.slots] at inside ⊢ <;> omega
      obtain ⟨left, result, keeps, head⟩ := store_spec stored.keeps kv inside empty
      rw [if_neg notFull, if_pos room, least]
      simp only [result]
      refine ⟨_, rfl, rfl, ?_, .none⟩
      apply Represents.of_stored (stored.place fresh keeps)
      · rw [head.control]
        rfl
      · rw [head.control, head.sibling]
        exact link
      · rw [head.control, head.highKey]
        exact high
      · rw [head.control]
        exact deleted
    · have full : view.entries.length = size.slots := by omega
      obtain ⟨left, right, rightView, result, leftRepresents, rightEq, rightRepresents⟩ :=
        split_spec raw address copy stored fresh rfl link high deleted full
      rw [if_pos (holds.keeps.indexLeast0_of_full full).1, if_neg room, result]
      refine ⟨_, rfl, rfl, leftRepresents, ?_⟩
      rw [rightEq]
      exact .some rightRepresents
  · obtain ⟨slot, present, loaded, result⟩ := holds.toStored.search_eq_some found
    obtain ⟨_, same⟩ := holds.ascending.findKey_eq_some.mp found
    rw [result]
    exact ⟨_, rfl, rfl, ⟨holds.exchange present loaded same, link, high, deleted⟩, .none⟩

end Upsert

end IndexResearch.FBTree.LeafNode
