import IndexResearch.FBTree.LeafNode.Vacated

/-!
# Leaves without an order of keys

What the operations on a leaf keep whatever keys they are called with: the marked slots hold
pairs with their tags, and a leaf that has a sibling is not left empty.
-/

namespace IndexResearch.FBTree.LeafNode

open List

variable {size : NodeSize} {K H V : Type} {ops : KeyOps K H}
  {leaf other raw right : LeafNode size K H V} {pairs : List (KVPair K V)} {kv : KVPair K V}

structure Filled (ops : KeyOps K H) (leaf : LeafNode size K H V) : Prop where
  bounded : ∀ slot, leaf.bitmap.getLsbD slot = true → slot < size.slots
  filled : ∀ slot, leaf.bitmap.getLsbD slot = true →
    ∃ kv, leaf.kvs slot = some kv ∧ leaf.tags slot = ops.hash kv.key

def Occupied (leaf : LeafNode size K H V) : Prop :=
  ∃ slot kv, leaf.bitmap.getLsbD slot = true ∧ leaf.kvs slot = some kv

theorem Keeps.toFilled (keeps : Keeps ops leaf pairs) : Filled ops leaf :=
  ⟨keeps.bounded, keeps.filled⟩

theorem Filled.keeps (filled : Filled ops leaf) : Keeps ops leaf leaf.contents :=
  ⟨filled.bounded, filled.filled, .refl _⟩

theorem Keeps.occupied (keeps : Keeps ops leaf pairs) (nonempty : pairs ≠ []) : Occupied leaf := by
  obtain ⟨kv, rest, rfl⟩ := exists_cons_of_ne_nil nonempty
  obtain ⟨slot, present, loaded⟩ := keeps.mem_iff.mp mem_cons_self
  exact ⟨slot, kv, present, loaded⟩

theorem Filled.exchange (filled : Filled ops leaf) {slot : Nat}
    {old : KVPair K V} (loaded : leaf.kvs slot = some old) (same : old.key = kv.key) :
    Filled ops (leaf.exchange slot kv) := by
  refine ⟨filled.bounded, ?_⟩
  intro pos present
  by_cases here : pos = slot
  · subst here
    obtain ⟨found, sameLoaded, tag⟩ := filled.filled pos present
    cases loaded.symm.trans sameLoaded
    exact ⟨kv, Function.update_self .., same ▸ tag⟩
  · obtain ⟨found, foundLoaded, tag⟩ := filled.filled pos present
    exact ⟨found, (Function.update_of_ne here ..).trans foundLoaded, tag⟩

theorem store_eq_ok {index : Nat} (keeps : Keeps ops leaf pairs) (inside : index < size.slots)
    (result : leaf.store ops kv index = .ok other) :
    Keeps ops other (kv :: pairs) ∧ SameHead leaf other := by
  rcases empty : leaf.bitmap.getLsbD index with _ | _
  · obtain ⟨stored, same, spec⟩ := store_spec keeps kv inside empty
    cases same.symm.trans result
    exact spec
  · rw [store, if_pos empty] at result
    cases result

/-! ## Absorbing the right sibling -/

theorem merge_fits (rightFilled : Filled ops right)
    (small : Bitmap.popcount leaf.bitmap + Bitmap.popcount right.bitmap ≤ size.half ∨
      Bitmap.popcount leaf.bitmap = 0) :
    Bitmap.popcount leaf.bitmap + Bitmap.popcount right.bitmap ≤ size.slots := by
  have slots := size.slots_eq
  have rightLength := rightFilled.keeps.length_le
  rw [← rightFilled.keeps.popcount_eq] at rightLength
  omega

structure MergedForm (ops : KeyOps K H) (leaf right left rest : LeafNode size K H V) (this : Ptr)
    (merged : Option H) : Prop where
  filled : Filled ops left
  deleted_eq : left.control.deleted = leaf.control.deleted
  apart : merged = none → left.control.sibling = leaf.control.sibling ∧
    left.sibling = leaf.sibling ∧ (leaf.control.sibling = true → Occupied left)
  joined : merged.isSome → leaf.control.sibling = true ∧
    left.control.sibling = right.control.sibling ∧ left.sibling = right.sibling ∧
    (Occupied right → Occupied left) ∧ rest.control.deleted = true ∧ rest.sibling = this

theorem merge_form (filled : Filled ops leaf) (rightFilled : leaf.control.sibling = true →
      Filled ops right) (this : Ptr) :
    ∃ left rest merged, leaf.merge right this = .ok (left, rest, merged) ∧
      MergedForm ops leaf right left rest this merged ∧ (merged.isSome →
        Bitmap.popcount left.bitmap = Bitmap.popcount leaf.bitmap +
        Bitmap.popcount right.bitmap) := by
  rw [merge]
  split
  · rename_i flagged
    dsimp only
    split
    · rename_i small
      have fits := merge_fits (rightFilled flagged) small
      rw [filled.keeps.popcount_eq] at fits
      obtain ⟨left, rest, moves, keeps, head, control⟩ := moveIn_spec filled.keeps
        right.bitmap.slots_nodup (fun slot listed =>
          (rightFilled flagged).filled slot (Bitmap.mem_slots.mp listed)) fits
      rw [moves]
      have counted : Bitmap.popcount left.bitmap =
          Bitmap.popcount leaf.bitmap + Bitmap.popcount right.bitmap := by
        rw [keeps.popcount_eq, length_append, filled.keeps.popcount_eq,
          (rightFilled flagged).keeps.popcount_eq]
        rfl
      refine ⟨_, _, _, rfl, ⟨⟨keeps.toFilled.bounded, keeps.toFilled.filled⟩, ?_, (by simp),
        fun _ => ?_⟩, fun _ => counted⟩
      · simp only [head.control]
        split <;> rfl
      · refine ⟨flagged, ?_, rfl, ?_, rfl, rfl⟩
        · simp only [head.control]
          cases right.control.sibling with
          | true => simp [flagged]
          | false => simp [Control.clearSibling]
        · rintro ⟨slot, kv, present, loaded⟩
          have listed : kv ∈ right.bitmap.slots.filterMap right.kvs :=
            mem_filterMap.mpr ⟨slot, Bitmap.mem_slots.mpr present, loaded⟩
          have occupied := keeps.occupied (append_ne_nil_of_right_ne_nil _
            (ne_nil_of_mem listed))
          exact occupied
    · rename_i large
      refine ⟨_, _, _, rfl, ⟨filled, rfl, fun _ => ⟨rfl, rfl, fun _ => ?_⟩, (by simp)⟩, (by simp)⟩
      apply filled.keeps.occupied
      apply ne_nil_of_length_pos
      rw [← filled.keeps.popcount_eq]
      omega
  · rename_i unflagged
    exact ⟨_, _, _, rfl, ⟨filled, rfl,
      fun _ => ⟨rfl, rfl, fun flagged => absurd flagged unflagged⟩, (by simp)⟩, (by simp)⟩

theorem Filled.clear (filled : Filled ops leaf) (slot : Nat)
    (bitmap : other.bitmap = leaf.bitmap &&& ~~~Bitmap.single slot)
    (kvs : other.kvs = Function.update leaf.kvs slot none) (tags : other.tags = leaf.tags) :
    Filled ops other := by
  have bits : ∀ pos, other.bitmap.getLsbD pos = true →
      leaf.bitmap.getLsbD pos = true ∧ pos ≠ slot := by
    intro pos marked
    rw [bitmap, Bitmap.getLsbD_clear, Bool.and_eq_true] at marked
    exact ⟨marked.1, fun same => by simp [same] at marked⟩
  refine ⟨fun pos marked => filled.bounded pos (bits pos marked).1, ?_⟩
  intro pos marked
  rw [kvs, Function.update_of_ne (bits pos marked).2, tags]
  exact filled.filled pos (bits pos marked).1

variable [LinearOrder K]

/-! ## Insertion -/

theorem Filled.searchLatched_eq (filled : Filled ops leaf) (key : K) :
    leaf.searchLatched key (leaf.candidates ops key) =
      .ok (leaf.search key (leaf.candidates ops key)) := by
  apply LeafNode.searchLatched_eq
  intro slot candidate
  obtain ⟨kv, loaded, _⟩ := filled.filled slot (mem_candidates.mp candidate).1
  exact ⟨kv, loaded⟩

theorem Filled.sorted (filled : Filled ops leaf)
    (full : Bitmap.indexLeast0 leaf.bitmap = fullIdx size) :
    ∃ loaded, leaf.loadAll (List.range size.slots) = .ok loaded ∧
      Sorted leaf ((loaded.insertionSort keyLe).map Prod.fst) (loaded.insertionSort keyLe) ∧
      Keeps ops leaf ((loaded.insertionSort keyLe).map Prod.fst) ∧
      ∀ slot, leaf.bitmap.getLsbD slot = true ↔ slot < size.slots := by
  have marked := (filled.keeps.indexLeast0_of_full (filled.keeps.full_of_indexLeast0 full)).2
  obtain ⟨loaded, result, firsts, seconds, loads⟩ :=
    loadAll_spec leaf (List.range size.slots) fun slot listed =>
      (filled.filled slot ((marked slot).mpr (mem_range.mp listed))).imp fun _ spec => spec.1
  have perm := perm_insertionSort keyLe loaded
  refine ⟨loaded, result, ⟨rfl, ?_, ?_⟩, ?_, marked⟩
  · rw [← seconds]
    exact perm.map Prod.snd
  · exact fun entry listed => loads entry (perm.mem_iff.mp listed)
  · apply filled.keeps.congr_perm
    have slots : leaf.bitmap.slots = List.range size.slots := slots_of_full marked
    rw [contents, slots, ← firsts]
    exact (perm.map Prod.fst).symm

structure Halves (ops : KeyOps K H) (leaf : LeafNode size K H V) (address : Ptr)
    (left right : LeafNode size K H V) : Prop where
  filled : Filled ops left
  occupied : Occupied left
  deleted_eq : left.control.deleted = leaf.control.deleted
  sibling : left.control.sibling = true
  next_eq : left.sibling = address
  rightFilled : Filled ops right
  rightOccupied : Occupied right
  rightDeleted : right.control.deleted = false
  rightSibling : right.control.sibling = leaf.control.sibling
  rightNext : leaf.control.sibling = true → right.sibling = leaf.sibling

theorem divide_halves {keys : List (KVPair K V × Nat)} {last : KVPair K V × Nat} {address : Ptr}
    {middle : K} {bound : H} {left rnode : LeafNode size K H V}
    (sorted : Sorted leaf (keys.map Prod.fst) keys) (keeps : Keeps ops leaf (keys.map Prod.fst))
    (marked : ∀ slot, leaf.bitmap.getLsbD slot = true ↔ slot < size.slots) (listed : last ∈ keys)
    (result : leaf.divide ops raw keys address middle bound last.2 kv = .ok (left, rnode)) :
    Halves ops leaf address left rnode := by
  have half := size.eight_le_half
  have slots := size.slots_eq
  have length := sorted.length_eq
  have leftKeeps := sorted.splitLeft_keeps keeps marked address bound
  have rightKeeps : Keeps ops (leaf.splitRight ops raw (keys.drop size.half))
      ((keys.map Prod.fst).drop size.half) := sorted.splitRight_keeps keeps marked
  have leftPairs : (keys.map Prod.fst).take size.half ≠ [] := by
    apply ne_nil_of_length_pos
    rw [length_take, length_map]
    omega
  have rightPairs : (keys.map Prod.fst).drop size.half ≠ [] := by
    apply ne_nil_of_length_pos
    rw [length_drop, length_map]
    omega
  have flags : (leaf.splitRight ops raw (keys.drop size.half)).control.sibling =
      leaf.control.sibling ∧
      (leaf.splitRight ops raw (keys.drop size.half)).control.deleted = false := by
    simp only [splitRight]
    cases leaf.control.sibling <;> exact ⟨rfl, rfl⟩
  have both : ∀ {left right leftPairs rightPairs},
      SameHead (leaf.splitLeft (keys.drop size.half) address bound) left →
        Keeps ops left leftPairs →
      leftPairs ≠ [] → SameHead (leaf.splitRight ops raw (keys.drop size.half)) right →
      Keeps ops right rightPairs → rightPairs ≠ [] → Halves ops leaf address left right := by
    intro left right leftPairs rightPairs leftHead leftKeeps leftSome rightHead rightKeeps rightSome
    refine ⟨leftKeeps.toFilled, leftKeeps.occupied leftSome, ?_, ?_, leftHead.sibling,
      rightKeeps.toFilled, rightKeeps.occupied rightSome, ?_, ?_, fun _ => rightHead.sibling⟩
    · rw [leftHead.control]
      rfl
    · rw [leftHead.control]
      rfl
    · rw [rightHead.control]
      exact flags.2
    · rw [rightHead.control]
      exact flags.1
  rw [divide] at result
  split at result
  · cases result
  · split at result
    · obtain ⟨right, stored, same⟩ := map_eq_ok.mp result
      cases same
      obtain ⟨added, head⟩ := store_eq_ok rightKeeps (by omega) stored
      exact both ⟨rfl, rfl, rfl⟩ leftKeeps leftPairs head added (cons_ne_nil _ _)
    · obtain ⟨leftNode, stored, same⟩ := map_eq_ok.mp result
      cases same
      obtain ⟨added, head⟩ := store_eq_ok leftKeeps (sorted.slot_lt last listed) stored
      exact both head added (cons_ne_nil _ _) ⟨rfl, rfl, rfl⟩ rightKeeps rightPairs

theorem split_halves {address copy : Ptr} {left rnode : LeafNode size K H V}
    (filled : Filled ops leaf) (full : Bitmap.indexLeast0 leaf.bitmap = fullIdx size)
    (result : leaf.split ops raw address copy kv = .ok (left, rnode)) :
    Halves ops leaf address left rnode := by
  have half := size.eight_le_half
  have slots := size.slots_eq
  obtain ⟨loaded, loads, sorted, keeps, marked⟩ := filled.sorted full
  obtain ⟨sibling, _, deleted⟩ := announce_flags ops leaf
  rw [split, loads] at result
  obtain ⟨_, ⟨⟩, result⟩ := bind_eq_ok.mp result
  dsimp only at result
  split at result
  · rename_i last middle lastKey _
    split at result
    · rename_i rightmost
      obtain ⟨rnode, stored, same⟩ := map_eq_ok.mp result
      cases same
      obtain ⟨added, head⟩ := store_eq_ok (keeps_new ops raw) (by omega) stored
      have pairsSome : (loaded.insertionSort keyLe).map Prod.fst ≠ [] := by
        apply ne_nil_of_length_pos
        rw [length_map, sorted.length_eq]
        omega
      refine ⟨⟨filled.bounded, filled.filled⟩, keeps.occupied pairsSome, deleted, rfl, rfl,
        added.toFilled, added.occupied (cons_ne_nil _ _), ?_, ?_, ?_⟩
      · rw [head.control]
        rfl
      · rw [head.control, rightmost.1]
        rfl
      · intro flagged
        exact absurd (rightmost.1.symm.trans flagged) (by simp)
    · have announced : Sorted (leaf.announce ops) ((loaded.insertionSort keyLe).map Prod.fst)
          (loaded.insertionSort keyLe) := ⟨sorted.firsts, sorted.seconds, sorted.loads⟩
      have halves := divide_halves announced (announce_keeps keeps) marked
        (mem_of_getLast? lastKey) result
      exact { halves with
        deleted_eq := halves.deleted_eq.trans deleted
        rightSibling := halves.rightSibling.trans sibling
        rightNext := fun flagged => halves.rightNext (sibling.trans flagged) }
  · cases result

/-- What an `upsert` leaves. -/
structure UpsertedForm (ops : KeyOps K H) (leaf : LeafNode size K H V) (address : Ptr)
    (upserted : Upserted size K H V) : Prop where
  filled : Filled ops upserted.leaf
  occupied : Occupied upserted.leaf
  deleted_eq : upserted.leaf.control.deleted = leaf.control.deleted
  whole : upserted.rnode = none → upserted.leaf.control.sibling = leaf.control.sibling ∧
    upserted.leaf.sibling = leaf.sibling
  halves : ∀ rnode, upserted.rnode = some rnode → Halves ops leaf address upserted.leaf rnode

theorem upsert_form {address copy : Ptr} {upserted : Upserted size K H V}
    (filled : Filled ops leaf) (result : leaf.upsert ops raw address copy kv = .ok upserted) :
    UpsertedForm ops leaf address upserted := by
  rw [upsert, filled.searchLatched_eq] at result
  obtain ⟨_, ⟨⟩, result⟩ := bind_eq_ok.mp result
  rcases leaf.search_spec kv.key (leaf.candidates ops kv.key) with
    ⟨slot, old, candidate, loaded, same, found⟩ | ⟨_, found⟩
  · rw [found] at result
    cases result
    refine ⟨filled.exchange loaded same, ⟨slot, kv, (mem_candidates.mp candidate).1, ?_⟩, rfl,
      fun _ => ⟨rfl, rfl⟩, (by simp)⟩
    exact Function.update_self ..
  · rw [found] at result
    dsimp only at result
    have released : Filled ops ({ leaf with control := leaf.control.updateVersion.clearOrder } :
        LeafNode size K H V) := ⟨filled.bounded, filled.filled⟩
    split at result
    · rename_i full
      obtain ⟨⟨left, rnode⟩, splits, ends⟩ := bind_eq_ok.mp result
      cases ends
      have halves := split_halves released full splits
      refine ⟨halves.filled, halves.occupied, halves.deleted_eq, (by simp), ?_⟩
      intro other same
      cases same
      exact { halves with }
    · rename_i notFull
      split at result
      · rename_i index least
        obtain ⟨left, stores, ends⟩ := bind_eq_ok.mp result
        cases ends
        have room : leaf.contents.length < size.slots := by
          apply Nat.lt_of_le_of_ne filled.keeps.length_le
          exact fun whole => notFull (filled.keeps.indexLeast0_of_full whole).1
        obtain ⟨first, least', inside, _⟩ := filled.keeps.indexLeast0_eq room
        cases least'.symm.trans least
        obtain ⟨added, head⟩ := store_eq_ok released.keeps inside stores
        refine ⟨added.toFilled, added.occupied (cons_ne_nil _ _), ?_, ?_, (by simp)⟩
        · rw [head.control]
          rfl
        · rw [head.control, head.sibling]
          exact fun _ => ⟨rfl, rfl⟩
      · cases result

theorem update_form (filled : Filled ops leaf) (kv : KVPair K V) :
    Filled ops (leaf.update ops kv).2 ∧ (Occupied leaf → Occupied (leaf.update ops kv).2) ∧
      (leaf.update ops kv).2.control = leaf.control ∧
      (leaf.update ops kv).2.sibling = leaf.sibling := by
  rw [update]
  rcases leaf.search_spec kv.key (leaf.candidates ops kv.key) with
    ⟨slot, old, candidate, loaded, same, found⟩ | ⟨_, found⟩
  · rw [found]
    refine ⟨filled.exchange loaded same, fun _ => ?_, rfl, rfl⟩
    exact ⟨slot, kv, (mem_candidates.mp candidate).1, Function.update_self ..⟩
  · rw [found]
    exact ⟨filled, id, rfl, rfl⟩

/-! ## Removal -/

theorem remove_form (filled : Filled ops leaf)
    (rightFilled : leaf.control.sibling = true → Filled ops right)
    (occupied : leaf.control.sibling = true → Occupied leaf) (this : Ptr) (key : K) :
    ∃ detached, leaf.remove ops right this key = .ok detached ∧
      MergedForm ops leaf right detached.leaf detached.right this detached.merged ∧
      (detached.merged.isSome → Bitmap.popcount detached.leaf.bitmap + 1 =
        Bitmap.popcount leaf.bitmap + Bitmap.popcount right.bitmap) := by
  rw [remove, filled.searchLatched_eq]
  rcases leaf.search_spec key (leaf.candidates ops key) with
    ⟨slot, old, candidate, loaded, same, found⟩ | ⟨_, found⟩
  · rw [found]
    simp only [ok_bind]
    generalize emptiedEq : ({ leaf with
      control := leaf.control.updateVersion
      bitmap := leaf.bitmap &&& ~~~Bitmap.single slot
      kvs := Function.update leaf.kvs slot none } : LeafNode size K H V) = emptied
    have emptiedFilled : Filled ops emptied := by
      apply filled.clear slot <;> rw [← emptiedEq]
    have flag : emptied.control.sibling = leaf.control.sibling := by
      rw [← emptiedEq]
      rfl
    have deletion : emptied.control.deleted = leaf.control.deleted := by
      rw [← emptiedEq]
      rfl
    have next : emptied.sibling = leaf.sibling := by rw [← emptiedEq]
    have count : Bitmap.popcount leaf.bitmap = Bitmap.popcount emptied.bitmap + 1 := by
      rw [← emptiedEq]
      exact (Bitmap.slots_clear (mem_candidates.mp candidate).1).length_eq
    obtain ⟨left, rest, merged, result, form, counted⟩ := merge_form emptiedFilled
      (fun flagged => rightFilled (flag.symm.trans flagged)) this
    rw [result]
    refine ⟨_, rfl, ⟨⟨form.filled.bounded, form.filled.filled⟩, form.deleted_eq.trans deletion,
      ?_, ?_⟩, ?_⟩
    · rw [← flag, ← next]
      exact form.apart
    · rw [← flag]
      exact form.joined
    · intro joined
      have total := counted joined
      simp only [count, total]
      omega
  · rw [found]
    exact ⟨_, rfl, ⟨filled, rfl, fun _ => ⟨rfl, rfl, occupied⟩, (by simp)⟩, (by simp)⟩

end IndexResearch.FBTree.LeafNode
