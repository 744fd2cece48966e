import IndexResearch.FBTree.Levels

/-!
# The chain of the leaves

The leaves partition the keys: the high key of a leaf bounds its own keys and lies
below every key and every high key further right.  Read along the chain, their pairs
are one list sorted by key, and an operation on the leaf that a key leads to is the
operation on that list.
-/

namespace IndexResearch.FBTree

open List

variable {K H V : Type}

namespace Leaves

def ids (leaves : Leaves K H V) : List Ptr := leaves.map LeafCell.id
def bounds (leaves : Leaves K H V) : List H := leaves.filterMap fun leaf => leaf.view.high
def pairs (leaves : Leaves K H V) : List (KVPair K V) :=
    leaves.flatMap fun leaf => leaf.view.entries

@[simp] theorem ids_nil : ids ([] : Leaves K H V) = [] := rfl

@[simp] theorem bounds_nil : bounds ([] : Leaves K H V) = [] := rfl

@[simp] theorem pairs_nil : pairs ([] : Leaves K H V) = [] := rfl

@[simp] theorem ids_cons (leaf : LeafCell K H V) (leaves : Leaves K H V) :
    ids (leaf :: leaves) = leaf.id :: ids leaves := rfl

@[simp] theorem ids_append (left right : Leaves K H V) :
    ids (left ++ right) = ids left ++ ids right := map_append

@[simp] theorem bounds_cons (leaf : LeafCell K H V) (leaves : Leaves K H V) :
    bounds (leaf :: leaves) = leaf.view.high.toList ++ bounds leaves := by
  rw [bounds, bounds, filterMap_cons]
  cases leaf.view.high with
  | none => rfl
  | some high => rfl

@[simp] theorem bounds_append (left right : Leaves K H V) :
    bounds (left ++ right) = bounds left ++ bounds right := filterMap_append

@[simp] theorem pairs_cons (leaf : LeafCell K H V) (leaves : Leaves K H V) :
    pairs (leaf :: leaves) = leaf.view.entries ++ pairs leaves := flatMap_cons

@[simp] theorem pairs_append (left right : Leaves K H V) :
    pairs (left ++ right) = pairs left ++ pairs right := flatMap_append

end Leaves

variable [LinearOrder K] {keyOf : H → K} {size : NodeSize}

structure LeafCell.Sound (keyOf : H → K) (size : NodeSize) (leaf : LeafCell K H V) : Prop where
  ascending : Ascending KVPair.key leaf.view.entries
  bounded : leaf.view.entries.length ≤ size.slots
  below : ∀ high, leaf.view.high = some high → ∀ kv ∈ leaf.view.entries, kv.key ≤ keyOf high
  high_eq_none : leaf.view.high = none ↔ leaf.view.link = none
  filled : leaf.view.link ≠ none → leaf.view.entries ≠ []

/-- The range of `right` lies above that of `left`. -/
def LeafCell.Before (keyOf : H → K) (left right : LeafCell K H V) : Prop :=
  ∀ high, left.view.high = some high → (∀ kv ∈ right.view.entries, keyOf high < kv.key) ∧
    ∀ other, right.view.high = some other → keyOf high < keyOf other

structure Leaves.Chain (keyOf : H → K) (size : NodeSize) (leaves : Leaves K H V) : Prop where
  nonempty : leaves ≠ []
  linked : Linked LeafCell.id (fun leaf => leaf.view.link) none leaves
  sound : ∀ leaf ∈ leaves, leaf.Sound keyOf size
  ordered : leaves.Pairwise (LeafCell.Before keyOf)

theorem Leaves.chain_empty (id : Ptr) :
    Leaves.Chain keyOf size [(⟨id, [], none, none⟩ : LeafCell K H V)] := by
  refine ⟨nofun, ⟨rfl, trivial⟩, ?_, pairwise_singleton _ _⟩
  intro leaf listed
  obtain rfl := mem_singleton.mp listed
  exact ⟨List.Pairwise.nil, Nat.zero_le _, nofun, by simp, fun sibling => absurd rfl sibling⟩

structure LocatedLeaf (keyOf : H → K) (key : K) (before : Leaves K H V) (leaf : LeafCell K H V)
    (after : Leaves K H V) : Prop where
  smaller : ∀ kv ∈ before.pairs, kv.key < key
  larger : ∀ kv ∈ after.pairs, key < kv.key
  passed : ∀ other ∈ before, ∀ high, other.view.high = some high → keyOf high < key
  stops : ∀ high, leaf.view.high = some high → key ≤ keyOf high
  beyond : ∀ bound ∈ after.bounds, key < keyOf bound

namespace Leaves.Chain

variable {leaves before after : Leaves K H V} {leaf : LeafCell K H V} {key : K}

section

variable (chain : Chain keyOf size (before ++ leaf :: after))
include chain

theorem link_eq_none : leaf.view.link = none ↔ after = [] :=
  chain.linked.link_eq_none

theorem high_isSome (later : after ≠ []) : ∃ high, leaf.view.high = some high := by
  have sound := chain.sound leaf (by simp)
  apply Option.ne_none_iff_exists'.mp
  rw [ne_eq, sound.high_eq_none, chain.link_eq_none]
  exact later

theorem before_isSome : ∀ other ∈ before, ∃ high, other.view.high = some high := by
  intro other listed
  obtain ⟨front, back, rfl⟩ := append_of_mem listed
  rw [append_assoc, cons_append] at chain
  exact chain.high_isSome (by simp)

theorem length_bounds_before : before.bounds.length = before.ids.length := by
  rw [ids, length_map, bounds]
  apply filterMap_length_eq_length.mpr
  intro other listed
  obtain ⟨high, highEq⟩ := chain.before_isSome other listed
  rw [highEq]
  rfl

end

theorem exists_leafOf (chain : Chain keyOf size leaves) (key : K) :
    ∃ (before : Leaves K H V) (leaf : LeafCell K H V) (after : Leaves K H V),
      focus (fun leaf => stopsAt keyOf key leaf.view.high) leaves = some (before, leaf, after) := by
  obtain ⟨front, last, split⟩ := eq_nil_or_concat leaves |>.resolve_left chain.nonempty
  rw [concat_eq_append] at split
  have stop : stopsAt keyOf key last.view.high = true := by
    have sound := chain.sound last (by simp [split])
    rw [split] at chain
    rw [sound.high_eq_none.mpr (chain.link_eq_none.mpr rfl)]
    rfl
  exact exists_focus (show last ∈ leaves by simp [split]) stop

theorem located (chain : Chain keyOf size leaves)
    (found : focus (fun leaf => stopsAt keyOf key leaf.view.high) leaves =
      some (before, leaf, after)) :
    leaves = before ++ leaf :: after ∧ LocatedLeaf keyOf key before leaf after := by
  obtain ⟨rfl, passed, stop⟩ := focus_eq_some.mp found
  obtain ⟨_, rest, _⟩ := pairwise_append.mp chain.ordered
  have beforePassed : ∀ other ∈ before, ∀ high, other.view.high = some high → keyOf high < key := by
    intro other listed high highEq
    have go := passed other listed
    simpa [stopsAt, highEq] using go
  have leafStops : ∀ high, leaf.view.high = some high → key ≤ keyOf high := by
    intro high highEq
    simpa [stopsAt, highEq] using stop
  refine ⟨rfl, ?_, ?_, beforePassed, leafStops, ?_⟩
  · intro kv listed
    obtain ⟨other, otherListed, kvListed⟩ := mem_flatMap.mp listed
    obtain ⟨high, highEq⟩ := chain.before_isSome other otherListed
    have sound := chain.sound other (mem_append_left _ otherListed)
    exact lt_of_le_of_lt (sound.below high highEq kv kvListed)
      (beforePassed other otherListed high highEq)
  · intro kv listed
    obtain ⟨other, otherListed, kvListed⟩ := mem_flatMap.mp listed
    obtain ⟨high, highEq⟩ := chain.high_isSome (ne_nil_of_mem otherListed)
    have above := ((pairwise_cons.mp rest).1 other otherListed high highEq).1 kv kvListed
    exact lt_of_le_of_lt (leafStops high highEq) above
  · intro bound listed
    obtain ⟨other, otherListed, boundEq⟩ := mem_filterMap.mp listed
    obtain ⟨high, highEq⟩ := chain.high_isSome (ne_nil_of_mem otherListed)
    have above := ((pairwise_cons.mp rest).1 other otherListed high highEq).2 bound boundEq
    exact lt_of_le_of_lt (leafStops high highEq) above

theorem pairs_lt (chain : Chain keyOf size (before ++ leaf :: after)) :
    ∀ kv ∈ leaf.view.entries, ∀ other ∈ after.pairs, kv.key < other.key := by
  intro kv kvListed other listed
  obtain ⟨right, rightListed, otherListed⟩ := mem_flatMap.mp listed
  obtain ⟨high, highEq⟩ := chain.high_isSome (ne_nil_of_mem rightListed)
  obtain ⟨_, rest, _⟩ := pairwise_append.mp chain.ordered
  have above := ((pairwise_cons.mp rest).1 right rightListed high highEq).1 other otherListed
  exact lt_of_le_of_lt ((chain.sound leaf (by simp)).below high highEq kv kvListed) above

theorem ascending_pairs (chain : Chain keyOf size leaves) : Ascending KVPair.key leaves.pairs := by
  have suffixes : ∀ before rest : Leaves K H V, Chain keyOf size (before ++ rest) →
      Ascending KVPair.key rest.pairs := by
    intro before rest
    induction rest generalizing before with
    | nil => exact fun _ => List.Pairwise.nil
    | cons leaf after ih =>
      intro chain
      rw [pairs_cons, ascending_append]
      refine ⟨(chain.sound leaf (by simp)).ascending, ?_, chain.pairs_lt⟩
      rw [append_cons] at chain
      exact ih _ chain
  exact suffixes [] leaves chain

theorem ascending_bounds (chain : Chain keyOf size leaves) : Ascending keyOf leaves.bounds := by
  rw [Ascending, bounds, pairwise_filterMap]
  apply List.Pairwise.imp _ chain.ordered
  intro left right before high highEq other otherEq
  exact (before high highEq).2 other otherEq

theorem patch (old new : Leaves K H V) (chain : Chain keyOf size (before ++ (old ++ after)))
    (newNonempty : new ≠ []) (heads : new.head?.map LeafCell.id = old.head?.map LeafCell.id)
    (linked : Linked LeafCell.id (fun leaf => leaf.view.link) (after.head?.map LeafCell.id) new)
    (sound : ∀ leaf ∈ new, leaf.Sound keyOf size) (ordered : new.Pairwise (LeafCell.Before keyOf))
    (above : ∀ left ∈ before, ∀ leaf ∈ new, left.Before keyOf leaf)
    (below : ∀ leaf ∈ new, ∀ right ∈ after, leaf.Before keyOf right) :
    Chain keyOf size (before ++ (new ++ after)) where
  nonempty := by simp [newNonempty]
  linked := chain.linked.patch newNonempty heads (by simpa using linked)
  sound := by
    intro leaf listed
    rcases mem_append.mp listed with inBefore | inRest
    · exact chain.sound leaf (mem_append_left _ inBefore)
    · rcases mem_append.mp inRest with inNew | inAfter
      · exact sound leaf inNew
      · exact chain.sound leaf (mem_append_right _ (mem_append_right _ inAfter))
  ordered := by
    obtain ⟨beforeOrdered, rest, across⟩ := pairwise_append.mp chain.ordered
    obtain ⟨_, afterOrdered, _⟩ := pairwise_append.mp rest
    apply pairwise_append.mpr
    refine ⟨beforeOrdered, pairwise_append.mpr ⟨ordered, afterOrdered, below⟩, ?_⟩
    intro left leftListed right rightListed
    rcases mem_append.mp rightListed with inNew | inAfter
    · exact above left leftListed right inNew
    · exact across left leftListed right (mem_append_right _ inAfter)

end Leaves.Chain

/-! ## Steps of one leaf -/

theorem LocatedLeaf.absent {before after : Leaves K H V} {leaf : LeafCell K H V} {key : K}
    (located : LocatedLeaf keyOf key before leaf after)
    (fresh : ∀ other ∈ leaf.view.entries, other.key ≠ key) :
    ∀ other ∈ Leaves.pairs (before ++ leaf :: after), other.key ≠ key := by
  intro other listed
  rw [Leaves.pairs_append, Leaves.pairs_cons, mem_append, mem_append] at listed
  rcases listed with inBefore | inLeaf | inAfter
  · exact ne_of_lt (located.smaller other inBefore)
  · exact fresh other inLeaf
  · exact ne_of_gt (located.larger other inAfter)

variable {ops : KeyOps K H}

namespace LeafView

/-- What `split` makes of a full leaf: `left` keeps the keys up to `middle`. -/
structure SplitInto (size : NodeSize) (ops : KeyOps K H) (view : LeafView K H V)
    (address copy : Ptr) (kv : KVPair K V) (left right : List (KVPair K V)) (middle : K) :
    Prop where
  result : view.split size ops address copy kv =
    (⟨left, some (ops.makeHigh copy middle), some address⟩, some ⟨right, view.high, view.link⟩)
  pairs : left ++ right = place KVPair.key view.entries kv
  left_le : ∀ other ∈ left, other.key ≤ middle
  right_gt : ∀ other ∈ right, middle < other.key
  middle_mem : ∃ other ∈ left, other.key = middle
  left_bounded : left.length ≤ size.slots
  right_bounded : right.length ≤ size.slots
  left_half : size.half ≤ left.length
  right_half : view.link ≠ none → size.half ≤ right.length
  right_ne_nil : right ≠ []

theorem exists_splitInto (ops : KeyOps K H) {view : LeafView K H V} (address copy : Ptr)
    {kv : KVPair K V} (rising : Ascending KVPair.key view.entries)
    (full : view.entries.length = size.slots) (last : view.high = none ↔ view.link = none)
    (fresh : ∀ other ∈ view.entries, other.key ≠ kv.key) :
    ∃ left right middle, SplitInto size ops view address copy kv left right middle := by
  have half := size.eight_le_half
  have slots := size.slots_eq
  have nonempty : view.entries ≠ [] := by
    intro empty
    rw [empty, length_nil] at full
    omega
  obtain ⟨final, finalEq⟩ : ∃ final, view.entries.getLast? = some final :=
    ⟨_, getLast?_eq_some_getLast nonempty⟩
  have inside : size.half - 1 < view.entries.length := by omega
  have middleEq : view.entries[size.half - 1]? = some view.entries[size.half - 1] :=
    getElem?_eq_getElem inside
  generalize view.entries[size.half - 1] = middle at middleEq
  have takeEq : view.entries.take size.half = view.entries.take (size.half - 1) ++ [middle] := by
    have step := take_add_one (l := view.entries) (i := size.half - 1)
    rwa [middleEq, Option.toList_some, Nat.sub_add_cancel (by omega)] at step
  by_cases rightmost : view.link = none ∧ final.key < kv.key
  · refine ⟨view.entries, [kv], final.key, ?_, ?_, rising.le_getLast finalEq, ?_, ?_,
      le_of_eq full, ?_, by omega, fun sibling => absurd rightmost.1 sibling, by simp⟩
    · rw [split, finalEq, middleEq]
      simp only [if_pos rightmost]
      rw [last.mpr rightmost.1, rightmost.1]
    · have smaller : ∀ other ∈ view.entries, other.key < kv.key := fun other listed =>
        lt_of_le_of_lt (rising.le_getLast finalEq other listed) rightmost.2
      rw [place, rankIn_eq_length smaller, insertAt, take_length, drop_length]
    · intro other listed
      rw [mem_singleton.mp listed]
      exact rightmost.2
    · exact ⟨final, mem_of_getLast? finalEq, rfl⟩
    · simp only [length_singleton]
      omega
  · have splitAscending := rising
    rw [← take_append_drop size.half view.entries] at splitAscending
    obtain ⟨leftAscending, _, across⟩ := ascending_append.mp splitAscending
    have middleListed : middle ∈ view.entries.take size.half := by simp [takeEq]
    have leftLe : ∀ other ∈ view.entries.take size.half, other.key ≤ middle.key :=
      leftAscending.le_getLast (by simp [takeEq])
    have rightGt : ∀ other ∈ view.entries.drop size.half, middle.key < other.key :=
      across middle middleListed
    have leftLength : (view.entries.take size.half).length = size.half := by
      rw [length_take]
      omega
    have rightLength : (view.entries.drop size.half).length = size.half := by
      rw [length_drop]
      omega
    by_cases goesRight : middle.key < kv.key
    · refine ⟨view.entries.take size.half, place KVPair.key (view.entries.drop size.half) kv,
        middle.key, ?_, ?_, leftLe, ?_, ⟨middle, middleListed, rfl⟩, by omega, ?_, by omega, ?_, ?_⟩
      · rw [split, finalEq, middleEq]
        simp only [if_neg rightmost, if_pos goesRight]
      · have between : place KVPair.key
            (view.entries.take size.half ++ (view.entries.drop size.half ++ [])) kv = _ :=
          place_between (fun other listed => lt_of_le_of_lt (leftLe other listed) goesRight)
            (fun other listed => absurd listed not_mem_nil)
        simpa using between.symm
      · intro other listed
        rcases mem_cons.mp ((place_perm _ _).mem_iff.mp listed) with rfl | old
        · exact goesRight
        · exact rightGt other old
      · rw [length_place]
        omega
      · intro _
        rw [length_place]
        omega
      · exact ne_nil_of_length_pos (by rw [length_place]; omega)
    · have below : kv.key < middle.key :=
        lt_of_le_of_ne (le_of_not_gt goesRight)
          (Ne.symm (fresh middle (mem_of_mem_take middleListed)))
      refine ⟨place KVPair.key (view.entries.take size.half) kv, view.entries.drop size.half,
        middle.key, ?_, ?_, ?_, rightGt, ?_, ?_, by omega, ?_, fun _ => by omega, ?_⟩
      · rw [split, finalEq, middleEq]
        simp only [if_neg rightmost, if_neg goesRight]
      · have between : place KVPair.key
            ([] ++ (view.entries.take size.half ++ view.entries.drop size.half)) kv = _ :=
          place_between (fun other listed => absurd listed not_mem_nil)
            (fun other listed => lt_trans below (rightGt other listed))
        simpa using between.symm
      · intro other listed
        rcases mem_cons.mp ((place_perm _ _).mem_iff.mp listed) with rfl | old
        · exact le_of_lt below
        · exact leftLe other old
      · exact ⟨middle, (place_perm _ _).mem_iff.mpr (mem_cons_of_mem _ middleListed), rfl⟩
      · rw [length_place]
        omega
      · rw [length_place]
        omega
      · exact ne_nil_of_length_pos (by omega)

end LeafView

inductive LeafCell.Removes (size : NodeSize) (leaf : LeafCell K H V) :
    Leaves K H V → K → Option (KVPair K V) × LeafView K H V × Option H → Prop
  | absent {after : Leaves K H V} {key : K}
      (unbound : findKey KVPair.key leaf.view.entries key = none) :
      Removes size leaf after key (none, leaf.view, none)
  | erased {after : Leaves K H V} {key : K} {previous : KVPair K V}
      (bound : findKey KVPair.key leaf.view.entries key = some previous)
      (filled : leaf.view.link ≠ none → eraseKey KVPair.key leaf.view.entries key ≠ []) :
      Removes size leaf after key (some previous,
        { leaf.view with entries := eraseKey KVPair.key leaf.view.entries key }, none)
  | merged {right : LeafCell K H V} {after : Leaves K H V} {key : K} {previous : KVPair K V}
    {high : H} (bound : findKey KVPair.key leaf.view.entries key = some previous)
      (highEq : leaf.view.high = some high)
      (small : (eraseKey KVPair.key leaf.view.entries key).length + right.view.entries.length ≤
        size.slots) :
      Removes size leaf (right :: after) key (some previous,
        ⟨eraseKey KVPair.key leaf.view.entries key ++ right.view.entries, right.view.high,
          right.view.link⟩, some high)

/-! ## Steps of the chain of leaves -/

namespace Leaves.Chain

variable {leaves before after : Leaves K H V} {leaf right : LeafCell K H V} {key : K}
  {entries : List (KVPair K V)}

section

variable (chain : Chain keyOf size (before ++ leaf :: after))
include chain

theorem withEntries (rising : Ascending KVPair.key entries) (bounded : entries.length ≤ size.slots)
    (filled : leaf.view.link ≠ none → entries ≠ [])
    (inRange : ∀ kv ∈ entries, kv ∈ leaf.view.entries ∨
      ((∀ other ∈ before, ∀ high, other.view.high = some high → keyOf high < kv.key) ∧
        ∀ high, leaf.view.high = some high → kv.key ≤ keyOf high)) :
    Chain keyOf size
      (before ++ ⟨leaf.id, { leaf.view with entries := entries }⟩ :: after) := by
  have sound := chain.sound leaf (by simp)
  obtain ⟨_, rest, across⟩ := pairwise_append.mp chain.ordered
  have linked := (linked_append.mp chain.linked).2
  refine patch [leaf] [_] chain nofun rfl ⟨?_, trivial⟩ ?_ (pairwise_singleton _ _) ?_ ?_
  · simpa [Linked] using linked.1
  · intro other listed
    obtain rfl := mem_singleton.mp listed
    refine ⟨rising, bounded, ?_, sound.high_eq_none, filled⟩
    intro high highEq kv kvListed
    rcases inRange kv kvListed with old | ⟨_, stops⟩
    · exact sound.below high highEq kv old
    · exact stops high highEq
  · intro left leftListed other listed
    obtain rfl := mem_singleton.mp listed
    have beforeLeaf := across left leftListed leaf mem_cons_self
    intro high highEq
    refine ⟨?_, (beforeLeaf high highEq).2⟩
    intro kv kvListed
    rcases inRange kv kvListed with old | ⟨passed, _⟩
    · exact (beforeLeaf high highEq).1 kv old
    · exact passed left leftListed high highEq
  · intro other listed right rightListed
    obtain rfl := mem_singleton.mp listed
    exact (pairwise_cons.mp rest).1 right rightListed

theorem replaced {kv : KVPair K V} (located : LocatedLeaf keyOf kv.key before leaf after) :
    Chain keyOf size (before ++ ⟨leaf.id,
      { leaf.view with entries := replace KVPair.key leaf.view.entries kv }⟩ :: after) := by
  have sound := chain.sound leaf (by simp)
  have sameLength : (replace KVPair.key leaf.view.entries kv).length = leaf.view.entries.length :=
    length_replace _ _
  apply chain.withEntries sound.ascending.replace (sameLength ▸ sound.bounded)
  · intro sibling empty
    rw [empty] at sameLength
    exact sound.filled sibling (eq_nil_of_length_eq_zero sameLength.symm)
  · intro pair listed
    rcases mem_replace.mp listed with ⟨old, _⟩ | ⟨rfl, _⟩
    · exact .inl old
    · exact .inr ⟨located.passed, located.stops⟩

theorem placed {kv : KVPair K V} (located : LocatedLeaf keyOf kv.key before leaf after)
    (fresh : ∀ other ∈ leaf.view.entries, other.key ≠ kv.key)
    (room : leaf.view.entries.length < size.slots) :
    Chain keyOf size (before ++ ⟨leaf.id,
      { leaf.view with entries := place KVPair.key leaf.view.entries kv }⟩ :: after) := by
  have sound := chain.sound leaf (by simp)
  have placedLength : (place KVPair.key leaf.view.entries kv).length = leaf.view.entries.length +
    1 :=
    length_place _ _
  apply chain.withEntries (sound.ascending.place fresh)
  · omega
  · exact fun _ => ne_nil_of_length_pos (by omega)
  · intro pair listed
    rcases mem_cons.mp ((place_perm _ _).mem_iff.mp listed) with rfl | old
    · exact .inr ⟨located.passed, located.stops⟩
    · exact .inl old

theorem erased (filled : leaf.view.link ≠ none → eraseKey KVPair.key leaf.view.entries key ≠ []) :
    Chain keyOf size (before ++ ⟨leaf.id,
      { leaf.view with entries := eraseKey KVPair.key leaf.view.entries key }⟩ :: after) := by
  have sound := chain.sound leaf (by simp)
  apply chain.withEntries sound.ascending.eraseKey _ filled
  · exact fun kv listed => .inl (mem_eraseKey.mp listed).1
  · exact (length_filter_le _ _).trans sound.bounded

end

theorem split {kv : KVPair K V} {left rest : List (KVPair K V)} {middle : K} {address copy : Ptr}
    (lawful : ops.highKey (ops.makeHigh copy middle) = middle)
    (chain : Chain ops.highKey size (before ++ leaf :: after))
    (located : LocatedLeaf ops.highKey kv.key before leaf after)
    (fresh : ∀ other ∈ leaf.view.entries, other.key ≠ kv.key)
    (into : LeafView.SplitInto size ops leaf.view address copy kv left rest middle) :
    Chain ops.highKey size
      (before ++ ⟨leaf.id, left, some (ops.makeHigh copy middle), some address⟩ ::
        ⟨address, rest, leaf.view.high, leaf.view.link⟩ :: after) := by
  have sound := chain.sound leaf (by simp)
  obtain ⟨_, others, across⟩ := pairwise_append.mp chain.ordered
  have linked := (linked_append.mp chain.linked).2
  have rising := sound.ascending.place fresh
  rw [← into.pairs] at rising
  obtain ⟨leftAscending, restAscending, _⟩ := ascending_append.mp rising
  have member : ∀ other ∈ left ++ rest, other = kv ∨ other ∈ leaf.view.entries := by
    intro other listed
    rw [into.pairs] at listed
    exact mem_cons.mp ((place_perm _ _).mem_iff.mp listed)
  have above : ∀ other ∈ before, ∀ high, other.view.high = some high →
      ∀ pair ∈ left ++ rest, ops.highKey high < pair.key := by
    intro other listed high highEq pair pairListed
    rcases member pair pairListed with rfl | old
    · exact located.passed other listed high highEq
    · exact (across other listed leaf mem_cons_self high highEq).1 pair old
  have below : ∀ high, leaf.view.high = some high → ∀ pair ∈ left ++ rest,
      pair.key ≤ ops.highKey high := by
    intro high highEq pair pairListed
    rcases member pair pairListed with rfl | old
    · exact located.stops high highEq
    · exact sound.below high highEq pair old
  obtain ⟨witness, witnessListed, witnessKey⟩ := into.middle_mem
  have middleBelow : ∀ high, leaf.view.high = some high → middle < ops.highKey high := by
    intro high highEq
    obtain ⟨pair, more, restEq⟩ := exists_cons_of_ne_nil into.right_ne_nil
    have pairListed : pair ∈ rest := by simp [restEq]
    exact lt_of_lt_of_le (into.right_gt pair pairListed)
      (below high highEq pair (mem_append_right _ pairListed))
  refine patch [leaf] [_, _] chain nofun rfl ⟨rfl, ?_, trivial⟩ ?_ ?_ ?_ ?_
  · simpa [Linked] using linked.1
  · intro other listed
    rcases mem_cons.mp listed with rfl | later
    · refine ⟨leftAscending, into.left_bounded, ?_, by simp, ?_⟩
      · rintro high highEq pair pairListed
        cases highEq
        rw [lawful]
        exact into.left_le pair pairListed
      · exact fun _ => ne_nil_of_mem witnessListed
    · obtain rfl := mem_singleton.mp later
      refine ⟨restAscending, into.right_bounded, ?_, sound.high_eq_none, fun _ => into.right_ne_nil⟩
      exact fun high highEq pair pairListed =>
        below high highEq pair (mem_append_right _ pairListed)
  · rw [pairwise_pair]
    rintro high highEq
    cases highEq
    rw [lawful]
    exact ⟨into.right_gt, middleBelow⟩
  · intro other listed new newListed high highEq
    rcases mem_cons.mp newListed with rfl | later
    · refine ⟨fun pair pairListed => above other listed high highEq pair
        (mem_append_left _ pairListed), ?_⟩
      rintro newHigh newHighEq
      cases newHighEq
      rw [lawful, ← witnessKey]
      exact above other listed high highEq witness (mem_append_left _ witnessListed)
    · obtain rfl := mem_singleton.mp later
      exact ⟨fun pair pairListed => above other listed high highEq pair
        (mem_append_right _ pairListed),
        (across other listed leaf mem_cons_self high highEq).2⟩
  · intro new newListed other listed
    have leafBefore := (pairwise_cons.mp others).1 other listed
    rcases mem_cons.mp newListed with rfl | later
    · rintro high highEq
      cases highEq
      obtain ⟨leafHigh, leafHighEq⟩ := chain.high_isSome (ne_nil_of_mem listed)
      have step := middleBelow leafHigh leafHighEq
      rw [lawful]
      exact ⟨fun pair pairListed => lt_trans step
        ((leafBefore leafHigh leafHighEq).1 pair pairListed), fun otherHigh otherHighEq =>
          lt_trans step ((leafBefore leafHigh leafHighEq).2 otherHigh otherHighEq)⟩
    · obtain rfl := mem_singleton.mp later
      exact leafBefore

theorem upserted {kv : KVPair K V}
    (lawful : ∀ copy key, ops.highKey (ops.makeHigh copy key) = key) (address copy : Ptr)
    (chain : Chain ops.highKey size (before ++ leaf :: after))
    (located : LocatedLeaf ops.highKey kv.key before leaf after) :
    ∃ old view right, leaf.view.upsert size ops address copy kv = (old, view, right) ∧
      Chain ops.highKey size
        (before ++ ⟨leaf.id, view⟩ :: ((right.map (LeafCell.mk address)).toList ++ after)) ∧
      match old with
      | none => (∀ other ∈ leaf.view.entries, other.key ≠ kv.key) ∧
          view.entries ++ (right.map LeafView.entries).getD [] =
            place KVPair.key leaf.view.entries kv
      | some previous => previous ∈ leaf.view.entries ∧ previous.key = kv.key ∧ right = none ∧
          view.entries = replace KVPair.key leaf.view.entries kv := by
  have sound := chain.sound leaf (by simp)
  rw [LeafView.upsert]
  rcases bound : findKey KVPair.key leaf.view.entries kv.key with _ | previous
  · have fresh := findKey_eq_none.mp bound
    by_cases room : leaf.view.entries.length < size.slots
    · simp only [if_pos room]
      exact ⟨_, _, _, rfl, chain.placed located fresh room, fresh, by simp⟩
    · have full : leaf.view.entries.length = size.slots :=
        Nat.le_antisymm sound.bounded (not_lt.mp room)
      obtain ⟨left, rest, middle, into⟩ := LeafView.exists_splitInto ops address copy
        sound.ascending full sound.high_eq_none fresh
      simp only [if_neg room, into.result]
      exact ⟨_, _, _, rfl, chain.split (lawful copy middle) located fresh into, fresh, into.pairs⟩
  · obtain ⟨listed, same⟩ := sound.ascending.findKey_eq_some.mp bound
    exact ⟨_, _, _, rfl, chain.replaced located, listed, same, rfl, rfl⟩

theorem absorb (chain : Chain keyOf size (before ++ leaf :: right :: after))
    (rising : Ascending KVPair.key entries) (kept : ∀ kv ∈ entries, kv ∈ leaf.view.entries)
    (bounded : entries.length + right.view.entries.length ≤ size.slots) :
    Chain keyOf size (before ++
      ⟨leaf.id, entries ++ right.view.entries, right.view.high, right.view.link⟩ :: after) := by
  have sound := chain.sound leaf (by simp)
  have rightSound := chain.sound right (by simp)
  obtain ⟨_, others, across⟩ := pairwise_append.mp chain.ordered
  obtain ⟨leafBefore, afterOrdered⟩ := pairwise_cons.mp others
  have linked := (linked_append.mp chain.linked).2
  obtain ⟨high, highEq⟩ := chain.high_isSome (by simp)
  have step := leafBefore right (by simp) high highEq
  have entriesBelow : ∀ kv ∈ entries, kv.key ≤ keyOf high := fun kv listed =>
    sound.below high highEq kv (kept kv listed)
  refine patch [leaf, right] [_] chain nofun rfl ⟨?_, trivial⟩ ?_
    (pairwise_singleton _ _) ?_ ?_
  · simpa [Linked] using linked.2.1
  · intro other listed
    obtain rfl := mem_singleton.mp listed
    refine ⟨?_, by simpa using bounded, ?_, rightSound.high_eq_none, ?_⟩
    · apply ascending_append.mpr
      refine ⟨rising, rightSound.ascending, ?_⟩
      exact fun kv kvListed pair pairListed =>
        lt_of_le_of_lt (entriesBelow kv kvListed) (step.1 pair pairListed)
    · intro rightHigh rightHighEq kv kvListed
      rcases mem_append.mp kvListed with inLeaf | inRight
      · exact le_of_lt (lt_of_le_of_lt (entriesBelow kv inLeaf) (step.2 rightHigh rightHighEq))
      · exact rightSound.below rightHigh rightHighEq kv inRight
    · intro sibling empty
      exact rightSound.filled sibling (append_eq_nil_iff.mp empty).2
  · intro left leftListed other listed leftHigh leftHighEq
    obtain rfl := mem_singleton.mp listed
    have toLeaf := across left leftListed leaf mem_cons_self leftHigh leftHighEq
    have toRight := across left leftListed right (by simp) leftHigh leftHighEq
    refine ⟨?_, toRight.2⟩
    intro kv kvListed
    rcases mem_append.mp kvListed with inLeaf | inRight
    · exact toLeaf.1 kv (kept kv inLeaf)
    · exact toRight.1 kv inRight
  · intro other listed next nextListed
    obtain rfl := mem_singleton.mp listed
    exact (pairwise_cons.mp afterOrdered).1 next nextListed

theorem removed (chain : Chain keyOf size (before ++ leaf :: after)) (key : K) :
    LeafCell.Removes size leaf after key
      (leaf.view.remove size (after.head?.map LeafCell.view) key) := by
  rw [LeafView.remove]
  rcases bound : findKey KVPair.key leaf.view.entries key with _ | previous
  · exact .absent bound
  · cases after with
    | nil => exact .erased bound fun sibling => absurd (chain.link_eq_none.mpr rfl) sibling
    | cons right rest =>
      obtain ⟨high, highEq⟩ := chain.high_isSome (by simp)
      have half := size.slots_eq
      have bounded := (chain.sound right (by simp)).bounded
      simp only [head?_cons, Option.map_some]
      by_cases small : (eraseKey KVPair.key leaf.view.entries key).length +
          right.view.entries.length ≤ size.half ∨
          (eraseKey KVPair.key leaf.view.entries key).length = 0
      · rw [if_pos small, highEq]
        exact .merged bound highEq (by omega)
      · rw [if_neg small]
        exact .erased bound fun _ empty => small (.inr (length_eq_zero_iff.mpr empty))

end Leaves.Chain

theorem Levels.leafOf_eq_some {levels : Levels K H V} {before after : Leaves K H V}
    {leaf : LeafCell K H V} {key : K}
    (found : levels.leafOf keyOf key = some (before, leaf, after)) :
    levels.leaves = before ++ leaf :: after :=
  (focus_eq_some.mp found).1

end IndexResearch.FBTree
