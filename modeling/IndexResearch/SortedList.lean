import Mathlib.Tactic

/-!
# Lists sorted by a key

A finite map with ordered keys is a list whose keys increase.  The position of a key
is the number of smaller keys; insertion at that position keeps the order, and the
element of a key is found by membership.
-/

namespace IndexResearch

open List Function

universe u v

variable {Item : Type u} {Key : Type v} [LinearOrder Key] {keyOf : Item → Key}

def rankIn (keyOf : Item → Key) (items : List Item) (key : Key) : Nat :=
  items.countP fun item => decide (keyOf item < key)

def Ascending (keyOf : Item → Key) (items : List Item) : Prop :=
  items.Pairwise fun left right => keyOf left < keyOf right

instance (keyOf : Item → Key) (items : List Item) : Decidable (Ascending keyOf items) :=
  inferInstanceAs (Decidable (items.Pairwise _))

def findKey (keyOf : Item → Key) (items : List Item) (key : Key) : Option Item :=
  items.find? fun item => decide (keyOf item = key)

def insertAt (items : List Item) (index : Nat) (item : Item) : List Item :=
  items.take index ++ item :: items.drop index

def place (keyOf : Item → Key) (items : List Item) (item : Item) : List Item :=
  insertAt items (rankIn keyOf items (keyOf item)) item

def replace (keyOf : Item → Key) (items : List Item) (item : Item) : List Item :=
  items.map fun other => if keyOf other = keyOf item then item else other

def eraseKey (keyOf : Item → Key) (items : List Item) (key : Key) : List Item :=
  items.filter fun item => decide (keyOf item ≠ key)

/-! ## Positions -/

theorem rankIn_le_length (items : List Item) (key : Key) : rankIn keyOf items key ≤ items.length :=
  countP_le_length

theorem rankIn_append (left right : List Item) (key : Key) :
    rankIn keyOf (left ++ right) key = rankIn keyOf left key + rankIn keyOf right key :=
  countP_append

variable {Other : Type*} {items : List Item} {key : Key} {item : Item}

theorem rankIn_map (read : Other → Item) (items : List Other) (key : Key) :
    rankIn keyOf (items.map read) key = rankIn (fun other => keyOf (read other)) items key :=
  countP_map

theorem ascending_map {read : Other → Item} {items : List Other} :
    Ascending keyOf (items.map read) ↔ Ascending (fun other => keyOf (read other)) items :=
  pairwise_map

theorem rankIn_eq_length
    (smaller : ∀ item ∈ items, keyOf item < key) : rankIn keyOf items key = items.length :=
  countP_eq_length.mpr fun item listed => decide_eq_true (smaller item listed)

theorem rankIn_eq_zero (notSmaller : ∀ item ∈ items, ¬keyOf item < key) :
    rankIn keyOf items key = 0:=
  countP_eq_zero.mpr fun item listed below =>
    notSmaller item listed (of_decide_eq_true below)

theorem rankIn_eq {index : Nat} (bounded : index ≤ items.length)
    (smaller : ∀ item ∈ items.take index, keyOf item < key)
    (notSmaller : ∀ item ∈ items.drop index, ¬keyOf item < key) :
    rankIn keyOf items key = index := by
  rw [← take_append_drop index items, rankIn_append, rankIn_eq_length smaller,
    rankIn_eq_zero notSmaller, length_take, Nat.min_eq_left bounded, Nat.add_zero]

theorem rankIn_eq_of_positions {index : Nat} (bounded : index ≤ items.length)
    (smaller : ∀ pos item, pos < index → items[pos]? = some item → keyOf item < key)
    (notSmaller : ∀ pos item, index ≤ pos → items[pos]? = some item →
      ¬keyOf item < key) : rankIn keyOf items key = index := by
  apply rankIn_eq bounded
  · intro item listed
    obtain ⟨pos, found⟩ := mem_iff_getElem?.mp listed
    have before : pos < index := by
      by_contra outside
      rw [getElem?_take_eq_none (not_lt.mp outside)] at found
      cases found
    rw [getElem?_take_of_lt before] at found
    exact smaller pos item before found
  · intro item listed
    obtain ⟨pos, found⟩ := mem_iff_getElem?.mp listed
    rw [getElem?_drop] at found
    exact notSmaller (index + pos) item (Nat.le_add_right _ _) found

theorem Ascending.lt_of_getElem? {first second : Nat} {left right : Item}
    (rising : Ascending keyOf items) (before : first < second)
    (leftEq : items[first]? = some left) (rightEq : items[second]? = some right) :
    keyOf left < keyOf right := by
  obtain ⟨firstInside, rfl⟩ := List.getElem?_eq_some_iff.mp leftEq
  obtain ⟨secondInside, rfl⟩ := List.getElem?_eq_some_iff.mp rightEq
  exact pairwise_iff_getElem.mp rising first second firstInside secondInside before

theorem append_inj_of_rank {left right left' right' : List Item}
    (same : left ++ right = left' ++ right')
    (smaller : ∀ item ∈ left, keyOf item < key) (notSmaller : ∀ item ∈ right, ¬keyOf item < key)
    (smaller' : ∀ item ∈ left', keyOf item < key)
    (notSmaller' : ∀ item ∈ right', ¬keyOf item < key) : left = left' ∧ right = right' := by
  apply append_inj same
  have ranks := congrArg (rankIn keyOf · key) same
  simp only [rankIn_append, rankIn_eq_length smaller, rankIn_eq_length smaller',
    rankIn_eq_zero notSmaller, rankIn_eq_zero notSmaller', Nat.add_zero] at ranks
  exact ranks

theorem ascending_append {left right : List Item} :
    Ascending keyOf (left ++ right) ↔ Ascending keyOf left ∧ Ascending keyOf right ∧
      ∀ item ∈ left, ∀ other ∈ right, keyOf item < keyOf other :=
  pairwise_append

theorem Ascending.getLast?_dropLast_ne (rising : Ascending keyOf items)
    (nonempty : items ≠ []) : items.dropLast.getLast? ≠ items.getLast? := by
  intro same
  obtain ⟨front, last, split⟩ := (eq_nil_or_concat items).resolve_left nonempty
  rw [concat_eq_append] at split
  subst split
  rw [dropLast_concat, getLast?_concat] at same
  have below := (ascending_append.mp rising).2.2 last (mem_of_getLast? same) last
    (mem_singleton_self last)
  exact lt_irrefl _ below

theorem ascending_cons :
    Ascending keyOf (item :: items) ↔
      (∀ other ∈ items, keyOf item < keyOf other) ∧ Ascending keyOf items :=
  pairwise_cons

namespace Ascending

variable {items : List Item} {key : Key}

section

variable (rising : Ascending keyOf items)
include rising

theorem le_getLast {last : Item}
    (lastEq : items.getLast? = some last) : ∀ item ∈ items, keyOf item ≤ keyOf last := by
  obtain ⟨front, rfl⟩ := getLast?_eq_some_iff.mp lastEq
  obtain ⟨_, _, across⟩ := ascending_append.mp rising
  intro item listed
  rcases mem_append.mp listed with earlier | here
  · exact le_of_lt (across item earlier last mem_cons_self)
  · exact le_of_eq (congrArg keyOf (mem_singleton.mp here))

theorem take_lt (key : Key) : ∀ item ∈ items.take (rankIn keyOf items key), keyOf item < key := by
  induction items with
  | nil => exact fun item listed => absurd listed not_mem_nil
  | cons head tail ih =>
    obtain ⟨headBelow, tailAscending⟩ := pairwise_cons.mp rising
    by_cases below : keyOf head < key
    · have rank : rankIn keyOf (head :: tail) key = rankIn keyOf tail key + 1 :=
        countP_cons_of_pos (decide_eq_true below)
      rw [rank, take_succ_cons]
      rintro item (_ | ⟨_, listed⟩)
      · exact below
      · exact ih tailAscending item listed
    · have rank : rankIn keyOf (head :: tail) key = 0 := by
        apply rankIn_eq_zero
        rintro item (_ | ⟨_, listed⟩)
        · exact below
        · exact fun smaller => below (lt_trans (headBelow item listed) smaller)
      rw [rank]
      exact fun item listed => absurd listed not_mem_nil

theorem drop_not_lt (key : Key) :
    ∀ item ∈ items.drop (rankIn keyOf items key), ¬keyOf item < key := by
  have total : rankIn keyOf (items.take (rankIn keyOf items key) ++
      items.drop (rankIn keyOf items key)) key = _ := rankIn_append _ _ key
  rw [take_append_drop, rankIn_eq_length (rising.take_lt key), length_take,
    Nat.min_eq_left (rankIn_le_length items key)] at total
  have none : rankIn keyOf (items.drop (rankIn keyOf items key)) key = 0 := by omega
  exact fun item listed below => countP_eq_zero.mp none item listed (decide_eq_true below)

theorem findKey_eq_some {item : Item} :
    findKey keyOf items key = some item ↔ item ∈ items ∧ keyOf item = key := by
  constructor
  · intro found
    have passes := find?_some (p := fun item => decide (keyOf item = key)) found
    exact ⟨mem_of_find?_eq_some found, of_decide_eq_true passes⟩
  · rintro ⟨listed, rfl⟩
    induction items with
    | nil => exact absurd listed not_mem_nil
    | cons head tail ih =>
      obtain ⟨headBelow, tailAscending⟩ := pairwise_cons.mp rising
      rcases mem_cons.mp listed with rfl | later
      · exact find?_cons_of_pos (decide_eq_true rfl)
      · have different : ¬keyOf head = keyOf item := ne_of_lt (headBelow item later)
        rw [findKey, find?_cons_of_neg (by simpa using different)]
        exact ih tailAscending later

end

end Ascending

theorem findKey_eq_none : findKey keyOf items key = none ↔ ∀ item ∈ items, keyOf item ≠ key := by
  simp [findKey]

theorem Ascending.filter_le (rising : Ascending keyOf items) (key : Key) :
    (items.filter fun item => decide (key ≤ keyOf item)) = items.drop (rankIn keyOf items key) := by
  have none : ((items.take (rankIn keyOf items key)).filter fun item => decide (key ≤ keyOf item)) =
      [] := by
    apply filter_eq_nil_iff.mpr
    intro item listed above
    exact absurd (rising.take_lt key item listed) (not_lt_of_ge (of_decide_eq_true above))
  have all : ((items.drop (rankIn keyOf items key)).filter fun item => decide (key ≤ keyOf item)) =
      items.drop (rankIn keyOf items key) := by
    apply filter_eq_self.mpr
    exact fun item listed => decide_eq_true (le_of_not_gt (rising.drop_not_lt key item listed))
  have split := filter_append (p := fun item => decide (key ≤ keyOf item))
    (items.take (rankIn keyOf items key)) (items.drop (rankIn keyOf items key))
  rwa [take_append_drop, none, all] at split

theorem Ascending.takeWhile_lt (rising : Ascending keyOf items) (key : Key) :
    (items.takeWhile fun item => decide (keyOf item < key)) =
      items.filter fun item => decide (keyOf item < key) := by
  induction items with
  | nil => rfl
  | cons item rest ih =>
    obtain ⟨before, restAscending⟩ := ascending_cons.mp rising
    by_cases below : keyOf item < key
    · simp only [takeWhile_cons, filter_cons, below, decide_true, if_true,
        ih restAscending]
    · have none : (rest.filter fun item => decide (keyOf item < key)) = [] := by
        apply filter_eq_nil_iff.mpr
        intro other listed otherBelow
        exact below (lt_trans (before other listed) (of_decide_eq_true otherBelow))
      simp only [takeWhile_cons, filter_cons, below, decide_false, Bool.false_eq_true,
        if_false, none]

theorem Ascending.replace_eq_set {index : Nat} {old : Item}
    (rising : Ascending keyOf items) (found : items[index]? = some old)
    (same : keyOf old = keyOf item) :
    IndexResearch.replace keyOf items item = items.set index item := by
  obtain ⟨inside, _⟩ := List.getElem?_eq_some_iff.mp found
  apply ext_getElem?
  intro pos
  rw [IndexResearch.replace, getElem?_map]
  rcases Nat.lt_trichotomy pos index with before | rfl | after
  · rw [getElem?_set_ne (Nat.ne_of_gt before)]
    cases here : items[pos]? with
    | none => rfl
    | some other =>
      have smaller := rising.lt_of_getElem? before here found
      exact congrArg some (if_neg (ne_of_lt (same ▸ smaller)))
  · rw [getElem?_set_self inside, found]
    exact congrArg some (if_pos same)
  · rw [getElem?_set_ne (Nat.ne_of_lt after)]
    cases here : items[pos]? with
    | none => rfl
    | some other =>
      have larger := rising.lt_of_getElem? after found here
      exact congrArg some (if_neg (ne_of_gt (same ▸ larger)))

theorem Ascending.lt_rankIn_iff {pos : Nat}
    (rising : Ascending keyOf items) (found : items[pos]? = some item) :
    pos < rankIn keyOf items key ↔ keyOf item < key := by
  constructor
  · intro before
    apply rising.take_lt key item
    apply mem_of_getElem? (i := pos)
    rw [getElem?_take_of_lt before, found]
  · intro smaller
    by_contra after
    apply rising.drop_not_lt key item _ smaller
    apply mem_of_getElem? (i := pos - rankIn keyOf items key)
    rw [getElem?_drop, Nat.add_sub_cancel' (not_lt.mp after), found]

theorem Ascending.findKey_eq_filter (rising : Ascending keyOf items)
    (key : Key) : findKey keyOf items key =
      (items[rankIn keyOf items key]?).filter fun item => decide (keyOf item = key) := by
  apply Option.ext
  intro item
  rw [rising.findKey_eq_some, Option.filter_eq_some_iff, decide_eq_true_eq]
  refine and_congr_left fun same => ⟨?_, mem_of_getElem?⟩
  intro listed
  obtain ⟨pos, found⟩ := mem_iff_getElem?.mp listed
  have notBefore : ¬pos < rankIn keyOf items key := by
    rw [rising.lt_rankIn_iff found, same]
    exact lt_irrefl _
  have notBehind : ¬rankIn keyOf items key < pos := by
    intro behind
    obtain ⟨inside, _⟩ := List.getElem?_eq_some_iff.mp found
    have atRank := getElem?_eq_getElem (Nat.lt_trans behind inside)
    have smaller := rising.lt_of_getElem? behind atRank found
    rw [same, ← rising.lt_rankIn_iff atRank] at smaller
    exact Nat.lt_irrefl _ smaller
  obtain rfl : pos = rankIn keyOf items key := by omega
  exact found

/-! ## Insertion, exchange and removal -/

theorem length_insertAt (items : List Item) (index : Nat) (item : Item) :
    (insertAt items index item).length = items.length + 1 := by
  simp only [insertAt, length_append, length_take, length_cons, length_drop]
  omega

theorem map_insertAt (read : Item → Other) (items : List Item) (index : Nat)
    (item : Item) : (insertAt items index item).map read = insertAt (items.map read) index
    (read item) := by
  rw [insertAt, insertAt, map_append, map_cons, map_take, map_drop]

section InsertAt

variable {items : List Item} {index count : Nat}

theorem take_insertAt_of_le (item : Item) (inside : index ≤ count)
    (bounded : index ≤ items.length) :
    (insertAt items index item).take (count + 1) = insertAt (items.take count) index item := by
  have lengths : (items.take index).length = index := by
    rw [length_take, Nat.min_eq_left bounded]
  rw [insertAt, insertAt, take_append, lengths, Nat.succ_sub inside, take_succ_cons,
    take_take, take_take, drop_take, Nat.min_eq_left inside,
    Nat.min_eq_right (Nat.le_succ_of_le inside)]

theorem drop_insertAt_of_le (item : Item) (inside : index ≤ count)
    (bounded : index ≤ items.length) :
    (insertAt items index item).drop (count + 1) = items.drop count := by
  have lengths : (items.take index).length = index := by
    rw [length_take, Nat.min_eq_left bounded]
  rw [insertAt, drop_append, lengths, Nat.succ_sub inside, drop_succ_cons, drop_drop,
    Nat.add_sub_cancel' inside, drop_eq_nil_of_le (by rw [lengths]; omega), nil_append]

theorem take_insertAt_of_ge (item : Item) (outside : count ≤ index)
    (bounded : index ≤ items.length) :
    (insertAt items index item).take count = items.take count := by
  have lengths : (items.take index).length = index := by
    rw [length_take, Nat.min_eq_left bounded]
  rw [insertAt, take_append_of_le_length (by rw [lengths]; exact outside), take_take,
    Nat.min_eq_left outside]

theorem drop_insertAt_of_ge (item : Item) (outside : count ≤ index)
    (bounded : index ≤ items.length) :
    (insertAt items index item).drop count = insertAt (items.drop count) (index - count) item := by
  have lengths : (items.take index).length = index := by
    rw [length_take, Nat.min_eq_left bounded]
  rw [insertAt, drop_append_of_le_length (by rw [lengths]; exact outside), insertAt,
    drop_take, drop_drop, Nat.add_sub_cancel' outside]

theorem insertAt_append (items : List Item) {more : List Item} (item : Item) :
    insertAt (items ++ more) items.length item = items ++ item :: more := by
  rw [insertAt, take_left, drop_left]

theorem insertAt_append_left {more : List Item} (item : Item) (bounded : index ≤ items.length) :
    insertAt (items ++ more) index item = insertAt items index item ++ more := by
  rw [insertAt, insertAt, take_append_of_le_length bounded,
    drop_append_of_le_length bounded, append_assoc, cons_append]

theorem getLast?_insertAt (item : Item) (inside : index < items.length) :
    (insertAt items index item).getLast? = items.getLast? := by
  obtain ⟨last, lastEq⟩ : ∃ last, (items.drop index).getLast? = some last :=
    ⟨_, getLast?_eq_some_getLast (ne_nil_of_length_pos (by rw [length_drop]; omega))⟩
  have whole : items.getLast? = some last := by
    rw [← take_append_drop index items, getLast?_append, lastEq, Option.some_or]
  rw [insertAt, getLast?_append, getLast?_cons, lastEq, whole]
  rfl

end InsertAt

theorem insertAt_perm (items : List Item) (index : Nat) (item : Item) :
    (insertAt items index item).Perm (item :: items) := by
  apply perm_middle.trans
  rw [take_append_drop]

theorem place_perm (items : List Item) (item : Item) :
    (place keyOf items item).Perm (item :: items) :=
  insertAt_perm _ _ _

theorem length_place (items : List Item) (item : Item) :
    (place keyOf items item).length = items.length + 1 :=
  length_insertAt _ _ _

theorem length_replace (items : List Item) (item : Item) :
    (replace keyOf items item).length = items.length :=
  length_map _

namespace Ascending

variable {items : List Item} {key : Key} {item : Item}

theorem place (rising : Ascending keyOf items) (fresh : ∀ other ∈ items, keyOf other ≠ keyOf item) :
    Ascending keyOf (place keyOf items item) := by
  have split : Ascending keyOf (items.take (rankIn keyOf items (keyOf item)) ++
      items.drop (rankIn keyOf items (keyOf item))) := by
    rwa [take_append_drop]
  obtain ⟨front, back, across⟩ := pairwise_append.mp split
  apply pairwise_append.mpr
  refine ⟨front, pairwise_cons.mpr ⟨?_, back⟩, ?_⟩
  · intro other listed
    have notBelow := rising.drop_not_lt (keyOf item) other listed
    have different := fresh other (mem_of_mem_drop listed)
    exact lt_of_le_of_ne (le_of_not_gt notBelow) (Ne.symm different)
  · intro left leftListed right rightListed
    rcases mem_cons.mp rightListed with rfl | later
    · exact rising.take_lt (keyOf right) left leftListed
    · exact across left leftListed right later

theorem replace (rising : Ascending keyOf items) : Ascending keyOf (replace keyOf items item) := by
  apply pairwise_map.mpr
  apply List.Pairwise.imp _ rising
  intro left right below
  by_cases leftSame : keyOf left = keyOf item
  · have rightOther : keyOf right ≠ keyOf item := fun same => absurd below
      (by simp [leftSame, same])
    rwa [if_pos leftSame, if_neg rightOther, ← leftSame]
  · rw [if_neg leftSame]
    by_cases rightSame : keyOf right = keyOf item
    · rwa [if_pos rightSame, ← rightSame]
    · rwa [if_neg rightSame]

theorem eraseKey (rising : Ascending keyOf items) : Ascending keyOf (eraseKey keyOf items key) :=
  List.Pairwise.filter _ rising

end Ascending

theorem mem_replace {other : Item} :
    other ∈ replace keyOf items item ↔
      (other ∈ items ∧ keyOf other ≠ keyOf item) ∨
        (other = item ∧ ∃ old ∈ items, keyOf old = keyOf item) := by
  rw [replace, mem_map]
  constructor
  · rintro ⟨old, listed, rfl⟩
    by_cases same : keyOf old = keyOf item
    · rw [if_pos same]
      exact .inr ⟨rfl, old, listed, same⟩
    · rw [if_neg same]
      exact .inl ⟨listed, same⟩
  · rintro (⟨listed, different⟩ | ⟨rfl, old, listed, same⟩)
    · exact ⟨other, listed, if_neg different⟩
    · exact ⟨old, listed, if_pos same⟩

theorem map_replace (items : List Item) (item : Item) :
    (replace keyOf items item).map keyOf = items.map keyOf := by
  rw [replace, map_map]
  apply map_congr_left
  intro other _
  by_cases same : keyOf other = keyOf item
  · rw [Function.comp_apply, if_pos same, same]
  · rw [Function.comp_apply, if_neg same]

theorem replace_of_absent
    (absent : ∀ other ∈ items, keyOf other ≠ keyOf item) : replace keyOf items item = items := by
  have kept : ∀ other ∈ items, (if keyOf other = keyOf item then item else other) = other :=
    fun other listed => if_neg (absent other listed)
  rw [replace, map_congr_left kept, map_id']

theorem mem_eraseKey : item ∈ eraseKey keyOf items key ↔ item ∈ items ∧ keyOf item ≠ key := by
  simp [eraseKey]

theorem Ascending.perm_cons_eraseKey (rising : Ascending keyOf items) (listed : item ∈ items) :
    items.Perm (item :: IndexResearch.eraseKey keyOf items (keyOf item)) := by
  have nodup : ∀ {list : List Item}, Ascending keyOf list → list.Nodup := fun sorted =>
    List.Pairwise.imp (fun below same => absurd below (by simp [same])) sorted
  apply (perm_ext_iff_of_nodup (nodup rising) _).mpr
  · intro other
    rw [mem_cons, mem_eraseKey]
    constructor
    · intro otherListed
      by_cases same : keyOf other = keyOf item
      · have found := rising.findKey_eq_some.mpr ⟨otherListed, same⟩
        have found' := rising.findKey_eq_some.mpr ⟨listed, rfl⟩
        exact .inl (Option.some.inj (found.symm.trans found'))
      · exact .inr ⟨otherListed, same⟩
    · rintro (rfl | ⟨otherListed, _⟩)
      · exact listed
      · exact otherListed
  · apply nodup_cons.mpr
    refine ⟨?_, nodup rising.eraseKey⟩
    rw [mem_eraseKey]
    exact fun absurdity => absurdity.2 rfl

/-! ## A stretch of a list -/

section Between

variable {left items right : List Item} {item : Item} {key : Key}

theorem findKey_between (smaller : ∀ other ∈ left, keyOf other < key)
    (larger : ∀ other ∈ right, key < keyOf other) :
    findKey keyOf (left ++ (items ++ right)) key = findKey keyOf items key := by
  have noneLeft : findKey keyOf left key = none :=
    findKey_eq_none.mpr fun other listed => ne_of_lt (smaller other listed)
  have noneRight : findKey keyOf right key = none :=
    findKey_eq_none.mpr fun other listed => ne_of_gt (larger other listed)
  rw [findKey] at noneLeft noneRight
  rw [findKey, find?_append, find?_append, noneLeft, noneRight, Option.none_or,
    Option.or_none, findKey]

theorem place_between (smaller : ∀ other ∈ left, keyOf other < keyOf item)
    (larger : ∀ other ∈ right, keyOf item < keyOf other) :
    place keyOf (left ++ (items ++ right)) item = left ++ (place keyOf items item ++ right) := by
  have none : rankIn keyOf right (keyOf item) = 0 :=
    rankIn_eq_zero fun other listed => not_lt_of_gt (larger other listed)
  have bounded : rankIn keyOf items (keyOf item) ≤ items.length := rankIn_le_length _ _
  simp [place, insertAt, rankIn_append, rankIn_eq_length smaller, none, take_append,
    drop_append, Nat.sub_eq_zero_of_le bounded, take_of_length_le,
    drop_eq_nil_of_le]

theorem replace_between (smaller : ∀ other ∈ left, keyOf other < keyOf item)
    (larger : ∀ other ∈ right, keyOf item < keyOf other) :
    replace keyOf (left ++ (items ++ right)) item = left ++ (replace keyOf items item ++ right):= by
  have sameLeft : replace keyOf left item = left :=
    replace_of_absent fun other listed => ne_of_lt (smaller other listed)
  have sameRight : replace keyOf right item = right :=
    replace_of_absent fun other listed => ne_of_gt (larger other listed)
  rw [replace] at sameLeft sameRight
  rw [replace, map_append, map_append, sameLeft, sameRight, replace]

theorem eraseKey_of_absent (absent : ∀ other ∈ items, keyOf other ≠ key) :
    eraseKey keyOf items key = items :=
  filter_eq_self.mpr fun other listed => decide_eq_true (absent other listed)

theorem eraseKey_between (smaller : ∀ other ∈ left, keyOf other < key)
    (larger : ∀ other ∈ right, key < keyOf other) :
    eraseKey keyOf (left ++ (items ++ right)) key = left ++ (eraseKey keyOf items key ++ right):= by
  have sameLeft : eraseKey keyOf left key = left :=
    eraseKey_of_absent fun other listed => ne_of_lt (smaller other listed)
  have sameRight : eraseKey keyOf right key = right :=
    eraseKey_of_absent fun other listed => ne_of_gt (larger other listed)
  rw [eraseKey] at sameLeft sameRight
  rw [eraseKey, filter_append, filter_append, sameLeft, sameRight, eraseKey]

theorem replace_perm {old : Item} (rising : Ascending keyOf items) (listed : old ∈ items)
    (same : keyOf old = keyOf item) :
    (replace keyOf items item).Perm (item :: eraseKey keyOf items (keyOf item)) := by
  obtain ⟨left, right, rfl⟩ := append_of_mem listed
  obtain ⟨_, rest, across⟩ := ascending_append.mp rising
  have smaller : ∀ other ∈ left, keyOf other < keyOf item := fun other otherListed =>
    same ▸ across other otherListed old mem_cons_self
  have larger : ∀ other ∈ right, keyOf item < keyOf other := same ▸ (ascending_cons.mp rest).1
  have replaced : replace keyOf (left ++ ([old] ++ right)) item =
      left ++ (replace keyOf [old] item ++ right) := replace_between smaller larger
  have erased : eraseKey keyOf (left ++ ([old] ++ right)) (keyOf item) =
      left ++ (eraseKey keyOf [old] (keyOf item) ++ right) := eraseKey_between smaller larger
  rw [singleton_append] at replaced erased
  rw [replaced, erased]
  simp [replace, eraseKey, same]

end Between

/-! ## The map that a list is -/

namespace Ascending

variable {items : List Item} {key : Key} {item : Item}

theorem findKey_place (rising : Ascending keyOf items)
    (fresh : findKey keyOf items (keyOf item) = none) :
    findKey keyOf (IndexResearch.place keyOf items item) =
      update (findKey keyOf items) (keyOf item) (some item) := by
  have absent := findKey_eq_none.mp fresh
  funext key
  apply Option.ext
  intro other
  rw [(rising.place absent).findKey_eq_some, (place_perm items item).mem_iff, mem_cons]
  by_cases same : key = keyOf item
  · subst same
    rw [update_self, Option.some.injEq]
    constructor
    · rintro ⟨rfl | listed, sameKey⟩
      · rfl
      · exact absurd sameKey (absent other listed)
    · rintro rfl
      exact ⟨.inl rfl, rfl⟩
  · rw [update_of_ne same, rising.findKey_eq_some]
    constructor
    · rintro ⟨rfl | listed, rfl⟩
      · exact absurd rfl same
      · exact ⟨listed, rfl⟩
    · exact fun found => ⟨.inr found.1, found.2⟩

theorem findKey_replace (rising : Ascending keyOf items)
    (bound : findKey keyOf items (keyOf item) ≠ none) :
    findKey keyOf (IndexResearch.replace keyOf items item) =
      update (findKey keyOf items) (keyOf item) (some item) := by
  obtain ⟨old, found⟩ := Option.ne_none_iff_exists'.mp bound
  obtain ⟨oldListed, oldKey⟩ := rising.findKey_eq_some.mp found
  funext key
  apply Option.ext
  intro other
  rw [rising.replace.findKey_eq_some, mem_replace]
  by_cases same : key = keyOf item
  · subst same
    rw [update_self, Option.some.injEq]
    constructor
    · rintro ⟨⟨_, different⟩ | ⟨rfl, _⟩, sameKey⟩
      · exact absurd sameKey different
      · rfl
    · rintro rfl
      exact ⟨.inr ⟨rfl, old, oldListed, oldKey⟩, rfl⟩
  · rw [update_of_ne same, rising.findKey_eq_some]
    constructor
    · rintro ⟨⟨listed, _⟩ | ⟨rfl, _⟩, rfl⟩
      · exact ⟨listed, rfl⟩
      · exact absurd rfl same
    · rintro ⟨listed, rfl⟩
      exact ⟨.inl ⟨listed, same⟩, rfl⟩

theorem findKey_eraseKey (rising : Ascending keyOf items) :
    findKey keyOf (IndexResearch.eraseKey keyOf items key) =
      update (findKey keyOf items) key none := by
  funext sought
  apply Option.ext
  intro other
  rw [rising.eraseKey.findKey_eq_some, mem_eraseKey]
  by_cases same : sought = key
  · subst same
    rw [update_self]
    exact ⟨fun found => absurd found.2 found.1.2, nofun⟩
  · rw [update_of_ne same, rising.findKey_eq_some]
    constructor
    · exact fun found => ⟨found.1.1, found.2⟩
    · rintro ⟨listed, rfl⟩
      exact ⟨⟨listed, same⟩, rfl⟩

end Ascending

/-! ## Lists with the same elements -/

namespace Ascending

variable {items others : List Item}

theorem nodup (rising : Ascending keyOf items) : items.Nodup :=
  rising.imp fun less same => absurd (congrArg keyOf same) (ne_of_lt less)

theorem eq_of_mem_iff (rising : Ascending keyOf items) (other : Ascending keyOf others)
    (same : ∀ item, item ∈ items ↔ item ∈ others) : items = others := by
  have perm : items.Perm others := (perm_ext_iff_of_nodup rising.nodup other.nodup).mpr same
  refine perm.eq_of_pairwise ?_ rising other
  intro left right _ _ less greater
  exact absurd less (lt_asymm greater)

theorem filter_append {first second both : Item → Bool} (rising : Ascending keyOf items)
    (before : ∀ left ∈ items, ∀ right ∈ items, first left → second right → keyOf left < keyOf right)
    (covers : ∀ item ∈ items, both item ↔ first item ∨ second item) :
    items.filter first ++ items.filter second = items.filter both := by
  have joined : Ascending keyOf (items.filter first ++ items.filter second) := by
    refine ascending_append.mpr ⟨rising.filter _, rising.filter _, ?_⟩
    intro left leftListed right rightListed
    rw [mem_filter] at leftListed rightListed
    exact before left leftListed.1 right rightListed.1 leftListed.2 rightListed.2
  refine joined.eq_of_mem_iff (rising.filter _) fun item => ?_
  rw [mem_append, mem_filter, mem_filter, mem_filter, ← and_or_left]
  exact and_congr_right fun listed => (covers item listed).symm

end Ascending

end IndexResearch
