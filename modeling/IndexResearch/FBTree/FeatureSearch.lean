import IndexResearch.FBTree.Config
import IndexResearch.Memory

/-!
# Column-wise search

Both kinds of inner nodes store leading bytes of their separators column-wise,
one row per byte position.  A search narrows the set of columns that agree with
the key row by row, and decides at the first row in which no column agrees.
-/

namespace IndexResearch.FBTree

/-- The mask of the first `knum` columns. -/
def inUse (size : NodeSize) (knum : Nat) : Bitmap :=
  if size = .size64 ∧ knum = size.slots then 0#64 - 1#64 else (1#64 <<< knum) - 1#64

theorem getLsbD_inUse {size : NodeSize} {knum : Nat} (bounded : knum ≤ size.slots) (column : Nat) :
    (inUse size knum).getLsbD column = decide (column < knum) := by
  have limit : knum ≤ 64 := Nat.le_trans bounded size.slots_le
  have lowest : inUse size knum = Bitmap.lowest knum := by
    rw [inUse, Bitmap.lowest]
    split
    · rename_i full
      obtain ⟨rfl, allUsed⟩ := full
      rw [allUsed]
      decide
    · rfl
  rw [lowest, Bitmap.getLsbD_lowest limit]

/-- The equal-comparison loop: the row at which it stops and the columns that
agree with the key in all earlier rows. -/
def equalRows (size : NodeSize) (features : Nat → Nat → Byte) (byte : Nat → Byte) :
    Nat → Nat → Bitmap → Nat × Bitmap
  | 0, rid, eqmask => (rid, eqmask)
  | remaining + 1, rid, eqmask =>
    let mask := compareEqual size (features rid) (byte rid) &&& eqmask
    if mask = 0 then (rid, eqmask)
    else equalRows size features byte remaining (rid + 1) mask

/-- The less comparison in the row in which no column of `eqmask` agrees. -/
def lessMask (size : NodeSize) (row : Nat → Byte) (byte : Byte) (eqmask : Bitmap) : Bitmap :=
  compareLess size row byte &&& eqmask

/-- The index when no remaining column is less than the key: all separators
have been deleted, or the first remaining column is the answer. -/
def leastColumn (eqmask : Bitmap) : Nat :=
  if eqmask = 0 then 0 else (Bitmap.indexLeast1 eqmask).getD 0

def afterLast (mask : Bitmap) : Nat := 64 - Bitmap.countlZero mask

variable {size : NodeSize} {features : Nat → Nat → Byte} {byte : Nat → Byte}

structure EqualRows (features : Nat → Nat → Byte) (byte : Nat → Byte) (limit : Nat)
    (start : Bitmap) (result : Nat × Bitmap) : Prop where
  row_le : result.1 ≤ limit
  agrees : ∀ column, result.2.getLsbD column = true ↔
    start.getLsbD column = true ∧ ∀ row < result.1, features row column = byte row
  differs : result.1 < limit → ∀ column, result.2.getLsbD column = true →
    features result.1 column ≠ byte result.1
  /-- The loop never loses the last candidate. -/
  nonempty : start ≠ 0 → result.2 ≠ 0

theorem getLsbD_zero (column : Nat) : (0 : Bitmap).getLsbD column = false :=
  BitVec.getLsbD_zero

theorem inUse_ne_zero {knum : Nat} (bounded : knum ≤ size.slots) (positive : 0 < knum) :
    inUse size knum ≠ 0 := by
  intro empty
  have first := getLsbD_inUse bounded 0
  rw [empty, getLsbD_zero] at first
  simp [positive] at first

theorem equalRows_loop {limit : Nat} {start eqmask : Bitmap} {rid remaining : Nat}
    (bounded : ∀ column, start.getLsbD column = true → column < size.slots)
    (total : rid + remaining = limit) (agrees : ∀ column, eqmask.getLsbD column = true ↔
      start.getLsbD column = true ∧ ∀ row < rid, features row column = byte row)
    (nonempty : start ≠ 0 → eqmask ≠ 0) :
    EqualRows features byte limit start
      (equalRows size features byte remaining rid eqmask) := by
  induction remaining generalizing rid eqmask with
  | zero =>
    refine ⟨by simp only [equalRows]; omega, agrees, ?_, nonempty⟩
    intro below
    simp only [equalRows] at below
    omega
  | succ remaining ih =>
    have candidates : ∀ column,
        (compareEqual size (features rid) (byte rid) &&& eqmask).getLsbD column = true ↔
          start.getLsbD column = true ∧ ∀ row < rid + 1, features row column = byte row := by
      intro column
      rw [BitVec.getLsbD_and, getLsbD_compareEqual, Bool.and_eq_true, Bool.and_eq_true,
        decide_eq_true_eq, beq_iff_eq, agrees]
      constructor
      · rintro ⟨⟨_, same⟩, started, earlier⟩
        refine ⟨started, ?_⟩
        intro row below
        rcases Nat.lt_succ_iff_lt_or_eq.mp below with before | rfl
        · exact earlier row before
        · exact same
      · rintro ⟨started, all⟩
        exact ⟨⟨bounded column started, all rid (Nat.lt_succ_self rid)⟩, started,
          fun row below => all row (Nat.lt_succ_of_lt below)⟩
    rw [equalRows]
    split
    · rename_i none
      refine ⟨by simp only; omega, agrees, ?_, nonempty⟩
      intro _ column listed same
      obtain ⟨started, earlier⟩ := (agrees column).mp listed
      have present := (candidates column).mpr ⟨started, fun row below => by
        rcases Nat.lt_succ_iff_lt_or_eq.mp below with before | rfl
        · exact earlier row before
        · exact same⟩
      rw [none, getLsbD_zero] at present
      exact Bool.false_ne_true present
    · rename_i some
      exact ih (by omega) candidates (fun _ => some)

theorem equalRows_spec {limit : Nat} {start : Bitmap}
    (bounded : ∀ column, start.getLsbD column = true → column < size.slots) :
    EqualRows features byte limit start (equalRows size features byte limit 0 start) := by
  apply equalRows_loop bounded (Nat.zero_add limit)
  · intro column
    constructor
    · intro listed
      exact ⟨listed, fun row below => absurd below (Nat.not_lt_zero row)⟩
    · exact fun listed => listed.1
  · exact fun started => started

theorem equalRows_of_empty (remaining rid : Nat) :
    equalRows size features byte remaining rid 0 = (rid, 0) := by
  cases remaining with
  | zero => rfl
  | succ remaining => simp [equalRows]

/-! ## The position of the key

`column` gives the separators and `remaining` the columns that agree with the
key in all earlier rows.  A column outside `remaining` lies on the same side of
the key as of every column inside. -/

section Position

variable {Value : Type*} [LinearOrder Value] {column : Nat → Value} {count : Nat} {key : Value}
  {eqmask : Bitmap}

structure Separates (column : Nat → Value) (count : Nat) (key : Value) (index : Nat) : Prop where
  bounded : index ≤ count
  below : ∀ pos < index, column pos < key
  above : ∀ pos, index ≤ pos → pos < count → ¬column pos < key

/-- Where the columns outside `eqmask` lie. -/
structure Narrowed (column : Nat → Value) (count : Nat) (key : Value) (eqmask : Bitmap) : Prop where
  inside : ∀ pos, eqmask.getLsbD pos = true → pos < count
  increasing : ∀ first second, first < second → second < count → column first < column second
  below : ∀ pos member, pos < count → eqmask.getLsbD pos = false →
    eqmask.getLsbD member = true → pos < member → column pos < key
  above : ∀ pos member, pos < count → eqmask.getLsbD pos = false →
    eqmask.getLsbD member = true → member < pos → ¬column pos < key

theorem leastColumn_spec (nonempty : eqmask ≠ 0) :
    eqmask.getLsbD (leastColumn eqmask) = true ∧
      ∀ pos, eqmask.getLsbD pos = true → leastColumn eqmask ≤ pos := by
  obtain ⟨least, found⟩ : ∃ least, Bitmap.indexLeast1 eqmask = some least := by
    apply Option.ne_none_iff_exists'.mp
    intro absent
    exact nonempty (Bitmap.indexLeast1_eq_none.mp absent)
  rw [leastColumn, if_neg nonempty, found, Option.getD_some]
  exact Bitmap.indexLeast1_eq_some found

section

variable (narrowed : Narrowed column count key eqmask)
include narrowed

theorem Narrowed.before_least (nonempty : eqmask ≠ 0)
    {pos : Nat} (before : pos < leastColumn eqmask) : column pos < key := by
  obtain ⟨present, minimal⟩ := leastColumn_spec nonempty
  apply narrowed.below pos (leastColumn eqmask) _ _ present before
  · exact Nat.lt_trans before (narrowed.inside _ present)
  · by_contra listed
    have := minimal pos (Bool.eq_true_of_not_eq_false listed)
    omega

theorem Narrowed.behind_last (nonempty : eqmask ≠ 0)
    {pos : Nat} (behind : FBTree.afterLast eqmask ≤ pos) (inside : pos < count) :
    ¬column pos < key := by
  obtain ⟨most, mostEq, present, maximal⟩ := Bitmap.countlZero_spec nonempty
  rw [FBTree.afterLast, mostEq] at behind
  apply narrowed.above pos most inside _ present behind
  by_contra listed
  have := maximal pos (Bool.eq_true_of_not_eq_false listed)
  omega

theorem Narrowed.least (nonempty : eqmask ≠ 0)
    (notBelow : ∀ pos, eqmask.getLsbD pos = true → ¬column pos < key) :
    Separates column count key (leastColumn eqmask) := by
  obtain ⟨present, _⟩ := leastColumn_spec nonempty
  refine ⟨Nat.le_of_lt (narrowed.inside _ present),
    fun pos before => narrowed.before_least nonempty before, ?_⟩
  intro pos notBefore within
  by_cases listed : eqmask.getLsbD pos = true
  · exact notBelow pos listed
  · rcases Nat.eq_or_lt_of_le notBefore with rfl | after
    · exact absurd present listed
    · exact narrowed.above pos _ within (eq_false_of_ne_true listed) present after

theorem Narrowed.afterLast {mask : Bitmap} (nonempty : mask ≠ 0)
    (subset : ∀ pos, mask.getLsbD pos = true → eqmask.getLsbD pos = true)
    (below : ∀ pos, mask.getLsbD pos = true → column pos < key)
    (notBelow : ∀ pos, eqmask.getLsbD pos = true → mask.getLsbD pos = false →
      ¬column pos < key) :
    Separates column count key (afterLast mask) := by
  obtain ⟨most, mostEq, present, maximal⟩ := Bitmap.countlZero_spec nonempty
  rw [FBTree.afterLast, mostEq]
  have within := narrowed.inside most (subset most present)
  refine ⟨within, ?_, ?_⟩
  · intro pos before
    rcases Nat.lt_succ_iff_lt_or_eq.mp before with earlier | rfl
    · exact lt_trans (narrowed.increasing pos most earlier within) (below most present)
    · exact below pos present
  · intro pos after inside
    by_cases listed : eqmask.getLsbD pos = true
    · apply notBelow pos listed
      by_contra less
      have := maximal pos (Bool.eq_true_of_not_eq_false less)
      omega
    · exact narrowed.above pos most inside (eq_false_of_ne_true listed)
        (subset most present) after

theorem Narrowed.decided {mask : Bitmap} (nonempty : 0 < count → eqmask ≠ 0)
    (bits : ∀ pos, mask.getLsbD pos = true ↔
      eqmask.getLsbD pos = true ∧ column pos < key) :
    Separates column count key (if mask = 0 then leastColumn eqmask else FBTree.afterLast mask):= by
  split
  · rename_i noneLess
    rcases Nat.eq_zero_or_pos count with rfl | positive
    · have noColumns : eqmask = 0 := by
        apply BitVec.eq_of_getLsbD_eq
        intro pos _
        rw [getLsbD_zero]
        by_contra listed
        have := narrowed.inside pos (Bool.eq_true_of_not_eq_false listed)
        omega
      rw [leastColumn, if_pos noColumns]
      exact ⟨Nat.zero_le _, fun _ below => absurd below (Nat.not_lt_zero _),
        fun _ _ inside => by omega⟩
    · apply narrowed.least (nonempty positive)
      intro pos listed below
      have bit := (bits pos).mpr ⟨listed, below⟩
      rw [noneLess, getLsbD_zero] at bit
      exact Bool.false_ne_true bit
  · rename_i someLess
    apply narrowed.afterLast someLess
    · exact fun pos listed => ((bits pos).mp listed).1
    · exact fun pos listed => ((bits pos).mp listed).2
    · intro pos survives notListed below
      rw [(bits pos).mpr ⟨survives, below⟩] at notListed
      exact Bool.false_ne_true notListed.symm

theorem Narrowed.between (nonempty : eqmask ≠ 0) {pos : Nat} (lower : leastColumn eqmask ≤ pos)
    (upper : pos < FBTree.afterLast eqmask) : eqmask.getLsbD pos = true := by
  obtain ⟨most, mostEq, last, _⟩ := Bitmap.countlZero_spec nonempty
  rw [FBTree.afterLast, mostEq] at upper
  obtain ⟨first, _⟩ := leastColumn_spec nonempty
  generalize leastColumn eqmask = least at *
  have inside : pos < count := by
    have := narrowed.inside most last
    omega
  by_contra absent
  have outside := eq_false_of_ne_true absent
  have notLast : pos ≠ most := fun same => absent (same ▸ last)
  have notFirst : least ≠ pos := fun same => absent (same ▸ first)
  exact narrowed.above pos least inside outside first (by omega)
    (narrowed.below pos most inside outside last (by omega))

end

theorem Separates.rankIn_eq {Item : Type*} {keyOf : Item → Value} {items : Nat → Item} {index : Nat}
    (separates : Separates (fun pos => keyOf (items pos)) count key index) :
    rankIn keyOf (tabulate count items) key = index := by
  apply IndexResearch.rankIn_eq
  · rw [length_tabulate]
    exact separates.bounded
  · intro item listed
    rw [take_tabulate _ separates.bounded, mem_tabulate] at listed
    obtain ⟨pos, before, rfl⟩ := listed
    exact separates.below pos before
  · intro item listed
    rw [drop_tabulate _ separates.bounded, mem_tabulate] at listed
    obtain ⟨offset, within, rfl⟩ := listed
    exact separates.above (index + offset) (by omega) (by omega)

end Position

end IndexResearch.FBTree
