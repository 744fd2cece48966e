import IndexResearch.SortedList

/-!
# Arrays as functions

An array is a function from indices to values whose contents outside the part
in use are arbitrary.  The block operations of the C library are functions on
arrays, and `tabulate` reads the part in use as a list.
-/

namespace IndexResearch

open List Function

universe u

section Blocks

variable {Value : Type u}

/-- `memmove(target + dst, source + src, count)`. -/
def copy (target source : Nat → Value) (dst src count : Nat) : Nat → Value :=
  fun index => if dst ≤ index ∧ index < dst + count then source
    (index - dst + src) else target index

/-- `memset(target, value, count)`. -/
def fill (target : Nat → Value) (value : Value) (count : Nat) : Nat → Value :=
  fun index => if index < count then value else target index

def moveForward (memory : Nat → Value) (src dst : Nat) : Nat → Nat → Value
  | 0 => memory
  | count + 1 =>
    let moved := moveForward memory src dst count
    update moved (dst + count) (moved (src + count))

def moveBackward (memory : Nat → Value) (src dst : Nat) : Nat → Nat → Value
  | 0 => memory
  | count + 1 =>
    moveBackward (update memory (dst + count) (memory (src + count))) src dst count

theorem copy_of_mem {target source : Nat → Value} {dst src count index : Nat}
    (inside : dst ≤ index ∧ index < dst + count) :
    copy target source dst src count index = source (index - dst + src) := if_pos inside

theorem copy_of_not_mem {target source : Nat → Value} {dst src count index : Nat}
    (outside : ¬(dst ≤ index ∧ index < dst + count)) :
    copy target source dst src count index = target index := if_neg outside

theorem copy_zero (target source : Nat → Value) (dst src : Nat) :
    copy target source dst src 0 = target := by
  funext index
  exact copy_of_not_mem (by omega)

theorem copy_of_lt {target source : Nat → Value} {src count index : Nat} (inside : index < count) :
    copy target source 0 src count index = source (src + index) := by
  rw [copy_of_mem (by omega), Nat.sub_zero, Nat.add_comm]

theorem update_copy (target source : Nat → Value) (dst src count : Nat) :
    update (copy target source dst src count) (dst + count) (source (count + src)) =
      copy target source dst src (count + 1) := by
  funext index
  by_cases last : index = dst + count
  · subst last
    rw [update_self, copy_of_mem (by omega), Nat.add_sub_cancel_left]
  · rw [update_of_ne last]
    unfold copy
    split <;> split <;> first | rfl | omega

theorem update_copy_range (target source : Nat → Value) {low high : Nat} (ordered : low ≤ high) :
    update (copy target source 0 low (high - low)) (high - low) (source high) =
      copy target source 0 low (high + 1 - low) := by
  have moved := update_copy target source 0 low (high - low)
  rwa [Nat.zero_add, Nat.sub_add_cancel ordered, ← Nat.sub_add_comm ordered] at moved

theorem update_copy_up (memory : Nat → Value) (src count : Nat) :
    update (copy memory memory (src + 2) (src + 1) count) (src + 1)
      (copy memory memory (src + 2) (src + 1) count src) =
      copy memory memory (src + 1) src (count + 1) := by
  funext index
  by_cases first : index = src + 1
  · subst first
    rw [update_self, copy_of_not_mem (by omega), copy_of_mem (by omega)]
    congr 1
    omega
  · rw [update_of_ne first]
    unfold copy
    split <;> split <;> first | rfl | omega | (congr 1; omega)

theorem moveForward_eq_copy (memory : Nat → Value) {src dst : Nat} (down : dst ≤ src)
    (count : Nat) : moveForward memory src dst count = copy memory memory dst src count := by
  induction count with
  | zero =>
    funext index
    exact (copy_of_not_mem (by omega)).symm
  | succ count ih =>
    funext index
    rw [moveForward, ih]
    by_cases last : index = dst + count
    · subst last
      rw [update_self, copy_of_not_mem (by omega), copy_of_mem (by omega)]
      congr 1
      omega
    · rw [update_of_ne last]
      unfold copy
      split <;> split <;> first | rfl | omega

theorem moveBackward_eq_copy (memory : Nat → Value) {src dst : Nat} (up : src ≤ dst)
    (count : Nat) : moveBackward memory src dst count = copy memory memory dst src count := by
  induction count generalizing memory with
  | zero =>
    funext index
    exact (copy_of_not_mem (by omega)).symm
  | succ count ih =>
    funext index
    rw [moveBackward, ih]
    by_cases last : index = dst + count
    · subst last
      rw [copy_of_not_mem (by omega), update_self, copy_of_mem (by omega)]
      congr 1
      omega
    · unfold copy
      split <;> split <;> first | omega | (rw [update_of_ne (by omega)])

end Blocks

/-! ## Scanning -/

def scanFrom (test : Nat → Bool) : Nat → Nat → Nat
  | 0, pos => pos
  | remaining + 1, pos =>
    if test pos then scanFrom test remaining (pos + 1) else pos

/-- The first position below `limit` at which `test` fails, or `limit`. -/
def scan (test : Nat → Bool) (limit : Nat) : Nat := scanFrom test limit 0

theorem scanFrom_spec (test : Nat → Bool) (remaining pos : Nat) :
    pos ≤ scanFrom test remaining pos ∧
      scanFrom test remaining pos ≤ pos + remaining ∧
      (∀ index, pos ≤ index → index < scanFrom test remaining pos →
        test index = true) ∧
      (scanFrom test remaining pos < pos + remaining →
        test (scanFrom test remaining pos) = false) := by
  induction remaining generalizing pos with
  | zero =>
    refine ⟨Nat.le_refl _, Nat.le_refl _, ?_, ?_⟩
    · intro index lower upper
      exact absurd upper (Nat.not_lt.mpr lower)
    · intro below
      exact absurd below (Nat.lt_irrefl _)
  | succ remaining ih =>
    rw [scanFrom]
    split
    · rename_i passed
      obtain ⟨lower, upper, passes, fails⟩ := ih (pos + 1)
      refine ⟨by omega, by omega, ?_, ?_⟩
      · intro index above below
        rcases Nat.eq_or_lt_of_le above with rfl | later
        · exact passed
        · exact passes index later below
      · intro below
        exact fails (by omega)
    · rename_i failed
      refine ⟨Nat.le_refl _, by omega, ?_, ?_⟩
      · intro index lower upper
        exact absurd upper (Nat.not_lt.mpr lower)
      · intro _
        exact eq_false_of_ne_true failed

variable {test : Nat → Bool} {limit : Nat}

theorem scan_le : scan test limit ≤ limit := by
  have spec := (scanFrom_spec test limit 0).2.1
  rwa [Nat.zero_add] at spec

theorem scan_passes {index : Nat} (below : index < scan test limit) : test index = true :=
  (scanFrom_spec test limit 0).2.2.1 index (Nat.zero_le index) below

theorem scan_fails (below : scan test limit < limit) : test (scan test limit) = false :=
  (scanFrom_spec test limit 0).2.2.2 (by rwa [Nat.zero_add])

theorem scan_eq {pos : Nat} (bounded : pos ≤ limit)
    (passes : ∀ index < pos, test index = true) (fails : pos < limit → test pos = false) :
    scan test limit = pos := by
  have upper : scan test limit ≤ limit := scan_le
  rcases Nat.lt_trichotomy (scan test limit) pos with before | same | after
  · have failed := scan_fails (Nat.lt_of_lt_of_le before bounded)
    rw [passes _ before] at failed
    cases failed
  · exact same
  · have failed := fails (Nat.lt_of_lt_of_le after upper)
    rw [scan_passes after] at failed
    cases failed

theorem exists_first_failure {Holds : Nat → Prop} (fails : ¬∀ index < limit, Holds index) :
    ∃ index < limit, ¬Holds index ∧ ∀ earlier < index, Holds earlier := by
  classical
  simp only [not_forall] at fails
  have found : ∃ index, index < limit ∧ ¬Holds index := by
    obtain ⟨index, below, fails⟩ := fails
    exact ⟨index, below, fails⟩
  obtain ⟨below, failure⟩ := Nat.find_spec found
  refine ⟨Nat.find found, below, failure, ?_⟩
  intro earlier before
  by_contra other
  exact Nat.find_min found before ⟨Nat.lt_trans before below, other⟩

/-! ## Reading an array as a list -/

section Tabulate

variable {Value : Type u}

/-- The first `count` elements of an array. -/
def tabulate (count : Nat) (array : Nat → Value) : List Value := (List.range count).map array

@[simp] theorem length_tabulate (count : Nat) (array : Nat → Value) :
    (tabulate count array).length = count := by
  rw [tabulate, length_map, length_range]

variable {count : Nat}

theorem getElem?_tabulate {index : Nat} (array : Nat → Value) (inside : index < count) :
    (tabulate count array)[index]? = some (array index) := by
  rw [tabulate, getElem?_map, getElem?_range inside]
  rfl

theorem mem_tabulate {array : Nat → Value} {value : Value} :
    value ∈ tabulate count array ↔ ∃ index < count, array index = value := by
  simp only [tabulate, mem_map, mem_range]

theorem tabulate_congr {left right : Nat → Value}
    (same : ∀ index < count, left index = right index) :
    tabulate count left = tabulate count right := by
  apply map_congr_left
  intro index listed
  exact same index (mem_range.mp listed)

theorem tabulate_add (count more : Nat) (array : Nat → Value) :
    tabulate (count + more) array =
      tabulate count array ++ tabulate more fun index => array (count + index) := by
  rw [tabulate, range_add, map_append, map_map]
  rfl

theorem tabulate_succ (count : Nat) (array : Nat → Value) :
    tabulate (count + 1) array = tabulate count array ++ [array count] :=
  tabulate_add count 1 array

theorem tabulate_succ_left (count : Nat) (array : Nat → Value) :
    tabulate (count + 1) array = array 0 :: tabulate count fun index => array (index + 1) := by
  rw [Nat.add_comm, tabulate_add]
  simp [tabulate, Nat.add_comm]

theorem getLastD_tabulate (positive : 0 < count) (array : Nat → Value)
    (default : Value) : (tabulate count array).getLastD default = array (count - 1) := by
  obtain ⟨fewer, rfl⟩ := Nat.exists_eq_add_one_of_ne_zero (Nat.ne_of_gt positive)
  rw [tabulate_succ, getLastD_concat, Nat.add_sub_cancel]

theorem take_tabulate {kept : Nat} (array : Nat → Value) (bounded : kept ≤ count) :
    (tabulate count array).take kept = tabulate kept array := by
  obtain ⟨more, rfl⟩ := Nat.exists_eq_add_of_le bounded
  rw [tabulate_add, take_left' (length_tabulate kept array)]

theorem drop_tabulate {dropped : Nat} (array : Nat → Value) (bounded : dropped ≤ count) :
    (tabulate count array).drop dropped =
      tabulate (count - dropped) fun index => array (dropped + index) := by
  obtain ⟨more, rfl⟩ := Nat.exists_eq_add_of_le bounded
  rw [tabulate_add, drop_left' (length_tabulate dropped array), Nat.add_sub_cancel_left]

theorem tabulate_insert {index : Nat} {before after : Nat → Value} {value : Value}
    (bounded : index ≤ count) (lower : ∀ pos < index, after pos = before pos)
    (inserted : after index = value) (upper : ∀ pos, index ≤ pos → pos < count →
      after (pos + 1) = before pos) :
    tabulate (count + 1) after =
      (tabulate count before).take index ++ value :: (tabulate count before).drop index := by
  obtain ⟨more, rfl⟩ := Nat.exists_eq_add_of_le bounded
  rw [take_tabulate _ bounded, drop_tabulate _ bounded, Nat.add_sub_cancel_left, Nat.add_assoc,
    tabulate_add, tabulate_succ_left]
  congr 1
  · exact tabulate_congr lower
  · congr 1
    apply tabulate_congr
    intro offset inside
    rw [← Nat.add_assoc]
    exact upper (index + offset) (by omega) (by omega)

theorem tabulate_erase {index : Nat} {before after : Nat → Value}
    (bounded : index < count) (lower : ∀ pos < index, after pos = before pos)
    (upper : ∀ pos, index ≤ pos → pos + 1 < count →
      after pos = before (pos + 1)) :
    tabulate (count - 1) after = (tabulate count before).eraseIdx index := by
  obtain ⟨more, rfl⟩ := Nat.exists_eq_add_of_le bounded
  rw [eraseIdx_eq_take_drop_succ, take_tabulate _ (by omega), drop_tabulate _ (by omega)]
  have count : index.succ + more - 1 = index + more := by omega
  have rest : index.succ + more - (index + 1) = more := by omega
  rw [count, rest, tabulate_add]
  congr 1
  · exact tabulate_congr lower
  · apply tabulate_congr
    intro offset inside
    rw [upper (index + offset) (by omega) (by omega)]
    congr 1
    omega

theorem tabulate_append {more : Nat} {left right joined : Nat → Value}
    (lower : ∀ pos < count, joined pos = left pos)
    (upper : ∀ pos < more, joined (count + pos) = right pos) :
    tabulate (count + more) joined = tabulate count left ++ tabulate more right := by
  rw [tabulate_add]
  congr 1
  · exact tabulate_congr lower
  · exact tabulate_congr upper

theorem tabulate_update {index : Nat} (array : Nat → Value) (value : Value) :
    tabulate count (update array index value) = (tabulate count array).set index value:= by
  apply ext_getElem?
  intro pos
  by_cases inside : pos < count
  · rw [getElem?_tabulate _ inside, getElem?_set]
    by_cases same : index = pos
    · subst same
      simp [inside]
    · simp [same, update_of_ne (Ne.symm same), getElem?_tabulate _ inside]
  · rw [getElem?_eq_none (by simpa using inside),
      getElem?_eq_none (by simpa using inside)]

theorem tabulate_update_last (count : Nat) (array : Nat → Value) (value : Value) :
    tabulate (count + 1) (update array count value) = tabulate count array ++ [value] := by
  rw [tabulate_succ, update_self]
  congr 1
  apply tabulate_congr
  intro index inside
  exact update_of_ne (Nat.ne_of_lt inside) ..

end Tabulate

theorem ascending_tabulate {Item Key : Type*} [LinearOrder Key] {keyOf : Item → Key} {count : Nat}
    {array : Nat → Item} :
    Ascending keyOf (tabulate count array) ↔ ∀ first second, first < second → second < count →
      keyOf (array first) < keyOf (array second) := by
  rw [Ascending, tabulate, pairwise_map, pairwise_iff_getElem]
  simp only [length_range, getElem_range]
  constructor
  · exact fun increasing first second before inside =>
      increasing first second (Nat.lt_trans before inside) inside before
  · exact fun increasing first second _ inside before => increasing first second before inside

end IndexResearch
