import IndexResearch.FBTree.InnerNode.Layout

/-!
# Searching an inner node

The view of a well-formed node, and the agreement of `to_next` and
`index_or_sibling` with the view.
-/

namespace IndexResearch.FBTree.InnerNode

variable {size : NodeSize} {type : KeyType} {node : InnerNode size type} {key : Encoded type}

structure WellFormed (node : InnerNode size type) : Prop where
  knum_le : node.knum ≤ size.slots
  increasing : Increasing node.separator node.knum
  stores : Stores node node.separator node.knum

/-- All children, given the ones in the array: the rightmost node of a level has
one more. -/
def kidsOf (sibling : Bool) (children : List Ptr) (next : Ptr) : List Ptr :=
  if sibling then children else children ++ [next]

def linkOf (sibling : Bool) (next : Ptr) : Option Ptr := if sibling then some next else none

theorem isSome_linkOf (sibling : Bool) (next : Ptr) : (linkOf sibling next).isSome = sibling := by
  cases sibling with
  | true | false => rfl

theorem linkOf_ne_none {sibling : Bool} {next : Ptr} :
    sibling = true ↔ linkOf sibling next ≠ none := by
  rw [← Option.isSome_iff_ne_none, isSome_linkOf]

section Search

variable {Sep K : Type} [LinearOrder K] {keyOf : Sep → K} {key : K} {seps : List Sep}
  {sibling : Bool} {next : Ptr} {count index : Nat} (rank : rankIn keyOf seps key = index)
include rank

theorem toNext_of_rank {children : Nat → Ptr} (bounded : index ≤ count) :
    NodeView.toNext keyOf ⟨seps, kidsOf sibling (tabulate count children) next,
        linkOf sibling next⟩ key =
      if index = count then (sibling, next) else (false, children index) := by
  simp only [NodeView.toNext, rank, kidsOf, linkOf]
  by_cases last : index = count
  · subst last
    cases sibling with
    | true | false => simp
  · have inside : index < count := by omega
    have child := getElem?_tabulate children inside
    cases sibling with
    | true => simp [last, child]
    | false =>
      rw [if_neg Bool.false_ne_true, List.getElem?_append_left (by simpa using inside), child,
        if_neg last]

theorem indexOrSibling_of_rank {kids : List Ptr} (length : seps.length = count) :
    NodeView.indexOrSibling keyOf ⟨seps, kids, linkOf sibling next⟩ key =
      if index = count ∧ sibling = true then .sibling next else .index index := by
  simp only [NodeView.indexOrSibling, rank, length, linkOf]
  cases sibling with
  | true | false => simp

end Search

def view (node : InnerNode size type) : NodeView (Key type) where
  seps := tabulate node.knum fun column => encodeReconvert (node.separator column)
  kids := kidsOf node.control.sibling (tabulate node.knum node.children) node.next
  link := linkOf node.control.sibling node.next

@[simp] theorem length_view_seps (node : InnerNode size type) :
    node.view.seps.length = node.knum := length_tabulate _ _

theorem getLsbD_bitmap (bounded : node.knum ≤ size.slots) (column : Nat) :
    node.bitmap.getLsbD column = decide (column < node.knum) :=
  getLsbD_inUse bounded column

theorem bitmap_ne_zero (bounded : node.knum ≤ size.slots) (positive : 0 < node.knum) :
    node.bitmap ≠ 0 :=
  inUse_ne_zero bounded positive

def IsIndex (node : InnerNode size type) (key : Encoded type) (index : Nat) : Prop :=
  Separates (fun column => lexRank (node.separator column)) node.knum (lexRank key) index

theorem IsIndex.rankIn_eq {index : Nat} (isIndex : IsIndex node key index) :
    rankIn id node.view.seps (encodeReconvert key) = index := by
  apply IndexResearch.rankIn_eq
  · rw [length_view_seps]
    exact isIndex.bounded
  · intro sep listed
    rw [view, take_tabulate _ isIndex.bounded, mem_tabulate] at listed
    obtain ⟨column, before, rfl⟩ := listed
    exact (encodeReconvert_lt_iff _ _).mpr (isIndex.below column before)
  · intro sep listed
    rw [view, drop_tabulate _ isIndex.bounded, mem_tabulate] at listed
    obtain ⟨offset, within, rfl⟩ := listed
    intro below
    exact isIndex.above (index + offset) (by omega) (by omega)
      ((encodeReconvert_lt_iff _ _).mp below)

theorem agree_prefix_separator (formed : node.WellFormed) {length column : Nat}
    (agrees : ∀ pid < length, byteAt key pid = node.prefixBytes pid) (bounded : length ≤ node.plen)
    (inside : column < node.knum) : Agree length (node.separator column) key := by
  intro pid below
  rw [agrees pid below, formed.stores.prefixBytes_eq inside (by omega)]

section Rows

variable (formed : node.WellFormed)
  (agrees : ∀ pid < node.plen, byteAt key pid = node.prefixBytes pid)
include formed

variable (key) in

theorem searchRows_spec :
    EqualRows node.features (fun rid => byteAt key (rid + node.plen)) (type.size - node.plen)
      node.bitmap (node.searchRows key) := by
  apply equalRows_spec
  intro column listed
  rw [getLsbD_bitmap formed.knum_le, decide_eq_true_eq] at listed
  exact Nat.lt_of_lt_of_le listed formed.knum_le

include agrees

/-- The columns that survive the loop are those that agree with the key in one
more byte per row. -/
theorem searchRows_agree (column : Nat) :
    (node.searchRows key).2.getLsbD column = true ↔
      column < node.knum ∧ Agree (node.plen + (node.searchRows key).1)
      (node.separator column) key := by
  have spec := searchRows_spec key formed
  have rowBound := spec.row_le
  have plenBound := formed.stores.plen_le
  rw [spec.agrees, getLsbD_bitmap formed.knum_le, decide_eq_true_eq]
  constructor
  · rintro ⟨inside, rows⟩
    refine ⟨inside, ?_⟩
    intro byte below
    by_cases inPrefix : byte < node.plen
    · exact agree_prefix_separator formed agrees le_rfl inside byte inPrefix
    · have row := rows (byte - node.plen) (by omega)
      rw [formed.stores.features_eq inside (by omega), Nat.sub_add_cancel (by omega)] at row
      exact row
  · rintro ⟨inside, agree⟩
    refine ⟨inside, ?_⟩
    intro row below
    rw [formed.stores.features_eq inside (by omega)]
    exact agree (row + node.plen) (by omega)

theorem searchRows_narrowed :
    Narrowed (fun column => lexRank (node.separator column)) node.knum (lexRank key)
      (node.searchRows key).2 := by
  have member := searchRows_agree formed agrees
  refine ⟨fun pos listed => ((member pos).mp listed).1, formed.increasing, ?_, ?_⟩
  · intro pos inside within outside listed before
    obtain ⟨insideBound, agree⟩ := (member inside).mp listed
    apply lexRank_lt_of_lt_of_agree (formed.increasing pos inside before insideBound) agree
    intro same
    rw [(member pos).mpr ⟨within, same⟩] at outside
    exact Bool.false_ne_true outside.symm
  · intro pos inside within outside listed after
    obtain ⟨_, agree⟩ := (member inside).mp listed
    apply Nat.lt_asymm
    apply lexRank_lt_of_agree_of_lt (formed.increasing inside pos after within) agree
    intro same
    rw [(member pos).mpr ⟨within, same⟩] at outside
    exact Bool.false_ne_true outside.symm

theorem searchRows_side (short : (node.searchRows key).1 + node.plen < type.size) {column : Nat}
    (listed : (node.searchRows key).2.getLsbD column = true) :
    (lexRank (node.separator column) < lexRank key ↔
      (compareLess size (node.features (node.searchRows key).1)
        (byteAt key ((node.searchRows key).1 + node.plen))).getLsbD column = true) := by
  have spec := searchRows_spec key formed
  obtain ⟨inside, agree⟩ := (searchRows_agree formed agrees column).mp listed
  have differs := spec.differs (by omega) column listed
  rw [Nat.add_comm] at agree
  have feature := formed.stores.features_eq inside short
  rw [getLsbD_compareLess, Bool.and_eq_true, decide_eq_true_eq, feature]
  rw [feature] at differs
  constructor
  · intro below
    refine ⟨Nat.lt_of_lt_of_le inside formed.knum_le, ?_⟩
    rcases slt_or_slt_of_ne differs with smaller | greater
    · exact smaller
    · exact absurd below (Nat.lt_asymm (agree.symm.lexRank_lt greater))
  · exact fun smaller => agree.lexRank_lt smaller.2

theorem getLsbD_lessMask (short : (node.searchRows key).1 + node.plen < type.size) (column : Nat) :
    (lessMask size (node.features (node.searchRows key).1)
        (byteAt key ((node.searchRows key).1 + node.plen)) (node.searchRows key).2).getLsbD column
      = true ↔
    (node.searchRows key).2.getLsbD column = true ∧
      lexRank (node.separator column) < lexRank key := by
  rw [lessMask, BitVec.getLsbD_and, Bool.and_eq_true]
  constructor
  · rintro ⟨less, listed⟩
    exact ⟨listed, (searchRows_side formed agrees short listed).mpr less⟩
  · rintro ⟨listed, below⟩
    exact ⟨(searchRows_side formed agrees short listed).mp below, listed⟩

omit agrees in
variable (key) in

theorem searchRows_ne_zero (positive : 0 < node.knum) : (node.searchRows key).2 ≠ 0 :=
  (searchRows_spec key formed).nonempty (bitmap_ne_zero formed.knum_le positive)

theorem leastColumn_lt (positive : 0 < node.knum) :
    leastColumn (node.searchRows key).2 < node.knum := by
  obtain ⟨present, _⟩ := leastColumn_spec (searchRows_ne_zero key formed positive)
  exact (searchRows_narrowed formed agrees).inside _ present

theorem isIndex_decided (short : (node.searchRows key).1 + node.plen < type.size) :
    IsIndex node key
      (if lessMask size (node.features (node.searchRows key).1)
          (byteAt key ((node.searchRows key).1 + node.plen)) (node.searchRows key).2 = 0 then
        leastColumn (node.searchRows key).2
      else afterLast (lessMask size (node.features (node.searchRows key).1)
        (byteAt key ((node.searchRows key).1 + node.plen)) (node.searchRows key).2)) :=
  (searchRows_narrowed formed agrees).decided (searchRows_ne_zero key formed)
    (getLsbD_lessMask formed agrees short)

theorem isIndex_equal (whole : ¬(node.searchRows key).1 + node.plen < type.size) :
    ∃ index, (node.searchRows key).2.slots = [index] ∧ index < node.knum ∧
      IsIndex node key index := by
  have rowBound := (searchRows_spec key formed).row_le
  have plenBound := formed.stores.plen_le
  have positive : 0 < node.knum := by
    by_contra none
    have zero : node.knum = 0 := by omega
    have empty : node.bitmap = 0 := by
      apply BitVec.eq_of_getLsbD_eq
      intro column _
      rw [getLsbD_bitmap formed.knum_le]
      simp [zero]
    rw [searchRows, empty, equalRows_of_empty, formed.stores.empty zero] at whole
    exact whole type.size_pos
  have equalKey : ∀ column, (node.searchRows key).2.getLsbD column = true →
      column < node.knum ∧ node.separator column = key := by
    intro column listed
    obtain ⟨inside, agree⟩ := (searchRows_agree formed agrees column).mp listed
    exact ⟨inside, (agree.mono (by omega)).eq⟩
  obtain ⟨index, found⟩ := Option.ne_none_iff_exists'.mp
    (fun absent => searchRows_ne_zero key formed positive (Bitmap.indexLeast1_eq_none.mp absent))
  obtain ⟨present, least⟩ := Bitmap.indexLeast1_eq_some found
  obtain ⟨within, same⟩ := equalKey index present
  have unique : ∀ column, (node.searchRows key).2.getLsbD column = true → column = index := by
    intro column listed
    obtain ⟨columnWithin, columnSame⟩ := equalKey column listed
    by_contra different
    have ordered := formed.increasing index column
      (Nat.lt_of_le_of_ne (least column listed) (Ne.symm different)) columnWithin
    rw [same, columnSame] at ordered
    exact Nat.lt_irrefl _ ordered
  refine ⟨index, ?_, within, Nat.le_of_lt within, ?_, ?_⟩
  · apply Bitmap.eq_of_increasing (Bitmap.slots_pairwise _) (List.pairwise_singleton _ _)
    apply (List.perm_ext_iff_of_nodup (Bitmap.slots_nodup _) (List.nodup_singleton _)).mpr
    intro column
    rw [Bitmap.mem_slots, List.mem_singleton]
    exact ⟨unique column, fun equal => equal ▸ present⟩
  · intro pos before
    rw [← same]
    exact formed.increasing pos index before within
  · intro pos notBefore inside
    rw [← same]
    exact Nat.not_lt.mpr (formed.increasing.le notBefore inside)

end Rows

/-! ## Agreement with the view -/

/-- The prefix comparison: the key agrees with the prefix, or all separators lie
on one side of it. -/
theorem prefixScan_cases (formed : node.WellFormed) (key : Encoded type) :
    (node.prefixScan key = node.plen ∧
      ∀ pid < node.plen, byteAt key pid = node.prefixBytes pid) ∨
    (node.prefixScan key ≠ node.plen ∧ 0 < node.knum ∧
      if (byteAt key (node.prefixScan key)).slt (node.prefixBytes (node.prefixScan key)) then
        IsIndex node key 0
      else IsIndex node key node.knum) := by
  have passes : ∀ pid < node.prefixScan key, byteAt key pid = node.prefixBytes pid :=
    fun pid below => beq_iff_eq.mp (scan_passes below)
  have bounded : node.prefixScan key ≤ node.plen := scan_le
  rcases Nat.eq_or_lt_of_le bounded with whole | partly
  · exact Or.inl ⟨whole, whole ▸ passes⟩
  · have positive : 0 < node.knum := by
      by_contra none
      have := formed.stores.empty (by omega)
      omega
    have differs : byteAt key (node.prefixScan key) ≠ node.prefixBytes (node.prefixScan key) := by
      intro same
      have failed := scan_fails partly
      rw [← prefixScan] at failed
      simp [same] at failed
    have agree : ∀ column < node.knum, Agree (node.prefixScan key) (node.separator column) key :=
      fun column inside =>
        agree_prefix_separator formed passes (Nat.le_of_lt partly) inside
    refine Or.inr ⟨Nat.ne_of_lt partly, positive, ?_⟩
    split
    · rename_i smaller
      refine ⟨Nat.zero_le _, fun _ below => absurd below (Nat.not_lt_zero _), ?_⟩
      intro column _ inside
      apply Nat.lt_asymm
      apply (agree column inside).symm.lexRank_lt
      rwa [← formed.stores.prefixBytes_eq inside partly]
    · rename_i notSmaller
      have greater := (slt_or_slt_of_ne differs).resolve_left notSmaller
      refine ⟨Nat.le_refl _, ?_, fun column above inside => by omega⟩
      intro column inside
      apply (agree column inside).lexRank_lt
      rwa [← formed.stores.prefixBytes_eq inside partly]

theorem featureIndex_spec (formed : node.WellFormed)
    (agrees : ∀ pid < node.plen, byteAt key pid = node.prefixBytes pid) :
    ∃ index, node.featureIndex key = .ok index ∧ IsIndex node key index := by
  unfold featureIndex
  simp only
  split
  · rename_i short
    refine ⟨_, ?_, isIndex_decided formed agrees short⟩
    exact (apply_ite Except.ok _ _ _).symm
  · rename_i whole
    obtain ⟨index, slots, _, isIndex⟩ := isIndex_equal formed agrees whole
    refine ⟨index, ?_, isIndex⟩
    rw [if_pos (by rw [Bitmap.popcount, slots]; rfl), Bitmap.indexLeast1, slots]
    rfl

theorem IsIndex.toNext_view {index : Nat} (isIndex : IsIndex node key index) :
    node.view.toNext id (encodeReconvert key) =
      if index = node.knum then (node.control.sibling, node.next)
      else (false, node.children index) :=
  toNext_of_rank isIndex.rankIn_eq isIndex.bounded

theorem toNext_eq (formed : node.WellFormed) (alive : node.control.deleted = false)
    (key : Encoded type) :
    ∃ index, IsIndex node key index ∧ node.toNext key =
      .ok (if index = node.knum then (node.control.sibling, node.next)
        else (false, node.children index)) := by
  rw [toNext, if_neg (by simp [alive])]
  simp only
  rcases prefixScan_cases formed key with ⟨whole, agrees⟩ | ⟨partly, positive, side⟩
  · obtain ⟨index, found, isIndex⟩ := featureIndex_spec formed agrees
    refine ⟨index, isIndex, ?_⟩
    rw [if_pos whole, found]
    rfl
  · rw [if_neg partly]
    split
    · rename_i smaller
      rw [if_pos smaller] at side
      exact ⟨0, side, by rw [if_neg (by omega)]⟩
    · rename_i notSmaller
      rw [if_neg notSmaller] at side
      exact ⟨node.knum, side, by rw [if_pos rfl]⟩

theorem toNext_spec (formed : node.WellFormed) (alive : node.control.deleted = false)
    (key : Encoded type) :
    node.toNext key = .ok (node.view.toNext id (encodeReconvert key)) := by
  obtain ⟨index, isIndex, found⟩ := toNext_eq formed alive key
  rw [found, isIndex.toNext_view]

theorem IsIndex.indexOrSibling_view {index : Nat} (isIndex : IsIndex node key index) :
    node.view.indexOrSibling id (encodeReconvert key) =
      if index = node.knum ∧ node.control.sibling = true then .sibling node.next
      else .index index :=
  indexOrSibling_of_rank isIndex.rankIn_eq (length_view_seps node)

theorem indexOrSibling_eq (formed : node.WellFormed) (alive : node.control.deleted = false)
    (key : Encoded type) :
    ∃ index, IsIndex node key index ∧ node.indexOrSibling key =
      .ok (if index = node.knum ∧ node.control.sibling = true ∧ 0 < node.knum then
        .sibling node.next else .index index) := by
  rw [indexOrSibling, if_neg (by simp [alive])]
  simp only
  rcases prefixScan_cases formed key with ⟨whole, agrees⟩ | ⟨partly, positive, side⟩
  · rw [if_pos whole]
    split
    · rename_i short
      have decided := isIndex_decided formed agrees short
      split
      · rename_i noneLess
        rw [if_pos noneLess] at decided
        refine ⟨_, decided, ?_⟩
        rw [if_neg]
        rintro ⟨last, _, positive⟩
        have := leastColumn_lt formed agrees positive
        omega
      · rename_i someLess
        rw [if_neg someLess] at decided
        refine ⟨_, decided, ?_⟩
        have positive : 0 < node.knum := by
          by_contra none
          apply someLess
          apply BitVec.eq_of_getLsbD_eq
          intro column _
          refine (Bool.eq_false_iff.mpr ?_).trans BitVec.getLsbD_zero.symm
          intro listed
          have listedBefore := ((getLsbD_lessMask formed agrees short column).mp listed).1
          have inside := ((searchRows_agree formed agrees column).mp listedBefore).1
          omega
        simp only [positive, and_true]
        split <;> rfl
    · rename_i long
      obtain ⟨index, slots, inside, isIndex⟩ := isIndex_equal formed agrees long
      refine ⟨index, isIndex, ?_⟩
      rw [if_pos (by rw [Bitmap.popcount, slots]; rfl), Bitmap.indexLeast1, slots,
        if_neg (by omega)]
      rfl
  · rw [if_neg partly]
    split
    · rename_i smaller
      rw [if_pos smaller] at side
      exact ⟨0, side, by rw [if_neg (by omega)]⟩
    · rename_i notSmaller
      rw [if_neg notSmaller] at side
      refine ⟨node.knum, side, ?_⟩
      split
      · rename_i sibling
        rw [if_pos ⟨rfl, sibling, positive⟩]
      · rename_i last
        rw [if_neg (fun both => last both.2.1)]

theorem indexOrSibling_spec (formed : node.WellFormed) (alive : node.control.deleted = false)
    (nonempty : node.control.sibling = true → 0 < node.knum) (key : Encoded type) :
    node.indexOrSibling key = .ok (node.view.indexOrSibling id (encodeReconvert key)) := by
  obtain ⟨index, isIndex, found⟩ := indexOrSibling_eq formed alive key
  rw [found, isIndex.indexOrSibling_view]
  have same : (index = node.knum ∧ node.control.sibling = true ∧ 0 < node.knum) ↔
      (index = node.knum ∧ node.control.sibling = true) :=
    ⟨fun all => ⟨all.1, all.2.1⟩, fun both => ⟨both.1, both.2, nonempty both.2⟩⟩
  simp only [same]

/-! ## Exactness of the search -/

def separators (node : InnerNode size type) : List (Encoded type) :=
  tabulate node.knum node.separator

def commonPrefix (words : List (Encoded type)) : Nat :=
  match words.head?, words.getLast? with
  | some first, some last => scan (fun rid => byteAt first rid == byteAt last rid) type.size
  | _, _ => 0

theorem wellFormed_iff : node.WellFormed ↔ node.knum ≤ size.slots ∧
    Ascending memoryChars node.separators ∧ node.plen = commonPrefix node.separators := by
  have increasing : Ascending memoryChars node.separators ↔
    Increasing node.separator node.knum := by
    rw [separators, ascending_tabulate]
    simp only [memoryChars_lt_iff]
    rfl
  have ends (positive : 0 < node.knum) : commonPrefix node.separators =
      scan (fun rid => byteAt (node.separator 0) rid == byteAt (node.separator (node.knum - 1)) rid)
        type.size := by
    have head : node.separators.head? = some (node.separator 0) := by
      rw [List.head?_eq_getElem?, separators, getElem?_tabulate _ positive]
    have last : node.separators.getLast? = some (node.separator (node.knum - 1)) := by
      rw [List.getLast?_eq_getElem?, separators, length_tabulate, getElem?_tabulate _ (by omega)]
    rw [commonPrefix, head, last]
  rw [increasing]
  constructor
  · rintro ⟨bounded, sorted, stores⟩
    refine ⟨bounded, sorted, ?_⟩
    rcases Nat.eq_zero_or_pos node.knum with none | positive
    · rw [stores.empty none, separators, none]
      rfl
    · rw [ends positive]
      refine (scan_eq stores.plen_le ?_ ?_).symm
      · intro rid below
        exact beq_iff_eq.mpr (stores.agree positive (by omega) rid below)
      · intro short
        exact beq_eq_false_iff_ne.mpr (stores.maximal positive short)
  · rintro ⟨bounded, sorted, compressed⟩
    refine ⟨bounded, sorted, ?_, fun _ _ => rfl, ?_, ?_⟩
    · rcases Nat.eq_zero_or_pos node.knum with none | positive
      · rw [compressed, separators, none]
        exact Nat.zero_le _
      · rw [compressed, ends positive]
        exact scan_le
    · intro positive short
      rw [compressed, ends positive] at short ⊢
      exact beq_eq_false_iff_ne.mp (scan_fails short)
    · intro none
      rw [compressed, separators, none]
      rfl

theorem IsIndex.rankIn_separators {index : Nat} (isIndex : IsIndex node key index) :
    rankIn memoryChars node.separators (memoryChars key) = index := by
  apply rankIn_eq_of_positions
  · rw [separators, length_tabulate]
    exact isIndex.bounded
  · intro pos word before found
    rw [separators, getElem?_tabulate _ (Nat.lt_of_lt_of_le before isIndex.bounded)] at found
    rw [← Option.some.inj found, memoryChars_lt_iff]
    exact isIndex.below pos before
  · intro pos word notBefore found
    obtain ⟨inside, _⟩ := List.getElem?_eq_some_iff.mp found
    rw [separators, length_tabulate] at inside
    rw [separators, getElem?_tabulate _ inside] at found
    rw [← Option.some.inj found, memoryChars_lt_iff]
    exact isIndex.above pos notBefore inside

def rank (node : InnerNode size type) (key : Encoded type) : Nat :=
  rankIn memoryChars node.separators (memoryChars key)

/-- `to_next` takes the child at the rank of the key, and `index_or_sibling` finds the rank
or moves to the sibling behind the last separator. -/
def SearchesExactly (node : InnerNode size type) (key : Encoded type) : Prop :=
  node.toNext key = .ok (if node.rank key = node.knum then (node.control.sibling, node.next)
      else (false, node.children (node.rank key))) ∧
    node.indexOrSibling key = .ok (if node.rank key = node.knum ∧ node.control.sibling = true then
      .sibling node.next else .index (node.rank key))

/-- The search is exact, but that a node without separators never asks to move to its
sibling, and that a deleted node leads to its left neighbour. -/
theorem search_exact (node : InnerNode size type) (key : Encoded type)
    (bounded : node.knum ≤ size.slots) (increasing : Ascending memoryChars node.separators)
    (compressed : node.plen = commonPrefix node.separators) :
    (node.control.deleted = false →
      node.toNext key = .ok (if node.rank key = node.knum then (node.control.sibling, node.next)
          else (false, node.children (node.rank key))) ∧
        node.indexOrSibling key =
          .ok (if node.rank key = node.knum ∧ node.control.sibling = true ∧ 0 < node.knum then
            .sibling node.next else .index (node.rank key))) ∧
    (node.control.deleted = true →
      node.toNext key = .ok (true, node.next) ∧
        node.indexOrSibling key = .ok (.sibling node.next)) := by
  have formed := wellFormed_iff.mpr ⟨bounded, increasing, compressed⟩
  refine ⟨fun alive => ⟨?_, ?_⟩, fun deleted => ⟨if_pos deleted, if_pos deleted⟩⟩
  · obtain ⟨index, isIndex, found⟩ := toNext_eq formed alive key
    rw [rank, isIndex.rankIn_separators]
    exact found
  · obtain ⟨index, isIndex, found⟩ := indexOrSibling_eq formed alive key
    rw [rank, isIndex.rankIn_separators]
    exact found

/-- Three separators that begin with the bytes 1 and 2, and a sibling. -/
def borderNode : InnerNode .size64 .uint32 where
  control := Control.setSibling (.new false)
  knum := 3
  plen := 2
  prefixBytes := fun index => BitVec.ofNat 8 (index + 1)
  next := 9
  features := fun rid column =>
    if rid = 0 then (if column < 2 then 3 else 5) else (if column = 1 then 4 else 1)
  children := fun index => 10 + index

/-- A key between the first two separators, and one behind the last. -/
theorem search_exact_borderNode :
    (borderNode.knum ≤ NodeSize.size64.slots ∧ Ascending memoryChars borderNode.separators ∧
      borderNode.plen = commonPrefix borderNode.separators) ∧
    (borderNode.toNext 0x02030201 = .ok (false, 11) ∧
      borderNode.indexOrSibling 0x02030201 = .ok (.index 1)) ∧
    (borderNode.toNext 0x01060201 = .ok (true, 9) ∧
      borderNode.indexOrSibling 0x01060201 = .ok (.sibling 9)) := by
  have conditions : borderNode.knum ≤ NodeSize.size64.slots ∧
      Ascending memoryChars borderNode.separators ∧
      borderNode.plen = commonPrefix borderNode.separators := by
    decide +kernel
  have searched (key : Encoded .uint32) :=
    (search_exact borderNode key conditions.1 conditions.2.1 conditions.2.2).1 rfl
  have middle : borderNode.rank 0x02030201 = 1 := by decide +kernel
  have beyond : borderNode.rank 0x01060201 = 3 := by decide +kernel
  refine ⟨conditions, ?_, ?_⟩
  · have found := searched 0x02030201
    rwa [middle] at found
  · have found := searched 0x01060201
    rwa [beyond] at found

def emptied : InnerNode .size64 .uint64 where
  control := Control.setSibling (.new false)
  knum := 0
  plen := 0
  prefixBytes := fun _ => 0
  next := 1
  features := fun _ _ => 0
  children := fun _ => nullptr

theorem not_searchesExactly_emptied :
    emptied.knum ≤ NodeSize.size64.slots ∧ Ascending memoryChars emptied.separators ∧
      emptied.plen = commonPrefix emptied.separators ∧ emptied.control.deleted = false ∧
      ¬emptied.SearchesExactly 0 := by
  refine ⟨Nat.zero_le _, List.Pairwise.nil, rfl, rfl, ?_⟩
  rintro ⟨_, moves⟩
  have stays : emptied.indexOrSibling 0 = .ok (.index 0) := by decide +kernel
  rw [stays] at moves
  exact absurd moves (by decide +kernel)

/-- A deleted node does not look at its separators. -/
theorem not_searchesExactly_deleted :
    let node : InnerNode .size64 .uint32 :=
      { borderNode with control := borderNode.control.setDelete }
    node.knum ≤ NodeSize.size64.slots ∧ Ascending memoryChars node.separators ∧
      node.plen = commonPrefix node.separators ∧ ¬node.SearchesExactly 0x02030201 := by
  refine ⟨by decide, by decide +kernel, by decide +kernel, ?_⟩
  rintro ⟨descends, _⟩
  exact absurd descends (by decide +kernel)

end IndexResearch.FBTree.InnerNode
