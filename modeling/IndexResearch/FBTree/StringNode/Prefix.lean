import IndexResearch.FBTree.StringNode.Layout

/-!
# Comparing with the node prefix

`prefix_compare` against the histories of a node.  `content_rebuild` writes a prefix to
`tiny_` only if it fits, and `prefix_compare` reads `tiny_` also for a longer prefix as
long as the key is short.  The comparison then sees what an earlier rebuild left behind.
-/

namespace IndexResearch.FBTree.StringNode

open ByteString List

variable {size : NodeSize} {node : StringNode size} {key : ByteString}

/-- A comparison with the prefix `pre`: keys that begin with it, and keys before and
behind all these. -/
structure PrefixExact (pre key : ByteString) (result : Ordering) : Prop where
  equal : result = .eq ↔ pre.bytes <+: key.bytes
  less : result = .lt ↔ key < pre
  greater : result = .gt ↔ pre < key ∧ ¬pre.bytes <+: key.bytes

namespace PrefixExact

variable {pre : ByteString}

theorem of_isPrefix (isPrefix : pre.bytes <+: key.bytes) : PrefixExact pre key .eq where
  equal := iff_of_true rfl isPrefix
  less := iff_of_false nofun (not_lt.mpr (le_of_isPrefix isPrefix))
  greater := iff_of_false nofun fun greater => greater.2 isPrefix

theorem of_lt (below : key < pre) : PrefixExact pre key .lt where
  equal := iff_of_false nofun fun isPrefix => not_lt.mpr (le_of_isPrefix isPrefix) below
  less := iff_of_true rfl below
  greater := iff_of_false nofun fun greater => lt_asymm below greater.1

theorem of_gt (above : pre < key) (differs : ¬pre.bytes <+: key.bytes) :
    PrefixExact pre key .gt where
  equal := iff_of_false nofun differs
  less := iff_of_false nofun (lt_asymm above)
  greater := iff_of_true rfl ⟨above, differs⟩

theorem of_memcmp {stored : Nat → Byte}
    (same : ∀ index < min key.len pre.len, stored index = pre.byte index) :
    PrefixExact pre key
      (if memcmp key.byte stored (min key.len pre.len) = .eq ∧ min key.len pre.len < pre.len then
        .lt
      else memcmp key.byte stored (min key.len pre.len)) := by
  rcases memcmp_cases key.byte stored (min key.len pre.len) with
    ⟨equal, bytes⟩ | ⟨pos, below, bytes, ordered⟩
  · have keyBytes : ∀ index < min key.len pre.len, key.byte index = pre.byte index := by
      intro index inside
      rw [bytes index inside, same index inside]
    rw [equal]
    by_cases shorter : key.len < pre.len
    · rw [if_pos ⟨rfl, by omega⟩]
      apply of_lt
      rw [lt_iff]
      refine ⟨key.len, ?_, ?_⟩
      · apply sameDigits_of_bytes le_rfl (Nat.le_of_lt shorter)
        exact fun index inside => keyBytes index (by omega)
      · rw [digit_eq_zero.mpr le_rfl, digit_of_lt shorter]
        exact Nat.succ_pos _
    · rw [if_neg (by omega)]
      apply of_isPrefix
      rw [isPrefix_iff]
      apply sameDigits_of_bytes le_rfl (by omega)
      exact fun index inside => (keyBytes index (by omega)).symm
  · have earlier : ∀ index < pos, key.byte index = pre.byte index := by
      intro index before
      rw [bytes index before, same index (by omega)]
    rw [same pos below] at ordered
    rcases ordered with ⟨less, smaller⟩ | ⟨greater, larger⟩
    · rw [less, if_neg (fun both => nomatch both.1)]
      exact of_lt (lt_of_byte_lt earlier smaller)
    · rw [greater, if_neg (fun both => nomatch both.1)]
      apply of_gt
      · exact lt_of_byte_lt (fun index before => (earlier index before).symm) larger
      · intro isPrefix
        have equal := (isPrefix_iff.mp isPrefix).byte_eq (show pos < pre.len by omega)
        rw [equal] at larger
        exact Nat.lt_irrefl _ larger

end PrefixExact

theorem prefixCompare_spec (formed : node.WellFormed)
    (covered : node.plen ≤ kEmbedPrSize ∨ kEmbedPrSize < key.len) :
    ∃ result, node.prefixCompare key = .ok result ∧ PrefixExact node.prefixText key result := by
  have taken : ∀ index < min key.len node.plen,
      node.prefixText.byte index = (node.anchors 0).text.byte index :=
    fun index inside => byte_take (by omega)
  unfold prefixCompare
  by_cases embedded : min key.len node.plen ≤ kEmbedPrSize
  · have held : ∀ index < min key.len node.prefixText.len,
        node.tiny index = node.prefixText.byte index := by
      rw [formed.len_prefixText]
      intro index inside
      rw [taken index inside, formed.tiny_eq (by omega) index (by omega)]
    have comparison := PrefixExact.of_memcmp held
    rw [formed.len_prefixText] at comparison
    refine ⟨_, ?_, comparison⟩
    rw [if_pos embedded]
    rfl
  · have positive : 0 < node.knum := by
      apply Nat.pos_of_ne_zero
      intro empty
      rw [formed.plen_empty empty] at embedded
      omega
    have long : min key.len node.plen ≤ node.huge.text.len := by
      rw [formed.huge_eq positive]
      have := formed.plen_le
      omega
    have held : ∀ index < min key.len node.prefixText.len,
        node.huge.text.byte index = node.prefixText.byte index := by
      rw [formed.len_prefixText, formed.huge_eq positive]
      exact fun index inside => (taken index inside).symm
    have comparison := PrefixExact.of_memcmp held
    rw [formed.len_prefixText] at comparison
    refine ⟨_, ?_, comparison⟩
    rw [if_neg embedded, if_pos long]
    rfl

/-! ## Histories of rebuilds -/

structure Loadable (size : NodeSize) (array : List Anchor) : Prop where
  nonempty : array ≠ []
  bounded : array.length ≤ size.slots
  ascending : Ascending Anchor.text array

def commonText (array : List Anchor) : ByteString :=
  match array.head?, array.getLast? with
  | some first, some last => ⟨first.text.bytes.take (Util.commonPrefix first.text last.text)⟩
  | _, _ => ⟨[]⟩

/-- The node with the separators `array`, before its contents are rebuilt. -/
def load (node : StringNode size) (array : List Anchor) : StringNode size :=
  { node with anchors := fun index => array.getD index (node.anchors index), knum := array.length }

def rebuild (node : StringNode size) (array : List Anchor) : Except Fault (StringNode size) :=
  (node.load array).contentRebuild

def rebuilds (node : StringNode size) (arrays : List (List Anchor)) :
    Except Fault (StringNode size) :=
  arrays.foldlM rebuild node

variable {array : List Anchor}

theorem anchors_load {index : Nat} (listed : index < array.length) :
    array[index]? = some ((node.load array).anchors index) := by
  rw [getElem?_eq_getElem listed]
  exact congrArg some (getD_eq_getElem array _ listed).symm

theorem tabulate_load (node : StringNode size) (array : List Anchor) :
    tabulate (node.load array).knum (node.load array).anchors = array := by
  apply ext_getElem?
  intro index
  by_cases listed : index < array.length
  · rw [anchors_load listed]
    exact getElem?_tabulate _ listed
  · rw [getElem?_eq_none (not_lt.mp listed), getElem?_eq_none]
    rw [length_tabulate]
    exact not_lt.mp listed

theorem rebuild_spec (node : StringNode size) (loadable : Loadable size array) :
    ∃ rebuilt, node.rebuild array = .ok rebuilt ∧ Rebuilt (node.load array) rebuilt := by
  apply contentRebuild_spec
  · exact length_pos_of_ne_nil loadable.nonempty
  · exact loadable.bounded
  · apply ascending_tabulate.mp
    rw [tabulate_load]
    exact loadable.ascending

theorem Rebuilt.prefixText_eq {rebuilt : StringNode size} (nonempty : array ≠ [])
    (spec : Rebuilt (node.load array) rebuilt) : rebuilt.prefixText = commonText array := by
  have positive : 0 < array.length := length_pos_of_ne_nil nonempty
  have first : array.head? = some (rebuilt.anchors 0) := by
    rw [head?_eq_getElem?, spec.anchors_eq, anchors_load positive]
  have last : array.getLast? = some (rebuilt.anchors (rebuilt.knum - 1)) := by
    rw [getLast?_eq_getElem?, spec.anchors_eq, spec.knum_eq]
    exact anchors_load (by omega)
  have some : 0 < rebuilt.knum := by
    rw [spec.knum_eq]
    exact positive
  rw [prefixText, commonText, first, last, spec.wellFormed.plen_eq some]

theorem rebuilds_of_loadable (node : StringNode size) {arrays : List (List Anchor)}
    (loadable : ∀ array ∈ arrays, Loadable size array) :
    ∃ rebuilt, node.rebuilds arrays = .ok rebuilt := by
  induction arrays generalizing node with
  | nil => exact ⟨node, rfl⟩
  | cons array rest ih =>
    obtain ⟨rebuilt, rebuildEq, _⟩ := rebuild_spec node (loadable array mem_cons_self)
    obtain ⟨final, restEq⟩ := ih rebuilt fun other listed =>
      loadable other (mem_cons_of_mem array listed)
    refine ⟨final, ?_⟩
    rw [rebuilds, foldlM_cons, rebuildEq]
    exact restEq

theorem rebuilds_concat {rebuilt : StringNode size} {arrays : List (List Anchor)}
    (rebuildsEq : node.rebuilds arrays = .ok rebuilt) (array : List Anchor) :
    node.rebuilds (arrays ++ [array]) = rebuilt.rebuild array := by
  rw [rebuilds] at rebuildsEq ⊢
  rw [foldlM_append, rebuildsEq]
  simp only [foldlM_cons, foldlM_nil, bind_pure]
  rfl

/-- Two separators whose rebuild leaves `text` in `tiny_`. -/
def pairOf (text : ByteString) : List Anchor :=
  [⟨1, ⟨text.bytes ++ [0]⟩⟩, ⟨2, ⟨text.bytes ++ [1]⟩⟩]

section PairOf

variable (text : ByteString) (last : Byte)

theorem byte_append_of_lt {index : Nat} (inside : index < text.len) :
    byte ⟨text.bytes ++ [last]⟩ index = text.byte index :=
  getD_append _ _ _ _ inside

theorem byte_append_len : byte ⟨text.bytes ++ [last]⟩ text.len = last := by
  rw [byte, len, getD_append_right _ _ _ _ le_rfl, Nat.sub_self]
  rfl

theorem len_append : len ⟨text.bytes ++ [last]⟩ = text.len + 1 := by
  rw [len, length_append]
  rfl

theorem loadable_pairOf : Loadable size (pairOf text) where
  nonempty := cons_ne_nil _ _
  bounded := by
    have := size.eight_le_half
    have := size.slots_eq
    simp only [pairOf, length_cons, length_nil]
    omega
  ascending := by
    have less : (byte ⟨text.bytes ++ [0]⟩ text.len).toNat <
        (byte ⟨text.bytes ++ [1]⟩ text.len).toNat := by
      rw [byte_append_len, byte_append_len]
      decide
    refine pairwise_pair.mpr (lt_of_byte_lt ?_ less)
    intro index inside
    rw [byte_append_of_lt text 0 inside, byte_append_of_lt text 1 inside]

theorem commonPrefix_pairOf :
    Util.commonPrefix ⟨text.bytes ++ [0]⟩ ⟨text.bytes ++ [1]⟩ = text.len := by
  apply Nat.le_antisymm
  · by_contra longer
    have same := (Util.sameDigits_commonPrefix _ _).byte_eq (not_le.mp longer)
    rw [byte_append_len, byte_append_len] at same
    exact absurd same (by decide)
  · apply Util.le_commonPrefix
    · rw [len_append]
      exact Nat.le_succ _
    · apply sameDigits_of_bytes
      · rw [len_append]
        exact Nat.le_succ _
      · rw [len_append]
        exact Nat.le_succ _
      · intro index inside
        rw [byte_append_of_lt text 0 inside, byte_append_of_lt text 1 inside]

theorem tiny_pairOf (node : StringNode size) (short : text.len ≤ kEmbedPrSize) :
    ∃ rebuilt, node.rebuild (pairOf text) = .ok rebuilt ∧
      ∀ index < text.len, rebuilt.tiny index = text.byte index := by
  obtain ⟨rebuilt, rebuildEq, spec⟩ := rebuild_spec node (loadable_pairOf text)
  refine ⟨rebuilt, rebuildEq, ?_⟩
  have lengths : rebuilt.plen = text.len := by
    rw [← spec.wellFormed.len_prefixText, spec.prefixText_eq (cons_ne_nil _ _)]
    simp only [commonText, head?_cons, getLast?_cons_cons,
      getLast?_singleton, commonPrefix_pairOf]
    apply len_take
    rw [len_append]
    exact Nat.le_succ _
  intro index inside
  rw [spec.wellFormed.tiny_eq (by omega) index (by omega), spec.anchors_eq]
  exact byte_append_of_lt text 0 inside

end PairOf

theorem memcmp_zero_ne_gt (zero : ∀ byte ∈ key.bytes, byte = 0) (stored : Nat → Byte)
    (count : Nat) : memcmp key.byte stored count ≠ .gt := by
  have bytes : ∀ index, key.byte index = 0 := by
    intro index
    by_cases inside : index < key.len
    · apply zero
      rw [byte, getD_eq_getElem _ _ inside]
      exact getElem_mem inside
    · exact byte_of_le (not_lt.mp inside)
  rcases memcmp_cases key.byte stored count with ⟨equal, _⟩ | ⟨pos, _, _, ordered⟩
  · rw [equal]
    simp
  · rw [bytes pos] at ordered
    rcases ordered with ⟨less, _⟩ | ⟨_, impossible⟩
    · rw [less]
      simp
    · exact absurd impossible (Nat.not_lt_zero _)

theorem prefixCompare_of_short (short : key.len ≤ kEmbedPrSize) (shorter : key.len < node.plen) :
    node.prefixCompare key = .ok
      (if memcmp key.byte node.tiny key.len = .eq ∧ key.len < node.plen then .lt
      else memcmp key.byte node.tiny key.len) := by
  rw [prefixCompare, Nat.min_eq_left (Nat.le_of_lt shorter), if_pos short]
  rfl

theorem comparison_of_zero (zero : ∀ byte ∈ key.bytes, byte = 0) (stored : Nat → Byte)
    {count length : Nat} (shorter : count < length) :
    (if memcmp key.byte stored count = .eq ∧ count < length then .lt
      else memcmp key.byte stored count) = Ordering.lt := by
  have notGreater := memcmp_zero_ne_gt zero stored count
  cases result : memcmp key.byte stored count with
  | eq => rw [if_pos ⟨rfl, shorter⟩]
  | lt => rw [if_neg (fun both => nomatch both.1)]
  | gt => exact absurd result notGreater

theorem lt_of_zero (zero : ∀ byte ∈ key.bytes, byte = 0) {pre : ByteString}
    (shorter : key.len < pre.len) : key < pre := by
  have comparison : PrefixExact pre key _ := PrefixExact.of_memcmp fun _ _ => rfl
  rw [Nat.min_eq_left (Nat.le_of_lt shorter), comparison_of_zero zero _ shorter] at comparison
  exact comparison.less.mp rfl

/-- After every history that ends with `array`, the comparison of `key` is exact. -/
def ComparesExactly (node : StringNode size) (array : List Anchor) (key : ByteString) : Prop :=
  ∀ earlier : List (List Anchor), (∀ other ∈ earlier, Loadable size other) →
    ∃ rebuilt result, node.rebuilds (earlier ++ [array]) = .ok rebuilt ∧
      rebuilt.prefixCompare key = .ok result ∧ PrefixExact (commonText array) key result

theorem comparesExactly_of_covered (node : StringNode size) (loadable : Loadable size array)
    (covered : (commonText array).len ≤ kEmbedPrSize ∨ kEmbedPrSize < key.len ∨
      ∀ byte ∈ key.bytes, byte = 0) : ComparesExactly node array key := by
  intro earlier others
  obtain ⟨before, beforeEq⟩ := rebuilds_of_loadable node others
  obtain ⟨rebuilt, rebuildEq, spec⟩ := rebuild_spec before loadable
  have lengths : (commonText array).len = rebuilt.plen := by
    rw [← spec.prefixText_eq loadable.nonempty, spec.wellFormed.len_prefixText]
  have history : node.rebuilds (earlier ++ [array]) = .ok rebuilt := by
    rw [rebuilds_concat beforeEq, rebuildEq]
  rw [lengths] at covered
  by_cases compared : rebuilt.plen ≤ kEmbedPrSize ∨ kEmbedPrSize < key.len
  · obtain ⟨result, compareEq, comparison⟩ := prefixCompare_spec spec.wellFormed compared
    rw [spec.prefixText_eq loadable.nonempty] at comparison
    exact ⟨rebuilt, result, history, compareEq, comparison⟩
  · have zero : ∀ byte ∈ key.bytes, byte = 0 := by
      rcases covered with fits | long | zero
      · exact absurd (.inl fits) compared
      · exact absurd (.inr long) compared
      · exact zero
    have shorter : key.len < rebuilt.plen := by omega
    refine ⟨rebuilt, .lt, history, ?_, PrefixExact.of_lt (lt_of_zero zero (by omega))⟩
    rw [prefixCompare_of_short (by omega) shorter, comparison_of_zero zero _ shorter]

theorem ComparesExactly.of_pairOf (compares : ComparesExactly node array key)
    (loadable : Loadable size array) (long : kEmbedPrSize < (commonText array).len)
    (short : key.len ≤ kEmbedPrSize) (text : ByteString) (sameLength : text.len = key.len) :
    ∃ stored : Nat → Byte, (∀ index < key.len, stored index = text.byte index) ∧
      PrefixExact (commonText array) key
        (if memcmp key.byte stored key.len = .eq then .lt else memcmp key.byte stored key.len) := by
  obtain ⟨before, beforeEq, stale⟩ := tiny_pairOf text node (by omega)
  obtain ⟨rebuilt, rebuildEq, spec⟩ := rebuild_spec before loadable
  have lengths : (commonText array).len = rebuilt.plen := by
    rw [← spec.prefixText_eq loadable.nonempty, spec.wellFormed.len_prefixText]
  have kept : rebuilt.tiny = before.tiny := spec.tiny_eq (by omega)
  obtain ⟨found, result, history, compareEq, comparison⟩ := compares [pairOf text] (by
    intro other listed
    rw [mem_singleton.mp listed]
    exact loadable_pairOf text)
  have same : found = rebuilt := by
    have single : node.rebuilds [pairOf text] = .ok before := by
      rw [rebuilds, foldlM_cons, beforeEq]
      rfl
    rw [rebuilds_concat single, rebuildEq] at history
    exact (Except.ok.inj history).symm
  subst same
  refine ⟨found.tiny, ?_, ?_⟩
  · intro index inside
    rw [kept, stale index (by omega)]
  · rw [prefixCompare_of_short short (by omega)] at compareEq
    have resultEq := Except.ok.inj compareEq
    simp only [show key.len < found.plen by omega, and_true] at resultEq
    rw [resultEq]
    exact comparison

/-- The comparison is exact in every history unless the prefix is too long for `tiny_`
and the key is short and not made of zero bytes only. -/
theorem comparesExactly_iff (node : StringNode size) (array : List Anchor) (key : ByteString)
    (loadable : Loadable size array) :
    ComparesExactly node array key ↔
      (commonText array).len ≤ kEmbedPrSize ∨ kEmbedPrSize < key.len ∨
        ∀ byte ∈ key.bytes, byte = 0 := by
  refine ⟨?_, comparesExactly_of_covered node loadable⟩
  intro compares
  by_contra uncovered
  simp only [not_or, not_forall] at uncovered
  obtain ⟨long, short, byte, listed, nonzero⟩ := uncovered
  have bounded : key.len ≤ kEmbedPrSize := not_lt.mp short
  have tooLong : kEmbedPrSize < (commonText array).len := not_le.mp long
  -- compared with itself the key seems to be a proper part of the prefix
  have below : key < commonText array := by
    obtain ⟨stored, same, comparison⟩ := compares.of_pairOf loadable tooLong bounded key rfl
    rw [memcmp_eq (fun index inside => (same index inside).symm), if_pos rfl] at comparison
    exact comparison.less.mp rfl
  have above : commonText array < key := by
    obtain ⟨stored, same, comparison⟩ := compares.of_pairOf loadable tooLong bounded
      ⟨List.replicate key.len 0⟩ (length_replicate)
    have zeros : ∀ index < key.len, stored index = 0 := by
      intro index inside
      rw [same index inside]
      exact getD_replicate _ inside
    have greater : memcmp key.byte stored key.len = .gt := by
      rcases memcmp_cases key.byte stored key.len with ⟨_, bytes⟩ | ⟨pos, inside, _, ordered⟩
      · obtain ⟨index, inside, rfl⟩ := getElem_of_mem listed
        have zero := bytes index inside
        rw [zeros index inside, ByteString.byte, getD_eq_getElem _ _ inside] at zero
        exact absurd zero nonzero
      · rw [zeros pos inside] at ordered
        rcases ordered with ⟨_, impossible⟩ | ⟨greater, _⟩
        · exact absurd impossible (Nat.not_lt_zero _)
        · exact greater
    rw [greater, if_neg (by simp)] at comparison
    exact (comparison.greater.mp rfl).1
  exact lt_asymm below above

def blank : StringNode size where
  control := .new false
  knum := 0
  plen := 0
  huge := ⟨nullptr, ⟨[]⟩⟩
  next := nullptr
  features _ _ := 0
  tiny _ := 0
  anchors _ := ⟨nullptr, ⟨[]⟩⟩
  children _ := nullptr

theorem comparesExactly_blank :
    ComparesExactly (blank : StringNode .size64) (pairOf ⟨[2, 3]⟩) ⟨[1]⟩ :=
  (comparesExactly_iff blank (pairOf ⟨[2, 3]⟩) ⟨[1]⟩ (loadable_pairOf _)).mpr (by decide)

def longPair : List Anchor := pairOf ⟨List.replicate 225 2⟩

/-- The key is less than the prefix, but `tiny_` still holds a zero byte. -/
theorem prefixCompare_longPair :
    Loadable .size64 (pairOf ⟨[0]⟩) ∧ Loadable .size64 longPair ∧
    ((blank : StringNode .size64).rebuilds [pairOf ⟨[0]⟩, longPair]).bind
      (fun rebuilt => rebuilt.prefixCompare ⟨[1]⟩) = .ok .gt ∧
    ¬PrefixExact (commonText longPair) ⟨[1]⟩ .gt := by
  refine ⟨loadable_pairOf _, loadable_pairOf _, by decide +kernel, ?_⟩
  intro comparison
  have below : (⟨[1]⟩ : ByteString) < commonText longPair := by decide +kernel
  exact absurd (comparison.less.mpr below) (by decide)

end IndexResearch.FBTree.StringNode
