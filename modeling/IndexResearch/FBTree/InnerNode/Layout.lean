import IndexResearch.FBTree.InnerNode

/-!
# The column layout stores a sorted list

`Stores node sep count` says that the first `count` columns hold the separators
`sep` and that the prefix is as long as possible.  Each operation on the layout is
described by the separators it stores afterwards.
-/

namespace IndexResearch.FBTree.InnerNode

variable {size : NodeSize} {type : KeyType} {node : InnerNode size type}
  {sep : Nat → Encoded type} {count index : Nat}

def Increasing (sep : Nat → Encoded type) (count : Nat) : Prop :=
  ∀ first second, first < second → second < count → lexRank (sep first) < lexRank (sep second)

structure Stores (node : InnerNode size type) (sep : Nat → Encoded type) (count : Nat) : Prop where
  plen_le : node.plen ≤ type.size
  separator_eq : ∀ column < count, node.separator column = sep column
  maximal : 0 < count → node.plen < type.size →
    byteAt (sep 0) node.plen ≠ byteAt (sep (count - 1)) node.plen
  empty : count = 0 → node.plen = 0

section

variable (increasing : Increasing sep count)
include increasing

theorem Increasing.le {first second : Nat} (ordered : first ≤ second) (inside : second < count) :
    lexRank (sep first) ≤ lexRank (sep second) := by
  rcases Nat.eq_or_lt_of_le ordered with rfl | before
  · exact le_rfl
  · exact Nat.le_of_lt (increasing first second before inside)

theorem Increasing.mono {fewer : Nat} (bounded : fewer ≤ count) : Increasing sep fewer :=
  fun first second before inside =>
    increasing first second before (Nat.lt_of_lt_of_le inside bounded)

theorem Increasing.congr {other : Nat → Encoded type}
    (same : ∀ column < count, other column = sep column) : Increasing other count := by
  intro first second before inside
  rw [same first (Nat.lt_trans before inside), same second inside]
  exact increasing first second before inside

theorem Increasing.agree {length column : Nat}
    (ends : Agree length (sep 0) (sep (count - 1))) (inside : column < count) :
    Agree length (sep 0) (sep column) := by
  apply ends.of_between
  · exact increasing.le (Nat.zero_le column) inside
  · exact increasing.le (by omega) (by omega)

end

theorem byteAt_separator (node : InnerNode size type) (column : Nat) {rid : Nat}
    (inside : rid < type.size) :
    byteAt (node.separator column) rid =
      if rid < node.plen then node.prefixBytes rid else node.features (rid - node.plen) column := by
  rw [separator, byteAt_ofBytes _ inside]

theorem separator_congr {other : InnerNode size type} (samePlen : other.plen = node.plen)
    (samePrefix : other.prefixBytes = node.prefixBytes)
    (sameFeatures : other.features = node.features) (column : Nat) :
    other.separator column = node.separator column := by
  rw [separator, separator, samePlen, samePrefix, sameFeatures]

section

variable (stores : Stores node sep count)
include stores

theorem Stores.congr {other : InnerNode size type}
    (samePlen : other.plen = node.plen) (samePrefix : other.prefixBytes = node.prefixBytes)
    (sameFeatures : other.features = node.features) : Stores other sep count where
  plen_le := samePlen ▸ stores.plen_le
  separator_eq column inside := by
    rw [separator_congr samePlen samePrefix sameFeatures, stores.separator_eq column inside]
  maximal positive short := by
    rw [samePlen] at short ⊢
    exact stores.maximal positive short
  empty none := samePlen.trans (stores.empty none)

theorem Stores.congr_sep {other : Nat → Encoded type}
    (same : ∀ column < count, other column = sep column) : Stores node other count where
  plen_le := stores.plen_le
  separator_eq column inside := (stores.separator_eq column inside).trans (same column inside).symm
  maximal positive short := by
    rw [same 0 positive, same (count - 1) (by omega)]
    exact stores.maximal positive short
  empty := stores.empty

theorem Stores.agree {first second : Nat}
    (firstInside : first < count) (secondInside : second < count) :
    Agree node.plen (sep first) (sep second) := by
  intro rid below
  have inside := Nat.lt_of_lt_of_le below stores.plen_le
  rw [← stores.separator_eq first firstInside, ← stores.separator_eq second secondInside,
    byteAt_separator node first inside, byteAt_separator node second inside, if_pos below,
    if_pos below]

theorem Stores.prefixBytes_eq {column rid : Nat}
    (inside : column < count) (below : rid < node.plen) :
    node.prefixBytes rid = byteAt (sep column) rid := by
  rw [← stores.separator_eq column inside,
    byteAt_separator node column (Nat.lt_of_lt_of_le below stores.plen_le), if_pos below]

theorem Stores.features_eq {column rid : Nat}
    (inside : column < count) (within : rid + node.plen < type.size) :
    node.features rid column = byteAt (sep column) (rid + node.plen) := by
  rw [← stores.separator_eq column inside, byteAt_separator node column within,
    if_neg (by omega), Nat.add_sub_cancel]

theorem Stores.prefix_maximal {length : Nat}
    (positive : 0 < count) (longer : node.plen < length) (bounded : length ≤ type.size) :
    ¬Agree length (sep 0) (sep (count - 1)) := by
  intro agree
  exact stores.maximal positive (by omega) (agree node.plen longer)

end

/-! ## Changing the compression -/

def expanded (node : InnerNode size type) (column : Nat) : Encoded type :=
  ofBytes type.size fun rid => node.features rid column

theorem byteAt_expanded (node : InnerNode size type) (column : Nat) {rid : Nat}
    (inside : rid < type.size) : byteAt (node.expanded column) rid = node.features rid column :=
  byteAt_ofBytes _ inside

theorem features_memoryExpand {column rid : Nat} (bounded : node.plen ≤ type.size)
    (inside : rid < type.size) (within : column < size.slots) :
    node.memoryExpand.features rid column = byteAt (node.separator column) rid := by
  rw [byteAt_separator node column inside]
  simp only [memoryExpand, mapRows, copy]
  split
  · exact if_pos within
  · rename_i notPrefix
    rw [if_pos (by omega), Nat.add_zero]

theorem memoryShrink_spec (positive : 0 < node.knum)
    (increasing : Increasing node.expanded node.knum) :
    ∃ shrunk, node.memoryShrink = .ok shrunk ∧ Stores shrunk node.expanded node.knum ∧
      shrunk.control = node.control ∧ shrunk.knum = node.knum ∧ shrunk.next = node.next ∧
      shrunk.children = node.children := by
  have nonempty : node.knum ≠ 0 := by omega
  rw [memoryShrink, if_neg nonempty]
  refine ⟨_, rfl, ?_, rfl, rfl, rfl, rfl⟩
  generalize found : scan (fun pid => node.features pid 0 == node.features pid (node.knum - 1))
    type.size = pid
  have bounded : pid ≤ type.size := found ▸ scan_le
  have ends : Agree pid (node.expanded 0) (node.expanded (node.knum - 1)) := by
    intro rid below
    rw [byteAt_expanded _ _ (by omega), byteAt_expanded _ _ (by omega)]
    exact beq_iff_eq.mp (scan_passes (found.symm ▸ below))
  refine ⟨bounded, ?_, ?_, fun none => absurd none nonempty⟩
  · intro column inside
    apply eq_of_byteAt_eq
    intro rid within
    rw [byteAt_separator _ _ within, byteAt_expanded _ _ within]
    simp only [copy]
    split
    · rename_i below
      rw [if_pos ⟨by omega, within⟩]
      have shared := increasing.agree ends inside rid below
      rwa [byteAt_expanded _ _ within, byteAt_expanded _ _ within] at shared
    · rename_i above
      rw [if_pos (by omega)]
      congr 1
      omega
  · intro _ short
    simp only at short ⊢
    rw [byteAt_expanded _ _ short, byteAt_expanded _ _ short]
    have differs := scan_fails (found.symm ▸ short)
    rw [found] at differs
    exact fun same => absurd differs (by simp [same])

theorem prefixExtension_spec (positive : 0 < count) (bounded : node.plen ≤ type.size)
    (separators : ∀ column < count, node.separator column = sep column)
    (increasing : Increasing sep count) :
    Stores (node.prefixExtension count) sep count := by
  unfold prefixExtension
  generalize found : scan (fun pid => node.features pid 0 == node.features pid (count - 1))
    (type.size - node.plen) = pid
  have limit : pid ≤ type.size - node.plen := found ▸ scan_le
  have columnByte : ∀ column < count, ∀ rid, node.plen ≤ rid → rid < type.size →
      byteAt (sep column) rid = node.features (rid - node.plen) column := by
    intro column inside rid above within
    rw [← separators column inside, byteAt_separator node column within, if_neg (by omega)]
  have ends : Agree (node.plen + pid) (sep 0) (sep (count - 1)) := by
    intro rid below
    have within : rid < type.size := by omega
    by_cases before : rid < node.plen
    · rw [← separators 0 positive, ← separators (count - 1) (by omega),
        byteAt_separator node _ within, byteAt_separator node _ within, if_pos before,
        if_pos before]
    · rw [columnByte 0 positive rid (by omega) within,
        columnByte (count - 1) (by omega) rid (by omega) within]
      exact beq_iff_eq.mp (scan_passes (found.symm ▸ (by omega : rid - node.plen < pid)))
  refine ⟨by simp only; omega, ?_, ?_, fun none => absurd none (by omega)⟩
  · intro column inside
    apply eq_of_byteAt_eq
    intro rid within
    have shared := increasing.agree ends inside
    rw [byteAt_separator _ _ within]
    simp only [copy]
    by_cases before : rid < node.plen
    · rw [if_pos (by omega), if_neg (by omega), ← separators column inside,
        byteAt_separator node _ within, if_pos before]
    · by_cases moved : rid < node.plen + pid
      · rw [if_pos moved, if_pos ⟨by omega, moved⟩, ← shared rid moved,
          columnByte 0 positive rid (by omega) within]
      · rw [if_neg moved, if_pos (by omega), columnByte column inside rid (by omega) within]
        congr 1
        omega
  · intro _ short
    simp only at short ⊢
    rw [columnByte 0 positive _ (by omega) short,
      columnByte (count - 1) (by omega) _ (by omega) short, Nat.add_sub_cancel_left]
    have differs := scan_fails (found.symm ▸ (by omega : pid < type.size - node.plen))
    rw [found] at differs
    exact fun same => absurd differs (by simp [same])

end IndexResearch.FBTree.InnerNode
