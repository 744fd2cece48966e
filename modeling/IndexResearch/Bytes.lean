import IndexResearch.Bitmap

/-!
# Words compared as byte strings

A word of `size` bytes is read as the string of its bytes in memory order.
`lexRank` orders words by the first byte in which they differ, bytes being
compared as signed numbers.  The second half collects what prefix compression
and column-wise search need: how this order interacts with agreement on a number
of leading bytes.
-/

namespace IndexResearch

abbrev Byte := BitVec 8

variable {size : Nat}

/-- `((char*) &word)[index]`. -/
def byteAt (word : BitVec (8 * size)) (index : Nat) : Byte :=
  word.extractLsb' (8 * index) 8

def ofBytes (size : Nat) (byte : Nat → Byte) : BitVec (8 * size) :=
  ofBits (8 * size) fun index => (byte (index / 8)).getLsbD (index % 8)

theorem getLsbD_byteAt (word : BitVec (8 * size)) (index bit : Nat) :
    (byteAt word index).getLsbD bit = (decide (bit < 8) && word.getLsbD (8 * index + bit)) := by
  rw [byteAt, BitVec.getLsbD_extractLsb']

theorem byteAt_of_ge (word : BitVec (8 * size)) {index : Nat} (outside : size ≤ index) :
    byteAt word index = 0 := by
  apply BitVec.eq_of_getLsbD_eq
  intro bit _
  rw [getLsbD_byteAt, BitVec.getLsbD_of_ge word _ (by omega)]
  simp

@[simp] theorem byteAt_ofBytes (byte : Nat → Byte) {index : Nat} (inside : index < size) :
    byteAt (ofBytes size byte) index = byte index := by
  apply BitVec.eq_of_getLsbD_eq
  intro bit small
  have quotient : (8 * index + bit) / 8 = index := by omega
  have remainder : (8 * index + bit) % 8 = bit := by omega
  have bounded : 8 * index + bit < 8 * size := by omega
  rw [getLsbD_byteAt, ofBytes, getLsbD_ofBits, quotient, remainder]
  simp [small, bounded]

theorem eq_of_byteAt_eq {left right : BitVec (8 * size)}
    (same : ∀ index < size, byteAt left index = byteAt right index) : left = right := by
  apply BitVec.eq_of_getLsbD_eq
  intro bit inside
  have sameByte := same (bit / 8) (by omega)
  have sameBit := congrArg (fun byte : Byte => byte.getLsbD (bit % 8)) sameByte
  have recombined : 8 * (bit / 8) + bit % 8 = bit := by omega
  simpa only [getLsbD_byteAt, recombined, Nat.mod_lt bit (by decide : 0 < 8), decide_true,
    Bool.true_and] using sameBit

def byteSwap (word : BitVec (8 * size)) : BitVec (8 * size) :=
  ofBytes size fun index => byteAt word (size - 1 - index)

theorem byteSwap_byteSwap (word : BitVec (8 * size)) : byteSwap (byteSwap word) = word := by
  apply eq_of_byteAt_eq
  intro index inside
  have mirrored : size - 1 - index < size := by omega
  have back : size - 1 - (size - 1 - index) = index := by omega
  rw [byteSwap, byteAt_ofBytes _ inside, byteSwap, byteAt_ofBytes _ mirrored, back]

def shiftBytes (word : BitVec (8 * size)) : BitVec (8 * size) :=
  ofBytes size fun index => byteAt word index + 128#8

theorem shiftBytes_shiftBytes (word : BitVec (8 * size)) : shiftBytes (shiftBytes word) = word := by
  apply eq_of_byteAt_eq
  intro index inside
  rw [shiftBytes, byteAt_ofBytes _ inside, shiftBytes, byteAt_ofBytes _ inside, BitVec.add_assoc]
  simp

def lexRank (word : BitVec (8 * size)) : Nat := (byteSwap (shiftBytes word)).toNat

theorem lexRank_injective {left right : BitVec (8 * size)}
    (same : lexRank left = lexRank right) : left = right := by
  have swapped := congrArg byteSwap (BitVec.eq_of_toNat_eq same)
  rw [byteSwap_byteSwap, byteSwap_byteSwap] at swapped
  have shifted := congrArg shiftBytes swapped
  rwa [shiftBytes_shiftBytes, shiftBytes_shiftBytes] at shifted

theorem slt_iff_shifted (left right : Byte) :
    left.slt right = true ↔ (left + 128#8).toNat < (right + 128#8).toNat := by
  have leftBound := left.isLt
  have rightBound := right.isLt
  rw [BitVec.slt_iff_toInt_lt, BitVec.toInt_eq_toNat_cond, BitVec.toInt_eq_toNat_cond,
    BitVec.toNat_add, BitVec.toNat_add]
  simp only [BitVec.toNat_ofNat]
  split <;> split <;> omega

theorem toNat_lt_of_byte_lt {left right : BitVec (8 * size)} {index : Nat}
    (higher : ∀ above, index < above → byteAt left above = byteAt right above)
    (smaller : (byteAt left index).toNat < (byteAt right index).toNat) :
    left.toNat < right.toNat := by
  have sameHigh : left.toNat >>> (8 * index + 8) = right.toNat >>> (8 * index + 8) := by
    apply Nat.eq_of_testBit_eq
    intro bit
    rw [Nat.testBit_shiftRight, Nat.testBit_shiftRight]
    have sameByte := higher (index + 1 + bit / 8) (by omega)
    have sameBit := congrArg (fun byte : Byte => byte.getLsbD (bit % 8)) sameByte
    have recombined : 8 * (index + 1 + bit / 8) + bit % 8 = 8 * index + 8 + bit := by omega
    simp only [getLsbD_byteAt, recombined, Nat.mod_lt bit (by decide : 0 < 8), decide_true,
      Bool.true_and] at sameBit
    exact sameBit
  rw [byteAt, byteAt, BitVec.extractLsb'_toNat, BitVec.extractLsb'_toNat] at smaller
  rw [Nat.shiftRight_add, Nat.shiftRight_add] at sameHigh
  rw [Nat.shiftRight_eq_div_pow _ 8, Nat.shiftRight_eq_div_pow _ 8] at sameHigh
  have shifted : left.toNat >>> (8 * index) < right.toNat >>> (8 * index) := by omega
  by_contra reversed
  have monotone := Nat.div_le_div_right (c := 2 ^ (8 * index)) (not_lt.mp reversed)
  rw [← Nat.shiftRight_eq_div_pow, ← Nat.shiftRight_eq_div_pow] at monotone
  omega

/-! ## Agreement on leading bytes -/

/-- The first `length` bytes of two words are the same. -/
def Agree (length : Nat) (left right : BitVec (8 * size)) : Prop :=
  ∀ index < length, byteAt left index = byteAt right index

variable {first second third : BitVec (8 * size)} {length : Nat}

theorem Agree.symm (agree : Agree length first second) : Agree length second first :=
  fun index inside => (agree index inside).symm

theorem Agree.trans (left : Agree length first second) (right : Agree length second third) :
    Agree length first third :=
  fun index inside => (left index inside).trans (right index inside)

theorem Agree.mono {shorter : Nat} (agree : Agree length first second) (below : shorter ≤ length) :
    Agree shorter first second :=
  fun index inside => agree index (Nat.lt_of_lt_of_le inside below)

theorem Agree.eq (agree : Agree size first second) : first = second :=
  eq_of_byteAt_eq agree

theorem Agree.succ (agree : Agree length first second)
    (same : byteAt first length = byteAt second length) : Agree (length + 1) first second := by
  intro index inside
  rcases Nat.lt_succ_iff_lt_or_eq.mp inside with before | rfl
  · exact agree index before
  · exact same

theorem Agree.lexRank_lt (agree : Agree length first second)
    (smaller : (byteAt first length).slt (byteAt second length) = true) :
    lexRank first < lexRank second := by
  have inside : length < size := by
    by_contra outside
    rw [byteAt_of_ge first (not_lt.mp outside),
      byteAt_of_ge second (not_lt.mp outside)] at smaller
    exact absurd smaller (by decide)
  have mirrored : size - 1 - length < size := by omega
  have back : size - 1 - (size - 1 - length) = length := by omega
  refine toNat_lt_of_byte_lt (?_ : ∀ above, size - 1 - length < above → _) ?_
  · intro above higher
    rcases Nat.lt_or_ge above size with below | outside
    · have pos : size - 1 - above < size := by omega
      rw [byteSwap, byteSwap, byteAt_ofBytes _ below, byteAt_ofBytes _ below, shiftBytes,
        shiftBytes, byteAt_ofBytes _ pos, byteAt_ofBytes _ pos,
        agree (size - 1 - above) (by omega)]
    · rw [byteAt_of_ge _ outside, byteAt_of_ge _ outside]
  · rw [byteSwap, byteSwap, byteAt_ofBytes _ mirrored, byteAt_ofBytes _ mirrored, back, shiftBytes,
      shiftBytes, byteAt_ofBytes _ inside, byteAt_ofBytes _ inside]
    exact (slt_iff_shifted _ _).mp smaller

theorem slt_or_slt_of_ne {left right : Byte} (different : left ≠ right) :
    left.slt right = true ∨ right.slt left = true := by
  rw [slt_iff_shifted, slt_iff_shifted]
  have distinct : (left + 128#8).toNat ≠ (right + 128#8).toNat := by
    intro same
    have sum := BitVec.eq_of_toNat_eq same
    exact different (by simpa using sum)
  omega

theorem exists_first_difference (disagree : ¬Agree length first second) :
    ∃ index < length, Agree index first second ∧ byteAt first index ≠ byteAt second index := by
  induction length with
  | zero => exact absurd (fun index inside => absurd inside (Nat.not_lt_zero index)) disagree
  | succ length ih =>
    by_cases shorter : Agree length first second
    · refine ⟨length, Nat.lt_succ_self length, shorter, ?_⟩
      intro same
      exact disagree (shorter.succ same)
    · obtain ⟨index, inside, agree, different⟩ := ih shorter
      exact ⟨index, Nat.lt_succ_of_lt inside, agree, different⟩

theorem lexRank_lt_of_lt_of_agree (below : lexRank first < lexRank second)
    (agree : Agree length second third) (disagree : ¬Agree length first third) :
    lexRank first < lexRank third := by
  obtain ⟨index, inside, same, different⟩ := exists_first_difference disagree
  rcases slt_or_slt_of_ne different with smaller | greater
  · exact same.lexRank_lt smaller
  · have shared : Agree index second first := (agree.mono (Nat.le_of_lt inside)).trans same.symm
    have reversed : lexRank second < lexRank first := by
      apply shared.lexRank_lt
      rwa [agree index inside]
    omega

theorem lexRank_lt_of_agree_of_lt (above : lexRank second < lexRank first)
    (agree : Agree length second third) (disagree : ¬Agree length first third) :
    lexRank third < lexRank first := by
  obtain ⟨index, inside, same, different⟩ := exists_first_difference disagree
  rcases slt_or_slt_of_ne different with smaller | greater
  · have shared : Agree index first second := same.trans (agree.mono (Nat.le_of_lt inside)).symm
    have reversed : lexRank first < lexRank second := by
      apply shared.lexRank_lt
      rwa [agree index inside]
    omega
  · exact same.symm.lexRank_lt greater

theorem Agree.of_between (agree : Agree length first third)
    (lower : lexRank first ≤ lexRank second) (upper : lexRank second ≤ lexRank third) :
    Agree length first second := by
  by_contra disagree
  have disagree' : ¬Agree length second first := fun same => disagree same.symm
  rcases Nat.lt_or_ge (lexRank second) (lexRank third) with below | equal
  · have := lexRank_lt_of_lt_of_agree below agree.symm disagree'
    omega
  · have same : second = third := lexRank_injective (Nat.le_antisymm upper equal)
    exact disagree (same ▸ agree)

/-! ## Strings of signed chars -/

def memoryChars (word : BitVec (8 * size)) : List Int :=
  (List.range size).map fun index => (byteAt word index).toInt

theorem memoryChars_lt_iff :
    memoryChars first < memoryChars second ↔ lexRank first < lexRank second := by
  have decided {left right : BitVec (8 * size)} {index : Nat} (inside : index < size)
      (agree : Agree index left right)
      (smaller : (byteAt left index).slt (byteAt right index) = true) :
      memoryChars left < memoryChars right := by
    have lengths (word : BitVec (8 * size)) : (memoryChars word).length = size := by
      simp [memoryChars]
    refine List.lt_iff_exists.mpr (.inr ⟨index, by rw [lengths]; exact inside,
      by rw [lengths]; exact inside, ?_, ?_⟩)
    · intro pos before
      simp only [memoryChars, List.getElem_map, List.getElem_range]
      rw [agree pos before]
    · simp only [memoryChars, List.getElem_map, List.getElem_range]
      exact BitVec.slt_iff_toInt_lt.mp smaller
  have forward {left right : BitVec (8 * size)} (below : lexRank left < lexRank right) :
      memoryChars left < memoryChars right := by
    have disagree : ¬Agree size left right := by
      intro agree
      rw [agree.eq] at below
      exact Nat.lt_irrefl _ below
    obtain ⟨index, inside, agree, different⟩ := exists_first_difference disagree
    rcases slt_or_slt_of_ne different with smaller | greater
    · exact decided inside agree smaller
    · exact absurd (agree.symm.lexRank_lt greater) (Nat.not_lt.mpr (Nat.le_of_lt below))
  constructor
  · intro below
    rcases Nat.lt_trichotomy (lexRank first) (lexRank second) with less | equal | greater
    · exact less
    · rw [lexRank_injective equal] at below
      exact absurd below (lt_irrefl _)
    · exact absurd (forward greater) (lt_asymm below)
  · exact forward

end IndexResearch
