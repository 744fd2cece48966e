import IndexResearch.FBTree.ExtentNode.Anchors
import IndexResearch.FBTree.StringNode.Removal

/-!
# Extent accounting

Every node owns its separators in its extent after any calls: the bytes in use are those of
the separators, which lie apart from each other and hold what they were made of.  A resize in
the middle of a call copies only the separators counted by `knum_` at that moment, and these
are always all the separators of the extent.  All this as long as the sizes of extents fit
into an `int`; a separator that is too long for that runs into an assertion.
-/

namespace IndexResearch.FBTree.ExtentNode

open StringMemory Extent InnerNode List

variable {size : NodeSize} {self other right : ExtentNode size} {raw : StringNode size}
  {key : ByteString} {index : Nat} {address lchild rchild this : Ptr} {malloc : Nat → Block}
variable {extent : Extent} {removed : Removed (ExtentNode size) Anchor}

theorem live_inserted {count : Nat} {array after : Nat → Anchor} {anchor : Anchor}
    (live : Live extent (tabulate count array ++ [anchor])) (bounded : index ≤ count)
    (same : ∀ column ≤ count, after column = InnerNode.inserted array anchor index column) :
    Live extent (tabulate (count + 1) after) := by
  have shifted : tabulate (count + 1) after = insertAt (tabulate count array) index anchor := by
    rw [insertAt, ← tabulate_inserted array anchor bounded]
    exact tabulate_congr fun column inside => same column (Nat.le_of_lt_succ inside)
  rw [shifted]
  exact live.perm ((perm_append_singleton anchor _).trans (insertAt_perm _ _ _).symm)

theorem seps_perm (inside : index < self.node.knum) :
    self.seps.Perm (self.node.anchors index :: self.seps.eraseIdx index) := by
  have bounded : index < self.seps.length := by rwa [length_seps]
  rw [← getElem_seps bounded]
  exact (getElem_cons_eraseIdx_perm bounded).symm

structure Sound (owner : ExtentNode size) : Prop where
  knum_le : owner.node.knum ≤ size.slots
  owns : owner.Owns

theorem live_fresh (block : Block) :
    ∃ extent, Extent.init block kExtentSize = .ok extent ∧ Live extent [] := by
  have aligned : (kExtentSize : Int) % kExtentSize = 0 := by decide
  obtain ⟨extent, inits, live, _⟩ := Live.init block aligned (by decide) (by decide)
  exact ⟨extent, inits, live⟩

/-! ## Rebuilding -/

theorem markHuge_spec {node : StringNode size} (owns : Owns ⟨node, extent⟩)
    (rebuilt : Bool) (positive : rebuilt = true → 0 < node.knum) :
    ∃ marked, markHuge node extent rebuilt = .ok marked ∧ marked.node = node ∧ marked.Owns := by
  rw [markHuge]
  split
  · rename_i marks
    obtain ⟨marked, marks, live, _⟩ :=
      owns.setHuge_eq (mem_tabulate.mpr ⟨0, positive marks, rfl⟩)
    rw [marks]
    exact ⟨_, rfl, rfl, live⟩
  · exact ⟨_, rfl, rfl, owns⟩

theorem contentRebuild_owns (owns : self.Owns) (positive : 0 < self.node.knum) :
    ∃ rebuilt, self.contentRebuild = .ok rebuilt ∧ rebuilt.node.knum = self.node.knum ∧
      rebuilt.Owns := by
  obtain ⟨node, rebuilds⟩ := StringNode.exists_rebuild positive
  obtain ⟨knum, anchors⟩ := StringNode.rebuild_frame rebuilds
  have nodeOwns : Owns ⟨node, self.extent⟩ := by
    rw [Owns, seps, knum, anchors]
    exact owns
  obtain ⟨marked, marks, rfl, markedOwns⟩ := markHuge_spec nodeOwns true fun _ => knum ▸ positive
  refine ⟨marked, ?_, knum, markedOwns⟩
  rw [contentRebuild, rebuilds]
  exact marks

/-! ## Splitting -/

section Split

variable {rnode : ExtentNode size}

/-- What is left of a full node when its separators from `half` to `kid` were moved away. -/
structure Emptied (full : ExtentNode size) (kid : Nat) (source : ExtentNode size) : Prop where
  node_eq : source.node = full.node
  live : Live source.extent (full.seps.take size.half ++ full.seps.drop kid)

theorem Emptied.start (owns : self.Owns) : Emptied self size.half self := by
  refine ⟨rfl, ?_⟩
  rw [take_append_drop]
  exact owns

variable {kid : Nat} {pair : ExtentNode size × ExtentNode size}

theorem Emptied.live_cons (emptied : Emptied self kid other) (inside : kid < self.node.knum) :
    Live other.extent (self.seps.take size.half ++
      other.node.anchors kid :: self.seps.drop (kid + 1)) := by
  rw [emptied.node_eq, ← drop_seps inside]
  exact emptied.live

theorem Emptied.seps_eq (full : self.node.knum = size.slots) (emptied : Emptied self kid other) :
    (other.setKnum size.half).seps = self.seps.take size.half := by
  have bounded : size.half ≤ self.node.knum := by
    rw [full, size.slots_eq]
    exact Nat.le_add_left _ _
  rw [seps, seps, take_tabulate _ bounded, setKnum, emptied.node_eq]

theorem Emptied.owns (full : self.node.knum = size.slots)
    (emptied : Emptied self size.slots other) : (other.setKnum size.half).Owns := by
  have live := emptied.live
  rw [drop_of_length_le (by rw [length_seps, full]), append_nil,
    ← emptied.seps_eq full] at live
  exact live

structure LowMoved (full : ExtentNode size) (kid : Nat)
    (pair : ExtentNode size × ExtentNode size) : Prop where
  emptied : Emptied full kid pair.1
  live : Live pair.2.extent (tabulate (kid - size.half) pair.2.node.anchors)
  room : (total (full.seps.drop kid) : Int) ≤ pair.2.extent.left

theorem LowMoved.step
    (moved : LowMoved self kid pair) (above : size.half ≤ kid) (inside : kid < self.node.knum)
    (block : Block) :
    ∃ next, pair.1.transfer pair.2 block kid (kid - size.half) = .ok next ∧
      LowMoved self (kid + 1) next := by
  have room := moved.room
  rw [drop_seps inside, total_cons, ← moved.emptied.node_eq] at room
  obtain ⟨extent, anchor, filled, transfers, live, filledLive, left⟩ :=
    transfer_of_room (moved.emptied.live_cons inside) moved.live block (kid - size.half) (by omega)
  refine ⟨_, transfers, ⟨moved.emptied.node_eq, live⟩, ?_, ?_⟩
  · rw [Nat.sub_add_comm above]
    simp only [setAnchor]
    rw [tabulate_update_last]
    exact filledLive
  · simp only [setAnchor]
    omega

theorem splitLow_sound (owns : self.Owns) (full : self.node.knum = size.slots)
    (rowns : rnode.Owns) (empty : rnode.node.knum = 0) (malloc : Nat → Block) (rchild : Ptr)
    (key : ByteString) (fits : Fits (total self.seps + blockSize key)) (low : index < size.half) :
    ∃ left right mid, self.splitLow rnode malloc rchild key index = .ok (left, right, mid) ∧
      left.Sound ∧ right.Sound := by
  have slots := size.slots_eq
  have positive := size.eight_le_half
  have divided : total self.seps = total (self.seps.take size.half) +
      total (self.seps.drop size.half) := by
    rw [← total_append, take_append_drop]
  obtain ⟨resized, resizes, moved, resizedOwns, room⟩ :=
    extentResize_spec rowns (malloc 1) (total self.seps + sizeofExtent) (by
      rw [Fits, kExtentSize] at fits
      rw [seps, empty, kExtentSize, sizeofExtent, show total (tabulate 0 _) = 0 from rfl]
      omega)
  have start : LowMoved self size.half (self, resized) := by
    refine ⟨.start owns, ?_, ?_⟩
    · have live := resizedOwns
      rw [Owns, seps, moved.knum_eq, empty] at live
      rw [Nat.sub_self]
      exact live
    · simp only
      omega
  obtain ⟨⟨emptied, filled⟩, loop, done⟩ := forUp_rule _ (LowMoved self) size.half size.half start
    fun kid pair above inside moved => moved.step above (by omega) (malloc (kid + 2))
  rw [← slots] at done
  obtain ⟨made, anchor, makes, madeMoved, _, madeLive⟩ :=
    makeAnchor_spec (done.emptied.owns full) (malloc 2) key
      (fits.mono (by rw [done.emptied.seps_eq full]; omega))
  have leftOwns : Owns ⟨made.node.lowLeft rchild anchor index, made.extent⟩ := by
    rw [seps, madeMoved.knum_eq] at madeLive
    apply live_inserted madeLive (Nat.le_of_lt low)
    intro column inside
    simp only [StringNode.lowLeft]
    rw [moveBackward_eq_copy _ (Nat.le_succ index)]
    exact update_copy_eq_inserted _ _ inside
  have rightOwns : (filled.lowRight emptied).Owns := by
    have live := done.live
    rw [slots, Nat.add_sub_cancel] at live
    exact live
  obtain ⟨left, leftRebuilds, leftKnum, leftOwns⟩ := contentRebuild_owns leftOwns (Nat.succ_pos _)
  obtain ⟨right, rightRebuilds, rightKnum, rightOwns⟩ :=
    contentRebuild_owns rightOwns (Nat.lt_of_lt_of_le (by decide) positive)
  refine ⟨left, right, left.node.anchors size.half, ?_, ⟨?_, leftOwns⟩, ⟨?_, rightOwns⟩⟩
  · rw [Int.natCast_add] at resizes
    rw [splitLow, owns.usedSize_eq, resizes]
    simp only [ok_bind, loop, makes, leftRebuilds, rightRebuilds]
    rfl
  · rw [leftKnum]
    simp only [StringNode.lowLeft]
    omega
  · rw [rightKnum]
    simp only [lowRight]
    omega

/-- The number of separators in the right node when those up to `kid` were moved there and
the new one was put in front of that at `index`. -/
def movedCount (size : NodeSize) (index kid : Nat) : Nat :=
  kid - size.half + if index < kid then 1 else 0

structure HighMoved (full : ExtentNode size) (extra index kid : Nat)
    (pair : ExtentNode size × ExtentNode size) : Prop where
  emptied : Emptied full kid pair.1
  count : pair.2.node.knum = movedCount size index kid
  owns : pair.2.Owns
  total_le : total pair.2.seps + total (full.seps.drop kid) + (if index < kid then 0 else extra) ≤
    total full.seps + extra

theorem HighMoved.place
    (moved : HighMoved self (blockSize key) index kid pair) (above : size.half ≤ kid)
    (block : Block) (fits : Fits (total self.seps + blockSize key)) :
    ∃ rnode, pair.2.highPlace block key index kid = .ok rnode ∧ rnode.Owns ∧
      rnode.node.knum = (if kid < index then kid - size.half else kid - size.half + 1) ∧
      rnode.node.knum + 1 = movedCount size index (kid + 1) ∧
      total rnode.seps + total (self.seps.drop kid) +
        (if index < kid + 1 then 0 else blockSize key) ≤ total self.seps + blockSize key := by
  have count := moved.count
  have total_le := moved.total_le
  rw [movedCount] at count
  rw [highPlace, movedCount]
  split
  · rename_i here
    rw [if_neg (by omega)] at total_le
    obtain ⟨made, anchor, makes, madeMoved, text, live⟩ :=
      makeAnchor_spec moved.owns block key (fits.mono (by omega))
    have place : index - size.half = made.node.knum := by
      rw [madeMoved.knum_eq, count, here, if_neg (Nat.lt_irrefl index), Nat.add_zero]
    rw [makes]
    refine ⟨_, rfl, ?_, ?_, ?_, ?_⟩
    · dsimp only
      rw [place, Owns, seps_setAnchor]
      exact live
    · simp only [setKnum]
      rw [if_neg (by omega), here, place]
    · simp only [setKnum]
      rw [if_pos (by omega), ← place]
      omega
    · dsimp only
      rw [place, seps_setAnchor, total_append, madeMoved.total_eq, total_cons, text, total_nil,
        if_pos (by omega)]
      omega
  · rename_i elsewhere
    refine ⟨pair.2, rfl, moved.owns, ?_, ?_, ?_⟩
    · rw [count]
      split <;> split <;> omega
    · rw [count]
      split <;> split <;> omega
    · rw [if_congr (show index < kid + 1 ↔ index < kid by omega) rfl rfl]
      exact total_le

theorem HighMoved.step
    (moved : HighMoved self (blockSize key) index kid pair) (above : size.half ≤ kid)
    (inside : kid < self.node.knum) (malloc : Nat → Block)
    (fits : Fits (total self.seps + blockSize key)) :
    ∃ next, highRound malloc key index kid pair = .ok next ∧
      HighMoved self (blockSize key) index (kid + 1) next := by
  obtain ⟨rnode, places, owns, dst, next, total_le⟩ := moved.place above (malloc (2 * kid)) fits
  rw [drop_seps inside, total_cons, ← moved.emptied.node_eq] at total_le
  obtain ⟨extent, filled, transfers, live, node_eq, filledOwns, total_eq⟩ :=
    transfer_spec (moved.emptied.live_cons inside) owns (malloc (2 * kid + 1))
      (fits.mono (by omega))
  have knum : filled.node.knum = rnode.node.knum := by rw [node_eq]
  refine ⟨(⟨pair.1.node, extent⟩, filled.setKnum (filled.node.knum + 1)), ?_,
    ⟨moved.emptied.node_eq, live⟩, ?_, ?_, ?_⟩
  · rw [highRound, places, ← dst]
    simp only [ok_bind, transfers]
    rfl
  · rw [← next, ← knum]
    rfl
  · rw [knum]
    exact filledOwns
  · rw [knum, total_eq]
    omega

theorem splitHigh_sound (owns : self.Owns) (full : self.node.knum = size.slots)
    (rowns : rnode.Owns) (empty : rnode.node.knum = 0) (malloc : Nat → Block) (rchild : Ptr)
    (key : ByteString) (fits : Fits (total self.seps + blockSize key)) (low : size.half ≤ index)
    (high : index < size.slots) :
    ∃ left right mid, self.splitHigh rnode malloc rchild key index = .ok (left, right, mid) ∧
      left.Sound ∧ right.Sound := by
  have slots := size.slots_eq
  have positive := size.eight_le_half
  have start : HighMoved self (blockSize key) index size.half (self, rnode) := by
    refine ⟨.start owns, ?_, rowns, ?_⟩
    · rw [movedCount, if_neg (Nat.not_lt.mpr low), Nat.sub_self]
      exact empty
    · have none : total rnode.seps = 0 := by rw [seps, empty]; rfl
      have divided := total_append (self.seps.take size.half) (self.seps.drop size.half)
      rw [take_append_drop] at divided
      rw [if_neg (Nat.not_lt.mpr low)]
      simp only
      omega
  obtain ⟨⟨emptied, filled⟩, loop, done⟩ := forUp_rule _ (HighMoved self (blockSize key) index)
    size.half size.half start fun kid pair above inside moved =>
      moved.step above (by omega) malloc fits
  rw [← slots] at done
  have rightOwns : (filled.highRight emptied rchild index).Owns := by
    have count : filled.node.knum = size.half + 1 := by
      rw [done.count, movedCount, if_pos high, slots, Nat.add_sub_cancel]
    have live := done.owns
    rw [Owns, seps, count] at live
    exact live
  obtain ⟨left, leftRebuilds, leftKnum, leftOwns⟩ :=
    contentRebuild_owns (done.emptied.owns full) (Nat.lt_of_lt_of_le (by decide) positive)
  obtain ⟨right, rightRebuilds, rightKnum, rightOwns⟩ :=
    contentRebuild_owns rightOwns (Nat.succ_pos _)
  refine ⟨left, right, left.node.anchors (size.half - 1), ?_, ⟨?_, leftOwns⟩, ⟨?_, rightOwns⟩⟩
  · rw [splitHigh, loop]
    simp only [ok_bind, leftRebuilds, rightRebuilds]
    rfl
  · rw [leftKnum]
    simp only [setKnum]
    omega
  · rw [rightKnum]
    simp only [highRight]
    omega

theorem splitLast_sound (sound : self.Sound) (rowns : rnode.Owns) (empty : rnode.node.knum = 0)
    (malloc : Nat → Block) (lchild rchild : Ptr) (key : ByteString)
    (fits : Fits (total self.seps + blockSize key)) :
    ∃ left right mid, self.splitLast rnode malloc lchild rchild key = .ok (left, right, mid) ∧
      left.Sound ∧ right.Sound := by
  have slots := size.slots_eq
  have positive := size.eight_le_half
  have none : total rnode.seps = 0 := by rw [seps, empty]; rfl
  obtain ⟨made, anchor, makes, moved, _, live⟩ :=
    makeAnchor_spec rowns (malloc 1) key (fits.mono (by omega))
  rw [seps, moved.knum_eq, empty] at live
  have owns : Owns ⟨made.node.lastRight lchild rchild anchor, made.extent⟩ := live
  obtain ⟨right, rebuilds, knum, rightOwns⟩ := contentRebuild_owns owns Nat.one_pos
  refine ⟨self, right, self.node.anchors (size.slots - 1), ?_, sound, ⟨?_, rightOwns⟩⟩
  · rw [splitLast, makes]
    simp only [ok_bind, rebuilds]
    rfl
  · rw [knum]
    simp only [StringNode.lastRight]
    omega

theorem split_sound (sound : self.Sound) (full : self.node.knum = size.slots)
    (raw : StringNode size) (malloc : Nat → Block) (address lchild rchild : Ptr) (key : ByteString)
    (fits : Fits (total self.seps + blockSize key)) (inside : index ≤ self.node.knum) :
    ∃ left right mid, self.split raw malloc address lchild rchild key index =
        .ok (left, right, mid) ∧ left.Sound ∧ right.Sound := by
  obtain ⟨extent, inits, live⟩ := live_fresh (malloc 0)
  have owns : Owns ⟨self.node.newSibling raw, extent⟩ := live
  have linked : Sound ⟨self.node.linkTo address, self.extent⟩ := ⟨sound.knum_le, sound.owns⟩
  rw [split, inits]
  simp only [ok_bind]
  split
  · exact splitLast_sound linked owns rfl malloc lchild rchild key fits
  · split
    · rename_i low
      exact splitLow_sound linked.owns full owns rfl malloc rchild key fits low
    · rename_i last high
      apply splitHigh_sound linked.owns full owns rfl malloc rchild key fits (not_lt.mp high)
      omega

end Split

/-! ## Insertion -/

theorem insert_sound (sound : self.Sound) (raw : StringNode size) (malloc : Nat → Block)
    (address lchild rchild : Ptr) (key : ByteString)
    (fits : Fits (total self.seps + blockSize key)) (inside : index ≤ self.node.knum) :
    ∃ left rnode mid, self.insert raw malloc address lchild rchild key index =
        .ok (left, rnode, mid) ∧ left.Sound ∧ ∀ right, rnode = some right → right.Sound := by
  rw [insert, if_neg (Nat.not_lt.mpr inside)]
  split
  · rename_i space
    obtain ⟨made, anchor, makes, moved, _, live⟩ :=
      makeAnchor_spec sound.owns (malloc 0) key fits
    have knum := moved.knum_eq
    have bounded : index ≤ made.node.knum := knum ▸ inside
    obtain ⟨⟨node, rnode, mid⟩, inserts⟩ :=
      StringNode.insert_returns raw address lchild rchild anchor bounded
    obtain ⟨count, anchors⟩ := StringNode.insert_frame (knum ▸ space) inserts
    have owns : Owns ⟨node, made.extent⟩ := by
      rw [Owns, seps, count]
      exact live_inserted live bounded anchors
    have positive : 0 < node.knum := count ▸ Nat.succ_pos _
    obtain ⟨marked, marks, rfl, markedOwns⟩ :=
      markHuge_spec owns (index == 0 || index == self.node.knum) fun _ => positive
    rw [makes]
    simp only [ok_bind, inserts, marks]
    refine ⟨_, _, _, rfl, ⟨?_, markedOwns⟩, (by simp)⟩
    rw [count, knum]
    exact space
  · rename_i noSpace
    have renewed : Sound ⟨self.node.updateVersion, self.extent⟩ := ⟨sound.knum_le, sound.owns⟩
    obtain ⟨left, right, mid, splits, leftSound, rightSound⟩ := split_sound renewed
      (Nat.le_antisymm sound.knum_le (not_lt.mp noSpace)) raw malloc address lchild rchild
        key
      fits inside
    rw [splits]
    refine ⟨left, some right, mid, rfl, leftSound, ?_⟩
    rintro _ ⟨⟩
    exact rightSound

theorem seps_swap (anchor : Anchor) (inside : index < self.node.knum) :
    (self.seps ++ [anchor]).Perm (self.node.anchors index ::
      tabulate self.node.knum (Function.update self.node.anchors index anchor)) := by
  have bounded : index < self.seps.length := by rwa [length_seps]
  calc self.seps ++ [anchor]
    List.Perm _ (anchor :: self.seps) := perm_append_singleton anchor _
    List.Perm _ (anchor :: self.node.anchors index :: self.seps.eraseIdx index) :=
      (seps_perm inside).cons anchor
    List.Perm _ (self.node.anchors index :: anchor :: self.seps.eraseIdx index) := .swap _ _ _
    List.Perm _ (self.node.anchors index :: self.seps.set index anchor) :=
      (set_perm_cons_eraseIdx bounded anchor).symm.cons _
    _ = _ := by rw [tabulate_update, seps]

theorem anchorUpdate_sound (sound : self.Sound) (block : Block) (key : ByteString)
    (fits : Fits (total self.seps + blockSize key)) (inside : index < self.node.knum) :
    ∃ updated up, self.anchorUpdate block key index = .ok (updated, up) ∧ updated.Sound := by
  obtain ⟨made, anchor, makes, moved, _, live⟩ := makeAnchor_spec sound.owns block key fits
  have knum := moved.knum_eq
  have within : index < made.node.knum := knum ▸ inside
  obtain ⟨ruined, ruins, ruinedLive, _⟩ := (live.perm (seps_swap anchor within)).ruinAnchor_eq
  obtain ⟨⟨node, up⟩, updates⟩ := StringNode.anchorUpdate_returns anchor within
  obtain ⟨count, anchors⟩ := StringNode.anchorUpdate_frame updates
  have owns : Owns ⟨node, ruined⟩ := by
    rw [Owns, seps, count, anchors]
    exact ruinedLive
  have positive : 0 < node.knum := count ▸ Nat.zero_lt_of_lt within
  obtain ⟨marked, marks, rfl, markedOwns⟩ :=
    markHuge_spec owns (index == 0 || index == made.node.knum - 1) fun _ => positive
  refine ⟨marked, up, ?_, ⟨?_, markedOwns⟩⟩
  · rw [anchorUpdate, if_neg (Nat.not_le.mpr inside), makes]
    simp only [bind, Except.bind, ruinAnchor, ruins]
    dsimp only [Except.map]
    simp only [updates, marks]
  · rw [count, knum]
    exact sound.knum_le

/-! ## Removal -/

theorem merge_sound (sound : self.Sound) (rightSound : right.Sound) (malloc : Nat → Block)
    (this : Ptr) (key : Anchor) (positive : 0 < self.node.knum)
    (fits : self.node.control.sibling = true → Fits (total self.seps + total right.seps)) :
    ∃ removed, self.merge right malloc this key = .ok removed ∧ removed.node.Sound ∧
      removed.right.Sound := by
  have slots := size.slots_eq
  rw [merge]
  split
  · rename_i sibling
    rw [if_neg (Nat.not_lt.mpr positive)]
    split
    · rename_i few
      obtain ⟨rest, merged, absorbs, rest_eq, restLive, merged_eq, mergedOwns⟩ :=
        absorb_spec sound.owns rightSound.owns malloc (fits sibling)
      have knum : merged.node.knum = self.node.knum + right.node.knum := by rw [merged_eq]
      obtain ⟨rebuilt, rebuilds, count, rebuiltOwns⟩ := contentRebuild_owns
        (show (merged.takeChildren right (merged.node.knum - right.node.knum) 0
          right.node.knum).Owns from mergedOwns)
        (knum ▸ Nat.add_pos_left positive _)
      rw [absorbs]
      simp only [ok_bind, rebuilds]
      refine ⟨_, rfl, ⟨?_, rebuiltOwns⟩, ⟨Nat.zero_le _, restLive⟩⟩
      have total : rebuilt.node.knum = self.node.knum + right.node.knum := count.trans knum
      have limit := sound.knum_le
      simp only [StringNode.inherit]
      omega
    · exact ⟨_, rfl, sound, rightSound⟩
  · exact ⟨_, rfl, sound, rightSound⟩

theorem boundRemove_sound (owns : (self.setKnum (self.node.knum - 1)).Owns)
    (limit : self.node.knum ≤ size.slots) (rightSound : right.Sound)
    (malloc : Nat → Block) (this : Ptr) (key : Anchor) (last : index = self.node.knum - 1)
    (positive : 0 < self.node.knum)
    (fed : self.node.control.sibling = true → 2 ≤ self.node.knum + right.node.knum)
    (fits : self.node.control.sibling = true →
      Fits (total (self.setKnum (self.node.knum - 1)).seps + total right.seps)) :
    ∃ removed, self.boundRemove right malloc this key index = .ok removed ∧ removed.node.Sound ∧
      removed.right.Sound := by
  have slots := size.slots_eq
  have half := size.eight_le_half
  rw [boundRemove]
  split
  · rename_i sibling
    have enough := fed sibling
    have rightLimit := rightSound.knum_le
    dsimp only
    split
    · rename_i few
      have renewed : Owns ⟨right.node.updateVersion, right.extent⟩ := rightSound.owns
      obtain ⟨rest, merged, absorbs, rest_eq, restLive, merged_eq, mergedOwns⟩ :=
        absorb_spec owns renewed malloc (fits sibling)
      have knum : merged.node.knum = self.node.knum - 1 + right.node.knum := by
        rw [merged_eq]
        rfl
      obtain ⟨rebuilt, rebuilds, count, rebuiltOwns⟩ := contentRebuild_owns
        (show (merged.takeChildren ⟨right.node.updateVersion, right.extent⟩
          (merged.node.knum - right.node.knum + 1) 1 (right.node.knum - 1)).Owns from mergedOwns)
        (by simp only [takeChildren]; omega)
      have total : rebuilt.node.knum = self.node.knum - 1 + right.node.knum := count.trans knum
      rw [boundMerge, absorbs]
      simp only [ok_bind]
      dsimp only [StringNode.updateVersion] at rebuilds ⊢
      rw [rebuilds]
      refine ⟨_, rfl, ⟨?_, rebuiltOwns⟩, ⟨Nat.zero_le _, restLive⟩⟩
      simp only [StringNode.inherit]
      simp only [StringNode.updateVersion] at few
      omega
    · rename_i many
      have several : 0 < self.node.knum - 1 := by omega
      obtain ⟨kept, rebuilds, count, keptOwns⟩ := contentRebuild_owns owns several
      rw [handOver, rebuilds]
      refine ⟨_, rfl, ⟨?_, keptOwns⟩, ⟨rightLimit, rightSound.owns⟩⟩
      rw [count]
      exact Nat.le_trans (Nat.sub_le _ _) limit
  · obtain ⟨node, removes⟩ := StringNode.removeLast_returns self.node index
    obtain ⟨count, anchors⟩ := StringNode.removeLast_frame removes
    have nodeOwns : Owns ⟨node, self.extent⟩ := by
      rw [Owns, seps, count, anchors]
      exact owns
    obtain ⟨marked, marks, rfl, markedOwns⟩ :=
      markHuge_spec nodeOwns (node.knum != 0) fun some => Nat.pos_of_ne_zero (bne_iff_ne.mp some)
    rw [removeLast, removes]
    simp only [ok_bind, marks]
    refine ⟨_, rfl, ⟨?_, markedOwns⟩, rightSound⟩
    simp only
    omega

theorem seps_of_last (inside : index < self.node.knum) (last : index = self.node.knum - 1) :
    seps (setKnum ⟨self.node.updateVersion, extent⟩ (self.node.knum - 1)) =
      self.seps.eraseIdx index := by
  rw [seps, seps, ← tabulate_erased self.node.anchors inside]
  exact tabulate_congr fun column before => (if_pos (last ▸ before)).symm

theorem owns_of_last {ruined : Extent} (live : Live ruined (self.seps.eraseIdx index))
    (inside : index < self.node.knum) (last : index = self.node.knum - 1) :
    (setKnum ⟨self.node.updateVersion, ruined⟩ (self.node.knum - 1)).Owns := by
  rw [Owns, seps_of_last inside last]
  exact live

theorem total_eraseIdx_le (inside : index < self.node.knum) :
    total (self.seps.eraseIdx index) ≤ total self.seps := by
  rw [total_perm (seps_perm inside), total_cons]
  exact Nat.le_add_left _ _

theorem remove_sound (sound : self.Sound) (rightSound : right.Sound) (malloc : Nat → Block)
    (this : Ptr) (key : Anchor) (inside : index < self.node.knum)
    (fed : self.node.control.sibling = true → 2 ≤ self.node.knum + right.node.knum)
    (fits : self.node.control.sibling = true → Fits (total self.seps + total right.seps)) :
    ∃ removed, self.remove right malloc this key index = .ok removed ∧ removed.node.Sound ∧
      removed.right.Sound := by
  have limit := sound.knum_le
  have fewer := total_eraseIdx_le inside
  obtain ⟨ruined, ruins, live, _⟩ := (sound.owns.perm (seps_perm inside)).ruinAnchor_eq
  rw [remove, if_neg (Nat.not_le.mpr inside), ruinAnchor, ruins]
  simp only [bind, Except.bind, Except.map]
  split
  · rename_i inner
    obtain ⟨node, removes⟩ := StringNode.removeInner_returns inner
    obtain ⟨count, anchors⟩ := StringNode.removeInner_frame removes
    have control := (StringNode.removeInner_view inner removes).2
    have erased : seps ⟨node, ruined⟩ = self.seps.eraseIdx index := by
      rw [seps, count, tabulate_congr anchors]
      exact tabulate_erased self.node.anchors inside
    have owns : Owns ⟨node, ruined⟩ := by
      rw [Owns, erased]
      exact live
    have several : 0 < node.knum := count ▸ Nat.zero_lt_of_lt inner
    obtain ⟨marked, marks, rfl, markedOwns⟩ := markHuge_spec owns (index == 0) fun _ => several
    simp only [removes, marks]
    refine merge_sound ⟨?_, markedOwns⟩ rightSound malloc this key several fun sibling => ?_
    · rw [count]
      exact Nat.le_trans (Nat.sub_le _ _) limit
    · rw [control] at sibling
      refine (fits sibling).mono (Nat.add_le_add_right ?_ _)
      rw [show marked.seps = self.seps.eraseIdx index from erased]
      exact fewer
  · rename_i border
    have last : index = self.node.knum - 1 := by
      simp only [StringNode.updateVersion] at border
      omega
    refine boundRemove_sound (owns_of_last live inside last) limit rightSound malloc this key last
      (Nat.zero_lt_of_lt inside) fed fun sibling => (fits sibling).mono ?_
    refine Nat.add_le_add_right (le_of_eq_of_le ?_ fewer) _
    exact congrArg total (seps_of_last inside last)

theorem contentRebuild_pos (result : self.contentRebuild = .ok other) : 0 < self.node.knum := by
  obtain ⟨node, rebuilds, _⟩ := bind_eq_ok.mp result
  by_contra empty
  rw [StringNode.contentRebuild, if_pos (Nat.eq_zero_of_not_pos empty)] at rebuilds
  cases rebuilds

theorem boundMerge_pos (owns : (self.setKnum (self.node.knum - 1)).Owns) (rightOwns : right.Owns)
    (fits : Fits (total (self.setKnum (self.node.knum - 1)).seps + total right.seps)) {key : Anchor}
    (result : self.boundMerge right malloc this key index = .ok removed) :
    0 < self.node.knum - 1 + right.node.knum := by
  obtain ⟨rest, merged, absorbs, _, _, merged_eq, _⟩ := absorb_spec owns rightOwns malloc fits
  rw [boundMerge, absorbs] at result
  obtain ⟨_, ⟨⟩, result⟩ := bind_eq_ok.mp result
  obtain ⟨rebuilt, rebuilds, _⟩ := bind_eq_ok.mp result
  have positive := contentRebuild_pos rebuilds
  simp only [takeChildren] at positive
  rw [merged_eq] at positive
  exact positive

theorem remove_fed (sound : self.Sound) (rightSound : right.Sound) {key : Anchor}
    (fits : self.node.control.sibling = true → Fits (total self.seps + total right.seps))
    (result : self.remove right malloc this key index = .ok removed) :
    index < self.node.knum ∧
      (self.node.control.sibling = true → 2 ≤ self.node.knum + right.node.knum) := by
  rw [remove] at result
  split at result
  · cases result
  · rename_i inside
    have within : index < self.node.knum := not_le.mp inside
    refine ⟨within, ?_⟩
    intro sibling
    obtain ⟨ruined, ruins, live, _⟩ := (sound.owns.perm (seps_perm within)).ruinAnchor_eq
    by_contra starved
    have first : index = 0 := by omega
    have border : ¬index < self.node.updateVersion.knum - 1 := by
      simp only [StringNode.updateVersion]
      omega
    have renewed : self.node.updateVersion.control.sibling = true := sibling
    rw [ruinAnchor, ruins] at result
    obtain ⟨_, ⟨⟩, result⟩ := bind_eq_ok.mp result
    dsimp only at result
    rw [if_neg border, boundRemove, if_pos renewed] at result
    dsimp only at result
    rw [if_pos (.inr (.inl first))] at result
    have rightOwns : Owns ⟨right.node.updateVersion, right.extent⟩ := rightSound.owns
    have last : index = self.node.knum - 1 := by omega
    have small : Fits (total (seps (setKnum ⟨self.node.updateVersion, ruined⟩
        (self.node.knum - 1))) + total right.seps) := by
      rw [seps_of_last within last]
      exact (fits sibling).mono (Nat.add_le_add_right (total_eraseIdx_le within) _)
    have positive := boundMerge_pos (owns_of_last live within last) rightOwns small result
    simp only [StringNode.updateVersion] at positive
    omega

/-! ## Runs -/

/-- A call; `malloc` tells what the allocator returns during the call, and `raw` is what the
memory holds that the call obtains at `address`. -/
inductive Action (size : NodeSize) where
  | create (address : Ptr) (raw : StringNode size) (block : Block)
  | insert (ptr : Ptr) (raw : StringNode size) (malloc : Nat → Block) (address lchild rchild : Ptr)
      (key : ByteString) (index : Nat)
  | remove (ptr : Ptr) (malloc : Nat → Block) (key : Anchor) (index : Nat)
  | anchorUpdate (ptr : Ptr) (block : Block) (key : ByteString) (index : Nat)

abbrev Nodes (size : NodeSize) := Ptr → Option (ExtentNode size)

namespace Nodes

def load (nodes : Nodes size) (ptr : Ptr) : Except Fault (ExtentNode size) :=
  match nodes ptr with
  | some node => .ok node
  | none => .error .wildPointer

def store (nodes : Nodes size) (ptr : Ptr) (node : ExtentNode size) : Nodes size :=
  Function.update nodes ptr (some node)

def rightOf (nodes : Nodes size) (ptr : Ptr) (self : ExtentNode size) :
    Except Fault (ExtentNode size) :=
  if self.node.control.sibling then
    if self.node.next = ptr then .error .endless else nodes.load self.node.next
  else .ok self

def step (nodes : Nodes size) : Action size → Except Fault (Nodes size)
  | .create address raw block => do
      let node ← ExtentNode.new raw block
      return nodes.store address node
  | .insert ptr raw malloc address lchild rchild key index => do
      let self ← nodes.load ptr
      let (left, right, _) ← self.insert raw malloc address lchild rchild key index
      return match right with
        | none => nodes.store ptr left
        | some right => (nodes.store ptr left).store address right
  | .remove ptr malloc key index => do
      let self ← nodes.load ptr
      let right ← nodes.rightOf ptr self
      let removed ← self.remove right malloc ptr key index
      return if self.node.control.sibling then
          (nodes.store ptr removed.node).store self.node.next removed.right
        else nodes.store ptr removed.node
  | .anchorUpdate ptr block key index => do
      let self ← nodes.load ptr
      let (updated, _) ← self.anchorUpdate block key index
      return nodes.store ptr updated

/-- The separators that the call may put into one node leave its extent below 2 GiB. -/
def fits (nodes : Nodes size) : Action size → Bool
  | .create _ _ _ => true
  | .insert ptr _ _ _ _ _ key _ | .anchorUpdate ptr _ key _ =>
    (nodes ptr).all fun self => decide (Fits (total self.seps + blockSize key))
  | .remove ptr _ _ _ => (nodes ptr).all fun self =>
    !self.node.control.sibling || (nodes self.node.next).all fun right =>
      decide (Fits (total self.seps + total right.seps))

def machine (size : NodeSize) : Machine (Nodes size) (Action size) where
  initial nodes := nodes = fun _ => none
  next nodes action := (nodes.step action).toOption

def Sound (nodes : Nodes size) : Prop := ∀ ptr node, nodes ptr = some node → node.Sound

variable {nodes nodes' : Nodes size} {ptr : Ptr}

theorem load_eq_ok : nodes.load ptr = .ok self ↔ nodes ptr = some self := by
  rw [Nodes.load]
  cases nodes ptr with
  | none => simp
  | some node => simp

theorem Sound.load (sound : nodes.Sound) (loaded : nodes.load ptr = .ok self) : self.Sound :=
  sound ptr self (load_eq_ok.mp loaded)

theorem Sound.store (sound : nodes.Sound) (ptr : Ptr) (nodeSound : self.Sound) :
    (nodes.store ptr self).Sound := by
  intro other stored found
  by_cases here : other = ptr
  · rw [here, Nodes.store, Function.update_self] at found
    exact Option.some.inj found ▸ nodeSound
  · rw [Nodes.store, Function.update_of_ne here] at found
    exact sound other stored found

theorem Sound.rightOf (sound : nodes.Sound) (nodeSound : self.Sound)
    (found : nodes.rightOf ptr self = .ok right) : right.Sound := by
  rw [Nodes.rightOf] at found
  split at found
  · split at found
    · cases found
    · exact sound.load found
  · exact Except.ok.inj found ▸ nodeSound

theorem fits_of_rightOf {malloc : Nat → Block} {key : Anchor}
    (loaded : nodes.load ptr = .ok self) (found : nodes.rightOf ptr self = .ok right)
    (fits : nodes.fits (.remove ptr malloc key index) = true)
    (sibling : self.node.control.sibling = true) : Fits (total self.seps + total right.seps) := by
  rw [Nodes.rightOf, if_pos sibling] at found
  split at found
  · cases found
  · rw [Nodes.fits, load_eq_ok.mp loaded, Option.all_some, sibling, load_eq_ok.mp found,
      Option.all_some] at fits
    simpa using fits

theorem Sound.step {action : Action size} (sound : nodes.Sound) (fits : nodes.fits action = true)
    (result : nodes.step action = .ok nodes') : nodes'.Sound := by
  cases action with
  | create address raw block =>
    obtain ⟨extent, inits, live⟩ := live_fresh block
    obtain ⟨node, creates, result⟩ := bind_eq_ok.mp result
    rw [ExtentNode.new, inits] at creates
    cases creates
    cases result
    exact sound.store address ⟨Nat.zero_le _, live⟩
  | insert ptr raw malloc address lchild rchild key index =>
    obtain ⟨self, loaded, result⟩ := bind_eq_ok.mp result
    obtain ⟨⟨left, rnode, mid⟩, inserts, result⟩ := bind_eq_ok.mp result
    have inside : index ≤ self.node.knum := by
      by_contra outside
      rw [ExtentNode.insert, if_pos (not_le.mp outside)] at inserts
      cases inserts
    rw [Nodes.fits, load_eq_ok.mp loaded, Option.all_some, decide_eq_true_iff] at fits
    obtain ⟨_, _, _, returns, leftSound, rightSound⟩ :=
      insert_sound (sound.load loaded) raw malloc address lchild rchild key fits inside
    obtain ⟨⟩ := returns.symm.trans inserts
    cases result
    cases rnode with
    | none => exact sound.store ptr leftSound
    | some right => exact (sound.store ptr leftSound).store address (rightSound right rfl)
  | remove ptr malloc key index =>
    obtain ⟨self, loaded, result⟩ := bind_eq_ok.mp result
    obtain ⟨right, found, result⟩ := bind_eq_ok.mp result
    obtain ⟨removed, removes, result⟩ := bind_eq_ok.mp result
    have nodeSound := sound.load loaded
    have rightSound := sound.rightOf nodeSound found
    have small := fits_of_rightOf loaded found fits
    obtain ⟨inside, fed⟩ := remove_fed nodeSound rightSound small removes
    obtain ⟨_, returns, keptSound, restSound⟩ :=
      remove_sound nodeSound rightSound malloc ptr key inside fed small
    obtain ⟨⟩ := returns.symm.trans removes
    cases result
    split
    · exact (sound.store ptr keptSound).store self.node.next restSound
    · exact sound.store ptr keptSound
  | anchorUpdate ptr block key index =>
    obtain ⟨self, loaded, result⟩ := bind_eq_ok.mp result
    obtain ⟨⟨updated, up⟩, updates, result⟩ := bind_eq_ok.mp result
    have inside : index < self.node.knum := by
      by_contra outside
      rw [ExtentNode.anchorUpdate, if_pos (not_lt.mp outside)] at updates
      cases updates
    rw [Nodes.fits, load_eq_ok.mp loaded, Option.all_some, decide_eq_true_iff] at fits
    obtain ⟨_, _, returns, updatedSound⟩ :=
      anchorUpdate_sound (sound.load loaded) block key fits inside
    obtain ⟨⟩ := returns.symm.trans updates
    cases result
    exact sound.store ptr updatedSound

theorem sound_of_reachable
    (reached : (machine size).Reachable (fun nodes action => nodes.fits action = true) nodes) :
    nodes.Sound := by
  apply reached.invariant
  · rintro _ rfl ptr node stored
    cases stored
  · intro nodes action nodes' sound fits moved
    exact sound.step fits (toOption_eq_some.mp moved)

end Nodes

/-- The separators of a node lie in its extent, apart from each other, and can be read; they
take all bytes that are neither unused nor free. -/
structure Accounted (owner : ExtentNode size) : Prop where
  free_nonneg : 0 ≤ owner.extent.free
  free_le : owner.extent.free ≤ owner.extent.used
  used_le : owner.extent.used ≤ owner.extent.mlen
  used_eq : owner.extent.used - owner.extent.free = total owner.seps
  inside : ∀ kid < owner.node.knum, owner.extent.start ≤ (owner.node.anchors kid).address ∧
    ((owner.node.anchors kid).address + blockSize (owner.node.anchors kid).text : Int) ≤
      owner.extent.start + owner.extent.used
  apart : ∀ first second, first < second → second < owner.node.knum →
    Apart (owner.node.anchors first) (owner.node.anchors second)
  holds : ∀ kid < owner.node.knum, owner.extent.load (owner.node.anchors kid) =
    .ok (owner.node.anchors kid).text

theorem Sound.accounted (sound : self.Sound) : self.Accounted := by
  have listed : ∀ kid < self.node.knum, self.node.anchors kid ∈ self.seps :=
    fun kid inside => mem_tabulate.mpr ⟨kid, inside, rfl⟩
  have balance := sound.owns.balance
  refine ⟨sound.owns.free_nonneg, by omega, sound.owns.used_le, by omega, ?_, ?_, ?_⟩
  · exact fun kid inside => sound.owns.inside _ (listed kid inside)
  · intro first second before inside
    have apart := pairwise_iff_getElem.mp sound.owns.apart first second
    simp only [length_seps, getElem_seps] at apart
    exact apart (Nat.lt_trans before inside) inside before
  · exact fun kid inside => sound.owns.load_eq (listed kid inside)

namespace Nodes

variable {nodes : Nodes size} {ptr : Ptr}

/-- Every call with an index in range and sizes that fit returns, but for a removal that takes
the last separator of a node whose right sibling has none.  The assertions that follow a
resize hold. -/
structure Serves (nodes : Nodes size) (owner : ExtentNode size) : Prop where
  insert : ∀ raw malloc address lchild rchild key index,
    Fits (total owner.seps + blockSize key) → index ≤ owner.node.knum →
    ∃ result, owner.insert raw malloc address lchild rchild key index = .ok result
  remove : ∀ ptr right, nodes ptr = some right → ∀ malloc this key index, index < owner.node.knum →
    (owner.node.control.sibling = true → 2 ≤ owner.node.knum + right.node.knum) →
    (owner.node.control.sibling = true → Fits (total owner.seps + total right.seps)) →
    ∃ removed, owner.remove right malloc this key index = .ok removed
  anchorUpdate : ∀ block key index, Fits (total owner.seps + blockSize key) →
    index < owner.node.knum → ∃ result, owner.anchorUpdate block key index = .ok result

/-- After any calls whose sizes fit, the extent of a node accounts for the separators of the
node, and calls on the node return. -/
theorem reachable_accounted
    (reached : (machine size).Reachable (fun nodes action => nodes.fits action = true) nodes)
    (stored : nodes ptr = some self) : self.Accounted ∧ nodes.Serves self := by
  have sound := sound_of_reachable reached
  have nodeSound := sound ptr self stored
  refine ⟨nodeSound.accounted, ?_, ?_, ?_⟩
  · intro raw malloc address lchild rchild key index fits inside
    obtain ⟨left, rnode, mid, returns, _⟩ :=
      insert_sound nodeSound raw malloc address lchild rchild key fits inside
    exact ⟨_, returns⟩
  · intro other right rightStored malloc this key index inside fed fits
    obtain ⟨removed, returns, _⟩ :=
      remove_sound nodeSound (sound other right rightStored) malloc this key inside fed fits
    exact ⟨removed, returns⟩
  · intro block key index fits inside
    obtain ⟨updated, up, returns, _⟩ := anchorUpdate_sound nodeSound block key fits inside
    exact ⟨_, returns⟩

def blankBlock (address : Ptr) : Block := ⟨address, fun _ => .char 0⟩

/-- The second separator does not fit into the first extent of the node; later the first one is
replaced. -/
def growingCalls : List (Action .size16) :=
  [.create 1 StringNode.blank (blankBlock 4096),
    .insert 1 StringNode.blank (fun _ => blankBlock 8192) 2 3 4 ⟨[97, 98]⟩ 0,
    .insert 1 StringNode.blank (fun _ => blankBlock 8192) 2 4 5 ⟨List.replicate 2040 98⟩ 1,
    .anchorUpdate 1 (blankBlock 16384) ⟨[97, 99, 100]⟩ 0]

theorem reachable_accounted_growingCalls : ∃ (nodes : Nodes .size16) (self : ExtentNode .size16),
    (machine .size16).Reachable (fun nodes action => nodes.fits action = true) nodes ∧
      nodes 1 = some self ∧
      (self.node.knum, self.extent.mlen, self.extent.free) = (2, 4080, 6) ∧ self.Accounted := by
  have counted : (((machine .size16).execChecked fits (fun _ => none) growingCalls).bind
      fun nodes => (nodes 1).map fun self =>
        (self.node.knum, self.extent.mlen, self.extent.free)) = some (2, 4080, 6) := by
    decide +kernel
  obtain ⟨nodes, executed, found⟩ := Option.bind_eq_some_iff.mp counted
  obtain ⟨self, stored, count⟩ := Option.map_eq_some_iff.mp found
  have started : (machine .size16).Reachable (fun nodes action => nodes.fits action = true)
      fun _ => none := .start rfl
  have reached := started.execChecked (fun _ _ fits => fits) executed
  exact ⟨nodes, self, reached, stored, count, (reachable_accounted reached stored).1⟩

theorem exists_key (length : Nat) : ∃ key : ByteString, key.len = length :=
  ⟨⟨List.replicate length 0⟩, length_replicate⟩

/-- Without the bound, a separator of `2 ^ 31 - 4` bytes makes `extent_resize` ask for a
negative size: the extent stays as it is, and the assertion on the new separator fails. -/
theorem insert_fails_hugeKey : ∃ (nodes : Nodes .size16) (self : ExtentNode .size16)
    (key : ByteString), (machine .size16).Reachable Machine.anyStep nodes ∧ nodes 1 = some self ∧
      self.node.knum = 0 ∧ key.len = 2147483644 ∧ ∀ raw malloc address lchild rchild,
        self.insert raw malloc address lchild rchild key 0 = .error .check := by
  obtain ⟨key, long⟩ := exists_key 2147483644
  let extent : Extent := ⟨4096, 2032, 0, 0, 0, fun _ => .char 0⟩
  let self : ExtentNode .size16 := ⟨StringNode.blank.new, extent⟩
  have full : extent.makeAnchor key = none := by
    rw [Extent.makeAnchor, blockSize, long]
    exact if_neg (by decide +kernel)
  have stays (block : Block) : self.extentResize block (toInt (blockSize key)) = .ok self := by
    rw [blockSize, long]
    exact if_neg (by decide +kernel)
  have fails (block : Block) : self.makeAnchor block key = .error .check := by
    rw [ExtentNode.makeAnchor, show self.extent = extent from rfl, full, stays]
    simp only [ok_bind, show self.extent = extent from rfl, full]
  have created : (machine .size16).next (fun _ => none)
      (.create 1 StringNode.blank (blankBlock 4096)) = some (Nodes.store (fun _ => none) 1 self) :=
    rfl
  refine ⟨_, self, key, .step (.start rfl) trivial created, Function.update_self _ _ _, rfl, long,
    ?_⟩
  intro raw malloc address lchild rchild
  rw [ExtentNode.insert, if_neg (by decide), if_pos (by decide), fails]
  rfl

end Nodes

end IndexResearch.FBTree.ExtentNode
