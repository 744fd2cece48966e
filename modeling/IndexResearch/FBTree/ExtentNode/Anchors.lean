import IndexResearch.FBTree.ExtentNode

/-!
# Separators in extents

Making, copying and moving separators: what is in use stays in use, and an extent that was
resized has the room that was asked for, as long as the sizes fit into an `int`.
-/

namespace IndexResearch.FBTree

open StringMemory Extent List

variable {size : NodeSize}

theorem total_tabulate_le {count more : Nat} (array : Nat → Anchor) (fewer : count ≤ more) :
    total (tabulate count array) ≤ total (tabulate more array) := by
  obtain ⟨rest, rfl⟩ := Nat.exists_eq_add_of_le fewer
  rw [tabulate_add, total_append]
  exact Nat.le_add_right _ _

namespace ExtentNode

variable {self other source target : ExtentNode size} {key : ByteString} {index : Nat}

def seps (self : ExtentNode size) : List Anchor := tabulate self.node.knum self.node.anchors

@[simp] theorem length_seps : self.seps.length = self.node.knum := length_tabulate _ _

@[simp] theorem getElem_seps (bounded : index < self.seps.length) :
    self.seps[index] = self.node.anchors index := by
  simp [seps, tabulate]

def Owns (self : ExtentNode size) : Prop := Live self.extent self.seps

structure Moved (before after : ExtentNode size) : Prop where
  node_eq : after.node = { before.node with anchors := after.node.anchors }
  text_eq : ∀ kid < before.node.knum,
    (after.node.anchors kid).text = (before.node.anchors kid).text

namespace Moved

theorem refl (self : ExtentNode size) (extent : Extent) : Moved self ⟨self.node, extent⟩ :=
  ⟨rfl, fun _ _ => rfl⟩

theorem knum_eq (moved : Moved self other) : other.node.knum = self.node.knum := by
  rw [moved.node_eq]

end Moved

theorem Moved.total_eq (moved : Moved self other) : total other.seps = total self.seps := by
  have texts : other.seps.map Anchor.text = self.seps.map Anchor.text := by
    rw [seps, seps, tabulate, tabulate, map_map, map_map, moved.knum_eq]
    exact map_congr_left fun kid listed => moved.text_eq kid (mem_range.mp listed)
  have sizes := congrArg (fun texts => (texts.map blockSize).sum) texts
  rwa [map_map, map_map] at sizes

theorem seps_setAnchor (self : ExtentNode size) (anchor : Anchor) :
    ((self.setAnchor self.node.knum anchor).setKnum (self.node.knum + 1)).seps =
      self.seps ++ [anchor] :=
  tabulate_update_last _ _ _

/-! ## `extent_resize` -/

/-- A node can hold separators of so many bytes. -/
def Fits (bytes : Nat) : Prop := bytes + 2 * kExtentSize ≤ 2 ^ 31

instance (bytes : Nat) : Decidable (Fits bytes) := inferInstanceAs (Decidable (_ ≤ _))

theorem Fits.mono {fewer bytes : Nat} (fits : Fits bytes) (le : fewer ≤ bytes) : Fits fewer :=
  le_trans (Nat.add_le_add_right le _) fits

theorem Fits.resize {bytes more : Nat} (fits : Fits (bytes + more)) :
    bytes + more + sizeofExtent + kExtentSize ≤ 2 ^ 31 := by
  rw [Fits, kExtentSize] at fits
  rw [kExtentSize, sizeofExtent]
  omega

/-- The state of the loop of `extent_resize` after `kid` rounds. -/
structure Relocated (anchors : Nat → Anchor) (room : Int) (kid : Nat)
    (state : (Nat → Anchor) × Extent) : Prop where
  live : Live state.2 (tabulate kid state.1)
  text_eq : ∀ pos, (state.1 pos).text = (anchors pos).text
  ahead : ∀ pos, kid ≤ pos → state.1 pos = anchors pos
  room_eq : state.2.left + total (tabulate kid anchors) = room

theorem Relocated.step (owns : self.Owns) {room : Int} {kid : Nat} {state : (Nat → Anchor) × Extent}
    (relocated : Relocated self.node.anchors room kid state) (inside : kid < self.node.knum)
    (enough : total self.seps ≤ room) :
    ∃ next, relocate self.extent kid state = .ok next ∧
      Relocated self.node.anchors room (kid + 1) next := by
  have counted := relocated.room_eq
  have some := total_tabulate_le self.node.anchors (show kid + 1 ≤ self.node.knum from inside)
  rw [tabulate_succ, total_append, total_cons, total_nil] at some
  rw [seps] at enough
  obtain ⟨anchor, made, makes, text, live, left⟩ :=
    relocated.live.makeAnchor_eq (self.node.anchors kid).text (by omega)
  have loads := owns.load_eq (mem_tabulate.mpr ⟨kid, inside, rfl⟩)
  refine ⟨(Function.update state.1 kid anchor, made), ?_, ?_, ?_, ?_, ?_⟩
  · rw [relocate, relocated.ahead kid le_rfl, loads]
    simp only [ok_bind, makes]
    rfl
  · dsimp only
    rw [tabulate_update_last]
    exact live
  · intro pos
    dsimp only
    by_cases here : pos = kid
    · rw [here, Function.update_self, text]
    · rw [Function.update_of_ne here]
      exact relocated.text_eq pos
  · intro pos above
    dsimp only
    rw [Function.update_of_ne (Nat.ne_of_gt above)]
    exact relocated.ahead pos (Nat.le_of_lt above)
  · rw [tabulate_succ, total_append, total_cons, total_nil]
    simp only
    omega

theorem extentResize_spec (owns : self.Owns) (block : Block) (rlen : Nat)
    (fits : total self.seps + rlen + sizeofExtent + kExtentSize ≤ 2 ^ 31) :
    ∃ resized, self.extentResize block rlen = .ok resized ∧ Moved self resized ∧ resized.Owns ∧
      rlen ≤ resized.extent.left := by
  rw [extentResize]
  split
  · have needed : toInt (self.extent.usedSize + rlen) = total self.seps + sizeofExtent + rlen := by
      rw [owns.usedSize_eq]
      exact toInt_eq (by omega) (by rw [kExtentSize] at fits; omega)
    obtain ⟨len, rounds, large, small, aligned⟩ :=
      roundup_eq (show 0 ≤ (total self.seps + sizeofExtent + rlen : Int) by omega) (by omega)
    obtain ⟨fresh, inits, live, left⟩ := Live.init block aligned (by omega) small
    have start : Relocated self.node.anchors fresh.left 0 (self.node.anchors, fresh) :=
      ⟨live, fun _ => rfl, fun _ _ => rfl, add_zero _⟩
    obtain ⟨⟨anchors, extent⟩, loop, relocated⟩ := forUp_rule (relocate self.extent)
      (Relocated self.node.anchors fresh.left) self.node.knum 0 start fun kid state _ inside
        relocated =>
        relocated.step owns (by omega) (by omega)
    rw [Nat.zero_add] at relocated
    have room := relocated.room_eq
    have roomy : (rlen : Int) ≤ extent.left := by
      rw [← seps] at room
      simp only at room
      omega
    have moved : ∀ extent, Moved self ⟨{ self.node with anchors := anchors }, extent⟩ :=
      fun extent => ⟨rfl, fun kid _ => relocated.text_eq kid⟩
    rw [needed, rounds]
    simp only [ok_bind, Block.allocate, if_pos (show 0 ≤ len by omega), inits, loop]
    split
    · rename_i positive
      obtain ⟨marked, marks, markedLive, left⟩ :=
        relocated.live.setHuge_eq (mem_tabulate.mpr ⟨0, positive, rfl⟩)
      simp only [marks]
      exact ⟨_, rfl, moved marked, markedLive, left ▸ roomy⟩
    · exact ⟨_, rfl, moved extent, relocated.live, roomy⟩
  · rename_i enough
    exact ⟨self, rfl, .refl self self.extent, owns, not_lt.mp enough⟩

/-! ## `make_anchor` -/

theorem makeAnchor_of_room {anchors : List Anchor} (live : Live self.extent anchors)
    (block : Block) (key : ByteString) (room : blockSize key ≤ self.extent.left) :
    ∃ anchor extent, self.makeAnchor block key = .ok (⟨self.node, extent⟩, anchor) ∧
      anchor.text = key ∧ Live extent (anchors ++ [anchor]) ∧
      extent.left + blockSize key = self.extent.left := by
  obtain ⟨anchor, made, makes, text, madeLive, left⟩ := live.makeAnchor_eq key room
  refine ⟨anchor, made, ?_, text, madeLive, left⟩
  rw [makeAnchor, makes]

theorem makeAnchor_spec (owns : self.Owns) (block : Block) (key : ByteString)
    (fits : Fits (total self.seps + blockSize key)) :
    ∃ made anchor, self.makeAnchor block key = .ok (made, anchor) ∧ Moved self made ∧
      anchor.text = key ∧ Live made.extent (made.seps ++ [anchor]) := by
  by_cases room : blockSize key ≤ self.extent.left
  · obtain ⟨anchor, extent, makes, text, live, _⟩ := makeAnchor_of_room owns block key room
    exact ⟨_, anchor, makes, .refl self extent, text, live⟩
  · have length : toInt (blockSize key) = blockSize key :=
      toInt_eq (by omega) (by rw [Fits, kExtentSize] at fits; omega)
    obtain ⟨resized, resizes, moved, resizedOwns, enough⟩ :=
      extentResize_spec owns block (blockSize key) fits.resize
    obtain ⟨anchor, made, makes, text, live, _⟩ := resizedOwns.makeAnchor_eq key enough
    refine ⟨⟨resized.node, made⟩, anchor, ?_, ⟨moved.node_eq, moved.text_eq⟩, text, live⟩
    rw [makeAnchor, owns.makeAnchor_eq_none (not_le.mp room), length, resizes]
    simp only [ok_bind, makes]
    rfl

/-! ## Moving separators between nodes -/

theorem transfer_spec {front back : List Anchor} {kid : Nat}
    (live : Live source.extent (front ++ source.node.anchors kid :: back)) (owns : target.Owns)
    (block : Block) (fits : Fits (total target.seps + blockSize (source.node.anchors kid).text)) :
    ∃ extent moved, source.transfer target block kid target.node.knum =
        .ok (⟨source.node, extent⟩, moved) ∧ Live extent (front ++ back) ∧
      moved.node = { target.node with anchors := moved.node.anchors } ∧
      (moved.setKnum (target.node.knum + 1)).Owns ∧
      total (moved.setKnum (target.node.knum + 1)).seps =
        total target.seps + blockSize (source.node.anchors kid).text := by
  have loads := live.load_eq (show source.node.anchors kid ∈ _ by simp)
  obtain ⟨made, anchor, makes, moved, text, madeLive⟩ :=
    makeAnchor_spec owns block (source.node.anchors kid).text fits
  obtain ⟨ruined, ruins, ruinedLive, _⟩ := (live.perm perm_middle).ruinAnchor_eq
  refine ⟨ruined, made.setAnchor target.node.knum anchor, ?_, ruinedLive, ?_, ?_, ?_⟩
  · rw [transfer, loads]
    simp only [ok_bind, makes, ruinAnchor, ruins]
    rfl
  · rw [setAnchor, moved.node_eq]
  · rw [← moved.knum_eq, Owns, seps_setAnchor]
    exact madeLive
  · rw [← moved.knum_eq, seps_setAnchor, total_append, moved.total_eq, total_cons, text]
    rfl

theorem transfer_of_room {front back anchors : List Anchor} {kid : Nat}
    (live : Live source.extent (front ++ source.node.anchors kid :: back))
    (targetLive : Live target.extent anchors) (block : Block) (dst : Nat)
    (room : blockSize (source.node.anchors kid).text ≤ target.extent.left) :
    ∃ extent anchor filled, source.transfer target block kid dst =
        .ok (⟨source.node, extent⟩, setAnchor ⟨target.node, filled⟩ dst anchor) ∧
      Live extent (front ++ back) ∧ Live filled (anchors ++ [anchor]) ∧
      filled.left + blockSize (source.node.anchors kid).text = target.extent.left := by
  have loads := live.load_eq (show source.node.anchors kid ∈ _ by simp)
  obtain ⟨anchor, filled, makes, _, filledLive, left⟩ :=
    makeAnchor_of_room targetLive block (source.node.anchors kid).text room
  obtain ⟨ruined, ruins, ruinedLive, _⟩ := (live.perm perm_middle).ruinAnchor_eq
  refine ⟨ruined, anchor, filled, ?_, ruinedLive, filledLive, left⟩
  rw [transfer, loads]
  simp only [ok_bind, makes, ruinAnchor, ruins]
  rfl

theorem drop_seps {kid : Nat} (inside : kid < self.node.knum) :
    self.seps.drop kid = self.node.anchors kid :: self.seps.drop (kid + 1) := by
  have bounded : kid < self.seps.length := by rwa [length_seps]
  rw [drop_eq_getElem_cons bounded, getElem_seps]

/-- The state of the loop of a merge after `kid` rounds. -/
structure Absorbed (before right : ExtentNode size) (kid : Nat)
    (pair : ExtentNode size × ExtentNode size) : Prop where
  right_eq : pair.1.node = right.node
  rest : Live pair.1.extent (right.seps.drop kid)
  node_eq : pair.2.node = { before.node with
    anchors := pair.2.node.anchors
    knum := before.node.knum + kid }
  owns : pair.2.Owns
  total_eq : total pair.2.seps + total (right.seps.drop kid) =
    total before.seps + total right.seps

theorem Absorbed.step {before right : ExtentNode size} {kid : Nat}
    {pair : ExtentNode size × ExtentNode size} (absorbed : Absorbed before right kid pair)
    (inside : kid < right.node.knum) (block : Block)
    (fits : Fits (total before.seps + total right.seps)) :
    ∃ next, ((pair.1.transfer pair.2 block kid pair.2.node.knum).map fun (right, self) =>
        (right, self.setKnum (self.node.knum + 1))) = .ok next ∧
      Absorbed before right (kid + 1) next := by
  have rest := absorbed.rest
  have counted := absorbed.total_eq
  rw [drop_seps inside, ← absorbed.right_eq] at rest counted
  rw [total_cons] at counted
  obtain ⟨extent, moved, transfers, live, node_eq, owns, total_eq⟩ :=
    transfer_spec (show Live pair.1.extent ([] ++ _) from rest) absorbed.owns block
      (fits.mono (by omega))
  have knum : moved.node.knum = pair.2.node.knum := by rw [node_eq]
  rw [transfers]
  refine ⟨_, rfl, absorbed.right_eq, live, ?_, ?_, ?_⟩
  · simp only [setKnum, knum]
    rw [node_eq, absorbed.node_eq]
    rfl
  · rw [← knum] at owns
    exact owns
  · rw [← knum] at total_eq
    simp only
    omega

theorem absorb_spec {right : ExtentNode size} (owns : self.Owns) (rightOwns : right.Owns)
    (malloc : Nat → Block) (fits : Fits (total self.seps + total right.seps)) :
    ∃ rest merged, self.absorb right malloc = .ok (rest, merged) ∧
      rest.node = right.node ∧ Live rest.extent [] ∧
      merged.node = { self.node with
        anchors := merged.node.anchors
        knum := self.node.knum + right.node.knum } ∧ merged.Owns := by
  obtain ⟨resized, resizes, moved, resizedOwns, _⟩ :=
    extentResize_spec owns (malloc 0) (total right.seps + sizeofExtent) (by
      rw [Fits, kExtentSize] at fits
      rw [kExtentSize, sizeofExtent]
      omega)
  have start : Absorbed self right 0 (right, resized) :=
    ⟨rfl, rightOwns, moved.node_eq, resizedOwns, by rw [moved.total_eq, drop_zero]⟩
  obtain ⟨⟨rest, merged⟩, loop, absorbed⟩ := forUp_rule _ (Absorbed self right) right.node.knum 0
    start fun kid pair _ inside absorbed => absorbed.step (by omega) (malloc (kid + 1)) fits
  rw [Nat.zero_add] at absorbed
  refine ⟨rest, merged, ?_, absorbed.right_eq, ?_, absorbed.node_eq, absorbed.owns⟩
  · rw [absorb, rightOwns.usedSize_eq]
    rw [Int.natCast_add] at resizes
    rw [resizes]
    exact loop
  · have all := absorbed.rest
    rwa [drop_of_length_le (Nat.le_of_eq length_seps)] at all

end ExtentNode

end IndexResearch.FBTree
