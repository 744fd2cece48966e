import IndexResearch.FBTree.InnerNode.Removal
import IndexResearch.FBTree.StringNode.Prefix
import IndexResearch.Transition

/-!
# Upkeep of prefix and features

Most changes of a string node shift or patch single columns and leave the prefix alone.
The result is nevertheless what `content_rebuild` would compute, as it reads the prefix off
the first and the last separator, and these stay where no rebuild follows.
-/

namespace IndexResearch.FBTree.StringNode

open InnerNode Function

variable {size : NodeSize} {node other rebuilt raw right : StringNode size} {key : Anchor}
  {index : Nat} {address lchild rchild this : Ptr}

structure Current (node : StringNode size) : Prop where
  plen_eq : 0 < node.knum →
    node.plen = Util.commonPrefix (node.anchors 0).text (node.anchors (node.knum - 1)).text
  huge_eq : 0 < node.knum → node.huge = node.anchors 0
  tiny_eq : 0 < node.knum → node.plen ≤ kEmbedPrSize → ∀ pos < node.plen,
    node.tiny pos = (node.anchors 0).text.byte pos
  features_eq : ∀ fid < kFeatureSize, ∀ column < node.knum,
    node.features fid column = feature node.plen (node.anchors column).text fid

structure SameContent (node other : StringNode size) : Prop where
  plen_eq : other.plen = node.plen
  huge_eq : other.huge = node.huge
  tiny_eq : node.plen ≤ kEmbedPrSize → ∀ pos < node.plen,
    other.tiny pos = node.tiny pos
  features_eq : ∀ fid < kFeatureSize, ∀ column < node.knum,
    other.features fid column = node.features fid column

namespace Current

theorem of_empty (empty : node.knum = 0) : Current node := by
  refine ⟨?_, ?_, ?_, ?_⟩
  all_goals rw [empty]
  · exact fun positive => absurd positive (Nat.lt_irrefl 0)
  · exact fun positive => absurd positive (Nat.lt_irrefl 0)
  · exact fun positive => absurd positive (Nat.lt_irrefl 0)
  · exact fun _ _ _ inside => absurd inside (Nat.not_lt_zero _)

theorem of_rebuild (result : node.contentRebuild = .ok rebuilt) : Current rebuilt := by
  rw [contentRebuild] at result
  split at result
  · cases result
  · cases result
    refine ⟨fun _ => rfl, fun _ => rfl, ?_, ?_⟩
    · intro _ fits pos inside
      simp only at fits inside ⊢
      rw [if_pos fits, copy_of_mem (by omega), Nat.sub_zero, Nat.add_zero]
    · intro fid below column inside
      simp only at inside
      simp only [mapRows, if_pos below, if_pos inside]

theorem sameContent (current : Current node) (result : node.contentRebuild = .ok rebuilt) :
    SameContent node rebuilt := by
  have renewed := of_rebuild result
  rw [contentRebuild] at result
  split at result
  · cases result
  · rename_i nonempty
    have positive : 0 < node.knum := Nat.pos_of_ne_zero nonempty
    have plen := (current.plen_eq positive).symm
    cases result
    refine ⟨plen, (current.huge_eq positive).symm, ?_, ?_⟩
    · intro fits pos inside
      rw [current.tiny_eq positive fits pos inside]
      exact renewed.tiny_eq positive (plen ▸ fits) pos (plen ▸ inside)
    · intro fid below column inside
      rw [current.features_eq fid below column inside, renewed.features_eq fid below column inside]
      exact congrArg (fun length => feature length (node.anchors column).text fid) plen

theorem of_ends (current : Current node) (positive : 0 < node.knum) (plen : other.plen = node.plen)
    (huge : other.huge = node.huge) (tiny : other.tiny = node.tiny)
    (first : other.anchors 0 = node.anchors 0)
    (last : other.anchors (other.knum - 1) = node.anchors (node.knum - 1))
    (features : ∀ fid < kFeatureSize, ∀ column < other.knum,
      other.features fid column = feature node.plen (other.anchors column).text fid) :
    Current other where
  plen_eq _ := by rw [plen, first, last, current.plen_eq positive]
  huge_eq _ := by rw [huge, first, current.huge_eq positive]
  tiny_eq _ fits pos inside := by
    rw [plen] at fits inside
    rw [tiny, first, current.tiny_eq positive fits pos inside]
  features_eq fid below column inside := by rw [plen, features fid below column inside]

theorem congr (current : Current node) (knum : other.knum = node.knum)
    (plen : other.plen = node.plen) (huge : other.huge = node.huge) (tiny : other.tiny = node.tiny)
    (anchors : other.anchors = node.anchors) (features : other.features = node.features) :
    Current other := by
  refine ⟨?_, ?_, ?_, ?_⟩
  all_goals simp only [knum, plen, huge, tiny, anchors, features]
  · exact current.plen_eq
  · exact current.huge_eq
  · exact current.tiny_eq
  · exact current.features_eq

end Current

/-! ## Separators -/

theorem rebuild_frame (result : node.contentRebuild = .ok rebuilt) :
    rebuilt.knum = node.knum ∧ rebuilt.anchors = node.anchors := by
  rw [contentRebuild] at result
  split at result
  · cases result
  · cases result
    exact ⟨rfl, rfl⟩

theorem anchors_place (lchild rchild : Ptr) (key : Anchor) (index : Nat) {column : Nat}
    (inside : column ≤ node.knum) :
    (node.place lchild rchild key index).anchors column =
      InnerNode.inserted node.anchors key index column := by
  simp only [place]
  rw [moveBackward_eq_copy _ (Nat.le_succ index)]
  exact update_copy_eq_inserted _ _ inside

variable {rnode : Option (StringNode size)} {mid : Anchor}
  {removed : Removed (StringNode size) Anchor}

theorem insert_frame (space : node.knum < size.slots)
    (result : node.insert raw address lchild rchild key index = .ok (other, rnode, mid)) :
    other.knum = node.knum + 1 ∧
      ∀ column ≤ node.knum,
        other.anchors column = InnerNode.inserted node.anchors key index column := by
  have room : node.updateVersion.knum < size.slots := space
  rw [insert, if_pos room] at result
  split at result
  · cases result
  · split at result
    · obtain ⟨rebuilt, rebuilds, ends⟩ := map_eq_ok.mp result
      cases ends
      obtain ⟨knum, anchors⟩ := rebuild_frame rebuilds
      rw [knum, anchors]
      exact ⟨rfl, fun column => anchors_place lchild rchild key index⟩
    · cases result
      exact ⟨rfl, fun column => anchors_place lchild rchild key index⟩

theorem removeInner_frame (result : node.removeInner index = .ok other) :
    other.knum = node.knum - 1 ∧
      ∀ column < node.knum - 1, other.anchors column = erased node.anchors index column := by
  have anchors : ∀ column < node.knum - 1,
      moveForward node.anchors (index + 1) index (node.knum - index - 1) column =
        erased node.anchors index column := by
    intro column within
    rw [moveForward_eq_copy _ (Nat.le_succ index)]
    exact copy_eq_erased _ within
  rw [removeInner] at result
  split at result
  · obtain ⟨knum, kept⟩ := rebuild_frame result
    rw [knum, kept]
    exact ⟨rfl, anchors⟩
  · cases result
    exact ⟨rfl, anchors⟩

theorem removeLast_frame (result : node.removeLast index = .ok other) :
    other.knum = node.knum - 1 ∧ other.anchors = node.anchors := by
  rw [removeLast] at result
  dsimp only at result
  split at result
  · cases result
    exact ⟨rfl, rfl⟩
  · exact rebuild_frame result

theorem anchorUpdate_frame {up : Bool} (result : node.anchorUpdate key index = .ok (other, up)) :
    other.knum = node.knum ∧ other.anchors = update node.anchors index key := by
  rw [anchorUpdate] at result
  split at result
  · cases result
  · dsimp only at result
    split at result
    · obtain ⟨rebuilt, rebuilds, ends⟩ := map_eq_ok.mp result
      cases ends
      exact rebuild_frame rebuilds
    · cases result
      exact ⟨rfl, rfl⟩

/-! ## Insertion -/

theorem insertColumn_current (current : node.Current) (low : 0 < index) (high : index < node.knum) :
    ((node.place lchild rchild key index).insertColumn key index).Current := by
  refine current.of_ends (by omega) rfl rfl rfl ?_ ?_ ?_
  · exact (anchors_place lchild rchild key index (Nat.zero_le _)).trans (inserted_of_lt low)
  · exact (anchors_place lchild rchild key index le_rfl).trans (inserted_of_gt high)
  · intro fid below column inside
    have within : column ≤ node.knum := Nat.le_of_lt_succ inside
    have count : node.knum + 1 - index - 1 = node.knum - index := by omega
    simp only [insertColumn, anchors_place lchild rchild key index within, mapRows, if_pos below]
    simp only [place, count]
    rw [update_copy_eq_inserted _ _ within]
    unfold InnerNode.inserted
    split
    · exact current.features_eq fid below column (by omega)
    · split
      · rfl
      · exact current.features_eq fid below (column - 1) (by omega)

theorem split_current (current : node.Current) {left rnode : StringNode size}
    (result : node.split raw address lchild rchild key index = .ok (left, rnode, mid)) :
    left.Current ∧ rnode.Current := by
  rw [split] at result
  dsimp only at result
  split at result
  · obtain ⟨rebuilt, rebuilds, ends⟩ := bind_eq_ok.mp result
    obtain ⟨rfl, same⟩ := Prod.mk.inj (Except.ok.inj ends)
    cases same
    exact ⟨current.congr rfl rfl rfl rfl rfl rfl, .of_rebuild rebuilds⟩
  · split at result
    all_goals
      obtain ⟨leftRebuilt, leftRebuilds, rest⟩ := bind_eq_ok.mp result
      obtain ⟨rightRebuilt, rightRebuilds, ends⟩ := bind_eq_ok.mp rest
      obtain ⟨rfl, same⟩ := Prod.mk.inj (Except.ok.inj ends)
      cases same
      exact ⟨.of_rebuild leftRebuilds, .of_rebuild rightRebuilds⟩

theorem insert_current (current : node.Current) {left : StringNode size}
    (result : node.insert raw address lchild rchild key index = .ok (left, rnode, mid)) :
    left.Current ∧ ∀ right, rnode = some right → right.Current := by
  have renewed : node.updateVersion.Current := current.congr rfl rfl rfl rfl rfl rfl
  rw [insert] at result
  split at result
  · cases result
  · rename_i inside
    split at result
    · split at result
      · obtain ⟨rebuilt, rebuilds, ends⟩ := map_eq_ok.mp result
        obtain ⟨rfl, same⟩ := Prod.mk.inj ends
        cases same
        exact ⟨.of_rebuild rebuilds, nofun⟩
      · rename_i interior
        rw [not_or] at interior
        obtain ⟨rfl, same⟩ := Prod.mk.inj (Except.ok.inj result)
        cases same
        refine ⟨insertColumn_current renewed ?_ ?_, nofun⟩
        · exact Nat.pos_of_ne_zero interior.1
        · exact Nat.lt_of_le_of_ne (not_lt.mp inside) interior.2
    · obtain ⟨⟨_, _, _⟩, splits, ends⟩ := map_eq_ok.mp result
      obtain ⟨rfl, same⟩ := Prod.mk.inj ends
      cases same
      obtain ⟨leftCurrent, rightCurrent⟩ := split_current renewed splits
      refine ⟨leftCurrent, ?_⟩
      rintro _ ⟨⟩
      exact rightCurrent

/-! ## Removal -/

theorem removeInner_current (current : node.Current) (inside : index < node.knum - 1)
    (result : node.removeInner index = .ok other) : other.Current := by
  obtain ⟨knum, anchors⟩ := removeInner_frame result
  rw [removeInner] at result
  split at result
  · exact .of_rebuild result
  · rename_i notFirst
    have low : 0 < index := Nat.pos_of_ne_zero notFirst
    refine current.of_ends (by omega) ?_ ?_ ?_ ?_ ?_ ?_
    · exact Except.ok.inj result ▸ rfl
    · exact Except.ok.inj result ▸ rfl
    · exact Except.ok.inj result ▸ rfl
    · rw [anchors 0 (by omega), erased, if_pos low]
    · rw [knum, anchors _ (by omega), erased, if_neg (by omega)]
      congr 1
      omega
    · intro fid below column within
      rw [knum] at within
      rw [anchors column within]
      cases result
      simp only
      rw [mapRows, if_pos below, copy_eq_erased _ within]
      unfold erased
      split
      · exact current.features_eq fid below column (by omega)
      · exact current.features_eq fid below (column + 1) (by omega)

theorem merge_current (current : node.Current) (rightCurrent : right.Current)
    (result : node.merge right this key = .ok removed) :
    removed.node.Current ∧ removed.right.Current := by
  rw [merge] at result
  split at result
  · split at result
    · cases result
    · split at result
      · obtain ⟨rebuilt, rebuilds, rfl⟩ := map_eq_ok.mp result
        exact ⟨(Current.of_rebuild rebuilds).congr rfl rfl rfl rfl rfl rfl, .of_empty rfl⟩
      · cases result
        exact ⟨current, rightCurrent⟩
  · cases result
    exact ⟨current, rightCurrent⟩

theorem boundRemove_current (rightCurrent : right.Current)
    (result : node.boundRemove right this key index = .ok removed) :
    removed.node.Current ∧ removed.right.Current := by
  rw [boundRemove] at result
  split at result
  · dsimp only at result
    split at result
    · obtain ⟨rebuilt, rebuilds, rfl⟩ := map_eq_ok.mp result
      exact ⟨(Current.of_rebuild rebuilds).congr rfl rfl rfl rfl rfl rfl, .of_empty rfl⟩
    · obtain ⟨rebuilt, rebuilds, rfl⟩ := map_eq_ok.mp result
      exact ⟨.of_rebuild rebuilds, rightCurrent.congr rfl rfl rfl rfl rfl rfl⟩
  · obtain ⟨last, removes, rfl⟩ := map_eq_ok.mp result
    refine ⟨?_, rightCurrent⟩
    rw [removeLast] at removes
    dsimp only at removes
    split at removes
    · rename_i empty
      cases removes
      exact .of_empty empty
    · exact .of_rebuild removes

theorem remove_current (current : node.Current) (rightCurrent : right.Current)
    (result : node.remove right this key index = .ok removed) :
    removed.node.Current ∧ removed.right.Current := by
  have renewed : node.updateVersion.Current := current.congr rfl rfl rfl rfl rfl rfl
  rw [remove, removeAt] at result
  split at result
  · cases result
  · split at result
    · rename_i inside
      obtain ⟨erased, erases, merges⟩ := bind_eq_ok.mp result
      exact merge_current (removeInner_current renewed inside erases) rightCurrent merges
    · exact boundRemove_current rightCurrent result

theorem anchorUpdate_current (current : node.Current) {up : Bool}
    (result : node.anchorUpdate key index = .ok (other, up)) : other.Current := by
  rw [anchorUpdate] at result
  split at result
  · cases result
  · rename_i inside
    dsimp only at result
    split at result
    · obtain ⟨rebuilt, rebuilds, ends⟩ := map_eq_ok.mp result
      cases ends
      exact .of_rebuild rebuilds
    · rename_i interior
      rw [not_or] at interior
      cases result
      refine current.of_ends (by omega) rfl rfl rfl ?_ ?_ ?_
      · exact update_of_ne (Ne.symm interior.1) ..
      · exact update_of_ne (Ne.symm interior.2) ..
      · intro fid below column within
        simp only [mapRows, if_pos below]
        by_cases here : column = index
        · rw [here, update_self, update_self]
          rfl
        · rw [update_of_ne here, update_of_ne here]
          exact current.features_eq fid below column within

/-! ## Calls that return -/

theorem exists_rebuild (positive : 0 < node.knum) : ∃ rebuilt, node.contentRebuild = .ok rebuilt :=
  ⟨_, if_neg (Nat.ne_of_gt positive)⟩

/-- Every call with an index in range returns, but for a removal that takes the last
separator of a node whose right sibling has none. -/
structure Serves (node : StringNode size) : Prop where
  insert : ∀ raw address lchild rchild key index, index ≤ node.knum →
    ∃ result, node.insert raw address lchild rchild key index = .ok result
  remove : ∀ right this key index, index < node.knum →
    (node.control.sibling = true → 2 ≤ node.knum + right.knum) →
    ∃ removed, node.remove right this key index = .ok removed
  anchorUpdate : ∀ key index, index < node.knum →
    ∃ result, node.anchorUpdate key index = .ok result

theorem split_returns (node raw : StringNode size) (address lchild rchild : Ptr) (key : Anchor)
    (index : Nat) : ∃ result, node.split raw address lchild rchild key index = .ok result := by
  have half : 0 < size.half := Nat.lt_of_lt_of_le (by decide) size.eight_le_half
  rw [split]
  split
  · exact exists_ok_bind (exists_rebuild Nat.one_pos) fun _ _ => ⟨_, rfl⟩
  · split
    · apply exists_ok_bind (exists_rebuild (Nat.succ_pos _))
      intro left _
      exact exists_ok_bind (exists_rebuild half) fun _ _ => ⟨_, rfl⟩
    · apply exists_ok_bind (exists_rebuild half)
      intro left _
      exact exists_ok_bind (exists_rebuild (Nat.succ_pos _)) fun _ _ => ⟨_, rfl⟩

theorem insert_returns (raw : StringNode size) (address lchild rchild : Ptr) (key : Anchor)
    (inside : index ≤ node.knum) :
    ∃ result, node.insert raw address lchild rchild key index = .ok result := by
  have within : ¬node.updateVersion.knum < index := Nat.not_lt.mpr inside
  rw [insert, if_neg within]
  split
  · split
    · exact exists_ok_map (exists_rebuild (Nat.succ_pos _)) _
    · exact ⟨_, rfl⟩
  · exact exists_ok_map (split_returns ..) _

theorem merge_returns (right : StringNode size) (this : Ptr) (key : Anchor)
    (positive : 0 < node.knum) : ∃ removed, node.merge right this key = .ok removed := by
  rw [merge]
  split
  · rw [if_neg (Nat.not_lt.mpr positive)]
    split
    · exact exists_ok_map (exists_rebuild (Nat.add_pos_left positive _)) _
    · exact ⟨_, rfl⟩
  · exact ⟨_, rfl⟩

theorem removeInner_returns (inside : index < node.knum - 1) :
    ∃ removed, node.removeInner index = .ok removed := by
  rw [removeInner]
  split
  · exact exists_rebuild (Nat.zero_lt_of_lt inside)
  · exact ⟨_, rfl⟩

theorem removeLast_returns (node : StringNode size) (index : Nat) :
    ∃ removed, node.removeLast index = .ok removed := by
  rw [removeLast]
  split
  · exact ⟨_, rfl⟩
  · rename_i some
    exact exists_rebuild (Nat.pos_of_ne_zero some)

theorem boundRemove_returns (right : StringNode size) (this : Ptr) (key : Anchor)
    (last : index = node.knum - 1)
    (fed : node.control.sibling = true → 2 ≤ node.knum + right.knum) :
    ∃ removed, node.boundRemove right this key index = .ok removed := by
  rw [boundRemove]
  split
  · rename_i sibling
    have enough : 0 < node.knum + right.knum - 1 := Nat.sub_pos_of_lt (fed sibling)
    dsimp only
    split
    · exact exists_ok_map (exists_rebuild enough) _
    · rename_i apart
      have several : 0 < node.knum - 1 := by omega
      exact exists_ok_map (exists_rebuild several) _
  · exact exists_ok_map (removeLast_returns node index) _

theorem remove_returns (right : StringNode size) (this : Ptr) (key : Anchor)
    (inside : index < node.knum) (fed : node.control.sibling = true → 2 ≤ node.knum + right.knum) :
    ∃ removed, node.remove right this key index = .ok removed := by
  have within : ¬node.updateVersion.knum ≤ index := Nat.not_le.mpr inside
  rw [remove, removeAt, if_neg within]
  split
  · rename_i interior
    have several : 0 < node.knum - 1 := Nat.zero_lt_of_lt interior
    apply exists_ok_bind (removeInner_returns interior)
    intro erased erases
    apply merge_returns right this key
    rw [(removeInner_frame erases).1]
    exact several
  · rename_i border
    have above : node.knum - 1 ≤ index := not_lt.mp border
    have last : index = node.updateVersion.knum - 1 := by
      simp only [updateVersion]
      omega
    exact boundRemove_returns right this key last fed

theorem anchorUpdate_returns (key : Anchor) (inside : index < node.knum) :
    ∃ result, node.anchorUpdate key index = .ok result := by
  rw [anchorUpdate, if_neg (Nat.not_le.mpr inside)]
  have positive : 0 < node.knum := Nat.zero_lt_of_lt inside
  dsimp only
  split
  · apply exists_ok_map
    exact exists_rebuild positive
  · exact ⟨_, rfl⟩

/-! ## Runs -/

/-- A call; `raw` is what the memory holds that the call obtains at `address`. -/
inductive Action (size : NodeSize) where
  | create (address : Ptr) (raw : StringNode size)
  | insert (ptr : Ptr) (raw : StringNode size) (address lchild rchild : Ptr) (key : Anchor)
      (index : Nat)
  | remove (ptr : Ptr) (key : Anchor) (index : Nat)
  | anchorUpdate (ptr : Ptr) (key : Anchor) (index : Nat)

abbrev Nodes (size : NodeSize) := Ptr → Option (StringNode size)

namespace Nodes

def load (nodes : Nodes size) (ptr : Ptr) : Except Fault (StringNode size) :=
  match nodes ptr with
  | some node => .ok node
  | none => .error .wildPointer

def store (nodes : Nodes size) (ptr : Ptr) (node : StringNode size) : Nodes size :=
  update nodes ptr (some node)

def rightOf (nodes : Nodes size) (ptr : Ptr) (node : StringNode size) :
    Except Fault (StringNode size) :=
  if node.control.sibling then if node.next = ptr then .error .endless else nodes.load node.next
  else .ok node

def step (nodes : Nodes size) : Action size → Except Fault (Nodes size)
  | .create address raw => .ok (nodes.store address raw.new)
  | .insert ptr raw address lchild rchild key index => do
      let node ← nodes.load ptr
      let (left, right, _) ← node.insert raw address lchild rchild key index
      return match right with
        | none => nodes.store ptr left
        | some right => (nodes.store ptr left).store address right
  | .remove ptr key index => do
      let node ← nodes.load ptr
      let right ← nodes.rightOf ptr node
      let removed ← node.remove right ptr key index
      return if node.control.sibling then
          (nodes.store ptr removed.node).store node.next removed.right
        else nodes.store ptr removed.node
  | .anchorUpdate ptr key index => do
      let node ← nodes.load ptr
      let (node, _) ← node.anchorUpdate key index
      return nodes.store ptr node

def machine (size : NodeSize) : Machine (Nodes size) (Action size) where
  initial nodes := nodes = fun _ => none
  next nodes action := (nodes.step action).toOption

def Current (nodes : Nodes size) : Prop := ∀ ptr node, nodes ptr = some node → node.Current

variable {nodes nodes' : Nodes size} {ptr : Ptr}

theorem Current.load (current : nodes.Current) (loaded : nodes.load ptr = .ok node) :
    node.Current := by
  rw [Nodes.load] at loaded
  split at loaded
  · rename_i stored
    cases loaded
    exact current ptr _ stored
  · cases loaded

theorem Current.store (current : nodes.Current) (ptr : Ptr) (nodeCurrent : node.Current) :
    (nodes.store ptr node).Current := by
  intro other stored found
  by_cases here : other = ptr
  · rw [here, Nodes.store, update_self] at found
    exact Option.some.inj found ▸ nodeCurrent
  · rw [Nodes.store, update_of_ne here] at found
    exact current other stored found

theorem Current.rightOf (current : nodes.Current) (nodeCurrent : node.Current)
    (found : nodes.rightOf ptr node = .ok right) : right.Current := by
  rw [Nodes.rightOf] at found
  split at found
  · split at found
    · cases found
    · exact current.load found
  · exact Except.ok.inj found ▸ nodeCurrent

theorem Current.step {action : Action size} (current : nodes.Current)
    (result : nodes.step action = .ok nodes') : nodes'.Current := by
  cases action with
  | create address raw =>
    cases result
    exact current.store address (.of_empty rfl)
  | insert ptr raw address lchild rchild key index =>
    obtain ⟨node, loaded, result⟩ := bind_eq_ok.mp result
    obtain ⟨⟨left, rnode, mid⟩, inserts, result⟩ := bind_eq_ok.mp result
    obtain ⟨leftCurrent, rightCurrent⟩ := insert_current (current.load loaded) inserts
    cases result
    cases rnode with
    | none => exact current.store ptr leftCurrent
    | some right => exact (current.store ptr leftCurrent).store address (rightCurrent right rfl)
  | remove ptr key index =>
    obtain ⟨node, loaded, result⟩ := bind_eq_ok.mp result
    obtain ⟨right, found, result⟩ := bind_eq_ok.mp result
    obtain ⟨removed, removes, result⟩ := bind_eq_ok.mp result
    have nodeCurrent := current.load loaded
    obtain ⟨leftCurrent, rightCurrent⟩ :=
      remove_current nodeCurrent (current.rightOf nodeCurrent found) removes
    cases result
    split
    · exact (current.store ptr leftCurrent).store node.next rightCurrent
    · exact current.store ptr leftCurrent
  | anchorUpdate ptr key index =>
    obtain ⟨node, loaded, result⟩ := bind_eq_ok.mp result
    obtain ⟨⟨other, up⟩, updates, result⟩ := bind_eq_ok.mp result
    cases result
    exact current.store ptr (anchorUpdate_current (current.load loaded) updates)

theorem current_of_reachable (reached : (machine size).Reachable Machine.anyStep nodes) :
    nodes.Current := by
  apply reached.invariant
  · rintro _ rfl ptr node stored
    cases stored
  · intro nodes action nodes' current _ moved
    exact current.step (toOption_eq_some.mp moved)

/-- After any calls, `content_rebuild` would compute the prefix and the features that a node
holds, and calls on the node return. -/
theorem reachable_upToDate (reached : (machine size).Reachable Machine.anyStep nodes)
    (stored : nodes ptr = some node) :
    (0 < node.knum → ∃ rebuilt, node.contentRebuild = .ok rebuilt ∧ SameContent node rebuilt) ∧
      node.Serves := by
  have current := current_of_reachable reached ptr node stored
  refine ⟨?_, ?_, ?_, ?_⟩
  · intro positive
    obtain ⟨rebuilt, result⟩ := exists_rebuild positive
    exact ⟨rebuilt, result, current.sameContent result⟩
  · exact fun raw address lchild rchild key _ => insert_returns raw address lchild rchild key
  · exact fun right this key _ => remove_returns right this key
  · exact fun key _ => anchorUpdate_returns key

def columnCalls : List (Action .size16) :=
  [.create 1 blank,
    .insert 1 blank 2 3 4 ⟨10, ⟨[97, 98]⟩⟩ 0,
    .insert 1 blank 2 4 5 ⟨11, ⟨[97, 102]⟩⟩ 1,
    .insert 1 blank 2 4 6 ⟨12, ⟨[97, 100]⟩⟩ 1,
    .insert 1 blank 2 4 7 ⟨13, ⟨[97, 99]⟩⟩ 1,
    .anchorUpdate 1 ⟨14, ⟨[97, 101]⟩⟩ 2,
    .remove 1 ⟨13, ⟨[97, 99]⟩⟩ 1]

theorem reachable_upToDate_columnCalls : ∃ (nodes : Nodes .size16) (node : StringNode .size16),
    (machine .size16).Reachable Machine.anyStep nodes ∧ nodes 1 = some node ∧ node.knum = 3 ∧
      ∃ rebuilt, node.contentRebuild = .ok rebuilt ∧ SameContent node rebuilt := by
  have counted : (((machine .size16).exec (fun _ => none) columnCalls).bind fun nodes =>
      (nodes 1).map StringNode.knum) = some 3 := by
    decide +kernel
  obtain ⟨nodes, executed, found⟩ := Option.bind_eq_some_iff.mp counted
  obtain ⟨node, stored, count⟩ := Option.map_eq_some_iff.mp found
  have reached : (machine .size16).Reachable Machine.anyStep nodes :=
    Machine.Reachable.exec (.start rfl) executed
  have upToDate := (reachable_upToDate reached stored).1 (by rw [count]; decide)
  exact ⟨nodes, node, reached, stored, count, upToDate⟩

end Nodes

end IndexResearch.FBTree.StringNode
