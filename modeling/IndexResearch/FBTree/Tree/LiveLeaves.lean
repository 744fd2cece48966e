import IndexResearch.FBTree.IntegerRun
import IndexResearch.FBTree.LeafNode.Filled

/-!
# The live leaves of a tree

The leaves that are not marked deleted form a chain, and none of them but the last one is
empty.  This holds whatever the inner nodes do, as they never touch a leaf.
-/

namespace IndexResearch.FBTree

open List Function

variable {size : NodeSize} {K H V Mid Inner : Type}

namespace LeafNode

variable {ops : KeyOps K H} {leaf other : LeafNode size K H V}

def next (leaf : LeafNode size K H V) : Option Ptr :=
  if leaf.control.sibling then some leaf.sibling else none

structure Sound (ops : KeyOps K H) (leaf : LeafNode size K H V) : Prop where
  filled : Filled ops leaf
  occupied : leaf.control.sibling = true → Occupied leaf

theorem next_eq (flag : other.control.sibling = leaf.control.sibling)
    (sibling : other.sibling = leaf.sibling) : other.next = leaf.next := by
  rw [next, next, flag, sibling]

theorem next_of_sibling (flag : leaf.control.sibling = true) : leaf.next = some leaf.sibling :=
  if_pos flag

end LeafNode

structure LiveLeaves (ops : KeyOps K H) (nodes : Ptr → Option (Node size K H V Inner)) (fresh : Ptr)
    (cells : List (Ptr × LeafNode size K H V)) : Prop where
  linked : Linked Prod.fst (fun cell => cell.2.next) none cells
  distinct : (cells.map Prod.fst).Nodup
  live_iff : ∀ ptr leaf, (ptr, leaf) ∈ cells ↔
    nodes ptr = some (.leaf leaf) ∧ leaf.control.deleted = false
  sound : ∀ cell ∈ cells, cell.2.Sound ops
  unborn : ∀ ptr, fresh ≤ ptr → nodes ptr = none

namespace LiveLeaves

variable {ops : KeyOps K H} {nodes nodes' : Ptr → Option (Node size K H V Inner)}
  {fresh fresh' ptr : Ptr} {cells front old new back : List (Ptr × LeafNode size K H V)}
  {leaf left right rest : LeafNode size K H V}

theorem elsewhere (live : LiveLeaves ops nodes fresh cells)
    (same : ∀ ptr leaf, leaf.control.deleted = false →
      (nodes' ptr = some (.leaf leaf) ↔ nodes ptr = some (.leaf leaf)))
    (unborn : ∀ ptr, fresh' ≤ ptr → nodes' ptr = none) : LiveLeaves ops nodes' fresh' cells where
  linked := live.linked
  distinct := live.distinct
  live_iff ptr leaf := by
    rw [live.live_iff]
    constructor
    · exact fun ⟨stored, notDeleted⟩ => ⟨(same ptr leaf notDeleted).mpr stored, notDeleted⟩
    · exact fun ⟨stored, notDeleted⟩ => ⟨(same ptr leaf notDeleted).mp stored, notDeleted⟩
  sound := live.sound
  unborn := unborn

theorem notMem_ends {front middle back : List Ptr} (distinct : (front ++ (middle ++ back)).Nodup)
    (listed : ptr ∈ middle) : ptr ∉ front ∧ ptr ∉ back := by
  rw [nodup_append, nodup_append] at distinct
  obtain ⟨_, ⟨_, _, apart⟩, beforeApart⟩ := distinct
  refine ⟨fun early => ?_, fun late => ?_⟩
  · exact beforeApart ptr early ptr (mem_append_left _ listed) rfl
  · exact apart ptr listed ptr late rfl

theorem lt_fresh (live : LiveLeaves ops nodes fresh cells) (listed : ptr ∈ cells.map Prod.fst) :
    ptr < fresh := by
  obtain ⟨⟨_, leaf⟩, here, rfl⟩ := mem_map.mp listed
  apply not_le.mp
  intro later
  exact absurd (((live.live_iff _ leaf).mp here).1.symm.trans (live.unborn _ later)) nofun

theorem patch (live : LiveLeaves ops nodes fresh (front ++ (old ++ back))) (nonempty : new ≠ [])
    (heads : new.head?.map Prod.fst = old.head?.map Prod.fst)
    (linked : Linked Prod.fst (fun cell => cell.2.next) (back.head?.map Prod.fst) new)
    (distinct : (front.map Prod.fst ++ (new.map Prod.fst ++ back.map Prod.fst)).Nodup)
    (written : ∀ cell ∈ new, nodes' cell.1 = some (.leaf cell.2) ∧ cell.2.control.deleted = false ∧
      cell.2.Sound ops)
    (dropped : ∀ ptr ∈ old.map Prod.fst, ptr ∉ new.map Prod.fst → ∀ leaf,
      nodes' ptr = some (.leaf leaf) → leaf.control.deleted = true)
    (kept : ∀ ptr, ptr ∉ old.map Prod.fst → ptr ∉ new.map Prod.fst → nodes' ptr = nodes ptr)
    (grows : fresh ≤ fresh') (born : ∀ ptr ∈ new.map Prod.fst, ptr < fresh') :
    LiveLeaves ops nodes' fresh' (front ++ (new ++ back)) where
  linked := by
    apply live.linked.patch nonempty heads
    rwa [Option.or_none]
  distinct := by
    rwa [map_append, map_append]
  live_iff ptr leaf := by
    have named : ∀ {cells : List (Ptr × LeafNode size K H V)}, (ptr, leaf) ∈ cells →
        ptr ∈ cells.map Prod.fst := fun listed => mem_map_of_mem (f := Prod.fst) listed
    rw [mem_append, mem_append]
    by_cases isNew : ptr ∈ new.map Prod.fst
    · obtain ⟨notFront, notBack⟩ := notMem_ends distinct isNew
      obtain ⟨⟨_, node⟩, listed, rfl⟩ := mem_map.mp isNew
      obtain ⟨stored, notDeleted, _⟩ := written _ listed
      constructor
      · rintro (early | here | late)
        · exact absurd (named early) notFront
        · exact ⟨(written _ here).1, (written _ here).2.1⟩
        · exact absurd (named late) notBack
      · rintro ⟨same, _⟩
        cases stored.symm.trans same
        exact .inr (.inl listed)
    · have notNew : (ptr, leaf) ∉ new := fun listed => isNew (named listed)
      by_cases wasOld : ptr ∈ old.map Prod.fst
      · have before := live.distinct
        rw [map_append, map_append] at before
        obtain ⟨notFront, notBack⟩ := notMem_ends before wasOld
        constructor
        · rintro (early | here | late)
          · exact absurd (named early) notFront
          · exact absurd here notNew
          · exact absurd (named late) notBack
        · rintro ⟨stored, notDeleted⟩
          exact absurd ((dropped ptr wasOld isNew leaf stored).symm.trans notDeleted) nofun
      · have notOld : (ptr, leaf) ∉ old := fun listed => wasOld (named listed)
        rw [kept ptr wasOld isNew, ← live.live_iff, mem_append, mem_append,
          iff_false_intro notOld, iff_false_intro notNew]
  sound cell listed := by
    rcases mem_append.mp listed with early | later
    · exact live.sound cell (mem_append_left _ early)
    · rcases mem_append.mp later with here | late
      · exact (written cell here).2.2
      · exact live.sound cell (mem_append_right _ (mem_append_right _ late))
  unborn ptr later := by
    have notNew : ptr ∉ new.map Prod.fst := fun listed => Nat.not_lt.mpr later (born ptr listed)
    have notOld : ptr ∉ old.map Prod.fst := by
      intro listed
      apply Nat.not_lt.mpr (Nat.le_trans grows later)
      apply live.lt_fresh
      simp only [map_append, mem_append]
      exact .inr (.inl listed)
    rw [kept ptr notOld notNew]
    exact live.unborn ptr (Nat.le_trans grows later)

theorem exists_split (live : LiveLeaves ops nodes fresh cells)
    (stored : nodes ptr = some (.leaf leaf)) (notDeleted : leaf.control.deleted = false) :
    ∃ front back, cells = front ++ ([(ptr, leaf)] ++ back) :=
  append_of_mem ((live.live_iff ptr leaf).mpr ⟨stored, notDeleted⟩)

theorem next_head (live : LiveLeaves ops nodes fresh (front ++ ([(ptr, leaf)] ++ back))) :
    leaf.next = back.head?.map Prod.fst := by
  have linked := live.linked
  rw [linked_append, singleton_append, Linked] at linked
  rw [linked.2.1, Option.or_none]

theorem exists_sibling (live : LiveLeaves ops nodes fresh (front ++ ([(ptr, leaf)] ++ back)))
    (flag : leaf.control.sibling = true) :
    ∃ right rest, back = (leaf.sibling, right) :: rest ∧
      nodes leaf.sibling = some (.leaf right) ∧ right.control.deleted = false := by
  have head := live.next_head
  rw [LeafNode.next_of_sibling flag] at head
  cases back with
  | nil => cases head
  | cons cell rest =>
    obtain ⟨name, right⟩ := cell
    obtain rfl : leaf.sibling = name := by simpa using head
    refine ⟨right, rest, rfl, ?_⟩
    exact (live.live_iff _ _).mp (by simp)

theorem overwrite (live : LiveLeaves ops nodes fresh cells) {old new : Node size K H V Inner}
    (stored : nodes ptr = some old)
    (oldDead : ∀ leaf, old = .leaf leaf → leaf.control.deleted = true)
    (newDead : ∀ leaf, new = .leaf leaf → leaf.control.deleted = true) :
    LiveLeaves ops (update nodes ptr (some new)) fresh cells := by
  refine live.elsewhere ?_ ?_
  · intro pos leaf notDeleted
    by_cases here : pos = ptr
    · subst here
      rw [update_self, stored]
      constructor
      · intro same
        exact absurd ((newDead leaf (Option.some.inj same)).symm.trans notDeleted) nofun
      · intro same
        exact absurd ((oldDead leaf (Option.some.inj same)).symm.trans notDeleted) nofun
    · rw [update_of_ne here]
  · intro pos later
    have different : pos ≠ ptr := by
      rintro rfl
      exact absurd (stored.symm.trans (live.unborn pos later)) nofun
    rw [update_of_ne different]
    exact live.unborn pos later

theorem write (live : LiveLeaves ops nodes fresh (front ++ ([(ptr, leaf)] ++ back)))
    (deleted_eq : left.control.deleted = leaf.control.deleted) (next_eq : left.next = leaf.next)
    (sound : left.Sound ops) :
    LiveLeaves ops (update nodes ptr (some (.leaf left))) fresh
      (front ++ ([(ptr, left)] ++ back)) := by
  have here := (live.live_iff ptr leaf).mp (by simp)
  have born : ptr < fresh := live.lt_fresh (by simp)
  refine live.patch (cons_ne_nil (ptr, left) []) rfl ⟨?_, trivial⟩ ?_ ?_ ?_ ?_ ?_ ?_
  · exact next_eq.trans live.next_head
  · simpa using live.distinct
  · simpa using ⟨deleted_eq.trans here.2, sound⟩
  · simp
  · intro other notOld _
    exact update_of_ne (fun same => notOld (by simp [same])) ..
  · exact le_rfl
  · simpa using born

theorem split (live : LiveLeaves ops nodes fresh (front ++ ([(ptr, leaf)] ++ back)))
    (halves : LeafNode.Halves ops leaf fresh left right) (later : fresh < fresh') :
    LiveLeaves ops (update (update nodes ptr (some (.leaf left))) fresh
      (some (.leaf right))) fresh' (front ++ ([(ptr, left), (fresh, right)] ++ back)) := by
  have here := (live.live_iff ptr leaf).mp (by simp)
  have born : ptr < fresh := live.lt_fresh (by simp)
  have different : ptr ≠ fresh := Nat.ne_of_lt born
  have rightNext : right.next = leaf.next := by
    rw [LeafNode.next, LeafNode.next, halves.rightSibling]
    split
    · rename_i flag
      rw [halves.rightNext flag]
    · rfl
  refine live.patch (cons_ne_nil (ptr, left) [(fresh, right)]) rfl ?_ ?_ ?_ ?_ ?_ ?_ ?_
  · refine ⟨?_, rightNext.trans live.next_head, trivial⟩
    exact (LeafNode.next_of_sibling halves.sibling).trans (congrArg some halves.next_eq)
  · have names := live.distinct
    rw [map_append, map_append] at names
    apply nodup_exchange (by simpa using names) (by simpa using different)
    intro other listed
    rcases mem_cons.mp listed with rfl | rest
    · exact .inl rfl
    · obtain rfl : other = fresh := by simpa using rest
      right
      intro among
      apply Nat.lt_irrefl other
      apply live.lt_fresh
      simpa using among
  · intro cell listed
    rcases mem_cons.mp listed with rfl | rest
    · refine ⟨?_, halves.deleted_eq.trans here.2, halves.filled, fun _ => halves.occupied⟩
      rw [update_of_ne different, update_self]
    · obtain rfl := mem_singleton.mp rest
      exact ⟨update_self .., halves.rightDeleted, halves.rightFilled,
        fun _ => halves.rightOccupied⟩
  · simp
  · intro other _ notNew
    rw [update_of_ne (by rintro rfl; simp at notNew),
      update_of_ne (by rintro rfl; simp at notNew)]
  · exact Nat.le_of_lt later
  · intro other listed
    rcases mem_cons.mp listed with rfl | rest
    · exact Nat.lt_trans born later
    · obtain rfl : other = fresh := by simpa using rest
      exact later

theorem merge
    (live : LiveLeaves ops nodes fresh (front ++ ([(ptr, leaf), (leaf.sibling, right)] ++ back)))
    (deleted_eq : left.control.deleted = leaf.control.deleted) (next_eq : left.next = right.next)
    (sound : left.Sound ops) (deleted : rest.control.deleted = true) :
    LiveLeaves ops (update (update nodes ptr (some (.leaf left))) leaf.sibling
      (some (.leaf rest))) fresh (front ++ ([(ptr, left)] ++ back)) := by
  have here := (live.live_iff ptr leaf).mp (by simp)
  have born : ptr < fresh := live.lt_fresh (by simp)
  have names : (front.map Prod.fst ++ ([ptr, leaf.sibling] ++ back.map Prod.fst)).Nodup := by
    simpa using live.distinct
  have different : ptr ≠ leaf.sibling := by
    have pair := (nodup_append.mp (nodup_append.mp names).2.1).1
    simpa using pair
  have head : right.next = back.head?.map Prod.fst := by
    have moved : front ++ ([(ptr, leaf), (leaf.sibling, right)] ++ back) =
        (front ++ [(ptr, leaf)]) ++ ([(leaf.sibling, right)] ++ back) := by simp
    rw [moved] at live
    exact live.next_head
  refine live.patch (cons_ne_nil (ptr, left) []) rfl ⟨?_, trivial⟩ ?_ ?_ ?_ ?_ ?_ ?_
  · exact next_eq.trans head
  · exact names.sublist (by simp)
  · intro cell listed
    obtain rfl := mem_singleton.mp listed
    refine ⟨?_, deleted_eq.trans here.2, sound⟩
    rw [update_of_ne different, update_self]
  · intro other wasOld notNew node stored
    obtain rfl : other = leaf.sibling := by
      rcases mem_cons.mp wasOld with rfl | later
      · simp at notNew
      · simpa using later
    rw [update_self] at stored
    rw [← Node.leaf.inj (Option.some.inj stored)]
    exact deleted
  · intro other notOld _
    rw [update_of_ne (by rintro rfl; simp at notOld),
      update_of_ne (by rintro rfl; simp at notOld)]
  · exact le_rfl
  · simpa using born

end LiveLeaves

namespace Tree

variable {ops : NodeOps K H Mid Inner} {memory : Memory size K H V Inner}
  {tree other : Tree size K H V Mid Inner} {ptr : Ptr} {leaf : LeafNode size K H V}

def LeavesSound (ops : NodeOps K H Mid Inner) (tree : Tree size K H V Mid Inner) : Prop :=
  ∃ cells, LiveLeaves ops.toKeyOps tree.nodes tree.fresh cells

theorem leafAt_eq_ok : tree.leafAt ptr = .ok leaf ↔ tree.nodes ptr = some (.leaf leaf) := by
  rw [leafAt]
  split
  · rename_i node stored
    rw [stored]
    simp
  · rename_i notLeaf
    exact ⟨(by simp), fun stored => absurd stored (notLeaf leaf)⟩

theorem innerAt_eq_ok {node : Inner} :
    tree.innerAt ptr = .ok node ↔ tree.nodes ptr = some (.inner node) := by
  rw [innerAt]
  split
  · rename_i stored
    rw [stored]
    simp
  · rename_i notInner
    exact ⟨(by simp), fun stored => absurd stored (notInner node)⟩

theorem exists_innerAt_write (ptr : Ptr) (node : Inner) {pos : Ptr} {old : Inner}
    (stored : tree.innerAt pos = .ok old) :
    ∃ found, (tree.write ptr (.inner node)).innerAt pos = .ok found := by
  by_cases here : pos = ptr
  · subst here
    exact ⟨node, innerAt_eq_ok.mpr (nodes_write_self ..)⟩
  · refine ⟨old, innerAt_eq_ok.mpr ?_⟩
    rw [nodes_write_of_ne here]
    exact innerAt_eq_ok.mp stored

theorem remove_cases [LinearOrder K] {key : K} {old : Option (KVPair K V)}
    (result : tree.remove ops key = .ok (old, other)) :
    ∃ path leaf right detached, tree.locate ops key = .ok path ∧
      tree.leafAt path.current = .ok leaf ∧
      (leaf.control.sibling = true → tree.leafAt leaf.sibling = .ok right) ∧
      leaf.remove ops.toKeyOps right path.current key = .ok detached ∧
      ((detached.merged = none ∧ other = tree.write path.current (.leaf detached.leaf)) ∨
        ∃ high written, detached.merged = some high ∧
          written.nodes = ((tree.write path.current (.leaf detached.leaf)).write leaf.sibling
            (.leaf detached.right)).nodes ∧ written.fresh = tree.fresh ∧
          settle ops tree.fresh written path.stack 0 path.current (some leaf.sibling) false
            (ops.midOf high) = .ok other) := by
  rw [Tree.remove] at result
  obtain ⟨path, found, result⟩ := bind_eq_ok.mp result
  obtain ⟨leaf, loaded, result⟩ := bind_eq_ok.mp result
  dsimp only at result
  split at result
  all_goals
    rename_i flag
    obtain ⟨right, rightEq, result⟩ := bind_eq_ok.mp result
    obtain ⟨detached, detachedEq, result⟩ := bind_eq_ok.mp result
    refine ⟨path, leaf, right, detached, found, loaded, fun flagged => ?_, detachedEq, ?_⟩
    · first
      | exact rightEq
      | exact absurd flagged flag
    · split at result
      · rename_i apart
        cases result
        exact .inl ⟨apart, rfl⟩
      · rename_i high joined
        obtain ⟨final, settled, result⟩ := bind_eq_ok.mp result
        cases result
        refine .inr ⟨high, _, joined, ?_, ?_, settled⟩
        · split <;> rfl
        · split <;> rfl

namespace LeavesSound

section

variable (sound : tree.LeavesSound ops)
include sound

theorem writeInner {old : Inner} (stored : tree.innerAt ptr = .ok old)
    (node : Inner) : (tree.write ptr (.inner node)).LeavesSound ops := by
  obtain ⟨cells, live⟩ := sound
  exact ⟨cells, live.overwrite (innerAt_eq_ok.mp stored) nofun nofun⟩

theorem writeFresh {node : Inner}
    (nodes_eq : other.nodes = (tree.write tree.fresh (.inner node)).nodes)
    (fresh_eq : other.fresh = tree.fresh + 1) : other.LeavesSound ops := by
  obtain ⟨cells, live⟩ := sound
  refine ⟨cells, live.elsewhere ?_ ?_⟩
  · intro pos leaf _
    rw [nodes_eq]
    by_cases here : pos = tree.fresh
    · subst here
      simp [live.unborn tree.fresh le_rfl]
    · rw [nodes_write_of_ne here]
  · intro pos later
    rw [fresh_eq] at later
    rw [nodes_eq, nodes_write_of_ne (Nat.ne_of_gt later)]
    exact live.unborn pos (Nat.le_of_lt later)

variable {rootid : Nat}

theorem endSplitting (result : tree.endSplitting ops rootid ptr = .ok other) :
    other.LeavesSound ops:= by
  rw [Tree.endSplitting] at result
  split at result
  · obtain ⟨leaf, loaded, ends⟩ := bind_eq_ok.mp result
    cases ends
    rw [leafAt_eq_ok] at loaded
    obtain ⟨cells, live⟩ := sound
    cases deleted : leaf.control.deleted with
    | false =>
      obtain ⟨front, back, rfl⟩ := live.exists_split loaded deleted
      have form := live.sound (ptr, leaf) (by simp)
      exact ⟨_, live.write rfl (LeafNode.next_eq rfl rfl)
        ⟨⟨form.filled.bounded, form.filled.filled⟩, form.occupied⟩⟩
    | true =>
      refine ⟨cells, live.overwrite loaded ?_ ?_⟩
      · rintro node ⟨⟩
        exact deleted
      · rintro node ⟨⟩
        exact deleted
  · cases result
    exact sound

theorem above {stack rest : List Ptr} {work : Ptr}
    (result : tree.above ops memory stack rootid ptr = .ok (other, work, rest)) :
    other.LeavesSound ops := by
  unfold Tree.above at result
  split at result
  · split at result
    · cases result
      exact sound.writeFresh rfl rfl
    · cases result
  · split at result
    · cases result
      exact sound
    · obtain ⟨track, _, rest⟩ := bind_eq_ok.mp result
      split at rest
      · cases rest
      · cases rest
        exact sound

theorem ascend {fuel : Nat} {stack : List Ptr} {current rnode : Ptr} {mid : Mid}
    (result : Tree.ascend ops memory fuel tree stack rootid current rnode mid = .ok other) :
    other.LeavesSound ops := by
  induction fuel generalizing tree stack rootid current rnode mid with
  | zero => cases result
  | succ fuel ih =>
    rw [Tree.ascend] at result
    obtain ⟨⟨grown, work, stack⟩, aboveEq, result⟩ := bind_eq_ok.mp result
    obtain ⟨⟨parent, pos⟩, indexEq, result⟩ := bind_eq_ok.mp result
    obtain ⟨node, stored, result⟩ := bind_eq_ok.mp result
    obtain ⟨⟨inserted, right, mid⟩, insertEq, result⟩ := bind_eq_ok.mp result
    obtain ⟨ended, endedEq, result⟩ := bind_eq_ok.mp result
    have endedSound := ((sound.above aboveEq).writeInner stored inserted).endSplitting endedEq
    cases right with
    | none =>
      cases result
      exact endedSound
    | some right =>
      refine ih ?_ result
      exact endedSound.writeFresh rfl rfl

theorem removeFrom {merged merged' : Option Ptr} {work : Ptr}
    {mid mid' : Mid} {pos : Nat} {up : Bool}
    (result : tree.removeFrom ops merged work mid pos = .ok (other, merged', up, mid')) :
    other.LeavesSound ops := by
  rw [Tree.removeFrom] at result
  obtain ⟨node, stored, result⟩ := bind_eq_ok.mp result
  split at result
  · split at result
    · obtain ⟨right, rightStored, result⟩ := bind_eq_ok.mp result
      obtain ⟨removed, removedEq, result⟩ := bind_eq_ok.mp result
      cases result
      have written := sound.writeInner stored removed.node
      obtain ⟨present, presentEq⟩ := exists_innerAt_write work removed.node rightStored
      exact written.writeInner presentEq removed.right
    · obtain ⟨removed, removedEq, result⟩ := bind_eq_ok.mp result
      cases result
      exact sound.writeInner stored removed.node
  · obtain ⟨⟨node, up⟩, updated, result⟩ := bind_eq_ok.mp result
    cases result
    exact sound.writeInner stored node

theorem collapse {current : Ptr}
    (result : tree.collapse ops current = .ok other) : other.LeavesSound ops := by
  rw [Tree.collapse] at result
  obtain ⟨node, stored, result⟩ := bind_eq_ok.mp result
  split at result
  · rename_i left next _
    split at result
    · cases result
      exact sound.writeInner stored left
    · cases result
  · cases result
    exact sound

theorem settle {fuel : Nat} {stack : List Ptr}
    {current : Ptr} {merged : Option Ptr} {up : Bool} {mid : Mid}
    (result : Tree.settle ops fuel tree stack rootid current merged up mid = .ok other) :
    other.LeavesSound ops := by
  induction fuel generalizing tree stack rootid current merged up mid with
  | zero => cases result
  | succ fuel ih =>
    rw [Tree.settle] at result
    split at result
    · cases result
      exact sound
    · obtain ⟨⟨work, stack⟩, _, result⟩ := bind_eq_ok.mp result
      obtain ⟨⟨parent, pos⟩, _, result⟩ := bind_eq_ok.mp result
      obtain ⟨⟨rest, merged', up', mid'⟩, removedEq, result⟩ := bind_eq_ok.mp result
      have retired : (tree.retire (merged.getD nullptr)).LeavesSound ops := sound
      have removed := retired.removeFrom removedEq
      dsimp only at result
      split at result
      · exact removed.collapse result
      · exact ih removed result

end

theorem empty (ops : NodeOps K H Mid Inner) (memory : Memory size K H V Inner) :
    (Tree.empty ops memory).LeavesSound ops := by
  refine ⟨[(1, .new ops.toKeyOps (memory.leaf 1))], ⟨rfl, trivial⟩, by simp, ?_, ?_, ?_⟩
  · intro ptr leaf
    by_cases here : ptr = 1
    · subst here
      simp only [Tree.empty, update_self, mem_singleton, Prod.mk.injEq, true_and,
        Option.some.injEq, Node.leaf.injEq]
      constructor
      · rintro rfl
        exact ⟨rfl, rfl⟩
      · exact fun same => same.1.symm
    · simp [Tree.empty, here]
  · intro cell listed
    obtain rfl := mem_singleton.mp listed
    exact ⟨(LeafNode.keeps_new ops.toKeyOps (memory.leaf 1)).toFilled,
      (fun flagged => by cases flagged)⟩
  · intro ptr later
    have different : ptr ≠ 1 := Nat.ne_of_gt later
    simp [Tree.empty, different]

variable [LinearOrder K]

theorem moveRight_live {key : K} {changed : Bool} {fuel : Nat} {start current : Ptr}
    (result : tree.moveRight ops key changed fuel start = .ok current) :
    ∃ leaf, tree.nodes current = some (.leaf leaf) ∧ leaf.control.deleted = false := by
  induction fuel generalizing start with
  | zero => cases result
  | succ fuel ih =>
    rw [moveRight] at result
    obtain ⟨leaf, loaded, result⟩ := bind_eq_ok.mp result
    obtain ⟨next, hop, result⟩ := bind_eq_ok.mp result
    cases next with
    | some next => exact ih result
    | none =>
      cases result
      refine ⟨leaf, leafAt_eq_ok.mp loaded, ?_⟩
      rw [LeafNode.toSibling] at hop
      apply eq_false_of_ne_true
      intro deleted
      rw [if_pos deleted, LeafNode.hop] at hop
      split at hop <;> cases hop

theorem locate_live {key : K} {path : Path} (result : tree.locate ops key = .ok path) :
    ∃ leaf, tree.nodes path.current = some (.leaf leaf) ∧ leaf.control.deleted = false := by
  rw [locate] at result
  obtain ⟨descent, _, result⟩ := bind_eq_ok.mp result
  obtain ⟨version, _, result⟩ := bind_eq_ok.mp result
  obtain ⟨current, moved, result⟩ := bind_eq_ok.mp result
  cases result
  exact moveRight_live moved

section

variable (sound : tree.LeavesSound ops)
include sound

theorem located {key : K} {path : Path}
    (found : tree.locate ops key = .ok path) (loaded : tree.leafAt path.current = .ok leaf) :
    ∃ front back,
      LiveLeaves ops.toKeyOps tree.nodes tree.fresh
      (front ++ ([(path.current, leaf)] ++ back)) := by
  obtain ⟨cells, live⟩ := sound
  obtain ⟨node, stored, notDeleted⟩ := locate_live found
  obtain rfl : node = leaf := by
    have same := stored.symm.trans (leafAt_eq_ok.mp loaded)
    exact Node.leaf.inj (Option.some.inj same)
  obtain ⟨front, back, rfl⟩ := live.exists_split stored notDeleted
  exact ⟨front, back, live⟩

variable {old : Option (KVPair K V)}

theorem update {kv : KVPair K V}
    (result : tree.update ops kv = .ok (old, other)) : other.LeavesSound ops := by
  rw [Tree.update] at result
  obtain ⟨path, found, result⟩ := bind_eq_ok.mp result
  obtain ⟨leaf, loaded, result⟩ := bind_eq_ok.mp result
  obtain ⟨front, back, live⟩ := sound.located found loaded
  have form : leaf.Sound ops.toKeyOps := live.sound (path.current, leaf) (by simp)
  obtain ⟨filled, occupied, control, sibling⟩ := LeafNode.update_form form.filled kv
  generalize leaf.update ops.toKeyOps kv = updated at result filled occupied control sibling
  cases result
  refine ⟨_, live.write ?_ (LeafNode.next_eq ?_ sibling) ⟨filled, ?_⟩⟩
  · rw [control]
  · rw [control]
  · rw [control]
    exact fun flag => occupied (form.occupied flag)

theorem upsert {kv : KVPair K V}
    (result : tree.upsert ops memory kv = .ok (old, other)) : other.LeavesSound ops := by
  rw [Tree.upsert] at result
  obtain ⟨path, found, result⟩ := bind_eq_ok.mp result
  obtain ⟨leaf, loaded, result⟩ := bind_eq_ok.mp result
  obtain ⟨upserted, upsertEq, result⟩ := bind_eq_ok.mp result
  obtain ⟨front, back, live⟩ := sound.located found loaded
  have form := LeafNode.upsert_form (live.sound (path.current, leaf) (by simp)).filled upsertEq
  dsimp only at result
  split at result
  · rename_i whole
    cases result
    obtain ⟨flag, sibling⟩ := form.whole whole
    exact ⟨_, live.write form.deleted_eq (LeafNode.next_eq flag sibling)
      ⟨form.filled, fun _ => form.occupied⟩⟩
  · rename_i right rightEq
    obtain ⟨final, ascendEq, result⟩ := bind_eq_ok.mp result
    cases result
    refine ascend ?_ ascendEq
    exact ⟨_, live.split (form.halves right rightEq) (Nat.lt_add_of_pos_right (by decide))⟩

theorem remove {key : K} (result : tree.remove ops key = .ok (old, other)) :
    other.LeavesSound ops:= by
  obtain ⟨path, leaf, right, detached, found, loaded, rightEq, detachedEq, outcome⟩ :=
    remove_cases result
  obtain ⟨front, back, live⟩ := sound.located found loaded
  have leafSound := live.sound (path.current, leaf) (by simp)
  have neighbour : leaf.control.sibling = true → ∃ rest,
      back = (leaf.sibling, right) :: rest ∧ right.Sound ops.toKeyOps := by
    intro flag
    obtain ⟨node, rest, rfl, stored, _⟩ := live.exists_sibling flag
    have same := stored.symm.trans (leafAt_eq_ok.mp (rightEq flag))
    obtain rfl := Node.leaf.inj (Option.some.inj same)
    exact ⟨rest, rfl, live.sound (leaf.sibling, node) (by simp)⟩
  have rightFilled : leaf.control.sibling = true → right.Filled ops.toKeyOps := fun flag =>
    (neighbour flag).elim fun _ spec => spec.2.filled
  obtain ⟨detached, same, form, _⟩ := LeafNode.remove_form leafSound.filled rightFilled
    leafSound.occupied path.current key
  cases same.symm.trans detachedEq
  rcases outcome with ⟨apart, rfl⟩ | ⟨high, written, joined, nodes_eq, fresh_eq, settled⟩
  · obtain ⟨flag, sibling, occupied⟩ := form.apart apart
    exact ⟨_, live.write form.deleted_eq (LeafNode.next_eq flag sibling)
      ⟨form.filled, fun flagged => occupied (flag.symm.trans flagged)⟩⟩
  · obtain ⟨flagged, flag, sibling, occupied, deleted, _⟩ := form.joined (by rw [joined]; rfl)
    obtain ⟨rest, rfl, rightSound⟩ := neighbour flagged
    have merged := live.merge form.deleted_eq (LeafNode.next_eq flag sibling)
      ⟨form.filled, fun own => occupied (rightSound.occupied (flag.symm.trans own))⟩ deleted
    refine settle ⟨front ++ ([(path.current, detached.leaf)] ++ rest), ?_⟩ settled
    rw [nodes_eq, fresh_eq]
    exact merged

theorem call {operation : Operation K V}
    {answer : Option (KVPair K V)} (result : tree.call ops memory operation = .ok (answer, other)) :
    other.LeavesSound ops := by
  cases operation with
  | upsert kv => exact sound.upsert result
  | update kv => exact sound.update result
  | lookup key =>
    obtain ⟨found, _, same⟩ := map_eq_ok.mp result
    cases same
    exact sound
  | remove key => exact sound.remove result

theorem run {operations : List (Operation K V)} {answers : List (Option (KVPair K V))}
    (result : tree.run ops memory operations = .ok (answers, other)) : other.LeavesSound ops := by
  induction operations generalizing tree answers with
  | nil =>
    cases result
    exact sound
  | cons operation rest ih =>
    rw [Tree.run, runAll] at result
    obtain ⟨⟨answer, next⟩, called, result⟩ := bind_eq_ok.mp result
    obtain ⟨⟨answers, last⟩, ran, result⟩ := bind_eq_ok.mp result
    cases result
    exact ih (sound.call called) ran

end

end LeavesSound

variable [LinearOrder K]

/-- After any calls, a live leaf that has a sibling holds a pair, and its sibling is live.
A removal from it returns: it fits into one leaf what it puts into it. -/
theorem run_occupied (ops : NodeOps K H Mid Inner) (memory : Memory size K H V Inner)
    {operations : List (Operation K V)} {answers : List (Option (KVPair K V))}
    (ran : (Tree.empty ops memory).run ops memory operations = .ok (answers, tree))
    (stored : tree.nodes ptr = some (.leaf leaf)) (live : leaf.control.deleted = false)
    (sibling : leaf.control.sibling = true) :
    (∃ slot kv, leaf.bitmap.getLsbD slot = true ∧ leaf.kvs slot = some kv) ∧
      ∃ right, tree.nodes leaf.sibling = some (.leaf right) ∧ right.control.deleted = false ∧
        ∀ key, ∃ detached, leaf.remove ops.toKeyOps right ptr key = .ok detached ∧
          (detached.merged.isSome →
            Bitmap.popcount detached.leaf.bitmap + 1 =
              Bitmap.popcount leaf.bitmap + Bitmap.popcount right.bitmap ∧
            Bitmap.popcount detached.leaf.bitmap ≤ size.slots) := by
  obtain ⟨cells, chain⟩ := (LeavesSound.empty ops memory).run ran
  obtain ⟨front, back, rfl⟩ := chain.exists_split stored live
  have sound := chain.sound (ptr, leaf) (by simp)
  obtain ⟨right, rest, rfl, rightStored, rightLive⟩ := chain.exists_sibling sibling
  have rightSound := chain.sound (leaf.sibling, right) (by simp)
  refine ⟨sound.occupied sibling, right, rightStored, rightLive, ?_⟩
  intro key
  obtain ⟨detached, result, form, counted⟩ := LeafNode.remove_form sound.filled
    (fun _ => rightSound.filled) sound.occupied ptr key
  refine ⟨detached, result, fun joined => ⟨counted joined, ?_⟩⟩
  rw [form.filled.keeps.popcount_eq]
  exact form.filled.keeps.length_le

theorem run_occupied_splitCalls :
    let ops := integerOps kInnerSize .uint64 fun _ => 0
    ∃ answers tree leaf, (Tree.empty ops zeroMemory).run ops zeroMemory splitCalls =
        .ok (answers, tree) ∧ tree.nodes 1 = some (.leaf leaf) ∧ leaf.control.sibling = true ∧
      (∃ slot kv, leaf.bitmap.getLsbD slot = true ∧ leaf.kvs slot = some kv) ∧
      ∃ right, tree.nodes leaf.sibling = some (.leaf right) ∧
        ∃ detached, leaf.remove ops.toKeyOps right 1 ⟨7⟩ = .ok detached := by
  intro ops
  have flags : (((Tree.empty ops zeroMemory).run ops zeroMemory splitCalls).bind fun outcome =>
      (outcome.2.leafAt 1).map fun leaf => (leaf.control.deleted, leaf.control.sibling)) =
        .ok (false, true) := by
    decide +kernel
  obtain ⟨⟨answers, tree⟩, ran, flags⟩ := bind_eq_ok.mp flags
  obtain ⟨leaf, loaded, same⟩ := map_eq_ok.mp flags
  obtain ⟨live, sibling⟩ := Prod.mk.inj same
  have stored := leafAt_eq_ok.mp loaded
  obtain ⟨occupied, right, rightStored, _, removes⟩ :=
    run_occupied ops zeroMemory ran stored live sibling
  obtain ⟨detached, removed, _⟩ := removes ⟨7⟩
  exact ⟨answers, tree, leaf, ran, stored, sibling, occupied, right, rightStored, detached, removed⟩

end Tree

end IndexResearch.FBTree
