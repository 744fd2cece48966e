import IndexResearch.FBTree.Levels.Leaves
import IndexResearch.FBTree.Levels.Stacked

/-!
# The addresses of the levels

No two nodes of the levels have the same address, and every address was handed out.
-/

namespace IndexResearch.FBTree

open List

variable {K H V : Type}

def innerIds (levels : List (Level H)) : List Ptr := levels.flatMap Level.ids

@[simp] theorem innerIds_nil : innerIds ([] : List (Level H)) = [] := rfl

@[simp] theorem innerIds_cons (level : Level H) (above : List (Level H)) :
    innerIds (level :: above) = level.ids ++ innerIds above := flatMap_cons

namespace Levels

def ids (levels : Levels K H V) : List Ptr := levels.leaves.ids ++ innerIds levels.inner

structure Addressed (levels : Levels K H V) : Prop where
  distinct : levels.ids.Nodup
  allocated : ∀ id ∈ levels.ids, 0 < id ∧ id < levels.fresh
  fresh_pos : 0 < levels.fresh

theorem addressed_empty : (empty : Levels K H V).Addressed where
  distinct := by simp [ids, empty]
  allocated := by simp [ids, empty]
  fresh_pos := by simp [empty]

variable {levels : Levels K H V}

theorem Addressed.shrink {levels' : Levels K H V} (addressed : levels.Addressed)
    (sublist : levels'.ids.Sublist levels.ids) (sameFresh : levels'.fresh = levels.fresh) :
    levels'.Addressed where
  distinct := addressed.distinct.sublist sublist
  allocated id listed := by
    rw [sameFresh]
    exact addressed.allocated id (sublist.subset listed)
  fresh_pos := sameFresh ▸ addressed.fresh_pos

theorem Addressed.grow {levels' : Levels K H V} (first count : Nat) (addressed : levels.Addressed)
    (perm : levels'.ids.Perm (levels.ids ++ levels.fresh :: List.range' first count))
    (after : levels.fresh < first) (freshEq : levels'.fresh = first + count) :
    levels'.Addressed := by
  have positive := addressed.fresh_pos
  have range : ∀ id ∈ List.range' first count, levels.fresh < id ∧ id < first + count := by
    intro id listed
    rw [mem_range'_1] at listed
    exact ⟨lt_of_lt_of_le after listed.1, listed.2⟩
  refine ⟨?_, ?_, ?_⟩
  · rw [perm.nodup_iff, nodup_append]
    refine ⟨addressed.distinct, nodup_cons.mpr ⟨?_, nodup_range'⟩, ?_⟩
    · exact fun listed => lt_irrefl _ (range _ listed).1
    · rintro id listed other otherListed rfl
      have old := (addressed.allocated id listed).2
      rcases mem_cons.mp otherListed with rfl | later
      · exact lt_irrefl _ old
      · exact lt_asymm old (range id later).1
  · intro id listed
    rw [freshEq]
    have below : levels.fresh < first + count := lt_of_lt_of_le after (Nat.le_add_right _ _)
    rcases mem_append.mp (perm.mem_iff.mp listed) with old | new
    · have bounds := addressed.allocated id old
      exact ⟨bounds.1, lt_trans bounds.2 below⟩
    · rcases mem_cons.mp new with rfl | later
      · exact ⟨positive, below⟩
      · exact ⟨lt_trans positive (range id later).1, (range id later).2⟩
  · rw [freshEq]
    exact lt_of_lt_of_le (lt_trans positive after) (Nat.le_add_right _ _)

variable [LinearOrder K] {keyOf : H → K} {size leafSize innerSize : NodeSize} {ops : KeyOps K H}

theorem nodeOf_eq_some {level before after : Level H} {node : LevelNode H} {key : K}
    (found : nodeOf keyOf level key = some (before, node, after)) :
    level = before ++ node :: after :=
  (focus_eq_some.mp found).1

theorem climb_ids (inner : List (Level H)) (fresh left right : Ptr) (mid : H) :
    ∃ count, (climb keyOf size inner fresh left right mid).2 = fresh + count ∧
      (innerIds (climb keyOf size inner fresh left right mid).1).Perm
        (innerIds inner ++ List.range' fresh count) := by
  induction inner generalizing fresh left right mid with
  | nil => exact ⟨1, rfl, by simp [climb]⟩
  | cons level above ih =>
    rw [climb]
    rcases found : nodeOf keyOf level (keyOf mid) with _ | ⟨before, node, after⟩
    · exact ⟨0, rfl, by simp⟩
    · obtain rfl := nodeOf_eq_some found
      simp only
      rcases node.view.insert size fresh left right mid
        (rankIn keyOf node.view.seps (keyOf mid)) with ⟨view, _ | ⟨rightView, newMid⟩⟩
      · exact ⟨0, rfl, by simp⟩
      · obtain ⟨count, last, perm⟩ := ih (fresh + 1) node.id fresh newMid
        refine ⟨count + 1, last.trans (by rw [Nat.add_assoc, Nat.add_comm 1]), ?_⟩
        have moved :
          (fresh :: (after.ids ++ (innerIds above ++ List.range' (fresh + 1) count))).Perm
            (after.ids ++ (innerIds above ++ fresh :: List.range' (fresh + 1) count)) := by
          rw [← append_assoc, ← append_assoc]
          exact perm_middle.symm
        have added := ((((perm.append_left after.ids).cons fresh).trans moved).cons
          node.id).append_left before.ids
        simpa [List.range'_succ] using added

theorem rename_ids (inner : List (Level H)) (mid : H) :
    innerIds (rename keyOf inner mid) = innerIds inner := by
  induction inner with
  | nil => rfl
  | cons level above ih =>
    rw [rename]
    rcases found : nodeOf keyOf level (keyOf mid) with _ | ⟨before, node, after⟩
    · rfl
    · obtain rfl := nodeOf_eq_some found
      simp only
      split
      · simp [ih]
      · simp

omit [LinearOrder K] in
theorem rightOf_ids_sublist (after : Level H) (right : Option (NodeView H)) :
    (rightOf after right).ids.Sublist after.ids := by
  cases after with
  | nil => exact List.Sublist.refl _
  | cons next rest =>
    cases right with
    | none => exact sublist_cons_self _ _
    | some view => exact List.Sublist.refl _

theorem settle_ids {inner inner' : List (Level H)} {mid : H}
    (settled : settle keyOf size inner mid = some inner') :
    (innerIds inner').Sublist (innerIds inner) := by
  induction inner generalizing mid inner' with
  | nil =>
    cases settled
    exact List.Sublist.refl _
  | cons level above ih =>
    rw [settle] at settled
    rcases found : nodeOf keyOf level (keyOf mid) with _ | ⟨before, node, after⟩
    · rw [found] at settled
      cases settled
      exact List.Sublist.refl _
    · obtain rfl := nodeOf_eq_some found
      rw [found] at settled
      obtain ⟨removal, _, rest⟩ := Option.bind_eq_some_iff.mp settled
      have levelIds : Level.ids (before ++ ⟨node.id, removal.node⟩ :: rightOf after removal.right)
          |>.Sublist (Level.ids (before ++ node :: after)) := by
        simp only [Level.ids_append, Level.ids_cons]
        exact ((rightOf_ids_sublist after removal.right).cons_cons node.id).append_left before.ids
      cases above with
      | nil =>
        simp only [isEmpty_nil, if_true, Option.some.injEq] at rest
        subst rest
        rw [innerIds_cons, innerIds_nil, append_nil]
        split
        · exact nil_sublist _
        · simpa using levelIds
      | cons upper higher =>
        rw [if_neg (by simp)] at rest
        cases ascent : removal.ascent with
        | done =>
          simp only [ascent, Option.some.injEq] at rest
          subst rest
          exact levelIds.append_right _
        | merged up =>
          simp only [ascent] at rest
          obtain ⟨settledAbove, settledEq, rfl⟩ := Option.map_eq_some_iff.mp rest
          exact levelIds.append (ih settledEq)
        | renamed up =>
          simp only [ascent, Option.some.injEq] at rest
          subst rest
          rw [innerIds_cons, rename_ids]
          exact levelIds.append_right _

/-! ## The operations -/

theorem update_ids (levels : Levels K H V) (kv : KVPair K V) :
    (levels.update keyOf kv).2.ids = levels.ids ∧
      (levels.update keyOf kv).2.fresh = levels.fresh := by
  rw [Levels.update]
  rcases found : levels.leafOf keyOf kv.key with _ | ⟨before, leaf, after⟩
  · exact ⟨rfl, rfl⟩
  · refine ⟨?_, rfl⟩
    rw [ids, ids, leafOf_eq_some found]
    simp

theorem upsert_ids (levels : Levels K H V) (kv : KVPair K V) :
    ((levels.upsert ops leafSize innerSize kv).2.ids = levels.ids ∧
      (levels.upsert ops leafSize innerSize kv).2.fresh = levels.fresh) ∨
    ∃ count, (levels.upsert ops leafSize innerSize kv).2.ids.Perm
        (levels.ids ++ levels.fresh :: List.range' (levels.fresh + 2) count) ∧
      (levels.upsert ops leafSize innerSize kv).2.fresh = levels.fresh + 2 + count := by
  rw [Levels.upsert]
  rcases found : levels.leafOf ops.highKey kv.key with _ | ⟨before, leaf, after⟩
  · exact .inl ⟨rfl, rfl⟩
  · simp only
    rcases leaf.view.upsert leafSize ops levels.fresh (levels.fresh + 1) kv with
      ⟨old, view, _ | right⟩
    · refine .inl ⟨?_, rfl⟩
      rw [ids, ids, leafOf_eq_some found]
      simp
    · simp only
      rcases view.high with _ | mid
      · exact .inl ⟨rfl, rfl⟩
      · obtain ⟨count, last, perm⟩ : ∃ count, (climb ops.highKey innerSize levels.inner
            (levels.fresh + 2) leaf.id levels.fresh mid).2 = levels.fresh + 2 + count ∧ _ :=
          climb_ids levels.inner (levels.fresh + 2) leaf.id levels.fresh mid
        refine .inr ⟨count, ?_, last⟩
        have moved : (levels.fresh :: (Leaves.ids after ++
            (innerIds levels.inner ++ List.range' (levels.fresh + 2) count))).Perm
            (Leaves.ids after ++
              (innerIds levels.inner ++ levels.fresh :: List.range' (levels.fresh + 2) count)) := by
          rw [← append_assoc, ← append_assoc]
          exact perm_middle.symm
        have added := ((((perm.append_left (Leaves.ids after)).cons levels.fresh).trans moved).cons
          leaf.id).append_left (Leaves.ids before)
        rw [ids, ids, leafOf_eq_some found]
        simpa using added

theorem remove_ids {key : K} {result : Option (KVPair K V) × Levels K H V}
    (removed : levels.remove keyOf leafSize innerSize key = some result) :
    result.2.ids.Sublist levels.ids ∧ result.2.fresh = levels.fresh := by
  rw [Levels.remove] at removed
  rcases found : levels.leafOf keyOf key with _ | ⟨before, leaf, after⟩
  · rw [found] at removed
    cases removed
    exact ⟨List.Sublist.refl _, rfl⟩
  · rw [found] at removed
    simp only at removed
    rcases step : leaf.view.remove leafSize (after.head?.map LeafCell.view) key with
      ⟨kv, view, _ | mid⟩
    · rw [step] at removed
      cases removed
      refine ⟨?_, rfl⟩
      rw [ids, ids, leafOf_eq_some found]
      simp
    · rw [step] at removed
      obtain ⟨inner, settled, rfl⟩ := Option.map_eq_some_iff.mp removed
      refine ⟨?_, rfl⟩
      rw [ids, ids, leafOf_eq_some found]
      simp only [Leaves.ids_append, Leaves.ids_cons]
      refine List.Sublist.append ?_ (settle_ids settled)
      exact (((tail_sublist after).map LeafCell.id).cons_cons leaf.id).append_left _

theorem Addressed.upsert (addressed : levels.Addressed) (kv : KVPair K V) :
    (levels.upsert ops leafSize innerSize kv).2.Addressed := by
  rcases upsert_ids levels kv with ⟨same, sameFresh⟩ | ⟨count, perm, freshEq⟩
  · exact addressed.shrink (same ▸ List.Sublist.refl _) sameFresh
  · exact addressed.grow (levels.fresh + 2) count perm (by unfold Ptr; omega) freshEq

theorem Addressed.remove {key : K} {result : Option (KVPair K V) × Levels K H V}
    (addressed : levels.Addressed)
    (removed : levels.remove keyOf leafSize innerSize key = some result) :
    result.2.Addressed := by
  obtain ⟨sublist, sameFresh⟩ := remove_ids removed
  exact addressed.shrink sublist sameFresh

end Levels

end IndexResearch.FBTree
