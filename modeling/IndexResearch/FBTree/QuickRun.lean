import IndexResearch.FBTree.Run

/-!
# Runs with few comparisons

Most calls of a long run insert below or remove the first pair of a leaf.  On a well-formed
tree these need a few comparisons only, so runs of thousands of calls can be computed.
-/

namespace IndexResearch.FBTree.Levels

variable {K H V : Type} [LinearOrder K] (ops : KeyOps K H) (leafSize size : NodeSize)

def frontUpsert (levels : Levels K H V) (kv : KVPair K V) : Option (Levels K H V) :=
  match levels.leaves with
  | [] => none
  | leaf :: after =>
    if stopsAt ops.highKey kv.key leaf.view.high = true ∧
        leaf.view.entries.head?.all (fun first => decide (kv.key < first.key)) = true ∧
        leaf.view.entries.length < leafSize.slots ∧ levels.inner.length < kMaxHeight then
      some (levels.withEntries [] leaf after (kv :: leaf.view.entries))
    else none

def frontRemove (levels : Levels K H V) (key : K) : Option (Levels K H V) :=
  match levels.leafOf ops.highKey key with
  | some (before, leaf, right :: rest) =>
    match leaf.view.entries with
    | [] => none
    | first :: entries =>
      if first.key = key ∧ leafSize.half < entries.length + right.view.entries.length ∧
          entries ≠ [] then
        some (levels.withEntries before leaf (right :: rest) entries)
      else none
  | _ => none

def frontCall (levels : Levels K H V) : Operation K V → Option (Levels K H V)
  | .upsert kv => levels.frontUpsert ops leafSize kv
  | .remove key => levels.frontRemove ops leafSize key
  | _ => none

def quickRun (levels : Levels K H V) : List (Operation K V) → Except Fault (Levels K H V)
  | [] => .ok levels
  | operation :: rest =>
    match levels.frontCall ops leafSize operation with
    | some next => next.quickRun rest
    | none => (levels.call ops leafSize size operation).bind fun outcome =>
      outcome.2.quickRun rest

variable {ops leafSize size} {levels levels' : Levels K H V}

namespace WellFormed

section

variable (formed : levels.WellFormed ops.highKey leafSize size)
include formed

theorem frontUpsert {kv : KVPair K V} (quick : levels.frontUpsert ops leafSize kv = some levels') :
    levels.call ops leafSize size (.upsert kv) = .ok (none, levels') := by
  rw [Levels.frontUpsert] at quick
  cases leavesEq : levels.leaves with
  | nil =>
    rw [leavesEq] at quick
    cases quick
  | cons leaf after =>
    rw [leavesEq] at quick
    dsimp only at quick
    split at quick
    · rename_i conditions
      obtain ⟨stops, first, room, low⟩ := conditions
      cases quick
      have found : focus (fun leaf => stopsAt ops.highKey kv.key leaf.view.high) levels.leaves =
          some ([], leaf, after) := by
        rw [leavesEq, focus, if_pos stops]
      have rising := (formed.chain.sound leaf (by simp [leavesEq])).ascending
      have larger : ∀ other ∈ leaf.view.entries, kv.key < other.key := by
        cases entriesEq : leaf.view.entries with
        | nil => exact fun other listed => absurd listed List.not_mem_nil
        | cons head rest =>
          rw [entriesEq] at first rising
          have below : kv.key < head.key := by simpa using first
          intro other listed
          rcases List.mem_cons.mp listed with rfl | later
          · exact below
          · exact lt_trans below ((ascending_cons.mp rising).1 other later)
      have absent : findKey KVPair.key leaf.view.entries kv.key = none :=
        findKey_eq_none.mpr fun other listed => ne_of_gt (larger other listed)
      have inFront : place KVPair.key leaf.view.entries kv = kv :: leaf.view.entries := by
        have rank : rankIn KVPair.key leaf.view.entries kv.key = 0 :=
          List.countP_eq_zero.mpr fun other listed => by
            simpa using le_of_lt (larger other listed)
        rw [place, rank]
        rfl
      have upserted : levels.upsert ops leafSize size kv =
          (none, levels.withEntries [] leaf after (kv :: leaf.view.entries)) := by
        rw [Levels.upsert, leafOf, found]
        simp only [LeafView.upsert, absent, if_pos room, inFront]
        rfl
      rw [call, upserted]
      exact if_pos low
    · cases quick

theorem frontRemove {key : K} (quick : levels.frontRemove ops leafSize key = some levels') :
    ∃ kv, levels.call ops leafSize size (.remove key) = .ok (some kv, levels') := by
  obtain ⟨before, leaf, after, found⟩ := formed.chain.exists_leafOf key
  have split := leafOf_eq_some found
  have rising := (formed.chain.sound leaf (by simp [split])).ascending
  rw [Levels.frontRemove, leafOf, found] at quick
  cases after with
  | nil => cases quick
  | cons right rest =>
    cases entriesEq : leaf.view.entries with
    | nil => simp [entriesEq] at quick
    | cons first entries =>
      simp only [entriesEq] at quick
      split at quick
      · rename_i conditions
        obtain ⟨rfl, large, nonempty⟩ := conditions
        cases quick
        rw [entriesEq] at rising
        obtain ⟨below, _⟩ := ascending_cons.mp rising
        have bound : findKey KVPair.key leaf.view.entries first.key = some first := by
          rw [entriesEq, findKey, List.find?_cons_of_pos (by simp)]
        have erased : eraseKey KVPair.key leaf.view.entries first.key = entries := by
          rw [entriesEq, eraseKey, List.filter_cons_of_neg (by simp)]
          exact List.filter_eq_self.mpr fun other listed => by
            simpa using ne_of_gt (below other listed)
        have kept : ¬(entries.length + right.view.entries.length ≤ leafSize.half ∨
            entries.length = 0) := by
          rintro (small | empty)
          · omega
          · exact nonempty (List.eq_nil_of_length_eq_zero empty)
        refine ⟨first, ?_⟩
        rw [call, Levels.remove, leafOf, found]
        simp only [List.head?_cons, Option.map_some, LeafView.remove, bound, erased, if_neg kept]
        rfl
      · cases quick

theorem frontCall {operation : Operation K V}
    (quick : levels.frontCall ops leafSize operation = some levels') :
    ∃ answer, levels.call ops leafSize size operation = .ok (answer, levels') := by
  cases operation with
  | upsert kv => exact ⟨none, formed.frontUpsert quick⟩
  | update kv | lookup key => cases quick
  | remove key =>
    obtain ⟨kv, result⟩ := formed.frontRemove quick
    exact ⟨some kv, result⟩

end

theorem quickRun (lawful : ∀ copy key, ops.highKey (ops.makeHigh copy key) = key)
    (formed : levels.WellFormed ops.highKey leafSize size) (operations : List (Operation K V)) :
    levels.quickRun ops leafSize size operations =
      (levels.run ops leafSize size operations).map Prod.snd := by
  induction operations generalizing levels with
  | nil => rfl
  | cons operation rest ih =>
    have kept := Levels.call_spec lawful formed operation
    have step : levels.quickRun ops leafSize size (operation :: rest) =
        (levels.call ops leafSize size operation).bind fun outcome =>
          outcome.2.quickRun ops leafSize size rest := by
      rw [Levels.quickRun]
      cases quick : levels.frontCall ops leafSize operation with
      | none => rfl
      | some next =>
        obtain ⟨answer, result⟩ := formed.frontCall quick
        rw [result]
        rfl
    rw [step, Levels.run, runAll]
    cases called : levels.call ops leafSize size operation with
    | error fault => rfl
    | ok outcome =>
      rw [called] at kept
      simp only [Except.bind, bind]
      rw [ih kept.2.1, Levels.run]
      cases runAll (call ops leafSize size) outcome.2 rest with
      | error fault => rfl
      | ok last => rfl

end WellFormed

end IndexResearch.FBTree.Levels

namespace IndexResearch.FBTree.Tree

variable {leafSize size : NodeSize} {K H V Mid Inner : Type} [LinearOrder K]
  {ops : NodeOps K H Mid Inner}

theorem exists_run (laws : ops.Laws size) (memory : Memory leafSize K H V Inner)
    {operations : List (Operation K V)} {check : Levels K H V → Bool}
    (valid : ∀ operation ∈ operations, laws.Valid operation.key)
    (checked : (Levels.empty.quickRun ops.toKeyOps leafSize size operations).toOption.any check =
      true) :
    ∃ answers tree levels,
      (Tree.empty ops memory).run ops memory operations = .ok (answers, tree) ∧
      tree.Keeps laws levels ∧ check levels = true := by
  have keeps := keeps_empty laws memory
  rw [keeps.represents.wellFormed.quickRun laws.highKey_makeHigh] at checked
  cases ran : Levels.run ops.toKeyOps leafSize size .empty operations with
  | error fault =>
    rw [ran] at checked
    cases checked
  | ok outcome =>
    rw [ran] at checked
    obtain ⟨⟨answers, tree⟩, reached, _, kept⟩ := (keeps.run memory valid).exists_ok ran
    exact ⟨answers, tree, outcome.2, reached, kept, checked⟩

end IndexResearch.FBTree.Tree
