import IndexResearch.FBTree.Levels.Height
import IndexResearch.FBTree.Levels.Starving
import IndexResearch.FBTree.Tree.Removal

/-!
# Runs of one thread

Sequences of calls of the tree, next to the same calls of a finite map.
-/

namespace IndexResearch.FBTree

open List

inductive Operation (K V : Type) where
  | upsert (kv : KVPair K V)
  | update (kv : KVPair K V)
  | lookup (key : K)
  | remove (key : K)

abbrev Dictionary (K V : Type) := K → Option (KVPair K V)

abbrev Outcome (K V State : Type) := List (Option (KVPair K V)) × State

variable {K H V Mid Inner : Type}

namespace Operation

def key : Operation K V → K
  | upsert kv => kv.key
  | update kv => kv.key
  | lookup key => key
  | remove key => key

def grows : Operation K V → Bool
  | remove _ => false
  | _ => true

def apply [LinearOrder K] (dictionary : Dictionary K V) :
    Operation K V → Option (KVPair K V) × Dictionary K V
  | upsert kv => (dictionary kv.key, Function.update dictionary kv.key (some kv))
  | update kv => (dictionary kv.key,
      if (dictionary kv.key).isSome then Function.update dictionary kv.key (some kv)
      else dictionary)
  | lookup key => (dictionary key, dictionary)
  | remove key => (dictionary key, Function.update dictionary key none)

end Operation

namespace Dictionary

def run [LinearOrder K] (dictionary : Dictionary K V) :
    List (Operation K V) → Outcome K V (Dictionary K V)
  | [] => ([], dictionary)
  | operation :: rest =>
    let (answer, next) := operation.apply dictionary
    let (answers, last) := run next rest
    (answer :: answers, last)

theorem run_eq [LinearOrder K] {dictionary last : Dictionary K V}
    {operations : List (Operation K V)} {answers : List (Option (KVPair K V))}
    (traces : Traces (fun dictionary operation answer next =>
      operation.apply dictionary = (answer, next)) last dictionary operations answers) :
    dictionary.run operations = (answers, last) := by
  induction operations generalizing dictionary answers with
  | nil =>
    cases answers with
    | nil => exact congrArg (Prod.mk []) (Eq.symm traces)
    | cons answer answers => exact traces.elim
  | cons operation rest ih =>
    cases answers with
    | nil => exact traces.elim
    | cons answer answers =>
      obtain ⟨next, applied, there⟩ := traces
      rw [run, applied]
      exact congrArg (fun outcome => (answer :: outcome.1, outcome.2)) (ih there)

end Dictionary

namespace Levels

variable [LinearOrder K]

def call (ops : KeyOps K H) (leafSize innerSize : NodeSize) (levels : Levels K H V) :
    Operation K V → Except Fault (Option (KVPair K V) × Levels K H V)
  | .upsert kv =>
    let outcome := levels.upsert ops leafSize innerSize kv
    if outcome.2.inner.length < kMaxHeight then .ok outcome else .error .noTrack
  | .update kv => .ok (levels.update ops.highKey kv)
  | .lookup key => .ok (levels.lookup ops.highKey key, levels)
  | .remove key => (levels.remove ops.highKey leafSize innerSize key).elim (.error .noSeparator) .ok

def run (ops : KeyOps K H) (leafSize innerSize : NodeSize) (levels : Levels K H V)
    (operations : List (Operation K V)) : Except Fault (Outcome K V (Levels K H V)) :=
  runAll (call ops leafSize innerSize) levels operations

/-- A call does not return where `root_track_` is too short for the new root, and where a
removal starves a node. -/
def Refuses (ops : KeyOps K H) (leafSize innerSize : NodeSize) (levels : Levels K H V) :
    Operation K V → Fault → Prop
  | .upsert kv, .noTrack =>
    kMaxHeight ≤ (levels.upsert ops leafSize innerSize kv).2.inner.length
  | .remove key, .noSeparator => levels.starvesAt ops.highKey leafSize innerSize key = true
  | _, _ => False

end Levels

namespace Tree

variable {size : NodeSize} [LinearOrder K]

def call (ops : NodeOps K H Mid Inner) (memory : Memory size K H V Inner)
    (tree : Tree size K H V Mid Inner) :
    Operation K V → Except Fault (Option (KVPair K V) × Tree size K H V Mid Inner)
  | .upsert kv => tree.upsert ops memory kv
  | .update kv => tree.update ops kv
  | .lookup key => (tree.lookup ops key).map fun found => (found, tree)
  | .remove key => tree.remove ops key

def run (ops : NodeOps K H Mid Inner) (memory : Memory size K H V Inner)
    (tree : Tree size K H V Mid Inner) (operations : List (Operation K V)) :
    Except Fault (Outcome K V (Tree size K H V Mid Inner)) :=
  runAll (call ops memory) tree operations

end Tree

variable {leafSize size : NodeSize} [LinearOrder K] {ops : NodeOps K H Mid Inner}
  {laws : ops.Laws size} {tree : Tree leafSize K H V Mid Inner} {levels : Levels K H V}

namespace Tree

def Refuses (laws : ops.Laws size) (tree : Tree leafSize K H V Mid Inner)
    (operation : Operation K V) (fault : Fault) : Prop :=
  ∃ levels, tree.Represents laws levels ∧
    levels.Refuses ops.toKeyOps leafSize size operation fault

/-- One of the calls is refused by the tree that the calls before it have built. -/
def Stops (laws : ops.Laws size) (memory : Memory leafSize K H V Inner)
    (operations : List (Operation K V)) : Fault → Prop :=
  StopsAt (call ops memory) (Refuses laws) (Tree.empty ops memory) operations

theorem represents_empty (laws : ops.Laws size) (memory : Memory leafSize K H V Inner) :
    (Tree.empty ops memory).Represents laws .empty where
  wellFormed := Levels.wellFormed_empty
  addressed := Levels.addressed_empty
  within := Levels.within_empty
  ground := by
    intro leaf listed
    obtain rfl := mem_singleton.mp listed
    refine ⟨.new ops.toKeyOps (memory.leaf 1), by simp [empty], ?_⟩
    exact .of_stored ⟨LeafNode.keeps_new ops.toKeyOps _, List.Pairwise.nil⟩ rfl rfl rfl rfl
  upper := nofun
  root_eq := rfl
  depth_eq := rfl
  depth_le := show 0 < kMaxHeight by decide
  track_eq := by
    intro height head here
    obtain ⟨rfl, rfl⟩ : height = 0 ∧ head = 1 := by
      cases height with
      | zero => exact ⟨rfl, (Option.some.inj here).symm⟩
      | succ height => cases here
    simp [empty]
  fresh_eq := rfl

theorem Represents.lookup_bindings {key : K} (represents : tree.Represents laws levels)
    (valid : laws.Valid key) : tree.lookup ops key = .ok (levels.bindings key) := by
  rw [← represents.wellFormed.lookup_eq]
  exact represents.lookup_eq valid

/-! ## All calls -/

/-- The tree represents the levels, and every node is one of theirs or was given to `retire`,
but not both, and not twice. -/
structure Keeps (laws : ops.Laws size) (tree : Tree leafSize K H V Mid Inner)
    (levels : Levels K H V) : Prop where
  represents : tree.Represents laws levels
  once : (reclaimed tree.retired ++ levels.ids).Nodup
  allocated : ∀ ptr ∈ tree.retired, ptr < tree.fresh

theorem keeps_empty (laws : ops.Laws size) (memory : Memory leafSize K H V Inner) :
    (Tree.empty ops memory).Keeps laws .empty where
  represents := represents_empty laws memory
  once := Levels.addressed_empty.distinct
  allocated _ listed := absurd listed not_mem_nil

namespace Keeps

variable {tree' : Tree leafSize K H V Mid Inner} {levels' : Levels K H V}

theorem apart (keeps : tree.Keeps laws levels) (ptr : Ptr) (listed : ptr ∈ tree.retired) :
    ptr < tree.fresh ∧ ptr ∉ levels.ids := by
  refine ⟨keeps.allocated ptr listed, fun inUse => ?_⟩
  by_cases null : ptr = nullptr
  · exact absurd null (ne_of_gt (keeps.represents.addressed.allocated ptr inUse).1)
  · exact (nodup_append.mp keeps.once).2.2 ptr (mem_reclaimed.mpr ⟨listed, null⟩) ptr inUse rfl

theorem of_grown (keeps : tree.Keeps laws levels) (represents : tree'.Represents laws levels')
    (sameRetired : tree'.retired = tree.retired) (longer : levels.fresh ≤ levels'.fresh)
    (ids : ∀ id ∈ levels'.ids, id ∈ levels.ids ∨ levels.fresh ≤ id) : tree'.Keeps laws levels' := by
  have old : ∀ ptr ∈ tree.retired, ptr < levels.fresh := fun ptr listed =>
    keeps.represents.fresh_eq ▸ keeps.allocated ptr listed
  refine ⟨represents, ?_, ?_⟩
  · rw [sameRetired, nodup_append]
    refine ⟨(nodup_append.mp keeps.once).1, represents.addressed.distinct, ?_⟩
    rintro ptr listed _ again rfl
    have retired := (mem_reclaimed.mp listed).1
    rcases ids ptr again with here | new
    · exact (keeps.apart ptr retired).2 here
    · exact not_lt_of_ge new (old ptr retired)
  · intro ptr listed
    rw [sameRetired] at listed
    rw [represents.fresh_eq]
    exact lt_of_lt_of_le (old ptr listed) longer

variable {kv : KVPair K V} {result : Option (KVPair K V) × Tree leafSize K H V Mid Inner}

theorem upsert (keeps : tree.Keeps laws levels)
    (entered : Represents.Entered laws tree result (levels.upsert ops.toKeyOps leafSize size kv)) :
    result.2.Keeps laws (levels.upsert ops.toKeyOps leafSize size kv).2 := by
  apply keeps.of_grown entered.represents entered.retired
  · rcases Levels.upsert_ids levels kv with ⟨_, same⟩ | ⟨count, _, taken⟩
    · exact le_of_eq same.symm
    · rw [taken, Nat.add_assoc]
      exact Nat.le_add_right _ _
  · intro id listed
    rcases Levels.upsert_ids levels kv with ⟨same, _⟩ | ⟨count, perm, _⟩
    · exact .inl (same ▸ listed)
    · rcases mem_append.mp (perm.mem_iff.mp listed) with old | new
      · exact .inl old
      · rcases mem_cons.mp new with rfl | later
        · exact .inr le_rfl
        · rw [mem_range'_1] at later
          exact .inr (Nat.le_of_add_right_le later.1)

theorem retired_update {old : Option (KVPair K V)}
    (result : tree.update ops kv = .ok (old, tree')) : tree'.retired = tree.retired := by
  obtain ⟨path, _, rest⟩ := bind_eq_ok.mp result
  obtain ⟨leaf, _, written⟩ := bind_eq_ok.mp rest
  rw [← (Prod.mk.inj (Except.ok.inj written)).2]
  rfl

theorem update {old : Option (KVPair K V)} (keeps : tree.Keeps laws levels)
    (result : tree.update ops kv = .ok (old, tree'))
    (represents : tree'.Represents laws (levels.update ops.highKey kv).2) :
    tree'.Keeps laws (levels.update ops.highKey kv).2 := by
  obtain ⟨sameIds, sameFresh⟩ :=
    (Levels.update_ids levels kv : (levels.update ops.highKey kv).2.ids = _ ∧ _)
  apply keeps.of_grown represents (retired_update result)
  · exact le_of_eq sameFresh.symm
  · exact fun id listed => .inl (sameIds ▸ listed)

theorem remove {key : K}
    {outcome : Option (KVPair K V) × Levels K H V} (keeps : tree.Keeps laws levels)
    (removed : levels.remove ops.highKey leafSize size key = some outcome)
    (left : Represents.Left laws tree levels result outcome) : result.2.Keeps laws outcome.2 := by
  have sameFresh : result.2.fresh = tree.fresh := by
    rw [left.represents.fresh_eq, (Levels.remove_ids removed).2, keeps.represents.fresh_eq]
  refine ⟨left.represents, left.account.nodup_iff.mpr keeps.once, ?_⟩
  intro ptr listed
  rw [sameFresh]
  by_cases null : ptr = nullptr
  · rw [null, keeps.represents.fresh_eq]
    exact keeps.represents.addressed.fresh_pos
  · have before := left.account.subset (mem_append_left _ (mem_reclaimed.mpr ⟨listed, null⟩))
    rcases mem_append.mp before with retired | inUse
    · exact keeps.allocated ptr (mem_reclaimed.mp retired).1
    · rw [keeps.represents.fresh_eq]
      exact (keeps.represents.addressed.allocated ptr inUse).2

theorem call (memory : Memory leafSize K H V Inner) (keeps : tree.Keeps laws levels)
    {operation : Operation K V} (valid : laws.Valid operation.key) :
    Simulates (fun result outcome => result.1 = outcome.1 ∧ result.2.Keeps laws outcome.2)
      (tree.call ops memory operation) (levels.call ops.toKeyOps leafSize size operation) := by
  have represents := keeps.represents
  cases operation with
  | upsert kv =>
    have following := represents.upsert_follows memory valid
    rw [Tree.call, Levels.call]
    by_cases low : (levels.upsert ops.toKeyOps leafSize size kv).2.inner.length < kMaxHeight
    · rw [if_pos low] at following
      obtain ⟨result, upserted, entered⟩ := following
      simp only [upserted, if_pos low]
      exact ⟨entered.answer, keeps.upsert entered⟩
    · rw [if_neg low] at following
      simp only [show tree.upsert ops memory kv = _ from following, if_neg low]
      rfl
  | update kv =>
    obtain ⟨tree', result, kept⟩ := represents.update_eq valid
    rw [Tree.call, result]
    exact ⟨rfl, keeps.update result kept⟩
  | lookup key =>
    have answer : tree.lookup ops key = _ := represents.lookup_eq valid
    rw [Tree.call, answer]
    exact ⟨rfl, keeps⟩
  | remove key =>
    apply Simulates.of_follows (represents.remove_eq valid)
    intro result outcome removed left
    exact ⟨left.answer, keeps.remove removed left⟩

theorem run (memory : Memory leafSize K H V Inner) (keeps : tree.Keeps laws levels)
    {operations : List (Operation K V)}
    (valid : ∀ operation ∈ operations, laws.Valid operation.key) :
    Simulates (fun result outcome => result.1 = outcome.1 ∧ result.2.Keeps laws outcome.2)
      (tree.run ops memory operations) (levels.run ops.toKeyOps leafSize size operations) :=
  .runAll (fun _ _ _ keeps valid => keeps.call memory valid) keeps valid

end Keeps

end Tree

/-! ## Calls on the levels -/

namespace Levels

variable {keyOps : KeyOps K H}

theorem call_spec (lawful : ∀ copy key, keyOps.highKey (keyOps.makeHigh copy key) = key)
    (formed : levels.WellFormed keyOps.highKey leafSize size) (operation : Operation K V) :
    Ends (fun outcome => outcome.1 = (operation.apply levels.bindings).1 ∧
        outcome.2.WellFormed keyOps.highKey leafSize size ∧
        outcome.2.bindings = (operation.apply levels.bindings).2)
      (levels.Refuses keyOps leafSize size operation)
      (levels.call keyOps leafSize size operation) := by
  cases operation with
  | upsert kv =>
    rw [call]
    by_cases low : (levels.upsert keyOps leafSize size kv).2.inner.length < kMaxHeight
    · simp only [if_pos low]
      exact formed.upsert_spec lawful kv
    · simp only [if_neg low]
      exact not_lt.mp low
  | update kv => exact formed.update_spec kv
  | lookup key => exact ⟨formed.lookup_eq key, formed, rfl⟩
  | remove key =>
    rw [call]
    cases removed : levels.remove keyOps.highKey leafSize size key with
    | none => exact formed.remove_eq_none.mp removed
    | some outcome => exact formed.remove_spec removed

theorem HalfFull.call (lawful : ∀ copy key, keyOps.highKey (keyOps.makeHigh copy key) = key)
    (halfFull : levels.HalfFull leafSize size)
    (formed : levels.WellFormed keyOps.highKey leafSize size) {operation : Operation K V}
    (grows : operation.grows = true) {outcome : Option (KVPair K V) × Levels K H V}
    (called : levels.call keyOps leafSize size operation = .ok outcome) :
    outcome.2.HalfFull leafSize size := by
  cases operation with
  | upsert kv =>
    rw [Levels.call] at called
    split at called
    · cases called
      exact halfFull.upsert lawful formed kv
    · cases called
  | update kv =>
    cases called
    exact halfFull.update formed kv
  | lookup key =>
    cases called
    exact halfFull
  | remove key => cases grows

end Levels

/-! ## Runs -/

namespace Tree

/-- What a call of the tree and the same call of its levels leave, where both return. -/
structure CallsTo (laws : ops.Laws size) (memory : Memory leafSize K H V Inner)
    (tree : Tree leafSize K H V Mid Inner) (levels : Levels K H V) (operation : Operation K V)
    (answer : Option (KVPair K V)) (next : Tree leafSize K H V Mid Inner)
    (nextLevels : Levels K H V) : Prop where
  called : tree.call ops memory operation = .ok (answer, next)
  levelsCalled : levels.call ops.toKeyOps leafSize size operation = .ok (answer, nextLevels)
  keeps : next.Keeps laws nextLevels
  answer_eq : answer = (operation.apply levels.bindings).1
  bindings_eq : nextLevels.bindings = (operation.apply levels.bindings).2

theorem Keeps.call_ends (memory : Memory leafSize K H V Inner) (keeps : tree.Keeps laws levels)
    {operation : Operation K V} (valid : laws.Valid operation.key) :
    Ends (fun result => ∃ next, CallsTo laws memory tree levels operation result.1 result.2 next)
      (levels.Refuses ops.toKeyOps leafSize size operation) (tree.call ops memory operation) := by
  have spec := Levels.call_spec laws.highKey_makeHigh keeps.represents.wellFormed operation
  have simulates := keeps.call memory valid
  cases levelsCalled : levels.call ops.toKeyOps leafSize size operation with
  | error fault =>
    rw [levelsCalled] at spec
    rw [simulates.eq_error levelsCalled]
    exact spec
  | ok outcome =>
    rw [levelsCalled] at spec
    obtain ⟨⟨answer, next⟩, called, rfl, kept⟩ := simulates.exists_ok levelsCalled
    rw [called]
    exact ⟨outcome.2, called, levelsCalled, kept, spec.1, spec.2.2⟩

section Invariants

variable (Invariant : Tree leafSize K H V Mid Inner → Levels K H V → Prop)
  {operations : List (Operation K V)}

theorem run_rule {admits : Operation K V → Prop}
    {refuses : Tree leafSize K H V Mid Inner → Operation K V → Fault → Prop}
    (laws : ops.Laws size) (memory : Memory leafSize K H V Inner)
    (step : ∀ tree levels operation, tree.Keeps laws levels → Invariant tree levels →
      admits operation →
      Ends (fun result => ∃ next, CallsTo laws memory tree levels operation result.1 result.2 next ∧
        Invariant result.2 next) (refuses tree operation) (tree.call ops memory operation))
    (holds : Invariant (Tree.empty ops memory) .empty)
    (admitted : ∀ operation ∈ operations, admits operation) :
    Ends (fun result => ∃ last, result.2.Keeps laws last ∧ Invariant result.2 last ∧
        Dictionary.run (fun _ => none) operations = (result.1, last.bindings))
      (StopsAt (call ops memory) refuses (Tree.empty ops memory) operations)
      ((Tree.empty ops memory).run ops memory operations) := by
  have runs : Ends _ (StopsAt (call ops memory) refuses _ operations) _ := Ends.runAll
    (fun tree dictionary => ∃ levels, tree.Keeps laws levels ∧ Invariant tree levels ∧
      levels.bindings = dictionary)
    (fun dictionary operation answer next => operation.apply dictionary = (answer, next))
    ?_ ⟨.empty, keeps_empty laws memory, holds, rfl⟩ admitted
  · refine runs.mono ?_
    rintro ⟨answers, tree⟩ ⟨_, ⟨last, kept, holdsLast, rfl⟩, traces⟩
    exact ⟨last, kept, holdsLast, Dictionary.run_eq traces⟩
  · rintro tree _ operation ⟨levels, keeps, holds, rfl⟩ admits
    refine (step tree levels operation keeps holds admits).mono ?_
    rintro ⟨answer, next⟩ ⟨nextLevels, calls, holdsNext⟩
    refine ⟨nextLevels.bindings, ?_, nextLevels, calls.keeps, holdsNext, rfl⟩
    exact Prod.ext calls.answer_eq.symm calls.bindings_eq.symm

/-- What every call preserves holds as long as a run goes on. -/
theorem run_invariant (laws : ops.Laws size) (memory : Memory leafSize K H V Inner)
    (step : ∀ tree levels operation answer next nextLevels, tree.Keeps laws levels →
      Invariant tree levels → laws.Valid operation.key →
      CallsTo laws memory tree levels operation answer next nextLevels →
      Invariant next nextLevels)
    (holds : Invariant (Tree.empty ops memory) .empty)
    (valid : ∀ operation ∈ operations, laws.Valid operation.key) :
    Ends (fun result => ∃ last, result.2.Keeps laws last ∧ Invariant result.2 last ∧
        Dictionary.run (fun _ => none) operations = (result.1, last.bindings))
      (Stops laws memory operations) ((Tree.empty ops memory).run ops memory operations) := by
  refine run_rule Invariant laws memory ?_ holds valid
  intro tree levels operation keeps holds valid
  have ends := keeps.call_ends memory valid
  refine (ends.mono ?_).mono_error fun fault refuses => ⟨levels, keeps.represents, refuses⟩
  rintro ⟨answer, next⟩ ⟨nextLevels, calls⟩
  exact ⟨nextLevels, calls, step _ _ _ _ _ _ keeps holds valid calls⟩

end Invariants

variable {operations : List (Operation K V)}

theorem run_ends (laws : ops.Laws size) (memory : Memory leafSize K H V Inner)
    (valid : ∀ operation ∈ operations, laws.Valid operation.key) :
    Ends (fun result => ∃ last, result.2.Keeps laws last ∧
        Dictionary.run (fun _ => none) operations = (result.1, last.bindings))
      (Stops laws memory operations) ((Tree.empty ops memory).run ops memory operations) := by
  have ends := run_invariant (fun _ _ => True) laws memory
    (fun _ _ _ _ _ _ _ _ _ _ => trivial) trivial valid
  refine ends.mono ?_
  rintro ⟨answers, tree⟩ ⟨last, kept, _, same⟩
  exact ⟨last, kept, same⟩

theorem run_of_grows (laws : ops.Laws size) (memory : Memory leafSize K H V Inner)
    (valid : ∀ operation ∈ operations, laws.Valid operation.key)
    (grows : ∀ operation ∈ operations, operation.grows = true)
    (low : ∀ levels : Levels K H V, levels.WellFormed ops.highKey leafSize size →
      levels.HalfFull leafSize size → levels.inner.length < kMaxHeight) :
    ∃ tree, (Tree.empty ops memory).run ops memory operations =
      .ok ((Dictionary.run (fun _ => none) operations).1, tree) := by
  have admitted : ∀ operation ∈ operations,
      laws.Valid operation.key ∧ operation.grows = true :=
    fun operation listed => ⟨valid operation listed, grows operation listed⟩
  have ends : Ends _ (StopsAt _ (fun _ _ _ => False) _ operations) _ :=
    run_rule (fun _ levels => levels.HalfFull leafSize size) laws memory ?_ .empty admitted
  · cases ran : (Tree.empty ops memory).run ops memory operations with
    | ok result =>
      rw [ran] at ends
      obtain ⟨last, _, _, same⟩ := ends
      exact ⟨result.2, by rw [same]⟩
    | error fault =>
      rw [ran] at ends
      obtain ⟨_, _, _, _, _, _, _, absurdity⟩ := ends
      exact absurdity.elim
  · rintro tree levels operation keeps halfFull ⟨valid, grows⟩
    have formed := keeps.represents.wellFormed
    have ends := keeps.call_ends memory valid
    refine (ends.mono ?_).mono_error ?_
    · rintro ⟨answer, next⟩ ⟨nextLevels, calls⟩
      exact ⟨nextLevels, calls,
        halfFull.call laws.highKey_makeHigh formed grows calls.levelsCalled⟩
    · intro fault refuses
      cases operation with
      | upsert kv =>
        cases fault with
        | noTrack =>
          have upserted := low _ (formed.upsert_spec laws.highKey_makeHigh kv).2.1
            (halfFull.upsert laws.highKey_makeHigh formed kv)
          exact absurd upserted (not_lt_of_ge refuses)
        | _ => exact refuses
      | update kv | lookup key => exact refuses
      | remove key => cases grows

end Tree

end IndexResearch.FBTree
