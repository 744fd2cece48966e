import IndexResearch.FBTree.IntegerRun
import IndexResearch.FBTree.Iterator

/-!
# Calls and scans

A session is a sequence of calls and range scans.  A scan sorts the leaves that it enters,
so that later calls and scans meet a mixture of sorted and unsorted leaves.  The answers
are those of a finite map that is asked for its pairs in the order of their keys.
-/

namespace IndexResearch.FBTree

/-- A request to the tree.  A scan is given what the stack holds when it sorts a leaf; it
starts at a key, or at `begin()`. -/
inductive Request (K V : Type) where
  | call (operation : Operation K V)
  | scan (raw : Ptr → Nat → Byte) (key : K) (num : Nat)
  | scanAll (raw : Ptr → Nat → Byte) (num : Nat)

variable {leafSize size : NodeSize} {K H V Mid Inner : Type} [LinearOrder K]

namespace Dictionary

structure Lists (dictionary : Dictionary K V) (wanted : K → Prop) (pairs : List (KVPair K V)) :
    Prop where
  ascending : Ascending KVPair.key pairs
  mem_iff : ∀ kv, kv ∈ pairs ↔ dictionary kv.key = some kv ∧ wanted kv.key

def Answers (dictionary : Dictionary K V) (answer : List (KVPair K V)) (next : Dictionary K V) :
    Request K V → Prop
  | .call operation => answer = (operation.apply dictionary).1.toList ∧
      next = (operation.apply dictionary).2
  | .scan _ key num => next = dictionary ∧
      ∃ pairs, dictionary.Lists (key ≤ ·) pairs ∧ answer = pairs.take num
  | .scanAll _ num => next = dictionary ∧
      ∃ pairs, dictionary.Lists (fun _ => True) pairs ∧ answer = pairs.take num

def Serves (last : Dictionary K V) :
    Dictionary K V → List (Request K V) → List (List (KVPair K V)) → Prop :=
  Traces (fun dictionary request answer next => dictionary.Answers answer next request) last

end Dictionary

namespace Request

def Within (valid : K → Prop) : Request K V → Prop
  | call operation => valid operation.key
  | scan _ key _ => valid key
  | scanAll _ _ => True

end Request

namespace Tree

section Definitions

variable (ops : NodeOps K H Mid Inner) (memory : Memory leafSize K H V Inner)

def serve (tree : Tree leafSize K H V Mid Inner) :
    Request K V → Except Fault (List (KVPair K V) × Tree leafSize K H V Mid Inner)
  | .call operation =>
    (tree.call ops memory operation).map fun (answer, next) => (answer.toList, next)
  | .scan raw key num => tree.scan ops raw key num
  | .scanAll raw num => do
      let first ← tree.begin ops raw
      scanOver ops raw num first

def session (tree : Tree leafSize K H V Mid Inner) (requests : List (Request K V)) :
    Except Fault (List (List (KVPair K V)) × Tree leafSize K H V Mid Inner) :=
  runAll (serve ops memory) tree requests

end Definitions

end Tree

variable {ops : NodeOps K H Mid Inner} {laws : ops.Laws size} {tree : Tree leafSize K H V Mid Inner}
  {levels : Levels K H V} {keyOf : H → K}

theorem Levels.WellFormed.lists (formed : levels.WellFormed keyOf leafSize size)
    (wanted : K → Prop) [DecidablePred wanted] :
    Dictionary.Lists levels.bindings wanted
      (levels.leaves.pairs.filter fun kv => decide (wanted kv.key)) := by
  have rising := formed.chain.ascending_pairs
  refine ⟨List.Pairwise.filter _ rising, fun kv => ?_⟩
  have bound : levels.bindings kv.key = some kv ↔ kv ∈ levels.leaves.pairs := by
    rw [Levels.bindings, rising.findKey_eq_some]
    exact and_iff_left rfl
  rw [List.mem_filter, decide_eq_true_iff, bound]

namespace Tree

/-- A scan is never refused. -/
def Declines (laws : ops.Laws size) (tree : Tree leafSize K H V Mid Inner) :
    Request K V → Fault → Prop
  | .call operation, fault => tree.Refuses laws operation fault
  | _, _ => False

def SessionStops (laws : ops.Laws size) (memory : Memory leafSize K H V Inner)
    (requests : List (Request K V)) : Fault → Prop :=
  StopsAt (serve ops memory) (Declines laws) (Tree.empty ops memory) requests

theorem Keeps.serve_ends (memory : Memory leafSize K H V Inner) (keeps : tree.Keeps laws levels)
    {request : Request K V} (valid : request.Within laws.Valid) :
    Ends (fun result => ∃ next : Levels K H V,
        Dictionary.Answers levels.bindings result.1 next.bindings request ∧
        result.2.Keeps laws next)
      (tree.Declines laws request) (tree.serve ops memory request) := by
  have formed := keeps.represents.wellFormed
  cases request with
  | call operation =>
    have ends := keeps.call_ends memory valid
    rw [serve]
    cases called : tree.call ops memory operation with
    | error fault =>
      rw [called] at ends
      exact ⟨levels, keeps.represents, ends⟩
    | ok result =>
      obtain ⟨next, calls⟩ := ends.of_ok called
      exact ⟨next, ⟨congrArg Option.toList calls.answer_eq, calls.bindings_eq⟩, calls.keeps⟩
  | scan raw key num =>
    obtain ⟨tree', result, kept⟩ := keeps.scan_eq raw valid num
    rw [serve, result]
    exact ⟨levels, ⟨rfl, _, formed.lists (key ≤ ·), rfl⟩, kept⟩
  | scanAll raw num =>
    obtain ⟨it, first, begun, kept, stands⟩ := keeps.begin_eq raw
    obtain ⟨tree', result, keptLast⟩ := kept.scanOver_eq raw stands num
    have all := formed.lists fun _ => True
    rw [List.filter_eq_self.mpr fun _ _ => decide_eq_true trivial] at all
    rw [serve, begun]
    simp only [ok_bind, result]
    exact ⟨levels, ⟨rfl, _, all, rfl⟩, keptLast⟩

theorem session_ends (laws : ops.Laws size) (memory : Memory leafSize K H V Inner)
    {requests : List (Request K V)} (valid : ∀ request ∈ requests, request.Within laws.Valid) :
    Ends (fun result => ∃ last, result.2.Keeps laws last ∧
        Dictionary.Serves last.bindings (fun _ => none) requests result.1)
      (SessionStops laws memory requests)
      ((Tree.empty ops memory).session ops memory requests) := by
  have ends : Ends _ (SessionStops laws memory requests) _ := Ends.runAll
    (fun tree dictionary => ∃ levels, tree.Keeps laws levels ∧ levels.bindings = dictionary)
    (fun dictionary request answer next => Dictionary.Answers dictionary answer next request)
    ?_ ⟨.empty, keeps_empty laws memory, rfl⟩ valid
  · refine ends.mono ?_
    rintro ⟨answers, tree⟩ ⟨_, ⟨last, kept, rfl⟩, traces⟩
    exact ⟨last, kept, traces⟩
  · rintro tree _ request ⟨levels, keeps, rfl⟩ valid
    refine (keeps.serve_ends memory valid).mono ?_
    rintro ⟨answer, next⟩ ⟨nextLevels, answered, kept⟩
    exact ⟨nextLevels.bindings, answered, nextLevels, kept, rfl⟩

variable {memory : Memory leafSize K H V Inner} {operations : List (Operation K V)}
  {outcome : Outcome K V (Tree leafSize K H V Mid Inner)}

theorem session_of_run (ran : tree.run ops memory operations = .ok outcome) :
    tree.session ops memory (operations.map .call) =
      .ok (outcome.1.map Option.toList, outcome.2) := by
  induction operations generalizing tree outcome with
  | nil =>
    cases ran
    rfl
  | cons operation rest ih =>
    obtain ⟨⟨answer, next⟩, called, there⟩ := bind_eq_ok.mp ran
    obtain ⟨⟨answers, last⟩, reached, same⟩ := bind_eq_ok.mp there
    cases same
    have served : tree.serve ops memory (.call operation) = .ok (answer.toList, next) := by
      rw [serve, called]
      rfl
    rw [List.map_cons, session, runAll_cons served, ← session, ih reached]
    rfl

/-- A run of calls and a scan of the tree that they leave. -/
theorem exists_session (laws : ops.Laws size)
    (valid : ∀ operation ∈ operations, laws.Valid operation.key)
    (ran : (Tree.empty ops memory).run ops memory operations = .ok outcome)
    (raw : Ptr → Nat → Byte) (key : K) (validKey : laws.Valid key) (num : Nat) :
    ∃ answers last, (Tree.empty ops memory).session ops memory
        (operations.map .call ++ [.scan raw key num]) = .ok (answers, last) := by
  obtain ⟨levels, keeps, _⟩ := (run_ends laws memory valid).of_ok ran
  obtain ⟨last, scanned, _⟩ := keeps.scan_eq raw validKey num
  have served : outcome.2.serve ops memory (.scan raw key num) = .ok (_, last) := scanned
  have session := runAll_append (session_of_run ran) [.scan raw key num]
  rw [runAll_cons served] at session
  exact ⟨_, last, session⟩

end Tree

/-! ## The integer tree -/

/-- Calls and scans in any order: as long as a session goes on, every scan passes exactly
the bound keys from where it starts, in their order. -/
theorem integerTree_session_serves {type : KeyType} (hash : Key type → Byte)
    (memory : Memory kLeafSize (Key type) (Key type) V (InnerNode kInnerSize type))
    (requests : List (Request (Key type) V)) :
    Ends (fun result => ∃ last, Dictionary.Serves last (fun _ => none) requests result.1 ∧
        ∀ key, result.2.lookup (integerOps kInnerSize type hash) key = .ok (last key))
      (Tree.SessionStops (integerLaws kInnerSize type hash) memory requests)
      ((Tree.empty (integerOps kInnerSize type hash) memory).session
        (integerOps kInnerSize type hash) memory requests) := by
  have valid : ∀ request ∈ requests,
      request.Within (integerLaws kInnerSize type hash).Valid := by
    intro request _
    cases request with
    | call operation => exact trivial
    | scan raw key num => exact trivial
    | scanAll raw num => exact trivial
  refine (Tree.session_ends (integerLaws kInnerSize type hash) memory valid).mono ?_
  rintro ⟨answers, tree⟩ ⟨last, kept, served⟩
  exact ⟨last.bindings, served, fun key => kept.represents.lookup_bindings trivial⟩

theorem integerTree_session_serves_starvingCalls :
    let ops := integerOps kInnerSize .uint64 fun _ => 0
    let requests := starvingCalls.map .call ++ [.scan (fun _ _ => 0) (numberKey 1000) 9]
    ∃ answers tree last, (Tree.empty ops zeroMemory).session ops zeroMemory requests =
        .ok (answers, tree) ∧ Dictionary.Serves last (fun _ => none) requests answers ∧
      ∀ key, tree.lookup ops key = .ok (last key) := by
  intro ops requests
  obtain ⟨_, _, _, ran, _⟩ := exists_run_starvingCalls
  obtain ⟨answers, tree, served⟩ := Tree.exists_session (integerLaws kInnerSize .uint64 fun _ => 0)
    (fun _ _ => trivial) ran (fun _ _ => 0) (numberKey 1000) trivial 9
  obtain ⟨last, serves⟩ := (integerTree_session_serves (fun _ => 0) zeroMemory requests).of_ok
    served
  exact ⟨answers, tree, last, served, serves⟩

/-- In every well formed tree, whichever of its leaves are sorted, `lower_bound` and `advance`
until `end()` pass the bound keys from `key` on, and no step changes what is bound. -/
theorem integerTree_scan_complete {type : KeyType} {hash : Key type → Byte}
    {tree : Tree kLeafSize (Key type) (Key type) V (Encoded type) (InnerNode kInnerSize type)}
    {levels : Levels (Key type) (Key type) V}
    (keeps : tree.Keeps (integerLaws kInnerSize type hash) levels) (key : Key type)
    (raw : Ptr → Nat → Byte) :
    ∃ pairs, Ascending KVPair.key pairs ∧
      (∀ kv, kv ∈ pairs ↔ key ≤ kv.key ∧
        tree.lookup (integerOps kInnerSize type hash) kv.key = .ok (some kv)) ∧
      ∀ num, ∃ last, tree.scan (integerOps kInnerSize type hash) raw key num =
          .ok (pairs.take num, last) ∧
        last.Keeps (integerLaws kInnerSize type hash) levels := by
  have represents := keeps.represents
  obtain ⟨rising, listed⟩ := represents.wellFormed.lists (key ≤ ·)
  refine ⟨_, rising, fun kv => ?_, fun num => keeps.scan_eq raw trivial num⟩
  rw [listed, represents.lookup_bindings trivial, Except.ok.injEq, and_comm]

/-- Key 1057 was removed, and so were the thousand keys behind it. -/
theorem integerTree_scan_complete_starvingCalls :
    let ops := integerOps kInnerSize .uint64 fun _ => 0
    ∃ answers tree pairs last, (Tree.empty ops zeroMemory).run ops zeroMemory starvingCalls =
        .ok (answers, tree) ∧ Ascending KVPair.key pairs ∧
      (∀ kv, kv ∈ pairs ↔ numberKey 1057 ≤ kv.key ∧ tree.lookup ops kv.key = .ok (some kv)) ∧
      tree.scan ops (fun _ _ => 0) (numberKey 1057) (pairs.length + 1) = .ok (pairs, last) := by
  intro ops
  obtain ⟨answers, tree, _, ran, keeps, _⟩ := exists_run_starvingCalls
  obtain ⟨pairs, rising, listed, scans⟩ :=
    integerTree_scan_complete keeps (numberKey 1057) fun _ _ => 0
  obtain ⟨last, scanned, _⟩ := scans (pairs.length + 1)
  rw [List.take_of_length_le (Nat.le_succ _)] at scanned
  exact ⟨answers, tree, pairs, last, ran, rising, listed, scanned⟩

end IndexResearch.FBTree
