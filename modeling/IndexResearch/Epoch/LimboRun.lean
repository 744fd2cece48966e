import IndexResearch.Epoch.LimboList
import IndexResearch.Transition

/-!
# Runs of a limbo list

The memory blocks that one thread retires: `add`, `free`, the assignments to
`local_epoch` and `free_token`, and the destructor.  The lists of added and freed blocks
and the greatest epoch given to `free` are history.
-/

namespace IndexResearch.Epoch

open List

universe u

variable {Pointer : Type u}

namespace LimboBag

def rest (bag : LimboBag Pointer) : List Pointer := bag.pointers.drop bag.freed

def stamped (bag : LimboBag Pointer) : List (Pointer × Nat) := bag.rest.map (·, bag.epoch)

end LimboBag

namespace BagQueue

variable (queue : BagQueue Pointer)

def destroy : List Pointer := queue.retired.flatMap LimboBag.rest

def stamped (queue : BagQueue Pointer) : List (Pointer × Nat) :=
  queue.retired.flatMap LimboBag.stamped

theorem map_stamped : queue.stamped.map Prod.fst = queue.destroy := by
  simp [stamped, destroy, LimboBag.stamped, map_flatMap, Function.comp_def]

def addresses : List Nat :=
  (queue.retired ++ queue.empty).map LimboBag.address

theorem add_cases (localEpoch : Nat) (entry : Pointer) :
    (∃ front tail, queue.retired = front ++ [tail] ∧ tail.pointers.length ≠ kBagSize ∧
      queue.add localEpoch entry = { queue with
        retired := front ++ [{ tail with
          pointers := tail.pointers ++ [entry]
          epoch := localEpoch }] }) ∨
    queue.add localEpoch entry = { queue.openBag.2 with
      retired := queue.retired ++ [{ queue.openBag.1 with
        pointers := [entry]
        epoch := localEpoch }] } := by
  rcases eq_nil_or_concat queue.retired with none | ⟨front, tail, split⟩
  · right
    rw [add, none]
    rfl
  · rw [concat_eq_append] at split
    rw [add, split, getLast?_concat, dropLast_concat]
    by_cases full : tail.pointers.length = kBagSize
    · right
      simp only [if_pos full]
    · left
      exact ⟨front, tail, rfl, full, if_neg full⟩

theorem free_cases (token : Bool) (gepoch nfree : Nat) :
    queue.free token gepoch nfree = ⟨[], queue, false⟩ ∨
    ∃ bag next others, queue.retired = bag :: next :: others ∧
      2 * kEpochIncrement < subtract64 gepoch bag.epoch ∧
      ((bag.rest.length ≤ nfree ∧ queue.free token gepoch nfree = ⟨bag.rest, { queue with
          retired := next :: others
          empty := { bag with freed := bag.freed + bag.rest.length } :: queue.empty }, true⟩) ∨
        (nfree < bag.rest.length ∧ queue.free token gepoch nfree = ⟨bag.rest.take nfree,
          { queue with
            retired := { bag with freed := bag.freed + nfree } :: next :: others }, true⟩)) := by
  rw [free]
  split
  · rename_i bag next others shape
    split
    · split
      · rename_i old
        right
        refine ⟨bag, next, others, shape, old, ?_⟩
        have length : bag.rest.length = bag.pointers.length - bag.freed := length_drop
        dsimp only
        rw [← LimboBag.rest]
        by_cases few : bag.rest.length ≤ nfree
        · rw [take_of_length_le few, if_pos (by omega)]
          exact .inl ⟨few, rfl⟩
        · have many : nfree < bag.rest.length := not_le.mp few
          rw [length_take_of_le (Nat.le_of_lt many), if_neg (by omega)]
          exact .inr ⟨many, rfl⟩
      · exact .inl rfl
    · exact .inl rfl
  · exact .inl rfl

structure WellFormed (queue : BagQueue Pointer) : Prop where
  freed_le : ∀ bag ∈ queue.retired, bag.freed ≤ bag.pointers.length
  addresses_perm : queue.addresses.Perm (List.range queue.allocated)

theorem wellFormed_initial : (initial : BagQueue Pointer).WellFormed :=
  ⟨nofun, .refl _⟩

theorem openBag_spec :
    queue.openBag.1.freed = 0 ∧ queue.openBag.2.retired = queue.retired ∧
      (queue.addresses.Perm (List.range queue.allocated) →
        (queue.openBag.1.address :: queue.openBag.2.addresses).Perm
          (List.range queue.openBag.2.allocated)) := by
  rw [openBag]
  cases bags : queue.empty with
  | nil =>
    refine ⟨rfl, rfl, ?_⟩
    intro listed
    simp only [addresses, bags] at listed ⊢
    rw [range_succ]
    exact (listed.cons _).trans (perm_append_singleton _ _).symm
  | cons bag others =>
    refine ⟨rfl, rfl, ?_⟩
    intro listed
    refine List.Perm.trans ?_ listed
    simp only [addresses, bags, map_append, map_cons]
    exact perm_middle.symm

theorem WellFormed.add {queue : BagQueue Pointer} (formed : queue.WellFormed)
    (localEpoch : Nat) (entry : Pointer) : (queue.add localEpoch entry).WellFormed := by
  obtain ⟨freedLe, listed⟩ := formed
  rcases queue.add_cases localEpoch entry with ⟨front, tail, shape, _, result⟩ | result
  · rw [result]
    refine ⟨?_, ?_⟩
    · intro bag member
      rcases mem_append.mp member with old | new
      · exact freedLe bag (by rw [shape]; exact mem_append_left _ old)
      · obtain rfl := mem_singleton.mp new
        have bounded := freedLe tail (by simp [shape])
        simp only [length_append, length_singleton]
        omega
    · simpa [addresses, shape] using listed
  · obtain ⟨fresh, same, moves⟩ := queue.openBag_spec
    rw [result]
    refine ⟨?_, ?_⟩
    · intro bag member
      rcases mem_append.mp member with old | new
      · exact freedLe bag old
      · obtain rfl := mem_singleton.mp new
        simp [fresh]
    · refine List.Perm.trans ?_ (moves listed)
      simp only [addresses, same, map_append, append_assoc, map_singleton]
      exact perm_middle

theorem WellFormed.free {queue : BagQueue Pointer} (formed : queue.WellFormed)
    (token : Bool) (gepoch nfree : Nat) : (queue.free token gepoch nfree).queue.WellFormed := by
  obtain ⟨freedLe, listed⟩ := formed
  rcases queue.free_cases token gepoch nfree with
    result | ⟨bag, next, others, shape, _, ⟨_, result⟩ | ⟨many, result⟩⟩
  · rw [result]
    exact ⟨freedLe, listed⟩
  · rw [result]
    refine ⟨fun bag member => freedLe bag (by rw [shape]; exact mem_cons_of_mem _ member), ?_⟩
    refine List.Perm.trans ?_ listed
    simp only [addresses, shape, map_append, map_cons, cons_append]
    exact @perm_middle _ _ (next.address :: others.map LimboBag.address) _
  · rw [result]
    refine ⟨?_, by simpa [addresses, shape] using listed⟩
    intro bag' member
    rcases mem_cons.mp member with rfl | old
    · simp only [LimboBag.rest, length_drop] at many ⊢
      omega
    · exact freedLe bag' (by rw [shape]; exact mem_cons_of_mem _ old)

theorem stamped_add {queue : BagQueue Pointer} (formed : queue.WellFormed) (localEpoch : Nat)
    (entry : Pointer) : ∃ front tail, queue.stamped = front ++ tail ∧
      (queue.add localEpoch entry).stamped =
        front ++ tail.map (fun item => (item.1, localEpoch)) ++ [(entry, localEpoch)] := by
  rcases queue.add_cases localEpoch entry with ⟨front, tail, shape, _, result⟩ | result
  · have bounded := formed.freed_le tail (by simp [shape])
    refine ⟨front.flatMap LimboBag.stamped, tail.stamped, by simp [stamped, shape], ?_⟩
    simp [result, stamped, LimboBag.stamped, LimboBag.rest, drop_append_of_le_length bounded,
      Function.comp_def]
  · obtain ⟨fresh, _⟩ := queue.openBag_spec
    refine ⟨queue.stamped, [], by simp, ?_⟩
    simp [result, stamped, LimboBag.stamped, LimboBag.rest, fresh]

theorem stamped_free (token : Bool) (gepoch nfree : Nat) :
    (queue.free token gepoch nfree).entries = [] ∧
      (queue.free token gepoch nfree).queue.stamped = queue.stamped ∨
    ∃ bag ∈ queue.retired.head?, 2 * kEpochIncrement < subtract64 gepoch bag.epoch ∧
      queue.stamped = (queue.free token gepoch nfree).entries.map (·, bag.epoch) ++
        (queue.free token gepoch nfree).queue.stamped := by
  rcases queue.free_cases token gepoch nfree with
    result | ⟨bag, next, others, shape, old, ⟨_, result⟩ | ⟨_, result⟩⟩
  · left
    rw [result]
    exact ⟨rfl, rfl⟩
  · right
    refine ⟨bag, by simp [shape], old, ?_⟩
    simp [result, stamped, shape, LimboBag.stamped]
  · right
    refine ⟨bag, by simp [shape], old, ?_⟩
    have parts : bag.stamped = (bag.rest.take nfree).map (·, bag.epoch) ++
        LimboBag.stamped { bag with freed := bag.freed + nfree } := by
      simp only [LimboBag.stamped, LimboBag.rest]
      rw [← map_append, ← drop_drop, take_append_drop]
    simp [result, stamped, shape, parts]

end BagQueue

/-! ## Runs -/

/-- A pointer given to the allocator, with the epoch of its bag and the argument of `free`. -/
structure Freed (Pointer : Type u) where
  pointer : Pointer
  epoch : Nat
  gepoch : Nat

/-- A `LimboList` with its history. -/
structure LimboRun (Pointer : Type u) where
  queue : BagQueue Pointer
  freeToken : Bool
  localEpoch : Nat
  /-- The pointers added so far, with `local_epoch` at the call. -/
  added : List (Pointer × Nat)
  freed : List (Freed Pointer)
  /-- The last argument of `free`. -/
  gepoch : Nat

namespace LimboRun

inductive Action (Pointer : Type u) where
  | add (pointer : Pointer)
  | free (gepoch nfree : Nat)
  | setFreeToken (token : Bool)
  | setLocalEpoch (epoch : Nat)

def initial : LimboRun Pointer := ⟨.initial, false, withQuiescent 0, [], [], 0⟩

def add (list : LimboRun Pointer) (pointer : Pointer) : LimboRun Pointer :=
  { list with
    queue := list.queue.add list.localEpoch pointer
    added := list.added ++ [(pointer, list.localEpoch)] }

def free (list : LimboRun Pointer) (gepoch nfree : Nat) : LimboRun Pointer :=
  let result := list.queue.free list.freeToken gepoch nfree
  let epoch := (list.queue.retired.head?.map LimboBag.epoch).getD 0
  { list with
    queue := result.queue
    freeToken := result.token
    freed := list.freed ++ result.entries.map (⟨·, epoch, gepoch⟩)
    gepoch := gepoch }

def step (list : LimboRun Pointer) : Action Pointer → LimboRun Pointer
  | .add pointer => list.add pointer
  | .free gepoch nfree => list.free gepoch nfree
  | .setFreeToken token => { list with freeToken := token }
  | .setLocalEpoch epoch => { list with localEpoch := epoch }

def machine : Machine (LimboRun Pointer) (Action Pointer) where
  initial list := list = initial
  next list action := some (list.step action)

/-- The epochs are 64-bit words, and those given to `free` do not decrease and are not
less than any epoch with which a bag was stamped. -/
def allowed (list : LimboRun Pointer) : Action Pointer → Prop
  | .free gepoch nfree => gepoch < 2 ^ 64 ∧ list.gepoch ≤ gepoch ∧
      (∀ item ∈ list.added, item.2 ≤ gepoch) ∧ 0 < nfree ∧ nfree ≤ kBagSize
  | .setLocalEpoch epoch => epoch < 2 ^ 64
  | _ => True

structure Invariant (list : LimboRun Pointer) : Prop where
  wellFormed : list.queue.WellFormed
  pointers_eq : list.freed.map Freed.pointer ++ list.queue.destroy = list.added.map Prod.fst
  /-- The epoch of a bag is one with which it was stamped. -/
  epoch_mem : ∀ bag ∈ list.queue.retired, ∃ item ∈ list.added, item.2 = bag.epoch
  old : ∀ item ∈ list.freed, item.epoch + 2 * kEpochIncrement < item.gepoch
  /-- When `local_epoch` never decreases, the epoch of a bag is not less than that of an entry. -/
  bounded : (list.added.map Prod.snd).Pairwise (· ≤ ·) →
    List.Forall₂ (fun own item => own.1 = item.1 ∧ own.2 ≤ item.2) list.added
      (list.freed.map (fun item => (item.pointer, item.epoch)) ++ list.queue.stamped)

namespace Invariant

variable {list : LimboRun Pointer}

theorem initially : Invariant (initial : LimboRun Pointer) where
  wellFormed := BagQueue.wellFormed_initial
  pointers_eq := rfl
  epoch_mem := nofun
  old := nofun
  bounded _ := .nil

section

variable (invariant : Invariant list)
include invariant

theorem add (pointer : Pointer) : Invariant (list.add pointer) := by
  obtain ⟨formed, pointersEq, epochMem, old, bounded⟩ := invariant
  obtain ⟨front, tail, parts, result⟩ := list.queue.stamped_add formed list.localEpoch pointer
  refine ⟨formed.add _ _, ?_, ?_, old, ?_⟩
  · simp only [LimboRun.add]
    rw [map_append, ← pointersEq, ← BagQueue.map_stamped, ← BagQueue.map_stamped, result,
      parts]
    simp
  · intro bag member
    simp only [LimboRun.add] at member ⊢
    rcases BagQueue.mem_retired_add member with kept | ⟨stamp, _⟩
    · obtain ⟨item, listed, same⟩ := epochMem bag kept
      exact ⟨item, mem_append_left _ listed, same⟩
    · exact ⟨(pointer, list.localEpoch), by simp, stamp.symm⟩
  · intro monotone
    simp only [LimboRun.add, map_append, map_singleton] at monotone ⊢
    obtain ⟨before, _, below⟩ := pairwise_append.mp monotone
    have below : ∀ item ∈ list.added, item.2 ≤ list.localEpoch :=
      fun item listed => below item.2 (mem_map_of_mem listed) _ (mem_singleton_self _)
    have kept := bounded before
    rw [parts, ← append_assoc] at kept
    have first := forall₂_take_append _ _ _ kept
    have second := forall₂_drop_append _ _ _ kept
    generalize (list.freed.map (fun item => (item.pointer, item.epoch)) ++ front).length = count
      at first second
    have restamped : List.Forall₂ (fun own item => own.1 = item.1 ∧ own.2 ≤ item.2)
      (list.added.drop count) (tail.map fun item => (item.1, list.localEpoch)) := by
      rw [forall₂_map_right_iff]
      have known := (forall₂_and_left _ _).mpr
        ⟨fun own member => below own (mem_of_mem_drop member), second⟩
      exact known.imp fun own item both => ⟨both.2.1, both.1⟩
    have last : List.Forall₂ (fun own item => own.1 = item.1 ∧ own.2 ≤ item.2)
        [(pointer, list.localEpoch)] [(pointer, list.localEpoch)] :=
      .cons ⟨rfl, Nat.le_refl _⟩ .nil
    have whole := rel_append first (rel_append restamped last)
    rw [result]
    simpa only [← append_assoc, take_append_drop] using whole

theorem epoch_le {gepoch nfree : Nat}
    (permitted : allowed list (.free gepoch nfree)) {bag : LimboBag Pointer}
    (member : bag ∈ list.queue.retired) :
    bag.epoch ≤ gepoch ∧ subtract64 gepoch bag.epoch = gepoch - bag.epoch := by
  obtain ⟨word, _, above, _⟩ := permitted
  obtain ⟨item, listed, same⟩ := invariant.epoch_mem bag member
  have ordered : bag.epoch ≤ gepoch := same ▸ above item listed
  refine ⟨ordered, ?_⟩
  rw [subtract64_of_le ordered]
  exact Nat.mod_eq_of_lt (Nat.lt_of_le_of_lt (Nat.sub_le _ _) word)

theorem free {gepoch nfree : Nat}
    (permitted : allowed list (.free gepoch nfree)) : Invariant (list.free gepoch nfree) := by
  have ordered : ∀ bag ∈ list.queue.retired, bag.epoch ≤ gepoch ∧
      subtract64 gepoch bag.epoch = gepoch - bag.epoch := fun _ => invariant.epoch_le permitted
  obtain ⟨formed, pointersEq, epochMem, old, bounded⟩ := invariant
  have wellFormed' := formed.free list.freeToken gepoch nfree
  have epochMem' : ∀ bag ∈ (list.queue.free list.freeToken gepoch nfree).queue.retired,
      ∃ item ∈ list.added, item.2 = bag.epoch := by
    intro bag member
    obtain ⟨kept, listed, epoch, _⟩ := BagQueue.mem_retired_free member
    rw [epoch]
    exact epochMem kept listed
  rcases list.queue.stamped_free list.freeToken gepoch nfree with
    ⟨none, same⟩ | ⟨bag, head, far, parts⟩
  · have destroyed := congrArg (List.map Prod.fst) same
    rw [BagQueue.map_stamped, BagQueue.map_stamped] at destroyed
    refine ⟨wellFormed', ?_, epochMem', ?_, ?_⟩
    · simpa [LimboRun.free, none, destroyed] using pointersEq
    · simpa [LimboRun.free, none] using old
    · simpa [LimboRun.free, none, same] using bounded
  · have member := mem_of_mem_head? head
    obtain ⟨below, difference⟩ := ordered bag member
    have epoch : (list.queue.retired.head?.map LimboBag.epoch).getD 0 = bag.epoch := by
      rw [Option.mem_def.mp head]
      rfl
    have destroyed := congrArg (List.map Prod.fst) parts
    rw [map_append, BagQueue.map_stamped, BagQueue.map_stamped] at destroyed
    refine ⟨wellFormed', ?_, epochMem', ?_, ?_⟩
    · simpa [LimboRun.free, destroyed, Function.comp_def] using pointersEq
    · intro item listed
      simp only [LimboRun.free, epoch] at listed
      rcases mem_append.mp listed with kept | new
      · exact old item kept
      · obtain ⟨pointer, _, rfl⟩ := mem_map.mp new
        simp only
        omega
    · intro monotone
      have kept := bounded monotone
      simpa [LimboRun.free, epoch, parts, Function.comp_def] using kept

theorem step {action : Action Pointer}
    (permitted : allowed list action) : Invariant (list.step action) := by
  cases action with
  | add pointer => exact invariant.add pointer
  | free gepoch nfree => exact invariant.free permitted
  | setFreeToken token | setLocalEpoch epoch => exact { invariant with }

end

end Invariant

/-- Every pointer is freed once and in the order of addition, no subtraction of epochs
wraps, an entry is freed long after its epoch, and a bag is in one of the two lists. -/
theorem reachable_freed {list : LimboRun Pointer} (reached : machine.Reachable allowed list) :
    list.freed.map Freed.pointer ++ list.queue.destroy = list.added.map Prod.fst ∧
    (∀ gepoch nfree, allowed list (.free gepoch nfree) → ∀ bag ∈ list.queue.retired,
      bag.epoch ≤ gepoch ∧ subtract64 gepoch bag.epoch = gepoch - bag.epoch) ∧
    (∀ item ∈ list.freed, item.epoch + 2 * kEpochIncrement < item.gepoch) ∧
    ((list.added.map Prod.snd).Pairwise (· ≤ ·) →
      List.Forall₂ (fun item own => own.1 = item.pointer ∧
        own.2 + 2 * kEpochIncrement < item.gepoch) list.freed (list.added.take list.freed.length)) ∧
    list.queue.addresses.Perm (List.range list.queue.allocated) := by
  have invariant : Invariant list := by
    apply reached.invariant
    · rintro _ rfl
      exact Invariant.initially
    · rintro list action _ holds permitted ⟨⟩
      exact holds.step permitted
  refine ⟨invariant.pointers_eq, fun _ _ permitted bag member =>
    invariant.epoch_le permitted member, invariant.old, ?_, invariant.wellFormed.addresses_perm⟩
  intro monotone
  have kept := forall₂_take_append _ _ _ (invariant.bounded monotone)
  rw [length_map, forall₂_map_right_iff] at kept
  have known := (forall₂_and_left _ _).mpr ⟨invariant.old, kept.flip⟩
  refine known.imp ?_
  rintro item own ⟨far, same, ordered⟩
  exact ⟨same, Nat.lt_of_le_of_lt (Nat.add_le_add_right ordered _) far⟩

/-- A test of `allowed`. -/
def permits (list : LimboRun Pointer) : Action Pointer → Bool
  | .free gepoch nfree => gepoch < 2 ^ 64 ∧ list.gepoch ≤ gepoch ∧
      (∀ item ∈ list.added, item.2 ≤ gepoch) ∧ 0 < nfree ∧ nfree ≤ kBagSize
  | .setLocalEpoch epoch => epoch < 2 ^ 64
  | _ => true

theorem permits_sound (list : LimboRun Pointer) (action : Action Pointer)
    (permitted : permits list action = true) : allowed list action := by
  cases action with
  | free gepoch nfree | setLocalEpoch epoch => simpa [permits, allowed] using permitted
  | _ => trivial

theorem reachable_of_permits {actions : List (Action Pointer)} {list : LimboRun Pointer}
    (executed : machine.execChecked permits initial actions = some list) :
    machine.Reachable allowed list :=
  Machine.Reachable.execChecked permits_sound (.start rfl) executed

def oneFreed : List (Action Nat) :=
  .setLocalEpoch 2 :: (List.range 14).map .add ++ [.setFreeToken true, .free 8 1]

theorem reachable_freed_oneFreed : ∃ list : LimboRun Nat, machine.Reachable allowed list ∧
    list.freed.map Freed.pointer = [0] ∧ list.queue.destroy = (List.range 14).tail ∧
    list.queue.addresses.Perm (List.range 2) := by
  have run : (machine.execChecked permits initial oneFreed).map (fun list =>
      (list.freed.map Freed.pointer, list.added.map Prod.fst, list.queue.allocated)) =
      some ([0], List.range 14, 2) := by
    decide +kernel
  obtain ⟨list, executed, outcome⟩ := Option.map_eq_some_iff.mp run
  simp only [Prod.mk.injEq] at outcome
  obtain ⟨freed, added, allocated⟩ := outcome
  have reached := reachable_of_permits executed
  obtain ⟨pointersEq, _, _, _, addresses⟩ := reachable_freed reached
  rw [freed, added] at pointersEq
  rw [allocated] at addresses
  exact ⟨list, reached, freed, congrArg List.tail pointersEq, addresses⟩

def loweredEpoch : List (Action Nat) :=
  .setLocalEpoch 10 :: (List.range 12).map .add ++
    [.setLocalEpoch 2, .add 12, .add 13, .setFreeToken true, .free 10 1]

theorem not_freedLate_loweredEpoch : ∃ list : LimboRun Nat, machine.Reachable allowed list ∧
    ¬List.Forall₂ (fun item own =>
      own.1 = item.pointer ∧ own.2 + 2 * kEpochIncrement < item.gepoch)
      list.freed (list.added.take list.freed.length) := by
  have run : (machine.execChecked permits initial loweredEpoch).map (fun list =>
      (list.freed.map (fun item => (item.pointer, item.epoch, item.gepoch)), list.added.head?)) =
      some ([(0, 2, 10)], some (0, 10)) := by
    decide +kernel
  obtain ⟨list, executed, outcome⟩ := Option.map_eq_some_iff.mp run
  simp only [Prod.mk.injEq] at outcome
  obtain ⟨freed, added⟩ := outcome
  refine ⟨list, reachable_of_permits executed, ?_⟩
  obtain ⟨item, onlyFreed, itemEq⟩ := map_eq_singleton_iff.mp freed
  obtain ⟨others, addedEq⟩ := head?_eq_some_iff.mp added
  rw [onlyFreed, addedEq]
  simp only [Prod.mk.injEq] at itemEq
  simp [itemEq, kEpochIncrement]

end LimboRun

end IndexResearch.Epoch
