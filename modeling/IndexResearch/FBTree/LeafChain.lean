import IndexResearch.FBTree.LeafNode.Vacated
import IndexResearch.FBTree.Levels.Leaves
import IndexResearch.Transition

/-!
# Runs on a chain of leaves

The leaves of a tree without the nodes above them: every call goes to the leaf that the high
keys assign to its key, a split puts the new leaf behind the old one and a merge takes a
leaf out.  The slots that have ever been marked are history.
-/

namespace IndexResearch.FBTree

open List

variable {size : NodeSize} {K H V : Type}

structure ChainCell (size : NodeSize) (K H V : Type) where
  address : Ptr
  leaf : LeafNode size K H V
  /-- The slots that have been in use. -/
  used : Nat → Bool

namespace ChainCell

def high (cell : ChainCell size K H V) : Option H :=
  if cell.leaf.control.sibling then some cell.leaf.highKey else none

def become (cell : ChainCell size K H V) (leaf : LeafNode size K H V) : ChainCell size K H V :=
  ⟨cell.address, leaf, fun slot => cell.used slot || leaf.bitmap.getLsbD slot⟩

def fresh (address : Ptr) (leaf : LeafNode size K H V) : ChainCell size K H V :=
  ⟨address, leaf, fun slot => leaf.bitmap.getLsbD slot⟩

end ChainCell

structure LeafChain (size : NodeSize) (K H V : Type) where
  cells : List (ChainCell size K H V)
  /-- The next address that is handed out. -/
  fresh : Ptr

namespace LeafChain

/-- A call; `raw` is what the memory holds that the call obtains. -/
inductive Operation (size : NodeSize) (K H V : Type) where
  | upsert (kv : KVPair K V) (raw : LeafNode size K H V)
  | update (kv : KVPair K V)
  | remove (key : K)
  | kvSort (pos : Nat) (raw : Nat → Byte)

variable [LinearOrder K] (ops : KeyOps K H)

variable (chain : LeafChain size K H V)

def leafOf (key : K) :
    Option (List (ChainCell size K H V) × ChainCell size K H V × List (ChainCell size K H V)) :=
  focus (fun cell => stopsAt ops.highKey key cell.high) chain.cells

def upsert (chain : LeafChain size K H V) (kv : KVPair K V) (raw : LeafNode size K H V) :
    Except Fault (Option (KVPair K V) × LeafChain size K H V) :=
  match chain.leafOf ops kv.key with
  | none => .error .wildPointer
  | some (before, cell, after) =>
    (cell.leaf.upsert ops raw chain.fresh (chain.fresh + 1) kv).map fun upserted =>
      (upserted.old, ⟨before ++ cell.become upserted.leaf ::
        ((upserted.rnode.map (ChainCell.fresh chain.fresh)).toList ++ after), chain.fresh + 2⟩)

def update (chain : LeafChain size K H V) (kv : KVPair K V) :
    Except Fault (Option (KVPair K V) × LeafChain size K H V) :=
  match chain.leafOf ops kv.key with
  | none => .error .wildPointer
  | some (before, cell, after) =>
    .ok ((cell.leaf.update ops kv).1,
      { chain with cells := before ++ cell.become (cell.leaf.update ops kv).2 :: after })

def rightOf (after : List (ChainCell size K H V)) (detached : LeafNode.Detached size K H V) :
    List (ChainCell size K H V) :=
  match after with
  | [] => []
  | next :: rest => if detached.merged.isSome then rest else next.become detached.right :: rest

def remove (chain : LeafChain size K H V) (key : K) :
    Except Fault (Option (KVPair K V) × LeafChain size K H V) :=
  match chain.leafOf ops key with
  | none => .error .wildPointer
  | some (before, cell, after) =>
    let right := (after.head?.map ChainCell.leaf).getD cell.leaf
    (cell.leaf.remove ops right cell.address key).map fun detached =>
      (detached.kv, { chain with
        cells := before ++ cell.become detached.leaf :: rightOf after detached })

def sort (pos : Nat) (raw : Nat → Byte) :
    Except Fault (Option (KVPair K V) × LeafChain size K H V) :=
  match chain.cells.drop pos with
  | [] => .ok (none, chain)
  | cell :: after =>
    (cell.leaf.kvSort raw).map fun leaf =>
      (none, { chain with cells := chain.cells.take pos ++ cell.become leaf :: after })

def call :
    Operation size K H V → Except Fault (Option (KVPair K V) × LeafChain size K H V)
  | .upsert kv raw => chain.upsert ops kv raw
  | .update kv => chain.update ops kv
  | .remove key => chain.remove ops key
  | .kvSort pos raw => chain.sort pos raw

def machine : Machine (LeafChain size K H V) (Operation size K H V) where
  initial chain := ∃ raw, chain = ⟨[⟨1, LeafNode.new ops raw, fun _ => false⟩], 2⟩
  next chain operation := (chain.call ops operation).toOption.map Prod.snd

end LeafChain

/-! ## The invariant -/

variable [LinearOrder K] {ops : KeyOps K H}

structure ChainCell.Matches (ops : KeyOps K H) (cell : ChainCell size K H V)
    (leaf : LeafCell K H V) : Prop where
  address_eq : leaf.id = cell.address
  represents : cell.leaf.Represents ops leaf.view
  vacated : ∀ slot, cell.used slot = true → cell.leaf.bitmap.getLsbD slot = false →
    cell.leaf.kvs slot = none

namespace ChainCell.Matches

variable {cell : ChainCell size K H V} {leaf : LeafCell K H V} {node : LeafNode size K H V}
  {view : LeafView K H V}

theorem high_eq (same : Matches ops cell leaf) : cell.high = leaf.view.high :=
  same.represents.high.symm

theorem become (same : Matches ops cell leaf) (vacates : cell.leaf.Vacates node)
    (represents : node.Represents ops view) : Matches ops (cell.become node) ⟨leaf.id, view⟩ where
  address_eq := same.address_eq
  represents := represents
  vacated := by
    intro slot used unmarked
    simp only [ChainCell.become] at used unmarked ⊢
    rw [unmarked, Bool.or_false] at used
    rcases vacates slot unmarked with none | ⟨before, kept⟩
    · exact none
    · exact kept.trans (same.vacated slot used before)

theorem fresh (address : Ptr) (represents : node.Represents ops view) :
    Matches ops (.fresh address node) ⟨address, view⟩ where
  address_eq := rfl
  represents := represents
  vacated _ used unmarked := absurd (used.symm.trans unmarked) nofun

end ChainCell.Matches

namespace LeafChain

structure Invariant (ops : KeyOps K H) (chain : LeafChain size K H V) (leaves : Leaves K H V) :
    Prop where
  ordered : leaves.Chain ops.highKey size
  cells : List.Forall₂ (ChainCell.Matches ops) chain.cells leaves

variable (chain : LeafChain size K H V)

def pairs : Multiset (KVPair K V) :=
  ↑(chain.cells.flatMap fun cell => cell.leaf.contents)

def Exchanges {Item : Type} (old new : Option Item) (items items' : Multiset Item) : Prop :=
  ∃ rest, items = ↑old.toList + rest ∧ items' = ↑new.toList + rest

def Answers (key : K) (answer : Option (KVPair K V)) (pairs : Multiset (KVPair K V)) : Prop :=
  match answer with
  | none => ∀ other ∈ pairs, other.key ≠ key
  | some old => old.key = key

theorem Exchanges.frame {Item : Type} {old new : Option Item} {items items' : Multiset Item}
    (exchanges : Exchanges old new items items') (left right : Multiset Item) :
    Exchanges old new (left + (items + right)) (left + (items' + right)) := by
  obtain ⟨rest, rfl, rfl⟩ := exchanges
  refine ⟨left + (rest + right), ?_, ?_⟩
  · rw [add_assoc, add_left_comm]
  · rw [add_assoc, add_left_comm]

theorem contents_perm {cells : List (ChainCell size K H V)} {leaves : Leaves K H V}
    (related : List.Forall₂ (ChainCell.Matches ops) cells leaves) :
    (cells.flatMap fun cell => cell.leaf.contents).Perm leaves.pairs := by
  induction related with
  | nil => exact .refl _
  | cons here _ ih =>
    rw [flatMap_cons, Leaves.pairs_cons]
    exact here.represents.holds.keeps.perm.append ih

theorem fresh_matches (address : Ptr) {rnode : Option (LeafNode size K H V)}
    {right : Option (LeafView K H V)} (rights : Option.Rel (LeafNode.Represents ops) rnode right) :
    List.Forall₂ (ChainCell.Matches ops) (rnode.map (ChainCell.fresh address)).toList
      (right.map (LeafCell.mk address)).toList := by
  cases rights with
  | none => exact .nil
  | some represents => exact .cons (.fresh address represents) .nil

theorem exchanges_replace {entries : List (KVPair K V)} {old kv : KVPair K V}
    (rising : Ascending KVPair.key entries) (listed : old ∈ entries) (same : old.key = kv.key) :
    Exchanges (some old) (some kv) ↑entries ↑(replace KVPair.key entries kv) := by
  refine ⟨↑(eraseKey KVPair.key entries kv.key), ?_, ?_⟩
  · rw [← same]
    exact Multiset.coe_eq_coe.mpr (rising.perm_cons_eraseKey listed)
  · exact Multiset.coe_eq_coe.mpr (replace_perm rising listed same)

theorem exchanges_eraseKey {entries : List (KVPair K V)} {old : KVPair K V} {key : K}
    (rising : Ascending KVPair.key entries) (listed : old ∈ entries) (same : old.key = key) :
    Exchanges (some old) none ↑entries ↑(eraseKey KVPair.key entries key) := by
  subst same
  exact ⟨↑(eraseKey KVPair.key entries old.key),
    Multiset.coe_eq_coe.mpr (rising.perm_cons_eraseKey listed), (zero_add _).symm⟩

theorem Exchanges.refl {Item : Type} (items : Multiset Item) : Exchanges none none items items :=
  ⟨items, (zero_add items).symm, (zero_add items).symm⟩

namespace Invariant

variable {chain : LeafChain size K H V} {leaves : Leaves K H V}

theorem pairs_eq (invariant : Invariant ops chain leaves) : chain.pairs = ↑leaves.pairs :=
  Multiset.coe_eq_coe.mpr (contents_perm invariant.cells)

theorem exists_leafOf (invariant : Invariant ops chain leaves) (key : K) :
    ∃ (before after : List (ChainCell size K H V)) (cell : ChainCell size K H V)
      (before' after' : Leaves K H V) (leaf : LeafCell K H V),
      chain.leafOf ops key = some (before, cell, after) ∧ leaves = before' ++ leaf :: after' ∧
      LocatedLeaf ops.highKey key before' leaf after' ∧
      List.Forall₂ (ChainCell.Matches ops) before before' ∧ cell.Matches ops leaf ∧
      List.Forall₂ (ChainCell.Matches ops) after after' := by
  obtain ⟨before', leaf, after', found⟩ := invariant.ordered.exists_leafOf key
  obtain ⟨split, located⟩ := invariant.ordered.located found
  obtain ⟨before, cell, after, result, beforeMatches, same, afterMatches⟩ :=
    focus_forall₂ (fun cell leaf same => congrArg (stopsAt ops.highKey key) same.high_eq)
      invariant.cells found
  exact ⟨before, after, cell, before', after', leaf, result, split, located, beforeMatches, same,
    afterMatches⟩

theorem upsert (lawful : ∀ copy key, ops.highKey (ops.makeHigh copy key) = key)
    (invariant : Invariant ops chain leaves) (kv : KVPair K V) (raw : LeafNode size K H V) :
    ∃ answer chain' leaves', chain.upsert ops kv raw = .ok (answer, chain') ∧
      Invariant ops chain' leaves' ∧ Answers kv.key answer ↑leaves.pairs ∧
      Exchanges answer (some kv) ↑leaves.pairs ↑leaves'.pairs := by
  obtain ⟨before, after, cell, before', after', leaf, found, rfl, located, beforeMatches, same,
    afterMatches⟩ := invariant.exists_leafOf kv.key
  have ordered := invariant.ordered
  have sound := ordered.sound leaf (by simp)
  obtain ⟨upserted, result, oldEq, represents, rights⟩ := LeafNode.upsert_spec raw chain.fresh
    (chain.fresh + 1) same.represents sound.bounded kv
  have vacates := LeafNode.upsert_vacates same.represents.holds.toStored result
  obtain ⟨old, view, right, viewEq, ordered', entriesEq⟩ :=
    ordered.upserted lawful chain.fresh (chain.fresh + 1) located
  rw [viewEq] at oldEq represents rights
  obtain rfl : upserted.old = old := oldEq
  have rightMatches := fresh_matches chain.fresh rights
  rw [LeafChain.upsert, found]
  simp only [result]
  refine ⟨_, _, _, rfl, ⟨ordered', ?_⟩, ?_, ?_⟩
  · exact rel_append beforeMatches
      (.cons (same.become vacates represents) (rel_append rightMatches afterMatches))
  · cases answer : upserted.old with
    | none =>
      rw [answer] at entriesEq
      exact located.absent entriesEq.1
    | some previous =>
      rw [answer] at entriesEq
      exact entriesEq.2.1
  · have exchanges : Exchanges upserted.old (some kv) ↑leaf.view.entries
        ↑(view.entries ++ (right.map LeafView.entries).getD []) := by
      cases answer : upserted.old with
      | none =>
        rw [answer] at entriesEq
        rw [entriesEq.2]
        exact ⟨↑leaf.view.entries, rfl, Multiset.coe_eq_coe.mpr (place_perm _ _)⟩
      | some previous =>
        rw [answer] at entriesEq
        obtain ⟨listed, sameKey, rfl, entriesEq⟩ := entriesEq
        rw [entriesEq, Option.map_none, Option.getD_none, append_nil]
        exact exchanges_replace sound.ascending listed sameKey
    have framed := exchanges.frame ↑before'.pairs ↑after'.pairs
    cases right with
    | none | some rightView => simpa using framed

theorem update (invariant : Invariant ops chain leaves) (kv : KVPair K V) :
    ∃ answer chain' leaves', chain.update ops kv = .ok (answer, chain') ∧
      Invariant ops chain' leaves' ∧ Answers kv.key answer ↑leaves.pairs ∧
      Exchanges answer (answer.map fun _ => kv) ↑leaves.pairs ↑leaves'.pairs := by
  obtain ⟨before, after, cell, before', after', leaf, found, rfl, located, beforeMatches, same,
    afterMatches⟩ := invariant.exists_leafOf kv.key
  have ordered := invariant.ordered
  have sound := ordered.sound leaf (by simp)
  obtain ⟨answerEq, holds, control, highKey, sibling⟩ := same.represents.holds.update kv
  have represents : (cell.leaf.update ops kv).2.Represents ops
      { leaf.view with entries := replace KVPair.key leaf.view.entries kv } := by
    refine ⟨holds, ?_, ?_, ?_⟩
    · rw [control, sibling]
      exact same.represents.link
    · rw [control, highKey]
      exact same.represents.high
    · rw [control]
      exact same.represents.deleted
  rw [LeafChain.update, found]
  refine ⟨_, _, _, rfl, ⟨ordered.replaced located, ?_⟩, ?_, ?_⟩
  · exact rel_append beforeMatches
      (.cons (same.become (LeafNode.update_vacates _ _) represents) afterMatches)
  · rw [answerEq]
    cases bound : findKey KVPair.key leaf.view.entries kv.key with
    | none => exact located.absent (findKey_eq_none.mp bound)
    | some old => exact (sound.ascending.findKey_eq_some.mp bound).2
  · have exchanges : Exchanges (cell.leaf.update ops kv).1
      ((cell.leaf.update ops kv).1.map fun _ => kv)
        ↑leaf.view.entries ↑(replace KVPair.key leaf.view.entries kv) := by
      rw [answerEq]
      cases bound : findKey KVPair.key leaf.view.entries kv.key with
      | none =>
        rw [replace_of_absent (findKey_eq_none.mp bound)]
        exact .refl _
      | some old =>
        obtain ⟨listed, sameKey⟩ := sound.ascending.findKey_eq_some.mp bound
        exact exchanges_replace sound.ascending listed sameKey
    simpa using exchanges.frame ↑before'.pairs ↑after'.pairs

theorem kvSort (invariant : Invariant ops chain leaves) (pos : Nat) (raw : Nat → Byte) :
    ∃ chain', chain.sort pos raw = .ok (none, chain') ∧ Invariant ops chain' leaves := by
  rw [sort]
  cases rest : chain.cells.drop pos with
  | nil => exact ⟨chain, rfl, invariant⟩
  | cons cell after =>
    have front := forall₂_take pos invariant.cells
    have back := forall₂_drop pos invariant.cells
    have whole := take_append_drop pos leaves
    rw [rest] at back
    generalize leaves.drop pos = others at back whole
    cases back with
    | @cons _ leaf _ after' same afterMatches =>
      have sound := invariant.ordered.sound leaf (by rw [← whole]; simp)
      obtain ⟨sorted, result, represents⟩ := same.represents.kvSort sound.bounded raw
      simp only [result]
      refine ⟨_, rfl, invariant.ordered, ?_⟩
      rw [← whole]
      exact rel_append front (.cons (same.become
        (LeafNode.kvSort_vacates same.represents.holds.toStored result) represents) afterMatches)

theorem neighbour {before' after' : Leaves K H V} {leaf : LeafCell K H V}
    {cell : ChainCell size K H V} {after : List (ChainCell size K H V)}
    (ordered : Leaves.Chain ops.highKey size (before' ++ leaf :: after'))
    (same : cell.Matches ops leaf)
    (afterMatches : List.Forall₂ (ChainCell.Matches ops) after after') :
    LeafNode.Neighbour ops cell.leaf ((after.head?.map ChainCell.leaf).getD cell.leaf) leaf.view
      (after'.head?.map LeafCell.view) where
  none := by
    intro alone
    have link := same.represents.link
    rw [alone] at link
    rw [ordered.link_eq_none.mp link]
    rfl
  some := by
    intro sibling
    have link := same.represents.link
    rw [sibling] at link
    cases afterMatches with
    | nil =>
      rw [ordered.link_eq_none.mpr rfl] at link
      cases link
    | @cons _ next _ rest here _ =>
      refine ⟨next.view, rfl, here.represents, ?_⟩
      intro entry listed other otherListed
      exact ordered.pairs_lt entry listed other
        (by rw [Leaves.pairs_cons]; exact mem_append_left _ otherListed)

theorem remove (invariant : Invariant ops chain leaves) (key : K) :
    ∃ answer chain' leaves', chain.remove ops key = .ok (answer, chain') ∧
      Invariant ops chain' leaves' ∧ Answers key answer ↑leaves.pairs ∧
      Exchanges answer none ↑leaves.pairs ↑leaves'.pairs := by
  obtain ⟨before, after, cell, before', after', leaf, found, rfl, located, beforeMatches, same,
    afterMatches⟩ := invariant.exists_leafOf key
  have ordered := invariant.ordered
  have sound := ordered.sound leaf (by simp)
  obtain ⟨detached, result, kvEq, represents, mergedEq, kept, _⟩ :=
    LeafNode.remove_spec cell.address key same.represents (neighbour ordered same afterMatches)
  have vacates := LeafNode.remove_vacates same.represents.holds.toStored result
  rw [LeafChain.remove, found]
  simp only [result]
  have way := ordered.removed key
  generalize leaf.view.remove size (after'.head?.map LeafCell.view) key = outcome
    at way kvEq represents mergedEq
  have untouched : detached.merged = none →
      List.Forall₂ (ChainCell.Matches ops) (rightOf after detached) after' := by
    intro unmerged
    cases afterMatches with
    | nil => exact .nil
    | cons here later =>
      rw [rightOf, unmerged, kept unmerged]
      exact .cons (here.become (.of_eq rfl rfl) here.represents) later
  have become := same.become vacates represents
  cases way with
  | absent unbound =>
    refine ⟨_, _, before' ++ leaf :: after', rfl, ⟨ordered, ?_⟩, ?_, ?_⟩
    · exact rel_append beforeMatches (.cons become (untouched mergedEq))
    · rw [kvEq]
      exact located.absent (findKey_eq_none.mp unbound)
    · rw [kvEq]
      exact .refl _
  | @erased _ _ previous bound filled =>
    obtain ⟨listed, sameKey⟩ := sound.ascending.findKey_eq_some.mp bound
    refine ⟨_, _, _, rfl, ⟨ordered.erased filled, ?_⟩, ?_, ?_⟩
    · exact rel_append beforeMatches (.cons become (untouched mergedEq))
    · rw [kvEq]
      exact sameKey
    · rw [kvEq]
      have exchanges := exchanges_eraseKey sound.ascending listed sameKey
      simpa using exchanges.frame ↑before'.pairs ↑after'.pairs
  | @merged right rest _ previous high bound highEq small =>
    obtain ⟨listed, sameKey⟩ := sound.ascending.findKey_eq_some.mp bound
    cases afterMatches with
    | cons here later =>
    refine ⟨_, _, _, rfl, ⟨ordered.absorb sound.ascending.eraseKey
      (fun kv listed => (mem_eraseKey.mp listed).1) small, ?_⟩, ?_, ?_⟩
    · rw [rightOf, mergedEq]
      exact rel_append beforeMatches (.cons become later)
    · rw [kvEq]
      exact sameKey
    · rw [kvEq]
      have exchanges := exchanges_eraseKey sound.ascending listed sameKey
      simpa using exchanges.frame ↑before'.pairs ↑(right.view.entries ++ rest.pairs)

end Invariant

def Operation.Changes (answer : Option (KVPair K V)) (pairs pairs' : Multiset (KVPair K V)) :
    Operation size K H V → Prop
  | .upsert kv _ => Answers kv.key answer pairs ∧ Exchanges answer (some kv) pairs pairs'
  | .update kv => Answers kv.key answer pairs ∧
      Exchanges answer (answer.map fun _ => kv) pairs pairs'
  | .remove key => Answers key answer pairs ∧ Exchanges answer none pairs pairs'
  | .kvSort _ _ => answer = none ∧ pairs' = pairs

end LeafChain

/-- The form of a leaf right of `left`. -/
structure ChainCell.Sound (ops : KeyOps K H) (left : Option (ChainCell size K H V))
    (cell : ChainCell size K H V) : Prop where
  filled : ∀ slot, cell.leaf.bitmap.getLsbD slot = true →
    ∃ kv, cell.leaf.kvs slot = some kv ∧ cell.leaf.tags slot = ops.hash kv.key
  distinct : ∀ slot other kv kv', cell.leaf.bitmap.getLsbD slot = true →
    cell.leaf.bitmap.getLsbD other = true → cell.leaf.kvs slot = some kv →
    cell.leaf.kvs other = some kv' → kv.key = kv'.key → slot = other
  above : ∀ other ∈ left, ∀ kv ∈ cell.leaf.contents, ops.highKey other.leaf.highKey < kv.key
  below : cell.leaf.control.sibling = true →
    ∀ kv ∈ cell.leaf.contents, kv.key ≤ ops.highKey cell.leaf.highKey
  vacated : ∀ slot, cell.used slot = true → cell.leaf.bitmap.getLsbD slot = false →
    cell.leaf.kvs slot = none
  ordered : cell.leaf.control.ordered = true →
    cell.leaf.bitmap.slots = List.range cell.leaf.contents.length ∧
      Ascending KVPair.key cell.leaf.contents

namespace LeafChain

namespace Invariant

variable {chain : LeafChain size K H V} {leaves : Leaves K H V}

theorem sound (invariant : Invariant ops chain leaves) {before after : List (ChainCell size K H V)}
    {cell : ChainCell size K H V} (split : chain.cells = before ++ cell :: after) :
    cell.Sound ops before.getLast? := by
  obtain ⟨ordered, related⟩ := invariant
  rw [split] at related
  obtain ⟨before', others', rfl, beforeMatches, others⟩ := forall₂_append_split related
  cases others with
  | @cons _ leaf _ after' same afterMatches =>
    obtain ⟨holds, link, high, _⟩ := same.represents
    have sound := ordered.sound leaf (by simp)
    have member (kv : KVPair K V) : kv ∈ cell.leaf.contents → kv ∈ leaf.view.entries :=
      holds.keeps.perm.mem_iff.mp
    refine ⟨holds.keeps.filled, ?_, ?_, ?_, same.vacated, ?_⟩
    · exact fun slot other kv kv' present otherPresent loaded otherLoaded sameKey =>
        holds.toStored.slot_inj present otherPresent loaded otherLoaded sameKey
    · intro other last kv listed
      obtain ⟨front, rfl⟩ := getLast?_eq_some_iff.mp last
      obtain ⟨front', others', rfl, _, lastMatches⟩ := forall₂_append_split beforeMatches
      cases lastMatches with
      | @cons _ other' _ _ sameOther none =>
        cases none
        obtain ⟨bound, boundEq⟩ := ordered.before_isSome other' (by simp)
        have otherHigh := sameOther.represents.high
        have highEq : other'.view.high = some other.leaf.highKey := by
          rw [otherHigh]
          split
          · rfl
          · rename_i alone
            rw [if_neg alone, boundEq] at otherHigh
            cases otherHigh
        have across := (pairwise_append.mp ordered.ordered).2.2 other' (by simp) leaf
          mem_cons_self
        exact (across _ highEq).1 kv (member kv listed)
    · intro sibling kv listed
      rw [sibling] at high
      exact sound.below _ high kv (member kv listed)
    · intro isOrdered
      obtain ⟨slots, contents⟩ := holds.ordered isOrdered
      rw [contents]
      exact ⟨slots, holds.ascending⟩

theorem initially (ops : KeyOps K H) (raw : LeafNode size K H V) :
    Invariant ops ⟨[⟨1, LeafNode.new ops raw, fun _ => false⟩], 2⟩ [⟨1, [], none, none⟩] where
  ordered := Leaves.chain_empty 1
  cells := by
    refine .cons ⟨rfl, ?_, fun _ used => (by cases used)⟩ .nil
    exact .of_stored ⟨LeafNode.keeps_new ops raw, List.Pairwise.nil⟩ rfl rfl rfl rfl

theorem call (lawful : ∀ copy key, ops.highKey (ops.makeHigh copy key) = key)
    (invariant : Invariant ops chain leaves) (operation : Operation size K H V) :
    ∃ answer chain' leaves', chain.call ops operation = .ok (answer, chain') ∧
      Invariant ops chain' leaves' ∧ operation.Changes answer chain.pairs chain'.pairs := by
  cases operation with
  | upsert kv raw =>
    obtain ⟨answer, chain', leaves', result, invariant', answers, exchanges⟩ :=
      invariant.upsert lawful kv raw
    refine ⟨answer, chain', leaves', result, invariant', ?_⟩
    rw [invariant.pairs_eq, invariant'.pairs_eq]
    exact ⟨answers, exchanges⟩
  | update kv =>
    obtain ⟨answer, chain', leaves', result, invariant', answers, exchanges⟩ := invariant.update kv
    refine ⟨answer, chain', leaves', result, invariant', ?_⟩
    rw [invariant.pairs_eq, invariant'.pairs_eq]
    exact ⟨answers, exchanges⟩
  | remove key =>
    obtain ⟨answer, chain', leaves', result, invariant', answers, exchanges⟩ := invariant.remove key
    refine ⟨answer, chain', leaves', result, invariant', ?_⟩
    rw [invariant.pairs_eq, invariant'.pairs_eq]
    exact ⟨answers, exchanges⟩
  | kvSort pos raw =>
    obtain ⟨chain', result, invariant'⟩ := invariant.kvSort pos raw
    refine ⟨none, chain', leaves, result, invariant', rfl, ?_⟩
    rw [invariant.pairs_eq, invariant'.pairs_eq]

end Invariant

/-- Every leaf of the chain keeps its form, and a call changes the pairs by the one that it
inserts, replaces or removes. -/
theorem reachable_sound (lawful : ∀ copy key, ops.highKey (ops.makeHigh copy key) = key)
    {chain : LeafChain size K H V} (reached : (machine ops).Reachable Machine.anyStep chain) :
    (∀ before cell after, chain.cells = before ++ cell :: after →
      cell.Sound ops before.getLast?) ∧
    ∀ operation, ∃ answer chain', chain.call ops operation = .ok (answer, chain') ∧
      operation.Changes answer chain.pairs chain'.pairs := by
  have exists_leaves : ∃ leaves, Invariant ops chain leaves := by
    apply reached.invariant
    · rintro _ ⟨raw, rfl⟩
      exact ⟨_, .initially ops raw⟩
    · rintro chain operation chain' ⟨leaves, invariant⟩ _ moved
      obtain ⟨answer, chain'', leaves', result, invariant', _⟩ := invariant.call lawful operation
      simp only [machine, result] at moved
      obtain rfl : chain'' = chain' := Option.some.inj moved
      exact ⟨leaves', invariant'⟩
  obtain ⟨leaves, invariant⟩ := exists_leaves
  refine ⟨fun before cell after split => invariant.sound split, ?_⟩
  intro operation
  obtain ⟨answer, chain', leaves', result, _, changes⟩ := invariant.call lawful operation
  exact ⟨answer, chain', result, changes⟩

def numbers : KeyOps Nat Nat := ⟨fun _ => 0, 0, fun _ key => key, id, false⟩

def blank : LeafNode .size16 Nat Nat Nat :=
  ⟨.new true, 0, 0, nullptr, fun _ => 0, fun _ => none⟩

def splitRun : List (Operation .size16 Nat Nat Nat) :=
  (List.range 17).reverse.map (fun key => .upsert ⟨key, key, key⟩ blank) ++
    [.kvSort 0 (fun _ => 0), .remove 3]

def splitChain : LeafChain .size16 Nat Nat Nat :=
  ((machine numbers).exec ⟨[⟨1, LeafNode.new numbers blank, fun _ => false⟩], 2⟩ splitRun).getD
    ⟨[], 0⟩

theorem reachable_sound_splitChain :
    splitChain.cells.map (fun cell => cell.leaf.contents.map KVPair.key) =
      [[0, 1, 2, 4, 5, 6, 7, 8], [9, 10, 11, 12, 13, 14, 15, 16]] ∧
    ∀ before cell after, splitChain.cells = before ++ cell :: after →
      cell.Sound numbers before.getLast? := by
  have contents : splitChain.cells.map (fun cell => cell.leaf.contents.map KVPair.key) =
      [[0, 1, 2, 4, 5, 6, 7, 8], [9, 10, 11, 12, 13, 14, 15, 16]] := by
    decide +kernel
  have runs : ((machine numbers).exec ⟨[⟨1, LeafNode.new numbers blank, fun _ => false⟩], 2⟩
      splitRun).isSome = true := by
    decide +kernel
  obtain ⟨chain, executed⟩ := Option.isSome_iff_exists.mp runs
  have reached : (machine numbers).Reachable Machine.anyStep splitChain := by
    rw [splitChain, executed]
    exact Machine.Reachable.exec (.start ⟨blank, rfl⟩) executed
  exact ⟨contents, (reachable_sound (fun _ _ => rfl) reached).1⟩

end LeafChain

end IndexResearch.FBTree
