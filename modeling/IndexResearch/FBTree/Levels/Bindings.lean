import IndexResearch.FBTree.Levels.Leaves
import IndexResearch.FBTree.Levels.Shrinking

/-!
# The levels as a map

The operations keep the invariant of the levels and are, on the sorted list of all
pairs, insertion, exchange and removal of one pair.
-/

namespace IndexResearch.FBTree

open Leaves

namespace Levels

variable {K H V : Type} [LinearOrder K] {ops : KeyOps K H} {keyOf : H → K}
  {leafSize innerSize : NodeSize} {levels : Levels K H V}

structure WellFormed (keyOf : H → K) (leafSize innerSize : NodeSize) (levels : Levels K H V) :
    Prop where
  chain : levels.leaves.Chain keyOf leafSize
  stacked : Stacked innerSize levels.leaves.bounds levels.leaves.ids levels.inner

def bindings (levels : Levels K H V) : K → Option (KVPair K V) :=
  findKey KVPair.key levels.leaves.pairs

theorem wellFormed_empty : (empty : Levels K H V).WellFormed keyOf leafSize innerSize where
  chain := chain_empty 1
  stacked := ⟨rfl, rfl⟩

def withEntries (levels : Levels K H V) (before : Leaves K H V) (leaf : LeafCell K H V)
    (after : Leaves K H V) (entries : List (KVPair K V)) : Levels K H V :=
  { levels with leaves := before ++ ⟨leaf.id, { leaf.view with entries := entries }⟩ :: after }

/-- The ways `upsert` can go. -/
inductive Upserts (ops : KeyOps K H) (leafSize innerSize : NodeSize) (levels : Levels K H V)
    (kv : KVPair K V) : Option (KVPair K V) × Levels K H V → Prop
  | replaced {before after : Leaves K H V} {leaf : LeafCell K H V} {previous : KVPair K V}
      (found : levels.leafOf ops.highKey kv.key = some (before, leaf, after))
      (bound : findKey KVPair.key leaf.view.entries kv.key = some previous)
      (step : leaf.view.upsert leafSize ops levels.fresh (levels.fresh + 1) kv =
        (some previous, { leaf.view with entries := replace KVPair.key leaf.view.entries kv },
          none)) :
      Upserts ops leafSize innerSize levels kv
        (some previous, levels.withEntries before leaf after
          (replace KVPair.key leaf.view.entries kv))
  | placed {before after : Leaves K H V} {leaf : LeafCell K H V}
      (found : levels.leafOf ops.highKey kv.key = some (before, leaf, after))
      (unbound : findKey KVPair.key leaf.view.entries kv.key = none)
      (room : leaf.view.entries.length < leafSize.slots)
      (step : leaf.view.upsert leafSize ops levels.fresh (levels.fresh + 1) kv =
        (none, { leaf.view with entries := place KVPair.key leaf.view.entries kv }, none)) :
      Upserts ops leafSize innerSize levels kv
        (none, levels.withEntries before leaf after (place KVPair.key leaf.view.entries kv))
  | split {before after : Leaves K H V} {leaf : LeafCell K H V} {left rest : List (KVPair K V)}
      {middle : K} (found : levels.leafOf ops.highKey kv.key = some (before, leaf, after))
      (unbound : findKey KVPair.key leaf.view.entries kv.key = none)
      (into : LeafView.SplitInto leafSize ops leaf.view levels.fresh (levels.fresh + 1) kv left rest
        middle)
      (step : leaf.view.upsert leafSize ops levels.fresh (levels.fresh + 1) kv =
        (none, ⟨left, some (ops.makeHigh (levels.fresh + 1) middle), some levels.fresh⟩,
          some ⟨rest, leaf.view.high, leaf.view.link⟩)) :
      Upserts ops leafSize innerSize levels kv
        (none,
          ⟨before ++
            ⟨leaf.id, left, some (ops.makeHigh (levels.fresh + 1) middle), some levels.fresh⟩ ::
            ⟨levels.fresh, rest, leaf.view.high, leaf.view.link⟩ :: after,
          (climb ops.highKey innerSize levels.inner (levels.fresh + 2) leaf.id levels.fresh
            (ops.makeHigh (levels.fresh + 1) middle)).1,
          (climb ops.highKey innerSize levels.inner (levels.fresh + 2) leaf.id levels.fresh
            (ops.makeHigh (levels.fresh + 1) middle)).2⟩)

/-- The ways `remove` can go. -/
inductive Removes (keyOf : H → K) (leafSize innerSize : NodeSize) (levels : Levels K H V)
    (key : K) : Option (Option (KVPair K V) × Levels K H V) → Prop
  | absent {before after : Leaves K H V} {leaf : LeafCell K H V}
      (found : levels.leafOf keyOf key = some (before, leaf, after))
      (unbound : findKey KVPair.key leaf.view.entries key = none)
      (step : leaf.view.remove leafSize (after.head?.map LeafCell.view) key =
        (none, leaf.view, none)) :
      Removes keyOf leafSize innerSize levels key (some (none, levels))
  | erased {before after : Leaves K H V} {leaf : LeafCell K H V} {previous : KVPair K V}
      (found : levels.leafOf keyOf key = some (before, leaf, after))
      (bound : findKey KVPair.key leaf.view.entries key = some previous)
      (filled : leaf.view.link ≠ none → eraseKey KVPair.key leaf.view.entries key ≠ [])
      (step : leaf.view.remove leafSize (after.head?.map LeafCell.view) key =
        (some previous, { leaf.view with entries := eraseKey KVPair.key leaf.view.entries key },
          none)) :
      Removes keyOf leafSize innerSize levels key (some (some previous,
        levels.withEntries before leaf after (eraseKey KVPair.key leaf.view.entries key)))
  | merged {before after : Leaves K H V} {leaf right : LeafCell K H V} {previous : KVPair K V}
      {high : H} (found : levels.leafOf keyOf key = some (before, leaf, right :: after))
      (bound : findKey KVPair.key leaf.view.entries key = some previous)
      (highEq : leaf.view.high = some high)
      (small : (eraseKey KVPair.key leaf.view.entries key).length + right.view.entries.length ≤
        leafSize.slots)
      (step : leaf.view.remove leafSize (some right.view) key =
        (some previous,
          ⟨eraseKey KVPair.key leaf.view.entries key ++ right.view.entries, right.view.high,
            right.view.link⟩, some high)) :
      Removes keyOf leafSize innerSize levels key
        ((settle keyOf innerSize levels.inner high).map fun inner => (some previous,
          ⟨before ++ ⟨leaf.id, eraseKey KVPair.key leaf.view.entries key ++ right.view.entries,
            right.view.high, right.view.link⟩ :: after, inner, levels.fresh⟩))

namespace WellFormed

variable {before after : Leaves K H V} {leaf : LeafCell K H V} {key : K}

theorem bindings_eq (formed : levels.WellFormed keyOf leafSize innerSize)
    (found : levels.leafOf keyOf key = some (before, leaf, after)) :
    levels.bindings key = findKey KVPair.key leaf.view.entries key := by
  obtain ⟨split, located⟩ := formed.chain.located found
  rw [bindings, split, pairs_append, pairs_cons,
    findKey_between located.smaller located.larger]

theorem lookup_eq (formed : levels.WellFormed keyOf leafSize innerSize) (key : K) :
    levels.lookup keyOf key = levels.bindings key := by
  obtain ⟨before, leaf, after, found⟩ := formed.chain.exists_leafOf key
  rw [lookup, leafOf, found, formed.bindings_eq found]
  rfl

theorem upserts (formed : levels.WellFormed ops.highKey leafSize innerSize) (kv : KVPair K V) :
    Upserts ops leafSize innerSize levels kv (levels.upsert ops leafSize innerSize kv) := by
  obtain ⟨before, leaf, after, found⟩ := formed.chain.exists_leafOf kv.key
  have split := leafOf_eq_some found
  have sound := formed.chain.sound leaf (by simp [split])
  rw [upsert, leafOf, found]
  simp only
  rcases old : findKey KVPair.key leaf.view.entries kv.key with _ | previous
  · by_cases room : leaf.view.entries.length < leafSize.slots
    · have step : leaf.view.upsert leafSize ops levels.fresh (levels.fresh + 1) kv =
          (none, { leaf.view with entries := place KVPair.key leaf.view.entries kv }, none) := by
        rw [LeafView.upsert, old]
        exact if_pos room
      rw [step]
      exact .placed found old room step
    · obtain ⟨left, rest, middle, into⟩ := LeafView.exists_splitInto ops levels.fresh
        (levels.fresh + 1) sound.ascending
        (Nat.le_antisymm sound.bounded (not_lt.mp room)) sound.high_eq_none
          (findKey_eq_none.mp old)
      have step : leaf.view.upsert leafSize ops levels.fresh (levels.fresh + 1) kv =
          (none, ⟨left, some (ops.makeHigh (levels.fresh + 1) middle), some levels.fresh⟩,
            some ⟨rest, leaf.view.high, leaf.view.link⟩) := by
        rw [LeafView.upsert, old]
        simp only [if_neg room, into.result]
      rw [step]
      exact .split found old into step
  · have step : leaf.view.upsert leafSize ops levels.fresh (levels.fresh + 1) kv =
        (some previous, { leaf.view with entries := replace KVPair.key leaf.view.entries kv },
          none) := by
      rw [LeafView.upsert, old]
    rw [step]
    exact .replaced found old step

theorem removes (formed : levels.WellFormed keyOf leafSize innerSize) (key : K) :
    Removes keyOf leafSize innerSize levels key (levels.remove keyOf leafSize innerSize key) := by
  obtain ⟨before, leaf, after, found⟩ := formed.chain.exists_leafOf key
  have split := leafOf_eq_some found
  have chain := formed.chain
  rw [split] at chain
  rw [remove, leafOf, found]
  simp only
  have way := chain.removed key
  generalize step : leaf.view.remove leafSize (after.head?.map LeafCell.view) key = result at way ⊢
  cases way with
  | absent unbound =>
    simp only [← split]
    exact .absent found unbound step
  | erased bound filled => exact .erased found bound filled step
  | merged bound highEq small => exact .merged found bound highEq small step

/-! ## Each way keeps the invariant -/

section

variable (formed : levels.WellFormed keyOf leafSize innerSize)
include formed

theorem replaced {kv : KVPair K V}
    (found : levels.leafOf keyOf kv.key = some (before, leaf, after)) :
    (levels.withEntries before leaf after (replace KVPair.key leaf.view.entries kv)).WellFormed
      keyOf leafSize innerSize ∧
    (levels.withEntries before leaf after (replace KVPair.key leaf.view.entries kv)).leaves.pairs =
      replace KVPair.key levels.leaves.pairs kv := by
  obtain ⟨split, located⟩ := formed.chain.located found
  obtain ⟨chain, stacked⟩ := formed
  rw [split] at chain stacked ⊢
  refine ⟨⟨chain.replaced located, by simpa [withEntries] using stacked⟩, ?_⟩
  rw [withEntries, pairs_append, pairs_cons, pairs_append, pairs_cons,
    replace_between located.smaller located.larger]

theorem placed {kv : KVPair K V} (found : levels.leafOf keyOf kv.key = some (before, leaf, after))
    (unbound : findKey KVPair.key leaf.view.entries kv.key = none)
    (room : leaf.view.entries.length < leafSize.slots) :
    (levels.withEntries before leaf after (place KVPair.key leaf.view.entries kv)).WellFormed
      keyOf leafSize innerSize ∧
    (levels.withEntries before leaf after (place KVPair.key leaf.view.entries kv)).leaves.pairs =
      place KVPair.key levels.leaves.pairs kv := by
  obtain ⟨split, located⟩ := formed.chain.located found
  obtain ⟨chain, stacked⟩ := formed
  rw [split] at chain stacked ⊢
  refine ⟨⟨chain.placed located (findKey_eq_none.mp unbound) room,
    by simpa [withEntries] using stacked⟩, ?_⟩
  rw [withEntries, pairs_append, pairs_cons, pairs_append, pairs_cons,
    place_between located.smaller located.larger]

theorem erased (found : levels.leafOf keyOf key = some (before, leaf, after))
    (filled : leaf.view.link ≠ none → eraseKey KVPair.key leaf.view.entries key ≠ []) :
    (levels.withEntries before leaf after (eraseKey KVPair.key leaf.view.entries key)).WellFormed
      keyOf leafSize innerSize ∧
    (levels.withEntries before leaf after
      (eraseKey KVPair.key leaf.view.entries key)).leaves.pairs =
      eraseKey KVPair.key levels.leaves.pairs key := by
  obtain ⟨split, located⟩ := formed.chain.located found
  obtain ⟨chain, stacked⟩ := formed
  rw [split] at chain stacked ⊢
  refine ⟨⟨chain.erased filled, by simpa [withEntries] using stacked⟩, ?_⟩
  rw [withEntries, pairs_append, pairs_cons, pairs_append, pairs_cons,
    eraseKey_between located.smaller located.larger]

end

/-! ## The operations -/

theorem update_spec (formed : levels.WellFormed keyOf leafSize innerSize) (kv : KVPair K V) :
    (levels.update keyOf kv).1 = levels.bindings kv.key ∧
    (levels.update keyOf kv).2.WellFormed keyOf leafSize innerSize ∧
    (levels.update keyOf kv).2.bindings =
      if (levels.bindings kv.key).isSome then
        Function.update levels.bindings kv.key (some kv)
      else levels.bindings := by
  obtain ⟨before, leaf, after, found⟩ := formed.chain.exists_leafOf kv.key
  obtain ⟨kept, pairs⟩ := formed.replaced found
  have rising := formed.chain.ascending_pairs
  rw [update, leafOf, found]
  refine ⟨(formed.bindings_eq found).symm, kept, (congrArg (findKey KVPair.key) pairs).trans ?_⟩
  split
  · rename_i bound
    exact rising.findKey_replace (Option.isSome_iff_ne_none.mp bound)
  · rename_i unbound
    have absent := findKey_eq_none.mp (Option.not_isSome_iff_eq_none.mp unbound)
    rw [replace_of_absent absent, bindings]

theorem upsert_spec (lawful : ∀ copy key, ops.highKey (ops.makeHigh copy key) = key)
    (formed : levels.WellFormed ops.highKey leafSize innerSize) (kv : KVPair K V) :
    (levels.upsert ops leafSize innerSize kv).1 = levels.bindings kv.key ∧
    (levels.upsert ops leafSize innerSize kv).2.WellFormed ops.highKey leafSize innerSize ∧
    (levels.upsert ops leafSize innerSize kv).2.bindings =
      Function.update levels.bindings kv.key (some kv) := by
  have rising := formed.chain.ascending_pairs
  have way := formed.upserts kv
  generalize levels.upsert ops leafSize innerSize kv = result at way ⊢
  cases way with
  | @replaced before after leaf previous found bound _ =>
    obtain ⟨kept, pairs⟩ := formed.replaced found
    have isBound : findKey KVPair.key levels.leaves.pairs kv.key = some previous :=
      (formed.bindings_eq found).trans bound
    refine ⟨isBound.symm, kept, (congrArg (findKey KVPair.key) pairs).trans ?_⟩
    apply rising.findKey_replace
    rw [isBound]
    exact Option.some_ne_none previous
  | placed found unbound room _ =>
    obtain ⟨kept, pairs⟩ := formed.placed found unbound room
    have isUnbound := (formed.bindings_eq found).trans unbound
    exact ⟨isUnbound.symm, kept,
      (congrArg (findKey KVPair.key) pairs).trans (rising.findKey_place isUnbound)⟩
  | @split before after leaf left rest middle found unbound into _ =>
    have isUnbound := (formed.bindings_eq found).trans unbound
    obtain ⟨split, located⟩ := formed.chain.located found
    have chain := formed.chain
    have stacked := formed.stacked
    rw [split] at chain stacked
    have newChain := chain.split (lawful _ _) located (findKey_eq_none.mp unbound) into
    refine ⟨isUnbound.symm, ⟨newChain, ?_⟩, ?_⟩
    · have bounds := newChain.ascending_bounds
      simp only [bounds_append, bounds_cons, ids_append, ids_cons]
        at stacked bounds ⊢
      exact climb_stacked stacked chain.length_bounds_before.symm bounds
    · refine Eq.trans ?_ (rising.findKey_place isUnbound)
      rw [bindings, split, pairs_append, pairs_cons, pairs_append,
        pairs_cons, pairs_cons, place_between located.smaller located.larger,
        ← into.pairs, List.append_assoc]

theorem remove_spec {result : Option (KVPair K V) × Levels K H V}
    (formed : levels.WellFormed keyOf leafSize innerSize)
    (removed : levels.remove keyOf leafSize innerSize key = some result) :
    result.1 = levels.bindings key ∧ result.2.WellFormed keyOf leafSize innerSize ∧
    result.2.bindings = Function.update levels.bindings key none := by
  have rising := formed.chain.ascending_pairs
  have gone : findKey KVPair.key (eraseKey KVPair.key levels.leaves.pairs key) =
      Function.update levels.bindings key none := rising.findKey_eraseKey
  have way := formed.removes key
  rw [removed] at way
  generalize outcome : some result = optional at way
  cases way with
  | absent found unbound _ =>
    cases outcome
    have isUnbound := (formed.bindings_eq found).trans unbound
    refine ⟨isUnbound.symm, formed, ?_⟩
    rw [← gone, eraseKey_of_absent (findKey_eq_none.mp isUnbound), bindings]
  | erased found bound filled _ =>
    cases outcome
    obtain ⟨kept, pairs⟩ := formed.erased found filled
    exact ⟨((formed.bindings_eq found).trans bound).symm, kept,
      (congrArg (findKey KVPair.key) pairs).trans gone⟩
  | @merged before after leaf right previous high found bound highEq small _ =>
    obtain ⟨inner, settled, rfl⟩ := Option.map_eq_some_iff.mp outcome.symm
    obtain ⟨split, located⟩ := formed.chain.located found
    have chain := formed.chain
    have stacked := formed.stacked
    rw [split] at chain stacked
    have sound := chain.sound leaf (by simp)
    have bounds := chain.ascending_bounds
    refine ⟨((formed.bindings_eq found).trans bound).symm, ⟨chain.absorb
      sound.ascending.eraseKey (fun kv listed => (mem_eraseKey.mp listed).1) small, ?_⟩, ?_⟩
    · simp only [bounds_append, bounds_cons, ids_append, ids_cons,
        highEq] at stacked bounds ⊢
      exact settle_stacked stacked chain.length_bounds_before.symm bounds settled
    · rw [← gone, bindings, split, pairs_append, pairs_cons, pairs_append,
        pairs_cons, eraseKey_between located.smaller located.larger, pairs_cons,
        List.append_assoc]

end WellFormed

/-! ## The keys in use -/

structure Within (valid : K → Prop) (keyOf : H → K) (levels : Levels K H V) : Prop where
  keys : ∀ key, levels.bindings key ≠ none → valid key
  bounds : ∀ bound ∈ levels.leaves.bounds, valid (keyOf bound)

variable {valid : K → Prop}

theorem within_empty : (empty : Levels K H V).Within valid keyOf where
  keys _ bound := absurd rfl bound
  bounds _ listed := absurd listed List.not_mem_nil

theorem Within.bound_keys {key : K} {binding : Option (KVPair K V)}
    (within : levels.Within valid keyOf) (isValid : binding ≠ none → valid key) :
    ∀ other, Function.update levels.bindings key binding other ≠ none → valid other := by
  intro other bound
  by_cases same : other = key
  · rw [same, Function.update_self] at bound
    exact same ▸ isValid bound
  · rw [Function.update_of_ne same] at bound
    exact within.keys other bound

theorem Within.update (within : levels.Within valid keyOf)
    (formed : levels.WellFormed keyOf leafSize innerSize) (kv : KVPair K V) :
    (levels.update keyOf kv).2.Within valid keyOf where
  keys := by
    rw [(formed.update_spec kv).2.2]
    split
    · rename_i bound
      exact within.bound_keys fun _ => within.keys kv.key (Option.isSome_iff_ne_none.mp bound)
    · exact within.keys
  bounds := by
    obtain ⟨before, leaf, after, found⟩ := formed.chain.exists_leafOf kv.key
    have old := within.bounds
    rw [leafOf_eq_some found] at old
    rw [Levels.update, leafOf, found]
    simpa using old

theorem Within.upsert (lawful : ∀ copy key, ops.highKey (ops.makeHigh copy key) = key)
    (within : levels.Within valid ops.highKey)
    (formed : levels.WellFormed ops.highKey leafSize innerSize) {kv : KVPair K V}
    (isValid : valid kv.key) :
    (levels.upsert ops leafSize innerSize kv).2.Within valid ops.highKey := by
  have newWellFormed := (formed.upsert_spec lawful kv).2.1
  have keys : ∀ key, (levels.upsert ops leafSize innerSize kv).2.bindings key ≠ none →
      valid key := by
    rw [(formed.upsert_spec lawful kv).2.2]
    exact within.bound_keys fun _ => isValid
  refine ⟨keys, ?_⟩
  have old := within.bounds
  have way := formed.upserts kv
  generalize levels.upsert ops leafSize innerSize kv = result at way keys newWellFormed ⊢
  cases way with
  | replaced found _ _ =>
    rw [leafOf_eq_some found] at old
    simpa [withEntries] using old
  | placed found _ _ _ =>
    rw [leafOf_eq_some found] at old
    simpa [withEntries] using old
  | @split before after leaf left rest middle found _ into _ =>
    rw [leafOf_eq_some found] at old
    obtain ⟨pair, listed, rfl⟩ := into.middle_mem
    have middleValid : valid pair.key := by
      apply keys
      intro unbound
      refine findKey_eq_none.mp unbound pair ?_ rfl
      simp [listed]
    intro bound boundListed
    simp only [bounds_append, bounds_cons, Option.toList_some, List.mem_append,
      List.mem_singleton] at boundListed old
    rcases boundListed with inBefore | rfl | later
    · exact old bound (.inl inBefore)
    · rw [lawful]
      exact middleValid
    · exact old bound (.inr later)

theorem Within.remove {key : K} {result : Option (KVPair K V) × Levels K H V}
    (within : levels.Within valid keyOf) (formed : levels.WellFormed keyOf leafSize innerSize)
    (removed : levels.remove keyOf leafSize innerSize key = some result) :
    result.2.Within valid keyOf := by
  refine ⟨?_, ?_⟩
  · rw [(formed.remove_spec removed).2.2]
    exact within.bound_keys fun absurdity => absurd rfl absurdity
  · have old := within.bounds
    have way := formed.removes key
    rw [removed] at way
    generalize outcome : some result = optional at way
    cases way with
    | absent _ _ _ =>
      cases outcome
      exact old
    | erased found _ _ _ =>
      cases outcome
      rw [leafOf_eq_some found] at old
      simpa [withEntries] using old
    | merged found _ highEq _ _ =>
      obtain ⟨inner, _, rfl⟩ := Option.map_eq_some_iff.mp outcome.symm
      rw [leafOf_eq_some found] at old
      intro bound listed
      apply old
      simp only [bounds_append, bounds_cons, List.mem_append] at listed ⊢
      rcases listed with inBefore | later
      · exact .inl inBefore
      · exact .inr (.inr later)

end Levels

end IndexResearch.FBTree
