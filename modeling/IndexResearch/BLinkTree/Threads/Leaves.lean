import IndexResearch.BLinkTree.Threads.Scans

/-!
# Leaves among other threads

A call takes effect in the leaf that its key belongs to, while it has the latch of the leaf.
-/

namespace IndexResearch.BLinkTree

open LinkedPages List

variable {Thread K V : Type} [LinearOrder K] {params : Parameters} {outline : Outline Ptr K V}
  {state : State Thread K V} {thread : Thread} {map : OrderedMap K V} {current : Ptr} {key : K}
  {value : V}

variable {entries : List (K × V)} {link : Option Ptr}

omit [LinearOrder K] in
theorem leaf_bounds :
    Page.bounds (.leaf entries link : Page Ptr K V) = (entries.map Prod.fst).map WithTop.some := by
  rw [map_map]
  rfl

omit [LinearOrder K] in
theorem leaf_bound_congr {entries' : List (K × V)}
    (same : link ≠ none → (entries'.map Prod.fst).getLast? = (entries.map Prod.fst).getLast?) :
    Page.bound (.leaf entries' link : Page Ptr K V) = Page.bound
    (.leaf entries link : Page Ptr K V):= by
  cases link with
  | none => rfl
  | some next =>
    have sameKeys := same (by simp)
    rw [getLast?_map, getLast?_map] at sameKeys
    simp only [Page.bound, Page.link, leaf_bounds, getLast?_map, sameKeys]

omit [LinearOrder K] in
theorem grounded_of_leaf {outline : Outline Ptr K V}
    (here : outline.page current = some (.leaf entries link))
    (listed : (key : WithTop K) ∈ Page.bounds (.leaf entries link : Page Ptr K V)) :
    outline.Grounded key := by
  obtain ⟨entry, entryListed, same⟩ := mem_map.mp listed
  exact ⟨current, _, here, entry, entryListed, WithTop.coe_injective same⟩

theorem leaf_bound_place
    (ordered : outline.Ordered current (.leaf entries link)) (rising : Ascending Prod.fst entries)
    (absent : ∀ entry ∈ entries, entry.1 ≠ key)
    (upTo : (key : WithTop K) ≤ Page.bound (.leaf entries link : Page Ptr K V)) (value : V) :
    Page.bound (.leaf (place Prod.fst entries (key, value)) link : Page Ptr K V) =
      Page.bound (.leaf entries link : Page Ptr K V) := by
  refine leaf_bound_congr fun linked => ?_
  obtain ⟨next, rfl⟩ := Option.ne_none_iff_exists'.mp linked
  have highest := ordered.bound_mem rfl
  rw [leaf_bounds, map_map, getLast?_map, Option.map_eq_some_iff] at highest
  obtain ⟨last, lastEq, boundEq⟩ := highest
  have less : key < last.1 := by
    rw [← boundEq] at upTo
    exact lt_of_le_of_ne (WithTop.coe_le_coe.mp upTo)
      (Ne.symm (absent last (mem_of_getLast? lastEq)))
  have inside : rankIn Prod.fst entries key < entries.length := by
    refine lt_of_le_of_ne (rankIn_le_length _ _) fun all => ?_
    have smaller := rising.take_lt key last (by
      rw [all, take_length]
      exact mem_of_getLast? lastEq)
    exact lt_asymm less smaller
  rw [getLast?_map, getLast?_map]
  exact congrArg (Option.map Prod.fst) (getLast?_insertAt (key, value) inside)

section Steps

variable [DecidableEq Thread] {operation : Operation K V} {stack : List Ptr} {leaf : Leaf K V}
  {node : BLinkNode K V}
variable (sound : Sound params outline state) (holds : outline.Holds map)
include sound holds

theorem updateHere_proceeds
    (phase : state.phases thread = .arrived (.update key value) stack current)
    (onWay : (state.view outline).OnWay key 0 current)
    (here : outline.page current = some (.leaf leaf.entries leaf.link))
    (upTo : (key : WithTop K) ≤ Page.bound (.leaf leaf.entries leaf.link : Page Ptr K V))
    (stored : state.tree.nodes current = some node)
    (embodies : node.Embodies params.leafNodeSize leaf) (rising : Ascending Prod.fst leaf.entries) :
    Proceeds params map state thread (updateHere state.tree key value current node) := by
  have scanned := embodies.toIsLeaf.nodeScan_eq rising key
  have hits := embodies.toIsLeaf.hasAt_eq rising key
  have bottom : outline.height current = 0 := onWay.height_eq
  have sameFind := holds.findKey_eq sound.wellFormed here bottom onWay.above upTo
  cases found : findKey Prod.fst leaf.entries key with
  | none =>
    have absent : findKey Prod.fst map.entries key = none := sameFind.trans found
    refine .think sound holds (.finishing (.status false) .exclusive [current]) phase
      (fun _ => ⟨rfl, rfl, rfl⟩) ?_ (fun _ => ⟨rfl, rfl, rfl⟩) rfl (nodup_singleton _)
        (.effect ?_)
    · rw [updateHere, scanned]
      simp only [ok_bind, hits, found, Option.isSome_none, Bool.false_eq_true, if_false]
      rfl
    · have same : replace Prod.fst map.entries (key, value) = map.entries :=
        replace_of_absent (findKey_eq_none.mp absent)
      simp only [Operation.apply, OrderedMap.update, OrderedMap.find, absent, Option.map_none,
        Option.isSome_none, same]
  | some entry =>
    obtain ⟨listed, keyEq⟩ := rising.findKey_eq_some.mp found
    have place_ := found
    rw [rising.findKey_eq_filter, Option.filter_eq_some_iff] at place_
    obtain ⟨placed, written, isLeaf⟩ := embodies.toIsLeaf.setValue_eq place_.1 value
    have replaced : replace Prod.fst leaf.entries (key, value) = _ :=
      rising.replace_eq_set place_.1 keyEq
    rw [keyEq, ← replaced] at isLeaf
    have filled : replace Prod.fst leaf.entries (key, value) ≠ [] := by
      refine ne_nil_of_length_pos ?_
      rw [length_replace]
      exact length_pos_of_mem listed
    have shows_ : placed.Shows params
      (.leaf (replace Prod.fst leaf.entries (key, value)) leaf.link) :=
      .of_isLeaf isLeaf embodies.link_ne filled
    refine ⟨state.tree.write current placed, .finishing (.status true) .exclusive [current],
      outline.set current (.leaf (replace Prod.fst leaf.entries (key, value)) leaf.link),
      ⟨replace Prod.fst map.entries (key, value), map.ascending.replace⟩, ?_, ?_, ?_, ?_⟩
    · rw [updateHere, scanned]
      simp only [ok_bind, hits, found, Option.isSome_some, if_true, written]
      rfl
    · refine sound.set ?_ here stored shows_
        (BLinkNode.setValue_upperLevel written) ?_ rfl ?_ ?_ ?_ ?_ ?_ _
      · refine ⟨by rw [phase]; rfl, by rw [phase]; rfl, fun _ _ grows => ?_⟩
        rw [phase] at grows
        cases grows
      · refine .leaf bottom rising.replace ?_ (fun _ => filled)
        intro other otherListed
        rcases mem_replace.mp otherListed with ⟨old, _⟩ | ⟨rfl, _⟩
        · exact ((sound.wellFormed.ordered current _ here).of_entry old).2.1
        · exact onWay.above
      · exact leaf_bound_congr fun _ => by rw [map_replace]
      · intro old oldListed
        by_cases same : old.1 = key
        · exact ⟨(key, value), mem_replace.mpr (.inr ⟨rfl, old, oldListed, same⟩), same.symm⟩
        · exact ⟨old, mem_replace.mpr (.inl ⟨oldListed, same⟩), rfl⟩
      · exact fun key' listed' => grounded_of_leaf Outline.set_self listed'
      · left
        rw [leaf_bounds]
        simpa using filled
      · exact fun cell cellListed => absurd cellListed not_mem_nil
    · refine holds.set sound.wellFormed here fun other => ?_
      have inMap : ∀ {old}, old ∈ leaf.entries → old ∈ map.entries :=
        fun oldListed => (holds _).mpr ⟨current, _, here, oldListed⟩
      change other ∈ replace Prod.fst map.entries (key, value) ↔
        other ∈ replace Prod.fst leaf.entries (key, value) ∨
          (other ∈ map.entries ∧ other ∉ leaf.entries)
      rw [mem_replace, mem_replace]
      constructor
      · rintro (⟨old, notKey⟩ | ⟨same, _⟩)
        · by_cases inLeaf : other ∈ leaf.entries
          · exact .inl (.inl ⟨inLeaf, notKey⟩)
          · exact .inr ⟨old, inLeaf⟩
        · exact .inl (.inr ⟨same, entry, listed, keyEq⟩)
      · rintro ((⟨old, notKey⟩ | ⟨same, _⟩) | ⟨old, notInLeaf⟩)
        · exact .inl ⟨inMap old, notKey⟩
        · exact .inr ⟨same, entry, inMap listed, keyEq⟩
        · refine .inl ⟨old, fun same => notInLeaf ?_⟩
          have isFound := sameFind.symm.trans (map.ascending.findKey_eq_some.mpr ⟨old, same⟩)
          exact (rising.findKey_eq_some.mp isFound).1
    · rw [phase]
      refine .effect ?_
      simp only [Operation.apply, OrderedMap.update, OrderedMap.find, sameFind, Page.entries, found,
        Option.map_some, Option.isSome_some]

variable [Inhabited K] [Inhabited V]

theorem insertHere_proceeds
    (phase : state.phases thread = .arrived (.insert key value) stack current)
    (onWay : (state.view outline).OnWay key 0 current)
    (trail : (state.view outline).Trail key 0 stack)
    (here : outline.page current = some (.leaf leaf.entries leaf.link))
    (upTo : (key : WithTop K) ≤ Page.bound (.leaf leaf.entries leaf.link : Page Ptr K V))
    (stored : state.tree.nodes current = some node)
    (embodies : node.Embodies params.leafNodeSize leaf) (rising : Ascending Prod.fst leaf.entries) :
    Proceeds params map state thread
    (insertHere params state.tree key value stack current node):= by
  have scanned := embodies.toIsLeaf.nodeScan_eq rising key
  have hits := embodies.toIsLeaf.hasAt_eq rising key
  have bottom : outline.height current = 0 := onWay.height_eq
  have ordered := sound.wellFormed.ordered current _ here
  have sameFind : findKey Prod.fst map.entries key = findKey Prod.fst leaf.entries key :=
    holds.findKey_eq sound.wellFormed here bottom onWay.above upTo
  cases found : findKey Prod.fst leaf.entries key with
  | some entry =>
    refine .think sound holds (.finishing (.status false) .exclusive [current]) phase
      (fun _ => ⟨rfl, rfl, rfl⟩) ?_ (fun _ => ⟨rfl, rfl, rfl⟩) rfl (nodup_singleton _)
        (.effect ?_)
    · rw [insertHere, scanned]
      simp only [ok_bind, hits, found, Option.isSome_some, if_true]
      rfl
    · have bound : findKey Prod.fst map.entries key ≠ none := by
        rw [sameFind, found]
        simp
      simp only [Operation.apply, OrderedMap.insert, dif_neg bound]
  | none =>
    have absent : ∀ entry ∈ leaf.entries, entry.1 ≠ key := findKey_eq_none.mp found
    have absentMap : findKey Prod.fst map.entries key = none := sameFind.trans found
    have only : HasOnly state thread current := by
      refine ⟨by rw [phase]; rfl, by rw [phase]; rfl, fun _ _ grows => ?_⟩
      rw [phase] at grows
      cases grows
    have memPlace : ∀ {entries : List (K × V)} {other}, other ∈ place Prod.fst entries
      (key, value) ↔ other = (key, value) ∨ other ∈ entries := by
      intro entries other
      rw [(place_perm entries (key, value)).mem_iff, mem_cons]
    have ascendingPlace : Ascending Prod.fst (place Prod.fst leaf.entries (key, value)) :=
      rising.place absent
    have abovePlace : ∀ entry ∈ place Prod.fst leaf.entries (key, value),
        outline.low current < (entry.1 : WithTop K) := by
      intro entry listed
      rcases memPlace.mp listed with rfl | old
      · exact onWay.above
      · exact (ordered.of_entry old).2.1
    have sameBound := leaf_bound_place ordered rising absent upTo value
    have ascendingMap : Ascending Prod.fst (place Prod.fst map.entries (key, value)) :=
      map.ascending.place (findKey_eq_none.mp absentMap)
    have applied : Operation.apply map (.insert key value) =
        (.status true, ⟨place Prod.fst map.entries (key, value), ascendingMap⟩) := by
      simp only [Operation.apply, OrderedMap.insert, dif_pos absentMap]
    -- the entries of the map are the new one and those of before
    have changes : ∀ other, other ∈ place Prod.fst map.entries (key, value) ↔
        other ∈ place Prod.fst leaf.entries (key, value) ∨
          (other ∈ map.entries ∧ other ∉ leaf.entries) := by
      intro other
      rw [memPlace, memPlace]
      constructor
      · rintro (same | old)
        · exact .inl (.inl same)
        · by_cases inLeaf : other ∈ leaf.entries
          · exact .inl (.inr inLeaf)
          · exact .inr ⟨old, inLeaf⟩
      · rintro ((same | old) | ⟨old, _⟩)
        · exact .inl same
        · exact .inr ((holds other).mpr ⟨current, _, here, old⟩)
        · exact .inr old
    rcases embodies.leafInsert_spec sound.draws.fresh_ne rising key value with
      ⟨placed, placedEq, shows_⟩ |
      ⟨lowerNode, upperNode, lower, upper, splitEq, lowerShows, upperShows, parts, lowerFilled,
        upperFilled⟩
    · have filled : place Prod.fst leaf.entries (key, value) ≠ [] :=
        ne_nil_of_mem (memPlace.mpr (.inl rfl))
      refine ⟨state.tree.write current placed, .finishing (.status true) .exclusive [current],
        outline.set current (.leaf (place Prod.fst leaf.entries (key, value)) leaf.link),
        ⟨place Prod.fst map.entries (key, value), ascendingMap⟩, ?_, ?_,
        holds.set sound.wellFormed here changes, ?_⟩
      · rw [insertHere, scanned]
        simp only [ok_bind, hits, found, Option.isSome_none, Bool.false_eq_true, if_false, placedEq]
        rfl
      · refine sound.set only here stored shows_ (BLinkNode.leafInsert_keepsUpper placedEq).1
          (.leaf bottom ascendingPlace abovePlace (fun _ => filled)) rfl sameBound ?_ ?_ ?_ ?_ _
        · exact fun entry listed => ⟨entry, memPlace.mpr (.inr listed), rfl⟩
        · exact fun key' listed' => grounded_of_leaf Outline.set_self listed'
        · left
          rw [leaf_bounds]
          simpa using filled
        · exact fun cell cellListed => absurd cellListed not_mem_nil
      · rw [phase]
        exact .effect applied
    · have fresh := sound.page_fresh
      have kept := BLinkNode.leafInsert_keepsUpper splitEq
      have keys : ∀ entry ∈ leaf.entries, ∃ entry' ∈ lower ++ upper, entry'.1 = entry.1 := by
        intro entry listed
        refine ⟨entry, ?_, rfl⟩
        rw [parts]
        exact memPlace.mpr (.inr listed)
      have extends_ : outline.Extends (outline.split current (.leaf lower (some state.tree.fresh))
          state.tree.fresh (.leaf upper leaf.link)) := Outline.extends_split here fresh keys
      rw [← parts] at ascendingPlace abovePlace
      obtain ⟨lowerAscending, upperAscending, across⟩ := ascending_append.mp ascendingPlace
      refine ⟨(state.tree.write current lowerNode).allocate upperNode,
        .climbing key stack current state.tree.fresh,
        outline.split current (.leaf lower (some state.tree.fresh)) state.tree.fresh
          (.leaf upper leaf.link), ⟨place Prod.fst map.entries (key, value), ascendingMap⟩, ?_, ?_,
        holds.split sound.wellFormed here fresh ?_, ?_⟩
      · rw [insertHere, scanned]
        simp only [ok_bind, hits, found, Option.isSome_none, Bool.false_eq_true, if_false, splitEq]
        rfl
      · refine sound.split only here stored lowerShows upperShows kept.1
          (kept.2 _ rfl) ?_ ?_ ?_ ?_ ?_ keys ?_ ?_ onWay trail upTo
        · refine Outline.divides_of_bounds (by rfl) sameBound rfl rfl ?_ ?_ ?_ ?_
          · rw [leaf_bounds, leaf_bounds, leaf_bounds, ← parts, map_append, map_append]
          · rw [leaf_bounds, ← parts]
            exact ascending_map.mpr (ascending_map.mpr (ascendingPlace.imp WithTop.coe_lt_coe.mpr))
          · rw [leaf_bounds]
            simpa using lowerFilled
          · rw [leaf_bounds]
            simpa using upperFilled
        · refine Outline.Ordered.mono (.leaf bottom lowerAscending ?_ (fun _ => lowerFilled))
            (by rw [here]; rfl) extends_
          exact fun entry listed => abovePlace entry (mem_append_left _ listed)
        · refine .leaf (Outline.add_self.2.1.trans bottom) upperAscending ?_ (fun _ => upperFilled)
          intro entry listed
          obtain ⟨last, lastEq⟩ := Option.ne_none_iff_exists'.mp
            (getLast?_eq_none_iff.not.mpr lowerFilled)
          have boundEq : Page.bound (.leaf lower (some state.tree.fresh) : Page Ptr K V) =
            last.1 := by
            change (Page.bounds (.leaf lower _ : Page Ptr K V)).getLast?.getD ⊤ = _
            rw [leaf_bounds, map_map, getLast?_map, lastEq]
            rfl
          have lowEq : (outline.split current (.leaf lower (some state.tree.fresh)) state.tree.fresh
              (.leaf upper leaf.link)).low state.tree.fresh =
              ((Page.bound (.leaf lower (some state.tree.fresh) : Page Ptr K V) : WithTop K) :
                Edge K) :=
            Outline.add_self.2.2
          rw [lowEq, boundEq]
          exact WithBot.coe_lt_coe.mpr (WithTop.coe_lt_coe.mpr
            (across last (mem_of_getLast? lastEq) entry listed))
        · rw [leaf_bounds]
          simpa using lowerFilled
        · rw [leaf_bounds]
          simpa using upperFilled
        · intro key' listed
          rcases mem_append.mp listed with inLower | inUpper
          · exact grounded_of_leaf (Outline.split_lower here fresh) inLower
          · exact grounded_of_leaf Outline.split_upper inUpper
        · exact fun cell cellListed => absurd cellListed not_mem_nil
      · intro other
        change _ ↔ other ∈ lower ++ upper ∨ _
        rw [parts]
        exact changes other
      · rw [phase]
        exact .effect applied

theorem arrive_proceeds (phase : state.phases thread = .arrived operation stack current) :
    Proceeds params map state thread (arrive params state.tree operation stack current) := by
  have knows := sound.knows thread
  rw [phase] at knows
  obtain ⟨onWay, trail⟩ := knows
  obtain ⟨page, here⟩ := Option.isSome_iff_exists.mp onWay.isPublic.1
  change outline.page current = some page at here
  have bottom : outline.height current = 0 := onWay.height_eq
  obtain ⟨node, leaf, nodeEq, stored, rfl, embodies, rising, ordered⟩ :=
    sound.exists_leaf here bottom
  have shows_ : node.Shows params (.leaf leaf.entries leaf.link) := .leaf embodies
  have before := shows_.isBefore_eq ordered operation.key
  have held : (current, operation.mode) ∈ (state.phases thread).held := by
    rw [phase]
    exact mem_cons_self
  have plain : (Phase.arrived operation stack current : Phase K V).Plain := fun _ => ⟨rfl, rfl, rfl⟩
  by_cases beyond : Page.bound (.leaf leaf.entries leaf.link : Page Ptr K V) <
    (operation.key : WithTop K)
  · rcases shows_.link_cases with ⟨link, _⟩ | ⟨link, _⟩
    · rw [Page.bound_of_link_none link] at beyond
      exact absurd beyond not_top_lt
    · obtain ⟨_, heightEq, lowEq⟩ := sound.wellFormed.linked _ _ _ here link
      have isPublic := sound.link_public here link (mem_claims_of_held held) (by
        rw [phase]
        exact not_mem_nil)
      have nextWay : (state.view outline).OnWay operation.key 0 node.siblingPtr := by
        refine ⟨isPublic, heightEq.trans bottom, ?_⟩
        change outline.low node.siblingPtr < _
        rw [lowEq]
        exact WithBot.coe_lt_coe.mpr beyond
      have moves : (∀ key value, operation ≠ .insert key value) →
          arrive params state.tree operation stack current =
            .ok (state.tree, .hopping operation current node.siblingPtr) := by
        intro notInsert
        rw [arrive, nodeEq]
        simp only [ok_bind, before, decide_eq_true beyond, if_true]
        cases operation with
        | insert key value => exact absurd rfl (notInsert key value)
        | _ => rfl
      have hops : (∀ key value, operation ≠ .insert key value) → Proceeds params map state thread
          (arrive params state.tree operation stack current) := fun notInsert =>
        .think sound holds (.hopping operation current node.siblingPtr) phase plain
          (moves notInsert)
          (fun _ => ⟨rfl, rfl, rfl⟩) rfl nextWay .rest
      cases operation with
      | insert key value =>
        refine .think sound holds (.coupling key value stack current node.siblingPtr) phase plain ?_
          (fun _ => ⟨rfl, rfl, rfl⟩) rfl ⟨nextWay, trail, _, here, link⟩ .rest
        rw [arrive, nodeEq]
        simp only [ok_bind, before, decide_eq_true beyond, if_true]
        rfl
      | update | search | scanFixed | scanRange => exact hops (by simp)
  · have upTo := le_of_not_gt beyond
    rw [arrive, nodeEq]
    simp only [ok_bind, before, decide_eq_false beyond, Bool.false_eq_true, if_false]
    cases operation with
    | insert key value =>
      exact insertHere_proceeds sound holds phase onWay trail here upTo stored embodies rising
    | update key value =>
      exact updateHere_proceeds sound holds phase onWay here upTo stored embodies rising
    | search key =>
      have sameFind := holds.findKey_eq sound.wellFormed here bottom onWay.above upTo
      refine .think sound holds
        (.finishing (.value ((findKey Prod.fst leaf.entries key).map Prod.snd)) .shared [current])
          phase
        plain ?_ (fun _ => ⟨rfl, rfl, rfl⟩) rfl (nodup_singleton _) (.effect ?_)
      · simp only [embodies.toIsLeaf.valueIn_eq rising]
        rfl
      · simp only [Operation.apply, OrderedMap.find]
        exact congrArg (fun found => (Answer.value (Option.map Prod.snd found), map)) sameFind
    | scanFixed leftKey scanSz kvPairs | scanRange leftKey rightKey kvPairs =>
      exact scanStart_proceeds sound holds phase rfl rfl onWay here upTo rfl embodies rising

end Steps

end IndexResearch.BLinkTree
