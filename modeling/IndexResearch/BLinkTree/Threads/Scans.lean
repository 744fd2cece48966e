import IndexResearch.BLinkTree.Threads.Changes

/-!
# Scans among other threads

A scan keeps the latches of all its leaves until it ends.  So what it has appended is what
the leaves hold at its end, and this is what the map holds.
-/

namespace IndexResearch.BLinkTree

open LinkedPages List

variable {Thread K V : Type} [LinearOrder K] {params : Parameters} {outline : Outline Ptr K V}
  {state : State Thread K V} {thread : Thread} {map : OrderedMap K V} {operation : Operation K V}
  {current : Ptr} {rest : List Ptr} {index scanned : Nat} {kvPairs initial : List (K × V)}

theorem Operation.apply_scan (scan : operation.kvPairs = some initial) :
    Operation.apply map operation = (.pairs (!(map.entriesFrom operation.key).isEmpty)
      (initial ++ operation.cutAt 0 (map.entriesFrom operation.key)), map) := by
  cases operation with
  | scanFixed =>
    cases scan
    rfl
  | scanRange =>
    cases scan
    rw [Operation.apply, OrderedMap.entriesBetween_eq]
    rfl
  | _ => cases scan

theorem Operation.cutAt_nil (operation : Operation K V) (scanned : Nat) :
    operation.cutAt scanned [] = [] := by
  cases operation <;> simp [Operation.cutAt]

/-- A scan appends what it takes of the entries of a leaf.  If it ends there, it takes
nothing more; if not, it has taken all of them. -/
theorem scanLeaf_spec {size : Nat} {node : BLinkNode K V} {entries : List (K × V)} {sibling : Ptr}
    (isLeaf : node.IsLeaf size entries sibling) (bounded : index ≤ entries.length)
    (scan : operation.kvPairs = some initial) (scanned : Nat) (kvPairs : List (K × V)) :
    ∃ ended scanned', scanLeaf node index scanned kvPairs operation =
        .ok (ended, scanned', kvPairs ++ operation.cutAt scanned (entries.drop index)) ∧
      (ended = true → ∀ tail, operation.cutAt scanned (entries.drop index ++ tail) =
        operation.cutAt scanned (entries.drop index)) ∧
      (ended = false → ∀ tail, operation.cutAt scanned (entries.drop index ++ tail) =
        entries.drop index ++ operation.cutAt scanned' tail) := by
  have counted : index + (node.itemCnt - index) = entries.length := by
    rw [isLeaf.itemCnt_eq, length_map]
    omega
  have dropLength : (entries.drop index).length = node.itemCnt - index := by
    rw [length_drop]
    omega
  cases operation with
  | scanFixed leftKey scanSz pairs =>
    by_cases short : scanned < scanSz
    · refine ⟨decide (scanSz ≤ scanned + min (node.itemCnt - index) (scanSz - scanned)),
        scanned + min (node.itemCnt - index) (scanSz - scanned), ?_, ?_, ?_⟩
      · rw [scanLeaf, if_pos short, isLeaf.takeEntries_eq counted short]
        rfl
      · intro ended tail
        have enough := of_decide_eq_true ended
        exact take_append_of_le_length (by omega)
      · intro more tail
        have missing := of_decide_eq_false more
        simp only [Operation.cutAt]
        rw [take_append, take_of_length_le (by omega), dropLength]
        congr 2
        omega
    · have none : scanSz - scanned = 0 := by omega
      refine ⟨true, scanned, ?_, ?_, by simp⟩
      · rw [scanLeaf, if_neg short]
        simp only [Operation.cutAt, none, take_zero, append_nil]
      · intro _ tail
        simp only [Operation.cutAt, none, take_zero]
  | scanRange leftKey rightKey pairs =>
    refine ⟨!(entries.drop index).all fun entry => decide (entry.1 < rightKey), scanned, ?_, ?_, ?_⟩
    · rw [scanLeaf, isLeaf.takeBelow_eq rightKey counted]
      rfl
    · intro ended tail
      simp only [Operation.cutAt]
      rw [takeWhile_append, if_neg]
      intro sameLength
      have whole := (List.takeWhile_prefix _).eq_of_length sameLength
      rw [takeWhile_eq_self_iff] at whole
      rw [Bool.not_eq_true', all_eq_false] at ended
      obtain ⟨entry, listed, fails⟩ := ended
      exact fails (whole entry listed)
    · intro more tail
      rw [Bool.not_eq_false', all_eq_true] at more
      simp only [Operation.cutAt]
      exact takeWhile_append_of_pos more
  | _ => cases scan

theorem found_cons (key : K) :
    found outline key (current :: rest) = found outline key rest ++ found outline key [current]:= by
  simp [found]

theorem found_singleton (key : K) : found outline key [current] =
    (outline.entriesAt current).filter fun entry => decide (key ≤ entry.1) := by
  simp [found]

theorem Scans.apply_eq {page : Page Ptr K V} (scans : Scans outline operation current rest)
    (gathers : Gathers outline operation rest scanned kvPairs) (formed : outline.WellFormed)
    (holds : outline.Holds map) (here : outline.page current = some page)
    (done : ∀ tail, (page.link = none → tail = []) →
      operation.cutAt scanned (found outline operation.key [current] ++ tail) =
        operation.cutAt scanned (found outline operation.key [current])) :
    Operation.apply map operation =
      (.pairs true (kvPairs ++ operation.cutAt scanned (found outline operation.key [current])),
        map) := by
  obtain ⟨initial, scan, pairsEq⟩ := gathers.kvPairs_eq
  obtain ⟨first, firstEq, above⟩ := scans.start
  obtain ⟨page', here', upTo⟩ := scans.inside
  cases here.symm.trans here'
  have whole : map.entriesFrom operation.key = found outline operation.key (current :: rest) ++ _ :=
    holds.entriesFrom_eq formed here scans.bottom scans.chained firstEq above upTo
  have notEmpty : (map.entriesFrom operation.key).isEmpty = false := by
    rw [whole, isEmpty_eq_false_iff]
    exact append_ne_nil_of_left_ne_nil scans.filled _
  rw [Operation.apply_scan scan, notEmpty, whole, found_cons, append_assoc, gathers.goesOn,
    done, pairsEq, append_assoc]
  · rfl
  · intro last
    rw [Page.bound_of_link_none last]
    simp

section Steps

variable [DecidableEq Thread]

omit [DecidableEq Thread] in
theorem Sound.exists_leaf (sound : Sound params outline state) {page : Page Ptr K V}
    (here : outline.page current = some page) (bottom : outline.height current = 0) :
    ∃ node leaf, state.tree.nodeAt current = .ok node ∧ state.tree.nodes current = some node ∧
      page = .leaf leaf.entries leaf.link ∧ node.Embodies params.leafNodeSize leaf ∧
      Ascending Prod.fst leaf.entries ∧ outline.Ordered current page := by
  obtain ⟨node, nodeEq, stored, shows_, ordered⟩ := sound.exists_node here
  cases shows_ with
  | @leaf leaf embodies =>
    refine ⟨node, leaf, nodeEq, stored, rfl, embodies, ?_, ordered⟩
    cases ordered with
    | leaf _ rising => exact rising
  | inner | seed =>
    obtain ⟨height, upper⟩ := ordered.exists_height
    omega

variable (sound : Sound params outline state) (holds : outline.Holds map)
  {scanStack stack : List Ptr}
include sound holds

theorem scanRound_proceeds
    (phase : state.phases thread = .scanning operation scanStack index scanned kvPairs) :
    Proceeds params map state thread (do
      let phase ← scanRound state.tree operation scanStack index scanned kvPairs
      return (state.tree, phase)) := by
  have knows := sound.knows thread
  rw [phase] at knows
  obtain ⟨current, rest, rfl, scans, gathers, bounded, dropEq⟩ := knows
  change Scans outline operation current rest at scans
  change Gathers outline operation rest scanned kvPairs at gathers
  obtain ⟨page, here, upTo⟩ := scans.inside
  obtain ⟨node, leaf, nodeEq, _, rfl, embodies, _, _⟩ := sound.exists_leaf here scans.bottom
  obtain ⟨initial, scan, _⟩ := gathers.kvPairs_eq
  have entriesEq : outline.entriesAt current = leaf.entries := by
    rw [Outline.entriesAt, here]
    rfl
  change index ≤ (outline.entriesAt current).length at bounded
  change (outline.entriesAt current).drop index = found outline operation.key [current] at dropEq
  rw [entriesEq] at bounded dropEq
  have plain : (Phase.scanning operation (current :: rest) index scanned kvPairs).Plain :=
    fun _ => ⟨rfl, rfl, rfl⟩
  obtain ⟨ended, scanned', scannedEq, atEnd, goesOn⟩ :=
    scanLeaf_spec embodies.toIsLeaf bounded scan scanned kvPairs
  rw [dropEq] at scannedEq atEnd goesOn
  have nodup := sound.wellFormed.chain_nodup scans.chained
  have sibling : node.siblingPtr = leaf.link.getD nullptr := embodies.sibling_eq
  have ends : (∀ tail, (leaf.link = none → tail = []) →
      operation.cutAt scanned (found outline operation.key [current] ++ tail) =
        operation.cutAt scanned (found outline operation.key [current])) →
      (ended ∨ node.siblingPtr = nullptr) → Proceeds params map state thread (do
        let phase ← scanRound state.tree operation (current :: rest) index scanned kvPairs
        return (state.tree, phase)) := by
    intro done stops
    refine .think sound holds (.finishing (.pairs true (kvPairs ++
      operation.cutAt scanned (found outline operation.key [current]))) .shared (current :: rest))
      phase plain ?_ (fun _ => ⟨rfl, rfl, rfl⟩) rfl nodup
      (.effect (scans.apply_eq gathers sound.wellFormed holds here done))
    rw [scanRound, nodeEq]
    simp only [ok_bind, scannedEq, if_pos stops]
    rfl
  cases ended with
  | true => exact ends (fun tail _ => atEnd rfl tail) (.inl rfl)
  | false =>
    cases link : leaf.link with
    | none =>
      refine ends (fun tail last => ?_) (.inr ?_)
      · rw [last link, append_nil]
      · rw [sibling, link]
        rfl
    | some next =>
      have siblingEq : node.siblingPtr = next := by
        rw [sibling, link]
        rfl
      have notNull : next ≠ nullptr := fun null => embodies.link_ne (by rw [link, null])
      have taken : operation.cutAt scanned (found outline operation.key [current]) =
          found outline operation.key [current] := by
        have whole := goesOn rfl []
        rwa [append_nil, operation.cutAt_nil, append_nil] at whole
      have held : (current, Mode.shared) ∈ (state.phases thread).held := by
        rw [phase]
        exact mem_cons_self
      have isPublic := sound.link_public here link (mem_claims_of_held held) (by
        rw [phase]
        exact not_mem_nil)
      refine .think sound holds (.scanNext operation (current :: rest) next scanned'
        (kvPairs ++ operation.cutAt scanned (found outline operation.key [current]))) phase plain ?_
        (fun _ => ⟨rfl, rfl, rfl⟩) rfl
        ⟨current, rest, rfl, scans, ⟨⟨initial, scan, ?_⟩, ?_⟩, isPublic, _, here, link⟩ .rest
      · rw [scanRound, nodeEq]
        simp only [ok_bind, scannedEq, siblingEq]
        rw [if_neg (by simp [notNull])]
        rfl
      · obtain ⟨initial', scan', pairsEq⟩ := gathers.kvPairs_eq
        cases scan.symm.trans scan'
        rw [taken, pairsEq, append_assoc]
        exact congrArg (initial ++ ·) (found_cons _).symm
      · intro tail
        change operation.cutAt 0 (found outline operation.key (current :: rest) ++ tail) =
          found outline operation.key (current :: rest) ++ _
        rw [found_cons, append_assoc, gathers.goesOn, goesOn rfl, append_assoc]

theorem scanStart_proceeds {page : Page Ptr K V} {leaf : Leaf K V} {node : BLinkNode K V}
    (phase : state.phases thread = .arrived operation stack current)
    (scan : operation.kvPairs = some initial) (isShared : operation.mode = .shared)
    (onWay : (state.view outline).OnWay operation.key 0 current)
    (here : outline.page current = some page) (upTo : (operation.key : WithTop K) ≤ page.bound)
    (pageEq : page = .leaf leaf.entries leaf.link)
    (embodies : node.Embodies params.leafNodeSize leaf) (rising : Ascending Prod.fst leaf.entries) :
    Proceeds params map state thread (do
      let phase ← scanStart node operation current initial
      return (state.tree, phase)) := by
  subst pageEq
  have plain : (Phase.arrived operation stack current : Phase K V).Plain := fun _ => ⟨rfl, rfl, rfl⟩
  have scannedAt := embodies.toIsLeaf.nodeScan_eq rising operation.key
  have count : node.itemCnt = leaf.entries.length := by
    rw [embodies.itemCnt_eq, length_map]
  have entriesEq : outline.entriesAt current = leaf.entries := by
    rw [Outline.entriesAt, here]
    rfl
  have foundEq : found outline operation.key [current] =
      leaf.entries.drop (rankIn Prod.fst leaf.entries operation.key) := by
    rw [found_singleton, entriesEq, rising.filter_le]
  have bounded : rankIn Prod.fst leaf.entries operation.key ≤ leaf.entries.length :=
    rankIn_le_length _ _
  by_cases last : rankIn Prod.fst leaf.entries operation.key = leaf.entries.length
  · -- all keys of the leaf are less, so it is the last one
    have noLink : leaf.link = none := by
      cases link : leaf.link with
      | none => rfl
      | some next =>
        have ordered := sound.wellFormed.ordered current _ here
        have highest := mem_of_getLast? (ordered.bound_mem link)
        obtain ⟨entry, listed, boundEq⟩ := mem_map.mp highest
        have less := rising.take_lt operation.key entry
          (by rw [last, take_length]; exact listed)
        rw [← boundEq] at upTo
        exact absurd (WithTop.coe_le_coe.mp upTo) (not_le_of_gt less)
    have noBound : Page.bound (.leaf leaf.entries leaf.link : Page Ptr K V) = ⊤ :=
      Page.bound_of_link_none noLink
    have none : map.entriesFrom operation.key = [] := by
      have whole : map.entriesFrom operation.key = found outline operation.key [current] ++ _ :=
        holds.entriesFrom_eq sound.wellFormed here onWay.height_eq trivial rfl onWay.above upTo
      rw [whole, foundEq, last, drop_length, noBound]
      simp
    refine .think sound holds (.finishing (.pairs false initial) .shared [current]) phase plain ?_
      (fun _ => ⟨rfl, rfl, rfl⟩) ?_ (nodup_singleton _) (.effect ?_)
    · rw [scanStart, scannedAt]
      simp only [ok_bind, last, count, if_true]
      rfl
    · simp only [Phase.held, isShared, map_cons, map_nil]
    · rw [Operation.apply_scan scan, none, operation.cutAt_nil, append_nil]
      rfl
  · refine .think sound holds (.scanning operation [current]
      (rankIn Prod.fst leaf.entries operation.key) 0 initial) phase plain ?_
        (fun _ => ⟨rfl, rfl, rfl⟩) ?_
      ⟨current, [], rfl, ⟨onWay.height_eq, trivial, ⟨_, here, upTo⟩, ⟨current, rfl, onWay.above⟩,
        ?_⟩, ⟨⟨initial, scan, (append_nil _).symm⟩, fun tail => rfl⟩, ?_, ?_⟩ .rest
    · rw [scanStart, scannedAt]
      simp only [ok_bind, count, if_neg last]
      rfl
    · simp only [Phase.held, isShared, map_cons, map_nil]
    · change found outline operation.key [current] ≠ []
      rw [foundEq, Ne, drop_eq_nil_iff]
      omega
    · change _ ≤ (outline.entriesAt current).length
      rwa [entriesEq]
    · change (outline.entriesAt current).drop _ = found outline operation.key [current]
      rw [entriesEq, foundEq]

end Steps

end IndexResearch.BLinkTree
