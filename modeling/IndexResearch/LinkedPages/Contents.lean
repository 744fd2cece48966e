import IndexResearch.LinkedPages
import IndexResearch.OrderedMap

/-!
# What linked pages hold

The leaves of linked pages hold the entries of an ordered map, each those between its
edges.  A chain of leaves holds a stretch of the map.
-/

namespace IndexResearch.LinkedPages.Outline

open List

variable {Name K V : Type} [LinearOrder K] {outline : Outline Name K V} {name other : Name}
  {page page' : Page Name K V} {height : Nat} {low : Edge K} {key : K}

theorem Ordered.le_bound (ordered : outline.Ordered name page) {bound : WithTop K}
    (listed : bound ∈ page.bounds) : bound ≤ page.bound := by
  cases link : page.link with
  | none =>
    rw [Page.bound_of_link_none link]
    exact le_top
  | some next =>
    exact ordered.ascending_bounds.le_getLast (ordered.bound_mem link) bound listed

theorem WellFormed.eq_of_between (formed : outline.WellFormed) {place : Edge K}
    (here : outline.page name = some page) (there : outline.page other = some page')
    (sameHeight : outline.height name = outline.height other)
    (above : outline.low name < place) (upTo : place ≤ page.bound)
    (above' : outline.low other < place) (upTo' : place ≤ page'.bound) : name = other := by
  by_contra different
  rcases formed.apart name page other page' here there different sameHeight with before | behind
  · exact absurd (lt_of_le_of_lt (upTo.trans before) above') (lt_irrefl _)
  · exact absurd (lt_of_le_of_lt (upTo'.trans behind) above) (lt_irrefl _)

theorem WellFormed.link_inj (formed : outline.WellFormed) {next : Name}
    (here : outline.page name = some page) (link : page.link = some next)
    (there : outline.page other = some page') (link' : page'.link = some next) : name = other := by
  obtain ⟨_, heightEq, lowEq⟩ := formed.linked name page next here link
  obtain ⟨_, heightEq', lowEq'⟩ := formed.linked other page' next there link'
  have boundEq : (page.bound : Edge K) = page'.bound := lowEq.symm.trans lowEq'
  refine formed.eq_of_between here there (heightEq.symm.trans heightEq')
    (formed.proper name page here) le_rfl ?_ (le_of_eq boundEq)
  rw [boundEq]
  exact formed.proper other page' there

def Holds (outline : Outline Name K V) (map : OrderedMap K V) : Prop :=
  ∀ entry, entry ∈ map.entries ↔ ∃ name page, outline.page name = some page ∧ entry ∈ page.entries

def within (map : OrderedMap K V) (low high : Edge K) : List (K × V) :=
  map.entries.filter fun entry => decide
    (low < (entry.1 : WithTop K) ∧ ↑(entry.1 : WithTop K) ≤ high)

variable {map : OrderedMap K V} {names : List Name}

theorem mem_within {high : Edge K} {entry : K × V} :
    entry ∈ within map low high ↔
      entry ∈ map.entries ∧ low < (entry.1 : WithTop K) ∧ ↑(entry.1 : WithTop K) ≤ high := by
  rw [within, mem_filter, decide_eq_true_iff]

theorem ascending_within {high : Edge K} :
    Ascending Prod.fst (within map low high) := map.ascending.filter _

theorem Ordered.of_entry (ordered : outline.Ordered name page) {entry : K × V}
    (listed : entry ∈ page.entries) : outline.height name = 0 ∧
    outline.low name < (entry.1 : WithTop K) ∧
      (entry.1 : WithTop K) ≤ page.bound := by
  cases ordered with
  | inner | seed => cases listed
  | leaf bottom rising above filled =>
    refine ⟨bottom, above entry listed, ?_⟩
    exact (Ordered.leaf bottom rising above filled).le_bound (mem_map_of_mem listed)

section Map

variable {map map' : OrderedMap K V}

theorem Holds.entries_eq (holds : outline.Holds map) (formed : outline.WellFormed)
    (here : outline.page name = some page) (bottom : outline.height name = 0) :
    page.entries = within map (outline.low name) page.bound := by
  have ordered := formed.ordered name page here
  have rising : Ascending Prod.fst page.entries := by
    cases ordered with
    | leaf _ rising => exact rising
    | inner | seed => exact .nil
  refine rising.eq_of_mem_iff ascending_within fun entry => ?_
  rw [mem_within]
  constructor
  · intro listed
    exact ⟨(holds entry).mpr ⟨name, page, here, listed⟩, (ordered.of_entry listed).2.1,
      WithBot.coe_le_coe.mpr (ordered.of_entry listed).2.2⟩
  · rintro ⟨listed, above, upTo⟩
    obtain ⟨other, found, there, inPage⟩ := (holds entry).mp listed
    obtain ⟨bottom', above', upTo'⟩ := (formed.ordered other found there).of_entry inPage
    obtain rfl := formed.eq_of_between here there (bottom.trans bottom'.symm) above upTo above'
      (WithBot.coe_le_coe.mpr upTo')
    cases here.symm.trans there
    exact inPage

theorem Holds.findKey_eq (holds : outline.Holds map) (formed : outline.WellFormed)
    (here : outline.page name = some page) (bottom : outline.height name = 0)
    (above : outline.low name < (key : WithTop K)) (upTo : (key : WithTop K) ≤ page.bound) :
    findKey Prod.fst map.entries key = findKey Prod.fst page.entries key := by
  rw [holds.entries_eq formed here bottom]
  apply Option.ext
  intro entry
  rw [map.ascending.findKey_eq_some, ascending_within.findKey_eq_some, mem_within]
  constructor
  · rintro ⟨listed, rfl⟩
    exact ⟨⟨listed, above, WithBot.coe_le_coe.mpr upTo⟩, rfl⟩
  · rintro ⟨⟨listed, _⟩, same⟩
    exact ⟨listed, same⟩

theorem Holds.of_grounded (holds : outline.Holds map) (grounded : outline.Grounded key) :
    ∃ entry ∈ map.entries, entry.1 = key := by
  obtain ⟨name, page, stored, entry, listed, same⟩ := grounded
  exact ⟨entry, (holds entry).mpr ⟨name, page, stored, listed⟩, same⟩

theorem WellFormed.not_mem_entries (formed : outline.WellFormed)
    (here : outline.page name = some page) (there : outline.page other = some page')
    (different : other ≠ name) {entry : K × V} (listed : entry ∈ page'.entries) :
    entry ∉ page.entries := by
  intro listed'
  obtain ⟨bottom, above, upTo⟩ := (formed.ordered name page here).of_entry listed'
  obtain ⟨bottom', above', upTo'⟩ := (formed.ordered other page' there).of_entry listed
  exact different (formed.eq_of_between there here (bottom'.trans bottom.symm) above'
    (WithBot.coe_le_coe.mpr upTo') above (WithBot.coe_le_coe.mpr upTo))

variable [DecidableEq Name] {new : Name} {lower upper : Page Name K V}

theorem Holds.set (holds : outline.Holds map) (formed : outline.WellFormed)
    (here : outline.page name = some page) (changes : ∀ entry, entry ∈ map'.entries ↔
      entry ∈ page'.entries ∨ (entry ∈ map.entries ∧ entry ∉ page.entries)) :
    (outline.set name page').Holds map' := by
  intro entry
  rw [changes]
  constructor
  · rintro (new | ⟨old, notHere⟩)
    · exact ⟨name, page', set_self, new⟩
    · obtain ⟨other, found, there, listed⟩ := (holds entry).mp old
      refine ⟨other, found, ?_, listed⟩
      rw [set_of_ne, there]
      rintro rfl
      cases here.symm.trans there
      exact notHere listed
  · rintro ⟨other, found, there, listed⟩
    by_cases same : other = name
    · subst same
      rw [set_self] at there
      cases there
      exact .inl listed
    · rw [set_of_ne same] at there
      exact .inr ⟨(holds entry).mpr ⟨other, found, there, listed⟩,
        formed.not_mem_entries here there same listed⟩

theorem Holds.split (holds : outline.Holds map) (formed : outline.WellFormed)
    (here : outline.page name = some page) (fresh : outline.page new = none)
    (changes : ∀ entry, entry ∈ map'.entries ↔ entry ∈ lower.entries ++ upper.entries ∨
      (entry ∈ map.entries ∧ entry ∉ page.entries)) :
    (outline.split name lower new upper).Holds map' := by
  intro entry
  rw [changes]
  constructor
  · rintro (moved | ⟨old, notHere⟩)
    · rcases mem_append.mp moved with inLower | inUpper
      · exact ⟨name, lower, split_lower here fresh, inLower⟩
      · exact ⟨new, upper, split_upper, inUpper⟩
    · obtain ⟨other, found, there, listed⟩ := (holds entry).mp old
      refine ⟨other, found, ?_, listed⟩
      rw [split_of_ne ?_ (ne_of_stored (by rw [there]; rfl) fresh), there]
      rintro rfl
      cases here.symm.trans there
      exact notHere listed
  · rintro ⟨other, found, there, listed⟩
    rcases split_cases here fresh there with ⟨rfl, rfl⟩ | ⟨rfl, rfl⟩ | ⟨notName, _, old⟩
    · exact .inl (mem_append_left _ listed)
    · exact .inl (mem_append_right _ listed)
    · exact .inr ⟨(holds entry).mpr ⟨other, found, old, listed⟩,
        formed.not_mem_entries here old notName listed⟩

theorem Holds.sprout (holds : outline.Holds map) (fresh : outline.page new = none)
    (empty : page.entries = []) : (outline.add new height low page).Holds map := by
  intro entry
  rw [holds]
  constructor
  · rintro ⟨other, found, there, listed⟩
    exact ⟨other, found, by rwa [(add_of_ne (ne_of_stored (by rw [there]; rfl) fresh)).1], listed⟩
  · rintro ⟨other, found, there, listed⟩
    rcases add_cases there with ⟨_, rfl⟩ | ⟨_, old⟩
    · rw [empty] at listed
      cases listed
    · exact ⟨other, found, old, listed⟩

end Map

/-! ## Chains of leaves -/

def Chained (outline : Outline Name K V) : List Name → Prop
  | next :: name :: rest =>
    (∃ page, outline.page name = some page ∧ page.link = some next) ∧
      outline.Chained (name :: rest)
  | _ => True

def entriesAt (outline : Outline Name K V) (name : Name) : List (K × V) :=
  ((outline.page name).map Page.entries).getD []

/-- A chain of leaves holds what the map has from the low edge of the first leaf to the bound
of the last one. -/
theorem Holds.chain_eq (holds : outline.Holds map) (formed : outline.WellFormed) {first : Name}
    (here : outline.page name = some page) (bottom : outline.height name = 0)
    (chained : outline.Chained (name :: names)) (firstEq : (name :: names).getLast? = some first) :
    (name :: names).reverse.flatMap outline.entriesAt = within map (outline.low first) page.bound ∧
      outline.low first ≤ outline.low name := by
  have entriesHere : outline.entriesAt name = within map (outline.low name) page.bound := by
    rw [entriesAt, here]
    exact holds.entries_eq formed here bottom
  induction names generalizing name page with
  | nil =>
    obtain rfl : name = first := Option.some.inj firstEq
    refine ⟨?_, le_rfl⟩
    rw [reverse_singleton, flatMap_singleton, entriesHere]
  | cons before rest ih =>
    obtain ⟨⟨page', there, link⟩, chainedRest⟩ := chained
    obtain ⟨_, heightEq, lowEq⟩ := formed.linked before page' name there link
    have bottom' : outline.height before = 0 := heightEq.symm.trans bottom
    rw [getLast?_cons_cons] at firstEq
    obtain ⟨earlier, lowLe⟩ := ih there bottom' chainedRest firstEq (by
      rw [entriesAt, there]
      exact holds.entries_eq formed there bottom')
    have proper := formed.proper before page' there
    have proper' := formed.proper name page here
    rw [← lowEq] at proper
    refine ⟨?_, lowLe.trans proper.le⟩
    rw [reverse_cons, flatMap_append, earlier, flatMap_singleton, entriesHere,
      ← lowEq]
    apply map.ascending.filter_append
    · intro left _ right _ leftWithin rightWithin
      have between := lt_of_le_of_lt (of_decide_eq_true leftWithin).2
        (of_decide_eq_true rightWithin).1
      exact WithTop.coe_lt_coe.mp (WithBot.coe_lt_coe.mp between)
    · intro entry _
      simp only [decide_eq_true_iff]
      constructor
      · rintro ⟨above, upTo⟩
        rcases lt_or_ge (outline.low name) ↑(entry.1 : WithTop K) with behind | upToName
        · exact .inr ⟨behind, upTo⟩
        · exact .inl ⟨above, upToName⟩
      · rintro (⟨above, upTo⟩ | ⟨above, upTo⟩)
        · exact ⟨above, upTo.trans proper'.le⟩
        · exact ⟨lt_of_le_of_lt (lowLe.trans proper.le) above, upTo⟩

theorem Holds.entriesFrom_eq (holds : outline.Holds map)
    (formed : outline.WellFormed) {first : Name}
    (here : outline.page name = some page) (bottom : outline.height name = 0)
    (chained : outline.Chained (name :: names)) (firstEq : (name :: names).getLast? = some first)
    (above : outline.low first < (key : WithTop K)) (upTo : (key : WithTop K) ≤ page.bound) :
    map.entriesFrom key =
      ((name :: names).reverse.flatMap outline.entriesAt).filter
      (fun entry => decide (key ≤ entry.1)) ++
        map.entries.filter (fun entry => decide (page.bound < (entry.1 : WithTop K))) := by
  rw [(holds.chain_eq formed here bottom chained firstEq).1, within, filter_filter,
    OrderedMap.entriesFrom]
  symm
  apply map.ascending.filter_append
  · intro left _ right _ leftWithin rightWithin
    rw [Bool.and_eq_true, decide_eq_true_iff, decide_eq_true_iff] at leftWithin
    have upToBound := WithBot.coe_le_coe.mp leftWithin.2.2
    exact WithTop.coe_lt_coe.mp (lt_of_le_of_lt upToBound (of_decide_eq_true rightWithin))
  · intro entry _
    simp only [Bool.and_eq_true, decide_eq_true_iff]
    constructor
    · intro from_
      rcases lt_or_ge page.bound (entry.1 : WithTop K) with behind | inside
      · exact .inr behind
      · refine .inl ⟨from_, lt_of_lt_of_le above ?_, WithBot.coe_le_coe.mpr inside⟩
        exact WithBot.coe_le_coe.mpr (WithTop.coe_le_coe.mpr from_)
    · rintro (⟨from_, _⟩ | behind)
      · exact from_
      · exact WithTop.coe_le_coe.mp (upTo.trans behind.le)

theorem WellFormed.chain_low (formed : outline.WellFormed)
    (chained : outline.Chained (name :: names)) : ∀ other ∈ names,
    outline.low other < outline.low name := by
  induction names generalizing name with
  | nil => simp
  | cons before rest ih =>
    obtain ⟨⟨page, stored, link⟩, chainedRest⟩ := chained
    obtain ⟨_, _, lowEq⟩ := formed.linked before page name stored link
    have step : outline.low before < outline.low name := by
      rw [lowEq]
      exact formed.proper before page stored
    intro other listed
    rcases mem_cons.mp listed with rfl | later
    · exact step
    · exact lt_trans (ih chainedRest other later) step

theorem WellFormed.chain_height (formed : outline.WellFormed)
    (chained : outline.Chained (name :: names)) :
    ∀ other ∈ names, outline.height other = outline.height name := by
  induction names generalizing name with
  | nil => simp
  | cons before rest ih =>
    obtain ⟨⟨page, stored, link⟩, chainedRest⟩ := chained
    obtain ⟨_, heightEq, _⟩ := formed.linked before page name stored link
    intro other listed
    rcases mem_cons.mp listed with rfl | later
    · exact heightEq.symm
    · exact (ih chainedRest other later).trans heightEq.symm

theorem WellFormed.chain_nodup (formed : outline.WellFormed)
    (chained : outline.Chained names) : names.Nodup := by
  induction names with
  | nil => exact nodup_nil
  | cons name rest ih =>
    refine nodup_cons.mpr ⟨?_, ih ?_⟩
    · exact fun listed => lt_irrefl _ (formed.chain_low chained name listed)
    · cases rest with
      | nil => trivial
      | cons => exact chained.2

end IndexResearch.LinkedPages.Outline
