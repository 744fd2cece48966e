import Mathlib.Tactic

/-!
# Chains of linked elements

A list whose elements name their successors, and the search along it for the first
element that stops.
-/

namespace IndexResearch

open List

universe u v

variable {Item : Type u} {Name : Type v}

def focus (stops : Item → Bool) : List Item → Option (List Item × Item × List Item)
  | [] => none
  | item :: rest =>
    if stops item then some ([], item, rest)
    else (focus stops rest).map fun found => (item :: found.1, found.2)

variable {stops : Item → Bool} {item : Item} {name : Item → Name} {link : Item → Option Name}
  {last : Option Name}

theorem focus_eq_some {items before after : List Item} :
    focus stops items = some (before, item, after) ↔
      items = before ++ item :: after ∧ (∀ other ∈ before, stops other = false) ∧
        stops item = true := by
  induction items generalizing before with
  | nil => simp [focus]
  | cons head rest ih =>
    rw [focus]
    by_cases here : stops head = true
    · rw [if_pos here]
      cases before with
      | nil =>
        simp only [Option.some.injEq, Prod.mk.injEq, true_and, nil_append, List.cons.injEq,
          not_mem_nil, false_implies, implies_true]
        constructor
        · rintro ⟨rfl, rfl⟩
          exact ⟨⟨rfl, rfl⟩, here⟩
        · exact fun split => split.1
      | cons first others =>
        simp only [Option.some.injEq, Prod.mk.injEq, cons_append, List.cons.injEq]
        constructor
        · exact fun split => absurd split.1 nofun
        · rintro ⟨⟨rfl, _⟩, passed, _⟩
          exact absurd (here.symm.trans (passed head mem_cons_self)) nofun
    · rw [if_neg here]
      cases before with
      | nil =>
        constructor
        · intro found
          obtain ⟨_, _, split⟩ := Option.map_eq_some_iff.mp found
          exact absurd (congrArg Prod.fst split) nofun
        · rintro ⟨split, _, stop⟩
          cases split
          exact absurd stop here
      | cons first others =>
        constructor
        · intro found
          obtain ⟨⟨front, other, back⟩, later, split⟩ := Option.map_eq_some_iff.mp found
          obtain ⟨⟨rfl, rfl⟩, rfl, rfl⟩ :
              (head = first ∧ front = others) ∧ other = item ∧ back = after := by
            simpa using split
          obtain ⟨rfl, passed, stop⟩ := ih.mp later
          refine ⟨rfl, ?_, stop⟩
          rintro other (_ | ⟨_, listed⟩)
          · exact eq_false_of_ne_true here
          · exact passed other listed
        · rintro ⟨split, passed, stop⟩
          obtain ⟨rfl, rest⟩ := List.cons.inj split
          rw [ih.mpr
            ⟨rest, fun other listed => passed other (mem_cons_of_mem head listed), stop⟩]
          rfl

theorem exists_focus {items : List Item} (listed : item ∈ items) (stop : stops item = true) :
    ∃ before found after, focus stops items = some (before, found, after) := by
  induction items with
  | nil => exact absurd listed not_mem_nil
  | cons head rest ih =>
    rw [focus]
    by_cases here : stops head = true
    · exact ⟨[], head, rest, if_pos here⟩
    · have later : item ∈ rest := by
        rcases mem_cons.mp listed with rfl | later
        · exact absurd stop here
        · exact later
      obtain ⟨before, found, after, result⟩ := ih later
      rw [if_neg here, result]
      exact ⟨head :: before, found, after, rfl⟩

theorem forall₂_append_split {Other : Type v} {Related : Item → Other → Prop}
    {left right : List Item} {others : List Other}
    (related : List.Forall₂ Related (left ++ right) others) :
    ∃ left' right', others = left' ++ right' ∧ List.Forall₂ Related left left' ∧
      List.Forall₂ Related right right' := by
  refine ⟨others.take left.length, others.drop left.length,
    (take_append_drop left.length others).symm, ?_, ?_⟩
  · have front := forall₂_take left.length related
    rwa [take_left] at front
  · have back := forall₂_drop left.length related
    rwa [drop_left] at back

theorem focus_forall₂ {Other : Type v} {Related : Item → Other → Prop}
    {stops' : Other → Bool} {items : List Item} {others left right : List Other} {other : Other}
    (agree : ∀ item other, Related item other → stops item = stops' other)
    (related : List.Forall₂ Related items others)
    (found : focus stops' others = some (left, other, right)) :
    ∃ before item after, focus stops items = some (before, item, after) ∧
      List.Forall₂ Related before left ∧ Related item other ∧ List.Forall₂ Related after right := by
  induction related generalizing left with
  | nil => cases found
  | @cons head head' rest rest' here later ih =>
    rw [focus] at found ⊢
    rw [agree head head' here]
    split at found
    · rename_i stop
      obtain ⟨rfl, rfl, rfl⟩ : [] = left ∧ head' = other ∧ rest' = right := by simpa using found
      exact ⟨[], head, rest, if_pos stop, .nil, here, later⟩
    · rename_i passed
      obtain ⟨⟨front, _, _⟩, foundLater, split⟩ := Option.map_eq_some_iff.mp found
      obtain ⟨rfl, rfl, rfl⟩ : head' :: front = left ∧ _ = other ∧ _ = right := by simpa using split
      obtain ⟨before, item, after, result, beforeRelated, itemRelated, afterRelated⟩ :=
        ih foundLater
      rw [if_neg passed, result]
      exact ⟨head :: before, item, after, rfl, .cons here beforeRelated, itemRelated, afterRelated⟩

/-- Every element links to its successor, and the last one to `last`. -/
def Linked (name : Item → Name) (link : Item → Option Name) (last : Option Name) : List Item → Prop
  | [] => True
  | item :: rest => link item = (rest.head?.map name).or last ∧ Linked name link last rest

theorem linked_append {left right : List Item} :
    Linked name link last (left ++ right) ↔
      Linked name link ((right.head?.map name).or last) left ∧ Linked name link last right := by
  induction left with
  | nil => simp [Linked]
  | cons item rest ih =>
    have head : ((rest ++ right).head?.map name).or last =
        (rest.head?.map name).or ((right.head?.map name).or last) := by
      cases rest with
      | nil => rfl
      | cons => rfl
    rw [cons_append, Linked, Linked, ih, head, and_assoc]

theorem Linked.link_eq_none {before after : List Item}
    (linked : Linked name link none (before ++ item :: after)) :
    link item = none ↔ after = [] := by
  rw [linked_append, Linked] at linked
  rw [linked.2.1]
  cases after with
  | nil => simp
  | cons => simp

theorem Linked.patch
    {before old new after : List Item} (linked : Linked name link last (before ++ (old ++ after)))
    (newNonempty : new ≠ []) (heads : new.head?.map name = old.head?.map name)
    (newLinked : Linked name link ((after.head?.map name).or last) new) :
    Linked name link last (before ++ (new ++ after)) := by
  rw [linked_append, linked_append] at linked ⊢
  obtain ⟨first, newRest, rfl⟩ := exists_cons_of_ne_nil newNonempty
  obtain ⟨oldFirst, oldRest, rfl⟩ : ∃ oldFirst oldRest, old = oldFirst :: oldRest := by
    cases old with
    | nil => cases heads
    | cons oldFirst oldRest => exact ⟨oldFirst, oldRest, rfl⟩
  have sameName : name first = name oldFirst := by simpa using heads
  refine ⟨?_, newLinked, linked.2.2⟩
  simpa [sameName] using linked.1

/-- An element may be exchanged for a chain that begins with its name and ends with its
link. -/
theorem Linked.exchange {before others after : List Item}
    (linked : Linked name link last (before ++ item :: after)) (nonempty : others ≠ [])
    (head_eq : others.head?.map name = some (name item))
    (chain : Linked name link (link item) others) :
    Linked name link last (before ++ (others ++ after)) := by
  have split : Linked name link last (before ++ ([item] ++ after)) := linked
  rw [linked_append, Linked] at linked
  rw [linked.2.1] at chain
  exact split.patch nonempty head_eq chain

theorem nodup_exchange {front others back : List Name} {name : Name}
    (distinct : (front ++ name :: back).Nodup) (othersDistinct : others.Nodup)
    (new : ∀ other ∈ others, other = name ∨ other ∉ front ++ name :: back) :
    (front ++ (others ++ back)).Nodup := by
  rw [nodup_append, nodup_cons] at distinct
  obtain ⟨frontDistinct, ⟨notBack, backDistinct⟩, apart⟩ := distinct
  rw [nodup_append, nodup_append]
  refine ⟨frontDistinct, ⟨othersDistinct, backDistinct, ?_⟩, ?_⟩
  · rintro other listed _ backListed rfl
    rcases new other listed with rfl | absent
    · exact notBack backListed
    · exact absent (mem_append_right _ (mem_cons_of_mem _ backListed))
  · rintro other listed _ later rfl
    rcases mem_append.mp later with inOthers | inBack
    · rcases new other inOthers with rfl | absent
      · exact apart other listed other mem_cons_self rfl
      · exact absent (mem_append_left _ listed)
    · exact apart other listed other (mem_cons_of_mem _ inBack) rfl

end IndexResearch
