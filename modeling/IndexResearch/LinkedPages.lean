import IndexResearch.SortedList

/-!
# Pages with links

The pages of a tree whose levels are chained by links.  A page is responsible for the keys
above its low edge and up to its bound.  When it is split, the new page takes over the
upper part, and the page above is told later: the cells of an inner page lead to pages
with the right low edges, but the bound of such a page may be less than that of the cell.

No page is ever taken away, and the height and the low edge of a page never change.
-/

namespace IndexResearch.LinkedPages

open List Function

abbrev Edge (K : Type) := WithBot (WithTop K)

inductive Page (Name K V : Type) where
  | leaf (entries : List (K × V)) (link : Option Name)
  /-- The cells of an inner page are children with their upper bounds. -/
  | inner (cells : List (WithTop K × Name)) (link : Option Name)

variable {Name K V : Type}

namespace Page

def link : Page Name K V → Option Name
  | leaf _ link => link
  | inner _ link => link

def entries : Page Name K V → List (K × V)
  | leaf entries _ => entries
  | inner _ _ => []

def cells : Page Name K V → List (WithTop K × Name)
  | leaf _ _ => []
  | inner cells _ => cells

def bounds : Page Name K V → List (WithTop K)
  | leaf entries _ => entries.map fun entry => entry.1
  | inner cells _ => cells.map Prod.fst

def bound (page : Page Name K V) : WithTop K :=
  match page.link with
  | none => ⊤
  | some _ => page.bounds.getLast?.getD ⊤

theorem bound_of_link_none {page : Page Name K V} (link : page.link = none) : page.bound = ⊤ := by
  rw [bound, link]

theorem bound_of_link {page : Page Name K V} {next : Name} (link : page.link = some next) :
    page.bound = page.bounds.getLast?.getD ⊤ := by
  rw [bound, link]

end Page

structure Outline (Name K V : Type) where
  page : Name → Option (Page Name K V)
  height : Name → Nat
  /-- All keys of a page are greater. -/
  low : Name → Edge K

namespace Outline

def Grounded (outline : Outline Name K V) (key : K) : Prop :=
  ∃ name page, outline.page name = some page ∧ ∃ entry ∈ page.entries, entry.1 = key

structure Extends (outline later : Outline Name K V) : Prop where
  stored : ∀ name, (outline.page name).isSome → (later.page name).isSome
  height_eq : ∀ name, (outline.page name).isSome → later.height name = outline.height name
  low_eq : ∀ name, (outline.page name).isSome → later.low name = outline.low name
  grounded : ∀ key, outline.Grounded key → later.Grounded key

section Changes

variable [DecidableEq Name]

def set (outline : Outline Name K V) (name : Name) (page : Page Name K V) : Outline Name K V :=
  { outline with page := update outline.page name (some page) }

def add (outline : Outline Name K V) (name : Name) (height : Nat) (low : Edge K)
    (page : Page Name K V) : Outline Name K V where
  page := update outline.page name (some page)
  height := update outline.height name height
  low := update outline.low name low

/-- A page is split: `new` takes the upper part. -/
def split (outline : Outline Name K V) (name : Name) (lower : Page Name K V) (new : Name)
    (upper : Page Name K V) : Outline Name K V :=
  (outline.set name lower).add new (outline.height name) lower.bound upper

variable {outline : Outline Name K V} {name other new : Name} {page lower upper : Page Name K V}
  {height : Nat} {low : Edge K}

@[simp] theorem set_self : (outline.set name page).page name = some page :=
    update_self _ _ _

theorem set_of_ne (different : other ≠ name) :
    (outline.set name page).page other = outline.page other := update_of_ne different _ _

theorem add_of_ne (different : other ≠ new) :
    (outline.add new height low page).page other = outline.page other ∧
      (outline.add new height low page).height other = outline.height other ∧
      (outline.add new height low page).low other = outline.low other :=
  ⟨update_of_ne different _ _, update_of_ne different _ _,
    update_of_ne different _ _⟩

@[simp] theorem add_self : (outline.add new height low page).page new = some page ∧
    (outline.add new height low page).height new = height ∧
    (outline.add new height low page).low new = low :=
  ⟨update_self _ _ _, update_self _ _ _, update_self _ _ _⟩

theorem add_cases {found : Page Name K V}
    (stored : (outline.add new height low page).page other = some found) :
    (other = new ∧ found = page) ∨ (other ≠ new ∧ outline.page other = some found) := by
  by_cases isNew : other = new
  · rw [isNew, add_self.1] at stored
    exact .inl ⟨isNew, (Option.some.inj stored).symm⟩
  · rw [(add_of_ne isNew).1] at stored
    exact .inr ⟨isNew, stored⟩

omit [DecidableEq Name] in
theorem ne_of_stored (stored : (outline.page name).isSome) (fresh : outline.page new = none) :
    name ≠ new := by
  rintro rfl
  rw [fresh] at stored
  cases stored

theorem extends_set (kept : ∀ old, outline.page name = some old →
      ∀ entry ∈ old.entries, ∃ entry' ∈ page.entries, entry'.1 = entry.1) :
    outline.Extends (outline.set name page) where
  stored other stored := by
    by_cases same : other = name
    · rw [same, set_self]
      rfl
    · rwa [set_of_ne same]
  height_eq _ _ := rfl
  low_eq _ _ := rfl
  grounded := by
    rintro key ⟨other, found, stored, entry, listed, rfl⟩
    by_cases same : other = name
    · subst same
      obtain ⟨entry', listed', keyEq⟩ := kept found stored entry listed
      exact ⟨other, page, set_self, entry', listed', keyEq⟩
    · exact ⟨other, found, by rwa [set_of_ne same], entry, listed, rfl⟩

theorem extends_add (fresh : outline.page new = none) :
    outline.Extends (outline.add new height low page) where
  stored other stored := by rwa [(add_of_ne (ne_of_stored stored fresh)).1]
  height_eq other stored := (add_of_ne (ne_of_stored stored fresh)).2.1
  low_eq other stored := (add_of_ne (ne_of_stored stored fresh)).2.2
  grounded := by
    rintro key ⟨other, found, stored, rest⟩
    refine ⟨other, found, ?_, rest⟩
    rwa [(add_of_ne (ne_of_stored (by rw [stored]; rfl) fresh)).1]

theorem split_cases (here : outline.page name = some page) (fresh : outline.page new = none)
    {found : Page Name K V} (stored : (outline.split name lower new upper).page other =
      some found) : (other = name ∧ found = lower) ∨ (other = new ∧ found = upper) ∨
      (other ≠ name ∧ other ≠ new ∧ outline.page other = some found) := by
  have different : name ≠ new := ne_of_stored (by rw [here]; rfl) fresh
  by_cases isNew : other = new
  · subst isNew
    rw [split, add_self.1] at stored
    cases stored
    exact .inr (.inl ⟨rfl, rfl⟩)
  · rw [split, (add_of_ne isNew).1] at stored
    by_cases isName : other = name
    · subst isName
      rw [set_self] at stored
      cases stored
      exact .inl ⟨rfl, rfl⟩
    · rw [set_of_ne isName] at stored
      exact .inr (.inr ⟨isName, isNew, stored⟩)

theorem split_lower (here : outline.page name = some page) (fresh : outline.page new = none) :
    (outline.split name lower new upper).page name = some lower := by
  have different : name ≠ new := ne_of_stored (by rw [here]; rfl) fresh
  rw [split, (add_of_ne different).1, set_self]

theorem split_upper : (outline.split name lower new upper).page new = some upper := add_self.1

theorem split_of_ne (different : other ≠ name) (notNew : other ≠ new) :
    (outline.split name lower new upper).page other = outline.page other := by
  rw [split, (add_of_ne notNew).1, set_of_ne different]

theorem extends_split (here : outline.page name = some page) (fresh : outline.page new = none)
    (kept : ∀ entry ∈ page.entries, ∃ entry' ∈ lower.entries ++ upper.entries, entry'.1 = entry.1) :
    outline.Extends (outline.split name lower new upper) where
  stored other stored := by
    by_cases same : other = name
    · rw [same, split_lower here fresh]
      rfl
    · rwa [split_of_ne same (ne_of_stored stored fresh)]
  height_eq other stored := (add_of_ne (ne_of_stored stored fresh)).2.1
  low_eq other stored := (add_of_ne (ne_of_stored stored fresh)).2.2
  grounded := by
    rintro key ⟨other, found, stored, entry, listed, rfl⟩
    by_cases same : other = name
    · subst same
      cases here.symm.trans stored
      obtain ⟨entry', listed', keyEq⟩ := kept entry listed
      rcases mem_append.mp listed' with inLower | inUpper
      · exact ⟨other, lower, split_lower here fresh, entry', inLower, keyEq⟩
      · exact ⟨new, upper, split_upper, entry', inUpper, keyEq⟩
    · refine ⟨other, found, ?_, entry, listed, rfl⟩
      rwa [split_of_ne same (ne_of_stored (by rw [stored]; rfl) fresh)]

end Changes

section Order

variable [LinearOrder K]

/-- The cells lead to pages of one height, each of which starts where the one before it
has its bound. -/
def Hangs (outline : Outline Name K V) (height : Nat) : Edge K → List (WithTop K × Name) → Prop
  | _, [] => True
  | low, (bound, child) :: rest =>
    (outline.page child).isSome ∧ outline.height child = height ∧ outline.low child = low ∧
      low < bound ∧ outline.Hangs height bound rest

inductive Ordered (outline : Outline Name K V) (name : Name) : Page Name K V → Prop
  | leaf {entries : List (K × V)} {link : Option Name} (bottom : outline.height name = 0)
      (rising : Ascending Prod.fst entries)
      (above : ∀ entry ∈ entries, outline.low name < (entry.1 : WithTop K))
      (filled : link ≠ none → entries ≠ []) : Ordered outline name (.leaf entries link)
  | inner {cells : List (WithTop K × Name)} {link : Option Name} {height : Nat}
      (upper : outline.height name = height + 1)
        (hangs : outline.Hangs height (outline.low name) cells)
      (last : cells.getLast?.map Prod.fst = some (Page.bound (V := V) (.inner cells link))) :
      Ordered outline name (.inner cells link)
  /-- A new root. -/
  | seed {height : Nat} (upper : outline.height name = height + 1)
    (leftmost : outline.low name = ⊥) : Ordered outline name (.inner [] none)

structure WellFormed (outline : Outline Name K V) : Prop where
  ordered : ∀ name page, outline.page name = some page → outline.Ordered name page
  proper : ∀ name page, outline.page name = some page → outline.low name < page.bound
  linked : ∀ name page next, outline.page name = some page → page.link = some next →
    (outline.page next).isSome ∧ outline.height next = outline.height name ∧
      outline.low next = page.bound
  apart : ∀ name page other page', outline.page name = some page → outline.page other = some page' →
    name ≠ other → outline.height name = outline.height other →
    page.bound ≤ outline.low other ∨ page'.bound ≤ outline.low name
  grounded : ∀ name page (key : K), outline.page name = some page →
    (key : WithTop K) ∈ page.bounds → outline.Grounded key

variable {outline later : Outline Name K V} {name other child : Name} {page page' : Page Name K V}
  {height : Nat} {low : Edge K} {key : K} {cells : List (WithTop K × Name)}

/-! ## Cells -/

theorem Hangs.append {left right : List (WithTop K × Name)} :
    outline.Hangs height low (left ++ right) ↔ outline.Hangs height low left ∧
      outline.Hangs height ((left.getLast?.map fun cell => (cell.1 : Edge K)).getD low) right := by
  induction left generalizing low with
  | nil => simp [Hangs]
  | cons cell rest ih =>
    rw [cons_append, Hangs, Hangs, ih, getLast?_cons]
    cases rest.getLast? <;> simp [and_assoc]

section

variable (hangs : outline.Hangs height low cells)
include hangs

theorem Hangs.mono (extends_ : outline.Extends later) : later.Hangs height low cells := by
  induction cells generalizing low with
  | nil => trivial
  | cons cell rest ih =>
    obtain ⟨stored, height_eq, low_eq, less, hangs⟩ := hangs
    exact ⟨extends_.stored _ stored, (extends_.height_eq _ stored).trans height_eq,
      (extends_.low_eq _ stored).trans low_eq, less, ih hangs⟩

theorem Hangs.ascending : (∀ cell ∈ cells, low < (cell.1 : Edge K)) ∧ Ascending Prod.fst cells := by
  induction cells generalizing low with
  | nil => exact ⟨by simp, .nil⟩
  | cons cell rest ih =>
    obtain ⟨_, _, _, less, hangs⟩ := hangs
    obtain ⟨above, rising⟩ := ih hangs
    refine ⟨?_, ascending_cons.mpr ⟨?_, rising⟩⟩
    · intro other listed
      rcases mem_cons.mp listed with rfl | later
      · exact less
      · exact lt_trans less (above other later)
    · exact fun other listed => WithBot.coe_lt_coe.mp (above other listed)

theorem Hangs.exists_cell {last : WithTop K}
    (lastEq : cells.getLast?.map Prod.fst = some last) (above : low < (key : WithTop K))
    (upTo : (key : WithTop K) ≤ last) :
    ∃ left bound child right, cells = left ++ (bound, child) :: right ∧
      (∀ cell ∈ left, cell.1 < (key : WithTop K)) ∧ (key : WithTop K) ≤ bound ∧
      outline.height child = height ∧ outline.low child < (key : WithTop K) := by
  induction cells generalizing low with
  | nil => cases lastEq
  | cons cell rest ih =>
    obtain ⟨bound, child⟩ := cell
    obtain ⟨_, height_eq, low_eq, _, hangs⟩ := hangs
    by_cases here : (key : WithTop K) ≤ bound
    · refine ⟨[], bound, child, rest, rfl, by simp, here, height_eq, ?_⟩
      rwa [low_eq]
    · have beyond : bound < (key : WithTop K) := lt_of_not_ge here
      have restLast : rest.getLast?.map Prod.fst = some last := by
        cases rest with
        | nil =>
          cases lastEq
          exact absurd upTo here
        | cons next more => rwa [getLast?_cons_cons] at lastEq
      obtain ⟨left, found, child', right, rfl, smaller, upToFound, facts⟩ :=
        ih hangs restLast (WithBot.coe_lt_coe.mpr beyond)
      refine ⟨(bound, child) :: left, found, child', right, rfl, ?_, upToFound, facts⟩
      intro other listed
      rcases mem_cons.mp listed with rfl | later
      · exact beyond
      · exact smaller other later

end

theorem Hangs.widen {left right : List (WithTop K × Name)} {bound : WithTop K}
    (hangs : outline.Hangs height low (left ++ (bound, child) :: right))
    (smaller : ∀ cell ∈ left, cell.1 < (key : WithTop K)) (above : low < (key : WithTop K))
    (below : (key : WithTop K) < bound) (stored : (outline.page name).isSome)
    (height_eq : outline.height name = height) (low_eq : outline.low name = (key : WithTop K)) :
    outline.Hangs height low (left ++ ((key : WithTop K), child) :: (bound, name) :: right) := by
  rw [Hangs.append] at hangs ⊢
  obtain ⟨leftHangs, childStored, childHeight, childLow, _, rightHangs⟩ := hangs
  refine ⟨leftHangs, childStored, childHeight, childLow, ?_, stored, height_eq, low_eq,
    WithBot.coe_lt_coe.mpr below, rightHangs⟩
  cases lastEq : left.getLast? with
  | none => exact above
  | some cell => exact WithBot.coe_lt_coe.mpr (smaller cell (mem_of_getLast? lastEq))

theorem Ordered.mono (ordered : outline.Ordered name page) (stored : (outline.page name).isSome)
    (extends_ : outline.Extends later) : later.Ordered name page := by
  have height_eq := extends_.height_eq name stored
  have low_eq := extends_.low_eq name stored
  cases ordered with
  | leaf bottom rising above filled =>
    exact .leaf (height_eq.trans bottom) rising (by rwa [low_eq]) filled
  | inner upper hangs last =>
    refine .inner (height_eq.trans upper) ?_ last
    rw [low_eq]
    exact hangs.mono extends_
  | seed upper leftmost => exact .seed (height_eq.trans upper) (low_eq.trans leftmost)

theorem Ordered.exists_height {link : Option Name}
    (ordered : outline.Ordered name (.inner cells link)) :
    ∃ height, outline.height name = height + 1 := by
  cases ordered with
  | inner upper | seed upper => exact ⟨_, upper⟩

theorem Ordered.hangs {link : Option Name} (ordered : outline.Ordered name (.inner cells link))
    (hasCells : cells ≠ []) (upper : outline.height name = height + 1) :
    outline.Hangs height (outline.low name) cells ∧
      cells.getLast?.map Prod.fst = some (Page.bound (V := V) (.inner cells link)) := by
  cases ordered with
  | seed => exact absurd rfl hasCells
  | inner upper' hangs last =>
    cases upper'.symm.trans upper
    exact ⟨hangs, last⟩

section

variable (ordered : outline.Ordered name page)
include ordered

theorem Ordered.exists_child
    (upper : outline.height name = height + 1) (notLeftmost : outline.low name ≠ ⊥) :
    ∃ cell ∈ page.cells, (outline.page cell.2).isSome ∧ outline.height cell.2 = height ∧
      outline.low cell.2 = outline.low name := by
  cases ordered with
  | leaf bottom => omega
  | seed _ leftmost => exact absurd leftmost notLeftmost
  | @inner cells _ height' upper' hangs last =>
    cases cells with
    | nil => cases last
    | cons cell rest =>
      obtain ⟨stored, height_eq, low_eq, _⟩ := hangs
      exact ⟨cell, mem_cons_self, stored, by omega, low_eq⟩

theorem Ordered.bound_mem {next : Name}
    (link : page.link = some next) : page.bounds.getLast? = some page.bound := by
  have lastBound := Page.bound_of_link link
  have filled : page.bounds ≠ [] := by
    cases ordered with
    | @leaf entries link' _ _ _ filled =>
      have linkEq : link' = some next := link
      have nonempty := filled (by rw [linkEq]; simp)
      simpa [Page.bounds] using nonempty
    | inner _ _ last =>
      rintro empty
      rw [Page.bounds, map_eq_nil_iff] at empty
      rw [empty] at last
      cases last
    | seed => cases link
  rw [lastBound, getLast?_eq_some_getLast filled]
  rfl

theorem Ordered.above {bound : WithTop K} (listed : bound ∈ page.bounds) :
    outline.low name < bound:= by
  cases ordered with
  | leaf _ _ above =>
    obtain ⟨entry, entryListed, rfl⟩ := mem_map.mp listed
    exact above entry entryListed
  | inner _ hangs =>
    obtain ⟨cell, cellListed, rfl⟩ := mem_map.mp listed
    exact hangs.ascending.1 cell cellListed
  | seed => cases listed

theorem Ordered.ascending_bounds : Ascending id page.bounds := by
  cases ordered with
  | leaf _ rising => exact ascending_map.mpr (rising.imp WithTop.coe_lt_coe.mpr)
  | inner _ hangs => exact ascending_map.mpr hangs.ascending.2
  | seed => exact .nil

end

/-! ## Changes -/

section Changes

variable [DecidableEq Name] {new : Name} {lower upper : Page Name K V}

theorem WellFormed.set (formed : outline.WellFormed) (here : outline.page name = some page)
    (ordered : outline.Ordered name page') (sameLink : page'.link = page.link)
    (sameBound : page'.bound = page.bound) (extends_ : outline.Extends (outline.set name page'))
    (grounded : ∀ key : K, (key : WithTop K) ∈ page'.bounds →
      (outline.set name page').Grounded key) : (outline.set name page').WellFormed := by
  -- every page stands for one of before with the same link and bound
  have before : ∀ other found, (outline.set name page').page other = some found →
      ∃ old, outline.page other = some old ∧ found.link = old.link ∧ found.bound = old.bound ∧
        (other ≠ name → found = old) := by
    intro other found stored
    by_cases same : other = name
    · subst same
      rw [set_self] at stored
      cases stored
      exact ⟨page, here, sameLink, sameBound, fun different => absurd rfl different⟩
    · rw [set_of_ne same] at stored
      exact ⟨found, stored, rfl, rfl, fun _ => rfl⟩
  constructor
  · intro other found stored
    obtain ⟨old, oldStored, _, _, same⟩ := before other found stored
    refine Ordered.mono ?_ (by rw [oldStored]; rfl) extends_
    by_cases changed : other = name
    · subst changed
      rw [set_self] at stored
      cases stored
      exact ordered
    · rw [same changed]
      exact formed.ordered _ _ oldStored
  · intro other found stored
    obtain ⟨old, oldStored, _, boundEq, _⟩ := before other found stored
    rw [boundEq]
    exact formed.proper other old oldStored
  · intro other found next stored link
    obtain ⟨old, oldStored, linkEq, boundEq, _⟩ := before other found stored
    obtain ⟨nextStored, facts⟩ := formed.linked other old next oldStored (linkEq.symm.trans link)
    rw [boundEq]
    exact ⟨extends_.stored next nextStored, facts⟩
  · intro first found second found' stored stored' different sameHeight
    obtain ⟨old, oldStored, _, boundEq, _⟩ := before first found stored
    obtain ⟨old', oldStored', _, boundEq', _⟩ := before second found' stored'
    rw [boundEq, boundEq']
    exact formed.apart first old second old' oldStored oldStored' different sameHeight
  · intro other found key stored listed
    by_cases changed : other = name
    · subst changed
      rw [set_self] at stored
      cases stored
      exact grounded key listed
    · rw [set_of_ne changed] at stored
      exact extends_.grounded key (formed.grounded other found key stored listed)

structure Divides (page lower : Page Name K V) (new : Name) (upper : Page Name K V) : Prop where
  lowerLink : lower.link = some new
  upperLink : upper.link = page.link
  upperBound : upper.bound = page.bound
  less : lower.bound < upper.bound

omit [DecidableEq Name] in
theorem divides_of_bounds {wide : Page Name K V} (wideLink : wide.link = page.link)
    (wideBound : wide.bound = page.bound) (lowerLink : lower.link = some new)
    (upperLink : upper.link = page.link) (bounds_eq : lower.bounds ++ upper.bounds = wide.bounds)
    (rising : Ascending id wide.bounds) (lowerFilled : lower.bounds ≠ [])
    (upperFilled : upper.bounds ≠ []) : Divides page lower new upper := by
  have lowerLast := getLast?_eq_some_getLast lowerFilled
  have upperLast := getLast?_eq_some_getLast upperFilled
  have lowerBound : lower.bound = lower.bounds.getLast lowerFilled := by
    rw [Page.bound_of_link lowerLink, lowerLast]
    rfl
  have less : lower.bounds.getLast lowerFilled < upper.bounds.getLast upperFilled := by
    rw [← bounds_eq] at rising
    exact (ascending_append.mp rising).2.2 _ (getLast_mem _) _ (getLast_mem _)
  have upperLe : upper.bounds.getLast upperFilled ≤ upper.bound := by
    cases link : upper.link with
    | none =>
      rw [Page.bound_of_link_none link]
      exact le_top
    | some next =>
      rw [Page.bound_of_link link, upperLast]
      exact le_rfl
  refine ⟨lowerLink, upperLink, ?_, ?_⟩
  · rw [← wideBound]
    cases link : upper.link with
    | none =>
      rw [Page.bound_of_link_none link,
        Page.bound_of_link_none (wideLink.trans (upperLink.symm.trans link))]
    | some next =>
      rw [Page.bound_of_link link, Page.bound_of_link (wideLink.trans (upperLink.symm.trans link)),
        ← bounds_eq, getLast?_append_of_ne_nil _ upperFilled]
  · rw [lowerBound]
    exact lt_of_lt_of_le less upperLe

theorem WellFormed.split (formed : outline.WellFormed) (here : outline.page name = some page)
    (fresh : outline.page new = none) (divides : Divides page lower new upper)
    (lowerOrdered : (outline.split name lower new upper).Ordered name lower)
    (upperOrdered : (outline.split name lower new upper).Ordered new upper)
    (proper : outline.low name < lower.bound)
    (extends_ : outline.Extends (outline.split name lower new upper))
    (grounded : ∀ key : K, (key : WithTop K) ∈ lower.bounds ++ upper.bounds →
      (outline.split name lower new upper).Grounded key) :
    (outline.split name lower new upper).WellFormed := by
  have nameStored : (outline.page name).isSome := by rw [here]; rfl
  have different : name ≠ new := ne_of_stored nameStored fresh
  have heightName := extends_.height_eq name nameStored
  have lowName := extends_.low_eq name nameStored
  have heightNew : (outline.split name lower new upper).height new = outline.height name :=
    add_self.2.1
  have lowNew : (outline.split name lower new upper).low new = lower.bound := add_self.2.2
  have heightOther : ∀ {other found}, outline.page other = some found →
      (outline.split name lower new upper).height other = outline.height other :=
    fun stored => extends_.height_eq _ (by rw [stored]; rfl)
  have lowOther : ∀ {other found}, outline.page other = some found →
      (outline.split name lower new upper).low other = outline.low other :=
    fun stored => extends_.low_eq _ (by rw [stored]; rfl)
  have lowerLe : ((lower.bound : WithTop K) : Edge K) ≤ page.bound := by
    rw [← divides.upperBound]
    exact WithBot.coe_le_coe.mpr divides.less.le
  constructor
  · intro other found stored
    rcases split_cases here fresh stored with ⟨rfl, rfl⟩ | ⟨rfl, rfl⟩ | ⟨_, _, old⟩
    · exact lowerOrdered
    · exact upperOrdered
    · exact (formed.ordered other found old).mono (by rw [old]; rfl) extends_
  · intro other found stored
    rcases split_cases here fresh stored with ⟨rfl, rfl⟩ | ⟨rfl, rfl⟩ | ⟨_, _, old⟩
    · rwa [lowName]
    · rw [lowNew]
      exact WithBot.coe_lt_coe.mpr divides.less
    · rw [lowOther old]
      exact formed.proper other found old
  · intro other found next stored link
    rcases split_cases here fresh stored with ⟨rfl, rfl⟩ | ⟨rfl, rfl⟩ | ⟨_, _, old⟩
    · cases divides.lowerLink.symm.trans link
      rw [split_upper, heightName]
      exact ⟨rfl, heightNew, lowNew⟩
    · obtain ⟨nextStored, heightEq, lowEq⟩ := formed.linked name page next here
        (divides.upperLink.symm.trans link)
      refine ⟨extends_.stored next nextStored, ?_, ?_⟩
      · rw [extends_.height_eq next nextStored, heightEq, heightNew]
      · rw [extends_.low_eq next nextStored, lowEq, divides.upperBound]
    · obtain ⟨nextStored, heightEq, lowEq⟩ := formed.linked other found next old link
      refine ⟨extends_.stored next nextStored, ?_, ?_⟩
      · rw [extends_.height_eq next nextStored, heightEq, heightOther old]
      · rw [extends_.low_eq next nextStored, lowEq]
  · -- the two parts are apart from each other, and from the others as the old page was
    have fromOthers : ∀ {part found other found'}, (part = name ∧ found = lower) ∨
      (part = new ∧ found = upper) → outline.page other = some found' → other ≠ name →
        (outline.split name lower new upper).height part =
          (outline.split name lower new upper).height other →
        found.bound ≤ (outline.split name lower new upper).low other ∨
          found'.bound ≤ (outline.split name lower new upper).low part := by
      intro part found other found' isPart stored notName sameHeight
      rw [heightOther stored] at sameHeight
      rw [lowOther stored]
      rcases isPart with ⟨rfl, rfl⟩ | ⟨rfl, rfl⟩
      · rw [heightName] at sameHeight
        rw [lowName]
        exact (formed.apart _ _ _ _ here stored (Ne.symm notName) sameHeight).imp_left lowerLe.trans
      · rw [heightNew] at sameHeight
        rw [lowNew, divides.upperBound]
        exact (formed.apart _ _ _ _ here stored (Ne.symm notName) sameHeight).imp_right
          fun before => before.trans proper.le
    intro first found second found' stored stored' distinct sameHeight
    rcases split_cases here fresh stored with lowerPart | upperPart | ⟨notName, _, old⟩ <;>
      rcases split_cases here fresh stored' with lowerPart' | upperPart' | ⟨notName', _, old'⟩
    · exact absurd (lowerPart.1.trans lowerPart'.1.symm) distinct
    · rw [upperPart'.1, lowerPart.2, lowNew]
      exact .inl le_rfl
    · exact fromOthers (.inl lowerPart) old' notName' sameHeight
    · rw [upperPart.1, lowerPart'.2, lowNew]
      exact .inr le_rfl
    · exact absurd (upperPart.1.trans upperPart'.1.symm) distinct
    · exact fromOthers (.inr upperPart) old' notName' sameHeight
    · exact (fromOthers (.inl lowerPart') old notName sameHeight.symm).symm
    · exact (fromOthers (.inr upperPart') old notName sameHeight.symm).symm
    · rw [heightOther old, heightOther old'] at sameHeight
      rw [lowOther old, lowOther old']
      exact formed.apart _ _ _ _ old old' distinct sameHeight
  · intro other found key stored listed
    rcases split_cases here fresh stored with ⟨rfl, rfl⟩ | ⟨rfl, rfl⟩ | ⟨_, _, old⟩
    · exact grounded key (mem_append_left _ listed)
    · exact grounded key (mem_append_right _ listed)
    · exact extends_.grounded key (formed.grounded other found key old listed)

theorem WellFormed.sprout (formed : outline.WellFormed) (fresh : outline.page new = none)
    (highest : ∀ other found, outline.page other = some found → outline.height other ≠ height + 1) :
    (outline.add new (height + 1) ⊥ (.inner [] none)).WellFormed := by
  have extends_ : outline.Extends (outline.add new (height + 1) ⊥ (.inner [] none)) :=
    extends_add fresh
  have sameAs : ∀ {other found}, outline.page other = some found →
      (outline.add new (height + 1) ⊥ (.inner [] none)).height other = outline.height other ∧
      (outline.add new (height + 1) ⊥ (.inner [] none)).low other = outline.low other :=
    fun stored => (add_of_ne (ne_of_stored (by rw [stored]; rfl) fresh)).2
  constructor
  · intro other found stored
    rcases add_cases stored with ⟨rfl, rfl⟩ | ⟨_, old⟩
    · exact .seed add_self.2.1 add_self.2.2
    · exact (formed.ordered other found old).mono (by rw [old]; rfl) extends_
  · intro other found stored
    rcases add_cases stored with ⟨rfl, rfl⟩ | ⟨_, old⟩
    · rw [add_self.2.2]
      exact WithBot.bot_lt_coe _
    · rw [(sameAs old).2]
      exact formed.proper other found old
  · intro other found next stored link
    rcases add_cases stored with ⟨rfl, rfl⟩ | ⟨_, old⟩
    · cases link
    · obtain ⟨nextStored, heightEq, lowEq⟩ := formed.linked other found next old link
      refine ⟨extends_.stored next nextStored, ?_, ?_⟩
      · rw [extends_.height_eq next nextStored, heightEq, (sameAs old).1]
      · rw [extends_.low_eq next nextStored, lowEq]
  · intro first found second found' stored stored' distinct sameHeight
    rcases add_cases stored with ⟨rfl, rfl⟩ | ⟨_, old⟩ <;>
      rcases add_cases stored' with ⟨rfl, rfl⟩ | ⟨_, old'⟩
    · exact absurd rfl distinct
    · rw [add_self.2.1, (sameAs old').1] at sameHeight
      exact absurd sameHeight.symm (highest _ _ old')
    · rw [add_self.2.1, (sameAs old).1] at sameHeight
      exact absurd sameHeight (highest _ _ old)
    · rw [(sameAs old).1, (sameAs old').1] at sameHeight
      rw [(sameAs old).2, (sameAs old').2]
      exact formed.apart _ _ _ _ old old' distinct sameHeight
  · intro other found key stored listed
    rcases add_cases stored with ⟨rfl, rfl⟩ | ⟨_, old⟩
    · cases listed
    · exact extends_.grounded key (formed.grounded other found key old listed)

end Changes

end Order

end Outline

end IndexResearch.LinkedPages
