import IndexResearch.Chain
import IndexResearch.SortedList

/-!
# Linked levels of a search tree

The nodes of every level of the tree are linked from left to right.  What a level is to
the one above it is a list of cells, the names of its nodes with upper bounds of their
keys.  A node of the level above holds a stretch of these cells, and its own bound is that
of its last cell.  The greatest element of the bounds is the bound of the last node of a
level.
-/

namespace IndexResearch.LinkedLevels

open List

variable {Bound Name : Type}

structure Branch (Bound Name : Type) where
  id : Name
  cells : List (Bound × Name)
  nonempty : cells ≠ []
  /-- The right neighbour. -/
  link : Option Name

namespace Branch

def bound (branch : Branch Bound Name) : Bound := (branch.cells.getLast branch.nonempty).1

def cell (branch : Branch Bound Name) : Bound × Name := (branch.bound, branch.id)

structure Splits (branch : Branch Bound Name) (name : Name) (lower upper : Branch Bound Name) :
    Prop where
  lowerId : lower.id = branch.id
  lowerLink : lower.link = some name
  upperId : upper.id = name
  upperLink : upper.link = branch.link
  cells_eq : lower.cells ++ upper.cells = branch.cells

theorem Splits.bound_eq {branch lower upper : Branch Bound Name} {name : Name}
    (splits : branch.Splits name lower upper) : upper.bound = branch.bound := by
  simp only [bound, ← splits.cells_eq]
  rw [getLast_append_of_right_ne_nil _ _ upper.nonempty]

end Branch

/-- The levels above a level with the given cells, the lowest one first.  The last level
is the root alone. -/
def Stacked (root : Bound × Name) : List (Bound × Name) → List (List (Branch Bound Name)) → Prop
  | cells, [] => cells = [root]
  | cells, row :: above =>
    row.flatMap Branch.cells = cells ∧ Linked Branch.id Branch.link none row ∧
      Stacked root (row.map Branch.cell) above

/-- The way from a cell to the root: the names of the nodes above it, the lowest one
first.  The cell stands between the cells `before` and `after` of its level. -/
inductive Leads : List (List (Branch Bound Name)) → (before : List (Bound × Name)) → Bound × Name →
    (after : List (Bound × Name)) → List Name → Prop
  | top {cell : Bound × Name} : Leads [] [] cell [] []
  | up {above : List (List (Branch Bound Name))} {front back : List (Branch Bound Name)}
      {branch : Branch Bound Name} {left right : List (Bound × Name)} {cell : Bound × Name}
      {stack : List Name} (cells_eq : branch.cells = left ++ cell :: right)
      (higher : Leads above (front.map Branch.cell) branch.cell (back.map Branch.cell) stack) :
      Leads ((front ++ branch :: back) :: above) (front.flatMap Branch.cells ++ left) cell
        (right ++ back.flatMap Branch.cells) (branch.id :: stack)

def rowIds (rows : List (List (Branch Bound Name))) : List Name :=
  rows.flatMap fun row => row.map Branch.id

variable {root cell : Bound × Name} {cells before after : List (Bound × Name)}
  {rows above : List (List (Branch Bound Name))} {row front back : List (Branch Bound Name)}
  {branch : Branch Bound Name}

theorem exists_parent (flat : row.flatMap Branch.cells = before ++ cell :: after) :
    ∃ front branch back left right, row = front ++ branch :: back ∧
      branch.cells = left ++ cell :: right ∧ before = front.flatMap Branch.cells ++ left ∧
      after = right ++ back.flatMap Branch.cells := by
  induction row generalizing before with
  | nil => exact absurd flat (by simp)
  | cons head rest ih =>
    have later (front' : List (Bound × Name)) (rest_eq : rest.flatMap Branch.cells =
        front' ++ cell :: after) (before_eq : before = head.cells ++ front') :
        ∃ front branch back left right, head :: rest = front ++ branch :: back ∧
          branch.cells = left ++ cell :: right ∧ before = front.flatMap Branch.cells ++ left ∧
          after = right ++ back.flatMap Branch.cells := by
      obtain ⟨front, branch, back, left, right, rfl, cells_eq, rfl, rfl⟩ :=
        ih rest_eq
      refine ⟨head :: front, branch, back, left, right, rfl, cells_eq, ?_, rfl⟩
      rw [before_eq, flatMap_cons, append_assoc]
    rw [flatMap_cons] at flat
    rcases append_eq_append_iff.mp
      flat with ⟨front', before_eq, rest_eq⟩ | ⟨right, cells_eq, split⟩
    · exact later front' rest_eq before_eq
    · cases right with
      | nil =>
        rw [append_nil] at cells_eq
        exact later [] split.symm (by rw [append_nil, cells_eq])
      | cons first right =>
        rw [cons_append, List.cons.injEq] at split
        obtain ⟨rfl, rfl⟩ := split
        exact ⟨[], head, rest, before, right, rfl, cells_eq, rfl, rfl⟩

theorem Stacked.cells_ne_nil (stacked : Stacked root cells rows) : cells ≠ [] := by
  rintro rfl
  induction rows with
  | nil => cases stacked
  | cons row above ih =>
    obtain ⟨flat, _, higher⟩ := stacked
    cases row with
    | nil => exact ih higher
    | cons head rest =>
      rw [flatMap_cons, append_eq_nil_iff] at flat
      exact head.nonempty flat.1

theorem Stacked.leads (stacked : Stacked root (before ++ cell :: after) rows) :
    ∃ stack, Leads rows before cell after stack := by
  induction rows generalizing before cell after with
  | nil =>
    obtain ⟨rfl, rfl, rfl⟩ : before = [] ∧ cell = root ∧ after = [] := by
      have single : before ++ cell :: after = [root] := stacked
      cases before with
      | nil => simpa using single
      | cons => simp at single
    exact ⟨[], .top⟩
  | cons row above ih =>
    obtain ⟨flat, _, higher⟩ := stacked
    obtain ⟨front, branch, back, left, right, rfl, cells_eq, rfl, rfl⟩ := exists_parent flat
    rw [map_append, map_cons] at higher
    obtain ⟨stack, leads⟩ := ih higher
    exact ⟨branch.id :: stack, .up cells_eq leads⟩

theorem Leads.length_stack {stack : List Name} (leads : Leads rows before cell after stack) :
    stack.length = rows.length := by
  induction leads with
  | top => rfl
  | up _ _ ih => exact congrArg (· + 1) ih

theorem Leads.exists_branch {stack : List Name} {name : Name}
    (leads : Leads rows before cell after stack) (listed : name ∈ stack) :
    ∃ row ∈ rows, ∃ branch ∈ row, branch.id = name := by
  induction leads with
  | top => cases listed
  | @up above front back branch left right cell stack cells_eq higher ih =>
    rcases mem_cons.mp listed with rfl | later
    · exact ⟨_, mem_cons_self, branch, mem_append_cons_self, rfl⟩
    · obtain ⟨row, rowListed, rest⟩ := ih later
      exact ⟨row, mem_cons_of_mem _ rowListed, rest⟩

theorem Stacked.length_rows_le (stacked : Stacked root cells rows) :
    rows.length ≤ (rowIds rows).length := by
  induction rows generalizing cells with
  | nil => exact le_rfl
  | cons row above ih =>
    have nonempty : row ≠ [] := fun empty => stacked.2.2.cells_ne_nil (by rw [empty]; rfl)
    have positive := length_pos_of_ne_nil nonempty
    have higher := ih stacked.2.2
    rw [rowIds] at higher
    rw [rowIds, flatMap_cons, length_append, length_map, length_cons]
    omega

theorem Stacked.root_mem (stacked : Stacked root cells rows) (nonempty : rows ≠ []) :
    root.2 ∈ rowIds rows := by
  induction rows generalizing cells with
  | nil => exact absurd rfl nonempty
  | cons row above ih =>
    rw [rowIds, flatMap_cons, mem_append]
    cases above with
    | nil =>
      have single : row.map Branch.cell = [root] := stacked.2.2
      obtain ⟨branch, rfl, rfl⟩ := map_eq_singleton_iff.mp single
      exact .inl (mem_singleton.mpr rfl)
    | cons => exact .inr (ih stacked.2.2 nofun)

theorem Stacked.exchange {others : List (Branch Bound Name)} {root' : Bound × Name}
    {above' : List (List (Branch Bound Name))}
    (stacked : Stacked root cells ((front ++ branch :: back) :: above)) (nonempty : others ≠ [])
    (head_eq : others.head?.map Branch.id = some branch.id)
    (chain : Linked Branch.id Branch.link branch.link others) (higher :
      Stacked root' (front.map Branch.cell ++ (others.map Branch.cell ++ back.map Branch.cell))
      above') :
    Stacked root' (front.flatMap Branch.cells ++ (others.flatMap Branch.cells ++
      back.flatMap Branch.cells)) ((front ++ (others ++ back)) :: above') := by
  refine ⟨by rw [flatMap_append, flatMap_append],
    stacked.2.1.exchange nonempty head_eq chain, ?_⟩
  rwa [map_append, map_append]

/-! ## Bounds -/

theorem Branch.cell_mem_bounds (listed : branch ∈ row) :
    ∃ other ∈ row.flatMap Branch.cells, other.1 = branch.bound :=
  ⟨branch.cells.getLast branch.nonempty,
    mem_flatMap.mpr ⟨branch, listed, getLast_mem branch.nonempty⟩, rfl⟩

theorem Stacked.bound_mem (stacked : Stacked root cells rows) (rowListed : row ∈ rows)
    (listed : branch ∈ row) (cellListed : cell ∈ branch.cells) : ∃ other ∈ cells,
    other.1 = cell.1:= by
  induction rows generalizing cells with
  | nil => cases rowListed
  | cons lowest above ih =>
    obtain ⟨flat, _, higher⟩ := stacked
    rw [← flat]
    rcases mem_cons.mp rowListed with rfl | later
    · exact ⟨cell, mem_flatMap.mpr ⟨branch, listed, cellListed⟩, rfl⟩
    · obtain ⟨other, otherListed, same⟩ := ih higher later
      obtain ⟨parent, parentListed, rfl⟩ := mem_map.mp otherListed
      obtain ⟨found, foundListed, foundEq⟩ := Branch.cell_mem_bounds parentListed
      exact ⟨found, foundListed, foundEq.trans same⟩

theorem bounds_sublist (row : List (Branch Bound Name)) :
    (row.map Branch.bound).Sublist ((row.flatMap Branch.cells).map Prod.fst) := by
  induction row with
  | nil => exact nil_sublist _
  | cons head rest ih =>
    have last : [head.bound].Sublist (head.cells.map Prod.fst) := by
      rw [singleton_sublist]
      exact mem_map.mpr ⟨_, getLast_mem head.nonempty, rfl⟩
    rw [flatMap_cons, map_append, map_cons]
    exact last.append ih

variable [LinearOrder Bound]

theorem ascending_row (rising : Ascending Prod.fst (row.flatMap Branch.cells)) :
    Ascending Prod.fst (row.map Branch.cell) := by
  have below : ((row.flatMap Branch.cells).map Prod.fst).Pairwise (· < ·) :=
    pairwise_map.mpr rising
  exact pairwise_map.mpr (pairwise_map.mp (below.sublist (bounds_sublist row)))

theorem Stacked.ascending_branch (stacked : Stacked root cells rows)
    (rising : Ascending Prod.fst cells) (rowListed : row ∈ rows) (listed : branch ∈ row) :
    Ascending Prod.fst branch.cells := by
  induction rows generalizing cells with
  | nil => cases rowListed
  | cons lowest above ih =>
    obtain ⟨rfl, _, higher⟩ := stacked
    rcases mem_cons.mp rowListed with rfl | later
    · obtain ⟨front, back, rfl⟩ := append_of_mem listed
      rw [flatMap_append, flatMap_cons] at rising
      exact (ascending_append.mp (ascending_append.mp rising).2.1).1
    · exact ih higher (ascending_row rising) later

theorem Branch.le_bound (rising : Ascending Prod.fst branch.cells) (listed : cell ∈ branch.cells) :
    cell.1 ≤ branch.bound :=
  rising.le_getLast (getLast?_eq_some_getLast branch.nonempty) cell listed

end IndexResearch.LinkedLevels
