import IndexResearch.FBTree.Config
import IndexResearch.SortedList

/-!
# Inner nodes as lists

What an inner node means, independently of how its separators are laid out in
memory: its separators, its children and its right sibling.  A node with a right
sibling has one child per separator; the rightmost node of a level keeps one more
child in `next_`.  The operations below are the list readings of the node
operations of `inode.h`; both memory layouts are proved to implement them.
-/

namespace IndexResearch.FBTree

open List

universe u

@[ext]
structure NodeView (Sep : Type u) where
  seps : List Sep
  kids : List Ptr
  /-- The right sibling. -/
  link : Option Ptr

/-- Answer of `index_or_sibling`. -/
inductive Position where
  | index (pos : Nat)
  | sibling (next : Ptr)
  deriving DecidableEq

inductive Ascent (Sep : Type u) where
  | done
  /-- The right sibling was absorbed; remove the separator `mid`. -/
  | merged (mid : Sep)
  /-- The last separator became `mid`. -/
  | renamed (mid : Sep)

/-- What a removal on a memory layout returns: the node, the node right of it,
whether that was absorbed, whether the last separator changed, and the separator
to look for in the level above. -/
structure Removed (Inner Mid : Type*) where
  node : Inner
  right : Inner
  merged : Bool
  up : Bool
  mid : Mid

def Ascent.keepsRight {Sep : Type u} : Ascent Sep → Bool
  | .done => true
  | .merged _ => false
  | .renamed _ => true

def Ascent.Describes {Sep : Type u} {Inner Mid : Type*} (decode : Mid → Sep)
    (removed : Removed Inner Mid) : Ascent Sep → Prop
  | .done => removed.merged = false ∧ removed.up = false
  | .merged mid => removed.merged = true ∧ removed.up = false ∧ decode removed.mid = mid
  | .renamed mid => removed.merged = false ∧ removed.up = true ∧ decode removed.mid = mid

namespace NodeView

variable {Sep : Type u} {Key : Type*} [LinearOrder Key] (keyOf : Sep → Key)

/-- Where a search continues: `to_sibling` and the next node. -/
def toNext (view : NodeView Sep) (key : Key) : Bool × Ptr :=
  match view.kids[rankIn keyOf view.seps key]? with
  | some child => (false, child)
  | none => (true, view.link.getD nullptr)

def indexOrSibling (view : NodeView Sep) (key : Key) : Position :=
  match view.link with
  | some next =>
    if rankIn keyOf view.seps key = view.seps.length then .sibling next
    else .index (rankIn keyOf view.seps key)
  | none => .index (rankIn keyOf view.seps key)

omit [LinearOrder Key]

/-- The separators after `mid` was inserted. -/
def insertSeps (view : NodeView Sep) (mid : Sep) (index : Nat) : List Sep :=
  insertAt view.seps index mid

/-- The children after the child at `index` was split into `lchild` and `rchild`. -/
def insertKids (view : NodeView Sep) (lchild rchild : Ptr) (index : Nat) : List Ptr :=
  if index = view.seps.length then view.kids.take index ++ [lchild, rchild]
  else view.kids.take (index + 1) ++ rchild :: view.kids.drop (index + 1)

def splitPoint (size : NodeSize) (index : Nat) : Nat :=
  if index = size.slots then size.slots
  else if index < size.half then size.half + 1
  else size.half

/-- The node after the insertion and, when the node was full, the new right
node together with the separator to insert above.  `address` is where the new
node is placed. -/
def insert (size : NodeSize) (view : NodeView Sep) (address lchild rchild : Ptr) (mid : Sep)
    (index : Nat) : NodeView Sep × Option (NodeView Sep × Sep) :=
  let seps := view.insertSeps mid index
  let kids := view.insertKids lchild rchild index
  if view.seps.length < size.slots then (⟨seps, kids, view.link⟩, none)
  else
    let point := splitPoint size index
    (⟨seps.take point, kids.take point, some address⟩,
      some (⟨seps.drop point, kids.drop point, view.link⟩, (seps.take point).getLastD mid))

/-- An insertion in memory does what an insertion into the view does, and keeps what is
`good` in nodes. -/
structure Inserted {Inner Mid : Type*} (good : Inner → Prop) (view : Inner → NodeView Sep)
    (decode : Mid → Sep) (control : Inner → Control) (size : NodeSize) (node : Inner)
    (address lchild rchild : Ptr) (mid : Mid) (index : Nat) (result : Inner × Option Inner × Mid) :
    Prop where
  wellFormed : good result.1
  deleted_eq : (control result.1).deleted = (control node).deleted
  views : (view node).insert size address lchild rchild (decode mid) index =
    (view result.1, result.2.1.map fun right => (view right, decode result.2.2))
  right : ∀ right, result.2.1 = some right → good right ∧ (control right).deleted = false

/-- The node after a removal, its right sibling unless that was absorbed, and
what is left to do above. -/
structure Removal (Sep : Type u) where
  node : NodeView Sep
  right : Option (NodeView Sep)
  ascent : Ascent Sep

/-- A removal from memory does what a removal from the views does, and keeps what is
`good` in nodes. -/
structure Matches {Inner Mid : Type*} (good : Inner → Prop) (view : Inner → NodeView Sep)
    (decode : Mid → Sep) (control : Inner → Control) (node right : Inner) (removal : Removal Sep)
    (removed : Removed Inner Mid) : Prop where
  wellFormed : good removed.node
  deleted_eq : (control removed.node).deleted = (control node).deleted
  view_eq : view removed.node = removal.node
  right_eq : ∀ other, removal.right = some other → good removed.right ∧
    view removed.right = other ∧ (control removed.right).deleted = (control right).deleted
  ascent : removal.ascent.Describes decode removed
  absorbed : removed.merged = true → (control removed.right).deleted = true

def merge (size : NodeSize) (view : NodeView Sep) (mid : Sep) :
    Option (NodeView Sep) → Removal Sep
  | none => ⟨view, none, .done⟩
  | some right =>
    if view.seps.length + right.seps.length ≤ size.half ∨ right.seps.length = 0 then
      ⟨⟨view.seps ++ right.seps, view.kids ++ right.kids, right.link⟩, none,
        .merged (view.seps.getLastD mid)⟩
    else ⟨view, some right, .done⟩

/-- Removal of the last separator.  The child right of it is the first child
of the right sibling. -/
def boundRemove (size : NodeSize) (view : NodeView Sep) (mid : Sep) (index : Nat) :
    Option (NodeView Sep) → Option (Removal Sep)
  | none => some ⟨⟨view.seps.dropLast, view.kids.dropLast, none⟩, none, .done⟩
  | some right =>
    let rnkey := right.seps.length
    if index + rnkey ≤ size.half ∨ index = 0 ∨ rnkey = 0 ∨ rnkey = 1 then
      if index = 0 ∧ rnkey = 0 then none
      else
        some ⟨⟨view.seps.dropLast ++ right.seps, view.kids ++ right.kids.tail, right.link⟩,
          none, .merged mid⟩
    else
      some ⟨⟨view.seps.dropLast, view.kids.dropLast, view.link⟩,
        some ⟨right.seps, view.kids.getLastD nullptr :: right.kids.tail, right.link⟩,
        .renamed (view.seps.dropLast.getLastD mid)⟩

/-- Remove the separator at `index` and the child right of it.  The result is
`none` when no separator would be left in the two nodes together. -/
def remove (size : NodeSize) (view : NodeView Sep) (right : Option (NodeView Sep)) (mid : Sep)
    (index : Nat) : Option (Removal Sep) :=
  if index + 1 < view.seps.length then
    some (merge size ⟨view.seps.eraseIdx index, view.kids.eraseIdx (index + 1), view.link⟩ mid
      right)
  else boundRemove size view mid index right

def anchorUpdate (view : NodeView Sep) (mid : Sep) (index : Nat) : NodeView Sep × Bool :=
  (⟨view.seps.set index mid, view.kids, view.link⟩,
    view.link.isSome && view.seps.length - 1 == index)

end NodeView

theorem NodeView.splitPoint_pos (size : NodeSize) (index : Nat) :
    0 < NodeView.splitPoint size index := by
  have half := size.eight_le_half
  have slots := size.slots_eq
  unfold NodeView.splitPoint
  split
  · omega
  · split <;> omega

theorem NodeView.splitPoint_le (size : NodeSize) (index : Nat) :
    NodeView.splitPoint size index ≤ size.slots := by
  have half := size.eight_le_half
  have slots := size.slots_eq
  unfold NodeView.splitPoint
  split
  · omega
  · split <;> omega

/-! ## Removal as deletion from lists -/

namespace NodeView

variable {Sep : Type u} {size : NodeSize} {view : NodeView Sep} {right : Option (NodeView Sep)}
  {mid : Sep} {index : Nat} {removal : Removal Sep}

def pairSeps (view : NodeView Sep) (right : Option (NodeView Sep)) : List Sep :=
  view.seps ++ (right.map NodeView.seps).getD []

def pairKids (view : NodeView Sep) (right : Option (NodeView Sep)) : List Ptr :=
  view.kids ++ (right.map NodeView.kids).getD []

theorem exists_remove (inside : index < view.seps.length)
    (keeps : 1 < (view.pairSeps right).length) :
    ∃ removal, view.remove size right mid index = some removal ∧ 0 < removal.node.seps.length := by
  rw [remove]
  by_cases inner : index + 1 < view.seps.length
  · have kept : 0 < (view.seps.eraseIdx index).length := by
      rw [length_eraseIdx_of_lt inside]
      omega
    rw [if_pos inner]
    refine ⟨_, rfl, ?_⟩
    cases right with
    | none => exact kept
    | some right =>
      rw [merge]
      split
      · rw [length_append]
        exact Nat.add_pos_left kept _
      · exact kept
  · rw [if_neg inner]
    cases right with
    | none =>
      refine ⟨_, rfl, ?_⟩
      rw [pairSeps, Option.map_none, Option.getD_none, append_nil] at keeps
      rw [length_dropLast]
      omega
    | some right =>
      rw [pairSeps, Option.map_some, Option.getD_some, length_append] at keeps
      rw [boundRemove]
      split
      · rw [if_neg (by omega)]
        refine ⟨_, rfl, ?_⟩
        rw [length_append, length_dropLast]
        omega
      · refine ⟨_, rfl, ?_⟩
        rw [length_dropLast]
        omega

theorem remove_lists (found : view.remove size right mid index = some removal)
    (inside : index < view.seps.length)
    (lengths : view.kids.length = if right.isSome then view.seps.length else view.seps.length + 1) :
    removal.node.pairSeps removal.right = (view.pairSeps right).eraseIdx index ∧
      removal.node.pairKids removal.right = (view.pairKids right).eraseIdx (index + 1) := by
  rw [remove] at found
  by_cases inner : index + 1 < view.seps.length
  · rw [if_pos inner, Option.some.injEq] at found
    have within : index + 1 < view.kids.length := by
      rw [lengths]
      split <;> omega
    subst found
    cases right with
    | none => simp [merge, pairSeps, pairKids]
    | some right =>
      rw [merge]
      split <;>
        simp [pairSeps, pairKids, eraseIdx_append_of_lt_length inside,
          eraseIdx_append_of_lt_length within]
  · rw [if_neg inner] at found
    have seps : view.seps.dropLast = view.seps.eraseIdx index :=
      dropLast_eq_eraseIdx (by omega)
    cases right with
    | none =>
      simp only [Option.isSome_none, Bool.false_eq_true, if_false] at lengths
      rw [boundRemove, Option.some.injEq] at found
      subst found
      have kids : view.kids.dropLast = view.kids.eraseIdx (index + 1) :=
        dropLast_eq_eraseIdx (by omega)
      simp [pairSeps, pairKids, seps, kids]
    | some right =>
      simp only [Option.isSome_some, if_true] at lengths
      have deleted : (view.kids ++ right.kids).eraseIdx (index + 1) = view.kids ++
        right.kids.tail := by
        have first : index + 1 - view.kids.length = 0 := by omega
        rw [eraseIdx_append_of_length_le (by omega), first, eraseIdx_zero]
      rw [boundRemove] at found
      split at found
      · split at found
        · cases found
        · rw [Option.some.injEq] at found
          subst found
          simp [pairSeps, pairKids, seps, deleted, eraseIdx_append_of_lt_length inside]
      · rw [Option.some.injEq] at found
        subst found
        have handed : view.kids.dropLast ++ view.kids.getLastD nullptr :: right.kids.tail =
            view.kids ++ right.kids.tail := by
          rcases eq_nil_or_concat view.kids with empty | ⟨front, last, split⟩
          · rw [empty, length_nil] at lengths
            omega
          · rw [split, concat_eq_append, dropLast_concat, getLastD_concat,
              append_assoc, singleton_append]
        rw [getLastD_eq_getLast?] at handed
        simp [pairSeps, pairKids, seps, deleted, handed, eraseIdx_append_of_lt_length inside]

theorem remove_rightmost (found : view.remove size none mid index = some removal) :
    removal.ascent = .done := by
  rw [remove] at found
  split at found
  · cases found
    rfl
  · cases found
    rfl

theorem remove_ascent (found : view.remove size right mid index = some removal)
    (removedSep : view.seps[index]? = some mid) :
    removal.right.isSome = (right.isSome && removal.ascent.keepsRight) ∧ match removal.ascent with
    | .done => right.isSome → removal.node.seps.getLast? = view.seps.getLast?
    | .merged above => right.isSome ∧ view.seps.getLast? = some above
    | .renamed above => right.isSome ∧ view.seps.getLast? = some mid ∧
        removal.node.seps = view.seps.dropLast ∧ removal.node.seps.getLast? = some above := by
  obtain ⟨inside, _⟩ := List.getElem?_eq_some_iff.mp removedSep
  obtain ⟨lastSep, lastEq⟩ : ∃ lastSep, view.seps.getLast? = some lastSep :=
    ⟨_, getLast?_eq_some_getLast (ne_nil_of_length_pos (Nat.zero_lt_of_lt inside))⟩
  rw [remove] at found
  by_cases inner : index + 1 < view.seps.length
  · have sameLast : (view.seps.eraseIdx index).getLast? = view.seps.getLast? := by
      rw [eraseIdx_eq_take_drop_succ, getLast?_append, getLast?_drop,
        if_neg (Nat.not_le.mpr inner), lastEq, Option.some_or]
    rw [if_pos inner, Option.some.injEq] at found
    subst found
    cases right with
    | none => exact ⟨rfl, fun absurdity => (by cases absurdity)⟩
    | some right =>
      rw [merge]
      split
      · refine ⟨rfl, rfl, ?_⟩
        rw [getLastD_eq_getLast?, sameLast, lastEq]
        rfl
      · exact ⟨rfl, fun _ => sameLast⟩
  · rw [if_neg inner] at found
    have last : view.seps.getLast? = some mid := by
      rw [getLast?_eq_getElem?, ← removedSep]
      congr 1
      omega
    cases right with
    | none =>
      rw [boundRemove, Option.some.injEq] at found
      subst found
      exact ⟨rfl, fun absurdity => (by cases absurdity)⟩
    | some right =>
      rw [boundRemove] at found
      split at found
      · split at found
        · cases found
        · rw [Option.some.injEq] at found
          subst found
          exact ⟨rfl, rfl, last⟩
      · rename_i large
        rw [Option.some.injEq] at found
        subst found
        refine ⟨rfl, rfl, last, rfl, ?_⟩
        rcases eq_nil_or_concat view.seps.dropLast with empty | ⟨front, lastKept, split⟩
        · have length := congrArg List.length empty
          rw [length_dropLast, length_nil] at length
          omega
        · rw [split, concat_eq_append, getLastD_concat, getLast?_concat]

/-! ## Sizes -/

theorem insert_lists {left : NodeView Sep} {address lchild rchild : Ptr}
    {rest : Option (NodeView Sep × Sep)}
    (inserts : view.insert size address lchild rchild mid index = (left, rest))
    (bounded : view.seps.length ≤ size.slots) :
    left.pairSeps (rest.map Prod.fst) = view.insertSeps mid index ∧
      (left.seps ≠ [] ∧ left.seps.length ≤ size.slots) ∧
      ∀ node, rest.map Prod.fst = some node → node.seps ≠ [] ∧ node.seps.length ≤ size.slots := by
  have length : (view.insertSeps mid index).length = view.seps.length + 1 := by
    rw [insertSeps, length_insertAt]
  rw [insert] at inserts
  split at inserts
  · cases inserts
    refine ⟨append_nil _, ⟨ne_nil_of_length_pos ?_, ?_⟩, fun _ none => (by cases none)⟩
    · simp only [length]
      exact Nat.succ_pos _
    · simp only [length]
      omega
  · cases inserts
    have positive := splitPoint_pos size index
    have short := splitPoint_le size index
    refine ⟨take_append_drop _ _, ⟨ne_nil_of_length_pos ?_, ?_⟩, ?_⟩
    · simp only [length_take, length]
      omega
    · simp only [length_take, length]
      omega
    · intro node same
      cases same
      refine ⟨ne_nil_of_length_pos ?_, ?_⟩
      · simp only [length_drop, length]
        omega
      · simp only [length_drop, length]
        omega

theorem remove_sizes (found : view.remove size right mid index = some removal)
    (inside : index < view.seps.length) (bounded : view.seps.length ≤ size.slots)
    (rightBounded : ∀ node, right = some node → node.seps.length ≤ size.slots) :
    removal.node.seps.length ≤ size.slots ∧
      ∀ node, removal.right = some node →
        right ≠ none ∧ node.seps ≠ [] ∧ node.seps.length ≤ size.slots := by
  have half := size.eight_le_half
  have slots := size.slots_eq
  rw [remove] at found
  split at found
  · cases found
    have length : (view.seps.eraseIdx index).length = view.seps.length - 1 :=
      length_eraseIdx_of_lt inside
    cases right with
    | none =>
      simp only [merge, length]
      exact ⟨by omega, fun _ none => (by cases none)⟩
    | some right =>
      have limit := rightBounded right rfl
      rw [merge]
      split
      · simp only [length_append, length] at *
        exact ⟨by omega, fun _ none => (by cases none)⟩
      · rename_i apart
        simp only [length] at *
        refine ⟨by omega, ?_⟩
        intro node same
        cases same
        exact ⟨Option.some_ne_none _, ne_nil_of_length_pos (by omega), limit⟩
  · cases right with
    | none =>
      cases found
      simp only [length_dropLast]
      exact ⟨by omega, fun _ none => (by cases none)⟩
    | some right =>
      have limit := rightBounded right rfl
      rw [boundRemove] at found
      split at found
      · split at found
        · cases found
        · cases found
          simp only [length_append, length_dropLast]
          exact ⟨by omega, fun _ none => (by cases none)⟩
      · rename_i apart
        cases found
        simp only [length_dropLast]
        refine ⟨by omega, ?_⟩
        intro node same
        cases same
        exact ⟨Option.some_ne_none _, ne_nil_of_length_pos (by simp only; omega), limit⟩

end NodeView

end IndexResearch.FBTree
