import IndexResearch.SortedList

/-!
# Ordered maps

A finite map whose keys are ordered, as the list of its entries in the order of the keys.
-/

namespace IndexResearch

structure OrderedMap (K V : Type) [LinearOrder K] where
  entries : List (K × V)
  ascending : Ascending Prod.fst entries

namespace OrderedMap

variable {K V : Type} [LinearOrder K]

def empty : OrderedMap K V := ⟨[], .nil⟩

variable (map : OrderedMap K V)

def find (key : K) : Option V :=
  (findKey Prod.fst map.entries key).map Prod.snd

def insert (key : K) (value : V) : Bool × OrderedMap K V :=
  if absent : findKey Prod.fst map.entries key = none then
    (true, ⟨place Prod.fst map.entries (key, value),
      map.ascending.place (findKey_eq_none.mp absent)⟩)
  else (false, map)

def update (key : K) (value : V) : Bool × OrderedMap K V :=
  ((map.find key).isSome, ⟨replace Prod.fst map.entries (key, value), map.ascending.replace⟩)

/-- The entries whose keys are not less than `leftKey`. -/
def entriesFrom (leftKey : K) : List (K × V) :=
  map.entries.filter fun entry => decide (leftKey ≤ entry.1)

/-- The entries whose keys are not less than `leftKey` and less than `rightKey`. -/
def entriesBetween (leftKey rightKey : K) : List (K × V) :=
  map.entries.filter fun entry => decide (leftKey ≤ entry.1 ∧ entry.1 < rightKey)

theorem insert_success (key : K) (value : V) :
    (map.insert key value).1 = (findKey Prod.fst map.entries key).isNone := by
  rw [insert]
  split
  · rename_i absent
    rw [absent]
    rfl
  · rename_i bound
    rw [Option.isNone_eq_false_iff.mpr (Option.isSome_iff_ne_none.mpr bound)]

theorem insert_entries (key : K) (value : V) :
    (map.insert key value).2.entries =
      if (findKey Prod.fst map.entries key).isNone then place Prod.fst map.entries (key, value)
      else map.entries := by
  rw [← map.insert_success key value, insert]
  split <;> rfl

theorem entriesFrom_eq (leftKey : K) :
    map.entriesFrom leftKey = map.entries.drop (rankIn Prod.fst map.entries leftKey) :=
  map.ascending.filter_le leftKey

theorem entriesBetween_eq (leftKey rightKey : K) :
    map.entriesBetween leftKey rightKey =
      (map.entriesFrom leftKey).takeWhile fun entry => decide (entry.1 < rightKey) := by
  have rising : Ascending Prod.fst (map.entriesFrom leftKey) := map.ascending.filter _
  rw [rising.takeWhile_lt, entriesFrom, entriesBetween, List.filter_filter]
  congr 1
  funext entry
  rw [Bool.decide_and, Bool.and_comm]

end OrderedMap

end IndexResearch
