import IndexResearch.FBTree.ControlWord
import IndexResearch.Transition

/-!
# Latches and optimistic reads

`latch_exclusive`, `begin_read` and `end_read` of `control.h`, run by any number of
threads.  Every load, compare-exchange and atomic addition of the word is one action.  A
load that finds the word latched while it waits for an unlatched one changes nothing and
is left out.

The critical sections, the reads and the clock are history variables.
-/

namespace IndexResearch.FBTree.Latch

open List Function

/-- A critical section: when the latch was taken and released, and how often the section
called `update_version`. -/
structure Section where
  opened : Nat
  closed : Option Nat
  bumps : Nat
  deriving DecidableEq

/-- Where a thread stands in `latch_exclusive`. -/
inductive Phase where
  | outside
  /-- The word has been loaded, the compare-exchange is next. -/
  | loaded (expected : Word)
  /-- The thread holds the latch, in the given section. -/
  | holding (index : Nat)
  deriving DecidableEq

/-- A call of `begin_read` that has returned: its result, when it saw the word unlatched,
the number of version increments until then, and the sections that have written a field
since. -/
structure Reading where
  version : Word
  since : Nat
  bumps : Nat
  writers : List Nat

/-- A read for which `end_read` returned true, with the two observations of the word. -/
structure Validated where
  since : Nat
  upto : Nat
  writers : List Nat
  deriving DecidableEq

structure State where
  word : Word
  clock : Nat
  phases : Nat → Phase
  sections : List Section
  readings : Nat → Option Reading
  validated : List Validated

inductive FlagOp where
  | setOrder
  | clearOrder
  | setDelete
  | setSibling
  | clearSibling
  deriving DecidableEq

def FlagOp.apply (word : Word) : FlagOp → Option Word
  | setOrder => word.setOrder
  | clearOrder => word.clearOrder
  | setDelete => word.setDelete
  | setSibling => word.setSibling
  | clearSibling => word.clearSibling

inductive Action where
  /-- The load in `latch_exclusive`. -/
  | load (thread : Nat)
  /-- The compare-exchange in `latch_exclusive`. -/
  | exchange (thread : Nat)
  | flag (thread : Nat) (operation : FlagOp)
  | updateVersion (thread : Nat)
  /-- The holder stores to a field of the node. -/
  | write (thread : Nat)
  | unlatch (thread : Nat)
  | beginSplitting
  | endSplitting
  | beginRead (reader : Nat)
  | endRead (reader : Nat)

def bumpsOf (sections : List Section) : Nat := (sections.map Section.bumps).sum

namespace State

variable (state : State)

def move (thread : Nat) (phase : Phase) : State :=
  { state with phases := update state.phases thread phase }

/-- `latch_exclusive`, from the loaded word on. -/
def exchange (thread : Nat) (expected : Word) : State :=
  if expected.locked = false ∧ state.word = expected then
    { state.move thread (.holding state.sections.length) with
      word := expected.latched
      sections := state.sections ++ [⟨state.clock, none, 0⟩] }
  else state.move thread .outside

def updateVersion (state : State) (index : Nat) : State :=
  { state with
    word := state.word.updateVersion
    sections := state.sections.modify index fun current =>
      { current with bumps := current.bumps + 1 } }

def write (index : Nat) : State :=
  { state with
    readings := fun reader => (state.readings reader).map fun reading =>
      { reading with writers := index :: reading.writers } }

def unlatch (thread index : Nat) (word : Word) : State :=
  { state.move thread .outside with
    word := word
    sections := state.sections.modify index fun current =>
      { current with closed := some state.clock } }

def beginRead (reader : Nat) : State :=
  { state with
    readings := update state.readings reader
      (some ⟨state.word.loadVersion, state.clock, bumpsOf state.sections, []⟩) }

/-- `end_read(version)`, from the unlatched word on. -/
def endRead (reading : Reading) : State :=
  if state.word.loadVersion = reading.version then
    { state with
      validated := state.validated ++ [⟨reading.since, state.clock, reading.writers⟩] }
  else state

def act : Action → Option State
  | .load thread =>
    match state.phases thread with
    | .outside => some (state.move thread (.loaded state.word))
    | _ => none
  | .exchange thread =>
    match state.phases thread with
    | .loaded expected => some (state.exchange thread expected)
    | _ => none
  | .flag thread operation =>
    match state.phases thread with
    | .holding _ => (operation.apply state.word).map fun word => { state with word := word }
    | _ => none
  | .updateVersion thread =>
    match state.phases thread with
    | .holding index => some (state.updateVersion index)
    | _ => none
  | .write thread =>
    match state.phases thread with
    | .holding index => some (state.write index)
    | _ => none
  | .unlatch thread =>
    match state.phases thread with
    | .holding index => state.word.unlatchExclusive.map (state.unlatch thread index)
    | _ => none
  | .beginSplitting => state.word.beginSplitting.map fun word => { state with word := word }
  | .endSplitting => state.word.endSplitting.map fun word => { state with word := word }
  | .beginRead reader => if state.word.locked then none else some (state.beginRead reader)
  | .endRead reader =>
    match state.readings reader with
    | some reading => if state.word.locked then none else some (state.endRead reading)
    | none => none

def next (action : Action) : Option State :=
  (state.act action).map fun after => { after with clock := state.clock + 1 }

end State

def machine : Machine State Action where
  initial state := (∃ isLeaf, state.word = Word.new isLeaf) ∧ state.clock = 0 ∧
    (∀ thread, state.phases thread = .outside) ∧ state.sections = [] ∧
    (∀ reader, state.readings reader = none) ∧ state.validated = []
  next := State.next

variable (state : State)

/-- Fewer than `2 ^ 40` version increments happen during a read. -/
def ShortReads : Action → Prop
  | .endRead reader => ∀ reading, state.readings reader = some reading →
      bumpsOf state.sections - reading.bumps < 2 ^ 40
  | _ => True

def Overlaps (opened : Section) (read : Validated) : Prop :=
  opened.opened ≤ read.upto ∧ ∀ time, opened.closed = some time → read.since ≤ time

/-! ## Steps of the sections -/

/-- What an action at time `clock` can do to the sections. -/
inductive SectionStep (clock : Nat) (sections : List Section) : List Section → Prop
  | same : SectionStep clock sections sections
  | opens : SectionStep clock sections (sections ++ [⟨clock, none, 0⟩])
  /-- A section that is open changes but for its beginning. -/
  | changes {index : Nat} {current changed : Section} (found : sections[index]? = some current)
      (isOpen : current.closed = none) (sameStart : changed.opened = current.opened) :
      SectionStep clock sections (sections.set index changed)

variable {clock : Nat} {sections : List Section} {read : Validated}

theorem SectionStep.behind {time : Nat} {before after sections' : List Section}
    {kept : Section → Nat → Prop} (step : SectionStep clock (before ++ after) sections')
    (closed : ∀ past ∈ before, ∃ time, past.closed = some time ∧ kept past time)
    (later : ∀ recent ∈ after, time < recent.opened) (elapsed : time < clock) :
    ∃ after', sections' = before ++ after' ∧ (∀ recent ∈ after', time < recent.opened) ∧
      after.length ≤ after'.length := by
  cases step with
  | same => exact ⟨after, rfl, later, le_refl _⟩
  | opens =>
    refine ⟨after ++ [⟨clock, none, 0⟩], append_assoc _ _ _, ?_, by simp⟩
    intro recent listed
    rcases mem_append.mp listed with old | new
    · exact later recent old
    · rw [mem_singleton.mp new]
      exact elapsed
  | @changes index current changed found isOpen sameStart =>
    have beyond : before.length ≤ index := by
      by_contra inside
      rw [getElem?_append_left (by omega)] at found
      obtain ⟨time, closedAt, _⟩ := closed current (mem_of_getElem? found)
      rw [isOpen] at closedAt
      cases closedAt
    rw [getElem?_append_right beyond] at found
    refine ⟨after.set (index - before.length) changed, ?_, ?_, by simp⟩
    · rw [set_append_right _ _ beyond]
    · intro recent listed
      rcases mem_or_eq_of_mem_set listed with old | rfl
      · exact later recent old
      · rw [sameStart]
        exact later current (mem_of_getElem? found)

theorem SectionStep.length_le {sections' : List Section}
    (step : SectionStep clock sections sections') : sections.length ≤ sections'.length := by
  cases step with
  | same => exact le_refl _
  | opens => simp
  | changes => simp

/-! ## Reads -/

/-- The sections before the read were closed, those after it have their version increments
still to be seen. -/
def Reading.Consistent (reading : Reading) (clock : Nat) (sections : List Section) : Prop :=
  reading.since < clock ∧ reading.version.toNat = reading.bumps % 2 ^ 40 * 2 ^ 24 ∧
    ∃ before after, sections = before ++ after ∧
      (∀ past ∈ before, ∃ time, past.closed = some time ∧ time < reading.since) ∧
      (∀ recent ∈ after, reading.since < recent.opened) ∧ bumpsOf before = reading.bumps ∧
      ∀ index ∈ reading.writers, before.length ≤ index ∧ index < sections.length

/-- The sections up to the second observation were closed, and those that were not closed
before the first one made no version increment. -/
def Validated.Consistent (read : Validated) (clock : Nat) (sections : List Section) : Prop :=
  read.upto < clock ∧ ∃ before after, sections = before ++ after ∧
    (∀ past ∈ before, ∃ time, past.closed = some time ∧ (past.bumps = 0 ∨ time < read.since)) ∧
    (∀ recent ∈ after, read.upto < recent.opened) ∧
    ∀ index ∈ read.writers, ∃ past, before[index]? = some past ∧ past.bumps = 0

theorem Reading.Consistent.step {reading : Reading} {sections' : List Section}
    (consistent : reading.Consistent clock sections)
    (step : SectionStep clock sections sections') : reading.Consistent (clock + 1) sections' := by
  obtain ⟨elapsed, version, before, after, rfl, closed, later, bumps, writers⟩ := consistent
  have longer := step.length_le
  obtain ⟨after', rfl, stillLater, _⟩ := step.behind closed later elapsed
  refine ⟨Nat.lt_succ_of_lt elapsed, version, before, after', rfl, closed, stillLater, bumps, ?_⟩
  intro index listed
  obtain ⟨above, below⟩ := writers index listed
  exact ⟨above, Nat.lt_of_lt_of_le below longer⟩

theorem Validated.Consistent.step {sections' : List Section}
    (consistent : read.Consistent clock sections)
    (step : SectionStep clock sections sections') : read.Consistent (clock + 1) sections' := by
  obtain ⟨elapsed, before, after, rfl, closed, later, writers⟩ := consistent
  obtain ⟨after', rfl, stillLater, _⟩ := step.behind closed later elapsed
  exact ⟨Nat.lt_succ_of_lt elapsed, before, after', rfl, closed, stillLater, writers⟩

theorem bumpsOf_append (left right : List Section) :
    bumpsOf (left ++ right) = bumpsOf left + bumpsOf right := by
  simp [bumpsOf]

theorem bumps_eq_zero (none : bumpsOf sections = 0) : ∀ listed ∈ sections, listed.bumps = 0 := by
  intro listed member
  exact sum_eq_zero_iff.mp none _ (mem_map_of_mem member)

theorem Reading.Consistent.validate {reading : Reading}
    (consistent : reading.Consistent clock sections) (shut : ∀ past ∈ sections, past.closed ≠ none)
    (short : bumpsOf sections - reading.bumps < 2 ^ 40)
    (sameVersion : bumpsOf sections % 2 ^ 40 * 2 ^ 24 = reading.version.toNat) :
    Validated.Consistent ⟨reading.since, clock, reading.writers⟩ (clock + 1) sections := by
  obtain ⟨_, version, before, after, rfl, closed, _, bumps, writers⟩ := consistent
  rw [bumpsOf_append, bumps] at short sameVersion
  have none : bumpsOf after = 0 := by
    rw [version] at sameVersion
    omega
  have silent := bumps_eq_zero none
  refine ⟨Nat.lt_succ_self _, before ++ after, [], by simp, ?_, nofun, ?_⟩
  · intro past listed
    rcases mem_append.mp listed with old | recent
    · obtain ⟨time, closedAt, early⟩ := closed past old
      exact ⟨time, closedAt, .inr early⟩
    · obtain ⟨time, closedAt⟩ := Option.ne_none_iff_exists'.mp (shut past listed)
      exact ⟨time, closedAt, .inl (silent past recent)⟩
  · intro index listed
    obtain ⟨above, inside⟩ := writers index listed
    refine ⟨(before ++ after)[index], getElem?_eq_getElem inside, ?_⟩
    apply silent
    rw [getElem_append_right above]
    exact getElem_mem _

theorem Validated.Consistent.not_overlaps
    (consistent : read.Consistent clock sections) {member : Section} (listed : member ∈ sections)
    (bumped : 0 < member.bumps) : ¬Overlaps member read := by
  obtain ⟨_, before, after, rfl, closed, later, _⟩ := consistent
  rintro ⟨started, ended⟩
  rcases mem_append.mp listed with old | recent
  · obtain ⟨time, closedAt, silent | early⟩ := closed member old
    · omega
    · have := ended time closedAt
      omega
  · have := later member recent
    omega

theorem Validated.Consistent.writers_silent (consistent : read.Consistent clock sections)
    {index : Nat}
    (wrote : index ∈ read.writers) : ∃ past, sections[index]? = some past ∧ past.bumps = 0 := by
  obtain ⟨_, before, after, rfl, _, _, writers⟩ := consistent
  obtain ⟨past, found, silent⟩ := writers index wrote
  refine ⟨past, ?_, silent⟩
  rw [getElem?_append_left (List.getElem?_eq_some_iff.mp found).1]
  exact found

/-! ## The invariant -/

structure Core (clock : Nat) (word : Word) (phases : Nat → Phase) (sections : List Section) :
    Prop where
  coded : ∃ control, word.Codes control ∧ control.version = bumpsOf sections ∧
    ∀ thread index, phases thread = .holding index → control.lock = true
  exclusive : ∀ thread other index otherIndex, phases thread = .holding index →
    phases other = .holding otherIndex → thread = other
  current : ∀ thread index, phases thread = .holding index →
    ∃ entry, sections[index]? = some entry ∧ entry.closed = none
  held : ∀ index entry, sections[index]? = some entry → entry.closed = none →
    ∃ thread, phases thread = .holding index
  past : ∀ entry ∈ sections, ∀ time, entry.closed = some time → time < clock

structure Invariant (state : State) : Prop
    extends Core state.clock state.word state.phases state.sections where
  readings : ∀ reader reading, state.readings reader = some reading →
    reading.Consistent state.clock state.sections
  validated : ∀ read ∈ state.validated, read.Consistent state.clock state.sections

namespace Core

variable {clock : Nat} {word word' : Word} {phases : Nat → Phase} {sections : List Section}
  {thread index : Nat}

section

variable (core : Core clock word phases sections)
include core

theorem shut_of_unlocked (unlocked : word.locked = false) :
    ∀ entry ∈ sections, entry.closed ≠ none := by
  intro entry listed isOpen
  obtain ⟨index, found⟩ := mem_iff_getElem?.mp listed
  obtain ⟨thread, holds⟩ := core.held index entry found isOpen
  obtain ⟨control, codes, _, lock⟩ := core.coded
  rw [codes.locked_eq, lock thread index holds] at unlocked
  cases unlocked

theorem not_holding (unlocked : word.locked = false) : phases thread ≠ .holding index := by
  intro holds
  obtain ⟨control, codes, _, lock⟩ := core.coded
  rw [codes.locked_eq, lock thread index holds] at unlocked
  cases unlocked

theorem tick : Core (clock + 1) word phases sections where
  coded := core.coded
  exclusive := core.exclusive
  current := core.current
  held := core.held
  past entry listed time closed := Nat.lt_succ_of_lt (core.past entry listed time closed)

theorem withWord (same : ∀ control, word.Codes control → ∃ control', word'.Codes control' ∧
      control'.version = control.version ∧ control'.lock = control.lock) :
    Core clock word' phases sections where
  coded := by
    obtain ⟨control, codes, version, lock⟩ := core.coded
    obtain ⟨control', codes', version', lock'⟩ := same control codes
    refine ⟨control', codes', version'.trans version, ?_⟩
    intro thread index holds
    rw [lock']
    exact lock thread index holds
  exclusive := core.exclusive
  current := core.current
  held := core.held
  past := core.past

end

theorem moveOutside (phase : Phase) (core : Core clock word phases sections)
    (free : ∀ index, phases thread ≠ .holding index) (stillFree : ∀ index, phase ≠ .holding index) :
    Core clock word (update phases thread phase) sections := by
  have holding : ∀ other index, update phases thread phase other = .holding index ↔
      phases other = .holding index := by
    intro other index
    by_cases same : other = thread
    · subst same
      rw [update_self]
      exact ⟨fun holds => absurd holds (stillFree index), fun holds => absurd holds (free index)⟩
    · rw [update_of_ne same]
  refine ⟨?_, ?_, ?_, ?_, core.past⟩
  · obtain ⟨control, codes, version, lock⟩ := core.coded
    exact ⟨control, codes, version, fun other index holds =>
      lock other index ((holding other index).mp holds)⟩
  · intro first second index otherIndex firstHolds secondHolds
    exact core.exclusive first second index otherIndex ((holding _ _).mp firstHolds)
      ((holding _ _).mp secondHolds)
  · exact fun other index holds => core.current other index ((holding other index).mp holds)
  · intro index entry found isOpen
    obtain ⟨other, holds⟩ := core.held index entry found isOpen
    exact ⟨other, (holding other index).mpr holds⟩

theorem latch (core : Core clock word phases sections) (unlocked : word.locked = false) :
    Core (clock + 1) word.latched (update phases thread (.holding sections.length))
      (sections ++ [⟨clock, none, 0⟩]) := by
  have only : ∀ other index,
      update phases thread (.holding sections.length) other = .holding index →
        other = thread ∧ index = sections.length := by
    intro other index holds
    by_cases same : other = thread
    · subst same
      rw [update_self] at holds
      exact ⟨rfl, (Phase.holding.inj holds).symm⟩
    · rw [update_of_ne same] at holds
      exact absurd holds (core.not_holding unlocked)
  refine ⟨?_, ?_, ?_, ?_, ?_⟩
  · obtain ⟨control, codes, version, _⟩ := core.coded
    refine ⟨_, codes.latched (codes.locked_eq ▸ unlocked), ?_, fun _ _ _ => rfl⟩
    rw [bumpsOf_append]
    exact version
  · intro first second index otherIndex firstHolds secondHolds
    rw [(only first index firstHolds).1, (only second otherIndex secondHolds).1]
  · intro other index holds
    rw [(only other index holds).2]
    exact ⟨⟨clock, none, 0⟩, by simp, rfl⟩
  · intro index entry found isOpen
    refine ⟨thread, ?_⟩
    rw [update_self]
    rcases Nat.lt_or_ge index sections.length with old | new
    · rw [getElem?_append_left old] at found
      exact absurd isOpen (core.shut_of_unlocked unlocked entry (mem_of_getElem? found))
    · have inside := (List.getElem?_eq_some_iff.mp found).1
      rw [length_append, length_singleton] at inside
      rw [show index = sections.length by omega]
  · intro entry listed time closed
    rcases mem_append.mp listed with old | new
    · exact Nat.lt_succ_of_lt (core.past entry old time closed)
    · rw [mem_singleton.mp new] at closed
      cases closed

theorem getElem?_set_cases {changed other : Section} {pos : Nat}
    (found : (sections.set index changed)[pos]? = some other) :
    pos = index ∧ other = changed ∨ pos ≠ index ∧ sections[pos]? = some other := by
  rw [getElem?_set] at found
  by_cases same : index = pos
  · rw [if_pos same] at found
    split at found
    · exact .inl ⟨same.symm, (Option.some.inj found).symm⟩
    · cases found
  · rw [if_neg same] at found
    exact .inr ⟨Ne.symm same, found⟩

theorem bumpsOf_set {current : Section} (changed : Section)
    (found : sections[index]? = some current) :
    bumpsOf (sections.set index changed) + current.bumps = bumpsOf sections + changed.bumps := by
  obtain ⟨inside, rfl⟩ := List.getElem?_eq_some_iff.mp found
  have split := set_eq_take_append_cons_drop (l := sections) (i := index) (a := changed)
  rw [if_pos inside] at split
  have whole : sections = sections.take index ++ sections[index] :: sections.drop (index + 1) := by
    simp
  rw [split]
  conv => rhs; rw [whole]
  simp only [bumpsOf, map_append, map_cons, sum_append, sum_cons]
  omega

theorem bump (core : Core clock word phases sections) (holds : phases thread = .holding index) :
    ∃ current, sections[index]? = some current ∧ current.closed = none ∧
      Core (clock + 1) word.updateVersion phases
        (sections.set index { current with bumps := current.bumps + 1 }) := by
  obtain ⟨current, found, isOpen⟩ := core.current thread index holds
  refine ⟨current, found, isOpen, ?_, core.exclusive, ?_, ?_, ?_⟩
  · obtain ⟨control, codes, version, lock⟩ := core.coded
    refine ⟨_, codes.updateVersion, ?_, lock⟩
    have counted := bumpsOf_set { current with bumps := current.bumps + 1 } found
    simp only [Control.updateVersion] at counted ⊢
    omega
  · intro other pos otherHolds
    obtain rfl := core.exclusive other thread pos index otherHolds holds
    cases otherHolds.symm.trans holds
    exact ⟨{ current with bumps := current.bumps + 1 },
      getElem?_set_self (List.getElem?_eq_some_iff.mp found).1, isOpen⟩
  · intro pos entry foundThere stillOpen
    rcases getElem?_set_cases foundThere with ⟨rfl, _⟩ | ⟨_, older⟩
    · exact ⟨thread, holds⟩
    · exact core.held pos entry older stillOpen
  · intro entry listed time closed
    rcases mem_or_eq_of_mem_set listed with old | rfl
    · exact Nat.lt_succ_of_lt (core.past entry old time closed)
    · rw [isOpen] at closed
      cases closed

theorem release (core : Core clock word phases sections) (holds : phases thread = .holding index)
    (released : word.unlatchExclusive = some word') :
    ∃ current, sections[index]? = some current ∧ current.closed = none ∧
      Core (clock + 1) word' (update phases thread .outside)
        (sections.set index { current with closed := some clock }) := by
  obtain ⟨current, found, isOpen⟩ := core.current thread index holds
  have nobody : ∀ other pos,
      update phases thread .outside other ≠ .holding pos := by
    intro other pos otherHolds
    by_cases same : other = thread
    · subst same
      rw [update_self] at otherHolds
      cases otherHolds
    · rw [update_of_ne same] at otherHolds
      exact same (core.exclusive other thread pos index otherHolds holds)
  refine ⟨current, found, isOpen, ?_, ?_, ?_, ?_, ?_⟩
  · obtain ⟨control, codes, version, _⟩ := core.coded
    refine ⟨_, codes.lower_eq_some .lock released, ?_, fun other pos otherHolds =>
      absurd otherHolds (nobody other pos)⟩
    have counted := bumpsOf_set { current with closed := some clock } found
    simp only [Word.Flag.put] at counted ⊢
    omega
  · exact fun first second _ _ firstHolds _ => absurd firstHolds (nobody _ _)
  · exact fun other pos otherHolds => absurd otherHolds (nobody other pos)
  · intro pos entry foundThere stillOpen
    rcases getElem?_set_cases foundThere with ⟨_, rfl⟩ | ⟨apart, older⟩
    · cases stillOpen
    · obtain ⟨other, otherHolds⟩ := core.held pos entry older stillOpen
      obtain rfl := core.exclusive other thread pos index otherHolds holds
      exact absurd (Phase.holding.inj (otherHolds.symm.trans holds)) apart
  · intro entry listed time closed
    rcases mem_or_eq_of_mem_set listed with old | rfl
    · exact Nat.lt_succ_of_lt (core.past entry old time closed)
    · cases closed
      exact Nat.lt_succ_self _

end Core

namespace Invariant

variable {state : State} {action : Action}

theorem kept (invariant : Invariant state) (after : State)
    (core : Core (state.clock + 1) after.word after.phases after.sections)
    (step : SectionStep state.clock state.sections after.sections)
    (sameReadings : after.readings = state.readings)
    (sameValidated : after.validated = state.validated) :
    Invariant { after with clock := state.clock + 1 } where
  toCore := core
  readings reader reading found :=
    (invariant.readings reader reading (sameReadings ▸ found)).step step
  validated read listed := (invariant.validated read (sameValidated ▸ listed)).step step

theorem initially (starts : machine.initial state) : Invariant state := by
  obtain ⟨⟨isLeaf, word⟩, _, phases, sections, readings, validated⟩ := starts
  refine ⟨⟨⟨Control.new isLeaf, word ▸ Word.Codes.new isLeaf, ?_, ?_⟩, ?_, ?_, ?_, ?_⟩, ?_, ?_⟩
  · rw [sections]
    rfl
  · exact fun thread _ holds => absurd ((phases thread).symm.trans holds) nofun
  · exact fun thread _ _ _ holds => absurd ((phases thread).symm.trans holds) nofun
  · exact fun thread _ holds => absurd ((phases thread).symm.trans holds) nofun
  · intro index entry found
    rw [sections] at found
    cases found
  · intro entry listed
    rw [sections] at listed
    exact absurd listed not_mem_nil
  · exact fun reader _ found => absurd ((readings reader).symm.trans found) nofun
  · intro read listed
    rw [validated] at listed
    exact absurd listed not_mem_nil

theorem flagOp_codes {word word' : Word} {control : Control} {operation : FlagOp}
    (codes : word.Codes control) (applied : operation.apply word = some word') :
    ∃ control', word'.Codes control' ∧ control'.version = control.version ∧
      control'.lock = control.lock := by
  cases operation with
  | setOrder => exact ⟨_, codes.raise_eq_some .ordered applied, rfl, rfl⟩
  | clearOrder => exact ⟨_, codes.lower_eq_some .ordered applied, rfl, rfl⟩
  | setDelete => exact ⟨_, codes.raise_eq_some .deleted applied, rfl, rfl⟩
  | setSibling => exact ⟨_, codes.raise_eq_some .sibling applied, rfl, rfl⟩
  | clearSibling => exact ⟨_, codes.lower_eq_some .sibling applied, rfl, rfl⟩

section

variable (invariant : Invariant state)
include invariant

theorem exchange {thread : Nat} {expected : Word}
    (loaded : state.phases thread = .loaded expected) :
    Invariant { state.exchange thread expected with clock := state.clock + 1 } := by
  rw [State.exchange]
  split
  · rename_i succeeds
    obtain ⟨unlocked, rfl⟩ := succeeds
    exact invariant.kept _ (invariant.latch unlocked) .opens rfl rfl
  · refine invariant.kept _ (invariant.toCore.moveOutside .outside ?_ nofun).tick .same rfl rfl
    intro index holds
    exact absurd (loaded.symm.trans holds) nofun

theorem write {thread index : Nat} (holds : state.phases thread = .holding index) :
    Invariant { state.write index with clock := state.clock + 1 } := by
  obtain ⟨current, found, isOpen⟩ := invariant.current thread index holds
  have inside := (List.getElem?_eq_some_iff.mp found).1
  refine ⟨invariant.toCore.tick, ?_, fun read listed =>
    (invariant.validated read listed).step .same⟩
  intro reader reading written
  obtain ⟨older, begun, rfl⟩ := Option.map_eq_some_iff.mp written
  obtain ⟨elapsed, version, before, later, split, closed, after, bumps, writers⟩ :=
    (invariant.readings reader older begun).step .same
  refine ⟨elapsed, version, before, later, split, closed, after, bumps, ?_⟩
  intro writer listed
  rcases mem_cons.mp listed with rfl | earlier
  · refine ⟨?_, inside⟩
    by_contra early
    rw [split, List.getElem?_append_left (by omega)] at found
    obtain ⟨time, closedAt, _⟩ := closed current (mem_of_getElem? found)
    rw [isOpen] at closedAt
    cases closedAt
  · exact writers writer earlier

theorem beginRead (reader : Nat) (unlocked : state.word.locked = false) :
    Invariant { state.beginRead reader with clock := state.clock + 1 } := by
  refine ⟨invariant.toCore.tick, ?_, fun read listed =>
    (invariant.validated read listed).step .same⟩
  intro other reading found
  by_cases same : other = reader
  · subst same
    simp only [State.beginRead, update_self, Option.some.injEq] at found
    subst found
    obtain ⟨control, codes, version, _⟩ := invariant.coded
    refine ⟨Nat.lt_succ_self _, ?_, state.sections, [], by simp [State.beginRead], ?_, nofun, rfl,
      nofun⟩
    · rw [codes.toNat_loadVersion, version]
    · intro past listed
      obtain ⟨time, closedAt⟩ :=
        Option.ne_none_iff_exists'.mp (invariant.shut_of_unlocked unlocked past listed)
      exact ⟨time, closedAt, invariant.past past listed time closedAt⟩
  · simp only [State.beginRead, update_of_ne same] at found
    exact (invariant.readings other reading found).step .same

theorem endRead {reader : Nat} {reading : Reading}
    (found : state.readings reader = some reading) (unlocked : state.word.locked = false)
    (short : bumpsOf state.sections - reading.bumps < 2 ^ 40) :
    Invariant { state.endRead reading with clock := state.clock + 1 } := by
  rw [State.endRead]
  split
  · rename_i same
    refine ⟨invariant.toCore.tick,
      fun other otherReading begun => (invariant.readings other otherReading begun).step .same, ?_⟩
    intro read listed
    rcases mem_append.mp listed with old | new
    · exact (invariant.validated read old).step .same
    · rw [mem_singleton.mp new]
      obtain ⟨control, codes, version, _⟩ := invariant.coded
      apply (invariant.readings reader reading found).validate
        (invariant.shut_of_unlocked unlocked) short
      rw [← same, codes.toNat_loadVersion, version]
  · exact invariant.kept _ invariant.toCore.tick .same rfl rfl

theorem act {after : State} (short : ShortReads state action)
    (acted : state.act action = some after) :
    Invariant { after with clock := state.clock + 1 } := by
  cases action with
  | load thread =>
    rw [State.act] at acted
    split at acted
    · rename_i outside
      cases acted
      refine invariant.kept _ (invariant.toCore.moveOutside (.loaded state.word) ?_ nofun).tick
        .same rfl rfl
      exact fun index holds => absurd (outside.symm.trans holds) nofun
    · cases acted
  | exchange thread =>
    rw [State.act] at acted
    split at acted
    · rename_i expected loaded
      cases acted
      exact invariant.exchange loaded
    · cases acted
  | flag thread operation =>
    rw [State.act] at acted
    split at acted
    · obtain ⟨word, applied, rfl⟩ := Option.map_eq_some_iff.mp acted
      exact invariant.kept _
        (invariant.toCore.tick.withWord fun control codes => flagOp_codes codes applied) .same rfl
          rfl
    · cases acted
  | updateVersion thread =>
    rw [State.act] at acted
    split at acted
    · rename_i index holds
      obtain rfl := Option.some.inj acted
      obtain ⟨current, found, isOpen, core⟩ := invariant.bump holds
      -- the fields are rewritten: comparing whole states would compute with the word
      have sections : (state.updateVersion index).sections =
          state.sections.set index { current with bumps := current.bumps + 1 } := by
        simp [State.updateVersion, modify_eq_set_getElem?, found]
      have phases : (state.updateVersion index).phases = state.phases := by
        rw [State.updateVersion]
      have word : (state.updateVersion index).word = state.word.updateVersion := by
        rw [State.updateVersion]
      refine invariant.kept (state.updateVersion index) ?_ ?_ (by rw [State.updateVersion])
        (by rw [State.updateVersion])
      · rw [sections, phases, word]
        exact core
      · rw [sections]
        exact .changes found isOpen rfl
    · cases acted
  | write thread =>
    rw [State.act] at acted
    split at acted
    · rename_i index holds
      cases acted
      exact invariant.write holds
    · cases acted
  | unlatch thread =>
    rw [State.act] at acted
    split at acted
    · rename_i index holds
      obtain ⟨word, released, rfl⟩ := Option.map_eq_some_iff.mp acted
      obtain ⟨current, found, isOpen, core⟩ := invariant.release holds released
      have sections : (state.unlatch thread index word).sections =
          state.sections.set index { current with closed := some state.clock } := by
        simp [State.unlatch, modify_eq_set_getElem?, found]
      refine invariant.kept (state.unlatch thread index word) ?_ ?_ rfl rfl
      · rw [sections]
        exact core
      · rw [sections]
        exact .changes found isOpen rfl
    · cases acted
  | beginSplitting =>
    obtain ⟨word, began, rfl⟩ := Option.map_eq_some_iff.mp acted
    exact invariant.kept _ (invariant.toCore.tick.withWord fun control codes =>
      ⟨_, codes.beginSplitting_eq_some began, rfl, rfl⟩) .same rfl rfl
  | endSplitting =>
    obtain ⟨word, ended, rfl⟩ := Option.map_eq_some_iff.mp acted
    exact invariant.kept _ (invariant.toCore.tick.withWord fun control codes =>
      ⟨_, codes.endSplitting_eq_some ended, rfl, rfl⟩) .same rfl rfl
  | beginRead reader =>
    rw [State.act] at acted
    split at acted
    · cases acted
    · rename_i unlocked
      cases acted
      exact invariant.beginRead reader (eq_false_of_ne_true unlocked)
  | endRead reader =>
    rw [State.act] at acted
    split at acted
    · rename_i reading found
      split at acted
      · cases acted
      · rename_i unlocked
        cases acted
        exact invariant.endRead found (eq_false_of_ne_true unlocked) (short reading found)
    · cases acted

end

end Invariant

/-- Latches are exclusive, and a section that incremented the version was neither open at
the observations of a validated read nor did it run between them; the sections that wrote
a field during the read made no increment. -/
theorem optimistic_read_sound {state : State} (reached : machine.Reachable ShortReads state) :
    (∀ thread other index otherIndex, state.phases thread = .holding index →
      state.phases other = .holding otherIndex → thread = other) ∧
    ∀ read ∈ state.validated,
      (∀ entry ∈ state.sections, 0 < entry.bumps → ¬Overlaps entry read) ∧
      ∀ index ∈ read.writers, ∃ entry, state.sections[index]? = some entry ∧ entry.bumps = 0 := by
  have invariant : Invariant state := by
    apply reached.invariant
    · exact fun state starts => Invariant.initially starts
    · intro state action state' holds short moved
      obtain ⟨after, acted, rfl⟩ := Option.map_eq_some_iff.mp moved
      exact holds.act short acted
  refine ⟨invariant.exclusive, ?_⟩
  intro read listed
  have consistent := invariant.validated read listed
  exact ⟨fun entry member bumped => consistent.not_overlaps member bumped,
    fun index wrote => consistent.writers_silent wrote⟩

def start : State := ⟨Word.new true, 0, fun _ => .outside, [], fun _ => none, []⟩

variable (state : State)

/-- A test of `ShortReads`. -/
def shortReads : Action → Bool
  | .endRead reader => (state.readings reader).all fun reading =>
    decide (bumpsOf state.sections - reading.bumps < 2 ^ 40)
  | _ => true

theorem shortReads_sound (action : Action) (checked : shortReads state action = true) :
    ShortReads state action := by
  cases action with
  | endRead reader =>
    intro reading found
    simpa [shortReads, found] using checked
  | _ => trivial

def readAfterChange : State :=
  (machine.execChecked shortReads start
    [.load 1, .exchange 1, .write 1, .updateVersion 1, .unlatch 1, .beginRead 0, .endRead 0]).getD
    start

theorem readAfterChange_sound :
    readAfterChange.validated = [⟨5, 6, []⟩] ∧ readAfterChange.sections = [⟨1, some 4, 1⟩] ∧
      ¬Overlaps ⟨1, some 4, 1⟩ ⟨5, 6, []⟩ := by
  have validated : readAfterChange.validated = [⟨5, 6, []⟩] := by decide +kernel
  have sections : readAfterChange.sections = [⟨1, some 4, 1⟩] := by decide +kernel
  have initial : machine.Reachable ShortReads start :=
    .start ⟨⟨true, rfl⟩, rfl, fun _ => rfl, rfl, fun _ => rfl, rfl⟩
  have runs : (machine.execChecked shortReads start
      [.load 1, .exchange 1, .write 1, .updateVersion 1, .unlatch 1, .beginRead 0,
        .endRead 0]).isSome = true := by decide +kernel
  obtain ⟨state, executed⟩ := Option.isSome_iff_exists.mp runs
  have reached : machine.Reachable ShortReads readAfterChange := by
    rw [readAfterChange, executed]
    exact initial.execChecked shortReads_sound executed
  refine ⟨validated, sections, ?_⟩
  have sound := (optimistic_read_sound reached).2 ⟨5, 6, []⟩ (by simp [validated])
  exact sound.1 ⟨1, some 4, 1⟩ (by simp [sections]) (by decide)

end IndexResearch.FBTree.Latch
