import Mathlib.Tactic

/-!
# Counted loops that may fail

The two forms of a counted `for` loop over a state, with the invariant rule of each,
computations that follow a partial function, and runs of actions that may be refused.
-/

namespace IndexResearch

universe u v

variable {Error : Type u} {State : Type v}

/-- `for(i = start; i < start + count; i++) body(i)`. -/
def forUp (body : Nat → State → Except Error State) :
    (count start : Nat) → State → Except Error State
  | 0, _, state => .ok state
  | count + 1, start, state => do
      let state ← body start state
      forUp body count (start + 1) state

/-- `for(i = high; i > low; i--) body(i)`. -/
def forDown (body : Nat → State → Except Error State) (low : Nat) :
    (high : Nat) → State → Except Error State
  | 0, state => .ok state
  | high + 1, state =>
    if low < high + 1 then do
      let state ← body (high + 1) state
      forDown body low high state
    else .ok state

theorem forUp_rule (body : Nat → State → Except Error State) (Invariant : Nat → State → Prop)
    (count start : Nat) {state : State} (holds : Invariant start state)
    (step : ∀ index state, start ≤ index → index < start + count → Invariant index state →
      ∃ next, body index state = .ok next ∧ Invariant (index + 1) next) :
    ∃ final, forUp body count start state = .ok final ∧ Invariant (start + count) final := by
  induction count generalizing start state with
  | zero => exact ⟨state, rfl, holds⟩
  | succ count ih =>
    obtain ⟨next, bodyEq, nextHolds⟩ := step start state (Nat.le_refl start) (by omega) holds
    obtain ⟨final, restEq, finalHolds⟩ := ih (start + 1) nextHolds
      fun index state lower upper => step index state (by omega) (by omega)
    refine ⟨final, ?_, ?_⟩
    · rw [forUp, bodyEq]
      exact restEq
    · rwa [Nat.add_right_comm, Nat.add_assoc] at finalHolds

theorem forDown_rule (body : Nat → State → Except Error State) (Invariant : Nat → State → Prop)
    {low high : Nat} {state : State} (ordered : low ≤ high) (holds : Invariant high state)
    (step : ∀ index state, low ≤ index → index < high → Invariant (index + 1) state →
      ∃ next, body (index + 1) state = .ok next ∧ Invariant index next) :
    ∃ final, forDown body low high state = .ok final ∧ Invariant low final := by
  induction high generalizing state with
  | zero =>
    obtain rfl : low = 0 := Nat.le_zero.mp ordered
    exact ⟨state, rfl, holds⟩
  | succ high ih =>
    rw [forDown]
    by_cases more : low < high + 1
    · rw [if_pos more]
      obtain ⟨next, bodyEq, nextHolds⟩ :=
        step high state (Nat.le_of_lt_succ more) (Nat.lt_succ_self high) holds
      obtain ⟨final, restEq, finalHolds⟩ := ih (Nat.le_of_lt_succ more) nextHolds
        fun index state lower upper => step index state lower (Nat.lt_succ_of_lt upper)
      refine ⟨final, ?_, finalHolds⟩
      rw [bodyEq]
      exact restEq
    · obtain rfl : low = high + 1 := by omega
      rw [if_neg more]
      exact ⟨state, rfl, holds⟩

theorem ok_bind {Item Result : Type v} (item : Item) (rest : Item → Except Error Result) :
    (.ok item >>= rest : Except Error Result) = rest item := rfl

theorem bind_eq_ok {Item Result : Type v} {first : Except Error Item}
    {rest : Item → Except Error Result} {result : Result} :
    first >>= rest = .ok result ↔ ∃ item, first = .ok item ∧ rest item = .ok result := by
  cases first with
  | error fault => exact ⟨nofun, fun ⟨_, absurdity, _⟩ => absurd absurdity nofun⟩
  | ok item =>
    exact ⟨fun ends => ⟨item, rfl, ends⟩, fun ⟨_, same, ends⟩ => by cases same; exact ends⟩

theorem map_eq_ok {Item Result : Type v} {first : Except Error Item} {read : Item → Result}
    {result : Result} :
    first.map read = .ok result ↔ ∃ item, first = .ok item ∧ read item = result := by
  cases first with
  | error fault => exact ⟨nofun, fun ⟨_, absurdity, _⟩ => absurd absurdity nofun⟩
  | ok item =>
    constructor
    · exact fun ends => ⟨item, rfl, Except.ok.inj ends⟩
    · rintro ⟨_, ⟨⟩, rfl⟩
      rfl

theorem toOption_eq_some {Value : Type v} {result : Except Error Value} {value : Value} :
    result.toOption = some value ↔ result = .ok value := by
  cases result with
  | error fault => exact ⟨nofun, nofun⟩
  | ok item => exact ⟨fun same => congrArg _ (Option.some.inj same), fun same =>
    congrArg _ (Except.ok.inj same)⟩

theorem exists_ok_map {Value Other : Type v} {result : Except Error Value}
    (returns : ∃ value, result = .ok value) (image : Value → Other) :
    ∃ value, result.map image = .ok value := by
  obtain ⟨value, rfl⟩ := returns
  exact ⟨image value, rfl⟩

theorem exists_ok_bind {Value Other : Type v} {result : Except Error Value}
    {next : Value → Except Error Other} (returns : ∃ value, result = .ok value)
    (nextReturns : ∀ value, result = .ok value → ∃ other, next value = .ok other) :
    ∃ other, (result >>= next) = .ok other := by
  obtain ⟨value, rfl⟩ := returns
  exact nextReturns value rfl

/-- A computation that returns where a partial function has a value, with a related one,
and fails with `fault` where it has none. -/
def Follows {Value Other : Type v} (fault : Error) (related : Value → Other → Prop)
    (result : Except Error Value) : Option Other → Prop
  | none => result = .error fault
  | some other => ∃ value, result = .ok value ∧ related value other

namespace Follows

variable {Value Other Value' Other' : Type v} {fault : Error} {related : Value → Other → Prop}
  {related' : Value' → Other' → Prop} {result : Except Error Value} {outcome : Option Other}

section

variable (follows : Follows fault related result outcome)
include follows

theorem bind {next : Value → Except Error Value'} {nextOutcome : Other → Option Other'}
    (nextFollows : ∀ value other, outcome = some other → related value other →
      Follows fault related' (next value) (nextOutcome other)) :
    Follows fault related' (result.bind next) (outcome.bind nextOutcome) := by
  cases outcome with
  | none =>
    rw [show result = .error fault from follows]
    rfl
  | some other =>
    obtain ⟨value, rfl, here⟩ := follows
    exact nextFollows value other rfl here

variable {imageOutcome : Other → Other'}

theorem map {image : Value → Value'}
    (kept : ∀ value other, outcome = some other → related value other →
      related' (image value) (imageOutcome other)) :
    Follows fault related' (result.map image) (outcome.map imageOutcome) := by
  cases outcome with
  | none =>
    rw [show result = .error fault from follows]
    rfl
  | some other =>
    obtain ⟨value, rfl, here⟩ := follows
    exact ⟨image value, rfl, kept value other rfl here⟩

theorem mono {related' : Value → Other' → Prop}
    (kept : ∀ value other, outcome = some other → related value other →
      related' value (imageOutcome other)) :
    Follows fault related' result (outcome.map imageOutcome) := by
  cases outcome with
  | none => exact follows
  | some other =>
    obtain ⟨value, rfl, here⟩ := follows
    exact ⟨value, rfl, kept value other rfl here⟩

end

end Follows

def Simulates {Value Other : Type v} (related : Value → Other → Prop) :
    Except Error Value → Except Error Other → Prop
  | .ok value, .ok other => related value other
  | .error fault, .error reason => fault = reason
  | _, _ => False

namespace Simulates

variable {Value Other Value' Other' : Type v} {related : Value → Other → Prop}
  {related' : Value' → Other' → Prop} {result : Except Error Value} {outcome : Except Error Other}

theorem bind {next : Value → Except Error Value'} {nextOutcome : Other → Except Error Other'}
    (simulates : Simulates related result outcome)
    (nextSimulates : ∀ value other, outcome = .ok other → related value other →
      Simulates related' (next value) (nextOutcome other)) :
    Simulates related' (result >>= next) (outcome >>= nextOutcome) := by
  cases result with
  | error fault =>
    cases outcome with
    | error reason => exact simulates
    | ok other => exact simulates.elim
  | ok value =>
    cases outcome with
    | error reason => exact simulates.elim
    | ok other => exact nextSimulates value other rfl simulates

theorem of_follows {fault : Error} {optional : Option Other} {before : Value → Other → Prop}
    (follows : Follows fault before result optional)
    (kept : ∀ value other, optional = some other → before value other → related value other) :
    Simulates related result (optional.elim (.error fault) .ok) := by
  cases optional with
  | none =>
    rw [show result = .error fault from follows]
    rfl
  | some other =>
    obtain ⟨value, rfl, here⟩ := follows
    exact kept value other rfl here

theorem exists_ok {other : Other} (simulates : Simulates related result outcome)
    (returns : outcome = .ok other) : ∃ value, result = .ok value ∧ related value other := by
  subst returns
  cases result with
  | error fault => exact simulates.elim
  | ok value => exact ⟨value, rfl, simulates⟩

theorem eq_error {fault : Error} (simulates : Simulates related result outcome)
    (fails : outcome = .error fault) : result = .error fault := by
  subst fails
  cases result with
  | error reason => exact congrArg Except.error simulates
  | ok value => exact simulates.elim

end Simulates

def Ends {Value : Type v} (good : Value → Prop) (known : Error → Prop) : Except Error Value → Prop
  | .ok value => good value
  | .error fault => known fault

namespace Ends

variable {Value Value' : Type v} {good : Value → Prop} {good' : Value' → Prop}
  {known : Error → Prop} {result : Except Error Value}

section

variable (ends : Ends good known result)
include ends

theorem mono {better : Value → Prop}
    (implies : ∀ value, good value → better value) : Ends better known result := by
  cases result with
  | ok value => exact implies value ends
  | error fault => exact ends

theorem and {also : Value → Prop} (endsAlso : Ends also known result) :
    Ends (fun value => good value ∧ also value) known result := by
  cases result with
  | ok value => exact ⟨ends, endsAlso⟩
  | error fault => exact ends

theorem of_ok {value : Value} (returned : result = .ok value) : good value := by
  subst returned
  exact ends

theorem mono_error {known' : Error → Prop}
    (implies : ∀ fault, known fault → known' fault) : Ends good known' result := by
  cases result with
  | ok value => exact ends
  | error fault => exact implies fault ends

end

end Ends

/-! ## Runs -/

section Runs

variable {Action : Type*} {Answer : Type v} (step : State → Action → Except Error (Answer × State))

/-- Take the actions one after the other and collect the answers. -/
def runAll (state : State) : List Action → Except Error (List Answer × State)
  | [] => .ok ([], state)
  | action :: rest => do
      let (answer, next) ← step state action
      let (answers, last) ← runAll next rest
      return (answer :: answers, last)

/-- The actions before one of them are taken, and the state then refuses this one. -/
def StopsAt (refuses : State → Action → Error → Prop) (state : State) (actions : List Action)
    (fault : Error) : Prop :=
  ∃ before action after answers middle, actions = before ++ action :: after ∧
    runAll step state before = .ok (answers, middle) ∧ refuses middle action fault

/-- The answers are allowed by a specification that is in the state `last` in the end. -/
def Traces {Spec : Type*} (allowed : Spec → Action → Answer → Spec → Prop) (last : Spec) :
    Spec → List Action → List Answer → Prop
  | spec, [], [] => last = spec
  | spec, action :: actions, answer :: answers =>
    ∃ next, allowed spec action answer next ∧ Traces allowed last next actions answers
  | _, _, _ => False

variable {step}
variable {state : State}

theorem runAll_cons {action : Action} {outcome : Answer × State}
    (called : step state action = .ok outcome) (rest : List Action) :
    runAll step state (action :: rest) =
      (runAll step outcome.2 rest).map fun last => (outcome.1 :: last.1, last.2) := by
  rw [runAll, called]
  rfl

theorem runAll_append {front : List Action} {outcome : List Answer × State}
    (ran : runAll step state front = .ok outcome) (rest : List Action) :
    runAll step state (front ++ rest) =
      (runAll step outcome.2 rest).map fun last => (outcome.1 ++ last.1, last.2) := by
  induction front generalizing state outcome with
  | nil =>
    cases ran
    cases rested : runAll step state rest with
    | error fault | ok last => exact rested
  | cons action front ih =>
    obtain ⟨⟨answer, next⟩, called, there⟩ := bind_eq_ok.mp ran
    obtain ⟨⟨answers, middle⟩, reached, same⟩ := bind_eq_ok.mp there
    cases same
    rw [List.cons_append, runAll_cons called, ih reached]
    cases runAll step middle rest with
    | error fault | ok last => rfl

theorem Ends.runAll {Spec : Type*} (related : State → Spec → Prop)
    (allowed : Spec → Action → Answer → Spec → Prop) {valid : Action → Prop}
    {refuses : State → Action → Error → Prop}
    (stepEnds : ∀ state spec action, related state spec → valid action →
      Ends (fun result => ∃ next, allowed spec action result.1 next ∧ related result.2 next)
        (refuses state action) (step state action)) {spec : Spec} (here : related state spec)
        {actions : List Action} (allValid : ∀ action ∈ actions, valid action) :
    Ends (fun result => ∃ last, related result.2 last ∧ Traces allowed last spec actions result.1)
      (StopsAt step refuses state actions) (runAll step state actions) := by
  induction actions generalizing state spec with
  | nil => exact ⟨spec, here, rfl⟩
  | cons action rest ih =>
    obtain ⟨validHere, validThere⟩ := List.forall_mem_cons.mp allValid
    have ends := stepEnds state spec action here validHere
    cases called : step state action with
    | error fault =>
      rw [called] at ends
      rw [IndexResearch.runAll, called]
      exact ⟨[], action, rest, [], state, rfl, rfl, ends⟩
    | ok outcome =>
      rw [called] at ends
      obtain ⟨next, allows, kept⟩ := ends
      have there := ih kept validThere
      rw [runAll_cons called]
      cases ran : IndexResearch.runAll step outcome.2 rest with
      | ok result =>
        rw [ran] at there
        obtain ⟨last, keptLast, traces⟩ := there
        exact ⟨last, keptLast, next, allows, traces⟩
      | error fault =>
        rw [ran] at there
        obtain ⟨before, refused, after, answers, middle, rfl, reached, refuses⟩ := there
        refine ⟨action :: before, refused, after, outcome.1 :: answers, middle, rfl, ?_, refuses⟩
        rw [runAll_cons called, reached]
        rfl

theorem Simulates.runAll {State' : Type v}
    {step' : State' → Action → Except Error (Answer × State')}
    {related : State → State' → Prop} {valid : Action → Prop}
    (stepSimulates : ∀ state state' action, related state state' → valid action →
      Simulates (fun result outcome => result.1 = outcome.1 ∧ related result.2 outcome.2)
        (step state action) (step' state' action)) {state' : State'} (here : related state state')
        {actions : List Action} (allValid : ∀ action ∈ actions, valid action) :
    Simulates (fun result outcome => result.1 = outcome.1 ∧ related result.2 outcome.2)
      (runAll step state actions) (runAll step' state' actions) := by
  induction actions generalizing state state' with
  | nil => exact ⟨rfl, here⟩
  | cons action rest ih =>
    obtain ⟨validHere, validThere⟩ := List.forall_mem_cons.mp allValid
    rw [IndexResearch.runAll, IndexResearch.runAll]
    refine (stepSimulates state state' action here validHere).bind ?_
    rintro ⟨answer, next⟩ ⟨_, next'⟩ _ ⟨rfl, kept⟩
    refine (ih kept validThere).bind ?_
    rintro ⟨answers, last⟩ ⟨_, last'⟩ _ ⟨rfl, keptLast⟩
    exact ⟨rfl, keptLast⟩

end Runs

end IndexResearch
