import Mathlib.Tactic

/-!
# Runs of labelled transition systems

A concurrent program is given by a partial function from a state and an
action to the next state.  The scheduler is the list of actions, so a statement
about every reachable state is a statement about every interleaving.
-/

namespace IndexResearch

universe u v

structure Machine (State : Type u) (Action : Type v) where
  initial : State → Prop
  next : State → Action → Option State

namespace Machine

variable {State : Type u} {Action : Type v}

/-- States reached by runs all of whose steps satisfy `allowed`. -/
inductive Reachable (machine : Machine State Action)
    (allowed : State → Action → Prop) : State → Prop where
  | start {state} : machine.initial state → Reachable machine allowed state
  | step {state action state'} :
      Reachable machine allowed state → allowed state action →
      machine.next state action = some state' →
      Reachable machine allowed state'

def anyStep : State → Action → Prop := fun _ _ => True

def exec (machine : Machine State Action) : State → List Action → Option State
  | state, [] => some state
  | state, action :: rest =>
    match machine.next state action with
    | some state' => exec machine state' rest
    | none => none

/-- Execute a schedule and check `allowed` before each step. -/
def execChecked (machine : Machine State Action)
    (allowed : State → Action → Bool) : State → List Action → Option State
  | state, [] => some state
  | state, action :: rest =>
    if allowed state action then
      match machine.next state action with
      | some state' => execChecked machine allowed state' rest
      | none => none
    else
      none

variable {machine : Machine State Action} {allowed : State → Action → Prop}

/-- A property of the initial states that every allowed step preserves holds
in every state reached by allowed steps. -/
theorem Reachable.invariant {Holds : State → Prop}
    (initially : ∀ state, machine.initial state → Holds state)
    (preserved : ∀ state action state', Holds state → allowed state action →
      machine.next state action = some state' → Holds state')
    {state : State} (reached : machine.Reachable allowed state) : Holds state := by
  induction reached with
  | start starts => exact initially _ starts
  | step _ permitted moved ih =>
    exact preserved _ _ _ ih permitted moved

theorem Reachable.exec {state state' : State} {actions : List Action}
    (reached : machine.Reachable anyStep state)
    (executed : machine.exec state actions = some state') :
    machine.Reachable anyStep state' := by
  induction actions generalizing state with
  | nil =>
    cases executed
    exact reached
  | cons action rest ih =>
    simp only [Machine.exec] at executed
    split at executed
    next middle moved =>
      exact ih (.step reached trivial moved) executed
    next => simp at executed

theorem Reachable.execChecked {check : State → Action → Bool}
    (sound : ∀ state action, check state action = true → allowed state action)
    {state state' : State} {actions : List Action} (reached : machine.Reachable allowed state)
    (executed : machine.execChecked check state actions = some state') :
    machine.Reachable allowed state' := by
  induction actions generalizing state with
  | nil =>
    cases executed
    exact reached
  | cons action rest ih =>
    simp only [Machine.execChecked] at executed
    split at executed
    next permitted =>
      split at executed
      next middle moved =>
        exact ih
          (.step reached (sound _ _ permitted) moved) executed
      next => simp at executed
    next => simp at executed

/-! ## What can be seen of a run -/

variable {State' : Type u} {Action' : Type v} {Event : Type*}

def observe (machine : Machine State Action) (visible : State → Action → Option Event) :
    State → List Action → List Event
  | _, [] => []
  | state, action :: rest =>
    match machine.next state action with
    | some state' => (visible state action).toList ++ observe machine visible state' rest
    | none => []

theorem exec_singleton {state : State} {action : Action} :
    machine.exec state [action] = machine.next state action := by
  rw [exec]
  cases machine.next state action <;> rfl

theorem exec_append {state middle : State} {first second : List Action}
    (executed : machine.exec state first = some middle) :
    machine.exec state (first ++ second) = machine.exec middle second := by
  induction first generalizing state with
  | nil =>
    cases executed
    rfl
  | cons action rest ih =>
    rw [List.cons_append, Machine.exec]
    rw [Machine.exec] at executed
    split at executed
    next state' moved => exact ih executed
    next => simp at executed

theorem observe_append {visible : State → Action → Option Event} {state middle : State}
    {first second : List Action} (executed : machine.exec state first = some middle) :
    machine.observe visible state (first ++ second) =
      machine.observe visible state first ++ machine.observe visible middle second := by
  induction first generalizing state with
  | nil =>
    cases executed
    rfl
  | cons action rest ih =>
    rw [List.cons_append, observe, observe]
    rw [Machine.exec] at executed
    split at executed
    next state' moved => rw [ih executed, List.append_assoc]
    next => simp at executed

/-- Steps of `other` that look like a step of `machine`. -/
def Matches (other : Machine State' Action') (visible : State' → Action' → Option Event)
    (related : State → State' → Prop) (seen : Option Event) (state : State) (other' : State') :
    Prop :=
  ∃ actions final, other.exec other' actions = some final ∧
    other.observe visible other' actions = seen.toList ∧ related state final

/-- If every step of a machine can be matched by steps of another one, so can every
schedule. -/
theorem exists_matching (other : Machine State' Action') {visible : State → Action → Option Event}
    {visible' : State' → Action' → Option Event} {related : State → State' → Prop}
    (matched : ∀ state state' action next, related state state' →
      machine.next state action = some next →
      other.Matches visible' related (visible state action) next state')
    {actions : List Action} {state final : State} {state' : State'} (start : related state state')
    (executed : machine.exec state actions = some final) :
    ∃ actions' final', other.exec state' actions' = some final' ∧
      other.observe visible' state' actions' = machine.observe visible state actions ∧
      related final final' := by
  induction actions generalizing state state' with
  | nil =>
    cases executed
    exact ⟨[], state', rfl, rfl, start⟩
  | cons action rest ih =>
    rw [Machine.exec] at executed
    split at executed
    next next moved =>
      obtain ⟨first, middle, taken, seen, relatedNext⟩ := matched _ _ action _ start moved
      obtain ⟨second, final', rested, seenRest, relatedFinal⟩ :=
        ih relatedNext executed
      refine ⟨first ++ second, final', ?_, ?_, relatedFinal⟩
      · rw [exec_append taken, rested]
      · rw [observe_append taken, seen, seenRest, observe, moved]
    next => simp at executed

end Machine

end IndexResearch
