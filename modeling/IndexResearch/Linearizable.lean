import IndexResearch.Transition

/-!
# Linearizable objects

Threads call the operations of a shared object.  The object is atomic if every call takes
effect in one step between the moment it is called and the moment it returns.  A
concurrent program is linearizable if its calls and returns are always those of an atomic
object.
-/

namespace IndexResearch

inductive Event (Thread Operation Answer : Type) where
  | call (thread : Thread) (operation : Operation)
  | answer (thread : Thread) (answer : Answer)

inductive Status (Operation Answer : Type) where
  | idle
  | pending (operation : Operation)
  | done (answer : Answer)

structure Atomic (Thread Object Operation Answer : Type) where
  object : Object
  status : Thread → Status Operation Answer

namespace Atomic

variable {Thread Object Operation Answer : Type} [DecidableEq Thread]

inductive Action (Thread Operation : Type) where
  | call (thread : Thread) (operation : Operation)
  /-- The call of the thread takes effect. -/
  | effect (thread : Thread)
  | answer (thread : Thread)

def move (state : Atomic Thread Object Operation Answer) (thread : Thread)
    (status : Status Operation Answer) : Atomic Thread Object Operation Answer :=
  { state with status := Function.update state.status thread status }

def next (apply : Object → Operation → Answer × Object)
    (state : Atomic Thread Object Operation Answer) :
    Action Thread Operation → Option (Atomic Thread Object Operation Answer)
  | .call thread operation =>
    match state.status thread with
    | .idle => some (state.move thread (.pending operation))
    | _ => none
  | .effect thread =>
    match state.status thread with
    | .pending operation =>
      let (answer, object) := apply state.object operation
      some { state.move thread (.done answer) with object := object }
    | _ => none
  | .answer thread =>
    match state.status thread with
    | .done _ => some (state.move thread .idle)
    | _ => none

def visible (state : Atomic Thread Object Operation Answer) :
    Action Thread Operation → Option (Event Thread Operation Answer)
  | .call thread operation => some (.call thread operation)
  | .effect _ => none
  | .answer thread =>
    match state.status thread with
    | .done answer => some (.answer thread answer)
    | _ => none

/-- The object that starts as `start`, without calls. -/
def fresh (start : Object) : Atomic Thread Object Operation Answer := ⟨start, fun _ => .idle⟩

def machine (apply : Object → Operation → Answer × Object) (start : Object) :
    Machine (Atomic Thread Object Operation Answer) (Action Thread Operation) where
  initial state := state = fresh start
  next := next apply

end Atomic

variable {Thread Object Operation Answer State Action : Type} [DecidableEq Thread]

def Linearizable (machine : Machine State Action)
    (visible : State → Action → Option (Event Thread Operation Answer))
    (apply : Object → Operation → Answer × Object) (start : Object) : Prop :=
  ∀ state actions final, machine.initial state → machine.exec state actions = some final →
    ∃ actions' final', (Atomic.machine apply start).exec (.fresh start) actions' = some final' ∧
      (Atomic.machine apply start).observe Atomic.visible (.fresh start) actions' =
        machine.observe visible state actions

inductive Progress (apply : Object → Operation → Answer × Object) (thread : Thread) :
    Option (Event Thread Operation Answer) → Atomic Thread Object Operation Answer →
    Atomic Thread Object Operation Answer → Prop
  /-- Nothing that matters happens. -/
  | rest {state} : Progress apply thread none state state
  | call {state operation} (idle : state.status thread = .idle) :
      Progress apply thread (some (.call thread operation)) state
        (state.move thread (.pending operation))
  | effect {state operation} (pending : state.status thread = .pending operation) :
      Progress apply thread none state
        { state.move thread (.done (apply state.object operation).1) with
          object := (apply state.object operation).2 }
  | answer {state answer} (done : state.status thread = .done answer) :
      Progress apply thread (some (.answer thread answer)) state (state.move thread .idle)

inductive Advances (apply : Object → Operation → Answer × Object) :
    Status Operation Answer → Object → Status Operation Answer → Object → Prop
  | rest {status object} : Advances apply status object status object
  | effect {operation object answer object'}
    (applied : apply object operation = (answer, object')) :
      Advances apply (.pending operation) object (.done answer) object'

variable {apply : Object → Operation → Answer × Object}
  {related : State → Atomic Thread Object Operation Answer → Prop}

theorem Advances.progress {thread : Thread}
    {state : Atomic Thread Object Operation Answer} {status : Status Operation Answer}
    {object : Object} (advances : Advances apply (state.status thread) state.object status object) :
    Progress apply thread none state { state.move thread status with object := object } := by
  generalize before : state.status thread = status' at advances
  generalize held : state.object = object' at advances
  cases advances with
  | rest =>
    have same : { state.move thread status with object := object } = state := by
      rw [← before, ← held, Atomic.move, Function.update_eq_self]
    rw [same]
    exact .rest
  | effect applied =>
    subst held
    have effect : Progress apply thread none state _ := .effect before
    rw [applied] at effect
    exact effect

theorem Progress.matches {start : Object}
    {thread : Thread} {seen : Option (Event Thread Operation Answer)}
    {state final : Atomic Thread Object Operation Answer} {concrete : State}
    (progress : Progress apply thread seen state final) (kept : related concrete final) :
    (Atomic.machine apply start).Matches Atomic.visible related seen concrete state := by
  cases progress with
  | rest => exact ⟨[], _, rfl, rfl, kept⟩
  | @call _ operation idle =>
    have moves : (Atomic.machine apply start).next state (.call thread operation) =
        some (state.move thread (.pending operation)) := by
      simp only [Atomic.machine, Atomic.next, idle]
    refine ⟨[.call thread operation], _, ?_, ?_, kept⟩
    · simp only [Machine.exec, moves]
    · simp only [Machine.observe, moves, Atomic.visible, List.append_nil]
  | @effect _ operation pending =>
    have moves : (Atomic.machine apply start).next state (.effect thread) =
        some { state.move thread (.done (apply state.object operation).1) with
          object := (apply state.object operation).2 } := by
      simp only [Atomic.machine, Atomic.next, pending]
    refine ⟨[.effect thread], _, ?_, ?_, kept⟩
    · simp only [Machine.exec, moves]
    · simp only [Machine.observe, moves, Atomic.visible, List.append_nil]
  | @answer _ answer done =>
    have moves : (Atomic.machine apply start).next state (.answer thread) =
        some (state.move thread .idle) := by
      simp only [Atomic.machine, Atomic.next, done]
    refine ⟨[.answer thread], _, ?_, ?_, kept⟩
    · simp only [Machine.exec, moves]
    · simp only [Machine.observe, moves, Atomic.visible, done, List.append_nil]

/-- A program is linearizable if each of its steps is progress of an atomic object to which
its states are related. -/
theorem Linearizable.of_progress {machine : Machine State Action}
    {visible : State → Action → Option (Event Thread Operation Answer)} {start : Object}
    (initially : ∀ state, machine.initial state → related state (.fresh start))
    (progresses : ∀ state action next abstract, related state abstract →
      machine.next state action = some next →
      ∃ thread final, Progress apply thread (visible state action) abstract final ∧
        related next final) :
    Linearizable machine visible apply start := by
  intro state actions final begins executed
  have matched : ∀ state abstract action next, related state abstract →
      machine.next state action = some next →
      (Atomic.machine apply start).Matches Atomic.visible related (visible state action) next
        abstract := by
    intro state abstract action next kept moved
    obtain ⟨thread, final, progress, keptNext⟩ := progresses state action next abstract kept moved
    exact progress.matches keptNext
  obtain ⟨actions', final', executed', seen, _⟩ :=
    Machine.exists_matching _ matched (initially state begins) executed
  exact ⟨actions', final', executed', seen⟩

end IndexResearch
