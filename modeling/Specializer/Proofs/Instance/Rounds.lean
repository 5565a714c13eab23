import Specializer.Proofs.Instance.Bookkeeping

/-!
# Rounds

The loop over the work-list, told without a bound: in each round the first instance leaves the list
and is processed, until the list is empty or a round fails. What a run does between two calls, or in
one round, is a phase of its life. The instances leave the list in the order of their handles, each
of them once, so that there are never more rounds than the limit allows instances.
-/

set_option autoImplicit false

namespace Specializer

open Update RunState

/-- A call for an instance, or one round of the loop over the work-list, with the instance that is
processed in it. -/
structure Phase where
  current : Option InstanceId
  before : RunState
  after : RunState

/-- The loop over the work-list: its rounds, and how it ends. -/
inductive Rounds (p : Program) :
    RunState → List Phase → EStateM.Result (Failure InstantiationError) RunState Unit → Prop where
  | done {s : RunState} (hEmpty : s.worklist.pop? = none) : Rounds p s [] (.ok () s)
  | failed {s t : RunState} {id : InstanceId} {rest : Queue InstanceId}
      {e : Failure InstantiationError} (hPop : s.worklist.pop? = some (id, rest))
      (hRound : Run.round p id rest s = .error e t) : Rounds p s [⟨some id, s, t⟩] (.error e t)
  | next {s t : RunState} {id : InstanceId} {rest : Queue InstanceId} {phases : List Phase}
      {result : EStateM.Result (Failure InstantiationError) RunState Unit}
      (hPop : s.worklist.pop? = some (id, rest)) (hRound : Run.round p id rest s = .ok () t)
      (hRest : Rounds p t phases result) : Rounds p s (⟨some id, s, t⟩ :: phases) result

/-- The phases of a run with some calls. -/
inductive Life (p : Program) : RunState → List Call → List Phase → Prop where
  | nil (s : RunState) : Life p s [] []
  | request {s : RunState} {target : ModuleId} {arguments : List Argument} {calls : List Call}
      {phases : List Phase}
      (hRest : Life p (Call.perform p s (.instantiate target arguments)) calls phases) :
      Life p s (.instantiate target arguments :: calls)
        (⟨none, s, Call.perform p s (.instantiate target arguments)⟩ :: phases)
  | drain {s : RunState} {calls : List Call} {rounds phases : List Phase}
      (hRounds : Rounds p s rounds (Run.drain p s))
      (hRest : Life p (Call.perform p s .drain) calls phases) :
      Life p s (.drain :: calls) (rounds ++ phases)

def popped (phases : List Phase) : List InstanceId := phases.filterMap Phase.current

namespace Run

variable {p : Program} {s : RunState} {id : InstanceId} {rest : Queue InstanceId}

theorem exists_rounds (budget : Nat) (hSound : Sound p s) (hBudget : s.remaining p ≤ budget) :
    ∃ phases, Rounds p s phases (drainWithin p budget s) := by
  induction budget generalizing s with
  | zero =>
    have hEmpty := pop?_eq_none_of_remaining hBudget
    rw [drainWithin_of_empty hEmpty]
    exact ⟨[], .done hEmpty⟩
  | succ budget ih =>
    cases hPop : s.worklist.pop? with
    | none =>
      rw [drainWithin_of_empty hPop]
      exact ⟨[], .done hPop⟩
    | some entry =>
      obtain ⟨id, rest⟩ := entry
      rw [drainWithin_succ hPop]
      cases hRun : round p id rest s with
      | ok _ t =>
        have hSteps := steps_round hSound hPop
        have hLess := remaining_of_round hSound hPop hRun
        rw [leave_of_ok hRun] at hSteps
        obtain ⟨phases, hRounds⟩ := ih (hSound.steps hSteps) (by omega)
        rw [bind_of_ok hRun]
        exact ⟨_, .next hPop hRun hRounds⟩
      | error e t =>
        rw [bind_of_error hRun]
        exact ⟨_, .failed hPop hRun⟩

end Run

namespace Rounds

variable {p : Program} {s : RunState} {phases : List Phase}
  {result : EStateM.Result (Failure InstantiationError) RunState Unit}

/-- A budget for the rounds that there are is enough, and a larger one makes no difference. -/
theorem drainWithin_eq (h : Rounds p s phases result) {budget : Nat}
    (hBudget : phases.length ≤ budget) : Run.drainWithin p budget s = result := by
  induction h generalizing budget with
  | done hEmpty => exact Run.drainWithin_of_empty hEmpty budget
  | failed hPop hRound =>
    obtain ⟨budget, rfl⟩ := Nat.exists_eq_add_of_le' hBudget
    rw [List.length_singleton, Run.drainWithin_succ hPop, bind_of_error hRound]
  | next hPop hRound _ ih =>
    obtain ⟨budget, rfl⟩ := Nat.exists_eq_add_of_le' (Nat.le_of_add_left_le hBudget)
    rw [Run.drainWithin_succ hPop, bind_of_ok hRound]
    rw [List.length_cons] at hBudget
    exact ih (by omega)

end Rounds

namespace RunState

theorem QueuedFrom.id_eq {s : RunState} {first : Nat} (h : s.QueuedFrom first) {id : InstanceId}
    {rest : Queue InstanceId} (hPop : s.worklist.pop? = some (id, rest)) : id = ⟨first⟩ := by
  have hList := h.2
  rw [Queue.toList_of_pop? hPop, Queue.size_of_pop? hPop, List.range'_succ, List.map_cons] at hList
  exact (List.cons.inj hList).1

theorem QueuedFrom.round {p : Program} {s : RunState} {first : Nat} (h : s.QueuedFrom first)
    (hSound : Sound p s) {id : InstanceId} {rest : Queue InstanceId}
    (hPop : s.worklist.pop? = some (id, rest)) :
    ((Run.round p id rest).leave s).QueuedFrom (first + 1) := by
  obtain ⟨i, hi⟩ := hSound.exists_of_pop hPop
  obtain ⟨m, hFormed⟩ := hSound.formed hi
  apply Ensures.leave (I := fun t : RunState => t.QueuedFrom (first + 1))
  apply (Run.round_ensures hSound hPop hi hFormed.decl).mono
  · rintro _ t ⟨u, hServes, rfl⟩
    exact (hServes.works.queuedFrom (h.take hPop)).congr rfl rfl
  · rintro _ t ⟨⟨_, -, hFills⟩, -⟩
    exact hFills.works.queuedFrom (h.take hPop)

end RunState

theorem Rounds.popped_eq {p : Program} {s : RunState} {phases : List Phase}
    {result : EStateM.Result (Failure InstantiationError) RunState Unit}
    (h : Rounds p s phases result) {first : Nat} (hSound : Sound p s)
    (hQueued : s.QueuedFrom first) :
    ∃ n, popped phases = (List.range' first n).map Handle.mk ∧
      (lastState result).QueuedFrom (first + n) := by
  induction h generalizing first with
  | done => exact ⟨0, rfl, hQueued⟩
  | failed hPop hRound =>
    have hAfter := hQueued.round hSound hPop
    rw [leave_of_error hRound] at hAfter
    cases hQueued.id_eq hPop
    exact ⟨1, rfl, hAfter⟩
  | next hPop hRound _ ih =>
    have hAfter := hQueued.round hSound hPop
    have hSteps := Run.steps_round hSound hPop
    rw [leave_of_ok hRound] at hAfter hSteps
    cases hQueued.id_eq hPop
    obtain ⟨n, hPopped, hFinal⟩ := ih (hSound.steps hSteps) hAfter
    refine ⟨n + 1, ?_, ?_⟩
    · rw [List.range'_succ, List.map_cons, ← hPopped]
      rfl
    · rwa [Nat.add_comm n, ← Nat.add_assoc]

namespace Life

variable {p : Program} {s : RunState} {calls : List Call} {phases : List Phase}

theorem popped_eq (h : Life p s calls phases) {first : Nat} (hSound : Sound p s)
    (hQueued : s.QueuedFrom first) :
    ∃ n, popped phases = (List.range' first n).map Handle.mk ∧
      (s.after p calls).QueuedFrom (first + n) := by
  induction h generalizing first with
  | nil => exact ⟨0, rfl, hQueued⟩
  | @request s target arguments calls phases _ ih =>
    have hAdvances := Run.advances_instantiate hSound target arguments
    exact ih (hSound.steps hAdvances.steps) (hAdvances.works.queuedFrom hQueued)
  | @drain s calls rounds phases hRounds _ ih =>
    obtain ⟨n, hFirst, hThen⟩ := hRounds.popped_eq hSound hQueued
    obtain ⟨k, hSecond, hLast⟩ := ih (hSound.steps (Call.steps_perform hSound .drain)) hThen
    refine ⟨n + k, ?_, ?_⟩
    · rw [popped, List.filterMap_append, ← List.range'_append_1, List.map_append, ← hFirst,
        ← hSecond]
      rfl
    · rwa [← Nat.add_assoc]

/-- Every run has a life: each of its loops over the work-list comes to an end. -/
theorem exists_phases (hSound : Sound p s) (calls : List Call) :
    ∃ phases, Life p s calls phases := by
  induction calls generalizing s with
  | nil => exact ⟨[], .nil s⟩
  | cons call rest ih =>
    obtain ⟨phases, hRest⟩ := ih (hSound.steps (call.steps_perform hSound))
    cases call with
    | instantiate target arguments => exact ⟨_, .request hRest⟩
    | drain =>
      obtain ⟨rounds, hRounds⟩ := Run.exists_rounds _ hSound (Nat.le_refl _)
      exact ⟨_, .drain hRounds hRest⟩

end Life

end Specializer
