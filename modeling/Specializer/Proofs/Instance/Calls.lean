import Specializer.Proofs.Instance.Finish

/-!
# Runs as their callers see them

A caller requests instances and drains the work-list, in any order and as often as it likes, and
goes on after a failure with whatever state that failure has left. The states it can see are those
that some list of calls leads to.
-/

set_option autoImplicit false

namespace Specializer

open Update RunState

/-- What a caller can ask a run for. -/
inductive Call where
  | instantiate (target : ModuleId) (arguments : List Argument)
  | drain

def Call.perform (p : Program) (s : RunState) : Call → RunState
  | .instantiate target arguments => (Run.instantiate p target arguments).leave s
  | .drain => (Run.drain p).leave s

def RunState.after (p : Program) (calls : List Call) (s : RunState) : RunState :=
  calls.foldl (Call.perform p) s

theorem Run.advances_instantiate {p : Program} {s : RunState} (hSound : Sound p s)
    (target : ModuleId) (arguments : List Argument) :
    Advances p s ((Run.instantiate p target arguments).leave s) :=
  ((Run.instantiate_ensures p target arguments hSound).mono (fun _ _ h => h.advances)
    fun _ _ h => h.1.advances).leave

theorem Call.steps_perform {p : Program} {s : RunState} (hSound : Sound p s) (call : Call) :
    Steps p s (call.perform p s) := by
  cases call with
  | instantiate target arguments => exact (Run.advances_instantiate hSound target arguments).steps
  | drain =>
    exact ((Run.drain_ensures hSound).mono (fun _ _ h => h.steps) fun _ _ h => h.1).leave

theorem Sound.steps_after {p : Program} {s : RunState} (hSound : Sound p s) (calls : List Call) :
    Steps p s (s.after p calls) := by
  induction calls generalizing s with
  | nil => exact .refl
  | cons call rest ih =>
    have hCall := Call.steps_perform hSound call
    exact hCall.trans (ih (hSound.steps hCall))

theorem Sound.after {p : Program} {s : RunState} (hSound : Sound p s) (calls : List Call) :
    Sound p (s.after p calls) :=
  hSound.steps (hSound.steps_after calls)

theorem Sound.after_start (p : Program) (types : TypeStore) (calls : List Call) :
    Sound p (.after p calls (.start types)) :=
  (Sound.start p types).after calls

end Specializer
