/-!
# Outcomes of reads and updates

A read either finds what its handles name or stops with a `Fault`. An update of a state may in
addition be refused for a cause of its own; a refused update keeps what it had already done to the
state, so the state is part of both outcomes.
-/

set_option autoImplicit false

namespace Specializer

inductive Fault where
  /-- a handle was read that its table never handed out -/
  | unminted
  /-- a walk went deeper than any walk over an acyclic table can -/
  | endless
  /-- a range whose start lies after its end -/
  | reversed
  /-- an index or a range that goes beyond what it is taken from -/
  | outside
  /-- a text was to be cut where no character of it ends -/
  | severed
  /-- a count went beyond the numbers that it is kept in -/
  | overflow
  deriving DecidableEq

abbrev Read (α : Type) : Type := Except Fault α

inductive Failure (ε : Type) where
  | refused (cause : ε)
  | fault (reason : Fault)

/-- A refusal whose cause has to be read first. -/
def Failure.ofCause {ε : Type} : Read ε → Failure ε
  | .ok cause => .refused cause
  | .error reason => .fault reason

/-- An update of `σ` that may be refused for a cause in `ε`. The state reached so far is kept. -/
abbrev Update (σ ε α : Type) : Type := EStateM (Failure ε) σ α

namespace Update

variable {σ τ ε δ α : Type}

def refuse (cause : ε) : Update σ ε α := throw (.refused cause)

/-- A read inside an update: it leaves the state alone, and its fault ends the update. -/
def ofRead : Read α → Update σ ε α
  | .ok a => pure a
  | .error reason => throw (.fault reason)

/-- A check inside an update: it leaves the state alone, and its objection refuses the update. -/
def ofCheck : Except ε α → Update σ ε α
  | .ok a => pure a
  | .error cause => refuse cause

/-- Run an update of one component `τ` of the state. -/
def focus (part : σ → τ) (put : τ → σ → σ) (cause : δ → Read ε) (update : Update τ δ α) :
    Update σ ε α := fun s =>
  match update (part s) with
  | .ok a t => .ok a (put t s)
  | .error (.refused d) t => .error (.ofCause (cause d)) (put t s)
  | .error (.fault reason) t => .error (.fault reason) (put t s)

def outcome (update : Update σ ε α) (s : σ) : Read (Except ε α × σ) :=
  match update s with
  | .ok a t => .ok (.ok a, t)
  | .error (.refused cause) t => .ok (.error cause, t)
  | .error (.fault reason) _ => .error reason

@[simp] theorem ofRead_ok (a : α) (s : σ) :
    (ofRead (.ok a) : Update σ ε α) s = .ok a s := rfl

@[simp] theorem ofRead_error (reason : Fault) (s : σ) :
    (ofRead (.error reason) : Update σ ε α) s = .error (.fault reason) s := rfl

end Update

instance {σ ε : Type} : MonadLift (Except Fault) (EStateM (Failure ε) σ) where
  monadLift := Update.ofRead

end Specializer
