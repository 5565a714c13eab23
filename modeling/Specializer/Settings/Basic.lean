/-!
# Settings

What a run prints, which reports it makes and how many instances it may create. A settings file is
laid over the flags of a call: its limits replace theirs, and its lists add what is missing.
-/

set_option autoImplicit false

namespace Specializer

inductive Topic where
  | types | instances | closures | driver
  deriving DecidableEq

inductive Dump where
  | types | table | json
  deriving DecidableEq

def Topic.name : Topic → String
  | .types => "types"
  | .instances => "mono"
  | .closures => "closures"
  | .driver => "driver"

def Dump.name : Dump → String
  | .types => "types"
  | .table => "mono"
  | .json => "mono-json"

def Topic.all : List Topic := [.types, .instances, .closures, .driver]

def Dump.all : List Dump := [.types, .table, .json]

def Topic.ofName? (name : String) : Option Topic :=
  Topic.all.find? fun topic => decide (topic.name = name)

def Dump.ofName? (name : String) : Option Dump :=
  Dump.all.find? fun dump => decide (dump.name = name)

structure Limits where
  /-- the greatest number of instances -/
  maxInstances : Nat
  /-- whether types with variables are reported at the end -/
  verifyConcrete : Bool
  deriving DecidableEq

def Limits.standard : Limits := ⟨4096, true⟩

structure SettingsFile where
  traces : List Topic
  dumps : List Dump
  limits : Limits
  deriving DecidableEq

def SettingsFile.standard : SettingsFile := ⟨[], [], .standard⟩

structure Settings where
  debug : Bool
  traces : List Topic
  quiet : Bool
  verbosity : Nat
  dumps : List Dump
  limits : Limits

namespace Settings

def basic (debug : Bool) (traces : List Topic) (quiet : Bool) (verbosity : Nat) : Settings :=
  ⟨debug, traces, quiet, verbosity, [], .standard⟩

def silent : Settings := basic false [] true 0

/-- Append what is not in the list yet, in order. -/
def addMissing {α : Type} [DecidableEq α] (base more : List α) : List α :=
  more.foldl (fun acc x => if x ∈ acc then acc else acc ++ [x]) base

def withFile (s : Settings) (file : SettingsFile) : Settings :=
  { s with
    limits := file.limits
    traces := addMissing s.traces file.traces
    dumps := addMissing s.dumps file.dumps }

def requests (s : Settings) (dump : Dump) : Bool := decide (dump ∈ s.dumps)

def showsPhases (s : Settings) : Bool := !s.quiet

/-- Debug lines need the debug flag or a verbosity of two. -/
def showsDebug (s : Settings) : Bool := !s.quiet && (s.debug || decide (2 ≤ s.verbosity))

/-- The debug flag turns every topic on. -/
def tracing (s : Settings) (topic : Topic) : Bool :=
  !s.quiet && (s.debug || decide (topic ∈ s.traces))

end Settings

end Specializer
