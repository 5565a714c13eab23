import Specializer.Instance.Basic
import Specializer.Instance.Error
import Specializer.Log
import Specializer.Queue

/-!
# The state of a run

A run reads a fixed program and updates the type store, the instances and closures made so far, the
cache that finds an instance by its key, and the work-list of instances still to be processed.
-/

set_option autoImplicit false

namespace Specializer

structure Program where
  tree : ModuleTree
  symbols : SymbolTable
  settings : Settings

structure RunState where
  types : TypeStore
  instances : Arena .instances Instance
  closures : Arena .closures Closure
  cache : Index Key InstanceId
  closureTable : ClosureTable
  worklist : Queue InstanceId
  stats : Stats
  log : Log

def RunState.start (types : TypeStore) : RunState :=
  ⟨types, .empty, .empty, .empty, .empty, .empty, ⟨0, 0, 0⟩, []⟩

abbrev Run (α : Type) : Type := Update RunState InstantiationError α

namespace Run

def refuse {α : Type} (span : Span) (refusal : Refusal) : Run α :=
  Update.refuse ⟨refusal, span⟩

def log (p : Program) (line : LogLine) : Run Unit :=
  modify fun s => { s with log := s.log.write p.settings line }

def readInstance (id : InstanceId) : Run Instance := do
  (← get).instances.read id

/-- Tell of the types minted since the store had `before` of them. The type is spelled only if the
line is wanted. -/
def traceNewTypes (p : Program) (before : Nat) (type : TypeId) : Run Unit := do
  let types := (← get).types
  if before < types.size && p.settings.tracing .types then
    let spelling ← types.spell p.symbols type
    log p (.traced .types
      ("interned " ++ toString (types.size - before) ++ " new type(s) for " ++ spelling))

/-- A type under a substitution that has to map all of its bound variables. -/
def concretize (p : Program) (substitution : Substitution) (type : TypeId) (span : Span)
    (context : Read TypeContext) : Run TypeId := do
  let before := (← get).types.size
  let concrete ← Update.focus RunState.types (fun types s => { s with types })
    (fun cause => do return ⟨.type cause (← context), span⟩) (substitution.applyStrict type)
  traceNewTypes p before concrete
  return concrete

/-- The nearest instance of `source` on the way up from an instance, this one included. -/
def findInChainWithin (instances : Arena .instances Instance) (source : ModuleId) :
    Nat → Option InstanceId → Read (Option InstanceId)
  | _, none => return none
  | 0, some _ => .error .endless
  | depth + 1, some id => do
      let i ← instances.read id
      if i.source = source then return some id
      else findInChainWithin instances source depth i.parent

def findInChain (start : Option InstanceId) (source : ModuleId) : Run (Option InstanceId) := do
  let instances := (← get).instances
  findInChainWithin instances source (instances.size + 1) start

end Run

end Specializer
