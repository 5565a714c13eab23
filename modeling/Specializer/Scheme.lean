import Specializer.Substitution.Apply

/-!
# Schemes

A body together with the variables it is quantified over. A checked scheme mentions no bound
variable beyond its own and those of the definitions around it.
-/

set_option autoImplicit false

namespace Specializer

structure Scheme where
  bound : List TypeId
  body : TypeId
  deriving DecidableEq

namespace Scheme

def monomorphic (body : TypeId) : Scheme := ⟨[], body⟩

def arity (s : Scheme) : Nat := s.bound.length

def isMonomorphic (s : Scheme) : Bool := s.bound.isEmpty

def boundVariables (types : TypeStore) (id : TypeId) : Read (List TypeId) := do
  (← types.vars id).filterM fun var => do return (← types.read var).isBound

/-- A scheme of a definition inside others, whose variables are `enclosing`. -/
def checked (types : TypeStore) (bound : List TypeId) (body : TypeId) (enclosing : List TypeId) :
    Read (Except TypeError Scheme) := do
  let vars ← boundVariables types body
  match vars.find? fun var => !(bound.contains var || enclosing.contains var) with
  | some var => return .error (.unquantified var)
  | none => return .ok ⟨bound, body⟩

def freshen (var : TypeId) : TypeUpdate (TypeId × TypeId) := do
  match ← TypeStore.readNode var with
  | .var _ name => return (var, ← TypeStore.addNode (.var .free name))
  | _ => Update.refuse (.unquantified var)

def freshArguments (s : Scheme) : TypeUpdate Substitution := do
  return .ofPairs (← s.bound.mapM freshen)

/-- Pair the quantified variables with the actual types by position. -/
def actualArguments (s : Scheme) (actuals : List TypeId) : Except TypeError Substitution :=
  if actuals.length = s.bound.length then .ok (.ofPairs (s.bound.zip actuals))
  else .error (.arity s.bound.length actuals.length)

/-- The substitution of an instantiation and the body under it. Without actual types every variable
becomes a new free one. -/
def instantiate (s : Scheme) (actuals : Option (List TypeId)) :
    TypeUpdate (Substitution × TypeId) := do
  let substitution ← match actuals with
    | none => s.freshArguments
    | some types => Update.ofCheck (s.actualArguments types)
  return (substitution, ← substitution.apply s.body)

/-- Substitute in the body, leaving the quantified variables alone. -/
def substitute (s : Scheme) (substitution : Substitution) : TypeUpdate Scheme := do
  return ⟨s.bound, ← (substitution.without s.bound).apply s.body⟩

def spell (s : Scheme) (types : TypeStore) (symbols : SymbolTable) : Read String := do
  let body ← types.spell symbols s.body
  if s.bound.isEmpty then
    return body
  let vars ← s.bound.mapM (types.spell symbols)
  return "∀ (" ++ ", ".intercalate vars ++ ") " ++ body

end Scheme

end Specializer
