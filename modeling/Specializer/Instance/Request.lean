import Specializer.Instance.Create

/-!
# Requesting an instance

A request names a module and its arguments, and the instance in which they are written, if any. The
arguments are checked and made concrete, the enclosing instance is found or made, and the instance
with the resulting key is looked up or created.
-/

set_option autoImplicit false

namespace Specializer

def Argument.type? : Argument → Option TypeId
  | .type id => some id
  | .value _ => none

def Argument.value? : Argument → Option Literal
  | .type _ => none
  | .value literal => some literal

/-- The key of an instance with these arguments; literals count by value. -/
def Key.of (source : ModuleId) (parent : Option InstanceId) (substitution : Substitution)
    (arguments : List Argument) : Key :=
  ⟨source, parent, substitution, (arguments.filterMap Argument.value?).map Literal.canonical⟩

namespace ModuleTree

/-- Whether a module and all modules around it have no template parameters. Each of them then has at
most one instance. -/
def isMonomorphicChain (t : ModuleTree) (id : ModuleId) : Read Bool := do
  let decls ← (id :: (← t.ancestors id)).mapM t.readModule
  return decls.all fun m => !m.isGeneric

end ModuleTree

namespace Run

def siteSubstitution : Option InstanceId → Run Substitution
  | none => return .empty
  | some id => do return (← readInstance id).substitution

def newArgument (p : Program) (name : String) (site : Substitution) (span : Span)
    (entry : (TemplateParam × Argument) × Nat) : Run Argument := do
  let ((param, argument), index) := entry
  match param.kind, argument with
  | .type _, .type type =>
    return .type (← concretize p site type span (pure (.argument index name)))
  | .value _, .value value => return .value value
  | _, _ => refuse span (.argumentKind name index param.isType)

/-- Pair the type parameters of a module with types. The scheme has to quantify exactly these
parameters, in any order. -/
def ownSubstitution (m : ModuleDecl) (name : String) (types : List TypeId) :
    Except Refusal Substitution :=
  if m.params.isEmpty then .ok .empty
  else if m.scheme.bound.length ≠ types.length then
    .error (.schemeArity name m.scheme.bound.length types.length)
  else match m.typeVars.find? fun var => !m.scheme.bound.contains var with
    | some var => .error (.type (.unquantified var) (.instantiation name))
    | none => .ok (.ofPairs (m.typeVars.zip types))

/-- The instance that encloses an instance of `m` named in `site`: the one on the way up from the
site, or else the only instance of a parent without parameters, which `again` requests. -/
def enclosing (p : Program) (again : ModuleId → Span → Run InstanceId) (m : ModuleDecl)
    (name : String) (site : Option InstanceId) (span : Span) : Run (Option InstanceId) := do
  match m.parent with
  | none => return none
  | some outer =>
      match ← findInChain site outer with
      | some found => return some found
      | none =>
          if ← p.tree.isMonomorphicChain outer then
            return some (← again outer (← p.tree.readModule outer).span)
          else
            refuse span (.outsideInstance name)

/-- The own substitution of an instance together with what it inherits for the parameters of the
modules around its source. -/
def inherit (p : Program) (target : ModuleId) (own : Substitution) :
    Option InstanceId → Run Substitution
  | none => return own
  | some outer => do
      let i ← readInstance outer
      return own.extend (i.substitution.only (← p.tree.ancestorVars target))

/-- The instance of a key, created if there is none yet and the limit allows it. -/
def obtain (p : Program) (name : String) (span : Span) (key : Key) (arguments : List Argument) :
    Run InstanceId := do
  let s ← get
  match s.cache.find? key with
  | some id =>
      set { s with stats := { s.stats with hits := s.stats.hits + 1 } }
      log p (.traced .instances ("cache hit: " ++ (← readInstance id).name))
      return id
  | none =>
      if p.settings.limits.maxInstances ≤ s.instances.size then
        refuse span (.tooManyInstances p.settings.limits.maxInstances name)
      set { s with stats := { s.stats with misses := s.stats.misses + 1 } }
      let id ← create p key arguments
      modify fun s => { s with cache := s.cache.insert key id, worklist := s.worklist.push id }
      return id

def requestWithin (p : Program) :
    Nat → ModuleId → List Argument → Option InstanceId → Span → Run InstanceId
  | 0, _, _, _, _ => throw (.fault .endless)
  | depth + 1, target, arguments, site, span => do
      let m ← p.tree.readModule target
      let name ← p.symbols.name m.name
      if arguments.length ≠ m.params.length then
        refuse span (.argumentCount name m.params.length arguments.length)
      let siteSub ← siteSubstitution site
      let actuals ← (m.params.zip arguments).zipIdx.mapM (newArgument p name siteSub span)
      let own ← match ownSubstitution m name (actuals.filterMap Argument.type?) with
        | .ok own => pure own
        | .error refusal => refuse span refusal
      let again := fun outer span => requestWithin p depth outer [] none span
      let parent ← enclosing p again m name site span
      let substitution ← inherit p target own parent
      obtain p name span (Key.of target parent substitution actuals) actuals

def request (p : Program) (target : ModuleId) (arguments : List Argument)
    (site : Option InstanceId) (span : Span) : Run InstanceId :=
  requestWithin p (p.tree.modules.size + 1) target arguments site span

def instantiate (p : Program) (target : ModuleId) (arguments : List Argument) : Run InstanceId := do
  request p target arguments none (← p.tree.readModule target).span

end Run

end Specializer
