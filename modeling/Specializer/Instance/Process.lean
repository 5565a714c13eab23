import Specializer.Instance.Request

/-!
# Processing instances

Processing an instance resolves its value fields and requests every instance that its initializers
and its nested modules without parameters ask for. New instances join the end of the work-list,
and a run ends when the work-list is empty.
-/

set_option autoImplicit false

namespace Specializer.Run

/-- Another name for the field that binding `index` of `owner` became. -/
def fieldAlias (p : Program) (owner : InstanceId) (index : Nat) (referrer : Binding) (span : Span) :
    Run Target := do
  let i ← readInstance owner
  let name ← p.symbols.name referrer.name
  match i.fieldForBinding? index with
  | some field =>
      if (i.fields[field]?.map Definition.kind) = some .valueConstant then
        return .definition owner field
      else
        refuse span (.notAValue name .typeConstant)
  | none =>
      match (← p.tree.readModule i.source).bindings[index]? with
      | some ⟨_, _, .nested _⟩ => refuse span (.notAValue name .nestedModule)
      | _ => refuse span (.noField i.name ("#" ++ toString index))

/-- The instance of a module around the one being processed. -/
def owningInstance (p : Program) (id : InstanceId) (owner : ModuleId) (span : Span) :
    Run InstanceId := do
  match ← findInChain (some id) owner with
  | some found => return found
  | none => refuse span (.outsideInstance (← p.symbols.name (← p.tree.readModule owner).name))

/-- What the initializer of a value binding makes its field stand for. -/
def resolve (p : Program) (id : InstanceId) (binding : Binding) (init : ExprId) : Run Target := do
  let e ← p.tree.readExpr init
  match e.kind with
  | .literal value => return .literal value
  | .lambda _ _ =>
      match (← get).closureTable.closuresOf ⟨init, id⟩ with
      | closure :: _ => return .closure closure
      | [] => return .expression init
  | .field owner index => fieldAlias p (← owningInstance p id owner e.span) index binding e.span
  | .site target arguments field =>
      let made ← request p target arguments (some id) e.span
      match (← p.tree.readModule target).bindingIndex? field with
      | some index => fieldAlias p made index binding e.span
      | none => refuse e.span (.noField (← readInstance made).name (← p.symbols.name field))
  | .templateValue owner index =>
      let name ← p.symbols.name (← p.tree.readModule owner).name
      let i ← readInstance (← owningInstance p id owner e.span)
      match i.valueArgument? index with
      | some value => return .literal value
      | none => refuse e.span (.argumentKind name index false)
  | _ => return .expression init

def visitSite (p : Program) (id : InstanceId) (visit : ModuleTree.Visit) : Run Unit := do
  let e ← visit.expr
  match e.kind with
  | .site target arguments _ =>
      let _ ← request p target arguments (some id) e.span
  | _ => return ()

def setTarget (id : InstanceId) (field : Nat) (target : Target) : Run Unit :=
  modify fun s => { s with
    instances := s.instances.modify id fun i =>
      { i with fields := i.fields.modify field fun f => { f with target } } }

def processValue (p : Program) (id : InstanceId) (binding : Binding) (index : Nat) (init : ExprId) :
    Run Unit := do
  let target ← resolve p id binding init
  match (← readInstance id).fieldForBinding? index with
  | some field => setTarget id field target
  | none => pure ()
  p.tree.walkBelow (fun _ visit => visitSite p id visit) () init

def processNested (p : Program) (id : InstanceId) (binding : Binding) (nested : ModuleId) :
    Run Unit := do
  if !(← p.tree.readModule nested).isGeneric then
    let made ← request p nested [] (some id) binding.span
    modify fun s => { s with
      instances := s.instances.modify id fun i => { i with submodules := i.submodules ++ [made] } }

def processBinding (p : Program) (id : InstanceId) (entry : Binding × Nat) : Run Unit :=
  match entry.1.kind with
  | .value _ init => processValue p id entry.1 entry.2 init
  | .type _ => return ()
  | .nested nested => processNested p id entry.1 nested

def process (p : Program) (id : InstanceId) : Run Unit := do
  let i ← readInstance id
  let m ← p.tree.readModule i.source
  m.bindings.zipIdx.forM (processBinding p id)

def drainWithin (p : Program) : Nat → Run Unit
  | 0 => do
      if (← get).worklist.pop?.isNone then return () else throw (.fault .endless)
  | budget + 1 => do
      let s ← get
      match s.worklist.pop? with
      | none => return ()
      | some (id, rest) =>
          set { s with worklist := rest }
          log p (.traced .instances ("processing " ++ (← readInstance id).name))
          process p id
          modify fun s => { s with stats := { s.stats with processed := s.stats.processed + 1 } }
          drainWithin p budget

/-- Process instances until the work-list is empty. Each instance enters the list once, so those
on it and those that the limit still allows bound the number of steps. -/
def drain (p : Program) : Run Unit := do
  let s ← get
  drainWithin p (s.worklist.size + (p.settings.limits.maxInstances - s.instances.size))

/-- A warning if the type still has a variable. -/
def leftover (p : Program) (types : TypeStore) (label : Read String) (type : TypeId) :
    Read (Option String) := do
  if ← types.isConcrete type then return none
  else return some ((← label) ++ "non-concrete type " ++ (← types.spell p.symbols type))

def fieldLeftovers (p : Program) (types : TypeStore) (i : Instance) : Read (List String) := do
  let found ← i.fields.mapM fun f => do
    let label := do return i.name ++ ": field '" ++ (← p.symbols.name f.name) ++ "' has "
    leftover p types label f.type
  return found.filterMap id

def closureLeftovers (p : Program) (types : TypeStore) (c : Closure) : Read (List String) := do
  let own ← leftover p types (pure (c.symbol ++ ": ")) c.type
  let captured ← c.captures.mapM fun capture => do
    let label := do return c.symbol ++ ": capture '" ++ (← p.symbols.name capture.name) ++ "' has "
    leftover p types label capture.type
  return (own :: captured).filterMap id

def leftovers (p : Program) (s : RunState) : Read (List String) := do
  let fields ← s.instances.toList.mapM (fieldLeftovers p s.types)
  let closures ← s.closures.toList.mapM (closureLeftovers p s.types)
  return fields.flatten ++ closures.flatten

def report (p : Program) (root : InstanceId) (warnings : List String) : Run Output := do
  if !warnings.isEmpty then
    log p (.cautioned
      (toString warnings.length ++ " non-concrete type(s) left after monomorphization"))
  let s ← get
  log p (.debug ("monomorphized " ++ toString s.instances.size ++ " instance(s), " ++
    toString s.closures.size ++ " closure(s), " ++ toString s.stats.hits ++ " cache hit(s)"))
  return ⟨root, s.instances, s.closures, s.cache, s.closureTable, s.stats, warnings⟩

def finish (p : Program) (root : InstanceId) : Run Output := do
  drain p
  let warnings ← if p.settings.limits.verifyConcrete then do leftovers p (← get) else pure []
  report p root warnings

/-- Instantiate a module without arguments and everything it demands. -/
def complete (p : Program) (root : ModuleId) : Run Output := do
  finish p (← instantiate p root [])

end Specializer.Run
