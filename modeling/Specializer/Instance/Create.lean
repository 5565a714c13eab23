import Specializer.Instance.Run
import Specializer.Mangle

/-!
# Creating an instance

A new instance has the concrete types of its fields and its closures; its value fields wait for
their targets. Everything that can be refused comes before the instance enters the tables, so that
no table ever holds a part of one.
-/

set_option autoImplicit false

namespace Specializer

structure FieldSource where
  binding : Nat
  name : SymbolId
  span : Span
  kind : DefinitionKind
  type : TypeId

def FieldSource.ofBinding? (b : Binding) (index : Nat) : Option FieldSource :=
  match b.kind with
  | .value type _ => some ⟨index, b.name, b.span, .valueConstant, type⟩
  | .type type => some ⟨index, b.name, b.span, .typeConstant, type⟩
  | .nested _ => none

namespace ModuleDecl

def fieldSources (m : ModuleDecl) : List FieldSource :=
  m.bindings.zipIdx.filterMap fun entry => FieldSource.ofBinding? entry.1 entry.2

def initializers (m : ModuleDecl) : List ExprId :=
  m.bindings.filterMap fun b =>
    match b.kind with
    | .value _ init => some init
    | _ => none

theorem mem_initializers {m : ModuleDecl} {init : ExprId} :
    init ∈ m.initializers ↔ ∃ b ∈ m.bindings, ∃ type, b.kind = .value type init := by
  unfold initializers
  rw [List.mem_filterMap]
  refine exists_congr fun b => and_congr_right fun _ => ?_
  cases b.kind <;> simp

end ModuleDecl

structure ClosureShell where
  expr : ExprId
  type : TypeId
  captures : List Capture
  symbol : String

/-- The closures of an instance, when `first` closures are there already. -/
def numbered (owner : InstanceId) (first : Nat) (shells : List ClosureShell) : List Closure :=
  shells.zipIdx.map fun entry =>
    let (shell, index) := entry
    ⟨⟨first + index⟩, owner, index, shell.expr, shell.type, shell.captures, shell.symbol⟩

def Closure.site (c : Closure) : ClosureSite := ⟨c.expr, c.owner⟩

def sitesOf (closures : List Closure) : List (ClosureSite × List ClosureId) :=
  (closures.map Closure.site).eraseDups.map fun site =>
    (site, (closures.filter fun c => decide (c.site = site)).map Closure.id)

def RunState.enter (s : RunState) (i : Instance) (closures : List Closure) : RunState :=
  { s with
    instances := s.instances.push i
    closures := closures.foldl Arena.push s.closures
    closureTable := (sitesOf closures).foldl (fun table entry => table.insert entry.1 entry.2)
      s.closureTable }

namespace Run

/-- The name of a module inside the name of the instance around it. -/
def baseName (p : Program) (m : ModuleDecl) (parent : Option InstanceId) : Run String := do
  let name ← p.symbols.name m.name
  match parent with
  | none => return Mangle.escape name
  | some outer => return (← readInstance outer).name ++ "__" ++ Mangle.escape name

/-- A field with its concrete type. A type constant stands for that type; a value waits. -/
def newField (p : Program) (substitution : Substitution) (owner : String) (source : FieldSource) :
    Run Definition := do
  let name ← p.symbols.name source.name
  let type ← concretize p substitution source.type source.span (pure (.field name owner))
  return {
    name := source.name
    binding := source.binding
    kind := source.kind
    type
    target := match source.kind with
      | .typeConstant => .type type
      | .valueConstant => .pending
    span := source.span }

def newCapture (p : Program) (substitution : Substitution) (symbol : String) (span : Span)
    (c : Capture) : Run Capture := do
  let context := do return .capture (← p.symbols.name c.name) symbol
  return ⟨c.name, ← concretize p substitution c.type span context⟩

def newShell (p : Program) (substitution : Substitution) (symbol : String) (id : ExprId)
    (e : Expr) : Run ClosureShell := do
  let type ← concretize p substitution e.type e.span (pure (.closure symbol))
  let captures ← (← Capture.ofLambda p.tree id).mapM (newCapture p substitution symbol e.span)
  return ⟨id, type, captures, symbol⟩

def visitClosure (p : Program) (substitution : Substitution) (owner : String)
    (shells : Array ClosureShell) (visit : ModuleTree.Visit) : Run (Array ClosureShell) := do
  let e ← visit.expr
  if e.kind.isLambda then
    let shell ← newShell p substitution (Mangle.closureName owner shells.size) visit.id e
    return shells.push shell
  else
    return shells

/-- Every lambda in the initializers of a module, outer ones before inner ones. -/
def newShells (p : Program) (substitution : Substitution) (owner : String) (m : ModuleDecl) :
    Run (List ClosureShell) := do
  let shells ← m.initializers.foldlM (p.tree.walk (visitClosure p substitution owner)) #[]
  return shells.toList

def announce (p : Program) (c : Closure) : Run Unit :=
  log p (.traced .closures ("registered " ++ c.symbol ++ " with " ++
    toString c.captures.length ++ " capture(s)"))

/-- Create the instance of a key whose arguments are given in full. -/
def create (p : Program) (key : Key) (arguments : List Argument) : Run InstanceId := do
  let m ← p.tree.readModule key.source
  let base ← baseName p m key.parent
  let name ← Mangle.instanceName (← get).types base arguments
  let moduleType ← concretize p key.substitution m.scheme.body m.span (pure (.moduleType name))
  let fields ← m.fieldSources.mapM (newField p key.substitution name)
  log p (.traced .instances
    ("cache miss: " ++ name ++ " with " ++ toString fields.length ++ " field(s)"))
  let shells ← newShells p key.substitution name m
  let s ← get
  let id := s.instances.next
  let closures := numbered id s.closures.size shells
  closures.forM (announce p)
  let made : Instance :=
    ⟨id, key.source, key.parent, key.substitution, arguments, name, moduleType, fields,
      closures.map Closure.id, []⟩
  modify fun s => s.enter made closures
  return id

end Run

end Specializer
