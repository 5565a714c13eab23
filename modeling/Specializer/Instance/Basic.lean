import Specializer.Capture
import Specializer.Index
import Specializer.Substitution.Basic
import Specializer.Tree.ModuleTree

/-!
# Instances

A concrete instance of a module: its arguments, the types of its fields under its substitution, what
each field stands for, and its closures. The identity of an instance is its key: two requests with
equal keys get the same instance. Value arguments enter the key by value, not by spelling.
-/

set_option autoImplicit false

namespace Specializer

structure Key where
  source : ModuleId
  parent : Option InstanceId
  substitution : Substitution
  values : List Literal
  deriving DecidableEq

/-- Source, enclosing instance and replacements; values count by a rough measure of their size. -/
def Key.digest (key : Key) : Nat :=
  let start := Digest.mix key.source.index ((key.parent.map Handle.index).getD 0)
  let types := key.substitution.entries.foldl (fun acc entry => Digest.mix acc entry.2.index) start
  key.values.foldl (fun acc value => Digest.mix acc value.measure) types

instance : Digest Key := ⟨Key.digest⟩

/-- Type constants are erased before code is made; value constants are emitted. -/
inductive DefinitionKind where
  | typeConstant | valueConstant
  deriving DecidableEq

def DefinitionKind.text : DefinitionKind → String
  | .typeConstant => "type"
  | .valueConstant => "value"

inductive Target where
  /-- not resolved yet -/
  | pending
  | literal (value : Literal)
  | closure (id : ClosureId)
  /-- another name for a field of an instance -/
  | definition (owner : InstanceId) (field : Nat)
  | type (type : TypeId)
  /-- a computed initializer -/
  | expression (id : ExprId)
  deriving DecidableEq

structure Definition where
  name : SymbolId
  /-- index of the binding in the source module -/
  binding : Nat
  kind : DefinitionKind
  type : TypeId
  target : Target
  span : Span
  deriving DecidableEq

structure Instance where
  id : InstanceId
  source : ModuleId
  parent : Option InstanceId
  substitution : Substitution
  arguments : List Argument
  name : String
  moduleType : TypeId
  fields : List Definition
  closures : List ClosureId
  submodules : List InstanceId
  deriving DecidableEq

namespace Instance

def fieldForBinding? (i : Instance) (binding : Nat) : Option Nat :=
  i.fields.findIdx? fun f => decide (f.binding = binding)

/-- The first field of a name. -/
def fieldByName? (i : Instance) (name : SymbolId) : Option Definition :=
  i.fields.find? fun f => decide (f.name = name)

/-- The literal given for the template parameter at `index`. -/
def valueArgument? (i : Instance) (index : Nat) : Option Literal :=
  match i.arguments[index]? with
  | some (.value value) => some value
  | _ => none

end Instance

structure Closure where
  id : ClosureId
  owner : InstanceId
  /-- position among the closures of its owner -/
  index : Nat
  expr : ExprId
  type : TypeId
  captures : List Capture
  symbol : String
  deriving DecidableEq

structure ClosureSite where
  expr : ExprId
  owner : InstanceId
  deriving DecidableEq

instance : Digest ClosureSite := ⟨fun site => Digest.mix site.expr.index site.owner.index⟩

/-- The closures made of each lambda expression, for each owner in the order of their making. -/
abbrev ClosureTable : Type := Index ClosureSite (List ClosureId)

def ClosureTable.closuresOf (table : ClosureTable) (site : ClosureSite) : List ClosureId :=
  (table.find? site).getD []

structure Stats where
  hits : Nat
  misses : Nat
  /-- instances that were taken from the work-list and processed to the end -/
  processed : Nat
  deriving DecidableEq

structure Output where
  root : InstanceId
  instances : Arena .instances Instance
  closures : Arena .closures Closure
  cache : Index Key InstanceId
  closureTable : ClosureTable
  stats : Stats
  warnings : List String

namespace Output

def instancesOf (o : Output) (source : ModuleId) : List InstanceId :=
  (o.instances.entries.filter fun entry => decide (entry.2.source = source)).map Prod.fst

def closuresFor (o : Output) (expr : ExprId) (owner : InstanceId) : List ClosureId :=
  o.closureTable.closuresOf ⟨expr, owner⟩

def setTarget (o : Output) (owner : InstanceId) (field : Nat) (target : Target) : Read Output := do
  let i ← o.instances.read owner
  if field < i.fields.length then
    return { o with instances := o.instances.modify owner fun i =>
      { i with fields := i.fields.modify field fun f => { f with target } } }
  else
    .error .unminted

end Output

end Specializer
