import Specializer.Handle

/-!
# Type nodes

One node of a type: its head and the handles of its components. Scalars have no components, an
indirection has one, a function has its argument and its result, and a composite has one component
per field. A substitution changes the components of a node only, which `withComponents` makes
precise.
-/

set_option autoImplicit false

namespace Specializer

inductive Numeric where
  | signed | unsigned | floating
  deriving DecidableEq

inductive Indirection where
  | pointer | array | slice
  deriving DecidableEq

inductive Effect where
  | total | divergent | state | exception | machineLevel
  deriving DecidableEq

inductive Shape where
  | struct | union | enumeration | moduleType
  deriving DecidableEq

/-- Bound variables wait for a substitution; free variables stand for an unknown type. -/
inductive Binder where
  | bound | free
  deriving DecidableEq

/-- One component of a composite. A type field holds a definition and not the type of a value. -/
structure Field where
  name : Option SymbolId
  type : TypeId
  isType : Bool
  deriving DecidableEq

def Field.unnamed (type : TypeId) : Field := ⟨none, type, false⟩

inductive Node where
  | unit
  | bool
  | string
  | number (sort : Numeric) (width : Nat)
  | indirect (via : Indirection) (target : TypeId) (writable : Bool)
  | function (argument result : TypeId) (effect : Effect)
  | tuple (items : List TypeId)
  | composite (shape : Shape) (fields : List Field)
  | var (binder : Binder) (name : SymbolId)
  deriving DecidableEq

def Effect.text : Effect → String
  | .total => "Tot"
  | .divergent => "Dv"
  | .state => "ST"
  | .exception => "Exn"
  | .machineLevel => "ML"

def Shape.keyword : Shape → String
  | .struct => "Struct"
  | .union => "Union"
  | .enumeration => "Enum"
  | .moduleType => "Module"

namespace Node

def kind : Node → String
  | .unit => "Unit"
  | .bool => "Bool"
  | .string => "String"
  | .number .signed _ => "SignedInt"
  | .number .unsigned _ => "UnsignedInt"
  | .number .floating _ => "Float"
  | .indirect .pointer _ _ => "Pointer"
  | .indirect .array _ _ => "Array"
  | .indirect .slice _ _ => "Slice"
  | .function _ _ _ => "Function"
  | .tuple _ => "Tuple"
  | .composite shape _ => shape.keyword
  | .var .bound _ => "BoundVar"
  | .var .free _ => "FreeVar"

def isVariable : Node → Bool
  | .var _ _ => true
  | _ => false

def isBound : Node → Bool
  | .var .bound _ => true
  | _ => false

/-- Nominal nodes get a handle of their own each time; all others are found again. -/
def isNominal : Node → Bool
  | .composite .moduleType _ => true
  | .var _ _ => true
  | _ => false

def fields? : Node → Option (List Field)
  | .composite _ fields => some fields
  | _ => none

/-- The components in order, those of other kinds than composites without a name. -/
def elements : Node → List Field
  | .indirect _ target _ => [.unnamed target]
  | .function argument result _ => [.unnamed argument, .unnamed result]
  | .tuple items => items.map .unnamed
  | .composite _ fields => fields
  | _ => []

def components (node : Node) : List TypeId := node.elements.map Field.type

/-- The same node around other components, given in the order of `components`. -/
def withComponents : Node → List TypeId → Node
  | .indirect via _ writable, [target] => .indirect via target writable
  | .function _ _ effect, [argument, result] => .function argument result effect
  | .tuple _, items => .tuple items
  | .composite shape fields, types =>
      .composite shape (List.zipWith (fun field type => { field with type }) fields types)
  | node, _ => node

def bits? : Node → Option Nat
  | .number _ width => some width
  | .bool => some 1
  | _ => none

def bytes? (node : Node) : Option Nat := node.bits?.map fun bits => (bits + 7) / 8

def isWritable? : Node → Option Bool
  | .indirect _ _ writable => some writable
  | _ => none

def target? : Node → Option TypeId
  | .indirect _ target _ => some target
  | _ => none

def argument? : Node → Option TypeId
  | .function argument _ _ => some argument
  | _ => none

def result? : Node → Option TypeId
  | .function _ result _ => some result
  | _ => none

def effect? : Node → Option Effect
  | .function _ _ effect => some effect
  | _ => none

def fieldNameAt? (node : Node) (index : Nat) : Option SymbolId := do
  (← (← node.fields?)[index]?).name

def fieldTypeAt? (node : Node) (index : Nat) : Option TypeId :=
  match node with
  | .tuple items => items[index]?
  | _ => do return (← (← node.fields?)[index]?).type

def isTypeFieldAt (node : Node) (index : Nat) : Bool :=
  ((node.fields?.bind fun fields => fields[index]?).map Field.isType).getD false

/-- The position of each name in a list of fields: a later field takes the name over from an earlier
one, and an unnamed field has no entry. -/
def fieldTable (fields : List Field) : Index SymbolId Nat :=
  fields.zipIdx.foldl
    (fun table entry =>
      match entry.1.name with
      | some name => table.insert name entry.2
      | none => table)
    .empty

def fieldTable? (node : Node) : Option (Index SymbolId Nat) := node.fields?.map fieldTable

end Node

end Specializer
