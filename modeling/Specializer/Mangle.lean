import Specializer.Tree.Expr
import Specializer.Types.Store

/-!
# Mangled names

Names of instances, closures and types in one alphabet. Parts of a name are joined by two
underscores and operands of a type by one; an underscore in a module name is written as `_0`.
Every head of a type has a fixed number of operands, a tuple says how many it has, and composites
and variables are told apart by their handle.
-/

set_option autoImplicit false

namespace Specializer.Mangle

def escape (name : String) : String :=
  String.ofList (name.toList.flatMap fun c => if c = '_' then ['_', '0'] else [c])

def literal : Literal → String
  | .signed _ value =>
      if value < 0 then "n" ++ toString value.natAbs else toString value.natAbs
  | .unsigned _ value => toString value
  | .floating .single bits => "f" ++ Text.hex 8 bits
  | .floating .double bits => "f" ++ Text.hex 16 bits
  | .boolean value => if value then "true" else "false"
  | .character byte => "c" ++ toString byte
  | .string value =>
      "s" ++ String.join (value.toUTF8.data.toList.map fun byte => Text.hex 2 byte.toNat)
  | .unit => "unit"

def numeric : Numeric → String
  | .signed => "i"
  | .unsigned => "u"
  | .floating => "f"

def indirection (via : Indirection) (writable : Bool) : String :=
  (match via with
    | .pointer => "ptr"
    | .array => "arr"
    | .slice => "slice") ++ if writable then "mut" else ""

def effect : Effect → String
  | .total => "fn"
  | .divergent => "fndiv"
  | .state => "fnst"
  | .exception => "fnexn"
  | .machineLevel => "fnmach"

def shape : Shape → String
  | .struct => "struct"
  | .union => "union"
  | .enumeration => "enum"
  | .moduleType => "mod"

def typeWithin (types : TypeStore) : Nat → TypeId → Read String
  | 0, _ => .error .endless
  | depth + 1, id => do
      match ← types.read id with
      | .unit => return "unit"
      | .bool => return "bool"
      | .string => return "string"
      | .number sort width => return numeric sort ++ toString width
      | .indirect via target writable =>
          return indirection via writable ++ "_" ++ (← typeWithin types depth target)
      | .function argument result e =>
          return effect e ++ "_" ++ (← typeWithin types depth argument) ++ "_" ++
            (← typeWithin types depth result)
      | .tuple items =>
          let parts ← items.mapM (typeWithin types depth)
          return "tuple" ++ toString items.length ++ String.join (parts.map ("_" ++ ·))
      | .composite s _ => return shape s ++ toString id.index
      | .var _ _ => return "var" ++ toString id.index

def type (types : TypeStore) (id : TypeId) : Read String := typeWithin types types.depth id

def argument (types : TypeStore) : Argument → Read String
  | .type id => type types id
  | .value value => return literal value

/-- The name of an instance from the escaped name of its module and its arguments. -/
def instanceName (types : TypeStore) (base : String) (arguments : List Argument) : Read String := do
  let parts ← arguments.mapM (argument types)
  return base ++ String.join (parts.map ("__" ++ ·))

def closureName (owner : String) (index : Nat) : String :=
  owner ++ "__closure" ++ toString index

end Specializer.Mangle
