import Specializer.Symbol
import Specializer.Types.Store

/-!
# Spelling of types

The text of a type as shown to people. Variables carry their handle, so that two variables of one
name can be told apart; effects are not shown.
-/

set_option autoImplicit false

namespace Specializer

def Numeric.spelling : Numeric → String
  | .signed => "Int"
  | .unsigned => "UInt"
  | .floating => "Float"

def Indirection.marker : Indirection → String
  | .pointer => ""
  | .array => ", N"
  | .slice => ", ?"

namespace TypeStore

/-- An argument that already opens with a parenthesis gets no other. -/
def arrow (argument result : String) : String :=
  if argument.toList.head? = some '(' then argument ++ " -> " ++ result
  else "(" ++ argument ++ ") -> " ++ result

def spellWithin (s : TypeStore) (symbols : SymbolTable) : Nat → TypeId → Read String
  | 0, _ => .error .endless
  | depth + 1, id => do
      match ← s.read id with
      | .unit => return "()"
      | .bool => return "Bool"
      | .string => return "String"
      | .number sort width => return sort.spelling ++ toString width
      | .indirect via target writable =>
          let inner ← s.spellWithin symbols depth target
          return (if writable then "mut[" else "[") ++ inner ++ via.marker ++ "]"
      | .function argument result _ =>
          return arrow (← s.spellWithin symbols depth argument)
            (← s.spellWithin symbols depth result)
      | .tuple items =>
          let parts ← items.mapM (s.spellWithin symbols depth)
          return "(" ++ ", ".intercalate parts ++ ")"
      | .composite shape [] => return shape.keyword ++ " \x7b\x7d"
      | .composite shape fields =>
          let parts ← fields.mapM fun field => do
            let name ← match field.name with
              | some name => symbols.name name
              | none => pure "_"
            let inner ← s.spellWithin symbols depth field.type
            return name ++ (if field.isType then " = " else " :: ") ++ inner
          return shape.keyword ++ " \x7b " ++ "; ".intercalate parts ++ " \x7d"
      | .var _ name => return (← symbols.name name) ++ "#" ++ toString id.index

def spell (s : TypeStore) (symbols : SymbolTable) (id : TypeId) : Read String :=
  s.spellWithin symbols s.depth id

end TypeStore

end Specializer
