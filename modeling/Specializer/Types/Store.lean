import Specializer.Interner
import Specializer.Types.Node

/-!
# The type store

Structural types are interned, so a node that is not nominal has one handle. Module types and
variables are nominal: adding one always hands out a new handle. With the handle of a composite the
table of its fields is laid down, where names are looked up from then on. A fresh store holds the
scalar types of the usual widths.
-/

set_option autoImplicit false

namespace Specializer

inductive TypeError where
  /-- a field was looked up on a type whose kind has none -/
  | noFields (type : TypeId) (node : Node) (field : SymbolId)
  /-- a strict substitution does not map a bound variable that it met -/
  | unmapped (var : TypeId)
  | arity (expected found : Nat)
  /-- a bound variable that no scheme in scope quantifies -/
  | unquantified (var : TypeId)
  deriving DecidableEq

def TypeError.message : TypeError → String
  | .noFields type node field =>
      "cannot look up field #" ++ toString field.index ++ " on type " ++ type.spelling ++
        ": kind " ++ node.kind ++ " has no field table"
  | .unmapped v => "bound variable " ++ v.spelling ++ " has no entry in the substitution"
  | .arity expected found =>
      "expected " ++ toString expected ++ " type argument(s), found " ++ toString found
  | .unquantified v =>
      "bound variable " ++ v.spelling ++ " appears in a scheme body but is not quantified"

/-- Heads and component handles; what rarely tells two nodes apart is left out. -/
def Node.digest : Node → Nat
  | .unit => 0
  | .bool => 1
  | .string => 2
  | .number _ width => Digest.mix 3 width
  | .indirect _ target _ => Digest.mix 4 target.index
  | .var _ name => Digest.mix 5 name.index
  | .function argument result _ => Digest.mix (Digest.mix 6 argument.index) result.index
  | .tuple items => items.foldl (fun acc item => Digest.mix acc item.index) 7
  | .composite _ fields => fields.foldl (fun acc field => Digest.mix acc field.type.index) 8

instance : Digest Node := ⟨Node.digest⟩

structure TypeStore where
  nodes : Interner .types Node
  /-- the field table of each type that has fields -/
  tables : Index TypeId (Index SymbolId Nat)
  agrees : ∀ id, tables.find? id = (nodes.items.get? id).bind Node.fieldTable?

namespace TypeStore

/-- The scalars of a fresh store, in the order of their handles. -/
def primitives : List Node :=
  [.unit, .bool, .string,
   .number .signed 8, .number .signed 16, .number .signed 32, .number .signed 64,
   .number .unsigned 8, .number .unsigned 16, .number .unsigned 32, .number .unsigned 64,
   .number .floating 32, .number .floating 64]

def empty : TypeStore := ⟨.empty, .empty, fun _ => rfl⟩

def push (s : TypeStore) (node : Node) : TypeStore where
  nodes := s.nodes.push node
  tables := match node.fieldTable? with
    | some table => s.tables.insert s.nodes.next table
    | none => s.tables
  agrees id := by
    rw [Interner.items_push, Arena.get?_push]
    by_cases isNext : id = s.nodes.items.next
    · subst isNext
      cases table : node.fieldTable? with
      | some table => simp [Index.find?_insert, Interner.next, table]
      | none =>
        have unused := (s.nodes.items.get?_eq_none_iff s.nodes.items.next).mpr (Nat.le_refl _)
        simp [s.agrees, unused, table]
    · have apart : s.nodes.next ≠ id := fun equal => isNext equal.symm
      cases node.fieldTable? with
      | some table => simp [Index.find?_insert, apart, isNext, s.agrees]
      | none => simp [isNext, s.agrees]

def initial : TypeStore := primitives.foldl push empty

def unit : TypeId := ⟨0⟩

def size (s : TypeStore) : Nat := s.nodes.size

def read (s : TypeStore) (id : TypeId) : Read Node := s.nodes.read id

/-- The handle of a node: the one it already has, unless it is new or nominal. -/
def add (s : TypeStore) (node : Node) : TypeId × TypeStore :=
  if node.isNominal then (s.nodes.next, s.push node)
  else match s.nodes.find? node with
    | some id => (id, s)
    | none => (s.nodes.next, s.push node)

/-- Position of the field of a name. A type without a table objects; a table without that name
answers `none`. -/
def fieldIndex (s : TypeStore) (id : TypeId) (name : SymbolId) :
    Read (Except TypeError (Option Nat)) :=
  match s.tables.find? id with
  | some table => return .ok (table.find? name)
  | none => do return .error (.noFields id (← s.read id) name)

/-- A bound on the length of every path down an acyclic store. -/
def depth (s : TypeStore) : Nat := s.size + 1

/-- Every occurrence of a variable below `id`, from left to right. -/
def occurrencesWithin (s : TypeStore) : Nat → TypeId → Read (List TypeId)
  | 0, _ => .error .endless
  | depth + 1, id => do
      let node ← s.read id
      if node.isVariable then
        return [id]
      let parts ← node.components.mapM (s.occurrencesWithin depth)
      return parts.flatten

def vars (s : TypeStore) (id : TypeId) : Read (List TypeId) := do
  return (← s.occurrencesWithin s.depth id).eraseDups

def isConcrete (s : TypeStore) (id : TypeId) : Read Bool := do
  return (← s.vars id).isEmpty

end TypeStore

end Specializer
