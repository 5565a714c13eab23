import Specializer.Substitution.Basic
import Specializer.Types.Spelling

/-!
# Applying substitutions

A substitution replaces the mapped variables of a type, all at once: it is not applied to the
replacements again. It goes through components from left to right, a node whose components stay
the same keeps its handle, and any other node is added anew, which for a module type means a
handle of its own.
-/

set_option autoImplicit false

namespace Specializer

abbrev TypeUpdate (α : Type) : Type := Update TypeStore TypeError α

namespace TypeStore

def readNode (id : TypeId) : TypeUpdate Node := do
  (← get).read id

def addNode (node : Node) : TypeUpdate TypeId :=
  modifyGet fun s => s.add node

end TypeStore

/-- Whether a bound variable without a replacement stays or is refused. -/
inductive Strictness where
  | lenient | strict
  deriving DecidableEq

namespace Substitution

def applyWithin (s : Substitution) (mode : Strictness) : Nat → TypeId → TypeUpdate TypeId
  | 0, _ => throw (.fault .endless)
  | depth + 1, id => do
      let node ← TypeStore.readNode id
      if node.isVariable then
        match s.get? id with
        | some replacement => return replacement
        | none =>
            if mode = .strict ∧ node.isBound then Update.refuse (.unmapped id)
            else return id
      else
        let components ← node.components.mapM (s.applyWithin mode depth)
        if components = node.components then return id
        else TypeStore.addNode (node.withComponents components)

/-- A bound on the depth of a walk that adds types on its way. A handle that nothing has yet may be
in use by the time it is reached, so the size of the store at the start is not enough. -/
def growingDepth (types : TypeStore) : Nat := types.depth + 4294967296

def applyAs (s : Substitution) (mode : Strictness) (id : TypeId) : TypeUpdate TypeId := do
  s.applyWithin mode (growingDepth (← get)) id

/-- The type under a substitution; variables without a replacement stay. -/
def apply (s : Substitution) (id : TypeId) : TypeUpdate TypeId := s.applyAs .lenient id

def applyStrict (s : Substitution) (id : TypeId) : TypeUpdate TypeId := s.applyAs .strict id

/-- The substitution that acts as `inner` followed by `outer`. -/
def compose (outer inner : Substitution) : TypeUpdate Substitution :=
  inner.entries.foldlM (fun acc entry => do return acc.insert entry.1 (← outer.apply entry.2)) outer

def spell (s : Substitution) (types : TypeStore) (symbols : SymbolTable) : Read String := do
  let parts ← s.entries.mapM fun entry => do
    return (← types.spell symbols entry.1) ++ " -> " ++ (← types.spell symbols entry.2)
  return "\x7b" ++ ", ".intercalate parts ++ "\x7d"

end Substitution

end Specializer
