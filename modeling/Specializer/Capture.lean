import Specializer.Tree.ModuleTree

/-!
# Captures

The names that a lambda reads and does not bind. A `let` binds its name in its body and not in its
value; a lambda binds its parameters in its body. Each name is listed once, at its first free
occurrence and with the type found there.
-/

set_option autoImplicit false

namespace Specializer

structure Capture where
  name : SymbolId
  type : TypeId
  deriving DecidableEq

namespace Capture

/-- The captures found so far after walking over an expression inside `scope`. -/
def collectWithin (t : ModuleTree) :
    Nat → List SymbolId → List Capture → ExprId → Read (List Capture)
  | 0, _, _, _ => .error .endless
  | depth + 1, scope, found, id => do
      let e ← t.readExpr id
      match e.kind with
      | .localName name =>
          if scope.contains name || found.any fun c => decide (c.name = name) then return found
          else return found ++ [⟨name, e.type⟩]
      | .letIn name value body =>
          let found ← collectWithin t depth scope found value
          collectWithin t depth (name :: scope) found body
      | .lambda params body =>
          collectWithin t depth (params.map LambdaParam.name ++ scope) found body
      | kind => kind.children.foldlM (collectWithin t depth scope) found

def ofLambda (t : ModuleTree) (id : ExprId) : Read (List Capture) := do
  match (← t.readExpr id).kind with
  | .lambda params body =>
      collectWithin t (t.exprs.size + 1) (params.map LambdaParam.name) [] body
  | _ => return []

end Capture

end Specializer
