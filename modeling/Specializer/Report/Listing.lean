import Specializer.Instance.Basic

/-!
# Plain listings

The type store line by line, and the closures of a run with their captures.
-/

set_option autoImplicit false

namespace Specializer.Report

def typeListing (types : TypeStore) (symbols : SymbolTable) : Read String := do
  let lines ← types.nodes.entries.mapM fun entry => do
    let spelling ← types.spell symbols entry.1
    return "  #" ++ toString entry.1.index ++ " " ++ entry.2.kind ++ ": " ++ spelling ++ "\n"
  return "=== Type Store ===\n" ++ String.join lines

def captureText (types : TypeStore) (symbols : SymbolTable) (c : Capture) : Read String := do
  return (← symbols.name c.name) ++ " :: " ++ (← types.spell symbols c.type)

def closureLines (o : Output) (types : TypeStore) (symbols : SymbolTable) (c : Closure) :
    Read String := do
  let spelling ← types.spell symbols c.type
  let owner ← o.instances.read c.owner
  let captures ← c.captures.mapM fun capture => do
    return "    captures " ++ (← captureText types symbols capture) ++ "\n"
  return "  " ++ c.symbol ++ " :: " ++ spelling ++ " (owner " ++ owner.name ++ ", exp " ++
    toString c.expr.index ++ ")\n" ++ String.join captures

def closureListing (o : Output) (types : TypeStore) (symbols : SymbolTable) : Read String := do
  let lines ← o.closures.toList.mapM (closureLines o types symbols)
  return "=== Closures ===\n" ++ String.join lines

end Specializer.Report
