import Specializer.Instance.Basic
import Specializer.Text.Json
import Specializer.Text.Table

/-!
# Reports about instances

The instances of a run as a table for people and as a summary for other programs.
-/

set_option autoImplicit false

namespace Specializer.Report

open Text

def targetText (o : Output) (types : TypeStore) (symbols : SymbolTable) : Target → Read String
  | .pending => return "<pending>"
  | .literal value => return value.text
  | .closure id => do return (← o.closures.read id).symbol
  | .definition owner field => do
      let i ← o.instances.read owner
      match i.fields[field]? with
      | some f => return i.name ++ "." ++ (← symbols.name f.name)
      | none => .error .unminted
  | .type type => types.spell symbols type
  | .expression id => return "<exp " ++ toString id.index ++ ">"

def closureSymbols (o : Output) (i : Instance) : Read (List String) :=
  i.closures.mapM fun id => do return (← o.closures.read id).symbol

def fieldText (o : Output) (types : TypeStore) (symbols : SymbolTable) (f : Definition) :
    Read String := do
  return f.kind.text ++ " " ++ (← symbols.name f.name) ++ " :: " ++
    (← types.spell symbols f.type) ++ " = " ++ (← targetText o types symbols f.target)

def instanceRow (o : Output) (tree : ModuleTree) (types : TypeStore) (symbols : SymbolTable)
    (entry : InstanceId × Instance) : Read (List String) := do
  let (id, i) := entry
  let source ← symbols.name (← tree.readModule i.source).name
  let substitution ← i.substitution.spell types symbols
  let fields ← i.fields.mapM (fieldText o types symbols)
  let closures ← closureSymbols o i
  return [toString id.index, i.name, source, substitution, "; ".intercalate fields,
    "; ".intercalate closures]

/-- One row per instance, at most four hundred characters wide. -/
def instanceTable (o : Output) (tree : ModuleTree) (types : TypeStore) (symbols : SymbolTable) :
    Read String := do
  let rows ← o.instances.entries.mapM (instanceRow o tree types symbols)
  let headers := ["Id", "Name", "Source", "Substitution", "Fields", "Closures"]
  return Table.render
    ⟨headers.map String.toList, rows.map fun row => row.map String.toList, 400⟩

def fieldSummary (o : Output) (types : TypeStore) (symbols : SymbolTable) (f : Definition) :
    Read Json := do
  return .object [
    ("name", .string (← symbols.name f.name)),
    ("kind", .string f.kind.text),
    ("ty", .string (← types.spell symbols f.type)),
    ("target", .string (← targetText o types symbols f.target))]

def instanceSummary (o : Output) (types : TypeStore) (symbols : SymbolTable)
    (entry : InstanceId × Instance) : Read Json := do
  let (id, i) := entry
  return .object [
    ("id", .number id.index),
    ("name", .string i.name),
    ("parent", match i.parent with
      | some parent => .number parent.index
      | none => .null),
    ("substitution", .string (← i.substitution.spell types symbols)),
    ("fields", .array (← i.fields.mapM (fieldSummary o types symbols))),
    ("closures", .array ((← closureSymbols o i).map .string)),
    ("submodules", .array (i.submodules.map fun s => .number s.index))]

def closureSummary (types : TypeStore) (symbols : SymbolTable) (c : Closure) : Read Json := do
  let captures ← c.captures.mapM fun capture => do
    return .array [.string (← symbols.name capture.name),
      .string (← types.spell symbols capture.type)]
  return .object [
    ("symbol", .string c.symbol),
    ("owner", .number c.owner.index),
    ("ty", .string (← types.spell symbols c.type)),
    ("captures", .array captures)]

def summary (o : Output) (types : TypeStore) (symbols : SymbolTable) : Read String := do
  let value : Json := .object [
    ("root", .number o.root.index),
    ("instances", .array (← o.instances.entries.mapM (instanceSummary o types symbols))),
    ("closures", .array (← o.closures.toList.mapM (closureSummary types symbols))),
    ("cache_hits", .number o.stats.hits),
    ("cache_misses", .number o.stats.misses),
    ("warnings", .array (o.warnings.map .string))]
  return value.render 0

end Specializer.Report
