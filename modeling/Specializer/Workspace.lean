import Specializer.Backend
import Specializer.Instance.Process

/-!
# Workspaces and compilation

A workspace holds everything one compilation shares. Compiling a module runs the specialization,
prints the reports that the settings ask for and drives a back end; what is printed on either stream
is part of the result.
-/

set_option autoImplicit false

namespace Specializer

structure Workspace where
  settings : Settings
  /-- whether texts for terminals are coloured -/
  colors : Bool
  sources : SourceMap
  symbols : SymbolTable
  types : TypeStore
  tree : ModuleTree

namespace Workspace

def initial : Workspace := ⟨.silent, false, .empty, .empty, .initial, .empty⟩

def intern (w : Workspace) (name : String) : SymbolId × Workspace :=
  let (id, symbols) := w.symbols.intern name
  (id, { w with symbols })

def addType (w : Workspace) (node : Node) : TypeId × Workspace :=
  let (id, types) := w.types.add node
  (id, { w with types })

def addExpr (w : Workspace) (kind : ExprKind) (type : TypeId) (span : Span) : ExprId × Workspace :=
  let (id, tree) := w.tree.addExpr kind type span
  (id, { w with tree })

def addSource (w : Workspace) (label text : String) : FileId × Workspace :=
  let (id, sources) := w.sources.add label text
  (id, { w with sources })

/-- Give a module the scheme of its bindings as they are now. The type is added even if the scheme
is refused. -/
def sealModule (w : Workspace) (id : ModuleId) : Read (Except TypeError Scheme × Workspace) := do
  let m ← w.tree.readModule id
  let enclosing ← w.tree.ancestorVars id
  let (body, w) := w.addType (← w.tree.moduleNode id)
  match ← Scheme.checked w.types m.typeVars body enclosing with
  | .error e => return (.error e, w)
  | .ok scheme => return (.ok scheme, { w with tree := ← w.tree.setScheme id scheme })

def program (w : Workspace) : Program := ⟨w.tree, w.symbols, w.settings⟩

def view (w : Workspace) (output : Output) : EmitView := ⟨output, w.tree, w.types, w.symbols⟩

/-- Announce and run the specialization of a module and of all it demands. -/
def specialize (p : Program) (root : ModuleId) : Run Output := do
  let name ← p.symbols.name (← p.tree.readModule root).name
  Run.log p (.started ("Monomorphizing " ++ name ++ "..."))
  Run.log p (.traced .driver (toString p.tree.modules.size ++ " module expression(s), " ++
    toString p.tree.exprs.size ++ " expression(s), " ++ toString (← get).types.size ++
    " interned type(s)"))
  Run.complete p root

def report (w : Workspace) (e : InstantiationError) : Read String :=
  e.report.render w.colors w.sources

def dumpText (w : Workspace) (o : Output) : Dump → Read String
  | .types => Report.typeListing w.types w.symbols
  | .table => do
      return (← Report.instanceTable o w.tree w.types w.symbols) ++ "\n" ++
        (← Report.closureListing o w.types w.symbols)
  | .json => Report.summary o w.types w.symbols

/-- The requested reports, each once and in the fixed order of reports. -/
def dumps (w : Workspace) (o : Output) : Read (List (Dump × String)) :=
  (Dump.all.filter w.settings.requests).mapM fun dump => do return (dump, ← w.dumpText o dump)

structure Compilation where
  output : Output
  emitted : String
  dumps : List (Dump × String)

/-- What a compilation printed, what it gave, and the workspace it leaves. -/
structure CompileResult where
  stdout : String
  stderr : String
  result : Option Compilation
  workspace : Workspace

/-- The warnings of a run as diagnostics, unless the settings want silence. -/
def warningText (w : Workspace) (o : Output) : Read String :=
  if w.settings.quiet then return ""
  else return String.join (← o.warnings.mapM fun warning =>
    (Diagnostic.plain .warning "M0100" warning .synthetic).render w.colors w.sources)

def errorLine (w : Workspace) (message : String) : String :=
  (Text.Style.boldOf .red).paint w.colors "Error:" ++ " " ++ message ++ "\n"

def emit {σ : Type} (w : Workspace) (o : Output) (backend : Backend σ) :
    Read (Except String String × String) := do
  let (answer, s) ←
    Update.outcome (Emission.emit w.settings (w.view o) backend) ⟨backend.start, []⟩
  return (answer, s.log.text w.colors)

/-- The second half of a compilation: reports and emission of a finished run. -/
def emitAndReport {σ : Type} (w : Workspace) (o : Output) (backend : Backend σ) (printed : String) :
    Read CompileResult := do
  let line (l : LogLine) : String := (Log.write [] w.settings l).text w.colors
  let dumps ← w.dumps o
  let stdout := String.join (dumps.map fun dump => "\n" ++ dump.2 ++ "\n")
  let stderr := printed ++
    line (.finished ("Monomorphized " ++ toString o.instances.size ++ " instance(s), " ++
      toString o.closures.size ++ " closure(s)")) ++
    (← w.warningText o) ++ line (.started ("Emitting with the " ++ backend.name ++ " backend..."))
  match ← w.emit o backend with
  | (.ok emitted, more) => return ⟨stdout, stderr ++ more, some ⟨o, emitted, dumps⟩, w⟩
  | (.error message, more) => return ⟨stdout, stderr ++ more ++ w.errorLine message, none, w⟩

def compile {σ : Type} (w : Workspace) (root : ModuleId) (backend : Backend σ) :
    Read CompileResult := do
  let (answer, s) ← Update.outcome (specialize w.program root) (.start w.types)
  let printed := s.log.text w.colors
  let w := { w with types := s.types }
  match answer with
  | .ok output => w.emitAndReport output backend printed
  | .error e =>
      let shown ← if w.settings.quiet then pure "" else w.report e
      return ⟨"", printed ++ shown, none, w⟩

end Workspace

end Specializer
