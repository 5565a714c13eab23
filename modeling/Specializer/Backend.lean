import Specializer.Instance.Run
import Specializer.Report.Instances
import Specializer.Report.Listing

/-!
# Back ends and emission

A back end is told of every closure and then of every value field of every instance, and finally
asked for its text. Type constants are erased before they reach it. The first call that objects
ends the emission.
-/

set_option autoImplicit false

namespace Specializer

structure EmitView where
  output : Output
  tree : ModuleTree
  types : TypeStore
  symbols : SymbolTable

structure Backend (σ : Type) where
  name : String
  start : σ
  declareClosure : EmitView → Closure → Update σ String Unit
  emitField : EmitView → Instance → Definition → Update σ String Unit
  finish : EmitView → Update σ String String

namespace Backend

def listedClosure (view : EmitView) (c : Closure) : Read String := do
  let spelling ← view.types.spell view.symbols c.type
  let captures ← c.captures.mapM (Report.captureText view.types view.symbols)
  return "closure " ++ c.symbol ++ " :: " ++ spelling ++
    if captures.isEmpty then "" else " [" ++ ", ".intercalate captures ++ "]"

def listedField (view : EmitView) (i : Instance) (f : Definition) (name : String) :
    Read String := do
  let target ← Report.targetText view.output view.types view.symbols f.target
  let spelling ← view.types.spell view.symbols f.type
  return i.name ++ "." ++ name ++ " :: " ++ spelling ++ " = " ++ target

/-- One line per closure and per field, kept with the newest first. A field without a target is an
error. -/
def listing : Backend (List String) where
  name := "listing"
  start := []
  declareClosure view c := do
    let line ← listedClosure view c
    modify fun lines => line :: lines
  emitField view i f := do
    let name ← view.symbols.name f.name
    if f.target = .pending then
      Update.refuse ("field '" ++ i.name ++ "." ++ name ++ "' was never resolved")
    let line ← listedField view i f name
    modify fun lines => line :: lines
  finish _ := do
    let lines ← get
    set ([] : List String)
    return "\n".intercalate lines.reverse

def counting : Backend (Nat × Nat) where
  name := "counting"
  start := (0, 0)
  declareClosure _ _ := modify fun counts => (counts.1 + 1, counts.2)
  emitField _ _ _ := modify fun counts => (counts.1, counts.2 + 1)
  finish _ := do
    let counts ← get
    return toString counts.1 ++ " closure(s), " ++ toString counts.2 ++ " field(s)"

/-- Takes every closure and objects to every field. -/
def failing : Backend Unit where
  name := "failing"
  start := ()
  declareClosure _ _ := pure ()
  emitField _ i _ := Update.refuse ("cannot lower " ++ i.name)
  finish _ := pure ""

end Backend

structure Emission (σ : Type) where
  backend : σ
  log : Log

namespace Emission

variable {σ α : Type}

def note (settings : Settings) (line : LogLine) : Update (Emission σ) String Unit :=
  modify fun s => { s with log := s.log.write settings line }

def call (update : Update σ String α) : Update (Emission σ) String α :=
  Update.focus Emission.backend (fun backend s => { s with backend }) pure update

def valueFields (i : Instance) : List Definition :=
  i.fields.filter fun f => decide (f.kind = .valueConstant)

def emitInstance (settings : Settings) (view : EmitView) (backend : Backend σ) (i : Instance) :
    Update (Emission σ) String Unit := do
  (valueFields i).forM fun f => call (backend.emitField view i f)
  note settings (.traced .driver ("emitted " ++ i.name))

/-- The number of fields that no back end is told of. -/
def erased (o : Output) : Nat :=
  (o.instances.toList.flatMap Instance.fields).countP fun f => decide (f.kind = .typeConstant)

/-- Hand a run over to a back end: closures first, then value fields, both in the order of
handles. -/
def emit (settings : Settings) (view : EmitView) (backend : Backend σ) :
    Update (Emission σ) String String := do
  view.output.closures.toList.forM fun c => call (backend.declareClosure view c)
  view.output.instances.toList.forM (emitInstance settings view backend)
  note settings (.debug ("erased " ++ toString (erased view.output) ++ " type constant(s)"))
  call (backend.finish view)

end Emission

end Specializer
