import Specializer.Scheme
import Specializer.Tree.Expr

/-!
# Module trees

Modules with template parameters, a scheme and bindings, nested by their parents, together with the
expressions of their value bindings. A tree only grows: modules and expressions are added, and
bindings are appended to modules.
-/

set_option autoImplicit false

namespace Specializer

inductive TemplateKind where
  /-- a type, standing for the bound variable `var` -/
  | type (var : TypeId)
  /-- a constant of the given type -/
  | value (type : TypeId)
  deriving DecidableEq

structure TemplateParam where
  name : SymbolId
  span : Span
  kind : TemplateKind
  deriving DecidableEq

def TemplateParam.var? (p : TemplateParam) : Option TypeId :=
  match p.kind with
  | .type var => some var
  | .value _ => none

def TemplateParam.isType (p : TemplateParam) : Bool := p.var?.isSome

inductive BindingKind where
  | value (type : TypeId) (init : ExprId)
  | type (type : TypeId)
  | nested (id : ModuleId)
  deriving DecidableEq

structure Binding where
  name : SymbolId
  span : Span
  kind : BindingKind
  deriving DecidableEq

structure ModuleDecl where
  name : SymbolId
  span : Span
  parent : Option ModuleId
  params : List TemplateParam
  scheme : Scheme
  bindings : List Binding
  deriving DecidableEq

namespace ModuleDecl

def isGeneric (m : ModuleDecl) : Bool := !m.params.isEmpty

/-- The variables of the type parameters in order. -/
def typeVars (m : ModuleDecl) : List TypeId := m.params.filterMap TemplateParam.var?

def bindingIndex? (m : ModuleDecl) (name : SymbolId) : Option Nat :=
  m.bindings.findIdx? fun b => decide (b.name = name)

end ModuleDecl

/-- The field that a binding contributes to the type of its module; nested modules are no fields. -/
def Binding.field? (b : Binding) : Option Field :=
  match b.kind with
  | .value type _ => some ⟨some b.name, type, false⟩
  | .type type => some ⟨some b.name, type, true⟩
  | .nested _ => none

structure ModuleTree where
  modules : Arena .modules ModuleDecl
  exprs : Arena .exprs Expr

namespace ModuleTree

def empty : ModuleTree := ⟨.empty, .empty⟩

def readModule (t : ModuleTree) (id : ModuleId) : Read ModuleDecl := t.modules.read id

def readExpr (t : ModuleTree) (id : ExprId) : Read Expr := t.exprs.read id

/-- The chain of parents above a parent, that parent first. -/
def chainWithin (t : ModuleTree) : Nat → Option ModuleId → Read (List ModuleId)
  | _, none => return []
  | 0, some _ => .error .endless
  | depth + 1, some id => do
      let m ← t.readModule id
      return id :: (← t.chainWithin depth m.parent)

def ancestors (t : ModuleTree) (id : ModuleId) : Read (List ModuleId) := do
  t.chainWithin t.modules.size (← t.readModule id).parent

def ancestorVars (t : ModuleTree) (id : ModuleId) : Read (List TypeId) := do
  let decls ← (← t.ancestors id).mapM t.readModule
  return decls.flatMap ModuleDecl.typeVars

def addBinding (t : ModuleTree) (id : ModuleId) (b : Binding) : Read (Nat × ModuleTree) := do
  let m ← t.readModule id
  return (m.bindings.length,
    { t with modules := t.modules.modify id fun m => { m with bindings := m.bindings ++ [b] } })

/-- Add a module without bindings. A nested module is bound in its parent under its name. -/
def addModule (t : ModuleTree) (name : SymbolId) (span : Span) (parent : Option ModuleId)
    (params : List TemplateParam) (scheme : Scheme) : Read (ModuleId × ModuleTree) := do
  let id := t.modules.next
  let added : ModuleTree :=
    { t with modules := t.modules.push ⟨name, span, parent, params, scheme, []⟩ }
  match parent with
  | none => return (id, added)
  | some outer =>
      let (_, bound) ← added.addBinding outer ⟨name, span, .nested id⟩
      return (id, bound)

def addValue (t : ModuleTree) (id : ModuleId) (name : SymbolId) (init : ExprId) :
    Read (Nat × ModuleTree) := do
  let e ← t.readExpr init
  t.addBinding id ⟨name, e.span, .value e.type init⟩

/-- Bind a name to a type; the binding takes the span of its module. -/
def addType (t : ModuleTree) (id : ModuleId) (name : SymbolId) (type : TypeId) :
    Read (Nat × ModuleTree) := do
  let m ← t.readModule id
  t.addBinding id ⟨name, m.span, .type type⟩

def addExpr (t : ModuleTree) (kind : ExprKind) (type : TypeId) (span : Span) :
    ExprId × ModuleTree :=
  (t.exprs.next, { t with exprs := t.exprs.push ⟨kind, span, type⟩ })

def setScheme (t : ModuleTree) (id : ModuleId) (scheme : Scheme) : Read ModuleTree := do
  let _ ← t.readModule id
  return { t with modules := t.modules.modify id fun m => { m with scheme } }

/-- The type of a module, from its bindings as they are now. -/
def moduleNode (t : ModuleTree) (id : ModuleId) : Read Node := do
  let m ← t.readModule id
  return .composite .moduleType (m.bindings.filterMap Binding.field?)

theorem moduleNode_eq {t : ModuleTree} {id : ModuleId} {m : ModuleDecl}
    (hDecl : t.readModule id = .ok m) :
    t.moduleNode id = .ok (.composite .moduleType (m.bindings.filterMap Binding.field?)) := by
  rw [moduleNode, hDecl]
  rfl

structure Visit where
  id : ExprId
  expr : Read Expr

/-- Every occurrence below an expression, each before its sub-expressions, these in the order of
evaluation. The walk does not stop at a handle that names nothing: the visit says so. -/
def visitsWithin (t : ModuleTree) : Nat → ExprId → List Visit
  | 0, id => [⟨id, .error .endless⟩]
  | depth + 1, id =>
      match t.readExpr id with
      | .error reason => [⟨id, .error reason⟩]
      | .ok e => ⟨id, .ok e⟩ :: e.kind.children.flatMap (t.visitsWithin depth)

def visits (t : ModuleTree) (id : ExprId) : List Visit := t.visitsWithin (t.exprs.size + 1) id

section Walk

variable {m : Type → Type} [Monad m] {β : Type}

/-- Walk over an expression in the order of `visitsWithin`. A step that fails ends the walk, and
what lies behind it is never looked at: one expression may occur a great many times. -/
def walkWithin (t : ModuleTree) (step : β → Visit → m β) : Nat → β → ExprId → m β
  | 0, acc, id => step acc ⟨id, .error .endless⟩
  | depth + 1, acc, id =>
      match t.readExpr id with
      | .error reason => step acc ⟨id, .error reason⟩
      | .ok e => do
          let acc ← step acc ⟨id, .ok e⟩
          e.kind.children.foldlM (t.walkWithin step depth) acc

def walk (t : ModuleTree) (step : β → Visit → m β) (acc : β) (id : ExprId) : m β :=
  t.walkWithin step (t.exprs.size + 1) acc id

def walkBelow (t : ModuleTree) (step : β → Visit → m β) (acc : β) (id : ExprId) : m β :=
  match t.readExpr id with
  | .error _ => pure acc
  | .ok e => e.kind.children.foldlM (t.walkWithin step t.exprs.size) acc

theorem foldlM_flatMap [LawfulMonad m] {α γ : Type} (step : β → γ → m β) (f : α → List γ)
    (items : List α) (acc : β) :
    (items.flatMap f).foldlM step acc =
      items.foldlM (fun acc item => (f item).foldlM step acc) acc := by
  induction items generalizing acc with
  | nil => rfl
  | cons item rest ih =>
    rw [List.flatMap_cons, List.foldlM_append, List.foldlM_cons]
    exact bind_congr fun acc => ih acc

theorem walkWithin_eq [LawfulMonad m] (t : ModuleTree) (step : β → Visit → m β) (depth : Nat)
    (acc : β) (id : ExprId) :
    t.walkWithin step depth acc id = (t.visitsWithin depth id).foldlM step acc := by
  induction depth generalizing acc id with
  | zero => simp [walkWithin, visitsWithin]
  | succ depth ih =>
    rw [walkWithin, visitsWithin]
    cases t.readExpr id with
    | error reason => simp
    | ok e =>
      have children : (fun acc id => t.walkWithin step depth acc id) =
          fun acc id => (t.visitsWithin depth id).foldlM step acc :=
        funext fun acc => funext fun id => ih acc id
      simp only [List.foldlM_cons, foldlM_flatMap]
      exact bind_congr fun acc => congrArg (fun f => e.kind.children.foldlM f acc) children

theorem walk_eq [LawfulMonad m] (t : ModuleTree) (step : β → Visit → m β) (acc : β)
    (id : ExprId) : t.walk step acc id = (t.visits id).foldlM step acc :=
  t.walkWithin_eq step _ acc id

theorem walkBelow_eq [LawfulMonad m] (t : ModuleTree) (step : β → Visit → m β) (acc : β)
    (id : ExprId) : t.walkBelow step acc id = (t.visits id).tail.foldlM step acc := by
  rw [walkBelow, visits, visitsWithin]
  cases t.readExpr id with
  | error reason => rfl
  | ok e =>
    have children : (fun acc id => t.walkWithin step t.exprs.size acc id) =
        fun acc id => (t.visitsWithin t.exprs.size id).foldlM step acc :=
      funext fun acc => funext fun id => t.walkWithin_eq step _ acc id
    simp only [List.tail_cons, foldlM_flatMap]
    exact congrArg (fun f => e.kind.children.foldlM f acc) children

end Walk

end ModuleTree

end Specializer
