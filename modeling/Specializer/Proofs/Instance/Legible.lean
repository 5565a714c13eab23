import Specializer.Instance.Create
import Specializer.Proofs.Substitution.Strict
import Specializer.Proofs.Tree.FreeNames

/-!
# Legible programs

The least that a program must satisfy so that every walk over it ends and every handle on the way
can be read: all its handles were handed out, and its tree has no cycle. Nothing is asked about
kinds, scopes or arguments, since what is wrong there is refused by a run. A program is steady if
the types that each instance makes concrete reach no module type that mentions a variable.

Every recursion of a run has a bound on its depth, and running into one would be a fault. It never
happens if types, parents and sub-expressions are older than what refers to them. What is left to
fail then are refusals and handles that nobody was given, and of a legible program only refusals.
-/

set_option autoImplicit false

namespace Specializer

open TypeStore ModuleTree

/-- Handles by the tables they belong to. -/
structure Handles where
  names : List SymbolId
  types : List TypeId
  modules : List ModuleId
  exprs : List ExprId

def TemplateKind.typeId : TemplateKind → TypeId
  | .type id => id
  | .value id => id

def BindingKind.handles : BindingKind → Handles
  | .value id init => ⟨[], [id], [], [init]⟩
  | .type id => ⟨[], [id], [], []⟩
  | .nested id => ⟨[], [], [id], []⟩

def ModuleDecl.handles (m : ModuleDecl) : Handles where
  names := m.name :: m.params.map TemplateParam.name ++ m.bindings.map Binding.name
  types := m.scheme.body :: m.scheme.bound ++ m.params.map (fun param => param.kind.typeId) ++
    m.bindings.flatMap fun b => b.kind.handles.types
  modules := m.parent.toList ++ m.bindings.flatMap fun b => b.kind.handles.modules
  exprs := m.bindings.flatMap fun b => b.kind.handles.exprs

def ExprKind.handles (kind : ExprKind) : Handles :=
  match kind with
  | .localName name => ⟨[name], [], [], []⟩
  | .field owner _ => ⟨[], [], [owner], []⟩
  | .site target arguments name => ⟨[name], arguments.filterMap Argument.type?, [target], []⟩
  | .templateValue owner _ => ⟨[], [], [owner], []⟩
  | .lambda params body => ⟨params.map LambdaParam.name, params.map LambdaParam.type, [], [body]⟩
  | .letIn name value body => ⟨[name], [], [], [value, body]⟩
  | kind => ⟨[], [], [], kind.children⟩

namespace Program

def HasText (p : Program) (name : SymbolId) : Prop := ∃ text, p.symbols.name name = .ok text

/-- The handles are below the sizes of their tables. -/
structure Mints (p : Program) (types : TypeStore) (h : Handles) : Prop where
  names : ∀ id ∈ h.names, id.index < p.symbols.size
  types : ∀ id ∈ h.types, id.index < types.size
  modules : ∀ id ∈ h.modules, id.index < p.tree.modules.size
  exprs : ∀ id ∈ h.exprs, id.index < p.tree.exprs.size

instance (p : Program) (types : TypeStore) (h : Handles) : Decidable (p.Mints types h) :=
  decidable_of_iff ((∀ id ∈ h.names, id.index < p.symbols.size) ∧
      (∀ id ∈ h.types, id.index < types.size) ∧
      (∀ id ∈ h.modules, id.index < p.tree.modules.size) ∧
      ∀ id ∈ h.exprs, id.index < p.tree.exprs.size)
    ⟨fun ⟨a, b, c, d⟩ => ⟨a, b, c, d⟩, fun ⟨a, b, c, d⟩ => ⟨a, b, c, d⟩⟩

/-- Every handle in the program, and every name in its types, was handed out. -/
structure AllMinted (p : Program) (types : TypeStore) : Prop where
  named : types.Named p.symbols
  modules : ∀ m ∈ p.tree.modules.toList, p.Mints types m.handles
  exprs : ∀ e ∈ p.tree.exprs.toList, e.type.index < types.size ∧ p.Mints types e.kind.handles

structure Legible (p : Program) (types : TypeStore) : Prop where
  grounded : types.Grounded
  minted : p.AllMinted types
  acyclic : p.tree.Acyclic

end Program

/-- The types in an expression that each instance makes concrete. -/
def Expr.concretized (e : Expr) : List TypeId :=
  match e.kind with
  | .lambda _ _ => [e.type]
  | .localName _ => [e.type]
  | .site _ arguments _ => arguments.filterMap Argument.type?
  | _ => []

/-- No type that is made concrete reaches a module type with variables. The types of modules
themselves are not looked at. -/
structure Program.Steady (p : Program) (types : TypeStore) : Prop where
  bindings : ∀ m ∈ p.tree.modules.toList, ∀ b ∈ m.bindings, ∀ type ∈ b.kind.handles.types,
    types.Steady type
  exprs : ∀ e ∈ p.tree.exprs.toList, ∀ type ∈ e.concretized, types.Steady type

theorem FieldSource.mem_of_ofBinding? {b : Binding} {index : Nat} {source : FieldSource}
    (h : FieldSource.ofBinding? b index = some source) :
    source.name = b.name ∧ source.type ∈ b.kind.handles.types := by
  unfold FieldSource.ofBinding? at h
  cases hKind : b.kind <;> simp only [hKind, Option.some.injEq] at h
  · subst h
    simp [BindingKind.handles]
  · subst h
    simp [BindingKind.handles]
  · cases h

theorem ModuleDecl.exists_binding_of_fieldSource {m : ModuleDecl} {source : FieldSource}
    (h : source ∈ m.fieldSources) :
    ∃ b ∈ m.bindings, source.name = b.name ∧ source.type ∈ b.kind.handles.types := by
  obtain ⟨⟨b, index⟩, hMem, hOf⟩ := List.mem_filterMap.mp h
  exact ⟨b, List.fst_mem_of_mem_zipIdx hMem, FieldSource.mem_of_ofBinding? hOf⟩

theorem ModuleDecl.exists_binding_of_initializer {m : ModuleDecl} {init : ExprId}
    (h : init ∈ m.initializers) : ∃ b ∈ m.bindings, init ∈ b.kind.handles.exprs := by
  obtain ⟨b, hMem, type, hKind⟩ := ModuleDecl.mem_initializers.mp h
  exact ⟨b, hMem, by simp [hKind, BindingKind.handles]⟩

theorem ExprKind.exprs_handles (kind : ExprKind) : kind.handles.exprs = kind.children := by
  cases kind <;> rfl

namespace Program

section Mints

variable {p : Program} {types : TypeStore} {h : Handles} (hMints : p.Mints types h)
include hMints

theorem Mints.hasText {name : SymbolId} (hMem : name ∈ h.names) : p.HasText name :=
  Arena.exists_read_of_lt (hMints.names name hMem)

theorem Mints.minted {type : TypeId} (hMem : type ∈ h.types) : types.Minted type :=
  minted_iff_lt.mpr (hMints.types type hMem)

theorem Mints.exists_module {id : ModuleId} (hMem : id ∈ h.modules) :
    ∃ m, p.tree.readModule id = .ok m :=
  Arena.exists_read_of_lt (hMints.modules id hMem)

theorem Mints.exists_expr {id : ExprId} (hMem : id ∈ h.exprs) :
    ∃ e, p.tree.readExpr id = .ok e :=
  Arena.exists_read_of_lt (hMints.exprs id hMem)

end Mints

section Steady

variable {p : Program} {types : TypeStore} (h : p.Steady types)
include h

theorem Steady.fieldSource {id : ModuleId} {m : ModuleDecl} (hDecl : p.tree.readModule id = .ok m)
    {source : FieldSource} (hSource : source ∈ m.fieldSources) : types.Steady source.type := by
  obtain ⟨b, hb, -, hType⟩ := ModuleDecl.exists_binding_of_fieldSource hSource
  exact h.bindings m (Arena.mem_toList_of_read hDecl) b hb _ hType

theorem Steady.lambda {id : ExprId} {e : Expr} (hExpr : p.tree.readExpr id = .ok e)
    (hLambda : e.kind.isLambda = true) : types.Steady e.type := by
  refine h.exprs e (Arena.mem_toList_of_read hExpr) _ ?_
  cases hKind : e.kind <;> simp_all [Expr.concretized, ExprKind.isLambda]

theorem Steady.localName {id : ExprId} {e : Expr} (hExpr : p.tree.readExpr id = .ok e)
    {name : SymbolId} (hKind : e.kind = .localName name) : types.Steady e.type := by
  refine h.exprs e (Arena.mem_toList_of_read hExpr) _ ?_
  simp [Expr.concretized, hKind]

theorem Steady.site {id : ExprId} {e : Expr} (hExpr : p.tree.readExpr id = .ok e)
    {target : ModuleId} {arguments : List Argument} {field : SymbolId}
    (hKind : e.kind = .site target arguments field) {type : TypeId}
    (hType : .type type ∈ arguments) : types.Steady type := by
  refine h.exprs e (Arena.mem_toList_of_read hExpr) _ ?_
  simp only [Expr.concretized, hKind]
  exact List.mem_filterMap.mpr ⟨.type type, hType, rfl⟩

end Steady

namespace Legible

variable {p : Program} {types : TypeStore} (h : p.Legible types)
include h

theorem sane : types.Sane p.symbols := ⟨h.grounded, h.minted.named⟩

theorem ofModule {id : ModuleId} {m : ModuleDecl} (hDecl : p.tree.readModule id = .ok m) :
    p.Mints types m.handles :=
  h.minted.modules m (Arena.mem_toList_of_read hDecl)

theorem ofExpr {id : ExprId} {e : Expr} (hExpr : p.tree.readExpr id = .ok e) :
    p.Mints types e.kind.handles :=
  (h.minted.exprs e (Arena.mem_toList_of_read hExpr)).2

theorem minted_type {id : ExprId} {e : Expr} (hExpr : p.tree.readExpr id = .ok e) :
    types.Minted e.type :=
  minted_iff_lt.mpr (h.minted.exprs e (Arena.mem_toList_of_read hExpr)).1

theorem exists_parentsRanked : ∃ rank, p.tree.ParentsRanked rank := by
  apply h.acyclic.exists_parentsRanked
  rintro id outer ⟨m, hDecl, hParent⟩
  exact (h.ofModule hDecl).exists_module (by simp [ModuleDecl.handles, hParent])

theorem exists_childrenRanked : ∃ rank, p.tree.ChildrenRanked rank := by
  apply h.acyclic.exists_childrenRanked
  rintro id child ⟨e, hExpr, hChild⟩
  exact (h.ofExpr hExpr).exists_expr (by rwa [e.kind.exprs_handles])

theorem exists_parent {id outer : ModuleId} {m : ModuleDecl}
    (hDecl : p.tree.readModule id = .ok m) (hParent : m.parent = some outer) :
    ∃ n, p.tree.readModule outer = .ok n :=
  (h.ofModule hDecl).exists_module (by simp [ModuleDecl.handles, hParent])

theorem moduleName {id : ModuleId} {m : ModuleDecl} (hDecl : p.tree.readModule id = .ok m) :
    p.HasText m.name :=
  (h.ofModule hDecl).hasText (by simp [ModuleDecl.handles])

theorem body {id : ModuleId} {m : ModuleDecl} (hDecl : p.tree.readModule id = .ok m) :
    types.Minted m.scheme.body :=
  (h.ofModule hDecl).minted (by simp [ModuleDecl.handles])

theorem bindingName {id : ModuleId} {m : ModuleDecl} (hDecl : p.tree.readModule id = .ok m)
    {b : Binding} (hb : b ∈ m.bindings) : p.HasText b.name := by
  refine (h.ofModule hDecl).hasText ?_
  simp only [ModuleDecl.handles, List.cons_append, List.mem_cons, List.mem_append]
  exact .inr (.inr (List.mem_map_of_mem hb))

theorem fieldSource {id : ModuleId} {m : ModuleDecl} (hDecl : p.tree.readModule id = .ok m)
    {source : FieldSource} (hSource : source ∈ m.fieldSources) :
    p.HasText source.name ∧ types.Minted source.type := by
  obtain ⟨b, hb, hName, hType⟩ := ModuleDecl.exists_binding_of_fieldSource hSource
  refine ⟨hName ▸ h.bindingName hDecl hb, (h.ofModule hDecl).minted ?_⟩
  exact List.mem_append_right _ (List.mem_flatMap.mpr ⟨b, hb, hType⟩)

theorem exists_initializer {id : ModuleId} {m : ModuleDecl} (hDecl : p.tree.readModule id = .ok m)
    {b : Binding} (hb : b ∈ m.bindings) {init : ExprId} (hInit : init ∈ b.kind.handles.exprs) :
    ∃ e, p.tree.readExpr init = .ok e :=
  (h.ofModule hDecl).exists_expr (List.mem_flatMap.mpr ⟨b, hb, hInit⟩)

theorem exists_nested {id nested : ModuleId} {m : ModuleDecl}
    (hDecl : p.tree.readModule id = .ok m) {b : Binding} (hb : b ∈ m.bindings)
    (hKind : b.kind = .nested nested) : ∃ n, p.tree.readModule nested = .ok n := by
  refine (h.ofModule hDecl).exists_module (List.mem_append_right _ ?_)
  exact List.mem_flatMap.mpr ⟨b, hb, by simp [hKind, BindingKind.handles]⟩

theorem exists_visit {init : ExprId} (hInit : ∃ e, p.tree.readExpr init = .ok e) {visit : Visit}
    (hVisit : visit ∈ p.tree.visits init) :
    ∃ e, visit.expr = .ok e ∧ p.tree.readExpr visit.id = .ok e := by
  obtain ⟨rank, hRanked⟩ := h.exists_childrenRanked
  obtain ⟨outer, hOuter⟩ := hInit
  have hDepth : rank init < p.tree.exprs.size + 1 := Nat.lt_succ_of_lt (hRanked.bounded hOuter)
  obtain ⟨e, hExpr⟩ := exists_expr_of_mem_visits hRanked hDepth ⟨outer, hOuter⟩ hVisit
  exact ⟨e, hExpr, (occurs_of_mem_visitsWithin hVisit hExpr).read_eq⟩

theorem capture {id : ExprId} {captures : List Capture}
    (hCaptures : Capture.ofLambda p.tree id = .ok captures) {c : Capture} (hc : c ∈ captures) :
    p.HasText c.name ∧ types.Minted c.type ∧ ∃ position inner,
      p.tree.readExpr position = .ok inner ∧ inner.kind = .localName c.name ∧
        c.type = inner.type := by
  obtain ⟨rank, hRanked⟩ := h.exists_childrenRanked
  obtain ⟨e, hExpr, -⟩ := Read.bind_eq_ok_iff.mp hCaptures
  obtain ⟨found, hFound, hEach⟩ := Capture.exists_ofLambda hRanked hExpr
  cases hCaptures.symm.trans hFound
  obtain ⟨position, inner, hOccurs, hKind, hType⟩ := hEach c hc
  refine ⟨(h.ofExpr hOccurs.read_eq).hasText ?_, ?_, position, inner, hOccurs.read_eq, hKind, hType⟩
  · simp [hKind, ExprKind.handles]
  · rw [hType]
    exact h.minted_type hOccurs.read_eq

theorem exists_captures (hSteady : p.Steady types) {id : ExprId} {e : Expr}
    (hExpr : p.tree.readExpr id = .ok e) : ∃ captures, Capture.ofLambda p.tree id = .ok captures ∧
      ∀ c ∈ captures, p.HasText c.name ∧ types.Minted c.type ∧ types.Steady c.type := by
  obtain ⟨rank, hRanked⟩ := h.exists_childrenRanked
  obtain ⟨captures, hCaptures, -⟩ := Capture.exists_ofLambda hRanked hExpr
  refine ⟨captures, hCaptures, fun c hc => ?_⟩
  obtain ⟨hText, hMinted, position, inner, hInner, hKind, hType⟩ := h.capture hCaptures hc
  refine ⟨hText, hMinted, ?_⟩
  rw [hType]
  exact hSteady.localName hInner hKind

end Legible

theorem AllMinted.extend {p : Program} {s t : TypeStore} (h : p.AllMinted s)
    (hExt : s.Extends t) (hNamed : t.Named p.symbols) : p.AllMinted t := by
  have hLt : ∀ id : TypeId, id.index < s.size → id.index < t.size :=
    fun id hId => Nat.lt_of_lt_of_le hId hExt.size_le
  have hMints : ∀ handles, p.Mints s handles → p.Mints t handles :=
    fun handles h => ⟨h.names, fun id hId => hLt id (h.types id hId), h.modules, h.exprs⟩
  constructor
  · exact hNamed
  · exact fun m hm => hMints _ (h.modules m hm)
  · exact fun e he => ⟨hLt _ (h.exprs e he).1, hMints _ (h.exprs e he).2⟩

/-- Whatever refers to an entry of a table is younger than that entry. -/
structure Ordered (p : Program) (types : TypeStore) : Prop where
  parents : p.tree.ParentsFirst
  children : p.tree.ChildrenFirst
  grounded : types.Grounded

end Program

theorem Read.Excused.ofArena {α : Type} {table : Table} {a : Arena table α} {id : Handle table}
    {clean : Prop} (h : clean → ∃ x, a.read id = .ok x) : (a.read id).Excused clean := by
  apply Read.Excused.of_cases _ h
  exact fun reason hReason => ⟨Arena.eq_unminted_of_read hReason, not_false⟩

namespace Program.Ordered

variable {p : Program} {types : TypeStore} (h : p.Ordered types)
include h

theorem legible (hMinted : p.AllMinted types) : p.Legible types where
  grounded := h.grounded
  minted := hMinted
  acyclic := by
    constructor
    · have hLower : ∀ id outer, p.tree.HasParent id outer → outer.index < id.index :=
        fun id outer ⟨m, hDecl, hParent⟩ => h.parents hDecl hParent
      exact fun id hCycle => Nat.lt_irrefl _ (lt_of_transGen hLower hCycle)
    · have hLower : ∀ id child, p.tree.HasChild id child → child.index < id.index :=
        fun id child ⟨e, hExpr, hChild⟩ => h.children hExpr hChild
      exact fun id hCycle => Nat.lt_irrefl _ (lt_of_transGen hLower hCycle)

/-- A walk over an initializer stops at most at the handle it starts from. -/
theorem excused_visit {init : ExprId} {visit : Visit} (hVisit : visit ∈ p.tree.visits init) :
    visit.expr.Excused (∃ e, p.tree.readExpr init = .ok e) := by
  cases hExpr : p.tree.readExpr init with
  | ok e =>
    apply Read.Excused.of_exists
    have hDepth : init.index < p.tree.exprs.size + 1 := Nat.lt_succ_of_lt (Arena.lt_of_read hExpr)
    exact exists_expr_of_mem_visits h.children.ranked hDepth ⟨e, hExpr⟩ hVisit
  | error reason =>
    have hRead : (p.tree.readExpr init).Excused (∃ e, p.tree.readExpr init = .ok e) := .ofArena id
    rw [visits, visitsWithin, hExpr] at hVisit
    cases List.mem_singleton.mp hVisit
    rwa [hExpr] at hRead

theorem excused_ofLambda (id : ExprId) :
    (Capture.ofLambda p.tree id).Excused (∃ e, p.tree.readExpr id = .ok e) := by
  cases hExpr : p.tree.readExpr id with
  | ok e =>
    obtain ⟨captures, hCaptures, -⟩ := Capture.exists_ofLambda h.children.ranked hExpr
    exact .of_exists ⟨captures, hCaptures⟩
  | error reason =>
    have hRead : (p.tree.readExpr id).Excused (∃ e, p.tree.readExpr id = .ok e) :=
      .ofArena fun h => h
    rw [hExpr] at hRead
    rw [Capture.ofLambda, hExpr]
    apply hRead.bind
    rintro _ ⟨⟩

end Program.Ordered

/-- The failure is excused if the tables are in order. If all that is `known` holds and the program
is legible, it is a refusal. -/
def Failure.Explained {ε : Type} (p : Program) (types : TypeStore) (known : Prop) (e : Failure ε) :
    Prop :=
  p.Ordered types → e.Excused (p.Legible types ∧ known)

namespace Failure.Explained

variable {α ε : Type} {p : Program} {s t : TypeStore} {known known' : Prop} {e : Failure ε}
  {reason : Fault}

theorem refused (cause : ε) : (Failure.refused cause).Explained p s known := fun _ => trivial

theorem of_read {x : Read α} (hError : x = .error reason)
    (h : p.Ordered s → x.Excused (p.Legible s ∧ known)) :
    (Failure.fault reason : Failure ε).Explained p s known :=
  fun hOrdered => h hOrdered reason hError

theorem of_arena {table : Table} {a : Arena table α} {id : Handle table}
    (hError : a.read id = .error reason) (h : p.Legible s → known → ∃ x, a.read id = .ok x) :
    (Failure.fault reason : Failure ε).Explained p s known :=
  .of_read hError fun _ => .ofArena fun hClean => h hClean.1 hClean.2

/-- What explains a failure later on explains it now, if the tables stay in order until then. -/
theorem later (h : e.Explained p t known') (hOrdered : p.Ordered s → p.Ordered t)
    (hLegible : p.Legible s → p.Legible t) (hKnown : p.Legible s → known → known') :
    e.Explained p s known :=
  fun hNow => (h (hOrdered hNow)).mono fun hClean =>
    ⟨hLegible hClean.1, hKnown hClean.1 hClean.2⟩

theorem mono (h : e.Explained p s known') (hKnown : p.Legible s → known → known') :
    e.Explained p s known :=
  h.later id id hKnown

end Failure.Explained

end Specializer
