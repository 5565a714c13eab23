import Specializer.Proofs.Instance.Create
import Specializer.Proofs.Tree.FreeNames
import Specializer.Proofs.Types.Variables

/-!
# Well-formed programs

What an earlier stage has to see to before a program is specialized, as far as a run depends on it:
handles were handed out before they are used, bound variables are type parameters in scope, sites
give what the parameters of their targets ask for, and an initializer that only names something
names a value. Every module of such a program can be built under any substitution that maps the
variables in its scope.
-/

set_option autoImplicit false

namespace Specializer

open TypeStore ModuleTree

/-- The handle can be read, and every bound variable below it is in scope. -/
structure TypeStore.ScopedTo (s : TypeStore) (inScope : TypeId → Prop) (id : TypeId) : Prop where
  minted : s.Minted id
  bound : ∀ ⦃last node⦄, s.Reaches id last → s.read last = .ok node → node.isBound = true →
    inScope last

theorem TypeStore.ScopedTo.covers {s : TypeStore} {inScope : TypeId → Prop} {id : TypeId}
    {sub : Substitution} (h : s.ScopedTo inScope id) (hGround : s.Grounded)
    (hSub : ∀ var, inScope var → (sub.get? var).isSome = true) : s.Covers sub id :=
  hGround.allWithin h.minted fun last _ hReach hNode hBound =>
    hSub last (h.bound hReach hNode hBound)

def ModuleDecl.ValueAt (m : ModuleDecl) (index : Nat) : Prop :=
  ∃ b type init, m.bindings[index]? = some b ∧ b.kind = .value type init

namespace Program

/-- A site inside module `id`: its arguments fit and are in scope there, and the module around its
target either is around the site as well or needs no arguments. -/
structure SiteFits (p : Program) (types : TypeStore) (id target : ModuleId)
    (arguments : List Argument) : Prop where
  fits : ∃ m, p.tree.readModule target = .ok m ∧
    List.Forall₂ TemplateParam.Fits m.params arguments ∧
    ∀ outer, m.parent = some outer → p.tree.Within id outer ∨ p.tree.Plain outer
  visible : ∀ type, .type type ∈ arguments → types.ScopedTo (p.tree.InScope id) type

/-- What an expression of one kind has to satisfy anywhere inside module `id`. -/
def ExprFits (p : Program) (types : TypeStore) (id : ModuleId) (e : Expr) : Prop :=
  match e.kind with
  | .localName name => p.HasText name ∧ types.ScopedTo (p.tree.InScope id) e.type
  | .lambda _ _ => types.ScopedTo (p.tree.InScope id) e.type
  | .site target arguments _ => p.SiteFits types id target arguments
  | _ => True

/-- An initializer in module `id` that does nothing but name something names a value. -/
def NamesValue (p : Program) (id : ModuleId) : ExprKind → Prop
  | .site target _ field => ∃ m index, p.tree.readModule target = .ok m ∧
      m.bindingIndex? field = some index ∧ m.ValueAt index
  | .field owner index => p.tree.Within id owner ∧
      ∃ m, p.tree.readModule owner = .ok m ∧ m.ValueAt index
  | .templateValue owner index => p.tree.Within id owner ∧ ∃ m param type,
      p.tree.readModule owner = .ok m ∧ m.params[index]? = some param ∧ param.kind = .value type
  | _ => True

/-- A value binding of module `id`. -/
structure InitFits (p : Program) (types : TypeStore) (id : ModuleId) (init : ExprId) : Prop where
  whole : ∃ e, p.tree.readExpr init = .ok e ∧ p.NamesValue id e.kind
  inner : ∀ ⦃position e⦄, p.tree.Occurs init position e → p.ExprFits types id e

def BindingFits (p : Program) (types : TypeStore) (id : ModuleId) : BindingKind → Prop
  | .value type init => types.ScopedTo (p.tree.InScope id) type ∧ p.InitFits types id init
  | .type type => types.ScopedTo (p.tree.InScope id) type
  | .nested inner => ∃ m, p.tree.readModule inner = .ok m ∧ m.parent = some id

structure ModuleFits (p : Program) (types : TypeStore) (id : ModuleId) (m : ModuleDecl) : Prop where
  name : p.HasText m.name
  quantified : m.scheme.bound = m.typeVars
  body : types.ScopedTo (p.tree.InScope id) m.scheme.body
  bindings : ∀ b ∈ m.bindings, p.HasText b.name ∧ p.BindingFits types id b.kind

/-- What is expected of a program and of the type store it starts with. -/
structure WellFormed (p : Program) (types : TypeStore) : Prop where
  sane : types.Sane p.symbols
  parentsFirst : p.tree.ParentsFirst
  childrenFirst : p.tree.ChildrenFirst
  modules : ∀ ⦃id m⦄, p.tree.readModule id = .ok m → p.ModuleFits types id m

end Program

namespace Program.WellFormed

variable {p : Program} {types : TypeStore}

theorem fieldSource (h : p.WellFormed types) {id : ModuleId} {m : ModuleDecl}
    (hDecl : p.tree.readModule id = .ok m) {source : FieldSource}
    (hSource : source ∈ m.fieldSources) :
    p.HasText source.name ∧ types.ScopedTo (p.tree.InScope id) source.type := by
  obtain ⟨⟨b, index⟩, hMem, hOf⟩ := List.mem_filterMap.mp hSource
  obtain ⟨hName, hFits⟩ := (h.modules hDecl).bindings b (List.fst_mem_of_mem_zipIdx hMem)
  unfold FieldSource.ofBinding? at hOf
  cases hKind : b.kind with
  | value type init =>
    rw [hKind] at hFits
    simp only [hKind, Option.some.injEq] at hOf
    subst hOf
    exact ⟨hName, hFits.1⟩
  | type type =>
    rw [hKind] at hFits
    simp only [hKind, Option.some.injEq] at hOf
    subst hOf
    exact ⟨hName, hFits⟩
  | nested inner => simp [hKind] at hOf

theorem initializer (h : p.WellFormed types) {id : ModuleId} {m : ModuleDecl}
    (hDecl : p.tree.readModule id = .ok m) {init : ExprId} (hInit : init ∈ m.initializers) :
    p.InitFits types id init := by
  obtain ⟨b, hMem, type, hKind⟩ := ModuleDecl.mem_initializers.mp hInit
  have hFits := ((h.modules hDecl).bindings b hMem).2
  rw [hKind] at hFits
  exact hFits.2

theorem exists_expr_of_visit (h : p.WellFormed types) {id : ModuleId} {init : ExprId}
    (hInit : p.InitFits types id init) {visit : Visit} (hVisit : visit ∈ p.tree.visits init) :
    ∃ e, visit.expr = .ok e ∧ p.tree.Occurs init visit.id e ∧ p.ExprFits types id e := by
  obtain ⟨whole, hWhole, -⟩ := hInit.whole
  have hSize := Arena.lt_of_read hWhole
  obtain ⟨e, hExpr⟩ :=
    exists_expr_of_mem_visits h.childrenFirst.ranked (by omega) ⟨whole, hWhole⟩ hVisit
  have hOccurs := occurs_of_mem_visitsWithin hVisit hExpr
  exact ⟨e, hExpr, hOccurs, hInit.inner hOccurs⟩

theorem buildable (h : p.WellFormed types) {id : ModuleId} {m : ModuleDecl} {sub : Substitution}
    (hDecl : p.tree.readModule id = .ok m)
    (hSub : ∀ var, p.tree.InScope id var → (sub.get? var).isSome = true) :
    Buildable p types sub m where
  name := (h.modules hDecl).name
  body := (h.modules hDecl).body.covers h.sane.grounded hSub
  fields source hSource := by
    obtain ⟨hName, hType⟩ := h.fieldSource hDecl hSource
    exact ⟨hName, hType.covers h.sane.grounded hSub⟩
  visits visit hVisit := by
    obtain ⟨init, hInit, hVisit⟩ := List.mem_flatMap.mp hVisit
    have hFits := h.initializer hDecl hInit
    obtain ⟨e, hExpr, hOccurs, hHere⟩ := h.exists_expr_of_visit hFits hVisit
    refine ⟨e, hExpr, fun hLambda => ?_⟩
    obtain ⟨captures, hCaptures, hEach⟩ :=
      Capture.exists_ofLambda h.childrenFirst.ranked hOccurs.read_eq
    refine ⟨?_, captures, hCaptures, fun c hc => ?_⟩
    · have hType : types.ScopedTo (p.tree.InScope id) e.type := by
        cases hKind : e.kind with
        | lambda params body =>
          rw [ExprFits, hKind] at hHere
          exact hHere
        | _ => simp [hKind, ExprKind.isLambda] at hLambda
      exact hType.covers h.sane.grounded hSub
    · obtain ⟨position, inner, hInner, hKind, hType⟩ := hEach c hc
      have hLocal := hFits.inner (hOccurs.trans hInner)
      rw [ExprFits, hKind] at hLocal
      rw [hType]
      exact ⟨hLocal.1, hLocal.2.covers h.sane.grounded hSub⟩

end Program.WellFormed

/-! A small well-formed program: a box for any type, which it names again, with a cell inside it
whose only value is that of the box, and a main module that asks for a box. -/

namespace Sample

def symbols : SymbolTable :=
  ["main", "Box", "T", "item", "Cell"].foldl (fun table name => (table.intern name).2) .empty

def types : TypeStore := (initial.add (.var .bound ⟨2⟩)).2

def box : ModuleDecl :=
  ⟨⟨1⟩, .origin, none, [⟨⟨2⟩, .origin, .type ⟨13⟩⟩], ⟨[⟨13⟩], ⟨13⟩⟩,
    [⟨⟨3⟩, .origin, .value ⟨5⟩ ⟨0⟩⟩, ⟨⟨2⟩, .origin, .type ⟨13⟩⟩, ⟨⟨4⟩, .origin, .nested ⟨1⟩⟩]⟩

def cell : ModuleDecl :=
  ⟨⟨4⟩, .origin, some ⟨0⟩, [], ⟨[], ⟨13⟩⟩, [⟨⟨3⟩, .origin, .value ⟨5⟩ ⟨1⟩⟩]⟩

def main : ModuleDecl :=
  ⟨⟨0⟩, .origin, none, [], ⟨[], ⟨0⟩⟩, [⟨⟨3⟩, .origin, .value ⟨5⟩ ⟨2⟩⟩]⟩

def kinds : List ExprKind :=
  [.literal (.signed .w32 7), .field ⟨0⟩ 0, .site ⟨0⟩ [.type ⟨5⟩] ⟨3⟩]

def tree : ModuleTree :=
  ⟨⟨#[box, cell, main]⟩, ⟨(kinds.map fun kind => ⟨kind, .origin, ⟨5⟩⟩).toArray⟩⟩

def program : Program := ⟨tree, symbols, .silent⟩

theorem readModule_eq_ok {id : ModuleId} {m : ModuleDecl} (h : tree.readModule id = .ok m) :
    (id = ⟨0⟩ ∧ m = box) ∨ (id = ⟨1⟩ ∧ m = cell) ∨ id = ⟨2⟩ ∧ m = main :=
  match id, h with
  | ⟨0⟩, h => .inl ⟨rfl, (Except.ok.inj h).symm⟩
  | ⟨1⟩, h => .inr (.inl ⟨rfl, (Except.ok.inj h).symm⟩)
  | ⟨2⟩, h => .inr (.inr ⟨rfl, (Except.ok.inj h).symm⟩)
  | ⟨_ + 3⟩, h => nomatch h

theorem children_eq_nil {id : ExprId} {e : Expr} (h : tree.readExpr id = .ok e) :
    e.kind.children = [] :=
  match id, h with
  | ⟨0⟩, h => Except.ok.inj h ▸ rfl
  | ⟨1⟩, h => Except.ok.inj h ▸ rfl
  | ⟨2⟩, h => Except.ok.inj h ▸ rfl
  | ⟨_ + 3⟩, h => nomatch h

theorem hasText (name : SymbolId) (h : name.index < 5) : program.HasText name :=
  match name, h with
  | ⟨0⟩, _ => ⟨"main", by decide +kernel⟩
  | ⟨1⟩, _ => ⟨"Box", by decide +kernel⟩
  | ⟨2⟩, _ => ⟨"T", by decide +kernel⟩
  | ⟨3⟩, _ => ⟨"item", by decide +kernel⟩
  | ⟨4⟩, _ => ⟨"Cell", by decide +kernel⟩

theorem sane : types.Sane symbols := by
  refine ⟨grounded_initial.add (fun part hPart => nomatch hPart), (named_initial _).add ?_⟩
  intro name hName
  rw [List.mem_singleton.mp hName]
  exact hasText ⟨2⟩ (by decide)

theorem scopedTo_leaf {inScope : TypeId → Prop} {id : TypeId} (node : Node)
    (hNode : types.read id = .ok node) (hParts : node.components = [])
    (hBound : node.isBound = true → inScope id) : types.ScopedTo inScope id := by
  refine ⟨⟨node, hNode⟩, fun last other hReach hOther hIs => ?_⟩
  rcases (reaches_iff hNode).mp hReach with rfl | ⟨part, hPart, -⟩
  · cases hNode.symm.trans hOther
    exact hBound hIs
  · rw [hParts] at hPart
    cases hPart

theorem scopedTo_number (id : ModuleId) : types.ScopedTo (tree.InScope id) ⟨5⟩ :=
  scopedTo_leaf (.number .signed 32) (by decide +kernel) rfl fun h => nomatch h

theorem scopedTo_var {id : ModuleId} (h : tree.Within id ⟨0⟩) :
    types.ScopedTo (tree.InScope id) ⟨13⟩ :=
  scopedTo_leaf (.var .bound ⟨2⟩) (by decide +kernel) rfl fun _ => ⟨⟨0⟩, box, h, rfl, by decide⟩

theorem initFits {id : ModuleId} {init : ExprId} {kind : ExprKind}
    (hKind : tree.readExpr init = .ok ⟨kind, .origin, ⟨5⟩⟩) (hNames : program.NamesValue id kind)
    (hFits : program.ExprFits types id ⟨kind, .origin, ⟨5⟩⟩) : program.InitFits types id init := by
  refine ⟨⟨_, hKind, hNames⟩, fun position e hOccurs => ?_⟩
  cases hOccurs with
  | here hExpr =>
    cases hKind.symm.trans hExpr
    exact hFits
  | inside hExpr hChild _ =>
    rw [children_eq_nil hExpr] at hChild
    cases hChild

theorem moduleFits {id : ModuleId} {m : ModuleDecl} (h : tree.readModule id = .ok m) :
    program.ModuleFits types id m := by
  rcases readModule_eq_ok h with ⟨rfl, rfl⟩ | ⟨rfl, rfl⟩ | ⟨rfl, rfl⟩
  · refine ⟨hasText _ (by decide), rfl, scopedTo_var (.self _), fun b hb => ?_⟩
    simp only [box, List.mem_cons, List.not_mem_nil, or_false] at hb
    rcases hb with rfl | rfl | rfl
    · exact ⟨hasText _ (by decide), scopedTo_number _, initFits rfl trivial trivial⟩
    · exact ⟨hasText _ (by decide), scopedTo_var (.self _)⟩
    · exact ⟨hasText _ (by decide), cell, rfl, rfl⟩
  · have hWithin : tree.Within ⟨1⟩ ⟨0⟩ := .outer h rfl (.self _)
    refine ⟨hasText _ (by decide), rfl, scopedTo_var hWithin, fun b hb => ?_⟩
    rw [List.mem_singleton.mp hb]
    exact ⟨hasText _ (by decide), scopedTo_number _,
      initFits rfl ⟨hWithin, box, rfl, _, _, _, rfl, rfl⟩ trivial⟩
  · have hUnit : types.ScopedTo (tree.InScope ⟨2⟩) ⟨0⟩ :=
      scopedTo_leaf .unit (by decide +kernel) rfl fun h => nomatch h
    refine ⟨hasText _ (by decide), rfl, hUnit, fun b hb => ?_⟩
    rw [List.mem_singleton.mp hb]
    refine ⟨hasText _ (by decide), scopedTo_number _,
      initFits rfl ⟨box, 0, rfl, rfl, _, _, _, rfl, rfl⟩
        ⟨⟨box, rfl, .cons (.type rfl) .nil, fun _ h => nomatch h⟩, fun type hType => ?_⟩⟩
    cases List.mem_singleton.mp hType
    exact scopedTo_number _

theorem wellFormed : program.WellFormed types where
  sane := sane
  parentsFirst id m outer hDecl hParent := by
    rcases readModule_eq_ok hDecl with ⟨rfl, rfl⟩ | ⟨rfl, rfl⟩ | ⟨rfl, rfl⟩
    · cases hParent
    · cases hParent
      decide
    · cases hParent
  childrenFirst id e child hExpr hChild := by
    rw [children_eq_nil hExpr] at hChild
    cases hChild
  modules _ _ := moduleFits

end Sample
end Specializer
