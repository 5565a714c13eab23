import Specializer.Instance.Create
import Specializer.Proofs.Instance.Concretize
import Specializer.Proofs.Mangle.Types

/-!
# What a new instance looks like

`Fresh` describes an instance that is about to enter the tables: its types are strict images of
those of its source, its value fields wait, and it has one closure for every lambda in its
initializers. Nothing but types and log lines has changed by then, and `Creatable` is enough for
getting there.
-/

set_option autoImplicit false

namespace Specializer

open TypeStore Update RunState

namespace ModuleTree

def lambdas (visits : List Visit) : List (ExprId × Expr) :=
  visits.filterMap fun visit =>
    match visit.expr with
    | .ok e => if e.kind.isLambda then some (visit.id, e) else none
    | .error _ => none

def moduleVisits (t : ModuleTree) (m : ModuleDecl) : List Visit := m.initializers.flatMap t.visits

theorem foldlM_walk {n : Type → Type} [Monad n] [LawfulMonad n] {β : Type} (t : ModuleTree)
    (step : β → Visit → n β) (m : ModuleDecl) (acc : β) :
    m.initializers.foldlM (t.walk step) acc = (t.moduleVisits m).foldlM step acc := by
  rw [moduleVisits, foldlM_flatMap]
  congr 1
  funext acc init
  exact t.walk_eq step acc init

end ModuleTree

theorem Program.Legible.exists_moduleVisit {p : Program} {types : TypeStore}
    (h : p.Legible types) {id : ModuleId} {m : ModuleDecl} (hDecl : p.tree.readModule id = .ok m)
    {visit : ModuleTree.Visit} (hVisit : visit ∈ p.tree.moduleVisits m) :
    ∃ e, visit.expr = .ok e ∧ p.tree.readExpr visit.id = .ok e := by
  obtain ⟨init, hInit, hVisit⟩ := List.mem_flatMap.mp hVisit
  obtain ⟨b, hb, hKind⟩ := ModuleDecl.exists_binding_of_initializer hInit
  exact h.exists_visit (h.exists_initializer hDecl hb hKind) hVisit

/-- What a field is at first: a type stands for itself, a value waits. -/
def Definition.unresolved (f : Definition) : Target :=
  match f.kind with
  | .typeConstant => .type f.type
  | .valueConstant => .pending

/-- The field that a binding becomes, whatever it stands for. -/
structure FieldSource.Yields (types : TypeStore) (sub : Substitution) (source : FieldSource)
    (f : Definition) : Prop where
  name : f.name = source.name
  binding : f.binding = source.binding
  kind : f.kind = source.kind
  span : f.span = source.span
  type : types.Image sub .strict source.type f.type

structure Capture.Yields (types : TypeStore) (sub : Substitution) (source c : Capture) : Prop where
  name : c.name = source.name
  type : types.Image sub .strict source.type c.type

/-- The closure that the lambda at a position becomes inside an instance named `owner`. -/
structure ClosureShell.Of (p : Program) (types : TypeStore) (sub : Substitution) (owner : String)
    (lambda : (ExprId × Expr) × Nat) (shell : ClosureShell) : Prop where
  expr : shell.expr = lambda.1.1
  type : types.Image sub .strict lambda.1.2.type shell.type
  captures : ∃ captures, Capture.ofLambda p.tree lambda.1.1 = .ok captures ∧
    List.Forall₂ (Capture.Yields types sub) captures shell.captures
  symbol : shell.symbol = Mangle.closureName owner lambda.2

theorem FieldSource.Yields.extend {s t : TypeStore} {sub : Substitution} {source : FieldSource}
    {f : Definition} (h : source.Yields s sub f) (hExt : s.Extends t) : source.Yields t sub f :=
  ⟨h.name, h.binding, h.kind, h.span, h.type.extend hExt⟩

theorem Capture.Yields.extend {s t : TypeStore} {sub : Substitution} {source c : Capture}
    (h : source.Yields s sub c) (hExt : s.Extends t) : source.Yields t sub c :=
  ⟨h.name, h.type.extend hExt⟩

theorem ClosureShell.Of.extend {p : Program} {s t : TypeStore} {sub : Substitution} {owner : String}
    {lambda : (ExprId × Expr) × Nat} {shell : ClosureShell} (h : shell.Of p s sub owner lambda)
    (hExt : s.Extends t) : shell.Of p t sub owner lambda := by
  obtain ⟨captures, hCaptures, hYields⟩ := h.captures
  exact ⟨h.expr, h.type.extend hExt, ⟨captures, hCaptures, hYields.imp fun _ _ h => h.extend hExt⟩,
    h.symbol⟩

/-- What a module needs so that an instance of it can be made under a substitution. -/
structure Buildable (p : Program) (types : TypeStore) (sub : Substitution) (m : ModuleDecl) :
    Prop where
  name : ∃ text, p.symbols.name m.name = .ok text
  body : types.Covers sub m.scheme.body
  fields : ∀ source ∈ m.fieldSources,
    (∃ text, p.symbols.name source.name = .ok text) ∧ types.Covers sub source.type
  visits : ∀ visit ∈ p.tree.moduleVisits m, ∃ e, visit.expr = .ok e ∧ (e.kind.isLambda = true →
    types.Covers sub e.type ∧ ∃ captures, Capture.ofLambda p.tree visit.id = .ok captures ∧
      ∀ c ∈ captures, (∃ text, p.symbols.name c.name = .ok text) ∧ types.Covers sub c.type)

theorem Buildable.extend {p : Program} {s t : TypeStore} {sub : Substitution} {m : ModuleDecl}
    (h : Buildable p s sub m) (hExt : s.Extends t) : Buildable p t sub m := by
  refine ⟨h.name, h.body.extend hExt, fun source hSource => ?_, fun visit hVisit => ?_⟩
  · obtain ⟨hName, hType⟩ := h.fields source hSource
    exact ⟨hName, hType.extend hExt⟩
  · obtain ⟨e, hExpr, hLambda⟩ := h.visits visit hVisit
    refine ⟨e, hExpr, fun hIs => ?_⟩
    obtain ⟨hType, captures, hCaptures, hEach⟩ := hLambda hIs
    exact ⟨hType.extend hExt, captures, hCaptures,
      fun c hc => ⟨(hEach c hc).1, (hEach c hc).2.extend hExt⟩⟩

/-- What is enough for the instance of a key to be made. -/
structure Creatable (p : Program) (s : RunState) (key : Key) (arguments : List Argument) :
    Prop where
  sane : s.types.Sane p.symbols
  parent : ∀ outer, key.parent = some outer → ∃ j, s.instances.get? outer = some j
  arguments : ∀ type, .type type ∈ arguments → s.types.Minted type
  source : ∃ m, p.tree.readModule key.source = .ok m ∧ Buildable p s.types key.substitution m

inductive RunState.Base (s : RunState) (text : String) : Option InstanceId → String → Prop where
  | top : Base s text none (Mangle.escape text)
  | inside {outer : InstanceId} {j : Instance} (hOuter : s.instances.get? outer = some j) :
      Base s text (some outer) (j.name ++ "__" ++ Mangle.escape text)

theorem RunState.Base.retyped {p : Program} {s t : RunState} {text base : String}
    {parent : Option InstanceId} (h : s.Base text parent base) (hRetyped : Retyped p s t) :
    t.Base text parent base := by
  cases h with
  | top => exact .top
  | inside hOuter =>
    refine .inside ?_
    rwa [hRetyped.instances_eq]

/-- An instance and its closures as they enter the tables of `s`. -/
structure Fresh (p : Program) (s : RunState) (m : ModuleDecl) (i : Instance)
    (closures : List Closure) : Prop where
  decl : p.tree.readModule i.source = .ok m
  id_eq : i.id = s.instances.next
  name : ∃ text base before, p.symbols.name m.name = .ok text ∧ s.Base text i.parent base ∧
    before.Extends s.types ∧ Mangle.instanceName before base i.arguments = .ok i.name
  moduleType : s.types.Image i.substitution .strict m.scheme.body i.moduleType
  fields : List.Forall₂ (FieldSource.Yields s.types i.substitution) m.fieldSources i.fields
  waiting : ∀ f ∈ i.fields, f.target = f.unresolved
  shells : ∃ shells, List.Forall₂
    (fun lambda shell => ClosureShell.Of p s.types i.substitution i.name lambda shell)
      (ModuleTree.lambdas (p.tree.moduleVisits m)).zipIdx shells ∧
    closures = numbered i.id s.closures.size shells
  closures_eq : i.closures = closures.map Closure.id
  submodules_eq : i.submodules = []
  walked : ∀ visit ∈ p.tree.moduleVisits m, ∃ e, visit.expr = .ok e

namespace Run

variable {p : Program} {sub : Substitution} {s : RunState}

theorem newField_ensures (owner : String) (source : FieldSource) (hSub : sub.ClosedIn s.types) :
    (newField p sub owner source).Ensures s
      (fun f t => Retyped p s t ∧ source.Yields t.types sub f ∧ f.target = f.unresolved)
      (fun e t => Retyped p s t ∧
        ¬(s.types.Sane p.symbols ∧ p.HasText source.name ∧ s.types.Covers sub source.type) ∧
        e.Explained p s.types (p.HasText source.name ∧ s.types.Minted source.type)) := by
  unfold newField
  refine Ensures.bindRead (fun text _ => ?_) fun reason hReason => ⟨.refl p s, ?_, ?_⟩
  · refine Ensures.bind (concretize_ensures p source.type source.span (.pure _) hSub) ?_ ?_
    · rintro type t ⟨hRetyped, hImage⟩
      refine ⟨hRetyped, ⟨rfl, rfl, rfl, rfl, hImage⟩, ?_⟩
      cases hKind : source.kind <;> rfl
    · rintro e t ⟨hRetyped, hNot, hExplained⟩
      exact ⟨hRetyped, fun h => hNot ⟨h.1, h.2.2⟩, hExplained.mono fun _ h => ⟨h.2, _, rfl⟩⟩
  · rintro ⟨-, ⟨text, hText⟩, -⟩
    cases hText.symm.trans hReason
  · exact .of_arena hReason fun _ h => h.1

theorem newFields_ensures (owner : String) (sources : List FieldSource)
    (hSub : sub.ClosedIn s.types) :
    (sources.mapM (newField p sub owner)).Ensures s
      (fun fields t => Retyped p s t ∧
        List.Forall₂ (FieldSource.Yields t.types sub) sources fields ∧
          ∀ f ∈ fields, f.target = f.unresolved)
      (fun e t => Retyped p s t ∧
        ¬(s.types.Sane p.symbols ∧ ∀ source ∈ sources,
          p.HasText source.name ∧ s.types.Covers sub source.type) ∧
        e.Explained p s.types (∀ source ∈ sources,
          p.HasText source.name ∧ s.types.Minted source.type)) := by
  refine (Ensures.mapM (I := Retyped p s) (L := Retyped p)
    (R := fun t source f => source.Yields t.types sub f ∧ f.target = f.unresolved)
    (.refl p) (fun _ _ _ => .trans) ?_ ?_ (.refl p s)).mono ?_ fun _ _ h => h
  · rintro t u source f hRetyped ⟨hYields, hTarget⟩
    exact ⟨hYields.extend hRetyped.grown, hTarget⟩
  · intro source hSource t hRetyped
    refine (newField_ensures owner source (hSub.extend hRetyped.grown)).mono ?_ ?_
    · rintro f u ⟨hRetyped', hYields⟩
      exact ⟨hRetyped.trans hRetyped', hRetyped', hYields⟩
    · rintro e u ⟨hRetyped', hNot, hExplained⟩
      refine ⟨hRetyped.trans hRetyped', fun h => hNot ⟨hRetyped.sane h.1, ?_⟩,
        hRetyped.explained hExplained fun _ h => ?_⟩
      · exact (h.2 source hSource).imp_right fun hCovers => hCovers.extend hRetyped.grown
      · exact (h source hSource).imp_right fun hMinted => hMinted.extend hRetyped.grown
  · rintro fields t ⟨hRetyped, -, hFields⟩
    refine ⟨hRetyped, hFields.imp fun _ _ h => h.1, fun f hf => ?_⟩
    obtain ⟨_, -, -, hTarget⟩ := exists_mem_left_of_forall₂ hFields hf
    exact hTarget

theorem newCaptures_ensures (symbol : String) (span : Span) (captures : List Capture)
    (hSub : sub.ClosedIn s.types) :
    (captures.mapM (newCapture p sub symbol span)).Ensures s
      (fun made t => Retyped p s t ∧ List.Forall₂ (Capture.Yields t.types sub) captures made)
      (fun e t => Retyped p s t ∧
        ¬(s.types.Sane p.symbols ∧ ∀ c ∈ captures, s.types.Covers sub c.type) ∧
        e.Explained p s.types (∀ c ∈ captures, p.HasText c.name ∧ s.types.Minted c.type)) := by
  refine (Ensures.mapM (I := Retyped p s) (L := Retyped p)
    (R := fun t => Capture.Yields t.types sub) (.refl p) (fun _ _ _ => .trans)
    (fun _ _ _ _ hRe h => h.extend hRe.grown) ?_ (.refl p s)).mono
    (fun _ _ h => ⟨h.1, h.2.2⟩) fun _ _ h => h
  intro c hc t hRetyped
  have hName : (p.symbols.name c.name).Excused False := .ofArena False.elim
  refine Ensures.bind (concretize_ensures p c.type span (hName.bind fun _ _ => .pure _)
    (hSub.extend hRetyped.grown)) ?_ ?_
  · rintro type u ⟨hRetyped', hImage⟩
    exact ⟨hRetyped.trans hRetyped', hRetyped', rfl, hImage⟩
  · rintro e u ⟨hRetyped', hNot, hExplained⟩
    refine ⟨hRetyped.trans hRetyped',
      fun h => hNot ⟨hRetyped.sane h.1, (h.2 c hc).extend hRetyped.grown⟩,
      hRetyped.explained hExplained fun _ h => ⟨(h c hc).2.extend hRetyped.grown, ?_⟩⟩
    exact Read.exists_bind_eq_ok (h c hc).1 fun _ _ => ⟨_, rfl⟩

theorem newShell_ensures (owner : String) (id : ExprId) (e : Expr) (index : Nat)
    (hSub : sub.ClosedIn s.types) :
    (newShell p sub (Mangle.closureName owner index) id e).Ensures s
      (fun shell t => Retyped p s t ∧ shell.Of p t.types sub owner ((id, e), index))
      (fun failure t => Retyped p s t ∧
        ¬(s.types.Sane p.symbols ∧ s.types.Covers sub e.type ∧
          ∃ captures, Capture.ofLambda p.tree id = .ok captures ∧ ∀ c ∈ captures,
            p.HasText c.name ∧ s.types.Covers sub c.type) ∧
        failure.Explained p s.types (p.tree.readExpr id = .ok e)) := by
  unfold newShell
  refine Ensures.bind (concretize_ensures p e.type e.span (.pure _) hSub) ?_ ?_
  · rintro type t ⟨hRetyped, hImage⟩
    refine Ensures.bindRead (fun captures hCaptures => ?_) fun reason hReason => ⟨hRetyped, ?_, ?_⟩
    · refine Ensures.bind (newCaptures_ensures _ e.span captures (hSub.extend hRetyped.grown)) ?_ ?_
      · rintro made u ⟨hRetyped', hMade⟩
        exact ⟨hRetyped.trans hRetyped', rfl, hImage.extend hRetyped'.grown,
          ⟨captures, hCaptures, hMade⟩, rfl⟩
      · rintro failure u ⟨hRetyped', hNot, hExplained⟩
        refine ⟨hRetyped.trans hRetyped', ?_,
          hRetyped.explained hExplained fun hLegible _ c hc => ?_⟩
        · rintro ⟨hSane, -, found, hFound, hEach⟩
          cases hCaptures.symm.trans hFound
          exact hNot ⟨hRetyped.sane hSane, fun c hc => (hEach c hc).2.extend hRetyped.grown⟩
        · obtain ⟨hText, hMinted, -⟩ := hLegible.capture hCaptures hc
          exact ⟨hText, hMinted.extend hRetyped.grown⟩
    · rintro ⟨-, -, found, hFound, -⟩
      cases hFound.symm.trans hReason
    · exact .of_read hReason fun hOrdered =>
        (hOrdered.excused_ofLambda id).mono fun hClean => ⟨e, hClean.2⟩
  · rintro failure t ⟨hRetyped, hNot, hExplained⟩
    exact ⟨hRetyped, fun h => hNot ⟨h.1, h.2.1⟩,
      hExplained.mono fun hLegible hExpr => ⟨hLegible.minted_type hExpr, _, rfl⟩⟩

theorem visitClosure_ensures (owner : String) (done : List ModuleTree.Visit)
    {visit : ModuleTree.Visit} {m : ModuleDecl} (hVisit : visit ∈ p.tree.moduleVisits m)
    (shells : Array ClosureShell) (hSub : sub.ClosedIn s.types)
    (hShells : List.Forall₂ (fun lambda shell => ClosureShell.Of p s.types sub owner lambda shell)
      (ModuleTree.lambdas done).zipIdx shells.toList) :
    (visitClosure p sub owner shells visit).Ensures s
      (fun shells t => Retyped p s t ∧ (∃ e, visit.expr = .ok e) ∧ List.Forall₂
        (fun lambda shell => ClosureShell.Of p t.types sub owner lambda shell)
        (ModuleTree.lambdas (done ++ [visit])).zipIdx shells.toList)
      (fun failure t => Retyped p s t ∧
        ¬(s.types.Sane p.symbols ∧
          ∃ e, visit.expr = .ok e ∧ (e.kind.isLambda = true → s.types.Covers sub e.type ∧
            ∃ captures, Capture.ofLambda p.tree visit.id = .ok captures ∧ ∀ c ∈ captures,
              p.HasText c.name ∧ s.types.Covers sub c.type)) ∧
        failure.Explained p s.types (∃ id, p.tree.readModule id = .ok m)) := by
  -- The number in the symbol of a closure is the number of lambdas before it.
  have hLength : shells.size = (ModuleTree.lambdas done).length := by
    simpa using hShells.length_eq.symm
  obtain ⟨init, hInit, hWalked⟩ := List.mem_flatMap.mp hVisit
  unfold visitClosure
  refine Ensures.bindRead (fun e hExpr => ?_) fun reason hReason => ⟨.refl p s, ?_, ?_⟩
  · split
    case isTrue hLambda =>
      have hLast : ModuleTree.lambdas (done ++ [visit]) =
          ModuleTree.lambdas done ++ [(visit.id, e)] := by
        simp [ModuleTree.lambdas, hExpr, hLambda]
      refine Ensures.bind (newShell_ensures owner visit.id e shells.size hSub) ?_ ?_
      · rintro shell t ⟨hRetyped, hShell⟩
        refine ⟨hRetyped, ⟨e, hExpr⟩, ?_⟩
        rw [hLast, List.zipIdx_append, Array.toList_push]
        refine List.rel_append (hShells.imp fun _ _ h => h.extend hRetyped.grown) ?_
        rw [Nat.zero_add, ← hLength]
        exact .cons hShell .nil
      · rintro failure t ⟨hRetyped, hNot, hExplained⟩
        refine ⟨hRetyped, ?_, hExplained.mono fun _ _ => ?_⟩
        · rintro ⟨hSane, other, hOther, hReady⟩
          cases hExpr.symm.trans hOther
          exact hNot ⟨hSane, hReady hLambda⟩
        · exact (ModuleTree.occurs_of_mem_visitsWithin hWalked hExpr).read_eq
    case isFalse hOther =>
      have hSame : ModuleTree.lambdas (done ++ [visit]) = ModuleTree.lambdas done := by
        simp [ModuleTree.lambdas, hExpr, hOther]
      exact ⟨.refl p s, ⟨e, hExpr⟩, by rwa [hSame]⟩
  · rintro ⟨-, e, hExpr, -⟩
    cases hExpr.symm.trans hReason
  · refine .of_read hReason fun hOrdered => (hOrdered.excused_visit hWalked).mono ?_
    rintro ⟨hLegible, id, hDecl⟩
    obtain ⟨b, hb, hHandle⟩ := ModuleDecl.exists_binding_of_initializer hInit
    exact hLegible.exists_initializer hDecl hb hHandle

theorem newShells_ensures (owner : String) (m : ModuleDecl) (hSub : sub.ClosedIn s.types) :
    (newShells p sub owner m).Ensures s
      (fun shells t => Retyped p s t ∧ (∀ visit ∈ p.tree.moduleVisits m, ∃ e, visit.expr = .ok e) ∧
        List.Forall₂ (fun lambda shell => ClosureShell.Of p t.types sub owner lambda shell)
        (ModuleTree.lambdas (p.tree.moduleVisits m)).zipIdx shells)
      (fun e t => Retyped p s t ∧ ¬(s.types.Sane p.symbols ∧ Buildable p s.types sub m) ∧
        e.Explained p s.types (∃ id, p.tree.readModule id = .ok m)) := by
  -- The walk is a fold over its visits, which is the form that has an invariant lemma.
  unfold newShells
  rw [ModuleTree.foldlM_walk]
  refine Ensures.bind (Ensures.foldlM (I := fun done shells t => Retyped p s t ∧
    (∀ visit ∈ done, ∃ e, visit.expr = .ok e) ∧ List.Forall₂
    (fun lambda shell => ClosureShell.Of p t.types sub owner lambda shell)
    (ModuleTree.lambdas done).zipIdx shells.toList) ?_ ⟨.refl p s, by simp, .nil⟩) ?_ fun _ _ h => h
  · rintro done visit rest hVisits shells t ⟨hRetyped, hWalked, hShells⟩
    have hVisit : visit ∈ p.tree.moduleVisits m := by simp [hVisits]
    refine (visitClosure_ensures owner done hVisit shells (hSub.extend hRetyped.grown)
      hShells).mono ?_ ?_
    · rintro more u ⟨hRetyped', hHere, hMore⟩
      refine ⟨hRetyped.trans hRetyped', fun other hOther => ?_, hMore⟩
      rcases List.mem_append.mp hOther with hOther | hOther
      · exact hWalked other hOther
      · rwa [List.mem_singleton.mp hOther]
    · rintro e u ⟨hRetyped', hNot, hExplained⟩
      refine ⟨hRetyped.trans hRetyped', fun h => hNot ⟨hRetyped.sane h.1, ?_⟩,
        hRetyped.explained hExplained fun _ h => h⟩
      exact (h.2.extend hRetyped.grown).visits visit hVisit
  · rintro shells t hShells
    exact hShells

theorem baseName_ensures (m : ModuleDecl) {parent : Option InstanceId}
    (hParent : ∀ outer, parent = some outer → ∃ j, s.instances.get? outer = some j) :
    (baseName p m parent).Ensures s
      (fun base t => t = s ∧ ∃ text, p.symbols.name m.name = .ok text ∧ s.Base text parent base)
      (fun e t => t = s ∧ ¬p.HasText m.name ∧ e.Explained p s.types (p.HasText m.name)) := by
  unfold baseName
  refine Ensures.bindRead (fun text hText => ?_) fun reason hReason => ⟨rfl, ?_, ?_⟩
  · cases parent with
    | none => exact ⟨rfl, text, hText, .top⟩
    | some outer =>
      obtain ⟨j, hj⟩ := hParent outer rfl
      refine Ensures.bind (readInstance_of_get? hj) ?_ fun _ _ h => h
      rintro _ _ ⟨rfl, rfl⟩
      exact ⟨rfl, text, hText, .inside hj⟩
  · rintro ⟨text, hText⟩
    cases hText.symm.trans hReason
  · exact .of_arena hReason fun _ h => h

theorem announceAll_ensures (closures : List Closure)
    {fail : Failure InstantiationError → RunState → Prop} :
    (closures.forM (announce p)).Ensures s
      (fun _ t => Retyped p s t ∧ t.types = s.types) fail := by
  refine Ensures.forM (I := fun _ t => Retyped p s t ∧ t.types = s.types) ?_ ⟨.refl p s, rfl⟩
  rintro done c rest - t ⟨hRetyped, hTypes⟩
  refine (log_ensures p _ t).mono ?_ fun _ _ h => h
  rintro _ u ⟨hRetyped', hTypes'⟩
  exact ⟨hRetyped.trans hRetyped', hTypes'.trans hTypes⟩

theorem create_ensures {key : Key} {arguments : List Argument}
    (hSub : key.substitution.ClosedIn s.types)
    (hParent : ∀ outer, key.parent = some outer → ∃ j, s.instances.get? outer = some j)
    (hArguments : ∀ type, .type type ∈ arguments → s.types.Minted type) :
    (create p key arguments).Ensures s
      (fun id t => ∃ u m i closures, Retyped p s u ∧ Fresh p u m i closures ∧
        i.source = key.source ∧ i.parent = key.parent ∧ i.substitution = key.substitution ∧
        i.arguments = arguments ∧ t = u.enter i closures ∧ id = i.id)
      (fun e t => Retyped p s t ∧ ¬Creatable p s key arguments ∧
        e.Explained p s.types (∃ m, p.tree.readModule key.source = .ok m)) := by
  unfold create
  refine Ensures.bindRead (fun m hDecl => ?_) fun reason hReason => ⟨.refl p s, fun h => ?_, ?_⟩
  · have hBuild : Creatable p s key arguments →
        s.types.Sane p.symbols ∧ Buildable p s.types key.substitution m := by
      intro h
      obtain ⟨other, hOther, hBuild⟩ := h.source
      cases hDecl.symm.trans hOther
      exact ⟨h.sane, hBuild⟩
    refine Ensures.bind (baseName_ensures m hParent) ?_ ?_
    · rintro base _ ⟨rfl, text, hText, hBase⟩
      rename_i s
      refine Ensures.bindGet (Ensures.bindRead (fun name hName => ?_) fun reason hReason =>
        ⟨.refl p s, fun h => ?_, ?_⟩)
      · refine Ensures.bind (concretize_ensures p m.scheme.body m.span (.pure _) hSub) ?_ ?_
        · rintro moduleType t ⟨hRe, hModule⟩
          refine Ensures.bind (newFields_ensures name m.fieldSources (hSub.extend hRe.grown)) ?_ ?_
          · rintro fields u ⟨hRe', hFields, hWaiting⟩
            refine Ensures.bind (log_ensures p _ u) ?_ fun _ _ h => h
            rintro _ v ⟨hRe'', -⟩
            have hRe := hRe.trans (hRe'.trans hRe'')
            refine Ensures.bind (newShells_ensures name m (hSub.extend hRe.grown)) ?_ ?_
            · rintro shells w ⟨hShelled, hWalked, hShells⟩
              refine Ensures.bindGet (Ensures.bind (announceAll_ensures _) ?_ fun _ _ h => h)
              rintro _ x ⟨hTold, hTypes⟩
              have hFields' : List.Forall₂ (FieldSource.Yields x.types key.substitution)
                  m.fieldSources fields :=
                hFields.imp fun _ _ h =>
                  h.extend (hRe''.grown.trans (hShelled.grown.trans hTold.grown))
              have hAll := hRe.trans (hShelled.trans hTold)
              -- The name was chosen in `s`, everything else is said about `x`.
              refine ⟨x, m, _, _, hAll, ⟨hDecl, ?_,
                ⟨text, base, s.types, hText, hBase.retyped hAll, hAll.grown, hName⟩, ?_, hFields',
                hWaiting, ⟨shells, ?_, ?_⟩, rfl, rfl, hWalked⟩, rfl, rfl, rfl, rfl, rfl, rfl⟩
              · rw [hTold.instances_eq]
              · exact hModule.extend ((hRe'.trans (hRe''.trans (hShelled.trans hTold))).grown)
              · rwa [hTypes]
              · rw [hTold.closures_eq]
            · rintro e w ⟨hShelled, hNot, hExplained⟩
              refine ⟨hRe.trans hShelled, fun h => hNot ⟨hRe.sane (hBuild h).1, ?_⟩,
                hRe.explained hExplained fun _ _ => ⟨key.source, hDecl⟩⟩
              exact (hBuild h).2.extend hRe.grown
          · rintro e u ⟨hRe', hNot, hExplained⟩
            refine ⟨hRe.trans hRe', fun h => hNot ⟨hRe.sane (hBuild h).1, ?_⟩,
              hRe.explained hExplained fun hLegible _ source hSource => ?_⟩
            · exact ((hBuild h).2.extend hRe.grown).fields
            · exact (hLegible.fieldSource hDecl hSource).imp_right fun h => h.extend hRe.grown
        · rintro e t ⟨hRe, hNot, hExplained⟩
          exact ⟨hRe, fun h => hNot ⟨(hBuild h).1, (hBuild h).2.body⟩,
            hExplained.mono fun hLegible _ => ⟨hLegible.body hDecl, _, rfl⟩⟩
      · obtain ⟨name, hName⟩ := Mangle.instanceName_succeeds h.sane.grounded base hArguments
        cases hName.symm.trans hReason
      · exact .of_read hReason fun hOrdered =>
          .of_exists (Mangle.instanceName_succeeds hOrdered.grounded base hArguments)
    · rintro e _ ⟨rfl, hNot, hExplained⟩
      exact ⟨.refl p _, fun h => hNot (hBuild h).2.name,
        hExplained.mono fun hLegible _ => hLegible.moduleName hDecl⟩
  · obtain ⟨m, hDecl, -⟩ := h.source
    cases hDecl.symm.trans hReason
  · exact .of_arena hReason fun _ h => h

end Run

end Specializer
