import Specializer.Proofs.Instance.Chain
import Mathlib.Logic.Relation

/-!
# States of a run

What a run can do to its state is said once: `Advance` lists the changes that a request makes,
`Work` adds those of processing an instance, and `Step` those of the loop over the work-list.
`Grows` is what no step takes back, and `Sound` is what holds in every state of every run.
-/

set_option autoImplicit false

namespace Specializer

open TypeStore

/-- A module with arguments for it, and the instance in which they are written, if any. -/
structure Request where
  site : Option InstanceId
  target : ModuleId
  arguments : List Argument

/-- What a request comes to: its concrete arguments, and the key of the instance it asks for. -/
structure Resolves (p : Program) (s : RunState) (r : Request) (m : ModuleDecl)
    (actuals : List Argument) (key : Key) : Prop where
  decl : p.tree.readModule r.target = .ok m
  fits : List.Forall₂ TemplateParam.Fits m.params r.arguments
  given : ∃ site, SiteSub s.instances r.site site ∧
    List.Forall₂ (Argument.Image s.types site) r.arguments actuals
  parent : Encloses p s.instances r.site m.parent key.parent
  inherits : Inherits p s.instances r.target (m.pairing actuals) key.parent key.substitution
  key_eq : key = .of r.target key.parent key.substitution actuals

/-- The instance is the one that the request asks for. -/
def Answers (p : Program) (s : RunState) (r : Request) (id : InstanceId) : Prop :=
  ∃ m actuals i, Resolves p s r m actuals i.key ∧ s.instances.get? id = some i

namespace RunState

def enroll (s : RunState) (i : Instance) (closures : List Closure) : RunState :=
  { s.enter i closures with
    cache := s.cache.insert i.key i.id
    worklist := s.worklist.push i.id }

theorem get?_enroll {s : RunState} {i j : Instance} {closures : List Closure} {id : InstanceId}
    (hId : i.id = s.instances.next) (h : (s.enroll i closures).instances.get? id = some j) :
    id = i.id ∧ j = i ∨ s.instances.get? id = some j := by
  change (s.instances.push i).get? id = some j at h
  rw [Arena.get?_push, ← hId] at h
  split at h
  case isTrue hSame =>
    cases h
    exact .inl ⟨hSame, rfl⟩
  case isFalse => exact .inr h

/-- One change that a request makes. -/
inductive Advance (p : Program) : RunState → RunState → Prop where
  | retyped {s t : RunState} (h : Retyped p s t) : Advance p s t
  | hit (s : RunState) : Advance p s { s with stats := { s.stats with hits := s.stats.hits + 1 } }
  | miss (s : RunState) :
      Advance p s { s with stats := { s.stats with misses := s.stats.misses + 1 } }
  | enter {s : RunState} {r : Request} {m : ModuleDecl} {i : Instance} {closures : List Closure}
      (hFresh : Fresh p s m i closures) (hResolves : Resolves p s r m i.arguments i.key)
      (hAbsent : s.cache.find? i.key = none)
      (hRoom : s.instances.size < p.settings.limits.maxInstances) :
      Advance p s (s.enroll i closures)

/-- The field at a position of an instance is a value and comes from the binding `index`. -/
def ValueField (s : RunState) (owner : InstanceId) (field index : Nat) : Prop :=
  ∃ j f, s.instances.get? owner = some j ∧ j.fields[field]? = some f ∧ f.binding = index ∧
    f.kind = .valueConstant

/-- What an initializer written in the instance `id` stands for, by its outermost form. -/
def Stands (p : Program) (s : RunState) (id : InstanceId) (init : ExprId) :
    ExprKind → Target → Prop
  | .literal value, target => target = .literal value
  | .lambda _ _, target => ∃ closure c, target = .closure closure ∧
      s.closures.get? closure = some c ∧ c.owner = id ∧ c.expr = init
  | .field owner index, target => ∃ found field, target = .definition found field ∧
      Nearest s.instances owner (some id) (some found) ∧ s.ValueField found field index
  | .site goal arguments name, target => ∃ found field m index, target = .definition found field ∧
      Answers p s ⟨some id, goal, arguments⟩ found ∧ p.tree.readModule goal = .ok m ∧
      m.bindingIndex? name = some index ∧ s.ValueField found field index
  | .templateValue owner index, target => ∃ found j value, target = .literal value ∧
      Nearest s.instances owner (some id) (some found) ∧ s.instances.get? found = some j ∧
      j.arguments[index]? = some (.value value)
  | _, target => target = .expression init

theorem Stands.ne_pending {p : Program} {s : RunState} {id : InstanceId} {init : ExprId}
    {kind : ExprKind} {target : Target} (h : s.Stands p id init kind target) :
    target ≠ .pending := by
  rintro rfl
  cases kind <;> simp [Stands] at h

/-- What an initializer is taken to stand for. A lambda is looked up in the table of closures. -/
structure Aims (p : Program) (s : RunState) (id : InstanceId) (init : ExprId) (kind : ExprKind)
    (target : Target) : Prop where
  lambda : kind.isLambda = true → target = match s.closureTable.closuresOf ⟨init, id⟩ with
    | closure :: _ => .closure closure
    | [] => .expression init
  other : kind.isLambda = false → s.Stands p id init kind target

theorem Aims.ne_pending {p : Program} {s : RunState} {id : InstanceId} {init : ExprId}
    {kind : ExprKind} {target : Target} (h : s.Aims p id init kind target) :
    target ≠ .pending := by
  cases hLambda : kind.isLambda with
  | false => exact (h.other hLambda).ne_pending
  | true =>
    rw [h.lambda hLambda]
    split <;> exact fun h => nomatch h

/-- The field of an instance is given what the initializer of its binding is taken to stand for. -/
def Settles (p : Program) (s : RunState) (id : InstanceId) (field : Nat) (target : Target) : Prop :=
  ∃ i m b index type init e, s.instances.get? id = some i ∧ p.tree.readModule i.source = .ok m ∧
    i.fieldForBinding? index = some field ∧ m.bindings[index]? = some b ∧
    b.kind = .value type init ∧ p.tree.readExpr init = .ok e ∧ s.Aims p id init e.kind target

theorem Settles.ne_pending {p : Program} {s : RunState} {id : InstanceId} {field : Nat}
    {target : Target} (h : s.Settles p id field target) : target ≠ .pending := by
  obtain ⟨_, _, _, _, _, _, _, -, -, -, -, -, -, hAims⟩ := h
  exact hAims.ne_pending

/-- One change that processing an instance makes. -/
inductive Work (p : Program) : RunState → RunState → Prop where
  | advance {s t : RunState} (h : Advance p s t) : Work p s t
  | resolve (s : RunState) (id : InstanceId) (field : Nat) {target : Target}
      (hTarget : s.Settles p id field target) :
      Work p s { s with instances := s.instances.modify id fun i =>
        { i with fields := i.fields.modify field fun f => { f with target } } }
  | adopt (s : RunState) (id made : InstanceId) :
      Work p s { s with instances := s.instances.modify id fun i =>
        { i with submodules := i.submodules ++ [made] } }

/-- One change of a run. -/
inductive Step (p : Program) : RunState → RunState → Prop where
  | work {s t : RunState} (h : Work p s t) : Step p s t
  | take {s : RunState} {id : InstanceId} {rest : Queue InstanceId}
      (h : s.worklist.pop? = some (id, rest)) : Step p s { s with worklist := rest }
  | processed (s : RunState) :
      Step p s { s with stats := { s.stats with processed := s.stats.processed + 1 } }

abbrev Advances (p : Program) : RunState → RunState → Prop := Relation.ReflTransGen (Advance p)

abbrev Works (p : Program) : RunState → RunState → Prop := Relation.ReflTransGen (Work p)

abbrev Steps (p : Program) : RunState → RunState → Prop := Relation.ReflTransGen (Step p)

theorem Advances.works {p : Program} {s t : RunState} (h : Advances p s t) : Works p s t :=
  Relation.ReflTransGen.mono (fun _ _ => .advance) _ _ h

theorem Works.steps {p : Program} {s t : RunState} (h : Works p s t) : Steps p s t :=
  Relation.ReflTransGen.mono (fun _ _ => .work) _ _ h

theorem Advances.steps {p : Program} {s t : RunState} (h : Advances p s t) : Steps p s t :=
  h.works.steps

/-- From `s` to `t` the bindings `done` of the instance `id` were handled in this order: each of
them has set the value field that it became, if it became one. Otherwise there were requests, and
`id` got submodules. -/
inductive Fills (p : Program) (id : InstanceId) : List Nat → RunState → RunState → Prop where
  | refl (s : RunState) : Fills p id [] s s
  | advance {done : List Nat} {s t u : RunState} (h : Fills p id done s t)
      (hAdvance : Advance p t u) : Fills p id done s u
  | adopt {done : List Nat} {s t : RunState} (h : Fills p id done s t) (made : InstanceId) :
      Fills p id done s { t with instances := t.instances.modify id fun i =>
        { i with submodules := i.submodules ++ [made] } }
  | pass {done : List Nat} {s t : RunState} {index : Nat} (h : Fills p id done s t)
      (hNone : ∀ i, t.instances.get? id = some i →
        ∀ f ∈ i.fields, f.binding = index → f.kind ≠ .valueConstant) :
      Fills p id (done ++ [index]) s t
  | resolve {done : List Nat} {s t : RunState} {i : Instance} {index field : Nat} {target : Target}
      (h : Fills p id done s t) (hi : t.instances.get? id = some i)
      (hField : i.fieldForBinding? index = some field) (hTarget : t.Settles p id field target) :
      Fills p id (done ++ [index]) s { t with instances := t.instances.modify id fun i =>
        { i with fields := i.fields.modify field fun f => { f with target } } }

namespace Fills

variable {p : Program} {id : InstanceId} {done more : List Nat} {s t u : RunState}

theorem works (h : Fills p id done s t) : Works p s t := by
  induction h with
  | refl => exact .refl
  | advance _ hAdvance ih => exact ih.tail (.advance hAdvance)
  | adopt _ made ih => exact ih.tail (.adopt _ id made)
  | pass _ _ ih => exact ih
  | resolve _ _ _ hTarget ih => exact ih.tail (.resolve _ id _ hTarget)

theorem steps (h : Fills p id done s t) : Steps p s t := h.works.steps

theorem trans (h : Fills p id done s t) (h' : Fills p id more t u) :
    Fills p id (done ++ more) s u := by
  induction h' with
  | refl => rwa [List.append_nil]
  | advance _ hAdvance ih => exact (ih h).advance hAdvance
  | adopt _ made ih => exact (ih h).adopt made
  | pass _ hNone ih =>
    rw [← List.append_assoc]
    exact (ih h).pass hNone
  | resolve _ hi hField hTarget ih =>
    rw [← List.append_assoc]
    exact (ih h).resolve hi hField hTarget

end Fills

theorem Advances.fills {p : Program} {s t : RunState} (h : Advances p s t) (id : InstanceId) :
    Fills p id [] s t := by
  induction h with
  | refl => exact .refl s
  | tail _ hAdvance ih => exact ih.advance hAdvance

def FillsSome (p : Program) (id : InstanceId) (indices : List Nat) (s t : RunState) : Prop :=
  ∃ done : List Nat, done.Sublist indices ∧ Fills p id done s t

theorem FillsSome.steps {p : Program} {id : InstanceId} {indices : List Nat} {s t : RunState}
    (h : FillsSome p id indices s t) : Steps p s t := by
  obtain ⟨done, -, hFills⟩ := h
  exact hFills.steps

/-- What later states keep of earlier ones. -/
structure Grows (s t : RunState) : Prop where
  types : s.types.Extends t.types
  instances : s.instances.Keeps t.instances
  cache : ∀ ⦃key id⦄, s.cache.find? key = some id → t.cache.find? key = some id

theorem Grows.refl (s : RunState) : Grows s s := ⟨.refl _, .refl _, fun _ _ h => h⟩

theorem Grows.trans {s t u : RunState} (hst : Grows s t) (htu : Grows t u) : Grows s u :=
  ⟨hst.types.trans htu.types, hst.instances.trans htu.instances,
    fun _ _ h => htu.cache (hst.cache h)⟩

/-- Between two states every cache miss has made an instance, and every instance that was made is
waiting or has been processed. -/
structure Tallied (s t : RunState) : Prop where
  misses : t.stats.misses + s.instances.size = s.stats.misses + t.instances.size
  processed : t.stats.processed + t.worklist.size + s.instances.size =
    s.stats.processed + s.worklist.size + t.instances.size

theorem Tallied.refl (s : RunState) : Tallied s s := ⟨rfl, rfl⟩

theorem Tallied.trans {s t u : RunState} (hst : Tallied s t) (htu : Tallied t u) : Tallied s u := by
  obtain ⟨hMisses, hProcessed⟩ := hst
  obtain ⟨hMisses', hProcessed'⟩ := htu
  constructor <;> omega

theorem Retyped.tallied {p : Program} {s t : RunState} (h : Retyped p s t) : Tallied s t := by
  rw [h.rest]
  exact ⟨rfl, rfl⟩

theorem get?_push_instances {instances : Arena .instances Instance} {id : InstanceId} {j : Instance}
    (i : Instance) (hj : instances.get? id = some j) : (instances.push i).get? id = some j :=
  (Arena.get?_push_of_lt _ _ (Arena.lt_of_get? hj)).trans hj

theorem keeps_modify (instances : Arena .instances Instance) (id : InstanceId)
    {change : Instance → Instance} (hShell : ∀ i, (change i).shell = i.shell) :
    instances.Keeps (instances.modify id change) ∧
      (instances.modify id change).Keeps instances := by
  constructor
  · intro other i hGet
    rw [Arena.get?_modify]
    split
    case isTrue => exact ⟨change i, by rw [hGet]; rfl, hShell i⟩
    case isFalse => exact ⟨i, hGet, rfl⟩
  · intro other j hGet
    rw [Arena.get?_modify] at hGet
    split at hGet
    case isTrue =>
      obtain ⟨i, hi, rfl⟩ := Option.map_eq_some_iff.mp hGet
      exact ⟨i, hi, (hShell i).symm⟩
    case isFalse => exact ⟨j, hGet, rfl⟩

theorem shell_resolve (field : Nat) (target : Target) (i : Instance) :
    { i with fields := i.fields.modify field fun f => { f with target } }.shell = i.shell := by
  have hFields : (i.fields.modify field fun f => { f with target }).map
      (fun f => { f with target := .pending }) =
      i.fields.map fun f => { f with target := .pending } := by
    apply List.ext_getElem
    · simp
    · intro k _ _
      simp only [List.getElem_map, List.getElem_modify]
      split <;> rfl
  simp only [Instance.shell, hFields]

theorem shell_adopt (made : InstanceId) (i : Instance) :
    { i with submodules := i.submodules ++ [made] }.shell = i.shell := rfl

theorem Advance.grows {p : Program} {s t : RunState} (h : Advance p s t) : Grows s t := by
  cases h with
  | retyped h =>
    refine ⟨h.grown, ?_, ?_⟩
    · rw [h.instances_eq]
      exact .refl _
    · rw [h.cache_eq]
      exact fun _ _ h => h
  | hit => exact ⟨.refl _, .refl _, fun _ _ h => h⟩
  | miss => exact ⟨.refl _, .refl _, fun _ _ h => h⟩
  | @enter r m i closures hFresh hResolves hAbsent hRoom =>
    refine ⟨.refl _, fun id j hj => ⟨j, get?_push_instances i hj, rfl⟩, fun key id hFind => ?_⟩
    change (s.cache.insert i.key i.id).find? key = some id
    rw [Index.find?_insert, if_neg, hFind]
    rintro rfl
    cases hAbsent.symm.trans hFind

theorem Work.grows {p : Program} {s t : RunState} (h : Work p s t) : Grows s t := by
  cases h with
  | advance h => exact h.grows
  | resolve id field hTarget =>
    exact ⟨.refl _, (keeps_modify _ id (shell_resolve field _)).1, fun _ _ h => h⟩
  | adopt id made => exact ⟨.refl _, (keeps_modify _ id (shell_adopt made)).1, fun _ _ h => h⟩

theorem Step.grows {p : Program} {s t : RunState} (h : Step p s t) : Grows s t := by
  cases h with
  | work h => exact h.grows
  | take h => exact ⟨.refl _, .refl _, fun _ _ h => h⟩
  | processed => exact ⟨.refl _, .refl _, fun _ _ h => h⟩

theorem Steps.grows {p : Program} {s t : RunState} (h : Steps p s t) : Grows s t := by
  induction h with
  | refl => exact .refl s
  | tail _ hStep ih => exact ih.trans hStep.grows

/-- Of all steps only those that make types concrete change the type store. -/
theorem Steps.keep {p : Program} {s t : RunState} {K : TypeStore → Prop}
    (hKeep : ∀ s t, Retyped p s t → K s.types → K t.types) (h : Steps p s t) (hNow : K s.types) :
    K t.types := by
  induction h with
  | refl => exact hNow
  | tail _ hStep ih =>
    cases hStep with
    | work hWork =>
      cases hWork with
      | advance hAdvance =>
        cases hAdvance with
        | retyped hRetyped => exact hKeep _ _ hRetyped ih
        | _ => exact ih
      | _ => exact ih
    | _ => exact ih

namespace Steps

variable {p : Program} {s t : RunState}

theorem grown (h : Steps p s t) : s.types.Grown t.types :=
  h.keep (fun _ _ hRetyped hGrown => hGrown.trans hRetyped.added) (.refl _)

theorem sane (h : Steps p s t) : s.types.Sane p.symbols → t.types.Sane p.symbols :=
  h.keep fun _ _ hRetyped => hRetyped.sane

theorem ordered (h : Steps p s t) : p.Ordered s.types → p.Ordered t.types :=
  h.keep fun _ _ hRetyped => hRetyped.ordered

theorem legible (h : Steps p s t) : p.Legible s.types → p.Legible t.types :=
  h.keep fun _ _ hRetyped => hRetyped.legible

theorem explained {ε : Type} {e : Failure ε} {known known' : Prop} (h : Steps p s t)
    (hLater : e.Explained p t.types known') (hKnown : p.Legible s.types → known → known') :
    e.Explained p s.types known :=
  hLater.later h.ordered h.legible hKnown

end Steps

end RunState

open RunState

theorem Argument.Image.extend {s t : TypeStore} {sub : Substitution} {argument image : Argument}
    (h : argument.Image s sub image) (hExt : s.Extends t) : argument.Image t sub image := by
  cases h with
  | type hImage => exact .type (hImage.extend hExt)
  | value literal => exact .value literal

theorem Resolves.grow {p : Program} {s t : RunState} {r : Request} {m : ModuleDecl}
    {actuals : List Argument} {key : Key} (h : Resolves p s r m actuals key) (hGrows : Grows s t) :
    Resolves p t r m actuals key := by
  obtain ⟨site, hSite, hActuals⟩ := h.given
  exact ⟨h.decl, h.fits, ⟨site, hSite.keep hGrows.instances,
    hActuals.imp fun _ _ h => h.extend hGrows.types⟩, h.parent.keep hGrows.instances,
    h.inherits.keep hGrows.instances, h.key_eq⟩

theorem Answers.grow {p : Program} {s t : RunState} {r : Request} {id : InstanceId}
    (h : Answers p s r id) (hGrows : Grows s t) : Answers p t r id := by
  obtain ⟨m, actuals, i, hResolves, hi⟩ := h
  obtain ⟨j, hj, hShell⟩ := hGrows.instances hi
  refine ⟨m, actuals, j, ?_, hj⟩
  rw [Instance.key_eq_of_shell hShell]
  exact hResolves.grow hGrows

/-- What an instance and its source have in common. -/
structure Formed (p : Program) (s : RunState) (m : ModuleDecl) (id : InstanceId) (i : Instance) :
    Prop where
  id_eq : i.id = id
  decl : p.tree.readModule i.source = .ok m
  fits : List.Forall₂ TemplateParam.Fits m.params i.arguments
  linked : Linked s.instances id m.parent i.parent
  inherits : Inherits p s.instances i.source (m.pairing i.arguments) i.parent i.substitution
  fields : List.Forall₂ (FieldSource.Yields s.types i.substitution) m.fieldSources i.fields
  moduleType : s.types.Image i.substitution .strict m.scheme.body i.moduleType
  closed : i.substitution.ClosedIn s.types
  arguments : ∀ type, .type type ∈ i.arguments → s.types.Closed type

/-- The closure stands for a lambda in an initializer of the source of its owner. -/
structure Made (p : Program) (s : RunState) (m : ModuleDecl) (i : Instance) (c : Closure) :
    Prop where
  owner : s.instances.get? c.owner = some i
  decl : p.tree.readModule i.source = .ok m
  type : ∃ e, (c.expr, e) ∈ ModuleTree.lambdas (p.tree.moduleVisits m) ∧
    s.types.Image i.substitution .strict e.type c.type
  captures : ∃ captures, Capture.ofLambda p.tree c.expr = .ok captures ∧
    List.Forall₂ (Capture.Yields s.types i.substitution) captures c.captures

/-- What holds in every state of every run: instances and closures come from their sources, the
cache finds exactly the instances, and the work-list names some of them. -/
structure Sound (p : Program) (s : RunState) : Prop where
  formed : ∀ ⦃id i⦄, s.instances.get? id = some i → ∃ m, Formed p s m id i
  cached : ∀ ⦃id i⦄, s.instances.get? id = some i → s.cache.find? i.key = some id
  filed : ∀ ⦃key id⦄, s.cache.find? key = some id →
    ∃ i, s.instances.get? id = some i ∧ i.key = key
  made : ∀ ⦃id c⦄, s.closures.get? id = some c → ∃ m i, Made p s m i c
  queued : ∀ id ∈ s.worklist.toList, ∃ i, s.instances.get? id = some i
  bounded : s.instances.size ≤ p.settings.limits.maxInstances

theorem Sound.start (p : Program) (types : TypeStore) : Sound p (.start types) where
  formed _ _ h := by simp [RunState.start, Arena.empty, Arena.get?] at h
  cached _ _ h := by simp [RunState.start, Arena.empty, Arena.get?] at h
  filed _ _ h := by simp [RunState.start] at h
  made _ _ h := by simp [RunState.start, Arena.empty, Arena.get?] at h
  queued _ h := by simp [RunState.start] at h
  bounded := Nat.zero_le _

theorem Formed.grow {p : Program} {s t : RunState} {m : ModuleDecl} {id : InstanceId}
    {i j : Instance} (h : Formed p s m id i) (hGrows : Grows s t) (hShell : i.shell = j.shell) :
    Formed p t m id j := by
  have hFields := Instance.forall₂_yields_of_shell hShell
    (h.fields.imp fun _ _ h => h.extend hGrows.types)
  have hInherits := h.inherits.keep hGrows.instances
  have hLinked := h.linked.keep hGrows.instances
  have hModule := h.moduleType.extend hGrows.types
  have hClosed := h.closed.extend hGrows.types
  have hArguments := h.arguments
  have hDecl := h.decl
  have hFits := h.fits
  rw [Instance.source_eq_of_shell hShell] at hDecl hInherits
  rw [Instance.arguments_eq_of_shell hShell] at hArguments hFits hInherits
  rw [Instance.parent_eq_of_shell hShell] at hInherits hLinked
  rw [Instance.substitution_eq_of_shell hShell] at hInherits hModule hClosed hFields
  rw [Instance.moduleType_eq_of_shell hShell] at hModule
  exact ⟨(Instance.id_eq_of_shell hShell).symm.trans h.id_eq, hDecl, hFits, hLinked, hInherits,
    hFields, hModule, hClosed, fun type hType => (hArguments type hType).extend hGrows.types⟩

theorem Made.grow {p : Program} {s t : RunState} {m : ModuleDecl} {i : Instance} {c : Closure}
    (h : Made p s m i c) (hGrows : Grows s t) : ∃ j, Made p t m j c := by
  obtain ⟨j, hj, hShell⟩ := hGrows.instances h.owner
  obtain ⟨e, hLambda, hType⟩ := h.type
  obtain ⟨captures, hCaptures, hYields⟩ := h.captures
  have hDecl := h.decl
  rw [← Instance.source_eq_of_shell hShell] at hDecl
  rw [← Instance.substitution_eq_of_shell hShell] at hType hYields
  exact ⟨j, hj, hDecl, ⟨e, hLambda, hType.extend hGrows.types⟩,
    ⟨captures, hCaptures, hYields.imp fun _ _ h => h.extend hGrows.types⟩⟩

theorem ModuleDecl.closedIn_pairing {types : TypeStore} (m : ModuleDecl) {arguments : List Argument}
    (h : ∀ type, .type type ∈ arguments → types.Closed type) :
    (m.pairing arguments).ClosedIn types := by
  intro var type hGet
  obtain ⟨argument, hArgument, hType⟩ :=
    List.mem_filterMap.mp (List.of_mem_zip (Substitution.mem_of_get?_ofPairs hGet)).2
  cases argument with
  | value literal => cases hType
  | type id =>
    cases hType
    exact h _ hArgument

section Closed

variable {p : Program} {s : RunState} (hSound : Sound p s)
include hSound

theorem SiteSub.closed {site : Option InstanceId} {sub : Substitution}
    (h : SiteSub s.instances site sub) : sub.ClosedIn s.types := by
  cases h with
  | outside => exact fun _ _ h => nomatch h
  | inside hGet =>
    obtain ⟨_, hFormed⟩ := hSound.formed hGet
    exact hFormed.closed

theorem Inherits.closed {target : ModuleId} {own sub : Substitution} {parent : Option InstanceId}
    (h : Inherits p s.instances target own parent sub) (hOwn : own.ClosedIn s.types) :
    sub.ClosedIn s.types := by
  cases h with
  | top => exact hOwn
  | inside hOuter hVars =>
    intro var type hGet
    rw [Substitution.get?_extend, Substitution.get?_only, Option.or_eq_some_iff] at hGet
    rcases hGet with hInherited | ⟨-, hGet⟩
    · obtain ⟨_, hFormed⟩ := hSound.formed hOuter
      split at hInherited
      · exact hFormed.closed var type hInherited
      · cases hInherited
    · exact hOwn var type hGet

theorem Argument.Image.closed {site : Option InstanceId} {sub : Substitution}
    {arguments actuals : List Argument} (hSite : SiteSub s.instances site sub)
    (h : List.Forall₂ (Argument.Image s.types sub) arguments actuals) {type : TypeId}
    (hType : .type type ∈ actuals) : s.types.Closed type := by
  obtain ⟨argument, -, hImage⟩ := exists_mem_left_of_forall₂ h hType
  cases hImage with
  | type hImage => exact hImage.closed (hSite.closed hSound)

end Closed

theorem Argument.Image.fits {types : TypeStore} {sub : Substitution} {params : List TemplateParam}
    {arguments actuals : List Argument} (hFits : List.Forall₂ TemplateParam.Fits params arguments)
    (h : List.Forall₂ (Argument.Image types sub) arguments actuals) :
    List.Forall₂ TemplateParam.Fits params actuals := by
  induction h generalizing params with
  | nil => exact hFits
  | cons hImage _ ih =>
    cases hFits with
    | cons hFit hRest =>
      refine .cons ?_ (ih hRest)
      cases hImage with
      | type => cases hFit with | type hKind => exact .type hKind
      | value => exact hFit

theorem Fresh.mem_closures {p : Program} {s : RunState} {m : ModuleDecl} {i : Instance}
    {closures : List Closure} (h : Fresh p s m i closures) {c : Closure} (hMem : c ∈ closures) :
    c.owner = i.id ∧
      (∃ e, (c.expr, e) ∈ ModuleTree.lambdas (p.tree.moduleVisits m) ∧
        s.types.Image i.substitution .strict e.type c.type) ∧
      ∃ captures, Capture.ofLambda p.tree c.expr = .ok captures ∧
        List.Forall₂ (Capture.Yields s.types i.substitution) captures c.captures := by
  obtain ⟨shells, hShells, rfl⟩ := h.shells
  obtain ⟨⟨shell, index⟩, hShell, rfl⟩ := List.mem_map.mp hMem
  obtain ⟨⟨⟨id, e⟩, position⟩, hLambda, hOf⟩ :=
    exists_mem_left_of_forall₂ hShells (List.fst_mem_of_mem_zipIdx hShell)
  have hExpr : shell.expr = id := hOf.expr
  have hCaptures := hOf.captures
  rw [← hExpr] at hCaptures hLambda
  exact ⟨rfl, ⟨e, List.fst_mem_of_mem_zipIdx hLambda, hOf.type⟩, hCaptures⟩

namespace Sound

variable {p : Program} {s t : RunState}

theorem of_keeps (hSound : Sound p s) (hGrows : Grows s t) (hBack : t.instances.Keeps s.instances)
    (hSize : t.instances.size = s.instances.size) (hCache : t.cache = s.cache)
    (hClosures : t.closures = s.closures)
    (hQueue : ∀ id ∈ t.worklist.toList, id ∈ s.worklist.toList) : Sound p t where
  formed id j hj := by
    obtain ⟨i, hi, hShell⟩ := hBack hj
    obtain ⟨m, hFormed⟩ := hSound.formed hi
    exact ⟨m, hFormed.grow hGrows hShell⟩
  cached id j hj := by
    obtain ⟨i, hi, hShell⟩ := hBack hj
    rw [hCache, ← Instance.key_eq_of_shell hShell]
    exact hSound.cached hi
  filed key id hFind := by
    rw [hCache] at hFind
    obtain ⟨i, hi, hKey⟩ := hSound.filed hFind
    obtain ⟨j, hj, hShell⟩ := hGrows.instances hi
    exact ⟨j, hj, (Instance.key_eq_of_shell hShell).trans hKey⟩
  made id c hc := by
    rw [hClosures] at hc
    obtain ⟨m, i, hMade⟩ := hSound.made hc
    exact ⟨m, hMade.grow hGrows⟩
  queued id hMem := by
    obtain ⟨i, hi⟩ := hSound.queued id (hQueue id hMem)
    obtain ⟨j, hj, -⟩ := hGrows.instances hi
    exact ⟨j, hj⟩
  bounded := by
    rw [hSize]
    exact hSound.bounded

theorem get?_foldl_push {closures : List Closure} {table : Arena .closures Closure} {id : ClosureId}
    {c : Closure} (h : (closures.foldl Arena.push table).get? id = some c) :
    table.get? id = some c ∨ ∃ index, closures[index]? = some c ∧ id = ⟨table.size + index⟩ := by
  induction closures generalizing table with
  | nil => exact .inl h
  | cons first rest ih =>
    rcases ih h with hGet | ⟨index, hIndex, rfl⟩
    · rw [Arena.get?_push] at hGet
      split at hGet
      case isTrue hNext =>
        cases hGet
        exact .inr ⟨0, rfl, hNext⟩
      case isFalse => exact .inl hGet
    · refine .inr ⟨index + 1, hIndex, ?_⟩
      rw [Arena.size_push, Nat.add_assoc, Nat.add_comm 1]

/-- The instance that a request asks for can join a sound state. -/
theorem enroll {r : Request} {m : ModuleDecl} {i : Instance} {closures : List Closure}
    (hSound : Sound p s) (hFresh : Fresh p s m i closures)
    (hResolves : Resolves p s r m i.arguments i.key) (hAbsent : s.cache.find? i.key = none)
    (hRoom : s.instances.size < p.settings.limits.maxInstances) :
    Sound p (s.enroll i closures) := by
  have hGrows : Grows s (s.enroll i closures) :=
    (Advance.enter hFresh hResolves hAbsent hRoom).grows
  have hNew : (s.enroll i closures).instances.get? i.id = some i := by
    rw [hFresh.id_eq]
    exact Arena.get?_push_next _ _
  constructor
  case formed =>
    intro id j hj
    rcases get?_enroll hFresh.id_eq hj with ⟨rfl, rfl⟩ | hj
    · obtain ⟨site, hSite, hActuals⟩ := hResolves.given
      have hArguments : ∀ type, .type type ∈ j.arguments → s.types.Closed type :=
        fun _ => Argument.Image.closed hSound hSite hActuals
      have hSource : j.source = r.target := congrArg Key.source hResolves.key_eq
      have hInherits := hResolves.inherits
      have hLinked := hResolves.parent.linked
      rw [← hSource] at hInherits
      rw [← hFresh.id_eq] at hLinked
      exact ⟨m, rfl, hFresh.decl, Argument.Image.fits hResolves.fits hActuals,
        hLinked.keep hGrows.instances, hInherits.keep hGrows.instances, hFresh.fields,
        hFresh.moduleType, hInherits.closed hSound (m.closedIn_pairing hArguments), hArguments⟩
    · obtain ⟨m, hFormed⟩ := hSound.formed hj
      exact ⟨m, hFormed.grow hGrows rfl⟩
  case cached =>
    intro id j hj
    rcases get?_enroll hFresh.id_eq hj with ⟨rfl, rfl⟩ | hj
    · change (s.cache.insert j.key j.id).find? j.key = some j.id
      rw [Index.find?_insert, if_pos rfl]
    · exact hGrows.cache (hSound.cached hj)
  case filed =>
    intro key id hFind
    change (s.cache.insert i.key i.id).find? key = some id at hFind
    rw [Index.find?_insert] at hFind
    split at hFind
    case isTrue hKey =>
      cases hFind
      exact ⟨i, hNew, hKey⟩
    case isFalse =>
      obtain ⟨j, hj, hKey⟩ := hSound.filed hFind
      exact ⟨j, get?_push_instances i hj, hKey⟩
  case made =>
    intro id c hc
    rcases get?_foldl_push hc with hc | ⟨_, hIndex, -⟩
    · obtain ⟨n, j, hMade⟩ := hSound.made hc
      exact ⟨n, hMade.grow hGrows⟩
    · obtain ⟨hOwner, hType, hCaptures⟩ := hFresh.mem_closures (List.mem_of_getElem? hIndex)
      exact ⟨m, i, hOwner ▸ hNew, hFresh.decl, hType, hCaptures⟩
  case queued =>
    intro id hMem
    rcases List.mem_append.mp ((s.worklist.toList_push i.id) ▸ hMem) with hMem | hMem
    · obtain ⟨j, hj⟩ := hSound.queued id hMem
      exact ⟨j, get?_push_instances i hj⟩
    · rw [List.mem_singleton.mp hMem]
      exact ⟨i, hNew⟩
  case bounded =>
    change (s.instances.push i).size ≤ _
    rw [Arena.size_push]
    exact hRoom

theorem advance (hSound : Sound p s) (h : Advance p s t) : Sound p t := by
  have hGrows := h.grows
  cases h with
  | retyped h =>
    refine hSound.of_keeps hGrows ?_ ?_ h.cache_eq h.closures_eq ?_
    · rw [h.instances_eq]
      exact .refl _
    · rw [h.instances_eq]
    · rw [h.worklist_eq]
      exact fun _ h => h
  | hit => exact hSound.of_keeps hGrows (.refl _) rfl rfl rfl fun _ h => h
  | miss => exact hSound.of_keeps hGrows (.refl _) rfl rfl rfl fun _ h => h
  | enter hFresh hResolves hAbsent hRoom => exact hSound.enroll hFresh hResolves hAbsent hRoom

/-- An instance may be changed in all that is not part of its shell. -/
theorem reshape (hSound : Sound p s) (id : InstanceId) {change : Instance → Instance}
    (hShell : ∀ i, (change i).shell = i.shell) :
    Sound p { s with instances := s.instances.modify id change } := by
  obtain ⟨hKeeps, hBack⟩ := keeps_modify s.instances id hShell
  exact hSound.of_keeps ⟨.refl _, hKeeps, fun _ _ h => h⟩ hBack (Arena.size_modify _ _ _) rfl rfl
    fun _ h => h

theorem work (hSound : Sound p s) (h : Work p s t) : Sound p t := by
  cases h with
  | advance h => exact hSound.advance h
  | resolve id field hTarget => exact hSound.reshape id (shell_resolve field _)
  | adopt id made => exact hSound.reshape id (shell_adopt made)

theorem step (hSound : Sound p s) (h : Step p s t) : Sound p t := by
  have hGrows := h.grows
  cases h with
  | work h => exact hSound.work h
  | take h =>
    refine hSound.of_keeps hGrows (.refl _) rfl rfl rfl fun id hMem => ?_
    rw [Queue.toList_of_pop? h]
    exact List.mem_cons_of_mem _ hMem
  | processed => exact hSound.of_keeps hGrows (.refl _) rfl rfl rfl fun _ h => h

theorem steps (hSound : Sound p s) (h : Steps p s t) : Sound p t := by
  induction h with
  | refl => exact hSound
  | tail _ hStep ih => exact ih.step hStep

end Sound

end Specializer
