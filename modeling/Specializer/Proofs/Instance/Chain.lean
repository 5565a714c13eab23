import Specializer.Instance.Process
import Specializer.Proofs.Instance.Create
import Specializer.Proofs.Tree.Lexical

/-!
# Chains of instances

How an instance is tied to those around it: where a walk up its chain ends, which instance encloses
a new one, and what a substitution inherits. An instance keeps its `shell` for good, and all of this
depends on shells only, so it outlives every later change to the table.
-/

set_option autoImplicit false

namespace Specializer

open TypeStore

theorem Arena.get?_modify {table : Table} {α : Type} (a : Arena table α) (h : Handle table)
    (f : α → α) (id : Handle table) :
    (a.modify h f).get? id = if id = h then (a.get? id).map f else a.get? id := by
  obtain ⟨index⟩ := id
  obtain ⟨target⟩ := h
  simp only [get?, modify, Array.getElem?_modify, Handle.mk.injEq]
  by_cases hSame : target = index
  · rw [if_pos hSame, if_pos hSame.symm]
  · rw [if_neg hSame, if_neg (Ne.symm hSame)]

@[simp] theorem Arena.size_modify {table : Table} {α : Type} (a : Arena table α) (h : Handle table)
    (f : α → α) : (a.modify h f).size = a.size := by
  simp [size, modify]

namespace Instance

/-- What never changes: everything but the targets of the fields and the submodules. -/
def shell (i : Instance) : Instance :=
  { i with fields := i.fields.map fun f => { f with target := .pending }, submodules := [] }

def key (i : Instance) : Key := .of i.source i.parent i.substitution i.arguments

theorem id_eq_of_shell {i j : Instance} (h : i.shell = j.shell) : i.id = j.id :=
  (congrArg Instance.id h :)

theorem source_eq_of_shell {i j : Instance} (h : i.shell = j.shell) : i.source = j.source :=
  (congrArg Instance.source h :)

theorem parent_eq_of_shell {i j : Instance} (h : i.shell = j.shell) : i.parent = j.parent :=
  (congrArg Instance.parent h :)

theorem substitution_eq_of_shell {i j : Instance} (h : i.shell = j.shell) :
    i.substitution = j.substitution := (congrArg Instance.substitution h :)

theorem arguments_eq_of_shell {i j : Instance} (h : i.shell = j.shell) :
    i.arguments = j.arguments :=
  (congrArg Instance.arguments h :)

theorem moduleType_eq_of_shell {i j : Instance} (h : i.shell = j.shell) :
    i.moduleType = j.moduleType := (congrArg Instance.moduleType h :)

theorem name_eq_of_shell {i j : Instance} (h : i.shell = j.shell) : i.name = j.name :=
  (congrArg Instance.name h :)

theorem closures_eq_of_shell {i j : Instance} (h : i.shell = j.shell) : i.closures = j.closures :=
  (congrArg Instance.closures h :)

theorem key_eq_of_shell {i j : Instance} (h : i.shell = j.shell) : i.key = j.key := by
  unfold key
  rw [source_eq_of_shell h, parent_eq_of_shell h, substitution_eq_of_shell h,
    arguments_eq_of_shell h]

theorem forall₂_yields_of_shell {types : TypeStore} {sub : Substitution}
    {sources : List FieldSource} {i j : Instance} (h : i.shell = j.shell)
    (hFields : List.Forall₂ (FieldSource.Yields types sub) sources i.fields) :
    List.Forall₂ (FieldSource.Yields types sub) sources j.fields := by
  have hSame : i.fields.map (fun f => { f with target := .pending }) =
      j.fields.map fun f => { f with target := .pending } := congrArg Instance.fields h
  have hPending : ∀ fields : List Definition,
      List.Forall₂ (FieldSource.Yields types sub) sources fields ↔
        List.Forall₂ (FieldSource.Yields types sub) sources
          (fields.map fun f => { f with target := .pending }) := by
    intro fields
    rw [List.forall₂_map_right_iff]
    constructor
    · exact fun h => h.imp fun _ _ h => ⟨h.name, h.binding, h.kind, h.span, h.type⟩
    · exact fun h => h.imp fun _ _ h => ⟨h.name, h.binding, h.kind, h.span, h.type⟩
  rw [hPending, hSame, ← hPending] at hFields
  exact hFields

end Instance

def ModuleDecl.pairing (m : ModuleDecl) (arguments : List Argument) : Substitution :=
  .ofPairs (m.typeVars.zip (arguments.filterMap Argument.type?))

/-- An argument under the substitution of the instance in which it is written. -/
inductive Argument.Image (types : TypeStore) (sub : Substitution) : Argument → Argument → Prop where
  | type {id image : TypeId} (hImage : types.Image sub .strict id image) :
      Image types sub (.type id) (.type image)
  | value (literal : Literal) : Image types sub (.value literal) (.value literal)

def Arena.Keeps (a b : Arena .instances Instance) : Prop :=
  ∀ ⦃id i⦄, a.get? id = some i → ∃ j, b.get? id = some j ∧ j.shell = i.shell

theorem Arena.Keeps.refl (a : Arena .instances Instance) : a.Keeps a := fun _ i h => ⟨i, h, rfl⟩

theorem Arena.Keeps.trans {a b c : Arena .instances Instance} (hab : a.Keeps b) (hbc : b.Keeps c) :
    a.Keeps c := by
  intro id i hi
  obtain ⟨j, hj, hShell⟩ := hab hi
  obtain ⟨k, hk, hShell'⟩ := hbc hj
  exact ⟨k, hk, hShell'.trans hShell⟩

/-- The nearest instance of `source` on the way up from an instance, if there is one. -/
inductive Nearest (instances : Arena .instances Instance) (source : ModuleId) :
    Option InstanceId → Option InstanceId → Prop where
  | root : Nearest instances source none none
  | here {id : InstanceId} {i : Instance} (hGet : instances.get? id = some i)
      (hSource : i.source = source) : Nearest instances source (some id) (some id)
  | above {id : InstanceId} {i : Instance} {found : Option InstanceId}
      (hGet : instances.get? id = some i) (hSource : i.source ≠ source)
      (hRest : Nearest instances source i.parent found) : Nearest instances source (some id) found

/-- The instance around an instance of a module with the given parent, named from `site`: none if
there is no parent, the nearest one on the way up from the site, or else the instance of a parent
that has no parameters, and nothing around it has any. -/
inductive Encloses (p : Program) (instances : Arena .instances Instance)
    (site : Option InstanceId) : Option ModuleId → Option InstanceId → Prop where
  | top : Encloses p instances site none none
  | near {outer : ModuleId} {found : InstanceId}
      (hNear : Nearest instances outer site (some found)) :
      Encloses p instances site (some outer) (some found)
  | alone {outer : ModuleId} {found : InstanceId} {j : Instance}
      (hNear : Nearest instances outer site none)
      (hPlain : p.tree.isMonomorphicChain outer = .ok true)
      (hFound : instances.get? found = some j) (hSource : j.source = outer) :
      Encloses p instances site (some outer) (some found)

/-- An own substitution together with what it inherits from the instance around. -/
inductive Inherits (p : Program) (instances : Arena .instances Instance) (target : ModuleId)
    (own : Substitution) : Option InstanceId → Substitution → Prop where
  | top : Inherits p instances target own none own
  | inside {outer : InstanceId} {j : Instance} {vars : List TypeId}
      (hOuter : instances.get? outer = some j) (hVars : p.tree.ancestorVars target = .ok vars) :
      Inherits p instances target own (some outer) (own.extend (j.substitution.only vars))

inductive SiteSub (instances : Arena .instances Instance) :
    Option InstanceId → Substitution → Prop where
  | outside : SiteSub instances none .empty
  | inside {id : InstanceId} {i : Instance} (hGet : instances.get? id = some i) :
      SiteSub instances (some id) i.substitution

theorem SiteSub.unique {instances : Arena .instances Instance} {site : Option InstanceId}
    {sub sub' : Substitution} (h : SiteSub instances site sub) (h' : SiteSub instances site sub') :
    sub = sub' := by
  cases h with
  | outside =>
    cases h'
    rfl
  | inside hGet =>
    cases h' with
    | inside hGet' =>
      cases hGet.symm.trans hGet'
      rfl

/-- The enclosing instance of an instance belongs to the parent of its source and is older. -/
inductive Linked (instances : Arena .instances Instance) (id : InstanceId) :
    Option ModuleId → Option InstanceId → Prop where
  | top : Linked instances id none none
  | inside {outer : ModuleId} {found : InstanceId} {j : Instance}
      (hFound : instances.get? found = some j) (hSource : j.source = outer)
      (hOlder : found.index < id.index) : Linked instances id (some outer) (some found)

theorem Linked.exists_found {instances : Arena .instances Instance} {id : InstanceId}
    {outer : ModuleId} {parent : Option InstanceId} (h : Linked instances id (some outer) parent) :
    ∃ found j, parent = some found ∧ instances.get? found = some j ∧ j.source = outer ∧
      found.index < id.index := by
  cases h with
  | inside hFound hSource hOlder => exact ⟨_, _, rfl, hFound, hSource, hOlder⟩

theorem Linked.exists_outer {instances : Arena .instances Instance} {id found : InstanceId}
    {parent : Option ModuleId} (h : Linked instances id parent (some found)) :
    ∃ outer j, parent = some outer ∧ instances.get? found = some j ∧ j.source = outer ∧
      found.index < id.index := by
  cases h with
  | inside hFound hSource hOlder => exact ⟨_, _, rfl, hFound, hSource, hOlder⟩

section Keeps

variable {p : Program} {a b : Arena .instances Instance} (hKeeps : a.Keeps b)
include hKeeps

theorem Nearest.keep {source : ModuleId} {start found : Option InstanceId}
    (h : Nearest a source start found) : Nearest b source start found := by
  induction h with
  | root => exact .root
  | here hGet hSource =>
    obtain ⟨j, hj, hShell⟩ := hKeeps hGet
    exact .here hj ((Instance.source_eq_of_shell hShell).trans hSource)
  | above hGet hSource _ ih =>
    obtain ⟨j, hj, hShell⟩ := hKeeps hGet
    rw [← Instance.parent_eq_of_shell hShell] at ih
    exact .above hj (Instance.source_eq_of_shell hShell ▸ hSource) ih

theorem Encloses.keep {site found : Option InstanceId} {parent : Option ModuleId}
    (h : Encloses p a site parent found) : Encloses p b site parent found := by
  cases h with
  | top => exact .top
  | near hNear => exact .near (hNear.keep hKeeps)
  | alone hNear hPlain hFound hSource =>
    obtain ⟨j, hj, hShell⟩ := hKeeps hFound
    exact .alone (hNear.keep hKeeps) hPlain hj ((Instance.source_eq_of_shell hShell).trans hSource)

theorem Inherits.keep {target : ModuleId} {own sub : Substitution} {parent : Option InstanceId}
    (h : Inherits p a target own parent sub) : Inherits p b target own parent sub := by
  cases h with
  | top => exact .top
  | inside hOuter hVars =>
    obtain ⟨j, hj, hShell⟩ := hKeeps hOuter
    rw [← Instance.substitution_eq_of_shell hShell]
    exact .inside hj hVars

theorem SiteSub.keep {site : Option InstanceId} {sub : Substitution} (h : SiteSub a site sub) :
    SiteSub b site sub := by
  cases h with
  | outside => exact .outside
  | inside hGet =>
    obtain ⟨j, hj, hShell⟩ := hKeeps hGet
    rw [← Instance.substitution_eq_of_shell hShell]
    exact .inside hj

theorem Linked.keep {id : InstanceId} {parent : Option ModuleId} {found : Option InstanceId}
    (h : Linked a id parent found) : Linked b id parent found := by
  cases h with
  | top => exact .top
  | inside hFound hSource hOlder =>
    obtain ⟨j, hj, hShell⟩ := hKeeps hFound
    exact .inside hj ((Instance.source_eq_of_shell hShell).trans hSource) hOlder

end Keeps

theorem Nearest.unique {instances : Arena .instances Instance} {source : ModuleId}
    {start found found' : Option InstanceId} (h : Nearest instances source start found)
    (h' : Nearest instances source start found') : found = found' := by
  induction h with
  | root =>
    cases h'
    rfl
  | here hGet hSource =>
    cases h' with
    | here => rfl
    | above hGet' hSource' =>
      cases hGet.symm.trans hGet'
      exact absurd hSource hSource'
  | above hGet hSource _ ih =>
    cases h' with
    | here hGet' hSource' =>
      cases hGet.symm.trans hGet'
      exact absurd hSource' hSource
    | above hGet' _ hRest =>
      cases hGet.symm.trans hGet'
      exact ih hRest

theorem Nearest.exists_get {instances : Arena .instances Instance} {source : ModuleId}
    {start : Option InstanceId} {found : InstanceId}
    (h : Nearest instances source start (some found)) :
    ∃ j, instances.get? found = some j ∧ j.source = source := by
  generalize hFound : some found = result at h
  induction h with
  | root => cases hFound
  | here hGet hSource =>
    cases hFound
    exact ⟨_, hGet, hSource⟩
  | above _ _ _ ih => exact ih hFound

theorem Encloses.exists_get {p : Program} {instances : Arena .instances Instance}
    {site : Option InstanceId} {outer : ModuleId} {found : Option InstanceId}
    (h : Encloses p instances site (some outer) found) :
    ∃ id j, found = some id ∧ instances.get? id = some j ∧ j.source = outer := by
  cases h with
  | near hNear =>
    obtain ⟨j, hj, hSource⟩ := hNear.exists_get
    exact ⟨_, j, rfl, hj, hSource⟩
  | alone _ _ hFound hSource => exact ⟨_, _, rfl, hFound, hSource⟩

theorem Encloses.minted {p : Program} {instances : Arena .instances Instance}
    {site parent : Option InstanceId} {outer : Option ModuleId}
    (h : Encloses p instances site outer parent) {id : InstanceId} (hParent : parent = some id) :
    ∃ j, instances.get? id = some j := by
  cases outer with
  | none =>
    cases h
    cases hParent
  | some outer =>
    obtain ⟨_, j, rfl, hj, -⟩ := h.exists_get
    cases hParent
    exact ⟨j, hj⟩

theorem Encloses.linked {p : Program} {instances : Arena .instances Instance}
    {site : Option InstanceId} {parent : Option ModuleId} {found : Option InstanceId}
    (h : Encloses p instances site parent found) :
    Linked instances instances.next parent found := by
  cases parent with
  | none =>
    cases h
    exact .top
  | some outer =>
    obtain ⟨id, j, rfl, hj, hSource⟩ := h.exists_get
    exact .inside hj hSource (Arena.lt_of_get? hj)

end Specializer
