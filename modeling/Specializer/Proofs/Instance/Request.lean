import Specializer.Proofs.Instance.State
import Specializer.Proofs.Instance.WellFormed

/-!
# What a request does

A request takes the state forward by the changes of `Advance`, and its answer is the instance that
it asks for. What is new afterwards is that instance or lies around it. In a well-formed program the
only obstacle is the limit on the number of instances. A request that fails says why: if the tables
are in order and what it names is there, it was refused.
-/

set_option autoImplicit false

namespace Specializer

open TypeStore Update RunState ModuleTree

/-- The second instance is the first one or lies around it. -/
inductive Around (instances : Arena .instances Instance) : InstanceId → InstanceId → Prop where
  | self (id : InstanceId) : Around instances id id
  | outer {id outer last : InstanceId} {i : Instance} (hGet : instances.get? id = some i)
      (hParent : i.parent = some outer) (hRest : Around instances outer last) :
      Around instances id last

theorem Around.keep {a b : Arena .instances Instance} (hKeeps : a.Keeps b) {id last : InstanceId}
    (h : Around a id last) : Around b id last := by
  induction h with
  | self => exact .self _
  | outer hGet hParent _ ih =>
    obtain ⟨j, hj, hShell⟩ := hKeeps hGet
    exact .outer hj ((Instance.parent_eq_of_shell hShell).trans hParent) ih

def LimitReached (p : Program) (e : Failure InstantiationError) (s : RunState) : Prop :=
  p.settings.limits.maxInstances ≤ s.instances.size ∧
    ∃ name span, e = .refused ⟨.tooManyInstances p.settings.limits.maxInstances name, span⟩

/-- The target of a request and the types among its arguments are minted. -/
def Request.Minted (p : Program) (types : TypeStore) (r : Request) : Prop :=
  (∃ m, p.tree.readModule r.target = .ok m) ∧ ∀ type, .type type ∈ r.arguments → types.Minted type

theorem TemplateParam.Fits.length_typeVars {params : List TemplateParam} {arguments : List Argument}
    (h : List.Forall₂ TemplateParam.Fits params arguments) :
    (params.filterMap TemplateParam.var?).length = (arguments.filterMap Argument.type?).length := by
  induction h with
  | nil => rfl
  | cons hFit _ ih =>
    cases hFit with
    | type hKind => simp [TemplateParam.var?, hKind, Argument.type?, ih]
    | value hKind => simp [List.filterMap_cons, TemplateParam.var?, hKind, Argument.type?, ih]

theorem ModuleDecl.isSome_get?_pairing {m : ModuleDecl} {arguments : List Argument}
    (h : List.Forall₂ TemplateParam.Fits m.params arguments) {var : TypeId}
    (hVar : var ∈ m.typeVars) : ((m.pairing arguments).get? var).isSome = true := by
  rw [pairing, Substitution.isSome_get?_ofPairs_iff, List.map_fst_zip]
  · exact hVar
  · exact Nat.le_of_eq (TemplateParam.Fits.length_typeVars h)

theorem Inherits.isSome_get? {p : Program} {instances : Arena .instances Instance}
    {target : ModuleId} {m : ModuleDecl} {arguments : List Argument} {parent : Option InstanceId}
    {sub : Substitution} (h : Inherits p instances target (m.pairing arguments) parent sub)
    (hDecl : p.tree.readModule target = .ok m)
    (hFits : List.Forall₂ TemplateParam.Fits m.params arguments)
    (hParent : ∀ outer, m.parent = some outer → ∃ id j, parent = some id ∧
      instances.get? id = some j ∧ ∀ var, p.tree.InScope outer var →
        (j.substitution.get? var).isSome = true)
    {var : TypeId} (hVar : p.tree.InScope target var) : (sub.get? var).isSome = true := by
  obtain ⟨last, n, hWithin, hRead, hMem⟩ := hVar
  have hOwn : var ∈ m.typeVars → ((m.pairing arguments).get? var).isSome = true :=
    ModuleDecl.isSome_get?_pairing hFits
  rcases (within_iff hDecl).mp hWithin with rfl | ⟨outer, hOuter, hWithin⟩
  · cases hDecl.symm.trans hRead
    cases h with
    | top => exact hOwn hMem
    | inside =>
      rw [Substitution.get?_extend, Option.isSome_or, hOwn hMem, Bool.or_true]
  · obtain ⟨id, j, rfl, hj, hCovers⟩ := hParent outer hOuter
    cases h with
    | inside hGet hVars =>
      cases hj.symm.trans hGet
      have hScope : p.tree.InScope outer var := ⟨last, n, hWithin, hRead, hMem⟩
      have hInherited := (mem_ancestorVars hDecl hVars).mpr ⟨outer, hOuter, hScope⟩
      rw [Substitution.get?_extend, Substitution.get?_only, if_pos hInherited, Option.isSome_or,
        hCovers var hScope, Bool.true_or]

theorem Sound.isSome_get? {p : Program} {s : RunState} (hSound : Sound p s) {id : InstanceId}
    {i : Instance} (hi : s.instances.get? id = some i) {var : TypeId}
    (hVar : p.tree.InScope i.source var) : (i.substitution.get? var).isSome = true := by
  -- Enclosing instances are older, so the induction is on the handle.
  obtain ⟨index⟩ := id
  induction index using Nat.strongRecOn generalizing i var with
  | ind index ih =>
    obtain ⟨m, hFormed⟩ := hSound.formed hi
    refine hFormed.inherits.isSome_get? hFormed.decl hFormed.fits ?_ hVar
    intro outer hOuter
    have hLinked := hFormed.linked
    rw [hOuter] at hLinked
    obtain ⟨found, j, hParent, hFound, rfl, hOlder⟩ := hLinked.exists_found
    exact ⟨found, j, hParent, hFound, fun var hVar => ih found.index hOlder hVar hFound⟩

theorem findInChainWithin_nearest {instances : Arena .instances Instance} {source : ModuleId}
    {depth : Nat} {start found : Option InstanceId}
    (h : Run.findInChainWithin instances source depth start = .ok found) :
    Nearest instances source start found := by
  induction depth generalizing start with
  | zero =>
    cases start with
    | none =>
      cases h
      exact .root
    | some id => cases h
  | succ depth ih =>
    cases start with
    | none =>
      cases h
      exact .root
    | some id =>
      rw [Run.findInChainWithin] at h
      obtain ⟨i, hi, h⟩ := Read.bind_eq_ok_iff.mp h
      have hGet := (Arena.read_eq_ok_iff _ _ _).mp hi
      split at h
      case isTrue hSource =>
        cases h
        exact .here hGet hSource
      case isFalse hSource => exact .above hGet hSource (ih h)

/-- The instance around another one is an older one, of the parent of its source. -/
theorem Sound.exists_around {p : Program} {s : RunState} (hSound : Sound p s)
    {id outer : InstanceId} {i : Instance} (hi : s.instances.get? id = some i)
    (hParent : i.parent = some outer) :
    ∃ m j, p.tree.readModule i.source = .ok m ∧ s.instances.get? outer = some j ∧
      m.parent = some j.source ∧ outer.index < id.index := by
  obtain ⟨m, hFormed⟩ := hSound.formed hi
  have hLinked := hFormed.linked
  rw [hParent] at hLinked
  obtain ⟨_, j, hOuter, hj, rfl, hOlder⟩ := hLinked.exists_outer
  exact ⟨m, j, hFormed.decl, hj, hOuter, hOlder⟩

theorem Sound.exists_findInChainWithin {p : Program} {s : RunState} (hSound : Sound p s)
    (source : ModuleId) {depth : Nat} {start : Option InstanceId}
    (h : ∀ id, start = some id → id.index < depth ∧ ∃ i, s.instances.get? id = some i) :
    ∃ found, Run.findInChainWithin s.instances source depth start = .ok found := by
  induction depth generalizing start with
  | zero =>
    cases start with
    | none => exact ⟨none, rfl⟩
    | some id => exact absurd (h id rfl).1 (Nat.not_lt_zero _)
  | succ depth ih =>
    cases start with
    | none => exact ⟨none, rfl⟩
    | some id =>
      obtain ⟨hDepth, i, hi⟩ := h id rfl
      rw [Run.findInChainWithin]
      refine Read.exists_bind_eq_ok ⟨i, (Arena.read_eq_ok_iff _ _ _).mpr hi⟩ fun other hOther => ?_
      cases hi.symm.trans ((Arena.read_eq_ok_iff _ _ _).mp hOther)
      split
      · exact ⟨_, rfl⟩
      · refine ih fun outer hOuter => ?_
        obtain ⟨_, j, -, hFound, -, hOlder⟩ := hSound.exists_around hi hOuter
        exact ⟨by omega, j, hFound⟩

theorem Sound.exists_findInChain {p : Program} {s : RunState} (hSound : Sound p s)
    (source : ModuleId) {start : Option InstanceId}
    (hStart : ∀ id, start = some id → ∃ i, s.instances.get? id = some i) : ∃ found,
      Run.findInChainWithin s.instances source (s.instances.size + 1) start = .ok found := by
  refine hSound.exists_findInChainWithin source fun id hId => ?_
  obtain ⟨i, hi⟩ := hStart id hId
  exact ⟨Nat.lt_succ_of_lt (Arena.lt_of_get? hi), i, hi⟩

theorem Answers.source_eq {p : Program} {s : RunState} {r : Request} {id : InstanceId}
    (h : Answers p s r id) : ∃ i, s.instances.get? id = some i ∧ i.source = r.target := by
  obtain ⟨m, actuals, i, hResolves, hi⟩ := h
  exact ⟨i, hi, congrArg Key.source hResolves.key_eq⟩

/-- The program is well formed and the type store in order. -/
structure Orderly (p : Program) (s : RunState) : Prop where
  wellFormed : ∃ types, p.WellFormed types ∧ types.Extends s.types
  sane : s.types.Sane p.symbols

theorem Orderly.steps {p : Program} {s t : RunState} (h : Orderly p s) (hSteps : Steps p s t) :
    Orderly p t := by
  obtain ⟨types, hTypes, hExt⟩ := h.wellFormed
  exact ⟨⟨types, hTypes, hExt.trans hSteps.grows.types⟩, hSteps.sane h.sane⟩

theorem Resolves.closed {p : Program} {s : RunState} {r : Request} {m : ModuleDecl}
    {actuals : List Argument} {key : Key} (h : Resolves p s r m actuals key) (hSound : Sound p s)
    {type : TypeId} (hType : .type type ∈ actuals) : s.types.Closed type := by
  obtain ⟨site, hSite, hGiven⟩ := h.given
  exact Argument.Image.closed hSound hSite hGiven hType

theorem Resolves.closedIn {p : Program} {s : RunState} {r : Request} {m : ModuleDecl}
    {actuals : List Argument} {key : Key} (h : Resolves p s r m actuals key) (hSound : Sound p s) :
    key.substitution.ClosedIn s.types :=
  h.inherits.closed hSound (m.closedIn_pairing fun _ => h.closed hSound)

/-- What is enough for a request to be granted, unless the limit is in its way. -/
structure Ready (p : Program) (s : RunState) (r : Request) : Prop where
  orderly : Orderly p s
  target : ∃ m, p.tree.readModule r.target = .ok m ∧
    List.Forall₂ TemplateParam.Fits m.params r.arguments ∧ ∀ outer, m.parent = some outer →
      (∃ found, Nearest s.instances outer r.site (some found)) ∨ p.tree.Plain outer
  visible : ∃ sub, SiteSub s.instances r.site sub ∧
    ∀ type, .type type ∈ r.arguments → s.types.Covers sub type

theorem Orderly.ready {p : Program} {s : RunState} (h : Orderly p s) {target : ModuleId}
    (hPlain : p.tree.Plain target) : Ready p s ⟨none, target, []⟩ := by
  obtain ⟨m, hDecl, hParams⟩ := hPlain target (.self target)
  refine ⟨h, ⟨m, hDecl, ?_, fun outer hOuter => .inr (hPlain.outer hDecl hOuter)⟩,
    .empty, .outside, fun _ h => nomatch h⟩
  rw [hParams]
  exact .nil

theorem Ready.steps {p : Program} {s t : RunState} {r : Request} (h : Ready p s r)
    (hSteps : Steps p s t) : Ready p t r := by
  have hGrows := hSteps.grows
  obtain ⟨m, hDecl, hFits, hPlace⟩ := h.target
  obtain ⟨sub, hSub, hCovers⟩ := h.visible
  refine ⟨h.orderly.steps hSteps, ⟨m, hDecl, hFits, fun outer hOuter => ?_⟩,
    sub, hSub.keep hGrows.instances, fun type hType => (hCovers type hType).extend hGrows.types⟩
  exact (hPlace outer hOuter).imp_left fun ⟨found, hNear⟩ => ⟨found, hNear.keep hGrows.instances⟩

theorem Ready.creatable {p : Program} {s : RunState} {r : Request} {m : ModuleDecl}
    {actuals : List Argument} {key : Key} (h : Ready p s r) (hSound : Sound p s)
    (hResolves : Resolves p s r m actuals key) : Creatable p s key actuals := by
  obtain ⟨types, hTypes, hExt⟩ := h.orderly.wellFormed
  obtain ⟨site, hSite, hGiven⟩ := hResolves.given
  refine ⟨h.orderly.sane, fun outer hOuter => hResolves.parent.minted hOuter,
    fun type hType => (hResolves.closed hSound hType).minted, m, ?_, ?_⟩
  · rw [hResolves.key_eq]
    exact hResolves.decl
  · refine (hTypes.buildable hResolves.decl fun var hVar => ?_).extend hExt
    refine hResolves.inherits.isSome_get? hResolves.decl
      (Argument.Image.fits hResolves.fits hGiven) ?_ hVar
    intro outer hOuter
    have hEncloses := hResolves.parent
    rw [hOuter] at hEncloses
    obtain ⟨id, j, hParent, hj, rfl⟩ := hEncloses.exists_get
    exact ⟨id, j, hParent, hj, fun var hVar => hSound.isSome_get? hj hVar⟩

theorem Ready.plain {p : Program} {s : RunState} {r : Request} {m : ModuleDecl} {outer : ModuleId}
    (h : Ready p s r) (hDecl : p.tree.readModule r.target = .ok m) (hParent : m.parent = some outer)
    (hNear : Nearest s.instances outer r.site none) :
    p.tree.Plain outer ∧ p.tree.isMonomorphicChain outer = .ok true := by
  obtain ⟨types, hTypes, -⟩ := h.orderly.wellFormed
  obtain ⟨other, hOther, -, hPlace⟩ := h.target
  cases hDecl.symm.trans hOther
  rcases hPlace outer hParent with ⟨found, hFound⟩ | hPlain
  · cases hNear.unique hFound
  · obtain ⟨n, hOuter, -⟩ := hPlain outer (.self outer)
    obtain ⟨answer, hAnswer, hIff⟩ := isMonomorphicChain_eq hTypes.parentsFirst.ranked hOuter
    rw [hAnswer, hIff.mpr hPlain]
    exact ⟨hPlain, rfl⟩

theorem Ready.declared {p : Program} {s : RunState} {r : Request} {m : ModuleDecl}
    (h : Ready p s r) (hDecl : p.tree.readModule r.target = .ok m) :
    List.Forall₂ TemplateParam.Fits m.params r.arguments ∧ p.HasText m.name ∧
      m.scheme.bound = m.typeVars := by
  obtain ⟨types, hTypes, -⟩ := h.orderly.wellFormed
  obtain ⟨other, hOther, hFits, -⟩ := h.target
  cases hDecl.symm.trans hOther
  exact ⟨hFits, (hTypes.modules hDecl).name, (hTypes.modules hDecl).quantified⟩

/-- A request that was granted: its answer is there, and what is new is that or lies around it. An
answer that is new has the arguments of this request. -/
structure Granted (p : Program) (r : Request) (s : RunState) (id : InstanceId) (t : RunState) :
    Prop where
  advances : Advances p s t
  tallied : Tallied s t
  answers : Answers p t r id
  made : ∀ ⦃i⦄, t.instances.get? id = some i → s.instances.get? id = none →
    ∃ m, Resolves p t r m i.arguments i.key
  around : ∀ ⦃new j⦄, t.instances.get? new = some j → s.instances.get? new = none →
    Around t.instances id new

def ModuleTree.EnclosedBy (t : ModuleTree) (target source : ModuleId) : Prop :=
  ∃ m outer, t.readModule target = .ok m ∧ m.parent = some outer ∧ t.Within outer source

/-- A request that failed: what is new belongs to modules around the one that it names. -/
structure Denied (p : Program) (r : Request) (s t : RunState) : Prop where
  advances : Advances p s t
  outer : ∀ ⦃new j⦄, t.instances.get? new = some j → s.instances.get? new = none →
    p.tree.EnclosedBy r.target j.source

theorem Denied.of_same {p : Program} {r : Request} {s t : RunState} (h : Advances p s t)
    (hSame : t.instances = s.instances) : Denied p r s t := by
  refine ⟨h, fun new j hNew hOld => ?_⟩
  rw [hSame] at hNew
  cases hOld.symm.trans hNew

theorem Denied.refl (p : Program) (r : Request) (s : RunState) : Denied p r s s :=
  .of_same .refl rfl

theorem Sound.within_of_around {p : Program} {s : RunState} (hSound : Sound p s)
    {id last : InstanceId} (h : Around s.instances id last) {i j : Instance}
    (hi : s.instances.get? id = some i) (hj : s.instances.get? last = some j) :
    p.tree.Within i.source j.source := by
  induction h generalizing i with
  | self =>
    cases hi.symm.trans hj
    exact .self _
  | outer hGet hParent _ ih =>
    cases hi.symm.trans hGet
    obtain ⟨m, k, hDecl, hk, hOuter, -⟩ := hSound.exists_around hi hParent
    exact .outer hDecl hOuter (ih hk hj)

theorem Sound.index_le_of_around {p : Program} {s : RunState} (hSound : Sound p s)
    {id last : InstanceId} (h : Around s.instances id last) : last.index ≤ id.index := by
  induction h with
  | self => exact Nat.le_refl _
  | outer hGet hParent _ ih =>
    obtain ⟨_, _, -, -, -, hOlder⟩ := hSound.exists_around hGet hParent
    omega

/-- The instance of a key was found or made: it is there, and nothing else is new. -/
structure Obtained (p : Program) (s : RunState) (key : Key) (actuals : List Argument)
    (id : InstanceId) (t : RunState) : Prop where
  advances : Advances p s t
  tallied : Tallied s t
  found : ∃ i, t.instances.get? id = some i ∧ i.key = key ∧
    (s.instances.get? id = none → i.arguments = actuals)
  only : ∀ ⦃new j⦄, t.instances.get? new = some j → s.instances.get? new = none → new = id

section Obtained

variable {p : Program} {s t : RunState} {key : Key} {actuals : List Argument} {id : InstanceId}
  {i : Instance}

theorem Obtained.of_hit (hi : s.instances.get? id = some i) (hKey : i.key = key)
    (hRetyped : Retyped p { s with stats := { s.stats with hits := s.stats.hits + 1 } } t) :
    Obtained p s key actuals id t where
  advances := .tail (.single (.hit s)) (.retyped hRetyped)
  tallied := by
    have hHit : Tallied s { s with stats := { s.stats with hits := s.stats.hits + 1 } } :=
      ⟨rfl, rfl⟩
    exact hHit.trans hRetyped.tallied
  found := by
    refine ⟨i, by rw [hRetyped.instances_eq]; exact hi, hKey, fun hOld => ?_⟩
    cases hOld.symm.trans hi
  only new j hNew hOld := by
    rw [hRetyped.instances_eq] at hNew
    cases hOld.symm.trans hNew

theorem Obtained.of_miss {r : Request} {m : ModuleDecl} {closures : List Closure}
    (hResolves : Resolves p s r m i.arguments i.key) (hFind : s.cache.find? i.key = none)
    (hRoom : s.instances.size < p.settings.limits.maxInstances)
    (hRetyped : Retyped p { s with stats := { s.stats with misses := s.stats.misses + 1 } } t)
    (hFresh : Fresh p t m i closures) :
    Obtained p s i.key i.arguments i.id (t.enroll i closures) where
  advances := by
    have hReached : Advances p s t := .tail (.single (.miss s)) (.retyped hRetyped)
    have hAbsent : t.cache.find? i.key = none := by rw [hRetyped.cache_eq, hFind]
    have hSize : t.instances.size < p.settings.limits.maxInstances := by
      rwa [hRetyped.instances_eq]
    exact .tail hReached (.enter hFresh (hResolves.grow hReached.steps.grows) hAbsent hSize)
  tallied := by
    obtain ⟨hMisses, hProcessed⟩ := hRetyped.tallied
    constructor
    · simp only [enroll, RunState.enter, Arena.size_push] at hMisses ⊢
      omega
    · simp only [enroll, RunState.enter, Arena.size_push, Queue.size_push] at hProcessed ⊢
      omega
  found := by
    refine ⟨i, ?_, rfl, fun _ => rfl⟩
    rw [hFresh.id_eq]
    exact Arena.get?_push_next _ _
  only new j hNew hOld := by
    rcases get?_enroll hFresh.id_eq hNew with ⟨hSame, -⟩ | hThen
    · exact hSame
    · rw [hRetyped.instances_eq] at hThen
      cases hOld.symm.trans hThen

end Obtained

namespace Run

variable {p : Program} {s : RunState}

theorem findInChain_ensures (hSound : Sound p s) (source : ModuleId) {start : Option InstanceId}
    (hStart : ∀ id, start = some id → ∃ i, s.instances.get? id = some i) :
    (findInChain start source).Ensures s
      (fun found t => t = s ∧ Nearest s.instances source start found) (fun _ _ => False) := by
  unfold findInChain
  refine Ensures.bindGet
    (Ensures.read (fun found hFound => ⟨rfl, findInChainWithin_nearest hFound⟩) ?_)
  intro reason hReason
  obtain ⟨found, hFound⟩ := hSound.exists_findInChain source hStart
  cases hFound.symm.trans hReason

theorem siteSubstitution_ensures {site : Option InstanceId}
    (hSite : ∀ id, site = some id → ∃ i, s.instances.get? id = some i) :
    (siteSubstitution site).Ensures s (fun sub t => t = s ∧ SiteSub s.instances site sub)
      (fun _ _ => False) := by
  cases site with
  | none => exact ⟨rfl, .outside⟩
  | some id =>
    refine Ensures.bind (readInstance_ensures id s) ?_ ?_
    · rintro i _ ⟨rfl, hi⟩
      exact ⟨rfl, .inside hi⟩
    · rintro _ _ ⟨rfl, hNone⟩
      obtain ⟨i, hi⟩ := hSite id rfl
      cases hNone.symm.trans hi

theorem newArgument_ensures (name : String) {site : Substitution} (span : Span)
    (entry : (TemplateParam × Argument) × Nat) (hSite : site.ClosedIn s.types) :
    (newArgument p name site span entry).Ensures s
      (fun actual t => Retyped p s t ∧ entry.1.1.Fits entry.1.2 ∧
        entry.1.2.Image t.types site actual)
      (fun e t => Retyped p s t ∧
        ¬(s.types.Sane p.symbols ∧ entry.1.1.Fits entry.1.2 ∧
          ∀ type, entry.1.2 = .type type → s.types.Covers site type) ∧
        e.Explained p s.types (∀ type, entry.1.2 = .type type → s.types.Minted type)) := by
  obtain ⟨⟨param, argument⟩, index⟩ := entry
  unfold newArgument
  dsimp only
  split
  case h_1 var type hKind =>
    refine Ensures.bind (concretize_ensures p type span (.pure _) hSite) ?_ ?_
    · rintro image t ⟨hRetyped, hImage⟩
      exact ⟨hRetyped, .type hKind, .type hImage⟩
    · rintro e t ⟨hRetyped, hNot, hExplained⟩
      exact ⟨hRetyped, fun h => hNot ⟨h.1, h.2.2 type rfl⟩,
        hExplained.mono fun _ h => ⟨h type rfl, _, rfl⟩⟩
  case h_2 type value hKind => exact ⟨.refl p s, .value hKind, .value value⟩
  case h_3 hNotType hNotValue =>
    refine Ensures.refuse ⟨.refl p s, ?_, .refused _⟩
    rintro ⟨-, hFits, -⟩
    cases hFits with
    | type hKind => exact hNotType _ _ hKind rfl
    | value hKind => exact hNotValue _ _ hKind rfl

theorem newArguments_ensures (name : String) {site : Substitution} (span : Span)
    {params : List TemplateParam} {arguments : List Argument}
    (hLength : arguments.length = params.length) (hSite : site.ClosedIn s.types) :
    ((params.zip arguments).zipIdx.mapM (newArgument p name site span)).Ensures s
      (fun actuals t => Retyped p s t ∧ List.Forall₂ TemplateParam.Fits params arguments ∧
        List.Forall₂ (Argument.Image t.types site) arguments actuals)
      (fun e t => Retyped p s t ∧
        ¬(s.types.Sane p.symbols ∧ List.Forall₂ TemplateParam.Fits params arguments ∧
          ∀ type, .type type ∈ arguments → s.types.Covers site type) ∧
        e.Explained p s.types (∀ type, .type type ∈ arguments → s.types.Minted type)) := by
  refine (Ensures.mapM (I := Retyped p s) (L := Retyped p)
    (R := fun t entry actual => entry.1.1.Fits entry.1.2 ∧ entry.1.2.Image t.types site actual)
    (.refl p) (fun _ _ _ => .trans) ?_ ?_ (.refl p s)).mono ?_ fun _ _ h => h
  · rintro t u entry actual hRetyped ⟨hFits, hImage⟩
    exact ⟨hFits, hImage.extend hRetyped.grown⟩
  · intro entry hEntry t hRetyped
    refine (newArgument_ensures name span entry (hSite.extend hRetyped.grown)).mono ?_ ?_
    · rintro actual u ⟨hRetyped', hFits, hImage⟩
      exact ⟨hRetyped.trans hRetyped', hRetyped', hFits, hImage⟩
    · rintro e u ⟨hRetyped', hNot, hExplained⟩
      have hMem : entry.1.2 ∈ arguments :=
        (List.of_mem_zip (List.fst_mem_of_mem_zipIdx hEntry)).2
      refine ⟨hRetyped.trans hRetyped', fun h => hNot ⟨hRetyped.sane h.1, ?_, fun type hType => ?_⟩,
        hRetyped.explained hExplained fun _ h type hType => ?_⟩
      · exact (List.forall₂_iff_zip.mp h.2.1).2 (List.fst_mem_of_mem_zipIdx hEntry)
      · exact (h.2.2 type (hType ▸ hMem)).extend hRetyped.grown
      · exact (h type (hType ▸ hMem)).extend hRetyped.grown
  · rintro actuals t ⟨hRetyped, -, hEach⟩
    have hZip : List.Forall₂ (fun entry actual => entry.1.Fits entry.2 ∧
        entry.2.Image t.types site actual) (params.zip arguments) actuals := by
      rwa [← List.zipIdx_map_fst 0 (params.zip arguments), List.forall₂_map_left_iff]
    refine ⟨hRetyped, ?_, ?_⟩
    · refine List.forall₂_iff_zip.mpr ⟨hLength.symm, fun hMem => ?_⟩
      obtain ⟨_, -, hFits, -⟩ := exists_mem_right_of_forall₂ hZip hMem
      exact hFits
    · rw [← List.map_snd_zip (Nat.le_of_eq hLength), List.forall₂_map_left_iff]
      exact hZip.imp fun _ _ h => h.2

theorem ownSubstitution_eq_ok {m : ModuleDecl} {name : String} {actuals : List Argument}
    {own : Substitution}
    (h : ownSubstitution m name (actuals.filterMap Argument.type?) = .ok own) :
    own = m.pairing actuals := by
  unfold ownSubstitution at h
  split at h
  case isTrue hEmpty =>
    cases h
    rw [ModuleDecl.pairing, ModuleDecl.typeVars, List.isEmpty_iff.mp hEmpty]
    rfl
  case isFalse =>
    split at h
    · cases h
    · split at h
      · cases h
      · cases h
        rfl

theorem ownSubstitution_eq_error {m : ModuleDecl} {name : String} {actuals : List Argument}
    {refusal : Refusal} (hFits : List.Forall₂ TemplateParam.Fits m.params actuals)
    (h : ownSubstitution m name (actuals.filterMap Argument.type?) = .error refusal) :
    m.scheme.bound ≠ m.typeVars := by
  intro hBound
  have hTypes : m.typeVars.length = (actuals.filterMap Argument.type?).length :=
    TemplateParam.Fits.length_typeVars hFits
  unfold ownSubstitution at h
  split at h
  · cases h
  · split at h
    case isTrue hArity => exact hArity (by rw [hBound, hTypes])
    case isFalse =>
      split at h
      case h_1 var hVar =>
        have hMissing := List.find?_some hVar
        have hMem := List.mem_of_find?_eq_some hVar
        rw [hBound] at hMissing
        simp [hMem] at hMissing
      case h_2 => cases h

theorem inherit_ensures {target : ModuleId} {m : ModuleDecl}
    (hDecl : p.tree.readModule target = .ok m) (own : Substitution) {parent : Option InstanceId}
    (hParent : ∀ outer, parent = some outer → ∃ j, s.instances.get? outer = some j) :
    (inherit p target own parent).Ensures s
      (fun sub t => t = s ∧ Inherits p s.instances target own parent sub)
      (fun _ t => t = s ∧ ¬p.tree.ParentsFirst) := by
  cases parent with
  | none => exact ⟨rfl, .top⟩
  | some outer =>
    obtain ⟨j, hj⟩ := hParent outer rfl
    refine Ensures.bind (readInstance_of_get? hj) ?_ fun _ _ h => h
    rintro _ _ ⟨rfl, rfl⟩
    refine Ensures.bindRead (fun vars hVars => ⟨rfl, .inside hj hVars⟩)
      fun reason hReason => ⟨rfl, fun hParents => ?_⟩
    obtain ⟨vars, hVars⟩ := exists_ancestorVars hParents.ranked hDecl
    cases hVars.symm.trans hReason

section Obtain

variable {key : Key} (name : String) (span : Span) (arguments : List Argument)

theorem obtain_of_hit {id : InstanceId} (hFind : s.cache.find? key = some id) :
    obtain p name span key arguments s = (do
      modify fun s => { s with stats := { s.stats with hits := s.stats.hits + 1 } }
      log p (.traced .instances ("cache hit: " ++ (← readInstance id).name))
      return id : Run InstanceId) s := by
  refine (bind_of_ok (t := s) rfl).trans ?_
  rw [hFind]
  rfl

theorem obtain_of_full (hFind : s.cache.find? key = none)
    (hFull : p.settings.limits.maxInstances ≤ s.instances.size) :
    obtain p name span key arguments s = (refuse span
      (.tooManyInstances p.settings.limits.maxInstances name) : Run InstanceId) s := by
  refine (bind_of_ok (t := s) rfl).trans ?_
  rw [hFind]
  dsimp only
  rw [if_pos hFull]
  rfl

theorem obtain_of_miss (hFind : s.cache.find? key = none)
    (hRoom : ¬p.settings.limits.maxInstances ≤ s.instances.size) :
    obtain p name span key arguments s = (do
      modify fun s => { s with stats := { s.stats with misses := s.stats.misses + 1 } }
      let id ← create p key arguments
      modify fun s => { s with cache := s.cache.insert key id, worklist := s.worklist.push id }
      return id : Run InstanceId) s := by
  refine (bind_of_ok (t := s) rfl).trans ?_
  rw [hFind]
  dsimp only
  rw [if_neg hRoom]
  rfl

end Obtain

/-- Looking a key up, or creating its instance, advances the state. Only that instance can be
new. -/
theorem obtain_ensures (name : String) (span : Span) {r : Request} {m : ModuleDecl}
    {actuals : List Argument} {key : Key} (hSound : Sound p s)
    (hResolves : Resolves p s r m actuals key) :
    (obtain p name span key actuals).Ensures s (Obtained p s key actuals)
      (fun e t => Advances p s t ∧ t.instances = s.instances ∧
        (Creatable p s key actuals → LimitReached p e t) ∧ e.Explained p s.types True) := by
  cases hFind : s.cache.find? key with
  | some id =>
    obtain ⟨i, hi, hKey⟩ := hSound.filed hFind
    apply Ensures.congr (obtain_of_hit name span actuals hFind)
    apply Ensures.bindModify
    apply Ensures.bind (readInstance_of_get?
      (s := { s with stats := { s.stats with hits := s.stats.hits + 1 } }) hi) _ fun _ _ h => h
    rintro _ _ ⟨rfl, rfl⟩
    apply Ensures.bind (log_ensures p _ _) _ fun _ _ h => h
    exact fun _ t h => .of_hit hi hKey h.1
  | none =>
    by_cases hFull : p.settings.limits.maxInstances ≤ s.instances.size
    · apply Ensures.congr (obtain_of_full name span actuals hFind hFull)
      exact ⟨.refl, rfl, fun _ => ⟨hFull, name, span, rfl⟩, .refused _⟩
    · apply Ensures.congr (obtain_of_miss name span actuals hFind hFull)
      refine Ensures.bindModify (Ensures.bind (create_ensures (hResolves.closedIn hSound)
        (fun outer => hResolves.parent.minted) fun type hType =>
          (hResolves.closed hSound hType).minted) ?_ ?_)
      · rintro id t
          ⟨u, n, i, closures, hRetyped, hFresh, hSource, hParent, hSub, rfl, rfl, rfl⟩
        have hKey : i.key = key := by
          rw [hResolves.key_eq, Instance.key, hSource, hParent, hSub, hResolves.key_eq]
          rfl
        have hDecl := hFresh.decl
        rw [hSource, hResolves.key_eq] at hDecl
        cases hResolves.decl.symm.trans hDecl
        subst hKey
        exact .of_miss hResolves hFind (Nat.lt_of_not_le hFull) hRetyped hFresh
      · rintro e t ⟨hRetyped, hNot, hExplained⟩
        refine ⟨.tail (.single (.miss s)) (.retyped hRetyped), hRetyped.instances_eq,
          fun h => absurd ?_ hNot, hExplained.mono fun _ _ => ⟨m, ?_⟩⟩
        · exact ⟨h.sane, h.parent, h.arguments, h.source⟩
        · rw [hResolves.key_eq]
          exact hResolves.decl

/-- The enclosing instance is found, or requested on its own. What is new lies around the new
one. -/
theorem enclosing_ensures {again : ModuleId → Span → Run InstanceId} {r : Request} {m : ModuleDecl}
    {C : Prop} (name : String) (span : Span) (hSound : Sound p s)
    (hSite : ∀ id, r.site = some id → ∃ i, s.instances.get? id = some i)
    (hDecl : p.tree.readModule r.target = .ok m)
    (hAgain : ∀ outer, m.parent = some outer → ∀ span, (again outer span).Ensures s
      (Granted p ⟨none, outer, []⟩ s)
      (fun e t => Denied p ⟨none, outer, []⟩ s t ∧
        (Ready p s ⟨none, outer, []⟩ → C → LimitReached p e t) ∧
        (C → e.Explained p s.types (Request.Minted p s.types ⟨none, outer, []⟩)))) :
    (enclosing p again m name r.site span).Ensures s
      (fun parent t => Advances p s t ∧ Tallied s t ∧
        Encloses p t.instances r.site m.parent parent ∧ ∀ new j, t.instances.get? new = some j →
          s.instances.get? new = none → ∃ outer, parent = some outer ∧
            Around t.instances outer new ∧ p.tree.EnclosedBy r.target j.source)
      (fun e t => Denied p r s t ∧ (Ready p s r → C → LimitReached p e t) ∧
        (C → e.Explained p s.types True)) := by
  have hNothing : ∀ new j, s.instances.get? new = some j → s.instances.get? new = none → False :=
    fun new j hNew hOld => by cases hOld.symm.trans hNew
  unfold enclosing
  cases hParent : m.parent with
  | none =>
    exact ⟨.refl, .refl s, .top, fun new j hNew hOld => (hNothing new j hNew hOld).elim⟩
  | some outer =>
    refine Ensures.bind (findInChain_ensures hSound outer hSite) ?_ fun _ _ h => h.elim
    rintro found s ⟨rfl, hNear⟩
    cases found with
    | some found =>
      exact ⟨.refl, .refl s, .near hNear, fun new j hNew hOld => (hNothing new j hNew hOld).elim⟩
    | none =>
      refine Ensures.bindRead (fun answer hMono => ?_)
        fun reason hReason => ⟨.refl p r s, fun h => ?_, fun _ => ?_⟩
      · cases answer with
        | true =>
          refine Ensures.bindRead (fun n hOuter => ?_)
            fun reason hReason => ⟨.refl p r s, fun h => ?_, fun _ => ?_⟩
          · refine Ensures.bind (hAgain outer hParent n.span) ?_ ?_
            · intro id t hGranted
              obtain ⟨j, hj, hSource⟩ := hGranted.answers.source_eq
              have hNear' := hNear.keep hGranted.advances.steps.grows.instances
              refine ⟨hGranted.advances, hGranted.tallied, .alone hNear' hMono hj hSource,
                fun new k hk hOld => ?_⟩
              have hAround := hGranted.around hk hOld
              have hWithin := (hSound.steps hGranted.advances.steps).within_of_around hAround hj hk
              rw [hSource] at hWithin
              exact ⟨id, rfl, hAround, m, outer, hDecl, hParent, hWithin⟩
            · rintro e t ⟨hDenied, hLimit, hExplained⟩
              refine ⟨⟨hDenied.advances, fun new j hj hOld => ?_⟩,
                fun h => hLimit (h.orderly.ready (plain_of_isMonomorphicChain hMono)),
                fun hC => (hExplained hC).mono fun hLegible _ => ?_⟩
              · obtain ⟨n, next, hNext, hAbove, hWithin⟩ := hDenied.outer hj hOld
                exact ⟨m, outer, hDecl, hParent, .outer hNext hAbove hWithin⟩
              · exact ⟨hLegible.exists_parent hDecl hParent, fun _ h => absurd h List.not_mem_nil⟩
          · obtain ⟨n, hOuter, -⟩ := (h.plain hDecl hParent hNear).1 outer (.self outer)
            cases hOuter.symm.trans hReason
          · exact .of_arena hReason fun hLegible _ => hLegible.exists_parent hDecl hParent
        | false =>
          refine Ensures.refuse ⟨.refl p r s, fun h => ?_, fun _ => .refused _⟩
          cases hMono.symm.trans (h.plain hDecl hParent hNear).2
      · cases (h.plain hDecl hParent hNear).2.symm.trans hReason
      · -- The enclosing module is older, so that it is there to be read.
        refine .of_read hReason fun hOrdered => ?_
        obtain ⟨n, hOuter⟩ := hOrdered.parents.ranked.minted hDecl hParent
        obtain ⟨answer, hAnswer, -⟩ := isMonomorphicChain_eq hOrdered.parents.ranked hOuter
        exact .of_exists ⟨answer, hAnswer⟩

theorem settle_ensures {again : ModuleId → Span → Run InstanceId} {r : Request} {m : ModuleDecl}
    {C : Prop} {actuals : List Argument} {site : Substitution} (name : String) (span : Span)
    (hSound : Sound p s) (hSite : ∀ id, r.site = some id → ∃ i, s.instances.get? id = some i)
    (hDecl : p.tree.readModule r.target = .ok m)
    (hFits : List.Forall₂ TemplateParam.Fits m.params r.arguments)
    (hSiteSub : SiteSub s.instances r.site site)
    (hGiven : List.Forall₂ (Argument.Image s.types site) r.arguments actuals)
    (hAgain : ∀ outer, m.parent = some outer → ∀ span, (again outer span).Ensures s
      (Granted p ⟨none, outer, []⟩ s)
      (fun e t => Denied p ⟨none, outer, []⟩ s t ∧
        (Ready p s ⟨none, outer, []⟩ → C → LimitReached p e t) ∧
        (C → e.Explained p s.types (Request.Minted p s.types ⟨none, outer, []⟩)))) :
    (do
      let parent ← enclosing p again m name r.site span
      let substitution ← inherit p r.target (m.pairing actuals) parent
      obtain p name span (Key.of r.target parent substitution actuals) actuals).Ensures s
      (Granted p r s) (fun e t => Denied p r s t ∧ (Ready p s r → C → LimitReached p e t) ∧
        (C → e.Explained p s.types True)) := by
  refine Ensures.bind (enclosing_ensures name span hSound hSite hDecl hAgain) ?_ fun _ _ h => h
  rintro parent t ⟨hBefore, hTallied, hEncloses, hNew⟩
  have hGrows := hBefore.steps.grows
  have hSoundT := hSound.steps hBefore.steps
  refine Ensures.bind (inherit_ensures hDecl (m.pairing actuals) fun outer => hEncloses.minted)
    ?_ ?_
  · rintro sub t ⟨rfl, hInherits⟩
    have hResolves : Resolves p t r m actuals (.of r.target parent sub actuals) :=
      ⟨hDecl, hFits, ⟨site, hSiteSub.keep hGrows.instances,
        hGiven.imp fun _ _ h => h.extend hGrows.types⟩, hEncloses, hInherits, rfl⟩
    refine (obtain_ensures name span hSoundT hResolves).mono ?_ ?_
    · rintro id u ⟨hAfter, hTallied', ⟨i, hi, hKey, hMade⟩, hNew'⟩
      have hThere : Resolves p u r m actuals i.key := by
        rw [hKey]
        exact hResolves.grow hAfter.steps.grows
      refine ⟨hBefore.trans hAfter, hTallied.trans hTallied', ⟨m, actuals, i, hThere, hi⟩,
        fun j hj hOld => ?_, fun new j hj hOld => ?_⟩
      · cases hi.symm.trans hj
        refine ⟨m, ?_⟩
        rw [hMade ?_]
        · exact hThere
        -- What the search for the enclosing instance has made is older than its answer.
        cases hMiddle : t.instances.get? id with
        | none => rfl
        | some k =>
          obtain ⟨outer, hParent, hAround, -⟩ := hNew id k hMiddle hOld
          have hKeyParent : i.parent = parent := congrArg Key.parent hKey
          obtain ⟨_, _, -, -, -, hOlder⟩ :=
            (hSoundT.steps hAfter.steps).exists_around hi (hKeyParent.trans hParent)
          exact absurd hOlder (Nat.not_lt.mpr (hSoundT.index_le_of_around hAround))
      · -- Either `obtain` made it, or finding the enclosing instance had.
        cases hMiddle : t.instances.get? new with
        | none =>
          rw [hNew' hj hMiddle]
          exact .self id
        | some k =>
          obtain ⟨outer, rfl, hAround, -⟩ := hNew new k hMiddle hOld
          have hParent : i.parent = some outer := congrArg Key.parent hKey
          exact .outer hi hParent (hAround.keep hAfter.steps.grows.instances)
    · rintro e u ⟨hAfter, hSame, hLimit, hExplained⟩
      refine ⟨⟨hBefore.trans hAfter, fun new j hj hOld => ?_⟩, fun h _ => hLimit ?_,
        fun _ => hBefore.steps.explained hExplained fun _ h => h⟩
      · rw [hSame] at hj
        obtain ⟨outer, -, -, hOuter⟩ := hNew new j hj hOld
        exact hOuter
      · exact (h.steps hBefore.steps).creatable hSoundT hResolves
  · rintro e t ⟨rfl, hNot⟩
    refine ⟨⟨hBefore, fun new j hj hOld => ?_⟩, fun h => absurd ?_ hNot,
      fun _ hOrdered => absurd hOrdered.parents hNot⟩
    · obtain ⟨outer, -, -, hOuter⟩ := hNew new j hj hOld
      exact hOuter
    · obtain ⟨types, hTypes, -⟩ := h.orderly.wellFormed
      exact hTypes.parentsFirst

/-- What a request does to a sound state, and what alone can stop it. The bound on the depth does
not if it is above the handle of the target or above all handles of modules. -/
theorem requestWithin_ensures (p : Program) (depth : Nat) (r : Request) (span : Span) {s : RunState}
    (hSound : Sound p s) (hSite : ∀ id, r.site = some id → ∃ i, s.instances.get? id = some i) :
    (requestWithin p depth r.target r.arguments r.site span).Ensures s (Granted p r s)
      (fun e t => Denied p r s t ∧
        (Ready p s r → r.target.index < depth ∨ p.tree.modules.size < depth →
          LimitReached p e t) ∧
        (r.target.index < depth ∨ p.tree.modules.size < depth →
          e.Explained p s.types (r.Minted p s.types))) := by
  induction depth generalizing r span s with
  | zero => exact Ensures.throw ⟨.refl p r s, fun _ h => by omega, fun h => by omega⟩
  | succ depth ih =>
    unfold requestWithin
    refine Ensures.bindRead (fun m hDecl => ?_)
      fun reason hReason => ⟨.refl p r s, fun h => ?_, fun _ => ?_⟩
    · refine Ensures.bindRead (fun name hName => ?_)
        fun reason hReason => ⟨.refl p r s, fun h => ?_, fun _ => ?_⟩
      · split
        case isTrue hCount =>
          exact Ensures.refuse ⟨.refl p r s,
            fun h => absurd (h.declared hDecl).1.length_eq.symm hCount, fun _ => .refused _⟩
        case isFalse hCount =>
          refine Ensures.bind (siteSubstitution_ensures hSite) ?_ fun _ _ h => h.elim
          rintro site s ⟨rfl, hSiteSub⟩
          refine Ensures.bind (newArguments_ensures name span (Decidable.of_not_not hCount)
            (hSiteSub.closed hSound)) ?_ ?_
          · rintro actuals t ⟨hRetyped, hFits, hGiven⟩
            have hFirst : Advances p s t := .single (.retyped hRetyped)
            have hSoundT := hSound.steps hFirst.steps
            have hSame : t.instances = s.instances := hRetyped.instances_eq
            cases hOwn : ownSubstitution m name (actuals.filterMap Argument.type?) with
            | error refusal =>
              refine Ensures.refuse ⟨.of_same hFirst hSame,
                fun h => absurd (h.declared hDecl).2.2 ?_, fun _ => .refused _⟩
              exact ownSubstitution_eq_error (Argument.Image.fits hFits hGiven) hOwn
            | ok own =>
              dsimp only
              rw [ownSubstitution_eq_ok hOwn, pure_bind]
              -- Only the request for the enclosing instance recurs, and a parent is older.
              have hLower : ∀ outer, m.parent = some outer → p.tree.ParentsFirst →
                  r.target.index < depth + 1 ∨ p.tree.modules.size < depth + 1 →
                  outer.index < depth ∨ p.tree.modules.size < depth := by
                intro outer hOuter hParents hDepth
                have hEarlier := hParents hDecl hOuter
                have hSize := Arena.lt_of_read hDecl
                omega
              refine (settle_ensures
                (C := r.target.index < depth + 1 ∨ p.tree.modules.size < depth + 1) name span
                hSoundT (by rwa [hSame]) hDecl hFits (by rwa [hSame]) hGiven ?_).mono ?_ ?_
              · intro outer hOuter span
                refine (ih ⟨none, outer, []⟩ span hSoundT (fun _ h => nomatch h)).mono
                  (fun _ _ h => h) ?_
                rintro e u ⟨hSecond, hLimit, hExplained⟩
                refine ⟨hSecond, fun h hDepth => hLimit h ?_, fun hDepth hOrdered => ?_⟩
                · obtain ⟨types, hTypes, -⟩ := h.orderly.wellFormed
                  exact hLower outer hOuter hTypes.parentsFirst hDepth
                · exact hExplained (hLower outer hOuter hOrdered.parents hDepth) hOrdered
              · intro id u hGranted
                exact ⟨hFirst.trans hGranted.advances, hRetyped.tallied.trans hGranted.tallied,
                  hGranted.answers, fun i hi hOld => hGranted.made hi (by rwa [hSame]),
                  fun new j hj hOld => hGranted.around hj (by rwa [hSame])⟩
              · rintro e u ⟨hSecond, hLimit, hExplained⟩
                exact ⟨⟨hFirst.trans hSecond.advances,
                  fun new j hj hOld => hSecond.outer hj (by rwa [hSame])⟩,
                  fun h => hLimit (h.steps hFirst.steps),
                  fun hDepth => hRetyped.explained (hExplained hDepth) fun _ _ => trivial⟩
          · rintro e t ⟨hRetyped, hNot, hExplained⟩
            refine ⟨.of_same (.single (.retyped hRetyped)) hRetyped.instances_eq,
              fun h => absurd ⟨h.orderly.sane, (h.declared hDecl).1, ?_⟩ hNot,
              fun _ => hExplained.mono fun _ h => h.2⟩
            obtain ⟨sub, hSub, hCovers⟩ := h.visible
            cases hSub.unique hSiteSub
            exact hCovers
      · obtain ⟨-, ⟨text, hText⟩, -⟩ := h.declared hDecl
        cases hText.symm.trans hReason
      · exact .of_arena hReason fun hLegible _ => hLegible.moduleName hDecl
    · obtain ⟨m, hDecl, -⟩ := h.target
      cases hDecl.symm.trans hReason
    · exact .of_arena hReason fun _ h => h.1

theorem request_ensures (p : Program) (r : Request) (span : Span) {s : RunState}
    (hSound : Sound p s) (hSite : ∀ id, r.site = some id → ∃ i, s.instances.get? id = some i) :
    (request p r.target r.arguments r.site span).Ensures s (Granted p r s)
      (fun e t => Denied p r s t ∧ (Ready p s r → LimitReached p e t) ∧
        e.Explained p s.types (r.Minted p s.types)) := by
  refine (requestWithin_ensures p _ r span hSound hSite).mono (fun _ _ h => h) ?_
  rintro e t ⟨hDenied, hLimit, hExplained⟩
  have hDepth : p.tree.modules.size < p.tree.modules.size + 1 := Nat.lt_succ_self _
  exact ⟨hDenied, fun h => hLimit h (.inr hDepth), hExplained (.inr hDepth)⟩

theorem instantiate_ensures (p : Program) (target : ModuleId) (arguments : List Argument)
    {s : RunState} (hSound : Sound p s) :
    (instantiate p target arguments).Ensures s (Granted p ⟨none, target, arguments⟩ s)
      (fun e t => Denied p ⟨none, target, arguments⟩ s t ∧
        (Ready p s ⟨none, target, arguments⟩ → LimitReached p e t) ∧
        e.Explained p s.types (Request.Minted p s.types ⟨none, target, arguments⟩)) := by
  refine Ensures.bindRead (fun m hDecl => ?_)
    fun reason hReason => ⟨.refl p _ s, fun h => ?_, ?_⟩
  · exact request_ensures p ⟨none, target, arguments⟩ m.span hSound fun _ h => nomatch h
  · obtain ⟨m, hDecl, -⟩ := h.target
    cases hDecl.symm.trans hReason
  · exact .of_arena hReason fun _ h => h.1

end Run

end Specializer
