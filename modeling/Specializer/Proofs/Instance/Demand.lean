import Specializer.Proofs.Instance.Sharing

/-!
# Everything that is demanded and nothing else

A run that comes to its end has an instance for every demand of every instance it has made, each at
its place and with the arguments that the demand gives. Whatever contains the root and is closed
under demands and under what lies around an instance contains all that the run has made. Types are
compared as trees, since a module type gets a new handle whenever something in it is replaced.
-/

set_option autoImplicit false

namespace Specializer

open TypeStore Update RunState ModuleTree

/-- No type parameter of a module is one of a module around it, or occurs twice. -/
def ModuleTree.DistinctVars (t : ModuleTree) : Prop :=
  ∀ ⦃id m vars⦄, t.readModule id = .ok m → t.ancestorVars id = .ok vars → (m.typeVars ++ vars).Nodup

/-- What becomes of an argument: a type is the given one with all replacements made, and a value
counts as the given one. -/
inductive Argument.Becomes (types : TypeStore) (sub : Substitution) :
    Argument → Argument → Prop where
  | type {id image : TypeId} {tree : TypeTree} {replace : TypeId → Option TypeTree}
      (hTree : types.Unfolds id tree) (hReplace : types.Replaces sub replace)
      (hImage : types.Unfolds image (tree.substitute replace)) :
      Becomes types sub (.type id) (.type image)
  | value {a b : Literal} (hSame : a.same b = true) : Becomes types sub (.value a) (.value b)

theorem Argument.Image.becomes {types : TypeStore} {sub : Substitution} {a b c : Argument}
    (h : a.Image types sub b) (hAgrees : b.Agrees c) (hSub : sub.ClosedIn types) :
    a.Becomes types sub c := by
  cases h with
  | type hImage =>
    cases hAgrees
    obtain ⟨tree, hTree⟩ := hImage.exists_unfolds
    obtain ⟨replace, hReplace⟩ := hSub.exists_replaces
    exact .type hTree hReplace (hImage.unfolds hTree hReplace)
  | value =>
    cases hAgrees with
    | value hSame => exact .value hSame

/-- The place of an instance of a module with the given parent, if it is named in `site`: inside the
nearest instance of the parent on the way up from there, or else inside the only one, of which there
is one if nothing around has parameters. -/
inductive Belongs (p : Program) (instances : Arena .instances Instance) (site : Option InstanceId) :
    Option ModuleId → Option InstanceId → Prop where
  | top : Belongs p instances site none none
  | near {outer : ModuleId} {found : InstanceId}
      (hNear : Nearest instances outer site (some found)) :
      Belongs p instances site (some outer) (some found)
  | only {outer : ModuleId} {found : InstanceId} (hNear : Nearest instances outer site none)
      (hPlain : p.tree.Plain outer)
      (hOnly : ∀ id, (∃ j, instances.get? id = some j ∧ j.source = outer) ↔ id = found) :
      Belongs p instances site (some outer) (some found)

theorem Sound.belongs {p : Program} {s : RunState} (hSound : Sound p s)
    {site found : Option InstanceId} {parent : Option ModuleId}
    (h : Encloses p s.instances site parent found) : Belongs p s.instances site parent found := by
  cases h with
  | top => exact .top
  | near hNear => exact .near hNear
  | alone hNear hPlain hFound hSource =>
    have hOuter := plain_of_isMonomorphicChain hPlain
    refine .only hNear hOuter fun id => ⟨?_, ?_⟩
    · rintro ⟨j, hj, hSame⟩
      rw [← hSame] at hOuter
      exact hSound.eq_of_plain hj hFound (hSame.trans hSource.symm) hOuter
    · rintro rfl
      exact ⟨_, hFound, hSource⟩

theorem Belongs.eq_of_source {p : Program} {instances : Arena .instances Instance} {id : InstanceId}
    {i : Instance} {found : Option InstanceId}
    (h : Belongs p instances (some id) (some i.source) found) (hi : instances.get? id = some i) :
    found = some id := by
  have hHere : Nearest instances i.source (some id) (some id) := .here hi rfl
  cases h with
  | near hNear => exact hNear.unique hHere
  | only hNear => cases hNear.unique hHere

def Meets (p : Program) (types : TypeStore) (instances : Arena .instances Instance) (r : Request)
    (found : InstanceId) : Prop :=
  ∃ m sub j, p.tree.readModule r.target = .ok m ∧ SiteSub instances r.site sub ∧
    instances.get? found = some j ∧ j.source = r.target ∧
    List.Forall₂ (Argument.Becomes types sub) r.arguments j.arguments ∧
    Belongs p instances r.site m.parent j.parent

/-- The instances are those that `root`, which is named from outside, demands. -/
structure DemandedBy (p : Program) (types : TypeStore) (instances : Arena .instances Instance)
    (target : ModuleId) (root : InstanceId) : Prop where
  first : Meets p types instances ⟨none, target, []⟩ root
  served : ∀ ⦃id i target arguments⦄, instances.get? id = some i →
    Asks p i.source target arguments →
    ∃ found, Meets p types instances ⟨some id, target, arguments⟩ found
  nested : ∀ ⦃id i m b target n⦄, instances.get? id = some i → p.tree.readModule i.source = .ok m →
    b ∈ m.bindings → b.kind = .nested target → p.tree.readModule target = .ok n → n.params = [] →
    n.parent = some i.source →
    ∃ found j, instances.get? found = some j ∧ j.source = target ∧ j.parent = some id
  least : ∀ needed : InstanceId → Prop, needed root →
    (∀ id i target arguments found, needed id → instances.get? id = some i →
      Asks p i.source target arguments →
      Meets p types instances ⟨some id, target, arguments⟩ found → needed found) →
    (∀ id i up, needed id → instances.get? id = some i → i.parent = some up → needed up) →
    ∀ id i, instances.get? id = some i → needed id
  unique : ∀ ⦃a b i j⦄, instances.get? a = some i → instances.get? b = some j →
    i.source = j.source → i.parent = j.parent →
    List.Forall₂ Argument.Agrees i.arguments j.arguments → a = b

theorem ModuleTree.ancestorVars_top {t : ModuleTree} {id : ModuleId} {m : ModuleDecl}
    (hDecl : t.readModule id = .ok m) (hTop : m.parent = none) : t.ancestorVars id = .ok [] := by
  have hAncestors : t.ancestors id = .ok [] := by
    refine Read.bind_eq_ok_iff.mpr ⟨m, hDecl, ?_⟩
    rw [hTop]
    cases t.modules.size <;> rfl
  exact Read.bind_eq_ok_iff.mpr ⟨[], hAncestors, rfl⟩

theorem Formed.exists_ancestorVars {p : Program} {s : RunState} {m : ModuleDecl} {id : InstanceId}
    {i : Instance} (h : Formed p s m id i) : ∃ vars, p.tree.ancestorVars i.source = .ok vars := by
  cases hParent : m.parent with
  | none => exact ⟨[], ancestorVars_top h.decl hParent⟩
  | some outer =>
    have hLinked := h.linked
    have hInherits := h.inherits
    rw [hParent] at hLinked
    obtain ⟨found, j, hFound, -⟩ := hLinked.exists_found
    rw [hFound] at hInherits
    generalize i.substitution = sub at hInherits
    cases hInherits with
    | inside hOuter hVars => exact ⟨_, hVars⟩

/-- With distinct type parameters an instance has the arguments of all requests that it answers. -/
theorem Answers.meets {p : Program} {s : RunState} {r : Request} {found : InstanceId}
    (h : Answers p s r found) (hSound : Sound p s) (hDistinct : p.tree.DistinctVars) :
    Meets p s.types s.instances r found := by
  obtain ⟨m, actuals, j, hResolves, hj⟩ := h
  obtain ⟨sub, hSite, hGiven⟩ := hResolves.given
  obtain ⟨n, hFormed⟩ := hSound.formed hj
  have hSource : j.source = r.target := congrArg Key.source hResolves.key_eq
  obtain ⟨vars, hVars⟩ := hFormed.exists_ancestorVars
  have hInherits := hFormed.inherits
  have hDecl := hFormed.decl
  rw [hSource] at hInherits hDecl hVars
  cases hDecl.symm.trans hResolves.decl
  obtain ⟨hNodup, -, hApart⟩ := List.nodup_append.mp (hDistinct hDecl hVars)
  have hValues : j.key.values = _ := congrArg Key.values hResolves.key_eq
  -- The instance may have been made for another request with the same key.
  have hAgrees : List.Forall₂ Argument.Agrees actuals j.arguments := by
    refine hResolves.inherits.agrees hInherits (Argument.Image.fits hResolves.fits hGiven)
      hFormed.fits hValues.symm hNodup fun other hOther var hVar hMem => ?_
    cases hVars.symm.trans hOther
    exact hApart var hVar var hMem rfl
  have hArguments : List.Forall₂ (Argument.Becomes s.types sub) r.arguments j.arguments :=
    forall₂_join hGiven hAgrees fun _ _ _ hImage hSame =>
      hImage.becomes hSame (hSite.closed hSound)
  exact ⟨_, sub, j, hDecl, hSite, hj, hSource, hArguments, hSound.belongs hResolves.parent⟩

theorem Needed.mem {p : Program} {s : RunState} {root id : InstanceId} (h : Needed p s root id)
    {needed : InstanceId → Prop} (hRoot : needed root)
    (hAnswer : ∀ id i target arguments found, needed id → s.instances.get? id = some i →
      Asks p i.source target arguments → Answers p s ⟨some id, target, arguments⟩ found →
      needed found)
    (hOuter : ∀ id i up, needed id → s.instances.get? id = some i → i.parent = some up →
      needed up) : needed id := by
  induction h with
  | root => exact hRoot
  | answer _ hi hAsks hFound ih => exact hAnswer _ _ _ _ _ ih hi hAsks hFound
  | outer _ hi hUp ih => exact hOuter _ _ _ ih hi hUp

/-- The instances of a run that succeeds are those that its root demands. -/
theorem complete_demanded {p : Program} (hDistinct : p.tree.DistinctVars) {types : TypeStore}
    {root : ModuleId} {out : Output} {t : RunState}
    (hRun : Run.complete p root (.start types) = .ok out t) :
    DemandedBy p t.types out.instances root out.root := by
  obtain ⟨hSteps, hReports, hRoot, hNeeded, hServed⟩ :=
    (Run.complete_ensures p root types).of_ok hRun
  have hSound := (Sound.start p types).steps hSteps
  rw [hReports.instances]
  constructor
  case first => exact hRoot.meets hSound hDistinct
  case served =>
    intro id i target arguments hi hAsks
    obtain ⟨found, hFound⟩ := hServed id i hi target arguments hAsks
    exact ⟨found, hFound.meets hSound hDistinct⟩
  case nested =>
    intro id i m b target n hi hDecl hb hKind hTarget hParams hParent
    obtain ⟨found, hFound⟩ :=
      hServed id i hi target [] ⟨m, b, hDecl, hb, .nested hKind hTarget hParams⟩
    obtain ⟨n', _, j, hTarget', -, hj, hSource, -, hPlace⟩ := hFound.meets hSound hDistinct
    cases hTarget.symm.trans hTarget'
    rw [hParent] at hPlace
    exact ⟨found, j, hj, hSource, hPlace.eq_of_source hi⟩
  case least =>
    intro needed hFirst hAnswer hOuter id i hi
    refine (hNeeded hi).mem hFirst ?_ hOuter
    intro id i target arguments found hId hi hAsks hFound
    exact hAnswer id i target arguments found hId hi hAsks (hFound.meets hSound hDistinct)
  case unique => exact fun a b i j => hSound.eq_of_agrees

theorem Sample.distinctVars : Sample.program.tree.DistinctVars := by
  intro id m vars hDecl hVars
  rcases Sample.readModule_eq_ok hDecl with ⟨rfl, rfl⟩ | ⟨rfl, rfl⟩ | ⟨rfl, rfl⟩ <;>
    cases hVars <;> decide

theorem complete_main_demanded : ∃ out t found,
    Run.complete Sample.program ⟨2⟩ (.start Sample.types) = .ok out t ∧
    Meets Sample.program t.types out.instances ⟨some out.root, ⟨0⟩, [.type ⟨5⟩]⟩ found := by
  obtain ⟨out, t, hRun⟩ := Update.exists_of_succeeds
    (show (Run.complete Sample.program ⟨2⟩).succeeds (.start Sample.types) = true by decide +kernel)
  have hDemanded := complete_demanded Sample.distinctVars hRun
  obtain ⟨_, _, i, -, -, hi, hSource, -⟩ := hDemanded.first
  have hAsks : Asks Sample.program i.source ⟨0⟩ [.type ⟨5⟩] :=
    ⟨Sample.main, _, hSource ▸ rfl, List.mem_singleton.mpr rfl, .site rfl (.here rfl) rfl⟩
  obtain ⟨found, hFound⟩ := hDemanded.served hi hAsks
  exact ⟨out, t, found, hRun, hFound⟩

end Specializer
