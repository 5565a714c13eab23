import Specializer.Proofs.Instance.Demand

/-!
# Instances follow the nesting of their sources

The chain of an instance has one instance for every module around its source, in the same order, and
each of them is older than the one inside it. The substitution maps the type parameters of the
source and of the modules around it, and nothing else: the own ones as the arguments say, the others
as the instance around does. Only the own ones need that no parameter hides another one.
-/

set_option autoImplicit false

namespace Specializer

open TypeStore Update RunState ModuleTree

/-- The sources on the way up from an instance, its own first. -/
inductive Sources (instances : Arena .instances Instance) :
    Option InstanceId → List ModuleId → Prop where
  | top : Sources instances none []
  | inside {id : InstanceId} {i : Instance} {rest : List ModuleId}
      (hi : instances.get? id = some i) (hRest : Sources instances i.parent rest) :
      Sources instances (some id) (i.source :: rest)

theorem TemplateParam.Fits.exists_type {params : List TemplateParam} {arguments : List Argument}
    (h : List.Forall₂ TemplateParam.Fits params arguments) {index : Nat} {param : TemplateParam}
    {var : TypeId} (hParam : params[index]? = some param) (hKind : param.kind = .type var) :
    ∃ type, arguments[index]? = some (.type type) ∧ (var, type) ∈
      (params.filterMap TemplateParam.var?).zip (arguments.filterMap Argument.type?) := by
  induction h generalizing index with
  | nil => simp at hParam
  | @cons first given params arguments hFit _ ih =>
    cases index with
    | zero =>
      cases hParam
      cases hFit with
      | @type own type hOwn =>
        cases hKind.symm.trans hOwn
        exact ⟨type, rfl, by simp [TemplateParam.var?, hKind, Argument.type?]⟩
      | value hValue => cases hKind.symm.trans hValue
    | succ index =>
      obtain ⟨type, hType, hMem⟩ := ih hParam
      refine ⟨type, hType, ?_⟩
      cases hFit with
      | type hOwn => simp [TemplateParam.var?, hOwn, Argument.type?, hMem]
      | value hValue => simpa [List.filterMap_cons, TemplateParam.var?, hValue, Argument.type?]

namespace Sound

variable {p : Program} {s : RunState} (hSound : Sound p s)
include hSound

theorem sources_of_chainWithin {depth : Nat} {id : InstanceId} {parent : Option ModuleId}
    {found : Option InstanceId} {ids : List ModuleId} (hLinked : Linked s.instances id parent found)
    (h : p.tree.chainWithin depth parent = .ok ids) : Sources s.instances found ids := by
  induction depth generalizing id parent found ids with
  | zero =>
    cases hLinked with
    | top =>
      cases h
      exact .top
    | inside => cases h
  | succ depth ih =>
    cases hLinked with
    | top =>
      cases h
      exact .top
    | inside hFound hSource _ =>
      rw [chainWithin] at h
      obtain ⟨m, hDecl, h⟩ := Read.bind_eq_ok_iff.mp h
      obtain ⟨rest, hRest, h⟩ := Read.bind_eq_ok_iff.mp h
      cases h
      obtain ⟨n, hFormed⟩ := hSound.formed hFound
      subst hSource
      cases hDecl.symm.trans hFormed.decl
      exact .inside hFound (ih hFormed.linked hRest)

theorem sources {id : InstanceId} {i : Instance} {ids : List ModuleId}
    (hi : s.instances.get? id = some i) (h : p.tree.ancestors i.source = .ok ids) :
    Sources s.instances (some id) (i.source :: ids) := by
  obtain ⟨m, hFormed⟩ := hSound.formed hi
  obtain ⟨n, hDecl, h⟩ := Read.bind_eq_ok_iff.mp h
  cases hDecl.symm.trans hFormed.decl
  exact .inside hi (hSound.sources_of_chainWithin hFormed.linked h)

theorem get?_inherited {id up : InstanceId} {i j : Instance} {vars : List TypeId} {var : TypeId}
    (hi : s.instances.get? id = some i) (hUp : i.parent = some up)
    (hj : s.instances.get? up = some j) (hVars : p.tree.ancestorVars i.source = .ok vars)
    (hVar : var ∈ vars) : i.substitution.get? var = j.substitution.get? var := by
  obtain ⟨m, hFormed⟩ := hSound.formed hi
  have hLinked := hFormed.linked
  have hInherits := hFormed.inherits
  rw [hUp] at hLinked hInherits
  obtain ⟨outer, k, hOuter, hk, hSource, -⟩ := hLinked.exists_outer
  cases hk.symm.trans hj
  obtain ⟨other, hOther, hScope⟩ := (mem_ancestorVars hFormed.decl hVars).mp hVar
  cases hOuter.symm.trans hOther
  rw [← hSource] at hScope
  -- What lies around the source is in the scope of the enclosing instance, which maps it.
  obtain ⟨type, hType⟩ := Option.isSome_iff_exists.mp (hSound.isSome_get? hj hScope)
  generalize i.substitution = sub at hInherits
  cases hInherits with
  | inside hGet hVars' =>
    cases hGet.symm.trans hj
    cases hVars.symm.trans hVars'
    simp [Substitution.get?_extend, Substitution.get?_only, hVar, hType]

theorem contains_iff {id : InstanceId} {i : Instance} {m : ModuleDecl} {vars : List TypeId}
    (hi : s.instances.get? id = some i) (hDecl : p.tree.readModule i.source = .ok m)
    (hVars : p.tree.ancestorVars i.source = .ok vars) (var : TypeId) :
    i.substitution.contains var = true ↔ var ∈ m.typeVars ++ vars := by
  obtain ⟨n, hFormed⟩ := hSound.formed hi
  cases hDecl.symm.trans hFormed.decl
  constructor
  · intro h
    have hOwn : ((m.pairing i.arguments).get? var).isSome = true → var ∈ m.typeVars := by
      intro h
      obtain ⟨pair, hPair, rfl⟩ :=
        List.mem_map.mp ((Substitution.isSome_get?_ofPairs_iff _ _).mp h)
      exact (List.of_mem_zip hPair).1
    have hInherits := hFormed.inherits
    unfold Substitution.contains at h
    generalize i.substitution = sub at hInherits h
    generalize i.parent = parent at hInherits
    cases hInherits with
    | top => exact List.mem_append_left _ (hOwn h)
    | inside _ hVars' =>
      cases hVars.symm.trans hVars'
      by_cases hVar : var ∈ vars
      · exact List.mem_append_right _ hVar
      · apply List.mem_append_left _ (hOwn _)
        simpa [Substitution.get?_extend, Substitution.get?_only, hVar] using h
  · intro h
    apply hSound.isSome_get? hi
    rcases List.mem_append.mp h with hVar | hVar
    · exact ⟨i.source, m, .self _, hDecl, hVar⟩
    · obtain ⟨outer, hOuter, last, n, hWithin, hRead⟩ := (mem_ancestorVars hDecl hVars).mp hVar
      exact ⟨last, n, .outer hDecl hOuter hWithin, hRead⟩

end Sound

/-- How an instance sits among the others: `m` is its source, `outer` are the modules around that,
innermost first, and `vars` their type parameters. -/
structure MirrorsNesting (instances : Arena .instances Instance) (id : InstanceId) (i : Instance)
    (m : ModuleDecl) (outer : List ModuleId) (vars : List TypeId) : Prop where
  top : i.parent = none ↔ m.parent = none
  enclosed : ∀ up, i.parent = some up → up.index < id.index ∧ ∃ j, instances.get? up = some j ∧
    m.parent = some j.source ∧ ∀ var ∈ vars, i.substitution.get? var = j.substitution.get? var
  sources : Sources instances (some id) (i.source :: outer)
  domain : ∀ var, i.substitution.contains var = true ↔ var ∈ m.typeVars ++ vars
  own : ∀ (index : Nat) (param : TemplateParam) (var : TypeId), m.params[index]? = some param →
    param.kind = .type var →
    ∃ type, i.arguments[index]? = some (.type type) ∧ i.substitution.get? var = some type

/-- In every state between calls, whatever they returned, the instances mirror the lexical nesting
of their sources. -/
theorem after_mirrorsNesting {p : Program} (hDistinct : p.tree.DistinctVars) (types : TypeStore)
    (calls : List Call) {id : InstanceId} {i : Instance}
    (hi : (RunState.after p calls (.start types)).instances.get? id = some i) :
    ∃ m outer vars, p.tree.readModule i.source = .ok m ∧ p.tree.ancestors i.source = .ok outer ∧
      p.tree.ancestorVars i.source = .ok vars ∧
      MirrorsNesting (RunState.after p calls (.start types)).instances id i m outer vars := by
  have hSound := Sound.after_start p types calls
  obtain ⟨m, hFormed⟩ := hSound.formed hi
  have hLinked := hFormed.linked
  obtain ⟨vars, hVars⟩ := hFormed.exists_ancestorVars
  obtain ⟨outer, hOuter, -⟩ := Read.bind_eq_ok_iff.mp hVars
  obtain ⟨hNodup, -, hApart⟩ := List.nodup_append.mp (hDistinct hFormed.decl hVars)
  refine ⟨m, outer, vars, hFormed.decl, hOuter, hVars, ?_⟩
  constructor
  case top =>
    generalize i.parent = found at hLinked
    generalize m.parent = parent at hLinked
    cases hLinked <;> simp
  case enclosed =>
    intro up hUp
    rw [hUp] at hLinked
    obtain ⟨_, j, hParent, hj, rfl, hOlder⟩ := hLinked.exists_outer
    exact ⟨hOlder, j, hj, hParent, fun var => hSound.get?_inherited hi hUp hj hVars⟩
  case sources => exact hSound.sources hi hOuter
  case domain => exact hSound.contains_iff hi hFormed.decl hVars
  case own =>
    intro index param var hParam hKind
    obtain ⟨type, hType, hMem⟩ := TemplateParam.Fits.exists_type hFormed.fits hParam hKind
    have hVar : var ∈ m.typeVars := (List.of_mem_zip hMem).1
    have hLength : m.typeVars.length = (i.arguments.filterMap Argument.type?).length :=
      TemplateParam.Fits.length_typeVars hFormed.fits
    have hPaired : (m.pairing i.arguments).get? var = some type := by
      apply Substitution.get?_ofPairs_of_mem _ hMem
      exact (List.map_fst_zip (Nat.le_of_eq hLength)).symm ▸ hNodup
    refine ⟨type, hType, ?_⟩
    rw [hFormed.inherits.get?_own, hPaired]
    intro others hOthers hInherited
    cases hVars.symm.trans hOthers
    exact hApart var hVar var hInherited rfl

namespace Drawers

/-! A chest for any type, which asks for a drawer inside it. The drawer has two more type parameters
with a value between them, and its scheme lists them the other way round. -/

def symbols : SymbolTable :=
  ["Chest", "T", "Drawer", "U", "n", "V", "item"].foldl (fun table name => (table.intern name).2)
    .empty

def types : TypeStore :=
  [⟨1⟩, ⟨3⟩, ⟨5⟩].foldl (fun types name => (types.add (.var .bound name)).2) initial

def chest : ModuleDecl :=
  ⟨⟨0⟩, .origin, none, [⟨⟨1⟩, .origin, .type ⟨13⟩⟩], ⟨[⟨13⟩], ⟨13⟩⟩,
    [⟨⟨6⟩, .origin, .value ⟨5⟩ ⟨0⟩⟩, ⟨⟨2⟩, .origin, .nested ⟨1⟩⟩]⟩

def drawer : ModuleDecl :=
  ⟨⟨2⟩, .origin, some ⟨0⟩, [⟨⟨3⟩, .origin, .type ⟨14⟩⟩, ⟨⟨4⟩, .origin, .value ⟨5⟩⟩,
      ⟨⟨5⟩, .origin, .type ⟨15⟩⟩],
    ⟨[⟨15⟩, ⟨14⟩], ⟨13⟩⟩, [⟨⟨6⟩, .origin, .value ⟨5⟩ ⟨1⟩⟩]⟩

def seven : Literal := .signed .w32 7

def tree : ModuleTree :=
  ⟨⟨#[chest, drawer]⟩,
    ⟨#[⟨.site ⟨1⟩ [.type ⟨13⟩, .value seven, .type ⟨1⟩] ⟨6⟩, .origin, ⟨5⟩⟩,
      ⟨.literal seven, .origin, ⟨5⟩⟩]⟩⟩

def program : Program := ⟨tree, symbols, .silent⟩

def state : RunState := .after program [.instantiate ⟨0⟩ [.type ⟨5⟩], .drain] (.start types)

theorem distinctVars : program.tree.DistinctVars := by
  intro id m vars hDecl hVars
  match id, hDecl with
  | ⟨0⟩, hDecl =>
    cases hDecl
    cases hVars
    decide
  | ⟨1⟩, hDecl =>
    cases hDecl
    cases hVars
    decide
  | ⟨_ + 2⟩, hDecl => cases hDecl

theorem drawer_mirrorsNesting : ∃ i, state.instances.get? ⟨1⟩ = some i ∧
    i.parent = some ⟨0⟩ ∧ MirrorsNesting state.instances ⟨1⟩ i drawer [⟨0⟩] [⟨13⟩] ∧
    i.substitution.get? ⟨14⟩ = some ⟨5⟩ ∧ i.substitution.get? ⟨15⟩ = some ⟨1⟩ := by
  have hSome : (state.instances.get? ⟨1⟩).isSome = true := by decide +kernel
  have hFacts : (state.instances.get? ⟨1⟩).map (fun i => (i.source, i.parent, i.arguments)) =
      some (⟨1⟩, some ⟨0⟩, [.type ⟨5⟩, .value seven, .type ⟨1⟩]) := by decide +kernel
  obtain ⟨i, hi⟩ := Option.isSome_iff_exists.mp hSome
  rw [hi, Option.map_some, Option.some.injEq, Prod.mk.injEq, Prod.mk.injEq] at hFacts
  obtain ⟨hSource, hParent, hArguments⟩ := hFacts
  obtain ⟨m, outer, vars, hDecl, hOuter, hVars, hMirrors⟩ :=
    after_mirrorsNesting distinctVars types [.instantiate ⟨0⟩ [.type ⟨5⟩], .drain] hi
  rw [hSource] at hDecl hOuter hVars
  cases hDecl
  cases hOuter
  cases hVars
  have hFirst := hMirrors.own 0 _ _ rfl rfl
  have hLast := hMirrors.own 2 _ _ rfl rfl
  rw [hArguments] at hFirst hLast
  obtain ⟨_, ⟨⟩, hFirst⟩ := hFirst
  obtain ⟨_, ⟨⟩, hLast⟩ := hLast
  exact ⟨i, hi, hParent, hMirrors, hFirst, hLast⟩

end Drawers

end Specializer
