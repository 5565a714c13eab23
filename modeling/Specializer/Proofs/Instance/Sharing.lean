import Specializer.Proofs.Instance.Calls

/-!
# Which requests share an instance

An instance is known by its source, by what encloses it and by its arguments. The key under which it
is cached holds a substitution in place of the type arguments. That is as good as the arguments as
long as the type parameters of a module are distinct, and none of them is inherited.
-/

set_option autoImplicit false

namespace Specializer

open TypeStore Update RunState ModuleTree

/-- Equal types, or values that count as equal. -/
inductive Argument.Agrees : Argument → Argument → Prop where
  | type (id : TypeId) : Agrees (.type id) (.type id)
  | value {a b : Literal} (hSame : a.same b = true) : Agrees (.value a) (.value b)

namespace Argument

theorem types_eq_of_agrees {a b : List Argument} (h : List.Forall₂ Agrees a b) :
    a.filterMap type? = b.filterMap type? := by
  induction h with
  | nil => rfl
  | cons hHead _ ih => cases hHead <;> simp [List.filterMap_cons, type?, ih]

theorem values_eq_of_agrees {a b : List Argument} (h : List.Forall₂ Agrees a b) :
    (a.filterMap value?).map Literal.canonical = (b.filterMap value?).map Literal.canonical := by
  induction h with
  | nil => rfl
  | cons hHead _ ih =>
    cases hHead with
    | type => simp [List.filterMap_cons, value?, ih]
    | value hSame => simp [value?, ih, of_decide_eq_true hSame]

theorem forall₂_agrees {params : List TemplateParam} {a b : List Argument}
    (ha : List.Forall₂ TemplateParam.Fits params a) (hb : List.Forall₂ TemplateParam.Fits params b)
    (hTypes : a.filterMap type? = b.filterMap type?)
    (hValues : (a.filterMap value?).map Literal.canonical =
      (b.filterMap value?).map Literal.canonical) : List.Forall₂ Agrees a b := by
  have hSorts := TemplateParam.Fits.forall₂_sameSort ha hb
  clear ha hb
  induction hSorts with
  | nil => exact .nil
  | cons hSort _ ih =>
    cases hSort with
    | type =>
      simp only [List.filterMap_cons, type?, List.cons.injEq] at hTypes
      obtain ⟨rfl, hTypes⟩ := hTypes
      exact .cons (.type _) (ih hTypes hValues)
    | value =>
      simp only [List.filterMap_cons, value?, List.map_cons, List.cons.injEq] at hValues
      obtain ⟨hSame, hValues⟩ := hValues
      exact .cons (.value (decide_eq_true hSame)) (ih hTypes hValues)

theorem eq_of_image_empty {types : TypeStore} {a actuals : List Argument}
    (h : List.Forall₂ (Argument.Image types .empty) a actuals) : actuals = a := by
  induction h with
  | nil => rfl
  | cons hHead _ ih =>
    rw [ih]
    cases hHead with
    | type hImage => rw [hImage.eq_of_empty]
    | value => rfl

end Argument

namespace ModuleDecl

variable {m : ModuleDecl} {a b : List Argument}

theorem get?_pairing (hDistinct : m.typeVars.Nodup)
    (hFits : List.Forall₂ TemplateParam.Fits m.params a) {k : Nat} (hVar : k < m.typeVars.length)
    (hType : k < (a.filterMap Argument.type?).length) :
    (m.pairing a).get? m.typeVars[k] = some (a.filterMap Argument.type?)[k] := by
  have hLength : m.typeVars.length = (a.filterMap Argument.type?).length :=
    TemplateParam.Fits.length_typeVars hFits
  refine Substitution.get?_ofPairs_of_mem ?_ (List.mem_iff_getElem.mpr ⟨k, ?_, List.getElem_zip⟩)
  · rwa [List.map_fst_zip (Nat.le_of_eq hLength)]
  · rw [List.length_zip]
    omega

theorem types_eq_of_pairing (hDistinct : m.typeVars.Nodup)
    (ha : List.Forall₂ TemplateParam.Fits m.params a)
    (hb : List.Forall₂ TemplateParam.Fits m.params b)
    (h : ∀ var ∈ m.typeVars, (m.pairing a).get? var = (m.pairing b).get? var) :
    a.filterMap Argument.type? = b.filterMap Argument.type? := by
  have hLength : m.typeVars.length = (a.filterMap Argument.type?).length :=
    TemplateParam.Fits.length_typeVars ha
  have hLength' : m.typeVars.length = (b.filterMap Argument.type?).length :=
    TemplateParam.Fits.length_typeVars hb
  refine List.ext_getElem (hLength.symm.trans hLength') fun k hk hk' => ?_
  have hVar : k < m.typeVars.length := hLength ▸ hk
  have hBoth := h m.typeVars[k] (List.getElem_mem hVar)
  rw [get?_pairing hDistinct ha hVar hk, get?_pairing hDistinct hb hVar hk'] at hBoth
  exact Option.some.inj hBoth

end ModuleDecl

theorem Inherits.unique {p : Program} {instances : Arena .instances Instance} {target : ModuleId}
    {own sub sub' : Substitution} {parent : Option InstanceId}
    (h : Inherits p instances target own parent sub)
    (h' : Inherits p instances target own parent sub') : sub = sub' := by
  cases h with
  | top =>
    cases h'
    rfl
  | inside hOuter hVars =>
    cases h' with
    | inside hOuter' hVars' =>
      cases hOuter.symm.trans hOuter'
      cases hVars.symm.trans hVars'
      rfl

theorem Inherits.get?_own {p : Program} {instances : Arena .instances Instance} {target : ModuleId}
    {own sub : Substitution} {parent : Option InstanceId} {var : TypeId}
    (h : Inherits p instances target own parent sub)
    (hVar : ∀ vars, p.tree.ancestorVars target = .ok vars → var ∉ vars) :
    sub.get? var = own.get? var := by
  cases h with
  | top => rfl
  | inside hOuter hVars =>
    rw [Substitution.get?_extend, Substitution.get?_only, if_neg (hVar _ hVars), Option.none_or]

/-- Arguments that lead to the same substitution and have the same values agree. -/
theorem Inherits.agrees {p : Program} {instances : Arena .instances Instance} {target : ModuleId}
    {m : ModuleDecl} {a b : List Argument} {sub : Substitution} {parent : Option InstanceId}
    (h : Inherits p instances target (m.pairing a) parent sub)
    (h' : Inherits p instances target (m.pairing b) parent sub)
    (ha : List.Forall₂ TemplateParam.Fits m.params a)
    (hb : List.Forall₂ TemplateParam.Fits m.params b)
    (hValues : (a.filterMap Argument.value?).map Literal.canonical =
      (b.filterMap Argument.value?).map Literal.canonical)
    (hDistinct : m.typeVars.Nodup)
    (hOwn : ∀ vars, p.tree.ancestorVars target = .ok vars → ∀ var ∈ m.typeVars, var ∉ vars) :
    List.Forall₂ Argument.Agrees a b := by
  refine Argument.forall₂_agrees ha hb (ModuleDecl.types_eq_of_pairing hDistinct ha hb ?_) hValues
  intro var hVar
  rw [← h.get?_own fun vars hVars => hOwn vars hVars var hVar,
    h'.get?_own fun vars hVars => hOwn vars hVars var hVar]

theorem Inherits.key_eq {p : Program} {instances : Arena .instances Instance} {target : ModuleId}
    {m : ModuleDecl} {a b : List Argument} {sub sub' : Substitution} {parent : Option InstanceId}
    (h : Inherits p instances target (m.pairing a) parent sub)
    (h' : Inherits p instances target (m.pairing b) parent sub')
    (hAgrees : List.Forall₂ Argument.Agrees a b) :
    Key.of target parent sub a = Key.of target parent sub' b := by
  rw [ModuleDecl.pairing, Argument.types_eq_of_agrees hAgrees] at h
  rw [h.unique h', Key.of, Key.of, Argument.values_eq_of_agrees hAgrees]

theorem Linked.pair {instances : Arena .instances Instance} {id id' : InstanceId}
    {parent : Option ModuleId} {found found' : Option InstanceId}
    (h : Linked instances id parent found) (h' : Linked instances id' parent found') :
    (found = none ∧ found' = none) ∨ ∃ outer a b i j, parent = some outer ∧ found = some a ∧
      found' = some b ∧ instances.get? a = some i ∧ instances.get? b = some j ∧ i.source = outer ∧
      j.source = outer ∧ a.index < id.index := by
  cases h with
  | top =>
    cases h'
    exact .inl ⟨rfl, rfl⟩
  | inside hFound hSource hOlder =>
    cases h' with
    | inside hFound' hSource' _ =>
      exact .inr ⟨_, _, _, _, _, rfl, rfl, rfl, hFound, hFound', hSource, hSource', hOlder⟩

/-- Two instances whose arguments agree, and so do those of what lies around them, all the way
up. -/
inductive AgreeUpwards (instances : Arena .instances Instance) :
    Option InstanceId → Option InstanceId → Prop where
  | top : AgreeUpwards instances none none
  | inside {a b : InstanceId} {i j : Instance} (hi : instances.get? a = some i)
      (hj : instances.get? b = some j)
      (hArguments : List.Forall₂ Argument.Agrees i.arguments j.arguments)
      (hOuter : AgreeUpwards instances i.parent j.parent) : AgreeUpwards instances (some a) (some b)

namespace Sound

variable {p : Program} {s : RunState} (hSound : Sound p s)
include hSound

theorem eq_of_key {a b : InstanceId} {i j : Instance} (hi : s.instances.get? a = some i)
    (hj : s.instances.get? b = some j) (h : i.key = j.key) : a = b := by
  have hCached := hSound.cached hi
  rw [h, hSound.cached hj] at hCached
  exact (Option.some.inj hCached).symm

theorem formed_pair {a b : InstanceId} {i j : Instance} (hi : s.instances.get? a = some i)
    (hj : s.instances.get? b = some j) (hSource : i.source = j.source) :
    ∃ m, Formed p s m a i ∧ Formed p s m b j := by
  obtain ⟨m, hFormed⟩ := hSound.formed hi
  obtain ⟨n, hFormed'⟩ := hSound.formed hj
  have hDecl := hFormed.decl
  rw [hSource] at hDecl
  cases hDecl.symm.trans hFormed'.decl
  exact ⟨m, hFormed, hFormed'⟩

/-- An instance is known by its source, by what encloses it and by its arguments. -/
theorem eq_of_agrees {a b : InstanceId} {i j : Instance} (hi : s.instances.get? a = some i)
    (hj : s.instances.get? b = some j) (hSource : i.source = j.source)
    (hParent : i.parent = j.parent)
    (hArguments : List.Forall₂ Argument.Agrees i.arguments j.arguments) : a = b := by
  obtain ⟨m, hFormed, hFormed'⟩ := hSound.formed_pair hi hj hSource
  have hInherits := hFormed.inherits
  rw [hSource, hParent] at hInherits
  refine hSound.eq_of_key hi hj ?_
  rw [Instance.key, Instance.key, hSource, hParent]
  exact hInherits.key_eq hFormed'.inherits hArguments

theorem eq_of_agreeUpwards {a b : InstanceId} {i j : Instance} (hi : s.instances.get? a = some i)
    (hj : s.instances.get? b = some j) (hSource : i.source = j.source)
    (h : AgreeUpwards s.instances (some a) (some b)) : a = b := by
  generalize ha : some a = first at h
  generalize hb : some b = second at h
  induction h generalizing a b i j with
  | top => cases ha
  | inside hi' hj' hArguments hOuter ih =>
    cases ha
    cases hb
    cases hi.symm.trans hi'
    cases hj.symm.trans hj'
    refine hSound.eq_of_agrees hi hj hSource ?_ hArguments
    -- What remains is that the two lie in the same instance.
    obtain ⟨m, hFormed, hFormed'⟩ := hSound.formed_pair hi hj hSource
    rcases hFormed.linked.pair hFormed'.linked with ⟨hNone, hNone'⟩ |
      ⟨outer, up, up', k, k', -, hUp, hUp', hk, hk', hkSource, hkSource', -⟩
    · rw [hNone, hNone']
    · rw [hUp, hUp', ih hk hk' (hkSource.trans hkSource'.symm) hUp.symm hUp'.symm]

theorem agreeUpwards_of_plain {a b : InstanceId} {i j : Instance} (hi : s.instances.get? a = some i)
    (hj : s.instances.get? b = some j) (hSource : i.source = j.source)
    (hPlain : p.tree.Plain i.source) : AgreeUpwards s.instances (some a) (some b) := by
  -- Enclosing instances are older, so the way up from `a` ends.
  obtain ⟨index⟩ := a
  induction index using Nat.strongRecOn generalizing b i j with
  | ind index ih =>
    obtain ⟨m, hFormed, hFormed'⟩ := hSound.formed_pair hi hj hSource
    have hFits := hFormed.fits
    have hFits' := hFormed'.fits
    rw [hPlain.params_eq hFormed.decl] at hFits hFits'
    refine .inside hi hj ?_ ?_
    · rw [List.forall₂_nil_left_iff.mp hFits, List.forall₂_nil_left_iff.mp hFits']
      exact .nil
    · rcases hFormed.linked.pair hFormed'.linked with ⟨hNone, hNone'⟩ |
        ⟨outer, up, up', k, k', hParent, hUp, hUp', hk, hk', rfl, hkSource', hOlder⟩
      · rw [hNone, hNone']
        exact .top
      · rw [hUp, hUp']
        exact ih up.index hOlder hk' hkSource'.symm (hPlain.outer hFormed.decl hParent) hk

theorem eq_of_plain {a b : InstanceId} {i j : Instance} (hi : s.instances.get? a = some i)
    (hj : s.instances.get? b = some j) (hSource : i.source = j.source)
    (hPlain : p.tree.Plain i.source) : a = b :=
  hSound.eq_of_agreeUpwards hi hj hSource (hSound.agreeUpwards_of_plain hi hj hSource hPlain)

theorem encloses_unique {site found found' : Option InstanceId} {parent : Option ModuleId}
    (h : Encloses p s.instances site parent found)
    (h' : Encloses p s.instances site parent found') : found = found' := by
  cases h with
  | top =>
    cases h'
    rfl
  | near hNear =>
    cases h' with
    | near hNear' => exact hNear.unique hNear'
    | alone hNear' => cases hNear.unique hNear'
  | alone hNear hPlain hFound hSource =>
    cases h' with
    | near hNear' => cases hNear.unique hNear'
    | alone _ _ hFound' hSource' =>
      have hOuter := plain_of_isMonomorphicChain hPlain
      rw [← hSource] at hOuter
      rw [hSound.eq_of_plain hFound hFound' (hSource.trans hSource'.symm) hOuter]

end Sound

theorem Encloses.not_mem_ancestorVars {p : Program} {instances : Arena .instances Instance}
    {target : ModuleId} {m : ModuleDecl} {found : Option InstanceId} {vars : List TypeId}
    (h : Encloses p instances none m.parent found) (hDecl : p.tree.readModule target = .ok m)
    (hVars : p.tree.ancestorVars target = .ok vars) (var : TypeId) : var ∉ vars := by
  intro hVar
  obtain ⟨outer, hOuter, -⟩ := (mem_ancestorVars hDecl hVars).mp hVar
  rw [hOuter] at h
  cases h with
  | near hNear => cases hNear
  | alone _ hPlain =>
    have hNil := ancestorVars_eq_nil hDecl hOuter (plain_of_isMonomorphicChain hPlain) hVars
    rw [hNil] at hVar
    cases hVar

/-- Two requests from outside have one answer exactly if they say the same. -/
theorem Answers.eq_iff_outside {p : Program} {s : RunState} (hSound : Sound p s)
    {target target' : ModuleId} {a b : List Argument} {id id' : InstanceId}
    (h : Answers p s ⟨none, target, a⟩ id) (h' : Answers p s ⟨none, target', b⟩ id')
    (hDistinct : ∀ m, p.tree.readModule target = .ok m → m.typeVars.Nodup) :
    id = id' ↔ target = target' ∧ List.Forall₂ Argument.Agrees a b := by
  obtain ⟨m, actuals, i, hResolves, hi⟩ := h
  obtain ⟨n, actuals', j, hResolves', hj⟩ := h'
  obtain ⟨_, hSite, hGiven⟩ := hResolves.given
  obtain ⟨_, hSite', hGiven'⟩ := hResolves'.given
  cases hSite
  cases hSite'
  -- No site, so the concrete arguments are those of the requests.
  cases Argument.eq_of_image_empty hGiven
  cases Argument.eq_of_image_empty hGiven'
  have hSource : i.source = target := congrArg Key.source hResolves.key_eq
  have hSource' : j.source = target' := congrArg Key.source hResolves'.key_eq
  constructor
  · -- One instance has one key, which determines the arguments.
    rintro rfl
    cases hi.symm.trans hj
    obtain rfl : target = target' := hSource.symm.trans hSource'
    cases hResolves.decl.symm.trans hResolves'.decl
    refine ⟨rfl, hResolves.inherits.agrees hResolves'.inherits hResolves.fits hResolves'.fits ?_
      (hDistinct m hResolves.decl)
      fun vars hVars var _ => hResolves.parent.not_mem_ancestorVars hResolves.decl hVars var⟩
    have hValues := congrArg Key.values hResolves.key_eq
    rw [congrArg Key.values hResolves'.key_eq] at hValues
    exact hValues.symm
  · -- Arguments that agree give one key, under which there is one instance.
    rintro ⟨rfl, hAgrees⟩
    cases hResolves.decl.symm.trans hResolves'.decl
    have hParent : i.key.parent = j.key.parent :=
      hSound.encloses_unique hResolves.parent hResolves'.parent
    have hInherits := hResolves.inherits
    rw [hParent] at hInherits
    refine hSound.eq_of_key hi hj ?_
    rw [hResolves.key_eq, hResolves'.key_eq, hParent]
    exact hInherits.key_eq hResolves'.inherits hAgrees

/-- Sharing as callers see it. Two successful requests, with any calls before and between them, get
the same instance exactly if they name the same module with arguments that agree. And no two
instances of a module differ only in their handles: there is one for all arguments that agree all
the way up, and one at most if there are no parameters on the way. -/
theorem instantiate_eq_iff_agrees (p : Program) (types : TypeStore) :
    (∀ (before between : List Call) (target target' : ModuleId) (a b : List Argument)
        (id id' : InstanceId) (s t : RunState),
      (∀ m, p.tree.readModule target = .ok m → m.typeVars.Nodup) →
      Run.instantiate p target a (.after p before (.start types)) = .ok id s →
      Run.instantiate p target' b (s.after p between) = .ok id' t →
      (id = id' ↔ target = target' ∧ List.Forall₂ Argument.Agrees a b)) ∧
    ∀ (calls : List Call) (a b : InstanceId) (i j : Instance),
      (RunState.after p calls (.start types)).instances.get? a = some i →
      (RunState.after p calls (.start types)).instances.get? b = some j → i.source = j.source →
      AgreeUpwards (RunState.after p calls (.start types)).instances (some a) (some b) ∨
        p.tree.Plain i.source → a = b := by
  constructor
  · intro before between target target' a b id id' s t hDistinct hFirst hSecond
    have hBefore := Sound.after_start p types before
    have hGranted := (Run.instantiate_ensures p target a hBefore).of_ok hFirst
    have hSound := hBefore.steps hGranted.advances.steps
    have hGranted' := (Run.instantiate_ensures p target' b (hSound.after between)).of_ok hSecond
    have hLater : Steps p s t := (hSound.steps_after between).trans hGranted'.advances.steps
    exact (hGranted.answers.grow hLater.grows).eq_iff_outside (hSound.steps hLater)
      hGranted'.answers hDistinct
  · rintro calls a b i j hi hj hSource (hAgree | hPlain)
    · exact (Sound.after_start p types calls).eq_of_agreeUpwards hi hj hSource hAgree
    · exact (Sound.after_start p types calls).eq_of_plain hi hj hSource hPlain

/-- A box for numbers is not one for truth values, but the same one when it is asked for again after
the work-list was drained. -/
theorem instantiate_box_twice : ∃ number again truth s t u,
    Run.instantiate Sample.program ⟨0⟩ [.type ⟨5⟩] (.start Sample.types) = .ok number s ∧
    Run.instantiate Sample.program ⟨0⟩ [.type ⟨5⟩] (s.after Sample.program [.drain]) = .ok again t ∧
    Run.instantiate Sample.program ⟨0⟩ [.type ⟨1⟩] (s.after Sample.program [.drain]) =
      .ok truth u ∧ number = again ∧ number ≠ truth := by
  obtain ⟨number, s, hNumber⟩ := Update.exists_of_succeeds
    (show (Run.instantiate Sample.program ⟨0⟩ [.type ⟨5⟩]).succeeds (.start Sample.types) = true by
      decide +kernel)
  have hDistinct : ∀ m, Sample.program.tree.readModule ⟨0⟩ = .ok m → m.typeVars.Nodup := by
    intro m hDecl
    cases hDecl
    decide
  have hState := Update.leave_of_ok hNumber
  obtain ⟨again, t, hAgain⟩ : ∃ again t, Run.instantiate Sample.program ⟨0⟩ [.type ⟨5⟩]
      (s.after Sample.program [.drain]) = .ok again t := by
    rw [← hState]
    exact Update.exists_of_succeeds (by decide +kernel)
  obtain ⟨truth, u, hTruth⟩ : ∃ truth u, Run.instantiate Sample.program ⟨0⟩ [.type ⟨1⟩]
      (s.after Sample.program [.drain]) = .ok truth u := by
    rw [← hState]
    exact Update.exists_of_succeeds (by decide +kernel)
  have hShares := (instantiate_eq_iff_agrees Sample.program Sample.types).1 [] [.drain]
  refine ⟨number, again, truth, s, t, u, hNumber, hAgain, hTruth, ?_, fun hSame => ?_⟩
  · exact (hShares _ _ _ _ _ _ _ _ hDistinct hNumber hAgain).mpr ⟨rfl, .cons (.type _) .nil⟩
  · obtain ⟨-, hAgrees⟩ := (hShares _ _ _ _ _ _ _ _ hDistinct hNumber hTruth).mp hSame
    cases hAgrees with
    | cons hHead _ => cases hHead

end Specializer
