import Specializer.Proofs.Scheme.Checked
import Specializer.Proofs.Scheme.Opened

/-!
# Substituting in a scheme and instantiating it

A substitution in a scheme leaves the quantified variables alone, even where it has replacements for
them. If it brings none of them into the body from outside, substituting commutes with
instantiating: the scheme and the actual types may be substituted first, or the instance afterwards.
Both ways act on the variables of the body as one substitution does, which maps the quantified ones
to the substituted actual types and the others as before.
-/

set_option autoImplicit false

namespace Specializer

open TypeStore Update

namespace Scheme

/-- Substitute in the scheme and in the actual types, and instantiate then. -/
def substituteFirst (scheme : Scheme) (sub : Substitution) (actuals : List TypeId) :
    TypeUpdate TypeId := do
  let renamed ← scheme.substitute sub
  let images ← actuals.mapM sub.apply
  return (← renamed.instantiate (some images)).2

/-- Instantiate with the actual types, and substitute in the result. -/
def instantiateFirst (scheme : Scheme) (sub : Substitution) (actuals : List TypeId) :
    TypeUpdate TypeId := do
  sub.apply (← scheme.instantiate (some actuals)).2

/-- What replaces a variable of the body that is not quantified mentions none that is. -/
def Avoids (scheme : Scheme) (types : TypeStore) (sub : Substitution) : Prop :=
  ∀ vars var type mentioned, types.vars scheme.body = .ok vars → var ∈ vars → var ∉ scheme.bound →
    sub.get? var = some type → types.vars type = .ok mentioned → mentioned.Disjoint scheme.bound

variable {s w : TypeStore} {scheme : Scheme} {sub : Substitution} {var type : TypeId} {node : Node}

theorem Avoids.not_mem_bound (h : scheme.Avoids s sub) (hGround : s.Grounded)
    (hBody : s.Minted scheme.body) (hSub : sub.MintedIn s) (hExt : s.Extends w)
    (hReach : w.Reaches scheme.body var) (hNode : w.read var = .ok node)
    (hVar : node.isVariable = true) (hNot : var ∉ scheme.bound) (hGet : sub.get? var = some type)
    {below : TypeId} {other : Node} (hBelow : w.Reaches type below)
    (hOther : w.read below = .ok other) (hOtherVar : other.isVariable = true) :
    below ∉ scheme.bound := by
  obtain ⟨vars, hVars⟩ := hGround.exists_vars hBody
  obtain ⟨mentioned, hMentioned⟩ := hGround.exists_vars (hSub hGet)
  have hMem := (mem_vars_iff (vars_mono hExt hVars)).mpr ⟨hReach, node, hNode, hVar⟩
  have hMem' := (mem_vars_iff (vars_mono hExt hMentioned)).mpr ⟨hBelow, other, hOther, hOtherVar⟩
  exact h vars var type mentioned hVars hMem hNot hGet hMentioned hMem'

end Scheme

namespace TypeStore

variable {s t w : TypeStore} {scheme : Scheme} {sub : Substitution} {actuals : List TypeId}

theorem Image.reaches_replacement {mode : Strictness} {id image var : TypeId} {node : Node}
    (h : s.Image sub mode id image) (hReach : s.Reaches id var) (hNode : s.read var = .ok node)
    (hVar : node.isVariable = true) : s.Reaches image ((sub.get? var).getD var) := by
  induction hReach generalizing image with
  | refl id =>
    rw [h.of_variable hNode hVar]
    exact .refl _
  | @step id part last outer hOuter hPart _ ih =>
    have hNot : outer.isVariable = false := by
      apply Bool.eq_false_iff.mpr
      intro hVar
      rw [outer.components_of_isVariable hVar] at hPart
      cases hPart
    obtain ⟨parts, hImages, hRead⟩ := h.of_composed hOuter hNot
    obtain ⟨partImage, hMem, hPartImage⟩ := exists_mem_right_of_forall₂ hImages hPart
    rw [← outer.components_withComponents parts hImages.length_eq.symm] at hMem
    exact .step hRead hMem (ih hPartImage hNode)

theorem Grounded.mapM_apply_succeeds {ids : List TypeId} (hGround : s.Grounded)
    (hSub : sub.MintedIn s) (hIds : ∀ id ∈ ids, s.Minted id) :
    ∃ images t, ids.mapM sub.apply s = .ok images t ∧ s.Grown t ∧ t.Grounded ∧
      List.Forall₂ (fun id image => t.Image sub .lenient id image ∧ t.Minted image) ids images := by
  induction ids generalizing s with
  | nil => exact ⟨[], s, rfl, .refl s, hGround, .nil⟩
  | cons id rest ih =>
    obtain ⟨image, t, hApply, hst, hImage, ht, hMinted⟩ :=
      hGround.apply_succeeds hSub (hIds id List.mem_cons_self)
    obtain ⟨images, u, hRest, htu, hu, hImages⟩ := ih ht (hSub.extend hst.extension)
      fun other hOther => (hIds other (List.mem_cons_of_mem _ hOther)).extend hst.extension
    refine ⟨image :: images, u, ?_, hst.trans htu, hu, .cons ⟨?_, ?_⟩ hImages⟩
    · rw [List.mapM_cons, bind_of_ok hApply, bind_of_ok hRest]
      rfl
    · exact hImage.extend htu.extension
    · exact hMinted.extend htu.extension

theorem Grounded.substitute_succeeds (hGround : s.Grounded) (hSub : sub.MintedIn s)
    (hBody : s.Minted scheme.body) :
    ∃ renamed t, scheme.substitute sub s = .ok ⟨scheme.bound, renamed⟩ t ∧ s.Grown t ∧
      t.Image (sub.without scheme.bound) .lenient scheme.body renamed ∧ t.Grounded ∧
      t.Minted renamed := by
  have hWithout : (sub.without scheme.bound).MintedIn s := by
    intro var type hGet
    rw [Substitution.get?_without] at hGet
    split at hGet
    · cases hGet
    · exact hSub hGet
  obtain ⟨renamed, t, hApply, hRest⟩ := hGround.apply_succeeds hWithout hBody
  refine ⟨renamed, t, ?_, hRest⟩
  rw [Scheme.substitute, bind_of_ok hApply]
  rfl

/-- `final` stands for the body of the substituted scheme under the substituted actual types. -/
def SubstitutedFirst (w : TypeStore) (scheme : Scheme) (sub : Substitution) (actuals : List TypeId)
    (final : TypeId) : Prop :=
  ∃ renamed images, w.Image (sub.without scheme.bound) .lenient scheme.body renamed ∧
    List.Forall₂ (fun type image => w.Image sub .lenient type image ∧ w.Minted image)
      actuals images ∧
    w.Image (.pairing scheme.bound images) .lenient renamed final

def InstantiatedFirst (w : TypeStore) (scheme : Scheme) (sub : Substitution)
    (actuals : List TypeId) (final : TypeId) : Prop :=
  ∃ opened, w.Image (.pairing scheme.bound actuals) .lenient scheme.body opened ∧
    w.Image sub .lenient opened final

theorem SubstitutedFirst.extend {final : TypeId} (h : s.SubstitutedFirst scheme sub actuals final)
    (hExt : s.Extends t) : t.SubstitutedFirst scheme sub actuals final := by
  obtain ⟨renamed, images, hRenamed, hImages, hFinal⟩ := h
  refine ⟨renamed, images, hRenamed.extend hExt, hImages.imp ?_, hFinal.extend hExt⟩
  exact fun _ _ h => ⟨h.1.extend hExt, h.2.extend hExt⟩

theorem InstantiatedFirst.extend {final : TypeId} (h : s.InstantiatedFirst scheme sub actuals final)
    (hExt : s.Extends t) : t.InstantiatedFirst scheme sub actuals final := by
  obtain ⟨opened, hOpened, hFinal⟩ := h
  exact ⟨opened, hOpened.extend hExt, hFinal.extend hExt⟩

section Runs

variable (hGround : s.Grounded) (hSub : sub.MintedIn s) (hBody : s.Minted scheme.body)
  (hLength : actuals.length = scheme.arity) (hActuals : ∀ type ∈ actuals, s.Minted type)
include hGround hSub hBody hLength hActuals

theorem Grounded.substituteFirst_succeeds :
    ∃ final t, scheme.substituteFirst sub actuals s = .ok final t ∧ s.Grown t ∧ t.Grounded ∧
      t.SubstitutedFirst scheme sub actuals final := by
  obtain ⟨renamed, t, hSubstitute, hst, hRenamed, ht, hMinted⟩ :=
    hGround.substitute_succeeds hSub hBody
  obtain ⟨images, u, hApply, htu, hu, hImages⟩ := ht.mapM_apply_succeeds (hSub.extend hst.extension)
    fun type hType => (hActuals type hType).extend hst.extension
  have hImagesMinted : ∀ image ∈ images, u.Minted image := by
    intro image hImage
    obtain ⟨_, -, -, hMinted⟩ := exists_mem_left_of_forall₂ hImages hImage
    exact hMinted
  have hRenamedMinted : u.Minted (Scheme.mk scheme.bound renamed).body :=
    hMinted.extend htu.extension
  obtain ⟨final, v, hRun, huv, hFinal, hv, -⟩ := hu.instantiate_actuals hRenamedMinted
    (hImages.length_eq.symm.trans hLength) hImagesMinted
  refine ⟨final, v, ?_, (hst.trans htu).trans huv, hv, renamed, images, ?_, ?_, hFinal⟩
  · rw [Scheme.substituteFirst, bind_of_ok hSubstitute, bind_of_ok hApply, bind_of_ok hRun]
    rfl
  · exact hRenamed.extend (htu.trans huv).extension
  · exact hImages.imp fun _ _ h => ⟨h.1.extend huv.extension, h.2.extend huv.extension⟩

theorem Grounded.instantiateFirst_succeeds :
    ∃ final t, scheme.instantiateFirst sub actuals s = .ok final t ∧ s.Grown t ∧ t.Grounded ∧
      t.InstantiatedFirst scheme sub actuals final := by
  obtain ⟨opened, t, hRun, hst, hOpened, ht, hMinted⟩ :=
    hGround.instantiate_actuals hBody hLength hActuals
  obtain ⟨final, u, hApply, htu, hFinal, hu, -⟩ :=
    ht.apply_succeeds (hSub.extend hst.extension) hMinted
  refine ⟨final, u, ?_, hst.trans htu, hu, opened, hOpened.extend htu.extension, hFinal⟩
  rw [Scheme.instantiateFirst, bind_of_ok hRun, hApply]

end Runs

section Meeting

variable {images : List TypeId} {var last : TypeId} {node : Node} (hBuilt : s.Built)
  (hSub : sub.MintedIn s) (hBody : s.Minted scheme.body)

include hBuilt hSub hBody in
theorem Built.substituted_variable (hAvoids : scheme.Avoids s sub)
    (hCount : images.length = scheme.arity) (hsw : s.Grown w) (hReach : w.Reaches scheme.body var)
    (hNode : w.read var = .ok node) (hVar : node.isVariable = true)
    (hLast : w.Image (.pairing scheme.bound images) .lenient
      (((sub.without scheme.bound).get? var).getD var) last) :
    last = ((sub.extend (.pairing scheme.bound images)).get? var).getD var := by
  have hGround := hBuilt.grounded
  have hExt := hsw.extension
  rw [Substitution.get?_extend]
  rw [Substitution.get?_without] at hLast
  by_cases hBound : var ∈ scheme.bound
  · -- A quantified variable has stayed in the body and goes to its actual type now.
    obtain ⟨image, hImage⟩ :=
      Option.isSome_iff_exists.mp ((Substitution.isSome_get?_pairing hCount).mpr hBound)
    rw [if_pos hBound, Option.getD_none] at hLast
    rw [hLast.of_variable hNode hVar, hImage, Option.some_or]
  · have hNone := (Substitution.get?_pairing_eq_none_iff hCount).mpr hBound
    rw [if_neg hBound] at hLast
    rw [hNone, Option.none_or]
    cases hGet : sub.get? var with
    | none =>
      rw [hGet, Option.getD_none] at hLast
      rw [hLast.of_variable hNode hVar, hNone]
    | some type =>
      rw [hGet, Option.getD_some] at hLast
      -- Its replacement mentions nothing that the instantiation maps, so it stays as it is.
      refine hLast.eq_of_keeps ⟨_, AllWithin.extend (hGround.allWithin (hSub hGet) ?_) hExt⟩
      intro below other hBelow hOther hOtherVar
      have hOutside := hAvoids.not_mem_bound hGround hBody hSub hExt hReach hNode hVar hBound hGet
        (hBelow.extend hExt) (hExt hOther) hOtherVar
      exact .inl ((Substitution.get?_pairing_eq_none_iff hCount).mpr hOutside)

include hBuilt in
theorem Built.instantiated_variable (hActuals : ∀ type ∈ actuals, s.Minted type)
    (hFreeActuals : ∀ type ∈ actuals, s.ModuleFree type) (hsw : s.Grown w)
    (hImages : List.Forall₂ (w.Image sub .lenient) actuals images) (hNode : w.read var = .ok node)
    (hVar : node.isVariable = true) (hLast : w.Image sub .lenient
      (((Substitution.pairing scheme.bound actuals).get? var).getD var) last) :
    last = ((sub.extend (.pairing scheme.bound images)).get? var).getD var := by
  obtain ⟨found, hZip, hLeft, hRight⟩ :=
    Substitution.get?_pairing_both scheme.bound hImages.length_eq var
  rw [Substitution.get?_extend, hRight]
  rw [hLeft] at hLast
  cases found with
  | none =>
    rw [Option.map_none, Option.getD_none] at hLast
    rw [Option.map_none, Option.none_or, hLast.of_variable hNode hVar]
  | some pair =>
    rw [Option.map_some, Option.getD_some] at hLast
    rw [Option.map_some, Option.some_or, Option.getD_some]
    have hPair := hZip pair rfl
    have hActual := (List.of_mem_zip hPair).1
    have hStructural := hBuilt.grounded.structuralWithin (hActuals _ hActual)
      (hFreeActuals _ hActual)
    exact (hsw.canonical hBuilt.canonical).image_unique
      (StructuralWithin.steady (AllWithin.extend hStructural hsw.extension)) hLast
      (List.forall₂_zip hImages hPair)

include hBuilt hSub hBody in
/-- Wherever both ways were gone, they have led to one handle. -/
theorem Built.ways_meet {first second : TypeId} (hLength : actuals.length = scheme.arity)
    (hActuals : ∀ type ∈ actuals, s.Minted type) (hFree : s.ModuleFree scheme.body)
    (hFreeActuals : ∀ type ∈ actuals, s.ModuleFree type) (hAvoids : scheme.Avoids s sub)
    (hsw : s.Grown w) (hw : w.Grounded) (hFirst : w.SubstitutedFirst scheme sub actuals first)
    (hSecond : w.InstantiatedFirst scheme sub actuals second) : first = second := by
  obtain ⟨renamed, images, hRenamed, hImages, hFirst⟩ := hFirst
  obtain ⟨opened, hOpened, hSecond⟩ := hSecond
  have hJoint : (sub.extend (.pairing scheme.bound images)).MintedIn w := by
    intro var type hGet
    rw [Substitution.get?_extend, Option.or_eq_some_iff] at hGet
    rcases hGet with hGet | ⟨-, hGet⟩
    · obtain ⟨_, -, -, hMinted⟩ :=
        exists_mem_left_of_forall₂ hImages (Substitution.mem_of_get?_pairing hGet)
      exact hMinted
    · exact (hSub hGet).extend hsw.extension
  -- The joint substitution is applied to the same body, in a store that has grown once more.
  obtain ⟨joint, x, -, hwx, hJointImage, -, -⟩ :=
    hw.apply_succeeds hJoint (hBody.extend hsw.extension)
  have hsx := hsw.trans hwx
  have hExt := hwx.extension
  have hCanonical := hsx.canonical hBuilt.canonical
  have hStructural := AllWithin.extend (hBuilt.grounded.structuralWithin hBody hFree) hsx.extension
  have hCount : images.length = scheme.arity := hImages.length_eq.symm.trans hLength
  have hImages' : List.Forall₂ (x.Image sub .lenient) actuals images :=
    hImages.imp fun _ _ h => h.1.extend hExt
  have hLeft : joint = first := hCanonical.image_in_turn
    (fun _ _ _ hReach hNode hVar hLast => hBuilt.substituted_variable hSub hBody hAvoids hCount hsx
      hReach hNode hVar hLast)
    hStructural hJointImage (hRenamed.extend hExt) (hFirst.extend hExt)
  have hRight : joint = second := hCanonical.image_in_turn
    (fun _ _ _ _ hNode hVar hLast => hBuilt.instantiated_variable hActuals hFreeActuals hsx hImages'
      hNode hVar hLast)
    hStructural hJointImage (hOpened.extend hExt) (hSecond.extend hExt)
  exact hLeft.symm.trans hRight

end Meeting

theorem Built.mem_vars_substituted {renamed var : TypeId} {vars after : List TypeId}
    (hBuilt : s.Built) (hSub : sub.MintedIn s) (hBody : s.Minted scheme.body)
    (hAvoids : scheme.Avoids s sub) (hst : s.Grown t)
    (hRenamed : t.Image (sub.without scheme.bound) .lenient scheme.body renamed)
    (hVars : s.vars scheme.body = .ok vars) (hAfter : t.vars renamed = .ok after)
    (hBound : var ∈ scheme.bound) : var ∈ after ↔ var ∈ vars := by
  have hExt := hst.extension
  rw [mem_vars_iff hAfter, mem_vars_iff (vars_mono hExt hVars)]
  have hStays : (sub.without scheme.bound).get? var = none := by
    rw [Substitution.get?_without, if_pos hBound]
  constructor
  · rintro ⟨hReach, node, hNode, hVar⟩
    obtain ⟨source, other, hSource, hOther, hOtherVar, hBelow⟩ :=
      hRenamed.reaches_variable hReach hNode hVar
    rw [Substitution.get?_without] at hBelow
    split at hBelow
    case isTrue =>
      obtain rfl := hBelow.eq_of_isVariable hOther hOtherVar
      exact ⟨hSource, node, hNode, hVar⟩
    case isFalse hNot =>
      cases hGet : sub.get? source with
      | none =>
        rw [hGet, Option.getD_none] at hBelow
        obtain rfl := hBelow.eq_of_isVariable hOther hOtherVar
        exact absurd hBound hNot
      | some type =>
        rw [hGet, Option.getD_some] at hBelow
        exact absurd hBound (hAvoids.not_mem_bound hBuilt.grounded hBody hSub hExt hSource hOther
          hOtherVar hNot hGet hBelow hNode hVar)
  · rintro ⟨hReach, node, hNode, hVar⟩
    have hKept := hRenamed.reaches_replacement hReach hNode hVar
    rw [hStays, Option.getD_none] at hKept
    exact ⟨hKept, node, hNode, hVar⟩

/-- Substituting commutes with instantiating, in whichever order the two ways are gone and whatever
is done between them, if no module type is below the body or an actual type and the substitution
brings no quantified variable into the body. The substituted scheme quantifies the same variables,
and its body mentions the same of them. -/
theorem Built.instantiate_substitute (hBuilt : s.Built) (hSub : sub.MintedIn s)
    (hBody : s.Minted scheme.body) (hLength : actuals.length = scheme.arity)
    (hActuals : ∀ type ∈ actuals, s.Minted type) (hFree : s.ModuleFree scheme.body)
    (hFreeActuals : ∀ type ∈ actuals, s.ModuleFree type) (hAvoids : scheme.Avoids s sub) :
    (∃ final t, scheme.substituteFirst sub actuals s = .ok final t ∧ ∀ r, t.Leads r →
      ∃ u, scheme.instantiateFirst sub actuals r = .ok final u) ∧
    (∃ final t, scheme.instantiateFirst sub actuals s = .ok final t ∧ ∀ r, t.Leads r →
      ∃ u, scheme.substituteFirst sub actuals r = .ok final u) ∧
    ∃ renamed t vars after, scheme.substitute sub s = .ok renamed t ∧
      renamed.bound = scheme.bound ∧ s.vars scheme.body = .ok vars ∧
      t.vars renamed.body = .ok after ∧ ∀ var ∈ scheme.bound, var ∈ after ↔ var ∈ vars := by
  have hGround := hBuilt.grounded
  have hLater {r : TypeStore} (hsr : s.Grown r) : ∀ type ∈ actuals, r.Minted type :=
    fun type hType => (hActuals type hType).extend hsr.extension
  refine ⟨?_, ?_, ?_⟩
  · obtain ⟨final, t, hRun, hst, ht, hFirst⟩ :=
      hGround.substituteFirst_succeeds hSub hBody hLength hActuals
    refine ⟨final, t, hRun, fun r htr => ?_⟩
    have hsr := hst.trans htr.grown
    obtain ⟨other, u, hOther, hru, hu, hSecond⟩ :=
      (htr.grounded ht).instantiateFirst_succeeds (hSub.extend hsr.extension)
        (hBody.extend hsr.extension) hLength (hLater hsr)
    have hFirst' := hFirst.extend (htr.grown.trans hru).extension
    obtain rfl := hBuilt.ways_meet hSub hBody hLength hActuals hFree hFreeActuals hAvoids
      (hsr.trans hru) hu hFirst' hSecond
    exact ⟨u, hOther⟩
  · obtain ⟨final, t, hRun, hst, ht, hSecond⟩ :=
      hGround.instantiateFirst_succeeds hSub hBody hLength hActuals
    refine ⟨final, t, hRun, fun r htr => ?_⟩
    have hsr := hst.trans htr.grown
    obtain ⟨other, u, hOther, hru, hu, hFirst⟩ :=
      (htr.grounded ht).substituteFirst_succeeds (hSub.extend hsr.extension)
        (hBody.extend hsr.extension) hLength (hLater hsr)
    have hSecond' := hSecond.extend (htr.grown.trans hru).extension
    obtain rfl := hBuilt.ways_meet hSub hBody hLength hActuals hFree hFreeActuals hAvoids
      (hsr.trans hru) hu hFirst hSecond'
    exact ⟨u, hOther⟩
  · obtain ⟨renamed, t, hRun, hst, hRenamed, ht, hMinted⟩ := hGround.substitute_succeeds hSub hBody
    obtain ⟨vars, hVars⟩ := hGround.exists_vars hBody
    obtain ⟨after, hAfter⟩ := ht.exists_vars hMinted
    refine ⟨_, t, vars, after, hRun, rfl, hVars, hAfter, fun var hBound => ?_⟩
    exact hBuilt.mem_vars_substituted hSub hBody hAvoids hst hRenamed hVars hAfter hBound

namespace Sample

def linked : TypeStore := initial.after
  [.add (.var .bound ⟨0⟩), .add (.var .free ⟨1⟩), .add (.indirect .pointer ⟨13⟩ true),
    .add (.tuple [⟨15⟩, ⟨14⟩]), .add (.composite .moduleType [⟨some ⟨2⟩, ⟨14⟩, false⟩])]

theorem built_linked : linked.Built := ⟨_, by decide +kernel, rfl⟩

def link : Scheme := ⟨[⟨13⟩, ⟨13⟩], ⟨16⟩⟩

def enclose : Substitution := .ofPairs [(⟨13⟩, ⟨5⟩), (⟨14⟩, ⟨17⟩)]

theorem instantiate_substitute_link :
    (∃ final t u, link.substituteFirst enclose [⟨0⟩, ⟨14⟩] linked = .ok final t ∧
      link.instantiateFirst enclose [⟨0⟩, ⟨14⟩] t = .ok final u) ∧
    ∃ renamed t after, link.substitute enclose linked = .ok renamed t ∧
      renamed.bound = [⟨13⟩, ⟨13⟩] ∧ t.vars renamed.body = .ok after ∧ ⟨13⟩ ∈ after := by
  have hSub : enclose.MintedIn linked := Substitution.mintedIn_of_handles (by decide +kernel)
  have hOlder {id : TypeId} (h : id.index < 17) : linked.ModuleFree id :=
    built_linked.grounded.moduleFree_of_older (by decide +kernel) h
  have hBody : linked.vars link.body = .ok [⟨13⟩, ⟨14⟩] := by decide +kernel
  have hAvoids : link.Avoids linked enclose := by
    intro vars var type mentioned hVars hMem hNot hGet hMentioned
    cases hBody.symm.trans hVars
    rcases List.mem_pair.mp hMem with rfl | rfl
    · exact absurd (by decide) hNot
    · obtain rfl : ⟨17⟩ = type := Option.some.inj hGet
      have hModule : linked.vars ⟨17⟩ = .ok [⟨14⟩] := by decide +kernel
      cases hModule.symm.trans hMentioned
      simp [link]
  obtain ⟨⟨final, t, hFirst, hLater⟩, -, renamed, r, vars, after, hRun, hBound, hVars, hAfter,
    hSame⟩ := built_linked.instantiate_substitute hSub
      (show linked.Minted link.body by decide +kernel)
      (show [⟨0⟩, ⟨14⟩].length = link.arity from rfl) (by decide +kernel)
      (hOlder (by decide)) (fun type hType => hOlder (by revert type; decide)) hAvoids
  obtain ⟨u, hSecond⟩ := hLater t ⟨[], trivial, rfl⟩
  cases hBody.symm.trans hVars
  exact ⟨⟨final, t, u, hFirst, hSecond⟩, renamed, r, after, hRun, hBound, hAfter,
    (hSame ⟨13⟩ (by decide)).mpr (by decide)⟩

end Sample

end TypeStore

end Specializer
