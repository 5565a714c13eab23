import Specializer.Proofs.Substitution.Strict
import Specializer.Proofs.Substitution.Variables

/-!
# Strict and lenient substitution

Both take the same steps until a strict one meets a bound variable without a replacement. So a
strict substitution that succeeds gives the handle and the store that the lenient one gives, and one
that is refused names the first such variable of the type, with everything added until then left in
place.
-/

set_option autoImplicit false

namespace Specializer

open TypeStore Update

theorem Update.mapM_mono {σ ε α β : Type} {f g : α → Update σ ε β} {items : List α} {s t : σ}
    {answers : List β} (hStep : ∀ a s b t, f a s = .ok b t → g a s = .ok b t)
    (h : items.mapM f s = .ok answers t) : items.mapM g s = .ok answers t := by
  induction items generalizing s t answers with
  | nil => exact h
  | cons item rest ih =>
    rw [List.mapM_cons] at h ⊢
    obtain ⟨b, r, hItem, h⟩ := bind_eq_ok_iff.mp h
    obtain ⟨others, u, hRest, h⟩ := bind_eq_ok_iff.mp h
    rw [bind_of_ok (hStep item s b r hItem), bind_of_ok (ih hRest), h]

namespace Substitution

variable {sub : Substitution} {s t : TypeStore} {id image : TypeId}

/-- A success in either mode is one in lenient mode, with the same additions. -/
theorem applyWithin_lenient_of_ok {mode : Strictness} {depth : Nat}
    (h : sub.applyWithin mode depth id s = .ok image t) :
    sub.applyWithin .lenient depth id s = .ok image t := by
  induction depth generalizing id s image t with
  | zero => cases h
  | succ depth ih =>
    rw [applyWithin] at h ⊢
    obtain ⟨node, r, hNode, h⟩ := bind_eq_ok_iff.mp h
    rw [bind_of_ok hNode]
    cases hVar : node.isVariable with
    | true =>
      rw [hVar, if_pos rfl] at h
      rw [if_pos rfl]
      cases hGet : sub.get? id with
      | some replacement =>
        rw [hGet] at h
        exact h
      | none =>
        rw [hGet] at h
        by_cases hRefused : mode = .strict ∧ node.isBound = true
        · simp only [if_pos hRefused] at h
          cases h
        · simp only [if_neg hRefused] at h
          exact h
    | false =>
      rw [hVar, if_neg Bool.false_ne_true] at h
      rw [if_neg Bool.false_ne_true]
      obtain ⟨parts, u, hParts, h⟩ := bind_eq_ok_iff.mp h
      rw [bind_of_ok (mapM_mono (fun _ _ _ _ => ih) hParts), h]

theorem apply_of_applyStrict (h : sub.applyStrict id s = .ok image t) :
    sub.apply id s = .ok image t := by
  rw [applyStrict, applyAs_eq] at h
  rw [apply, applyAs_eq]
  exact applyWithin_lenient_of_ok h

/-- `var` is bound and has no replacement. -/
def Lacks (sub : Substitution) (types : TypeStore) (var : TypeId) : Prop :=
  ∃ node, types.read var = .ok node ∧ node.isBound = true ∧ sub.contains var = false

theorem firstUnmapped_eq_none_iff {vars : List TypeId} :
    sub.firstUnmapped s vars = none ↔ ∀ var ∈ vars, ¬sub.Lacks s var := by
  refine find?_eq_none_iff_forall fun var => ?_
  unfold Lacks
  cases s.read var <;> simp

theorem firstUnmapped_eq_some_iff {vars : List TypeId} {var : TypeId} :
    sub.firstUnmapped s vars = some var ↔ IsFirst (sub.Lacks s) vars var := by
  refine find?_eq_some_iff_isFirst fun var => ?_
  unfold Lacks
  cases s.read var <;> simp

theorem decidedBy_vars (sub : Substitution) {vars : List TypeId} (hVars : s.vars id = .ok vars) :
    sub.DecidedBy s vars (sub.applyStrict id) := by
  obtain ⟨found, hFound, h⟩ := Read.bind_eq_ok_iff.mp hVars
  cases Read.pure_eq_ok_iff.mp h
  have hDecided : sub.DecidedBy s found (sub.applyStrict id) := decidedBy_applyStrict hFound
  -- The walk meets every occurrence and `vars` has each variable once: the first is the same.
  unfold DecidedBy at hDecided ⊢
  rwa [show sub.firstUnmapped s found.eraseDups = sub.firstUnmapped s found from
    find?_eraseDups _ found]

end Substitution

namespace TypeStore

variable {s : TypeStore} {sub : Substitution} {id : TypeId}

/-- A strict substitution succeeds exactly if it maps every bound variable of the type, and then it
gives what a lenient one gives. Otherwise it names the first of them that it does not map, and every
older handle keeps its node. -/
theorem Built.applyStrict_refines (hBuilt : s.Built) (hSub : sub.MintedIn s) (hId : s.Minted id) :
    ∃ vars image t, s.vars id = .ok vars ∧ sub.apply id s = .ok image t ∧
      ((∃ result u, sub.applyStrict id s = .ok result u) ↔ ∀ var ∈ vars, ¬sub.Lacks s var) ∧
      (∀ result u, sub.applyStrict id s = .ok result u → result = image ∧ u = t) ∧
      ∀ e u, sub.applyStrict id s = .error e u →
        (∃ var, IsFirst (sub.Lacks s) vars var ∧ e = .refused (.unmapped var)) ∧
        ∀ old node, s.read old = .ok node → u.read old = .ok node := by
  have hGround := hBuilt.grounded
  obtain ⟨vars, hVars⟩ := hGround.exists_vars hId
  obtain ⟨image, t, hApply, -⟩ := hGround.apply_succeeds hSub hId
  have hDecided := sub.decidedBy_vars hVars (Extends.refl s)
  have hGrown := sub.applyAs_ensures .strict id s
  refine ⟨vars, image, t, hVars, hApply, ⟨?_, fun hMapped => ?_⟩, fun result u hStrict => ?_,
    fun e u hStrict => ⟨?_, fun old node hOld => ?_⟩⟩
  · rintro ⟨result, u, hStrict⟩
    exact Substitution.firstUnmapped_eq_none_iff.mp (hDecided.of_ok hStrict).2
  · cases hStrict : sub.applyStrict id s with
    | ok result u => exact ⟨result, u, rfl⟩
    | error e u =>
      obtain ⟨var, -, hFirst⟩ := hDecided.of_error hStrict
      rw [Substitution.firstUnmapped_eq_none_iff.mpr hMapped] at hFirst
      cases hFirst
  · cases (Substitution.apply_of_applyStrict hStrict).symm.trans hApply
    exact ⟨rfl, rfl⟩
  · obtain ⟨var, rfl, hFirst⟩ := hDecided.of_error hStrict
    exact ⟨var, Substitution.firstUnmapped_eq_some_iff.mp hFirst, rfl⟩
  · exact (hGrown.of_error hStrict).1.extension hOld

namespace Sample

def mixed : TypeStore := initial.after
  (pairCalls ++ [.add (.var .bound ⟨5⟩), .add (.tuple [⟨15⟩, ⟨21⟩, ⟨14⟩])])

theorem built_mixed : mixed.Built := ⟨_, by decide +kernel, rfl⟩

def half : Substitution := .ofPairs [(⟨13⟩, ⟨0⟩)]

def whole : Substitution := .ofPairs [(⟨13⟩, ⟨0⟩), (⟨21⟩, ⟨1⟩)]

theorem applyStrict_refines_mixed :
    (∃ t, half.applyStrict ⟨22⟩ mixed = .error (.refused (.unmapped ⟨21⟩)) t) ∧
      ∃ image t, whole.applyStrict ⟨22⟩ mixed = .ok image t ∧
        whole.apply ⟨22⟩ mixed = .ok image t := by
  have hId : mixed.Minted ⟨22⟩ := by decide +kernel
  have hMixed : mixed.vars ⟨22⟩ = .ok [⟨13⟩, ⟨21⟩, ⟨14⟩] := by decide +kernel
  constructor
  · have hHalf : half.MintedIn mixed := Substitution.mintedIn_of_handles (by decide +kernel)
    have hFirst : half.firstUnmapped mixed [⟨13⟩, ⟨21⟩, ⟨14⟩] = some ⟨21⟩ := by decide +kernel
    obtain ⟨vars, -, -, hVars, -, hIff, -, hRefused⟩ := built_mixed.applyStrict_refines hHalf hId
    cases hMixed.symm.trans hVars
    cases hStrict : half.applyStrict ⟨22⟩ mixed with
    | ok result u =>
      have hNone := Substitution.firstUnmapped_eq_none_iff.mpr (hIff.mp ⟨result, u, hStrict⟩)
      rw [hFirst] at hNone
      cases hNone
    | error e u =>
      obtain ⟨⟨var, hVar, rfl⟩, -⟩ := hRefused e u hStrict
      cases hFirst.symm.trans (Substitution.firstUnmapped_eq_some_iff.mpr hVar)
      exact ⟨u, rfl⟩
  · have hWhole : whole.MintedIn mixed := Substitution.mintedIn_of_handles (by decide +kernel)
    have hNone : whole.firstUnmapped mixed [⟨13⟩, ⟨21⟩, ⟨14⟩] = none := by decide +kernel
    obtain ⟨vars, image, t, hVars, hApply, hIff, hSame, -⟩ :=
      built_mixed.applyStrict_refines hWhole hId
    cases hMixed.symm.trans hVars
    obtain ⟨result, u, hStrict⟩ := hIff.mpr (Substitution.firstUnmapped_eq_none_iff.mp hNone)
    obtain ⟨rfl, rfl⟩ := hSame result u hStrict
    exact ⟨result, u, hStrict, hApply⟩

end Sample

end TypeStore

end Specializer
