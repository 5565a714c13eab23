import Specializer.Proofs.Substitution.Variables

/-!
# Applying a substitution again

Whatever was added for a type the first time is found again, apart from module types that change:
each of them gets a new handle every time. A new handle makes everything around it new, since a
store in which components come before the nodes around them has no node around a handle it does not
have. So the second result is the first one exactly if no module type below the type changes.
-/

set_option autoImplicit false

namespace Specializer

open Update

namespace TypeStore

variable {s t : TypeStore} {sub : Substitution} {id image : TypeId}

theorem add_of_isNominal {node : Node} (h : node.isNominal = true) :
    (s.add node).1 = ⟨s.size⟩ := by
  rw [add, if_pos h]
  rfl

theorem Canonical.add_of_read (hCanonical : s.Canonical) {node : Node}
    (hNode : s.read id = .ok node) (hNot : node.isNominal = false) : s.add node = (id, s) := by
  rcases s.add_cases node with ⟨hSame, hRead⟩ | ⟨-, -, hNew, -⟩
  · exact Prod.ext (hCanonical hRead hNode hNot) hSame
  · exact absurd hNode (hNew hNot id)

/-- Below `id` a nominal node is a variable itself or keeps its variables. -/
def SettledWithin (s : TypeStore) (sub : Substitution) (depth : Nat) (id : TypeId) : Prop :=
  s.AllWithin (fun id node => node.isNominal = true → node.isVariable = true ∨ s.Keeps sub id)
    depth id

theorem SettledWithin.extend {depth : Nat} (h : s.SettledWithin sub depth id)
    (hExt : s.Extends t) : t.SettledWithin sub depth id :=
  (AllWithin.extend h hExt).imp fun _ _ h hNominal => (h hNominal).imp_right fun h => h.extend hExt

/-- Where a type has an image already, applying the substitution finds it and adds nothing. -/
theorem Canonical.applyWithin_again (hCanonical : s.Canonical) {depth : Nat}
    (hSettled : s.SettledWithin sub depth id) (hImage : s.Image sub .lenient id image) :
    sub.applyWithin .lenient depth id s = .ok image s := by
  induction depth generalizing id image with
  | zero => exact hSettled.elim
  | succ depth ih =>
    obtain ⟨node, hNode, hNominal, hParts⟩ := hSettled
    rw [Substitution.applyWithin, bind_of_ok (Substitution.readNode_eq hNode)]
    cases hVar : node.isVariable with
    | true =>
      rw [if_pos rfl, hImage.of_variable hNode hVar]
      cases sub.get? id <;> rfl
    | false =>
      obtain ⟨parts, hImages, hCases⟩ := hImage.shared_or_rebuilt hNode hVar
      have hAgain : node.components.mapM (sub.applyWithin .lenient depth) s = .ok parts s := by
        apply Substitution.mapM_unchanged
        refine ((List.forall₂_and_left _ _).mpr ⟨hParts, hImages⟩).imp ?_
        rintro part image ⟨hPart, hPartImage⟩
        exact ih hPart hPartImage
      rw [if_neg Bool.false_ne_true, bind_of_ok hAgain]
      rcases hCases with ⟨hSame, rfl⟩ | ⟨hNe, hRead⟩
      · rw [if_pos hSame]
        rfl
      · -- A nominal node that keeps its variables would not have been rebuilt.
        have hKind : node.isNominal = false := by
          refine Bool.eq_false_iff.mpr fun hKind => hNe ?_
          obtain hVar' | hKeeps := hNominal hKind
          · rw [hVar] at hVar'
            cases hVar'
          · obtain rfl := hImage.eq_of_keeps hKeeps
            rw [← node.components_withComponents parts hImages.length_eq.symm,
              Except.ok.inj (hRead.symm.trans hNode)]
        have hFound := hCanonical.add_of_read hRead
          ((node.isNominal_withComponents parts).trans hKind)
        rw [if_neg hNe]
        change EStateM.Result.ok (s.add _).1 (s.add _).2 = _
        rw [hFound]

/-- A module type below `id` mentions a variable that goes elsewhere. -/
def MovesModule (s : TypeStore) (sub : Substitution) (id : TypeId) : Prop :=
  ∃ inner fields vars var type, s.Reaches id inner ∧
    s.read inner = .ok (.composite .moduleType fields) ∧ s.vars inner = .ok vars ∧ var ∈ vars ∧
    sub.get? var = some type ∧ type ≠ var

theorem MovesModule.extend (h : s.MovesModule sub id) (hExt : s.Extends t) :
    t.MovesModule sub id := by
  obtain ⟨inner, fields, vars, var, type, hReach, hNode, hVars, hRest⟩ := h
  exact ⟨inner, fields, vars, var, type, hReach.extend hExt, hExt hNode, vars_mono hExt hVars,
    hRest⟩

theorem Grounded.movesModule_iff (hGround : s.Grounded) : s.MovesModule sub id ↔
    ∃ inner fields, s.Reaches id inner ∧ s.read inner = .ok (.composite .moduleType fields) ∧
      ¬s.Keeps sub inner := by
  constructor
  · rintro ⟨inner, fields, vars, var, type, hReach, hNode, hVars, hMem, hGet, hNe⟩
    refine ⟨inner, fields, hReach, hNode, ?_⟩
    rintro ⟨_, hKeeps⟩
    obtain ⟨hBelow, node, hVarNode, hVar⟩ := (mem_vars_iff hVars).mp hMem
    obtain ⟨other, hOther, hFixes⟩ := hKeeps.of_reaches hBelow
    cases hVarNode.symm.trans hOther
    rw [Substitution.fixes_iff.mp (hFixes hVar), hGet, Option.getD_some] at hNe
    exact hNe rfl
  · rintro ⟨inner, fields, hReach, hNode, hKeeps⟩
    obtain ⟨vars, hVars⟩ := hGround.exists_vars ⟨_, hNode⟩
    refine not_not.mp fun hNone => hKeeps ⟨_, hGround.allWithin ⟨_, hNode⟩ ?_⟩
    intro var node hBelow hVarNode hVar
    cases hGet : sub.get? var with
    | none => exact .inl hGet
    | some type =>
      have hMem := (mem_vars_iff hVars).mpr ⟨hBelow, node, hVarNode, hVar⟩
      have hSame : type = var := not_not.mp fun hNe =>
        hNone ⟨inner, fields, vars, var, type, hReach, hNode, hVars, hMem, hGet, hNe⟩
      exact .inr (hSame ▸ hGet)

theorem Grounded.settledWithin (hGround : s.Grounded) (hId : s.Minted id)
    (hStill : ¬s.MovesModule sub id) : s.SettledWithin sub (id.index + 1) id := by
  refine hGround.allWithin hId fun last node hReach hNode hNominal => ?_
  unfold Node.isNominal at hNominal
  split at hNominal
  case h_1 fields =>
    refine .inr (not_not.mp fun hNot => hStill ?_)
    exact hGround.movesModule_iff.mpr ⟨last, fields, hReach, hNode, hNot⟩
  case h_2 => exact .inl rfl
  case h_3 => cases hNominal

theorem Grounded.movesModule_cases (hGround : s.Grounded) {node : Node}
    (hNode : s.read id = .ok node) (h : s.MovesModule sub id) :
    node.isVariable = false ∧ (node.isNominal = true ∧ ¬s.Keeps sub id ∨
      ∃ part ∈ node.components, s.MovesModule sub part) := by
  obtain ⟨inner, fields, hReach, hInner, hNot⟩ := hGround.movesModule_iff.mp h
  rcases (reaches_iff hNode).mp hReach with rfl | ⟨part, hPart, hBelow⟩
  · cases hNode.symm.trans hInner
    exact ⟨rfl, .inl ⟨rfl, hNot⟩⟩
  · refine ⟨Bool.eq_false_iff.mpr fun hVar => ?_, .inr ⟨part, hPart, ?_⟩⟩
    · rw [node.components_of_isVariable hVar] at hPart
      cases hPart
    · exact hGround.movesModule_iff.mpr ⟨inner, fields, hBelow, hInner, hNot⟩

/-- A node that is added later is not among the handles of before if it is nominal or if one of its
components is not. -/
theorem Grounded.add_not_minted (hs : s.Grounded) (hExt : s.Extends t) {node : Node}
    (hNew : node.isNominal = true ∨ ∃ part ∈ node.components, ¬s.Minted part) :
    ¬s.Minted (t.add node).1 := by
  have hSize := hExt.size_le
  rintro ⟨old, hOld⟩
  have hLt := minted_iff_lt.mp ⟨old, hOld⟩
  rcases hNew with hNominal | ⟨part, hPart, hNot⟩
  · rw [add_of_isNominal hNominal] at hLt
    exact absurd hLt (Nat.not_lt.mpr hSize)
  · rcases t.add_cases node with ⟨-, hRead⟩ | ⟨hNext, -⟩
    · cases (hExt hOld).symm.trans hRead
      exact hNot (hs.minted_part hOld hPart)
    · rw [hNext] at hLt
      exact absurd hLt (Nat.not_lt.mpr hSize)

section Rebuilt

variable {node : Node} {parts : List TypeId} (hGround : s.Grounded) (hNode : s.read id = .ok node)
  (hMoves : s.MovesModule sub id) (hExt : s.Extends t)
  (hParts : List.Forall₂ (fun part image => t.Image sub .lenient part image ∧
    (s.MovesModule sub part → ¬s.Minted image)) node.components parts)
include hGround hNode hMoves hExt hParts

theorem Grounded.components_ne_of_moves : parts ≠ node.components := by
  rintro rfl
  have hSelf := List.forall₂_same.mp hParts
  obtain ⟨hNot, ⟨-, hKeeps⟩ | ⟨part, hPart, hPartMoves⟩⟩ := hGround.movesModule_cases hNode hMoves
  · refine hKeeps ⟨_, hGround.allWithin ⟨node, hNode⟩ fun var other hReach hOther hVar => ?_⟩
    rcases (reaches_iff hNode).mp hReach with rfl | ⟨part, hPart, hBelow⟩
    · cases hNode.symm.trans hOther
      rw [hVar] at hNot
      cases hNot
    · exact (hSelf part hPart).1.fixes (hBelow.extend hExt) (hExt hOther) hVar
  · exact (hSelf part hPart).2 hPartMoves (hGround.minted_part hNode hPart)

theorem Grounded.rebuilt_not_minted : ¬s.Minted (t.add (node.withComponents parts)).1 := by
  refine hGround.add_not_minted hExt ?_
  rw [node.isNominal_withComponents, node.components_withComponents parts hParts.length_eq.symm]
  refine (hGround.movesModule_cases hNode hMoves).2.imp (fun h => h.1) ?_
  rintro ⟨part, hPart, hPartMoves⟩
  obtain ⟨image, hImage, -, hFresh⟩ := exists_mem_right_of_forall₂ hParts hPart
  exact ⟨image, hImage, hFresh hPartMoves⟩

end Rebuilt

end TypeStore

namespace Substitution

open TypeStore

theorem applyWithin_not_minted {sub : Substitution} {s : TypeStore} {id : TypeId} (depth : Nat)
    (hGround : s.Grounded) (hSub : sub.MintedIn s) (hMoves : s.MovesModule sub id) :
    (sub.applyWithin .lenient depth id).Ensures s (fun image _ => ¬s.Minted image)
      (fun _ _ => True) := by
  induction depth generalizing id s with
  | zero => exact Ensures.throw trivial
  | succ depth ih =>
    unfold applyWithin
    refine Ensures.bind (Q := fun node t => t = s ∧ s.read id = .ok node)
      (Ensures.bindGet (Ensures.read (fun node hNode => ⟨rfl, hNode⟩) fun _ _ => trivial))
      ?_ fun _ _ h => h
    rintro node t ⟨rfl, hNode⟩
    rw [(hGround.movesModule_cases hNode hMoves).1, if_neg Bool.false_ne_true]
    -- What is new is judged by the store at the start of the walk, which the later ones extend.
    refine Ensures.bind (Ensures.mapM (I := fun u => t.Grown u ∧ u.Grounded) (L := Extends)
      (R := fun u part image => u.Image sub .lenient part image ∧
        (t.MovesModule sub part → ¬t.Minted image)) Extends.refl (fun _ _ _ => Extends.trans)
      (fun _ _ _ _ hExt h => ⟨h.1.extend hExt, h.2⟩) ?_ ⟨.refl t, hGround⟩) ?_ fun _ _ h => h
    · rintro part - u ⟨hGrown, hu⟩
      have hExt := hGrown.extension
      have hSubU := hSub.extend hExt
      refine ((sub.applyWithin_ensures .lenient depth part u).and
        ((sub.applyWithin_grounded .lenient depth part u).and (Ensures.under fun hPart =>
          ih hu hSubU (MovesModule.extend hPart hExt)))).mono ?_ fun _ _ _ => trivial
      rintro image v ⟨⟨hGrown', hImage⟩, hv, hNew⟩
      refine ⟨⟨hGrown.trans hGrown', (hv hu hSubU).1⟩, hGrown'.extension, ⟨_, hImage⟩, ?_⟩
      exact fun hPart hMinted => hNew hPart (hMinted.extend hExt)
    · rintro parts u ⟨⟨hGrown, hu⟩, hExt, hParts⟩
      rw [if_neg (hGround.components_ne_of_moves hNode hMoves hExt hParts)]
      exact hGround.rebuilt_not_minted hNode hMoves hExt hParts

end Substitution

namespace TypeStore

variable {s : TypeStore} {sub : Substitution} {id : TypeId}

/-- Applying a substitution to a type a second time gives the handle of the first time and adds
nothing, unless a module type below the type changes; then it gives another handle. -/
theorem Built.apply_again (hBuilt : s.Built) (hSub : sub.MintedIn s) (hId : s.Minted id) :
    ∃ image t again u, sub.apply id s = .ok image t ∧ sub.apply id t = .ok again u ∧
      (again = image ∧ u = t ↔ ¬s.MovesModule sub id) ∧
      (s.MovesModule sub id → again ≠ image) := by
  have hGround := hBuilt.grounded
  obtain ⟨image, t, hApply, hGrown, hImage, ht, hMinted⟩ := hGround.apply_succeeds hSub hId
  have hExt := hGrown.extension
  have hSubT := hSub.extend hExt
  obtain ⟨again, u, hAgain, -⟩ := ht.apply_succeeds hSubT (hId.extend hExt)
  have hOther (hMoves : s.MovesModule sub id) : again ≠ image := by
    rintro rfl
    rw [Substitution.apply, Substitution.applyAs_eq] at hAgain
    exact (Substitution.applyWithin_not_minted _ ht hSubT (hMoves.extend hExt)).of_ok hAgain hMinted
  have hSame (hStill : ¬s.MovesModule sub id) : sub.apply id t = .ok image t := by
    have hSettled := (hGround.settledWithin hId hStill).extend hExt
    rw [Substitution.apply, Substitution.applyAs_eq]
    exact (hGrown.canonical hBuilt.canonical).applyWithin_again
      (hSettled.mono (Substitution.le_growingDepth (hId.extend hExt))) hImage
  refine ⟨image, t, again, u, hApply, hAgain, ⟨fun h hMoves => hOther hMoves h.1, fun h => ?_⟩,
    hOther⟩
  cases hAgain.symm.trans (hSame h)
  exact ⟨rfl, rfl⟩

namespace Sample

def around : TypeStore := initial.after (pairCalls ++ [.add (.tuple [⟨16⟩, ⟨17⟩])])

theorem built_around : around.Built := ⟨_, by decide +kernel, rfl⟩

theorem apply_again_exchange :
    (∃ image t, exchange.apply ⟨16⟩ pairs = .ok image t ∧ exchange.apply ⟨16⟩ t = .ok image t) ∧
      ∃ image t again u, exchange.apply ⟨21⟩ around = .ok image t ∧
        exchange.apply ⟨21⟩ t = .ok again u ∧ again ≠ image := by
  constructor
  · obtain ⟨image, t, again, u, hApply, hAgain, hIff, -⟩ :=
      built_pairs.apply_again mintedIn_exchange (show pairs.Minted ⟨16⟩ by decide +kernel)
    have hStill : ¬pairs.MovesModule exchange ⟨16⟩ := by
      rintro ⟨inner, fields, -, -, -, hReach, hNode, -⟩
      exact moduleFree_of_lt (by decide) inner fields hReach hNode
    obtain ⟨rfl, rfl⟩ := hIff.mpr hStill
    exact ⟨again, u, hApply, hAgain⟩
  · have hSub : exchange.MintedIn around := Substitution.mintedIn_of_handles (by decide +kernel)
    obtain ⟨image, t, again, u, hApply, hAgain, -, hOther⟩ :=
      built_around.apply_again hSub (show around.Minted ⟨21⟩ by decide +kernel)
    refine ⟨image, t, again, u, hApply, hAgain, hOther ?_⟩
    have hTuple : around.read ⟨21⟩ = .ok (.tuple [⟨16⟩, ⟨17⟩]) := by decide +kernel
    have hReach : around.Reaches ⟨21⟩ ⟨17⟩ := .step hTuple (by decide) (.refl _)
    exact ⟨⟨17⟩, [⟨some ⟨4⟩, ⟨16⟩, false⟩, ⟨some ⟨1⟩, ⟨14⟩, true⟩], [⟨13⟩, ⟨14⟩], ⟨13⟩, ⟨14⟩,
      hReach, by decide +kernel, by decide +kernel, by decide, by decide, by decide⟩

end Sample

end TypeStore

end Specializer
