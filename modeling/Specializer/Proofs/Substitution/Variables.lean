import Specializer.Proofs.FirstOccurrence
import Specializer.Proofs.Substitution.Laws
import Specializer.Proofs.Types.Variables

/-!
# Variables under a substitution

A type keeps its handle exactly if the substitution leaves every variable of it in place, and then
nothing is added to the store: a node that is rebuilt differs from the one it was made of, so it
cannot be found under the old handle. The variables of the result are those that stand in place of
the variables of the type, one after the other. Both are read off the leaves of trees, on which a
substitution acts by putting leaves in place of leaves.
-/

set_option autoImplicit false

namespace Specializer

open TypeStore Update

namespace Substitution

variable {s : TypeStore} {sub : Substitution} {id : TypeId}

theorem readNode_eq {node : Node} (hNode : s.read id = .ok node) : readNode id s = .ok node s := by
  change (liftM (s.read id) : TypeUpdate Node) s = _
  rw [hNode]
  rfl

theorem applyAs_eq (mode : Strictness) :
    sub.applyAs mode id s = sub.applyWithin mode (growingDepth s) id s := by
  have hGet : (get : TypeUpdate TypeStore) s = .ok s s := rfl
  rw [applyAs, bind_of_ok hGet]

theorem le_growingDepth (hId : s.Minted id) : id.index + 1 ≤ growingDepth s := by
  have hLt := minted_iff_lt.mp hId
  unfold growingDepth depth
  omega

theorem mapM_unchanged {update : TypeId → TypeUpdate TypeId} {ids images : List TypeId}
    (h : List.Forall₂ (fun id image => update id s = .ok image s) ids images) :
    ids.mapM update s = .ok images s := by
  induction h with
  | nil => rfl
  | cons hHead _ ih =>
    rw [List.mapM_cons, bind_of_ok hHead, bind_of_ok ih]
    rfl

/-- If every variable below a type stays, so does the type, and nothing is added. -/
theorem applyWithin_eq_self {depth : Nat}
    (h : s.AllWithin (fun id node => node.isVariable = true → sub.Fixes id) depth id) :
    sub.applyWithin .lenient depth id s = .ok id s := by
  induction depth generalizing id with
  | zero => exact h.elim
  | succ depth ih =>
    obtain ⟨node, hNode, hFixes, hParts⟩ := h
    rw [applyWithin, bind_of_ok (readNode_eq hNode)]
    cases hVar : node.isVariable with
    | true =>
      rw [if_pos rfl]
      rcases hFixes hVar with hNone | hSelf
      · rw [hNone]
        rfl
      · rw [hSelf]
        rfl
    | false =>
      have hSame := mapM_unchanged (List.forall₂_same.mpr fun part hPart => ih (hParts part hPart))
      rw [if_neg Bool.false_ne_true, bind_of_ok hSame, if_pos rfl]
      rfl

end Substitution

namespace TypeTree

mutual
def leaves : TypeTree → List TypeId
  | .leaf id => [id]
  | .node _ parts => leavesAll parts

def leavesAll : List TypeTree → List TypeId
  | [] => []
  | tree :: rest => leaves tree ++ leavesAll rest
end

theorem leavesAll_eq_flatten (trees : List TypeTree) :
    leavesAll trees = (trees.map leaves).flatten := by
  induction trees with
  | nil => rfl
  | cons tree rest ih => rw [leavesAll, ih, List.map_cons, List.flatten_cons]

def leavesFor (replace : TypeId → Option TypeTree) (id : TypeId) : List TypeId :=
  ((replace id).getD (.leaf id)).leaves

mutual
theorem leaves_substitute (replace : TypeId → Option TypeTree) (tree : TypeTree) :
    (tree.substitute replace).leaves = tree.leaves.flatMap (leavesFor replace) := by
  cases tree with
  | leaf id => rw [substitute, leaves, List.flatMap_singleton, leavesFor]
  | node head parts => rw [substitute, leaves, leaves, leavesAll_substituteAll replace parts]

theorem leavesAll_substituteAll (replace : TypeId → Option TypeTree) (trees : List TypeTree) :
    leavesAll (substituteAll replace trees) = (leavesAll trees).flatMap (leavesFor replace) := by
  cases trees with
  | nil => rfl
  | cons tree rest =>
    rw [substituteAll, leavesAll, leavesAll, List.flatMap_append, leaves_substitute replace tree,
      leavesAll_substituteAll replace rest]
end

end TypeTree

namespace TypeStore

variable {s t : TypeStore} {sub : Substitution} {id : TypeId}

/-- The occurrences of variables below a handle are the leaves of its tree. -/
theorem occurrencesWithin_of_unfoldWithin {depth : Nat} {tree : TypeTree}
    (h : s.unfoldWithin Node.isVariable depth id = .ok tree) :
    s.occurrencesWithin depth id = .ok tree.leaves := by
  induction depth generalizing id tree with
  | zero => cases h
  | succ depth ih =>
    obtain ⟨node, hNode, ⟨hVar, rfl⟩ | ⟨hNot, parts, hParts, rfl⟩⟩ :=
      unfoldWithin_succ_eq_ok_iff.mp h
    · rw [occurrencesWithin, hNode, Read.ok_bind, if_pos hVar]
      rfl
    · have hFound : node.components.mapM (s.occurrencesWithin depth) =
          .ok (parts.map TypeTree.leaves) :=
        Read.mapM_eq_ok_iff.mpr (List.forall₂_map_right_iff.mpr (hParts.imp fun _ _ => ih))
      rw [occurrencesWithin, hNode, Read.ok_bind, if_neg (by rw [hNot]; exact Bool.false_ne_true),
        hFound, TypeTree.leaves, TypeTree.leavesAll_eq_flatten]
      rfl

theorem Grounded.vars_eq (hGround : s.Grounded) (hId : s.Minted id) {tree : TypeTree}
    (hTree : s.Unfolds id tree) : s.vars id = .ok tree.leaves.eraseDups := by
  obtain ⟨depth, hTree⟩ := hTree
  obtain ⟨found, hFound⟩ := hGround.exists_occurrences hId
  have hLeaves := occurrencesWithin_mono (Extends.refl s) (Nat.le_max_left depth s.depth)
    (occurrencesWithin_of_unfoldWithin hTree)
  have hSame := occurrencesWithin_mono (Extends.refl s) (Nat.le_max_right depth s.depth) hFound
  cases hLeaves.symm.trans hSame
  rw [vars, hFound]
  rfl

/-- The variables that stand in place of a variable: those of its replacement, if it has one. -/
def varsFor (s : TypeStore) (sub : Substitution) (var : TypeId) : Read (List TypeId) :=
  match sub.get? var with
  | some type => s.vars type
  | none => .ok [var]

/-- If no replacement mentions a variable that has one, what stands in place of a variable stays. -/
theorem get?_eq_none_of_mem_varsFor
    (hApart : ∀ key type mentioned, sub.get? key = some type → s.vars type = .ok mentioned →
      ∀ var ∈ mentioned, sub.get? var = none) {source : TypeId} {part : List TypeId}
    (hPart : s.varsFor sub source = .ok part) {var : TypeId} (hMem : var ∈ part) :
    sub.get? var = none := by
  unfold varsFor at hPart
  split at hPart
  case h_1 type hMapped => exact hApart source type part hMapped hPart var hMem
  case h_2 hUnmapped =>
    cases hPart
    rwa [List.mem_singleton.mp hMem]

theorem Grounded.varsFor_eq (hGround : s.Grounded) (hSub : sub.MintedIn s)
    {replace : TypeId → Option TypeTree} (hReplace : s.Replaces sub replace) (var : TypeId) :
    s.varsFor sub var = .ok (TypeTree.leavesFor replace var).eraseDups := by
  have hRel := hReplace var
  unfold varsFor TypeTree.leavesFor
  cases hGet : sub.get? var with
  | none =>
    rw [hGet] at hRel
    generalize replace var = tree at hRel ⊢
    cases hRel
    simp [TypeTree.leaves, List.eraseDups_cons]
  | some type =>
    rw [hGet] at hRel
    generalize replace var = tree at hRel ⊢
    cases hRel with
    | some hTree => exact hGround.vars_eq (hSub hGet) hTree

theorem Grounded.apply_eq_self (hGround : s.Grounded) (hId : s.Minted id)
    (hFixes : ∀ var node, s.Reaches id var → s.read var = .ok node → node.isVariable = true →
      sub.Fixes var) : sub.apply id s = .ok id s := by
  have hAll := hGround.allWithin (G := fun id node => node.isVariable = true → sub.Fixes id) hId
    hFixes
  rw [Substitution.apply, Substitution.applyAs_eq]
  exact Substitution.applyWithin_eq_self (hAll.mono (Substitution.le_growingDepth hId))

theorem Image.fixes {mode : Strictness} {var : TypeId} {node : Node} (h : s.Image sub mode id id)
    (hReach : s.Reaches id var) (hNode : s.read var = .ok node) (hVar : node.isVariable = true) :
    sub.Fixes var := by
  induction hReach with
  | refl id => exact Substitution.fixes_iff.mpr (h.of_variable hNode hVar)
  | @step id part last outer hOuter hPart _ ih =>
    have hNot : outer.isVariable = false := by
      refine Bool.eq_false_iff.mpr fun hVar => ?_
      rw [outer.components_of_isVariable hVar] at hPart
      cases hPart
    obtain ⟨parts, hImages, hRead⟩ := h.of_composed hOuter hNot
    -- The node was not rebuilt, so every component stands for itself.
    have hSame : parts = outer.components := by
      rw [← outer.components_withComponents parts hImages.length_eq.symm,
        Except.ok.inj (hRead.symm.trans hOuter)]
    rw [hSame, List.forall₂_same] at hImages
    exact ih (hImages part hPart) hNode

/-- A type keeps its handle exactly if each of its variables has no replacement or is its own, and
then the store is left as it was. -/
theorem Built.apply_eq_self_iff (hBuilt : s.Built) (hSub : sub.MintedIn s) (hId : s.Minted id) :
    ∃ vars image t, s.vars id = .ok vars ∧ sub.apply id s = .ok image t ∧
      (image = id ↔ ∀ var ∈ vars, sub.get? var = none ∨ sub.get? var = some var) ∧
      (image = id → t = s) := by
  have hGround := hBuilt.grounded
  obtain ⟨vars, hVars⟩ := hGround.exists_vars hId
  obtain ⟨image, t, hApply, hGrown, hImage, -, -⟩ := hGround.apply_succeeds hSub hId
  have hFixes (hSame : image = id) : ∀ var ∈ vars, sub.Fixes var := by
    subst hSame
    intro var hMem
    obtain ⟨hReach, node, hNode, hVar⟩ := (mem_vars_iff hVars).mp hMem
    exact hImage.fixes (hReach.extend hGrown.extension) (hGrown.extension hNode) hVar
  have hSelf (hFixes : ∀ var ∈ vars, sub.Fixes var) : sub.apply id s = .ok id s :=
    hGround.apply_eq_self hId fun var node hReach hNode hVar =>
      hFixes var ((mem_vars_iff hVars).mpr ⟨hReach, node, hNode, hVar⟩)
  refine ⟨vars, image, t, hVars, hApply, ⟨hFixes, fun h => ?_⟩, fun h => ?_⟩
  · cases hApply.symm.trans (hSelf h)
    rfl
  · cases hApply.symm.trans (hSelf (hFixes h))
    rfl

namespace Sample

def keep : Substitution := .ofPairs [(⟨13⟩, ⟨13⟩), (⟨5⟩, ⟨1⟩)]

theorem apply_eq_self_keep : keep.apply ⟨17⟩ pairs = .ok ⟨17⟩ pairs ∧
    ∃ image t, exchange.apply ⟨17⟩ pairs = .ok image t ∧ image ≠ ⟨17⟩ := by
  have hKeep : keep.MintedIn pairs := Substitution.mintedIn_of_handles (by decide +kernel)
  have hId : pairs.Minted ⟨17⟩ := by decide +kernel
  have hPairs : pairs.vars ⟨17⟩ = .ok [⟨13⟩, ⟨14⟩] := by decide +kernel
  constructor
  · obtain ⟨vars, image, t, hVars, hApply, hIff, hSame⟩ := built_pairs.apply_eq_self_iff hKeep hId
    cases hPairs.symm.trans hVars
    obtain rfl := hIff.mpr (by decide)
    rw [hApply, hSame rfl]
  · obtain ⟨vars, image, t, hVars, hApply, hIff, -⟩ :=
      built_pairs.apply_eq_self_iff mintedIn_exchange hId
    cases hPairs.symm.trans hVars
    exact ⟨image, t, hApply, fun h => absurd (hIff.mp h) (by decide)⟩

end Sample

/-- The variables of the result are those that stand in place of the variables of the type, one
after the other and each at its first occurrence. If no replacement mentions a variable that has
one, the substitution has nothing left to do. -/
theorem Built.vars_apply (hBuilt : s.Built) (hSub : sub.MintedIn s) (hId : s.Minted id) :
    ∃ vars parts image t, s.vars id = .ok vars ∧ vars.mapM (s.varsFor sub) = .ok parts ∧
      sub.apply id s = .ok image t ∧ t.vars image = .ok parts.flatten.eraseDups ∧
      ((∀ key type mentioned, sub.get? key = some type → s.vars type = .ok mentioned →
        ∀ var ∈ mentioned, sub.get? var = none) → sub.apply image t = .ok image t) := by
  have hGround := hBuilt.grounded
  obtain ⟨image, t, hApply, hGrown, hImage, ht, hMinted⟩ := hGround.apply_succeeds hSub hId
  obtain ⟨tree, hTree⟩ := hGround.exists_unfolds hId
  obtain ⟨replace, hReplace⟩ := hGround.exists_replaces hSub
  have hExt := hGrown.extension
  have hParts : tree.leaves.eraseDups.mapM (s.varsFor sub) =
      .ok (tree.leaves.eraseDups.map fun var => (TypeTree.leavesFor replace var).eraseDups) := by
    rw [Read.mapM_eq_ok_iff, List.forall₂_map_right_iff, List.forall₂_same]
    exact fun var _ => hGround.varsFor_eq hSub hReplace var
  have hVars := ht.vars_eq hMinted (hImage.unfolds (hTree.extend hExt) (hReplace.extend hExt))
  rw [TypeTree.leaves_substitute, eraseDups_flatMap, List.flatMap_def] at hVars
  refine ⟨_, _, image, t, hGround.vars_eq hId hTree, hParts, hApply, hVars, fun hApart => ?_⟩
  refine ht.apply_eq_self hMinted fun var node hReach hNode hVar => .inl ?_
  have hMem := List.mem_eraseDups.mp ((mem_vars_iff hVars).mpr ⟨hReach, node, hNode, hVar⟩)
  obtain ⟨part, hPart, hMem⟩ := List.mem_flatten.mp hMem
  obtain ⟨source, -, hSource⟩ := exists_mem_left_of_forall₂ (Read.mapM_eq_ok_iff.mp hParts) hPart
  exact get?_eq_none_of_mem_varsFor hApart hSource hMem

namespace Sample

def triple : TypeStore :=
  initial.after (pairCalls ++ [.add (.var .bound ⟨5⟩), .add (.tuple [⟨21⟩, ⟨14⟩])])

theorem built_triple : triple.Built := ⟨_, by decide +kernel, rfl⟩

def spread : Substitution := .ofPairs [(⟨13⟩, ⟨22⟩)]

/-- The module mentions the first and then the second variable; with the pair in place of the first
the third one comes before the second, which is mentioned twice. -/
theorem vars_apply_spread : ∃ image t, spread.apply ⟨17⟩ triple = .ok image t ∧
    t.vars image = .ok [⟨21⟩, ⟨14⟩] ∧ spread.apply image t = .ok image t := by
  have hSpread : spread.MintedIn triple := Substitution.mintedIn_of_handles (by decide +kernel)
  obtain ⟨vars, parts, image, t, hVars, hParts, hApply, hImage, hAgain⟩ :=
    built_triple.vars_apply hSpread (show triple.Minted ⟨17⟩ by decide +kernel)
  have hTriple : triple.vars ⟨17⟩ = .ok [⟨13⟩, ⟨14⟩] := by decide +kernel
  cases hTriple.symm.trans hVars
  have hFor : [⟨13⟩, ⟨14⟩].mapM (triple.varsFor spread) = .ok [[⟨21⟩, ⟨14⟩], [⟨14⟩]] := by
    decide +kernel
  cases hFor.symm.trans hParts
  refine ⟨image, t, hApply, hImage, hAgain fun key type mentioned hGet hMentioned => ?_⟩
  cases List.mem_singleton.mp (spread.get?_eq_some_iff.mp hGet)
  have hPair : triple.vars ⟨22⟩ = .ok [⟨21⟩, ⟨14⟩] := by decide +kernel
  cases hPair.symm.trans hMentioned
  decide

end Sample

end TypeStore

end Specializer
