import Specializer.Proofs.Types.History

/-!
# The laws of substitutions

Applying a substitution to a handle is simultaneous substitution in the tree below it, and a
composed substitution acts as its parts one after the other. That holds of trees with module types
unfolded. Handles are the same too, as long as the inner substitution meets no module type: a module
type that changes gets a new handle each time, every other node has one handle.
-/

set_option autoImplicit false

namespace Specializer

namespace TypeTree

/-- The replacements of `outer` after those of `inner`. -/
def composeReplacements (outer inner : TypeId → Option TypeTree) (var : TypeId) : Option TypeTree :=
  match inner var with
  | some tree => some (tree.substitute outer)
  | none => outer var

mutual
theorem substitute_substitute (outer inner : TypeId → Option TypeTree) (tree : TypeTree) :
    (tree.substitute inner).substitute outer =
      tree.substitute (composeReplacements outer inner) := by
  cases tree with
  | leaf id => cases h : inner id <;> simp [substitute, composeReplacements, h]
  | node head parts => simp only [substitute, substituteAll_substituteAll outer inner parts]

theorem substituteAll_substituteAll (outer inner : TypeId → Option TypeTree)
    (trees : List TypeTree) : substituteAll outer (substituteAll inner trees) =
      substituteAll (composeReplacements outer inner) trees := by
  cases trees with
  | nil => rfl
  | cons tree rest =>
    simp only [substituteAll, substitute_substitute outer inner tree,
      substituteAll_substituteAll outer inner rest]
end

end TypeTree

namespace TypeStore

open Update

variable {s t : TypeStore} {sub outer inner composed : Substitution} {id middle a b : TypeId}

theorem Grounded.exists_unfolds (hGround : s.Grounded) (hMinted : s.Minted id) :
    ∃ tree, s.Unfolds id tree :=
  (hGround.allWithin (G := fun _ _ => True) hMinted fun _ _ _ _ => trivial).exists_unfolds

theorem Grounded.exists_replaces (hGround : s.Grounded) (hSub : sub.MintedIn s) :
    ∃ replace, s.Replaces sub replace :=
  Substitution.exists_replaces fun _ _ hGet => hGround.exists_unfolds (hSub hGet)

theorem Replaces.extend {replace : TypeId → Option TypeTree} (h : s.Replaces sub replace)
    (hExt : s.Extends t) : t.Replaces sub replace := by
  intro var
  have hRel := h var
  generalize sub.get? var = found, replace var = tree at hRel ⊢
  cases hRel with
  | none => exact .none
  | some hTree => exact .some (hTree.extend hExt)

/-- Replacements that nothing has handed out are no obstacle, but what is built around them is not
grounded. -/
theorem Grounded.exists_image (hGround : s.Grounded) (sub : Substitution) (hId : s.Minted id) :
    ∃ image t, sub.apply id s = .ok image t ∧ s.Grown t ∧ t.Image sub .lenient id image ∧
      (sub.MintedIn s → t.Grounded ∧ t.Minted image) := by
  refine Ensures.exists_ok ((sub.applyAs_ensures .lenient id s).mono ?_ ?_)
  · rintro image t ⟨hGrown, hImage, hKeeps⟩
    exact ⟨hGrown, hImage, hKeeps hGround⟩
  · rintro _ t ⟨-, -, hNot⟩
    exact hNot ⟨rfl, hGround, hId⟩

theorem Grounded.apply_succeeds (hGround : s.Grounded) (hSub : sub.MintedIn s)
    (hId : s.Minted id) : ∃ image t, sub.apply id s = .ok image t ∧ s.Grown t ∧
      t.Image sub .lenient id image ∧ t.Grounded ∧ t.Minted image := by
  obtain ⟨image, t, hApply, hGrown, hImage, hKeeps⟩ := hGround.exists_image sub hId
  exact ⟨image, t, hApply, hGrown, hImage, hKeeps hSub⟩

theorem Grounded.apply_twice (hGround : s.Grounded) (hOuter : outer.MintedIn s)
    (hInner : inner.MintedIn s) (hId : s.Minted id) :
    ∃ middle t final u, inner.apply id s = .ok middle t ∧ outer.apply middle t = .ok final u ∧
      s.Grown u ∧ u.Image inner .lenient id middle ∧ u.Image outer .lenient middle final ∧
      u.Grounded := by
  obtain ⟨middle, t, hMiddle, hst, hImage, ht, hMinted⟩ := hGround.apply_succeeds hInner hId
  obtain ⟨final, u, hFinal, htu, hImage', hu, -⟩ :=
    ht.apply_succeeds (hOuter.extend hst.extension) hMinted
  exact ⟨middle, t, final, u, hMiddle, hFinal, hst.trans htu, hImage.extend htu.extension,
    hImage', hu⟩

theorem Grounded.compose_succeeds (hGround : s.Grounded) (hOuter : outer.MintedIn s)
    (hInner : inner.MintedIn s) : ∃ composed t, outer.compose inner s = .ok composed t ∧
      s.Grown t ∧ Substitution.ComposedFrom t outer inner.entries composed ∧ t.Grounded ∧
      composed.MintedIn t := by
  refine Ensures.exists_ok ((outer.compose_ensures inner s).mono ?_ ?_)
  · rintro composed t ⟨hGrown, hFrom, hKeeps⟩
    exact ⟨hGrown, hFrom, hKeeps hGround hOuter⟩
  · rintro _ t ⟨-, -, hNot⟩
    exact hNot ⟨hGround, hOuter, hInner⟩

theorem Image.of_variable {mode : Strictness} {node : Node} (h : s.Image sub mode id a)
    (hNode : s.read id = .ok node) (hVar : node.isVariable = true) : a = (sub.get? id).getD id := by
  obtain ⟨depth, h⟩ := h
  cases depth with
  | zero => exact h.elim
  | succ depth =>
    obtain ⟨other, hOther, ⟨-, hMapped | ⟨hUnmapped, rfl, -⟩⟩ | ⟨hNot, -⟩⟩ := h
    · rw [hMapped, Option.getD_some]
    · rw [hUnmapped, Option.getD_none]
    · cases hNode.symm.trans hOther
      rw [hVar] at hNot
      cases hNot

/-- An image of any other type is the type itself if its components stand for themselves, and the
same node around images of them if not. -/
theorem Image.shared_or_rebuilt {mode : Strictness} {node : Node} (h : s.Image sub mode id a)
    (hNode : s.read id = .ok node) (hNot : node.isVariable = false) :
    ∃ parts, List.Forall₂ (s.Image sub mode) node.components parts ∧
      (parts = node.components ∧ a = id ∨
        parts ≠ node.components ∧ s.read a = .ok (node.withComponents parts)) := by
  obtain ⟨depth, h⟩ := h
  cases depth with
  | zero => exact h.elim
  | succ depth =>
    obtain ⟨other, hOther, ⟨hVar, -⟩ | ⟨-, parts, hParts, hImage⟩⟩ := h
    · cases hNode.symm.trans hOther
      rw [hVar] at hNot
      cases hNot
    · cases hNode.symm.trans hOther
      exact ⟨parts, hParts.imp fun _ _ h => ⟨depth, h⟩, hImage⟩

theorem Image.of_composed {mode : Strictness} {node : Node} (h : s.Image sub mode id a)
    (hNode : s.read id = .ok node) (hNot : node.isVariable = false) :
    ∃ parts, List.Forall₂ (s.Image sub mode) node.components parts ∧
      s.read a = .ok (node.withComponents parts) := by
  obtain ⟨parts, hParts, ⟨rfl, rfl⟩ | ⟨-, hRead⟩⟩ := h.shared_or_rebuilt hNode hNot
  · exact ⟨_, hParts, by rw [node.withComponents_components, hNode]⟩
  · exact ⟨parts, hParts, hRead⟩

theorem Image.of_composite {mode : Strictness} {shape : Shape} {fields : List Field}
    (h : s.Image sub mode id a) (hNode : s.read id = .ok (.composite shape fields)) :
    ∃ entries, s.read a = .ok (.composite shape entries) ∧
      List.Forall₂ (fun field entry => entry.name = field.name ∧ entry.isType = field.isType ∧
        s.Image sub mode field.type entry.type) fields entries := by
  obtain ⟨parts, hParts, hRead⟩ := h.of_composed hNode rfl
  refine ⟨_, hRead, ?_⟩
  have hTypes : List.Forall₂ (fun field part => s.Image sub mode field.type part) fields parts :=
    List.forall₂_map_left_iff.mp hParts
  clear hRead hNode hParts
  induction hTypes with
  | nil => exact .nil
  | cons hFirst _ ih => exact .cons ⟨rfl, rfl, hFirst⟩ ih

def ModuleFree (s : TypeStore) (id : TypeId) : Prop :=
  ∀ last fields, s.Reaches id last → s.read last ≠ .ok (.composite .moduleType fields)

theorem Grounded.moduleFree_of_older (hGround : s.Grounded) {bound : Nat}
    (hKinds : ∀ i < bound, (s.read ⟨i⟩).toOption.map Node.kind ≠ some "Module")
    (hId : id.index < bound) : s.ModuleFree id := by
  intro last fields hReach hRead
  apply hKinds last.index (Nat.lt_of_le_of_lt (hGround.le_of_reaches hReach) hId)
  rw [hRead]
  rfl

/-- Below `id` variables alone are nominal. -/
def StructuralWithin (s : TypeStore) (depth : Nat) (id : TypeId) : Prop :=
  s.AllWithin (fun _ node => node.isNominal = true → node.isVariable = true) depth id

theorem Grounded.structuralWithin (hGround : s.Grounded) (hId : s.Minted id)
    (hFree : s.ModuleFree id) : s.StructuralWithin (id.index + 1) id := by
  refine hGround.allWithin hId fun last node hReach hNode hNominal => ?_
  unfold Node.isNominal at hNominal
  split at hNominal
  case h_1 fields => exact absurd hNode (hFree last fields hReach)
  case h_2 => rfl
  case h_3 => cases hNominal

def VariableFreeWithin (s : TypeStore) (depth : Nat) (id : TypeId) : Prop :=
  s.AllWithin (fun _ node => node.isVariable = false) depth id

/-- Below `id` a nominal node is a variable itself or has none below it. -/
def SteadyWithin (s : TypeStore) (depth : Nat) (id : TypeId) : Prop :=
  s.AllWithin (fun id node => node.isNominal = true → node.isVariable = true ∨
    ∃ depth, s.VariableFreeWithin depth id) depth id

theorem StructuralWithin.steady {depth : Nat} (h : s.StructuralWithin depth id) :
    s.SteadyWithin depth id :=
  AllWithin.imp h fun _ _ h hNominal => .inl (h hNominal)

theorem Image.eq_of_variableFree {mode : Strictness} {depth : Nat} (h : s.Image sub mode id a)
    (hFree : s.VariableFreeWithin depth id) : a = id := by
  refine h.eq_of_keeps ⟨depth, AllWithin.imp hFree fun _ _ hNot hVar => ?_⟩
  rw [hVar] at hNot
  cases hNot

theorem Canonical.image_unique (hCanonical : s.Canonical) {mode : Strictness} {depth : Nat}
    (hSteady : s.SteadyWithin depth id) (ha : s.Image sub mode id a)
    (hb : s.Image sub mode id b) : a = b := by
  induction depth generalizing id a b with
  | zero => exact hSteady.elim
  | succ depth ih =>
    obtain ⟨node, hNode, hNominal, hParts⟩ := hSteady
    cases hVar : node.isVariable with
    | true => rw [ha.of_variable hNode hVar, hb.of_variable hNode hVar]
    | false =>
      cases hKind : node.isNominal with
      | true =>
        obtain hVar' | ⟨_, hFree⟩ := hNominal hKind
        · rw [hVar] at hVar'
          cases hVar'
        · rw [ha.eq_of_variableFree hFree, hb.eq_of_variableFree hFree]
      | false =>
        obtain ⟨parts, hImages, ha⟩ := ha.of_composed hNode hVar
        obtain ⟨parts', hImages', hb⟩ := hb.of_composed hNode hVar
        obtain rfl : parts = parts' :=
          forall₂_unique hImages hImages' fun part hPart _ _ => ih (hParts part hPart)
        refine hCanonical ha hb ?_
        rw [node.isNominal_withComponents, hKind]

/-- A type without module types gets one handle from a substitution and from two others in turn, if
each of its variables does. -/
theorem Canonical.image_in_turn (hCanonical : s.Canonical)
    (hVars : ∀ var node last, s.Reaches id var → s.read var = .ok node → node.isVariable = true →
      s.Image outer .lenient ((inner.get? var).getD var) last → last = (composed.get? var).getD var)
    {depth : Nat} (hFree : s.StructuralWithin depth id) (ha : s.Image composed .lenient id a)
    (hMiddle : s.Image inner .lenient id middle) (hb : s.Image outer .lenient middle b) :
    a = b := by
  induction depth generalizing id middle a b with
  | zero => exact hFree.elim
  | succ depth ih =>
    obtain ⟨node, hNode, hNominal, hParts⟩ := hFree
    cases hVar : node.isVariable with
    | true =>
      obtain rfl := hMiddle.of_variable hNode hVar
      rw [ha.of_variable hNode hVar, hVars id node b (.refl id) hNode hVar hb]
    | false =>
      obtain ⟨parts, hImages, ha⟩ := ha.of_composed hNode hVar
      obtain ⟨inners, hInners, hMiddle⟩ := hMiddle.of_composed hNode hVar
      have hLength := hInners.length_eq.symm
      obtain ⟨outers, hOuters, hb⟩ := hb.of_composed hMiddle
        (by rw [node.isVariable_withComponents, hVar])
      rw [node.components_withComponents inners hLength] at hOuters
      rw [node.withComponents_withComponents inners outers hLength
        (hOuters.length_eq.symm.trans hLength)] at hb
      have hTwice : List.Forall₂ (fun part last => ∃ middle, s.Image inner .lenient part middle ∧
          s.Image outer .lenient middle last) node.components outers :=
        forall₂_join hInners hOuters fun _ middle _ h h' => ⟨middle, h, h'⟩
      obtain rfl : parts = outers := forall₂_unique hImages hTwice
        fun part hPart _ _ h ⟨_, hMiddle, hLast⟩ =>
          ih (fun var other last hReach => hVars var other last (.step hNode hPart hReach))
            (hParts part hPart) h hMiddle hLast
      refine hCanonical ha hb ?_
      rw [node.isNominal_withComponents]
      exact Bool.eq_false_iff.mpr fun h => by simp [hNominal h] at hVar

/-- The handle that a composed substitution gives is the one that its parts give in turn. -/
theorem Canonical.image_compose (hCanonical : s.Canonical)
    (hFrom : Substitution.ComposedFrom s outer inner.entries composed)
    (hInner : ∀ var type, inner.get? var = some type → ∃ depth, s.StructuralWithin depth type)
    {depth : Nat} (hFree : s.StructuralWithin depth id) (ha : s.Image composed .lenient id a)
    (hMiddle : s.Image inner .lenient id middle) (hb : s.Image outer .lenient middle b) :
    a = b := by
  refine hCanonical.image_in_turn (fun var node last _ hNode hVar hLast => ?_) hFree ha hMiddle hb
  cases hGet : inner.get? var with
  | none =>
    rw [hGet, Option.getD_none] at hLast
    rw [hFrom.kept (inner.get?_eq_none_iff.mp hGet), hLast.of_variable hNode hVar]
  | some type =>
    rw [hGet, Option.getD_some] at hLast
    obtain ⟨image, hComposed, hImage⟩ := hFrom.mapped (inner.get?_eq_some_iff.mp hGet)
    obtain ⟨depth, hType⟩ := hInner var type hGet
    rw [hComposed, Option.getD_some]
    exact hCanonical.image_unique hType.steady hLast hImage

theorem Replaces.compose {replace replace' : TypeId → Option TypeTree}
    (hFrom : Substitution.ComposedFrom s outer inner.entries composed)
    (hOuter : s.Replaces outer replace) (hInner : s.Replaces inner replace') :
    s.Replaces composed (TypeTree.composeReplacements replace replace') := by
  intro var
  have hRel := hInner var
  unfold TypeTree.composeReplacements
  cases hGet : inner.get? var with
  | none =>
    rw [hGet] at hRel
    generalize replace' var = tree at hRel ⊢
    cases hRel
    rw [hFrom.kept (inner.get?_eq_none_iff.mp hGet)]
    exact hOuter var
  | some type =>
    rw [hGet] at hRel
    generalize replace' var = tree at hRel ⊢
    cases hRel with
    | some hTree =>
      obtain ⟨image, hComposed, hImage⟩ := hFrom.mapped (inner.get?_eq_some_iff.mp hGet)
      rw [hComposed]
      exact .some (hImage.unfolds hTree hOuter)

/-- Applying a substitution always succeeds on minted handles and replaces the variables of the
tree, all at once; every older handle keeps its tree. -/
theorem Built.apply_unfolds (hBuilt : s.Built) (hSub : sub.MintedIn s) (hId : s.Minted id) :
    ∃ image t tree replace, sub.apply id s = .ok image t ∧
      s.Unfolds id tree ∧ s.Replaces sub replace ∧ t.Unfolds image (tree.substitute replace) ∧
      ∀ old, s.Minted old → ∃ tree, s.Unfolds old tree ∧ t.Unfolds old tree := by
  have hGround := hBuilt.grounded
  obtain ⟨image, t, hApply, hGrown, hImage, -, -⟩ := hGround.apply_succeeds hSub hId
  obtain ⟨tree, hTree⟩ := hGround.exists_unfolds hId
  obtain ⟨replace, hReplace⟩ := hGround.exists_replaces hSub
  have hExt := hGrown.extension
  refine ⟨image, t, tree, replace, hApply, hTree, hReplace, ?_, fun old hOld => ?_⟩
  · exact hImage.unfolds (hTree.extend hExt) (hReplace.extend hExt)
  · obtain ⟨oldTree, hOldTree⟩ := hGround.exists_unfolds hOld
    exact ⟨oldTree, hOldTree, hOldTree.extend hExt⟩

namespace Sample

def exchange : Substitution := .ofPairs [(⟨13⟩, ⟨14⟩), (⟨14⟩, ⟨13⟩), (⟨5⟩, ⟨1⟩)]

theorem mintedIn_exchange : exchange.MintedIn pairs :=
  Substitution.mintedIn_of_handles (by decide +kernel)

theorem apply_unfolds_exchange : ∃ image t, exchange.apply ⟨15⟩ pairs = .ok image t ∧
    t.Unfolds image (.node (.indirect .pointer ⟨0⟩ true) [.leaf ⟨14⟩]) := by
  obtain ⟨image, t, tree, replace, hApply, hTree, hReplace, hImage, -⟩ :=
    built_pairs.apply_unfolds mintedIn_exchange (show pairs.Minted ⟨15⟩ by decide +kernel)
  have hFirst : pairs.Unfolds ⟨13⟩ (.leaf ⟨13⟩) :=
    unfolds_iff.mpr ⟨.var .bound ⟨0⟩, by decide +kernel, .inl ⟨rfl, rfl⟩⟩
  have hSecond : pairs.Unfolds ⟨14⟩ (.leaf ⟨14⟩) :=
    unfolds_iff.mpr ⟨.var .free ⟨1⟩, by decide +kernel, .inl ⟨rfl, rfl⟩⟩
  have hPointer : pairs.Unfolds ⟨15⟩ (.node (.indirect .pointer ⟨0⟩ true) [.leaf ⟨13⟩]) :=
    unfolds_iff.mpr ⟨.indirect .pointer ⟨13⟩ true, by decide +kernel,
      .inr ⟨rfl, _, .cons hFirst .nil, rfl⟩⟩
  obtain rfl := hTree.unique hPointer
  have hReplaced : replace ⟨13⟩ = some (.leaf ⟨14⟩) := by
    have hRel : Option.Rel pairs.Unfolds (some ⟨14⟩) (replace ⟨13⟩) := hReplace ⟨13⟩
    generalize replace ⟨13⟩ = found at hRel ⊢
    cases hRel with
    | some hFound => rw [hFound.unique hSecond]
  simp only [TypeTree.substitute, TypeTree.substituteAll, hReplaced, Option.getD_some] at hImage
  exact ⟨image, t, hApply, hImage⟩

end Sample

def Agree (s : TypeStore) (a b : TypeId) : Prop := ∃ tree, s.Unfolds a tree ∧ s.Unfolds b tree

/-- The inner substitution finds no module type, neither in `id` nor in what it puts there. -/
def MeetsNoModule (s : TypeStore) (inner : Substitution) (id : TypeId) : Prop :=
  s.ModuleFree id ∧ ∀ var type, inner.get? var = some type → s.ModuleFree type

theorem Built.images_agree (hBuilt : s.Built) (hGrown : s.Grown t) (hOuter : outer.MintedIn s)
    (hInner : inner.MintedIn s) (hId : s.Minted id)
    (hFrom : Substitution.ComposedFrom t outer inner.entries composed)
    (ha : t.Image composed .lenient id a) (hMiddle : t.Image inner .lenient id middle)
    (hb : t.Image outer .lenient middle b) :
    t.Agree a b ∧ (s.MeetsNoModule inner id → a = b) := by
  have hGround := hBuilt.grounded
  have hExt := hGrown.extension
  constructor
  · obtain ⟨tree, hTree⟩ := hGround.exists_unfolds hId
    obtain ⟨outers, hOuters⟩ := hGround.exists_replaces hOuter
    obtain ⟨inners, hInners⟩ := hGround.exists_replaces hInner
    replace hTree := hTree.extend hExt
    replace hOuters := hOuters.extend hExt
    replace hInners := hInners.extend hExt
    refine ⟨_, ha.unfolds hTree (.compose hFrom hOuters hInners), ?_⟩
    rw [← TypeTree.substitute_substitute]
    exact hb.unfolds (hMiddle.unfolds hTree hInners) hOuters
  · rintro ⟨hFree, hFreeInner⟩
    refine (hGrown.canonical hBuilt.canonical).image_compose hFrom (fun var type hGet => ?_)
      ((hGround.structuralWithin hId hFree).extend hExt) ha hMiddle hb
    exact ⟨_, (hGround.structuralWithin (hInner hGet) (hFreeInner var type hGet)).extend hExt⟩

/-- Composing succeeds on minted handles, and from then on applying the composition and applying
its parts in turn give the same tree, whichever of the two is done first. They give the same handle
if the inner substitution meets no module type. -/
theorem Built.apply_compose (hBuilt : s.Built) (hOuter : outer.MintedIn s)
    (hInner : inner.MintedIn s) (hId : s.Minted id) :
    ∃ composed t, outer.compose inner s = .ok composed t ∧ ∀ calls, t.Admits calls →
      (∃ direct u middle v final w, composed.apply id (t.after calls) = .ok direct u ∧
        inner.apply id u = .ok middle v ∧ outer.apply middle v = .ok final w ∧
        w.Agree direct final ∧ (s.MeetsNoModule inner id → direct = final)) ∧
      ∃ middle u final v direct w, inner.apply id (t.after calls) = .ok middle u ∧
        outer.apply middle u = .ok final v ∧ composed.apply id v = .ok direct w ∧
        w.Agree direct final ∧ (s.MeetsNoModule inner id → direct = final) := by
  have hGround := hBuilt.grounded
  obtain ⟨composed, t, hCompose, hst, hFrom, ht, hComposed⟩ :=
    hGround.compose_succeeds hOuter hInner
  refine ⟨composed, t, hCompose, fun calls hAdmits => ?_⟩
  have htu := grown_after calls t
  have hu := ht.after hAdmits
  have hsu := hst.trans htu
  constructor
  · obtain ⟨direct, v, hDirect, huv, hDirectImage, hv, -⟩ := hu.apply_succeeds
      (hComposed.extend htu.extension) (hId.extend hsu.extension)
    have hsv := hsu.trans huv
    obtain ⟨middle, w, final, x, hMiddle, hFinal, hvx, hMiddleImage, hFinalImage, -⟩ :=
      hv.apply_twice (hOuter.extend hsv.extension) (hInner.extend hsv.extension)
        (hId.extend hsv.extension)
    have htx := (htu.trans huv).trans hvx
    exact ⟨direct, v, middle, w, final, x, hDirect, hMiddle, hFinal,
      hBuilt.images_agree (hst.trans htx) hOuter hInner hId (hFrom.extend htx.extension)
        (hDirectImage.extend hvx.extension) hMiddleImage hFinalImage⟩
  · obtain ⟨middle, v, final, w, hMiddle, hFinal, huw, hMiddleImage, hFinalImage, hw⟩ :=
      hu.apply_twice (hOuter.extend hsu.extension) (hInner.extend hsu.extension)
        (hId.extend hsu.extension)
    have htw := htu.trans huw
    obtain ⟨direct, x, hDirect, hwx, hDirectImage, -, -⟩ := hw.apply_succeeds
      (hComposed.extend htw.extension) (hId.extend (hst.trans htw).extension)
    have htx := htw.trans hwx
    exact ⟨middle, v, final, w, direct, x, hMiddle, hFinal, hDirect,
      hBuilt.images_agree (hst.trans htx) hOuter hInner hId (hFrom.extend htx.extension)
        hDirectImage (hMiddleImage.extend hwx.extension) (hFinalImage.extend hwx.extension)⟩

namespace Sample

def fill : Substitution := .ofPairs [(⟨13⟩, ⟨5⟩), (⟨14⟩, ⟨15⟩)]

theorem moduleFree_of_lt {id : TypeId} (h : id.index < 17) : pairs.ModuleFree id :=
  built_pairs.grounded.moduleFree_of_older (by decide +kernel) h

theorem apply_compose_pair : ∃ composed t, fill.compose exchange pairs = .ok composed t ∧
    ∃ filled u middle v w, composed.apply ⟨16⟩ t = .ok filled u ∧
      exchange.apply ⟨16⟩ u = .ok middle v ∧ fill.apply middle v = .ok filled w := by
  have hFill : fill.MintedIn pairs := Substitution.mintedIn_of_handles (by decide +kernel)
  obtain ⟨composed, t, hCompose, hAgree⟩ :=
    built_pairs.apply_compose hFill mintedIn_exchange (show pairs.Minted ⟨16⟩ by decide +kernel)
  obtain ⟨filled, u, middle, v, final, w, hDirect, hMiddle, hFinal, -, hSame⟩ :=
    (hAgree [] trivial).1
  have hNone : pairs.MeetsNoModule exchange ⟨16⟩ := by
    refine ⟨moduleFree_of_lt (by decide), fun var type hGet => moduleFree_of_lt ?_⟩
    have hValues : ∀ entry ∈ exchange.entries, entry.2.index < 17 := by decide
    exact hValues _ (exchange.get?_eq_some_iff.mp hGet)
  obtain rfl := hSame hNone
  exact ⟨composed, t, hCompose, filled, u, middle, v, w, hDirect, hMiddle, hFinal⟩

end Sample

end TypeStore

end Specializer
