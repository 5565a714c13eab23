import Specializer.Proofs.Substitution.Lookup
import Specializer.Proofs.Types.Unfolding
import Specializer.Substitution.Apply

/-!
# What applying a substitution gives

`ImageWithin` says which handle stands for a type under a substitution, without running anything:
a mapped variable stands for its replacement, and a node whose components all stand for themselves
stands for itself. Applying a substitution gives such a handle. As trees, the result is the type
with the trees of the replacements in place of the variables.
-/

set_option autoImplicit false

namespace Specializer

namespace TypeStore

def ImageWithin (s : TypeStore) (sub : Substitution) (mode : Strictness) :
    Nat → TypeId → TypeId → Prop
  | 0, _, _ => False
  | depth + 1, id, image => ∃ node, s.read id = .ok node ∧
      (node.isVariable = true ∧ (sub.get? id = some image ∨
          sub.get? id = none ∧ image = id ∧ ¬(mode = .strict ∧ node.isBound = true)) ∨
        node.isVariable = false ∧ ∃ parts,
          List.Forall₂ (s.ImageWithin sub mode depth) node.components parts ∧
            (parts = node.components ∧ image = id ∨
              parts ≠ node.components ∧ s.read image = .ok (node.withComponents parts)))

/-- `image` stands for `id` under the substitution. In strict mode every bound variable below `id`
has a replacement. -/
def Image (s : TypeStore) (sub : Substitution) (mode : Strictness) (id image : TypeId) : Prop :=
  ∃ depth, s.ImageWithin sub mode depth id image

/-- No bound variable is left below `id`. -/
def Closed (s : TypeStore) (id : TypeId) : Prop :=
  ∃ depth, s.AllWithin (fun _ node => node.isBound = false) depth id

theorem ImageWithin.extend {s t : TypeStore} (hExt : s.Extends t) {sub : Substitution}
    {mode : Strictness} {depth : Nat} {id image : TypeId}
    (h : s.ImageWithin sub mode depth id image) : t.ImageWithin sub mode depth id image := by
  induction depth generalizing id image with
  | zero => exact h
  | succ depth ih =>
    obtain ⟨node, hNode, hVar | ⟨hNot, parts, hParts, hImage⟩⟩ := h
    · exact ⟨node, hExt hNode, .inl hVar⟩
    · refine ⟨node, hExt hNode, .inr ⟨hNot, parts, hParts.imp fun _ _ => ih, ?_⟩⟩
      exact hImage.imp_right fun ⟨hNe, hRead⟩ => ⟨hNe, hExt hRead⟩

theorem Image.extend {s t : TypeStore} {sub : Substitution} {mode : Strictness} {id image : TypeId}
    (h : s.Image sub mode id image) (hExt : s.Extends t) : t.Image sub mode id image := by
  obtain ⟨depth, hDepth⟩ := h
  exact ⟨depth, hDepth.extend hExt⟩

theorem Closed.extend {s t : TypeStore} {id : TypeId} (h : s.Closed id) (hExt : s.Extends t) :
    t.Closed id := by
  obtain ⟨depth, hDepth⟩ := h
  exact ⟨depth, hDepth.extend hExt⟩

end TypeStore

/-- The variable has no replacement, or is its own. -/
def Substitution.Fixes (sub : Substitution) (var : TypeId) : Prop :=
  sub.get? var = none ∨ sub.get? var = some var

theorem Substitution.fixes_iff {sub : Substitution} {var : TypeId} :
    sub.Fixes var ↔ var = (sub.get? var).getD var := by
  unfold Fixes
  cases sub.get? var <;> simp [eq_comm]

/-- No replacement has a bound variable left. -/
def Substitution.ClosedIn (sub : Substitution) (types : TypeStore) : Prop :=
  ∀ var type, sub.get? var = some type → types.Closed type

theorem Substitution.ClosedIn.extend {sub : Substitution} {s t : TypeStore} (h : sub.ClosedIn s)
    (hExt : s.Extends t) : sub.ClosedIn t :=
  fun var type hType => (h var type hType).extend hExt

namespace TypeStore

theorem Closed.minted {s : TypeStore} {id : TypeId} (h : s.Closed id) : s.Minted id :=
  h.choose_spec.minted

theorem exists_common_depth {s : TypeStore} {good : TypeId → Node → Prop} {ids : List TypeId}
    (h : ∀ id ∈ ids, ∃ depth, s.AllWithin good depth id) :
    ∃ depth, ∀ id ∈ ids, s.AllWithin good depth id := by
  induction ids with
  | nil => exact ⟨0, fun _ h => nomatch h⟩
  | cons first rest ih =>
    obtain ⟨depth, hFirst⟩ := h first List.mem_cons_self
    obtain ⟨depth', hRest⟩ := ih fun id hId => h id (List.mem_cons_of_mem _ hId)
    refine ⟨max depth depth', fun id hId => ?_⟩
    rcases List.mem_cons.mp hId with rfl | hId
    · exact hFirst.mono (Nat.le_max_left _ _)
    · exact (hRest id hId).mono (Nat.le_max_right _ _)

theorem closed_iff {s : TypeStore} {id : TypeId} : s.Closed id ↔ ∃ node, s.read id = .ok node ∧
    node.isBound = false ∧ ∀ part ∈ node.components, s.Closed part := by
  constructor
  · rintro ⟨depth, h⟩
    cases depth with
    | zero => exact h.elim
    | succ depth =>
      obtain ⟨node, hNode, hBound, hParts⟩ := h
      exact ⟨node, hNode, hBound, fun part hPart => ⟨depth, hParts part hPart⟩⟩
  · rintro ⟨node, hNode, hBound, hParts⟩
    obtain ⟨depth, hDepth⟩ := exists_common_depth hParts
    exact ⟨depth + 1, node, hNode, hBound, hDepth⟩

theorem ImageWithin.closed {s : TypeStore} {sub : Substitution} {depth : Nat} {id image : TypeId}
    (hSub : sub.ClosedIn s)
    (h : s.ImageWithin sub .strict depth id image) : s.Closed image := by
  induction depth generalizing id image with
  | zero => exact h.elim
  | succ depth ih =>
    obtain ⟨node, hNode, ⟨hVar, hMapped | ⟨-, rfl, hKept⟩⟩ | ⟨hNot, parts, hParts, hImage⟩⟩ := h
    · exact hSub id image hMapped
    · refine closed_iff.mpr ⟨node, hNode, by simpa using hKept, ?_⟩
      rw [node.components_of_isVariable hVar]
      exact fun _ h => nomatch h
    · have hClosed : ∀ part ∈ parts, s.Closed part := by
        intro part hPart
        obtain ⟨source, -, hSource⟩ := exists_mem_left_of_forall₂ hParts hPart
        exact ih hSource
      have hBound : ∀ other : Node, other.isVariable = false → other.isBound = false := by
        refine fun other hOther => Bool.eq_false_iff.mpr fun h => ?_
        cases (Node.isVariable_of_isBound h).symm.trans hOther
      rcases hImage with ⟨rfl, rfl⟩ | ⟨-, hRead⟩
      · exact closed_iff.mpr ⟨node, hNode, hBound node hNot, hClosed⟩
      · have hFree := hBound (node.withComponents parts)
          (by rw [node.isVariable_withComponents, hNot])
        refine closed_iff.mpr ⟨_, hRead, hFree, ?_⟩
        rwa [node.components_withComponents parts hParts.length_eq.symm]

theorem Image.closed {s : TypeStore} {sub : Substitution} {id image : TypeId}
    (h : s.Image sub .strict id image) (hSub : sub.ClosedIn s) : s.Closed image :=
  h.choose_spec.closed hSub

theorem ImageWithin.allWithin {s : TypeStore} {sub : Substitution} {mode : Strictness} {depth : Nat}
    {id image : TypeId} (h : s.ImageWithin sub mode depth id image) :
    s.AllWithin (fun _ _ => True) depth id := by
  induction depth generalizing id image with
  | zero => exact h.elim
  | succ depth ih =>
    obtain ⟨node, hNode, ⟨hVar, -⟩ | ⟨-, parts, hParts, -⟩⟩ := h
    · refine ⟨node, hNode, trivial, ?_⟩
      rw [node.components_of_isVariable hVar]
      exact fun _ h => nomatch h
    · refine ⟨node, hNode, trivial, fun part hPart => ?_⟩
      obtain ⟨_, -, hImage⟩ := exists_mem_right_of_forall₂ hParts hPart
      exact ih hImage

theorem Image.congr {s : TypeStore} {sub sub' : Substitution} {mode : Strictness}
    {id image : TypeId} (h : s.Image sub mode id image)
    (hSame : ∀ var node, s.Reaches id var → s.read var = .ok node → node.isVariable = true →
      sub.get? var = sub'.get? var) : s.Image sub' mode id image := by
  obtain ⟨depth, h⟩ := h
  refine ⟨depth, ?_⟩
  induction depth generalizing id image with
  | zero => exact h
  | succ depth ih =>
    obtain ⟨node, hNode, ⟨hVar, hCases⟩ | ⟨hNot, parts, hParts, hImage⟩⟩ := h
    · rw [hSame id node (.refl id) hNode hVar] at hCases
      exact ⟨node, hNode, .inl ⟨hVar, hCases⟩⟩
    · refine ⟨node, hNode, .inr ⟨hNot, parts, ?_, hImage⟩⟩
      refine ((List.forall₂_and_left _ _).mpr ⟨fun part hPart => hPart, hParts⟩).imp ?_
      rintro part image ⟨hPart, hPartImage⟩
      exact ih (fun var other hReach => hSame var other (.step hNode hPart hReach)) hPartImage

/-- Every variable below `id` has no replacement or is its own. -/
def Keeps (s : TypeStore) (sub : Substitution) (id : TypeId) : Prop :=
  ∃ depth, s.AllWithin (fun id node => node.isVariable = true → sub.Fixes id) depth id

theorem Keeps.extend {s t : TypeStore} {sub : Substitution} {id : TypeId} (h : s.Keeps sub id)
    (hExt : s.Extends t) : t.Keeps sub id := by
  obtain ⟨depth, hDepth⟩ := h
  exact ⟨depth, hDepth.extend hExt⟩

theorem Image.eq_of_keeps {s : TypeStore} {sub : Substitution} {mode : Strictness}
    {id image : TypeId} (h : s.Image sub mode id image) (hKeeps : s.Keeps sub id) :
    image = id := by
  obtain ⟨within, hKeeps⟩ := hKeeps
  obtain ⟨depth, h⟩ := h
  induction depth generalizing within id image with
  | zero => exact h.elim
  | succ depth ih =>
    cases within with
    | zero => exact hKeeps.elim
    | succ within =>
      obtain ⟨node, hNode, hFixes, hKept⟩ := hKeeps
      obtain ⟨other, hOther, hCases⟩ := h
      cases hNode.symm.trans hOther
      obtain ⟨hVar, hMapped | ⟨-, rfl, -⟩⟩ | ⟨-, parts, hParts, hImage⟩ := hCases
      · rw [Substitution.fixes_iff.mp (hFixes hVar), hMapped, Option.getD_some]
      · rfl
      · have hSelf : List.Forall₂ Eq node.components node.components := List.forall₂_refl _
        have hSame : parts = node.components := forall₂_unique hParts hSelf
          fun part hPart _ _ hPartImage hEq => hEq ▸ ih within (hKept part hPart) hPartImage
        rcases hImage with ⟨-, rfl⟩ | ⟨hNe, -⟩
        · rfl
        · exact absurd hSame hNe

theorem Image.eq_of_empty {s : TypeStore} {mode : Strictness} {id image : TypeId}
    (h : s.Image .empty mode id image) : image = id := by
  refine h.eq_of_keeps ⟨_, h.choose_spec.allWithin.imp fun _ _ _ _ => .inl ?_⟩
  exact Substitution.get?_empty _

/-- The replacements of `sub` unfold to those of `replace`. -/
def Replaces (s : TypeStore) (sub : Substitution) (replace : TypeId → Option TypeTree) : Prop :=
  ∀ var, Option.Rel s.Unfolds (sub.get? var) (replace var)

theorem Image.unfolds {s : TypeStore} {sub : Substitution} {mode : Strictness}
    {id image : TypeId} {tree : TypeTree} {replace : TypeId → Option TypeTree}
    (h : s.Image sub mode id image) (hTree : s.Unfolds id tree) (hSub : s.Replaces sub replace) :
    s.Unfolds image (tree.substitute replace) := by
  obtain ⟨depth, h⟩ := h
  induction depth generalizing id image tree with
  | zero => exact h.elim
  | succ depth ih =>
    obtain ⟨node, hNode, hCases⟩ := h
    obtain ⟨other, hOther, hTreeCases⟩ := unfolds_iff.mp hTree
    cases hNode.symm.trans hOther
    rcases hCases with ⟨hVar, hVarCases⟩ | ⟨hNot, parts, hParts, hImage⟩
    · obtain ⟨-, rfl⟩ | ⟨hNot, -⟩ := hTreeCases
      · have hRel := hSub id
        rw [TypeTree.substitute]
        rcases hVarCases with hMapped | ⟨hUnmapped, rfl, -⟩
        · rw [hMapped] at hRel
          cases hReplace : replace id with
          | none => rw [hReplace] at hRel; cases hRel
          | some replacement =>
            rw [hReplace] at hRel
            cases hRel with
            | some hUnfolds => exact hUnfolds
        · rw [hUnmapped] at hRel
          cases hReplace : replace image with
          | none => exact hTree
          | some replacement => rw [hReplace] at hRel; cases hRel
      · rw [hVar] at hNot
        cases hNot
    · obtain ⟨hVar, -⟩ | ⟨-, trees, hTrees, rfl⟩ := hTreeCases
      · rw [hVar] at hNot
        cases hNot
      · have hUnfolds : List.Forall₂ s.Unfolds parts (trees.map (TypeTree.substitute replace)) := by
          rw [List.forall₂_map_right_iff]
          exact forall₂_join hParts.flip hTrees fun _ _ _ hPart hTree => ih hTree hPart
        rw [TypeTree.substitute, TypeTree.substituteAll_eq_map]
        -- The node is shared if no component has changed, and rebuilt otherwise.
        rcases hImage with ⟨rfl, rfl⟩ | ⟨-, hRead⟩
        · exact unfolds_iff.mpr ⟨node, hNode, .inr ⟨hNot, _, hUnfolds, rfl⟩⟩
        · have hLength := hParts.length_eq.symm
          refine unfolds_iff.mpr
            ⟨_, hRead, .inr ⟨?_, trees.map (TypeTree.substitute replace), ?_, ?_⟩⟩
          · rw [node.isVariable_withComponents, hNot]
          · rwa [node.components_withComponents parts hLength]
          · rw [node.head_withComponents parts hLength]

theorem Image.exists_unfolds {s : TypeStore} {sub : Substitution} {mode : Strictness}
    {id image : TypeId} (h : s.Image sub mode id image) : ∃ tree, s.Unfolds id tree :=
  h.choose_spec.allWithin.exists_unfolds

end TypeStore

theorem Substitution.exists_replaces {sub : Substitution} {types : TypeStore}
    (h : ∀ var type, sub.get? var = some type → ∃ tree, types.Unfolds type tree) :
    ∃ replace, types.Replaces sub replace := by
  have hEach : ∀ var, ∃ tree, Option.Rel types.Unfolds (sub.get? var) tree := by
    intro var
    cases hGet : sub.get? var with
    | none => exact ⟨none, .none⟩
    | some type =>
      obtain ⟨tree, hTree⟩ := h var type hGet
      exact ⟨some tree, .some hTree⟩
  choose replace hReplace using hEach
  exact ⟨replace, hReplace⟩

theorem Substitution.ClosedIn.exists_replaces {sub : Substitution} {types : TypeStore}
    (h : sub.ClosedIn types) : ∃ replace, types.Replaces sub replace := by
  refine Substitution.exists_replaces fun var type hGet => ?_
  obtain ⟨depth, hAll⟩ := h var type hGet
  exact hAll.exists_unfolds

namespace Substitution

open TypeStore Update

variable {sub : Substitution} {mode : Strictness} {s : TypeStore}

theorem readNode_ensures {id : TypeId} {node : Node} (hNode : s.read id = .ok node)
    {F : Failure TypeError → TypeStore → Prop} :
    (readNode id).Ensures s (fun other t => t = s ∧ other = node) F := by
  refine Ensures.bindGet (Ensures.read (fun other hOther => ⟨rfl, ?_⟩) fun reason hReason => ?_)
  · exact (Except.ok.inj (hNode.symm.trans hOther)).symm
  · cases hNode.symm.trans hReason

theorem applyWithin_ensures (sub : Substitution) (mode : Strictness) (depth : Nat) (id : TypeId)
    (s : TypeStore) : (sub.applyWithin mode depth id).Ensures s
      (fun image t => s.Grown t ∧ t.ImageWithin sub mode depth id image)
      (fun _ t => s.Grown t) := by
  induction depth generalizing id s with
  | zero => exact Ensures.throw (Grown.refl s)
  | succ depth ih =>
    unfold applyWithin
    refine Ensures.bind (Q := fun node t => t = s ∧ s.read id = .ok node)
      (Ensures.bindGet (Ensures.read (fun node hNode => ⟨rfl, hNode⟩) fun _ _ => Grown.refl s))
      ?_ fun _ _ h => h
    rintro node t ⟨rfl, hNode⟩
    split
    case isTrue hVar =>
      split
      case h_1 image hMapped => exact ⟨Grown.refl t, node, hNode, .inl ⟨hVar, .inl hMapped⟩⟩
      case h_2 hUnmapped =>
        split
        case isTrue => exact Ensures.refuse (Grown.refl t)
        case isFalse hKept =>
          exact ⟨Grown.refl t, node, hNode, .inl ⟨hVar, .inr ⟨hUnmapped, rfl, hKept⟩⟩⟩
    case isFalse hNot =>
      refine Ensures.bind (Ensures.mapM (I := t.Grown) Grown.refl (fun _ _ _ => Grown.trans)
        (fun u v a b hGrown (h : u.ImageWithin sub mode depth a b) => h.extend hGrown.extension) ?_
        (Grown.refl t)) ?_ fun _ _ h => h
      · intro part _ u hGrown
        refine (ih part u).mono ?_ fun _ v h => hGrown.trans h
        rintro image v ⟨hGrown', hImage⟩
        exact ⟨hGrown.trans hGrown', hGrown', hImage⟩
      · rintro parts u ⟨hGrown, -, hParts⟩
        have hNot : node.isVariable = false := Bool.eq_false_iff.mpr hNot
        have hExt := hGrown.extension
        split
        case isTrue hSame =>
          exact ⟨hGrown, node, hExt hNode, .inr ⟨hNot, parts, hParts, .inl ⟨hSame, rfl⟩⟩⟩
        case isFalse hNe =>
          have hAdd := u.extends_add (node.withComponents parts)
          refine ⟨hGrown.add _, node, hAdd (hExt hNode), .inr ⟨hNot, parts, ?_, .inr ⟨hNe, ?_⟩⟩⟩
          · exact hParts.imp fun _ _ h => h.extend hAdd
          · exact u.read_add (node.withComponents parts)

/-- A property of the store that survives new nodes around minted handles survives a substitution
whose replacements are minted. Variables are never added. -/
theorem applyWithin_keeps {K : TypeStore → Prop}
    (hAdd : ∀ s id node parts, K s → s.read id = .ok node → node.isVariable = false →
      parts.length = node.components.length → (∀ part ∈ parts, s.Minted part) →
      K (s.add (node.withComponents parts)).2)
    (hSub : ∀ var type, sub.get? var = some type → s.Minted type) (hKeep : K s) (depth : Nat)
    (id : TypeId) : (sub.applyWithin mode depth id).Ensures s
      (fun image t => s.Extends t ∧ K t ∧ t.Minted image)
      (fun _ t => s.Extends t ∧ K t) := by
  induction depth generalizing id s with
  | zero => exact Ensures.throw ⟨Extends.refl s, hKeep⟩
  | succ depth ih =>
    unfold applyWithin
    refine Ensures.bind (Q := fun node t => t = s ∧ s.read id = .ok node)
      (Ensures.bindGet (Ensures.read (fun node hNode => ⟨rfl, hNode⟩)
        fun _ _ => ⟨Extends.refl s, hKeep⟩)) ?_ fun _ _ h => h
    rintro node t ⟨rfl, hNode⟩
    split
    case isTrue hVar =>
      split
      case h_1 image hMapped => exact ⟨Extends.refl t, hKeep, hSub id image hMapped⟩
      case h_2 hUnmapped =>
        split
        case isTrue => exact Ensures.refuse ⟨Extends.refl t, hKeep⟩
        case isFalse => exact ⟨Extends.refl t, hKeep, node, hNode⟩
    case isFalse hNot =>
      refine Ensures.bind (Ensures.mapM (I := fun u => t.Extends u ∧ K u)
        (R := fun u (_ : TypeId) image => u.Minted image) Extends.refl (fun _ _ _ => Extends.trans)
        (fun _ _ _ _ hExt h => h.extend hExt) ?_ ⟨Extends.refl t, hKeep⟩) ?_ fun _ _ h => h
      · rintro part - u ⟨hExt, hKeep⟩
        refine (ih (fun var type h => (hSub var type h).extend hExt) hKeep part).mono ?_ ?_
        · rintro image v ⟨hExt', hKeep, hMinted⟩
          exact ⟨⟨hExt.trans hExt', hKeep⟩, hExt', hMinted⟩
        · rintro _ v ⟨hExt', hKeep⟩
          exact ⟨hExt.trans hExt', hKeep⟩
      · rintro parts u ⟨⟨hExt, hKeep⟩, -, hParts⟩
        split
        case isTrue => exact ⟨hExt, hKeep, node, hExt hNode⟩
        case isFalse =>
          have hMinted : ∀ part ∈ parts, u.Minted part := by
            intro part hPart
            obtain ⟨_, -, h⟩ := exists_mem_left_of_forall₂ hParts hPart
            exact h
          exact ⟨hExt.trans (u.extends_add _),
            hAdd u id node parts hKeep (hExt hNode) (Bool.eq_false_iff.mpr hNot)
              hParts.length_eq.symm hMinted,
            node.withComponents parts, u.read_add _⟩

theorem applyWithin_succeeds {depth : Nat} {id : TypeId}
    (h : s.AllWithin (fun id node => mode = .strict → node.isBound = true →
      (sub.get? id).isSome = true) depth id) :
    (sub.applyWithin mode depth id).Ensures s (fun _ t => s.Extends t) (fun _ _ => False) := by
  induction depth generalizing id s with
  | zero => exact h.elim
  | succ depth ih =>
    obtain ⟨node, hNode, hMapped, hParts⟩ := h
    unfold applyWithin
    refine Ensures.bind (readNode_ensures hNode) ?_ fun _ _ h => h
    rintro _ t ⟨rfl, rfl⟩
    split
    case isTrue hVar =>
      split
      case h_1 => exact Extends.refl t
      case h_2 hUnmapped =>
        split
        case isTrue hRefused =>
          have hSome := hMapped hRefused.1 hRefused.2
          rw [hUnmapped] at hSome
          cases hSome
        case isFalse => exact Extends.refl t
    case isFalse =>
      refine Ensures.bind (Ensures.mapM (I := t.Extends)
        (R := fun _ (_ _ : TypeId) => True) Extends.refl (fun _ _ _ => Extends.trans)
        (fun _ _ _ _ _ h => h) ?_ (Extends.refl t)) ?_ fun _ _ h => h
      · intro part hPart u hExt
        exact (ih ((hParts part hPart).extend hExt)).mono
          (fun _ v h => ⟨hExt.trans h, h, trivial⟩) fun _ _ h => h
      · rintro parts u ⟨hExt, -, -⟩
        split
        case isTrue => exact hExt
        case isFalse => exact hExt.trans (u.extends_add _)

end Substitution

end Specializer
