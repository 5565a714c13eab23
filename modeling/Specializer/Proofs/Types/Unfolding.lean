import Specializer.Proofs.Types.Growth

/-!
# Types as trees

A handle unfolds to the tree below it. Sharing and the handles of inner nodes are forgotten;
variables are leaves and keep their handle. Module types unfold like any other composite, although
each of them has a handle of its own.
-/

set_option autoImplicit false

namespace Specializer

/-- A type without handles, apart from those at which the unfolding stopped. -/
inductive TypeTree where
  | leaf (id : TypeId)
  | node (head : Node) (parts : List TypeTree)

namespace TypeTree

mutual
/-- Replace leaves, all at once. -/
def substitute (replace : TypeId → Option TypeTree) : TypeTree → TypeTree
  | .leaf id => (replace id).getD (.leaf id)
  | .node head parts => .node head (substituteAll replace parts)

def substituteAll (replace : TypeId → Option TypeTree) : List TypeTree → List TypeTree
  | [] => []
  | tree :: rest => substitute replace tree :: substituteAll replace rest
end

theorem substituteAll_eq_map (replace : TypeId → Option TypeTree) (trees : List TypeTree) :
    substituteAll replace trees = trees.map (substitute replace) := by
  induction trees with
  | nil => rfl
  | cons tree rest ih => rw [substituteAll, ih, List.map_cons]

end TypeTree

/-- A node without its components: what its kind, its width, its names and its flags say. -/
def Node.head (node : Node) : Node := node.withComponents (node.components.map fun _ => ⟨0⟩)

theorem Node.head_withComponents (node : Node) (parts : List TypeId)
    (h : parts.length = node.components.length) : (node.withComponents parts).head = node.head := by
  have hParts := node.components_withComponents parts h
  cases node with
  | indirect via target writable =>
    obtain ⟨part, rfl⟩ := List.length_eq_one_iff.mp (h.trans rfl)
    rfl
  | function argument result effect =>
    obtain ⟨first, second, rfl⟩ := List.length_eq_two.mp (h.trans rfl)
    rfl
  | tuple items =>
    have hLength : parts.length = items.length := by simpa [components, elements] using h
    unfold head
    rw [hParts]
    simp only [withComponents, components, elements, List.map_map]
    congr 1
    apply List.ext_getElem
    · simp [hLength]
    · intro i _ _
      simp
  | composite shape fields =>
    have hLength : parts.length = fields.length := by simpa [components, elements] using h
    unfold head
    rw [hParts]
    simp only [withComponents, components, elements]
    congr 1
    apply List.ext_getElem
    · simp [hLength]
    · intro i _ _
      simp
  | _ => rfl

theorem Node.eq_of_head_eq {a b : Node} (hHead : a.head = b.head)
    (hParts : a.components = b.components) : a = b := by
  have hSelf (node : Node) : node.head.withComponents node.components = node := by
    rw [head, withComponents_withComponents _ _ _ (by simp) rfl, withComponents_components]
  rw [← hSelf a, hHead, hParts, hSelf b]

namespace TypeStore

/-- The tree below a handle. A node with `isLeaf` stays a handle. -/
def unfoldWithin (s : TypeStore) (isLeaf : Node → Bool) : Nat → TypeId → Read TypeTree
  | 0, _ => .error .endless
  | depth + 1, id => do
      let node ← s.read id
      if isLeaf node then
        return .leaf id
      let parts ← node.components.mapM (s.unfoldWithin isLeaf depth)
      return .node node.head parts

/-- The tree below a handle, with variables as leaves. -/
def Unfolds (s : TypeStore) (id : TypeId) (tree : TypeTree) : Prop :=
  ∃ depth, s.unfoldWithin Node.isVariable depth id = .ok tree

theorem unfoldWithin_succ_eq_ok_iff {s : TypeStore} {isLeaf : Node → Bool} {depth : Nat}
    {id : TypeId} {tree : TypeTree} :
    s.unfoldWithin isLeaf (depth + 1) id = .ok tree ↔ ∃ node, s.read id = .ok node ∧
      (isLeaf node = true ∧ tree = .leaf id ∨ isLeaf node = false ∧ ∃ parts,
        List.Forall₂ (fun part tree => s.unfoldWithin isLeaf depth part = .ok tree)
          node.components parts ∧ tree = .node node.head parts) := by
  rw [unfoldWithin, Read.bind_eq_ok_iff]
  refine exists_congr fun node => and_congr_right fun _ => ?_
  cases isLeaf node with
  | true =>
    simp only [if_true, Read.pure_eq_ok_iff, true_and, Bool.true_eq_false, false_and, or_false]
    exact eq_comm
  | false =>
    simp only [Bool.false_eq_true, if_false, Read.bind_eq_ok_iff, Read.mapM_eq_ok_iff,
      Read.pure_eq_ok_iff, false_and, false_or, true_and]
    exact exists_congr fun parts => and_congr_right fun _ => eq_comm

theorem unfoldWithin_mono {s t : TypeStore} (hExt : s.Extends t) {isLeaf : Node → Bool}
    {depth depth' : Nat} (hDepth : depth ≤ depth') {id : TypeId} {tree : TypeTree}
    (h : s.unfoldWithin isLeaf depth id = .ok tree) :
    t.unfoldWithin isLeaf depth' id = .ok tree := by
  induction depth generalizing depth' id tree with
  | zero => cases h
  | succ depth ih =>
    cases depth' with
    | zero => cases hDepth
    | succ depth' =>
      obtain ⟨node, hNode, hCases⟩ := unfoldWithin_succ_eq_ok_iff.mp h
      refine unfoldWithin_succ_eq_ok_iff.mpr ⟨node, hExt hNode, hCases.imp_right ?_⟩
      rintro ⟨hLeaf, parts, hParts, hTree⟩
      exact ⟨hLeaf, parts, hParts.imp fun _ _ => ih (Nat.le_of_succ_le_succ hDepth), hTree⟩

theorem Unfolds.extend {s t : TypeStore} {id : TypeId} {tree : TypeTree} (h : s.Unfolds id tree)
    (hExt : s.Extends t) : t.Unfolds id tree := by
  obtain ⟨depth, hDepth⟩ := h
  exact ⟨depth, unfoldWithin_mono hExt (Nat.le_refl _) hDepth⟩

theorem Unfolds.unique {s : TypeStore} {id : TypeId} {tree tree' : TypeTree}
    (h : s.Unfolds id tree) (h' : s.Unfolds id tree') : tree = tree' := by
  obtain ⟨depth, hDepth⟩ := h
  obtain ⟨depth', hDepth'⟩ := h'
  have hMax := unfoldWithin_mono (Extends.refl s) (Nat.le_max_left depth depth') hDepth
  rw [unfoldWithin_mono (Extends.refl s) (Nat.le_max_right depth depth') hDepth'] at hMax
  exact (Except.ok.inj hMax).symm

theorem AllWithin.exists_unfoldWithin {s : TypeStore} {good : TypeId → Node → Prop} {depth : Nat}
    {id : TypeId} (h : s.AllWithin good depth id) (isLeaf : Node → Bool) :
    ∃ tree, s.unfoldWithin isLeaf depth id = .ok tree := by
  induction depth generalizing id with
  | zero => exact h.elim
  | succ depth ih =>
    obtain ⟨node, hNode, -, hParts⟩ := h
    by_cases hLeaf : isLeaf node = true
    · exact ⟨_, unfoldWithin_succ_eq_ok_iff.mpr ⟨node, hNode, .inl ⟨hLeaf, rfl⟩⟩⟩
    · obtain ⟨parts, hAll⟩ := Read.exists_mapM_eq_ok fun part hPart => ih (hParts part hPart)
      exact ⟨_, unfoldWithin_succ_eq_ok_iff.mpr ⟨node, hNode,
        .inr ⟨Bool.eq_false_iff.mpr hLeaf, parts, Read.mapM_eq_ok_iff.mp hAll, rfl⟩⟩⟩

theorem AllWithin.exists_unfolds {s : TypeStore} {good : TypeId → Node → Prop} {depth : Nat}
    {id : TypeId} (h : s.AllWithin good depth id) : ∃ tree, s.Unfolds id tree := by
  obtain ⟨tree, hTree⟩ := h.exists_unfoldWithin Node.isVariable
  exact ⟨tree, depth, hTree⟩

theorem forall₂_unfoldWithin {s : TypeStore} {ids : List TypeId} {trees : List TypeTree}
    (h : List.Forall₂ s.Unfolds ids trees) :
    ∃ depth, List.Forall₂
      (fun id tree => s.unfoldWithin Node.isVariable depth id = .ok tree) ids trees := by
  induction h with
  | nil => exact ⟨0, .nil⟩
  | cons hHead _ ih =>
    obtain ⟨depth, hDepth⟩ := hHead
    obtain ⟨depth', hRest⟩ := ih
    refine ⟨max depth depth', .cons ?_ (hRest.imp fun _ _ => ?_)⟩
    · exact unfoldWithin_mono (Extends.refl s) (Nat.le_max_left _ _) hDepth
    · exact unfoldWithin_mono (Extends.refl s) (Nat.le_max_right _ _)

theorem unfolds_iff {s : TypeStore} {id : TypeId} {tree : TypeTree} :
    s.Unfolds id tree ↔ ∃ node, s.read id = .ok node ∧
      (node.isVariable = true ∧ tree = .leaf id ∨ node.isVariable = false ∧ ∃ parts,
        List.Forall₂ s.Unfolds node.components parts ∧ tree = .node node.head parts) := by
  constructor
  · rintro ⟨depth, h⟩
    cases depth with
    | zero => cases h
    | succ depth =>
      obtain ⟨node, hNode, hCases⟩ := unfoldWithin_succ_eq_ok_iff.mp h
      refine ⟨node, hNode, hCases.imp_right ?_⟩
      rintro ⟨hLeaf, parts, hParts, hTree⟩
      exact ⟨hLeaf, parts, hParts.imp fun _ _ h => ⟨depth, h⟩, hTree⟩
  · rintro ⟨node, hNode, ⟨hLeaf, hTree⟩ | ⟨hLeaf, parts, hParts, hTree⟩⟩
    · exact ⟨1, unfoldWithin_succ_eq_ok_iff.mpr ⟨node, hNode, .inl ⟨hLeaf, hTree⟩⟩⟩
    · obtain ⟨depth, hDepth⟩ := forall₂_unfoldWithin hParts
      exact ⟨depth + 1, unfoldWithin_succ_eq_ok_iff.mpr
        ⟨node, hNode, .inr ⟨hLeaf, parts, hDepth, hTree⟩⟩⟩

end TypeStore

end Specializer
