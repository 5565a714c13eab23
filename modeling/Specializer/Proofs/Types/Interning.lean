import Specializer.Proofs.Types.Unfolding

/-!
# One handle for each structural type

No structural node is stored under two handles. By induction on the depth no structural type is: a
handle can be told from the tree below it, if the tree stops at module types and variables, which
have no other identity than their handle.
-/

set_option autoImplicit false

namespace Specializer.TypeStore

variable {s : TypeStore}

def Canonical (s : TypeStore) : Prop :=
  ∀ ⦃a b node⦄, s.read a = .ok node → s.read b = .ok node → node.isNominal = false → a = b

theorem Canonical.add (hCanonical : s.Canonical) (node : Node) : (s.add node).2.Canonical := by
  rcases s.add_cases node with ⟨hSame, -⟩ | ⟨-, -, hNew, hRead⟩
  · rwa [hSame]
  · intro a b other ha hb hNot
    rw [hRead] at ha hb
    split at ha
    · split at hb
      · simp_all
      · cases ha
        exact absurd hb (hNew hNot b)
    · split at hb
      · cases hb
        exact absurd ha (hNew hNot a)
      · exact hCanonical ha hb hNot

theorem canonical_initial : initial.Canonical := by
  intro a b node ha hb _
  rw [read_initial] at ha hb
  obtain ⟨hLt, -⟩ := List.getElem?_eq_some_iff.mp ha
  have hIndex : a.index = b.index :=
    (List.getElem?_inj hLt (by decide : primitives.Nodup)).mp (ha.trans hb.symm)
  cases a
  cases b
  simp_all

theorem Grown.canonical {t : TypeStore} (h : s.Grown t) (hCanonical : s.Canonical) : t.Canonical :=
  h.keeps (fun _ node h => h.add node) hCanonical

/-- The tree below a handle, with module types and variables as leaves. -/
def HasStructure (s : TypeStore) (id : TypeId) (tree : TypeTree) : Prop :=
  ∃ depth, s.unfoldWithin Node.isNominal depth id = .ok tree

theorem Grounded.exists_hasStructure (hGround : s.Grounded) {id : TypeId} (hMinted : s.Minted id) :
    ∃ tree, s.HasStructure id tree := by
  have hAll := hGround.allWithin (G := fun _ _ => True) hMinted fun _ _ _ _ => trivial
  obtain ⟨tree, hTree⟩ := hAll.exists_unfoldWithin Node.isNominal
  exact ⟨tree, _, hTree⟩

theorem Canonical.eq_of_unfoldWithin (hCanonical : s.Canonical) {depth : Nat} {a b : TypeId}
    {tree : TypeTree} (ha : s.unfoldWithin Node.isNominal depth a = .ok tree)
    (hb : s.unfoldWithin Node.isNominal depth b = .ok tree) : a = b := by
  induction depth generalizing a b tree with
  | zero => cases ha
  | succ depth ih =>
    obtain ⟨node, hNode, ⟨-, rfl⟩ | ⟨hNot, parts, hParts, rfl⟩⟩ :=
      unfoldWithin_succ_eq_ok_iff.mp ha
    · obtain ⟨_, -, ⟨-, hLeaf⟩ | ⟨-, _, -, hLeaf⟩⟩ := unfoldWithin_succ_eq_ok_iff.mp hb
      · cases hLeaf
        rfl
      · cases hLeaf
    · obtain ⟨other, hOther, ⟨-, hTree⟩ | ⟨-, parts', hParts', hTree⟩⟩ :=
        unfoldWithin_succ_eq_ok_iff.mp hb
      · cases hTree
      · injection hTree with hHead hSame
        subst hSame
        have hEqual : List.Forall₂ Eq node.components other.components :=
          forall₂_join hParts hParts'.flip fun _ _ _ => ih
        rw [List.forall₂_eq_eq_eq] at hEqual
        obtain rfl := Node.eq_of_head_eq hHead hEqual
        exact hCanonical hNode hOther hNot

theorem Canonical.eq_of_hasStructure (hCanonical : s.Canonical) {a b : TypeId} {tree : TypeTree}
    (ha : s.HasStructure a tree) (hb : s.HasStructure b tree) : a = b := by
  obtain ⟨depth, ha⟩ := ha
  obtain ⟨depth', hb⟩ := hb
  exact hCanonical.eq_of_unfoldWithin
    (unfoldWithin_mono (Extends.refl s) (Nat.le_max_left depth depth') ha)
    (unfoldWithin_mono (Extends.refl s) (Nat.le_max_right depth depth') hb)

end Specializer.TypeStore
