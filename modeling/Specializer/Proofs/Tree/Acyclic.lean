import Specializer.Proofs.Tree.Lexical
import Mathlib.Data.Finset.Card
import Mathlib.Data.Finset.Range
import Mathlib.Logic.Relation

/-!
# Trees without cycles

A tree has no cycle if no way along parents, and none along sub-expressions, comes back to where it
began. Nothing is said about the order in which entries were added. The number of entries that can
be reached is then a rank, which is all that the walks over the tree need to come to an end.
-/

set_option autoImplicit false

namespace Specializer

open Relation

section Rank

variable {table : Table} {edge : Handle table → Handle table → Prop} {size : Nat}
  {id next : Handle table}

open Classical in
/-- The indices below `size` that can be reached in one step or more. -/
noncomputable def reachable (edge : Handle table → Handle table → Prop) (size : Nat)
    (id : Handle table) : Finset Nat :=
  (Finset.range size).filter fun j => TransGen edge id ⟨j⟩

theorem mem_reachable {j : Nat} :
    j ∈ reachable edge size id ↔ j < size ∧ TransGen edge id ⟨j⟩ := by
  simp [reachable]

theorem card_reachable_lt (hAcyclic : ∀ id, ¬TransGen edge id id) (hEdge : edge id next)
    (hNext : next.index < size) :
    (reachable edge size next).card < (reachable edge size id).card := by
  have hSubset : reachable edge size next ⊆ reachable edge size id := by
    intro j hj
    obtain ⟨hRange, hReach⟩ := mem_reachable.mp hj
    exact mem_reachable.mpr ⟨hRange, .head hEdge hReach⟩
  apply Finset.card_lt_card
  rw [Finset.ssubset_iff_of_subset hSubset]
  refine ⟨next.index, mem_reachable.mpr ⟨hNext, .single hEdge⟩, fun hBack => ?_⟩
  exact hAcyclic next (mem_reachable.mp hBack).2

theorem card_reachable_lt_size (hAcyclic : ∀ id, ¬TransGen edge id id) (hId : id.index < size) :
    (reachable edge size id).card < size := by
  have hLess : reachable edge size id ⊂ Finset.range size := by
    have hSubset : reachable edge size id ⊆ Finset.range size :=
      fun j hj => Finset.mem_range.mpr (mem_reachable.mp hj).1
    rw [Finset.ssubset_iff_of_subset hSubset]
    refine ⟨id.index, Finset.mem_range.mpr hId, fun hBack => ?_⟩
    exact hAcyclic id (mem_reachable.mp hBack).2
  simpa using Finset.card_lt_card hLess

theorem lt_of_transGen {rank : Handle table → Nat}
    (hLower : ∀ id next, edge id next → rank next < rank id) (h : TransGen edge id next) :
    rank next < rank id := by
  induction h with
  | single hEdge => exact hLower _ _ hEdge
  | tail _ hEdge ih => exact Nat.lt_trans (hLower _ _ hEdge) ih

end Rank

namespace ModuleTree

variable {t : ModuleTree}

def HasParent (t : ModuleTree) (id outer : ModuleId) : Prop :=
  ∃ m, t.readModule id = .ok m ∧ m.parent = some outer

def HasChild (t : ModuleTree) (id child : ExprId) : Prop :=
  ∃ e, t.readExpr id = .ok e ∧ child ∈ e.kind.children

structure Acyclic (t : ModuleTree) : Prop where
  parents : ∀ id, ¬TransGen t.HasParent id id
  children : ∀ id, ¬TransGen t.HasChild id id

/-- Ranks that go down along both kinds of steps rule out cycles. -/
theorem Acyclic.of_ranks (rank : ModuleId → Nat) (rank' : ExprId → Nat)
    (hParents : ∀ entry ∈ t.modules.entries, ∀ outer ∈ entry.2.parent, rank outer < rank entry.1)
    (hChildren : ∀ entry ∈ t.exprs.entries, ∀ child ∈ entry.2.kind.children,
      rank' child < rank' entry.1) : t.Acyclic := by
  constructor
  · have hLower : ∀ id outer, t.HasParent id outer → rank outer < rank id := by
      rintro id outer ⟨m, hDecl, hParent⟩
      exact hParents _ (Arena.mem_entries ((Arena.read_eq_ok_iff _ _ _).mp hDecl)) outer hParent
    exact fun id h => Nat.lt_irrefl _ (lt_of_transGen hLower h)
  · have hLower : ∀ id child, t.HasChild id child → rank' child < rank' id := by
      rintro id child ⟨e, hExpr, hChild⟩
      exact hChildren _ (Arena.mem_entries ((Arena.read_eq_ok_iff _ _ _).mp hExpr)) child hChild
    exact fun id h => Nat.lt_irrefl _ (lt_of_transGen hLower h)

theorem Acyclic.exists_parentsRanked (h : t.Acyclic)
    (hMinted : ∀ ⦃id outer⦄, t.HasParent id outer → ∃ n, t.readModule outer = .ok n) :
    ∃ rank, t.ParentsRanked rank := by
  refine ⟨fun id => (reachable t.HasParent t.modules.size id).card, ?_⟩
  constructor
  · exact fun id m outer hDecl hParent => hMinted ⟨m, hDecl, hParent⟩
  · intro id m outer hDecl hParent
    obtain ⟨n, hOuter⟩ := hMinted ⟨m, hDecl, hParent⟩
    exact card_reachable_lt h.parents ⟨m, hDecl, hParent⟩ (Arena.lt_of_read hOuter)
  · exact fun id m hDecl => card_reachable_lt_size h.parents (Arena.lt_of_read hDecl)

/-- A rank for expressions that may lack some of their parts: what is missing has the least one. -/
noncomputable def childRank (t : ModuleTree) (id : ExprId) : Nat :=
  if id.index < t.exprs.size then (reachable t.HasChild t.exprs.size id).card + 1 else 0

theorem childRank_lt (hAcyclic : ∀ id, ¬TransGen t.HasChild id id) {id child : ExprId}
    (hChild : t.HasChild id child) : t.childRank child < t.childRank id := by
  have hThere : id.index < t.exprs.size := by
    obtain ⟨e, hExpr, -⟩ := hChild
    exact Arena.lt_of_read hExpr
  unfold childRank
  rw [if_pos hThere]
  split
  case isTrue hBelow => exact Nat.succ_lt_succ (card_reachable_lt hAcyclic hChild hBelow)
  case isFalse => exact Nat.succ_pos _

theorem childRank_le (hAcyclic : ∀ id, ¬TransGen t.HasChild id id) (id : ExprId) :
    t.childRank id ≤ t.exprs.size := by
  unfold childRank
  split
  case isTrue hThere => exact card_reachable_lt_size hAcyclic hThere
  case isFalse => exact Nat.zero_le _

theorem Acyclic.exists_childrenRanked (h : t.Acyclic)
    (hMinted : ∀ ⦃id child⦄, t.HasChild id child → ∃ c, t.readExpr child = .ok c) :
    ∃ rank, t.ChildrenRanked rank := by
  refine ⟨fun id => (reachable t.HasChild t.exprs.size id).card, ?_⟩
  constructor
  · exact fun id e child hExpr hChild => hMinted ⟨e, hExpr, hChild⟩
  · intro id e child hExpr hChild
    obtain ⟨c, hThere⟩ := hMinted ⟨e, hExpr, hChild⟩
    exact card_reachable_lt h.children ⟨e, hExpr, hChild⟩ (Arena.lt_of_read hThere)
  · exact fun id e hExpr => card_reachable_lt_size h.children (Arena.lt_of_read hExpr)

end ModuleTree

end Specializer
