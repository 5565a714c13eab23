import Specializer.Proofs.Substitution.Laws
import Specializer.Proofs.Types.Variables

/-!
# Strict substitutions in a growing store

A strict substitution goes over the variables of a type from left to right and is refused at the
first bound one without a replacement. Which one that is can be told from any store that holds the
type, so a larger store refuses the same types for the same cause. It also gives the same handles,
except below module types with variables, which get a new handle each time.
-/

set_option autoImplicit false

namespace Specializer

namespace Substitution

open TypeStore Update

variable {sub : Substitution} {base s : TypeStore}

def firstUnmapped (sub : Substitution) (types : TypeStore) (vars : List TypeId) : Option TypeId :=
  vars.find? fun var =>
    match types.read var with
    | .ok node => node.isBound && !sub.contains var
    | .error _ => false

theorem firstUnmapped_append (vars rest : List TypeId) :
    sub.firstUnmapped base (vars ++ rest) =
      (sub.firstUnmapped base vars).or (sub.firstUnmapped base rest) :=
  List.find?_append

/-- The update succeeds if all of `vars` that are bound have a replacement, and is refused at the
first one that has none. -/
def DecidedBy (sub : Substitution) (base : TypeStore) (vars : List TypeId) {α : Type}
    (update : TypeUpdate α) : Prop :=
  ∀ ⦃s⦄, base.Extends s → update.Ensures s
    (fun _ t => s.Extends t ∧ sub.firstUnmapped base vars = none)
    (fun e _ => ∃ var, e = .refused (.unmapped var) ∧ sub.firstUnmapped base vars = some var)

theorem DecidedBy.mapM {apply : TypeId → TypeUpdate TypeId} {parts : List TypeId}
    {found : List (List TypeId)}
    (h : List.Forall₂ (fun part vars => sub.DecidedBy base vars (apply part)) parts found) :
    sub.DecidedBy base found.flatten (parts.mapM apply) := by
  induction h with
  | nil => exact fun s _ => ⟨Extends.refl s, rfl⟩
  | cons hHead _ ih =>
    intro s hExt
    rw [List.mapM_cons, List.flatten_cons, firstUnmapped_append]
    refine (hHead hExt).bind ?_ ?_
    · rintro image t ⟨hst, hNone⟩
      rw [hNone, Option.none_or]
      refine (ih (hExt.trans hst)).bind ?_ fun _ _ h => h
      rintro images u ⟨htu, hRest⟩
      exact ⟨hst.trans htu, hRest⟩
    · rintro e t ⟨var, rfl, hSome⟩
      rw [hSome, Option.some_or]
      exact ⟨var, rfl, rfl⟩

theorem decidedBy_applyWithin {depth depth' : Nat} {id : TypeId} {vars : List TypeId}
    (hVars : base.occurrencesWithin depth id = .ok vars) (hDepth : depth ≤ depth') :
    sub.DecidedBy base vars (sub.applyWithin .strict depth' id) := by
  induction depth generalizing depth' id vars with
  | zero => cases hVars
  | succ depth ih =>
    intro s hExt
    obtain ⟨depth', rfl⟩ : ∃ less, depth' = less + 1 := ⟨depth' - 1, by omega⟩
    rw [occurrencesWithin] at hVars
    obtain ⟨node, hNode, hVars⟩ := Read.bind_eq_ok_iff.mp hVars
    unfold applyWithin
    refine Ensures.bind (readNode_ensures (hExt hNode)) ?_ fun _ _ h => h
    rintro node t ⟨rfl, rfl⟩
    split at hVars
    case isTrue hVar =>
      cases hVars
      rw [if_pos hVar]
      have hFirst : sub.firstUnmapped base [id] =
          if node.isBound && !sub.contains id then some id else none := by
        simp [firstUnmapped, hNode, List.find?_singleton]
      cases hMapped : sub.get? id with
      | some image =>
        refine ⟨Extends.refl t, ?_⟩
        simp [hFirst, contains, hMapped]
      | none =>
        cases hBound : node.isBound with
        | true =>
          refine Ensures.refuse ⟨id, rfl, ?_⟩
          simp [hFirst, contains, hMapped, hBound]
        | false =>
          refine ⟨Extends.refl t, ?_⟩
          simp [hFirst, hBound]
    case isFalse hNot =>
      obtain ⟨found, hFound, hFlatten⟩ := Read.bind_eq_ok_iff.mp hVars
      cases hFlatten
      rw [if_neg hNot]
      have hParts := DecidedBy.mapM ((Read.mapM_eq_ok_iff.mp hFound).imp
        fun part vars hPart => ih hPart (Nat.le_of_succ_le_succ hDepth))
      refine (hParts hExt).bind ?_ fun _ _ h => h
      rintro parts t ⟨hst, hNone⟩
      split
      · exact ⟨hst, hNone⟩
      · exact ⟨hst.trans (t.extends_add _), hNone⟩

theorem decidedBy_applyStrict {id : TypeId} {vars : List TypeId}
    (hVars : base.occurrencesWithin base.depth id = .ok vars) :
    sub.DecidedBy base vars (sub.applyStrict id) := by
  intro s hExt
  refine Ensures.bindGet (decidedBy_applyWithin hVars ?_ hExt)
  have hSize := hExt.size_le
  unfold growingDepth depth
  omega

end Substitution

namespace TypeStore

variable {s t : TypeStore} {id : TypeId}

/-- No module type below `id` mentions a variable. -/
def Steady (s : TypeStore) (id : TypeId) : Prop :=
  ∀ last fields, s.Reaches id last → s.read last = .ok (.composite .moduleType fields) →
    ¬s.HasVariable last

theorem Grounded.steady_of_older (hGround : s.Grounded) {bound : Nat}
    (hModules : ∀ entry ∈ s.nodes.items.entries, entry.2.isNominal = true →
      entry.2.isVariable = true ∨ bound ≤ entry.1.index) (hId : id.index < bound) :
    s.Steady id := by
  intro last fields hReach hNode
  have hLe := hGround.le_of_reaches hReach
  rcases hModules _ (Arena.mem_entries (read_eq_ok_iff.mp hNode)) rfl with hVar | hBound
  · cases hVar
  · exact absurd hBound (by dsimp only; omega)

theorem Grounded.variableFreeWithin (hGround : s.Grounded) (hMinted : s.Minted id)
    (hFree : ¬s.HasVariable id) : s.VariableFreeWithin (id.index + 1) id := by
  refine hGround.allWithin hMinted fun last node hReach hNode => ?_
  exact Bool.eq_false_iff.mpr fun hVar => hFree ⟨last, node, hReach, hNode, hVar⟩

theorem Grounded.steadyWithin (hGround : s.Grounded) (hMinted : s.Minted id)
    (hSteady : s.Steady id) : s.SteadyWithin (id.index + 1) id := by
  refine hGround.allWithin hMinted fun last node hReach hNode hNominal => ?_
  unfold Node.isNominal at hNominal
  split at hNominal
  case h_1 fields =>
    exact .inr ⟨_, hGround.variableFreeWithin ⟨_, hNode⟩ (hSteady last fields hReach hNode)⟩
  case h_2 => exact .inl rfl
  case h_3 => cases hNominal

theorem SteadyWithin.extend {depth : Nat} (h : s.SteadyWithin depth id) (hExt : s.Extends t) :
    t.SteadyWithin depth id :=
  (AllWithin.extend h hExt).imp fun _ _ h hNominal =>
    (h hNominal).imp_right fun ⟨depth, hFree⟩ => ⟨depth, AllWithin.extend hFree hExt⟩

/-- However much a store has grown, a steady type of it has one image. -/
theorem Grounded.image_unique_of_steady {sub : Substitution} {mode : Strictness} {a b : TypeId}
    (hGround : s.Grounded) (hMinted : s.Minted id) (hSteady : s.Steady id) (hExt : s.Extends t)
    (hCanonical : t.Canonical) (ha : t.Image sub mode id a) (hb : t.Image sub mode id b) : a = b :=
  hCanonical.image_unique ((hGround.steadyWithin hMinted hSteady).extend hExt) ha hb

end TypeStore

end Specializer
