import Specializer.Proofs.Types.Growth

/-!
# Variables below a type

The variables that the program collects from a type are those that can be reached from it, so a type
counts as concrete exactly if no variable can be reached.
-/

set_option autoImplicit false

namespace Specializer.TypeStore

variable {s : TypeStore}

/-- A variable, free or bound, can be reached from `id`. -/
def HasVariable (s : TypeStore) (id : TypeId) : Prop :=
  ∃ var node, s.Reaches id var ∧ s.read var = .ok node ∧ node.isVariable = true

theorem reaches_iff {id last : TypeId} {node : Node} (hNode : s.read id = .ok node) :
    s.Reaches id last ↔ last = id ∨ ∃ part ∈ node.components, s.Reaches part last := by
  constructor
  · intro h
    cases h with
    | refl => exact .inl rfl
    | step hNode' hPart hRest =>
      cases hNode.symm.trans hNode'
      exact .inr ⟨_, hPart, hRest⟩
  · rintro (rfl | ⟨part, hPart, hRest⟩)
    · exact .refl _
    · exact .step hNode hPart hRest

theorem mem_occurrencesWithin {depth : Nat} {id : TypeId} {vars : List TypeId}
    (h : s.occurrencesWithin depth id = .ok vars) {var : TypeId} :
    var ∈ vars ↔ s.Reaches id var ∧ ∃ node, s.read var = .ok node ∧ node.isVariable = true := by
  induction depth generalizing id vars with
  | zero => cases h
  | succ depth ih =>
    rw [occurrencesWithin] at h
    obtain ⟨node, hNode, h⟩ := Read.bind_eq_ok_iff.mp h
    split at h
    case isTrue hVar =>
      cases h
      rw [List.mem_singleton, reaches_iff hNode, node.components_of_isVariable hVar]
      constructor
      · rintro rfl
        exact ⟨.inl rfl, node, hNode, hVar⟩
      · rintro ⟨rfl | ⟨part, hPart, -⟩, -⟩
        · rfl
        · cases hPart
    case isFalse hNot =>
      obtain ⟨parts, hParts, h⟩ := Read.bind_eq_ok_iff.mp h
      cases h
      have hEach := Read.mapM_eq_ok_iff.mp hParts
      rw [List.mem_flatten, reaches_iff hNode]
      constructor
      · rintro ⟨found, hFound, hVar⟩
        obtain ⟨part, hPart, hWalk⟩ := exists_mem_left_of_forall₂ hEach hFound
        obtain ⟨hReach, hNode'⟩ := (ih hWalk).mp hVar
        exact ⟨.inr ⟨part, hPart, hReach⟩, hNode'⟩
      · rintro ⟨rfl | ⟨part, hPart, hReach⟩, node', hNode', hVar⟩
        · cases hNode.symm.trans hNode'
          exact absurd hVar hNot
        · obtain ⟨found, hFound, hWalk⟩ := exists_mem_right_of_forall₂ hEach hPart
          exact ⟨found, hFound, (ih hWalk).mpr ⟨hReach, node', hNode', hVar⟩⟩

theorem exists_occurrencesWithin {G : TypeId → Node → Prop} {depth : Nat} {id : TypeId}
    (h : s.AllWithin G depth id) : ∃ vars, s.occurrencesWithin depth id = .ok vars := by
  induction depth generalizing id with
  | zero => exact h.elim
  | succ depth ih =>
    obtain ⟨node, hNode, -, hParts⟩ := h
    rw [occurrencesWithin]
    refine Read.exists_bind_eq_ok ⟨node, hNode⟩ fun other hOther => ?_
    cases hNode.symm.trans hOther
    split
    · exact ⟨_, rfl⟩
    · refine Read.exists_bind_eq_ok (Read.exists_mapM_eq_ok fun part hPart => ?_)
        fun _ _ => ⟨_, rfl⟩
      exact ih (hParts part hPart)

theorem Grounded.exists_occurrences (hGround : s.Grounded) {id : TypeId} (hMinted : s.Minted id) :
    ∃ vars, s.occurrencesWithin s.depth id = .ok vars := by
  have hAll := hGround.allWithin (G := fun _ _ => True) hMinted fun _ _ _ _ => trivial
  have hDepth : id.index + 1 ≤ s.depth := Nat.succ_le_succ (Nat.le_of_lt (minted_iff_lt.mp hMinted))
  exact exists_occurrencesWithin (hAll.mono hDepth)

theorem Grounded.exists_vars (hGround : s.Grounded) {id : TypeId} (hMinted : s.Minted id) :
    ∃ vars, s.vars id = .ok vars :=
  Read.exists_bind_eq_ok (hGround.exists_occurrences hMinted) fun _ _ => ⟨_, rfl⟩

theorem mem_vars_iff {id : TypeId} {vars : List TypeId} (h : s.vars id = .ok vars) {var : TypeId} :
    var ∈ vars ↔ s.Reaches id var ∧ ∃ node, s.read var = .ok node ∧ node.isVariable = true := by
  obtain ⟨found, hFound, hVars⟩ := Read.bind_eq_ok_iff.mp h
  cases Read.pure_eq_ok_iff.mp hVars
  rw [List.mem_eraseDups, mem_occurrencesWithin hFound]

theorem isConcrete_eq_ok {id : TypeId} {answer : Bool} (h : s.isConcrete id = .ok answer) :
    answer = true ↔ ¬s.HasVariable id := by
  obtain ⟨vars, hVars, h⟩ := Read.bind_eq_ok_iff.mp h
  cases Read.pure_eq_ok_iff.mp h
  rw [List.isEmpty_iff, List.eq_nil_iff_forall_not_mem]
  simp only [mem_vars_iff hVars, HasVariable, not_exists, not_and]
  exact ⟨fun h var node hReach hNode hVar => h var hReach node hNode hVar,
    fun h var hReach node hNode hVar => h var node hReach hNode hVar⟩

theorem occurrencesWithin_mono {t : TypeStore} (hExt : s.Extends t) {depth depth' : Nat}
    (hDepth : depth ≤ depth') {id : TypeId} {vars : List TypeId}
    (h : s.occurrencesWithin depth id = .ok vars) : t.occurrencesWithin depth' id = .ok vars := by
  induction depth generalizing depth' id vars with
  | zero => cases h
  | succ depth ih =>
    cases depth' with
    | zero => cases hDepth
    | succ depth' =>
      rw [occurrencesWithin] at h ⊢
      refine Read.bind_mono (fun _ h => hExt h) (fun node found h => ?_) h
      split at h
      case isTrue hVar => rwa [if_pos hVar]
      case isFalse hNot =>
        rw [if_neg hNot]
        refine Read.bind_mono (fun _ => Read.mapM_mono ?_) (fun _ _ h => h) h
        exact fun part vars => ih (Nat.le_of_succ_le_succ hDepth)

theorem vars_mono {t : TypeStore} (hExt : s.Extends t) {id : TypeId} {vars : List TypeId}
    (h : s.vars id = .ok vars) : t.vars id = .ok vars := by
  have hDepth : s.depth ≤ t.depth := Nat.succ_le_succ hExt.size_le
  exact Read.bind_mono (fun _ => occurrencesWithin_mono hExt hDepth) (fun _ _ h => h) h

theorem isConcrete_mono {t : TypeStore} (hExt : s.Extends t) {id : TypeId} {answer : Bool}
    (h : s.isConcrete id = .ok answer) : t.isConcrete id = .ok answer :=
  Read.bind_mono (fun _ => vars_mono hExt) (fun _ _ h => h) h

theorem Grounded.exists_isConcrete (hGround : s.Grounded) {id : TypeId} (hMinted : s.Minted id) :
    ∃ answer, s.isConcrete id = .ok answer := by
  refine Read.exists_bind_eq_ok (Read.exists_bind_eq_ok ?_ fun _ _ => ⟨_, rfl⟩) fun _ _ => ⟨_, rfl⟩
  exact hGround.exists_occurrences hMinted

end Specializer.TypeStore
