import Specializer.Proofs.Instance.Calls

/-!
# No bound variable survives

Whatever a caller asks for, and whether it gets it or not, no type that a run holds has a bound
variable left. A variable that is found at the end is therefore a free one, and each type that has
one is warned about once.
-/

set_option autoImplicit false

namespace Specializer

open TypeStore Update RunState

namespace TypeStore

/-- The handle can be read, and no bound variable can be reached from it. -/
structure FreeOfBound (s : TypeStore) (id : TypeId) : Prop where
  minted : s.Minted id
  unbound : ∀ ⦃last node⦄, s.Reaches id last → s.read last = .ok node → node.isBound = false

theorem Closed.freeOfBound {s : TypeStore} {id : TypeId} (h : s.Closed id) : s.FreeOfBound id := by
  refine ⟨h.minted, fun last node hReach hNode => ?_⟩
  obtain ⟨depth, hAll⟩ := h
  obtain ⟨other, hOther, hBound⟩ := hAll.of_reaches hReach
  cases hNode.symm.trans hOther
  exact hBound

end TypeStore

theorem Node.exists_free {node : Node} (hVar : node.isVariable = true)
    (hFree : node.isBound = false) : ∃ name, node = .var .free name := by
  cases node with
  | var binder name =>
    cases binder with
    | bound => cases hFree
    | free => exact ⟨name, rfl⟩
  | _ => cases hVar

open Classical in
/-- No type in any state between calls has a bound variable. The warnings about a result are, one by
one, about the types in it that have a variable, and all of these variables are free. -/
theorem holds_freeOfBound (p : Program) (types : TypeStore) :
    (∀ (calls : List Call) (type : TypeId), (RunState.after p calls (.start types)).Holds type →
      (RunState.after p calls (.start types)).types.FreeOfBound type) ∧
    ∀ (calls : List Call) (root : InstanceId) (out : Output) (t : RunState),
      Run.finish p root (.after p calls (.start types)) = .ok out t →
      p.settings.limits.verifyConcrete = true →
      List.Forall₂ (Place.Warns p t.types)
        ((places out.instances out.closures).filter
          fun place => decide (t.types.HasVariable place.type)) out.warnings ∧
      ∀ place ∈ places out.instances out.closures, ∀ var node, t.types.Reaches place.type var →
        t.types.read var = .ok node → node.isVariable = true → ∃ name, node = .var .free name := by
  constructor
  · intro calls type hHolds
    exact ((Sound.after_start p types calls).closed_of_holds hHolds).freeOfBound
  · intro calls root out t hRun hVerify
    have hSound := Sound.after_start p types calls
    obtain ⟨hDrained, -, hReports⟩ := (Run.finish_ensures root hSound).of_ok hRun
    rw [hReports.instances, hReports.closures]
    refine ⟨Run.forall₂_warns (hReports.warnings hVerify), ?_⟩
    intro place hPlace var node hReach hNode hVar
    have hClosed := (hSound.steps hDrained.steps).closed_of_holds (holds_place hPlace)
    exact Node.exists_free hVar (hClosed.freeOfBound.unbound hReach hNode)

/-- A box for an unknown type keeps its variable, and there is one warning about that. -/
theorem finish_box_warns : ∃ out t place text,
    Run.finish Sample.program ⟨0⟩ (.after Sample.program [.instantiate ⟨0⟩ [.type ⟨14⟩]]
      (.start (Sample.types.add (.var .free ⟨2⟩)).2)) = .ok out t ∧ out.warnings = [text] ∧
    place ∈ places out.instances out.closures ∧ t.types.HasVariable place.type ∧
    place.Warns Sample.program t.types text := by
  obtain ⟨out, t, hRun⟩ := Update.exists_of_succeeds
    (show (Run.finish Sample.program ⟨0⟩).succeeds (.after Sample.program
      [.instantiate ⟨0⟩ [.type ⟨14⟩]] (.start (Sample.types.add (.var .free ⟨2⟩)).2)) = true by
        decide +kernel)
  have hCount : out.warnings.length = 1 := by
    have hAll : (match Run.finish Sample.program ⟨0⟩ (.after Sample.program
        [.instantiate ⟨0⟩ [.type ⟨14⟩]] (.start (Sample.types.add (.var .free ⟨2⟩)).2)) with
      | .ok out _ => out.warnings.length
      | .error _ _ => 0) = 1 := by decide +kernel
    rwa [hRun] at hAll
  obtain ⟨text, hText⟩ := List.length_eq_one_iff.mp hCount
  have hWarns := ((holds_freeOfBound _ _).2 _ _ out t hRun rfl).1
  rw [hText] at hWarns
  obtain ⟨place, hPlace, hWarn⟩ := exists_mem_left_of_forall₂ hWarns List.mem_cons_self
  obtain ⟨hThere, hVariable⟩ := List.mem_filter.mp hPlace
  exact ⟨out, t, place, text, hRun, hText, hThere, by simpa using hVariable, hWarn⟩

end Specializer
