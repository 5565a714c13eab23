import Specializer.Proofs.Instance.Residue
import Specializer.Proofs.Instance.Rounds
import Specializer.Proofs.Instance.Targets

/-!
# Frozen instances

An instance is complete when it enters the tables, apart from the targets of its value fields and
its submodules. These are filled in while the instance is processed, which happens once, and nobody
else writes to them: what other instances and callers ask for is added behind the instances that are
there. A target is set while it is pending and is never touched again.
-/

set_option autoImplicit false

namespace Specializer

open Relation Update RunState ModuleTree

/-- The later field is the earlier one, whose target may have been resolved in between. -/
structure Definition.Kept (f g : Definition) : Prop where
  name : g.name = f.name
  binding : g.binding = f.binding
  kind : g.kind = f.kind
  type : g.type = f.type
  span : g.span = f.span
  target : g.target = f.target ∨ f.target = .pending ∧ g.target ≠ .pending

/-- The later instance is the earlier one, apart from its submodules and the targets of its
fields. -/
structure Instance.Kept (i j : Instance) : Prop where
  id : j.id = i.id
  source : j.source = i.source
  parent : j.parent = i.parent
  substitution : j.substitution = i.substitution
  arguments : j.arguments = i.arguments
  name : j.name = i.name
  moduleType : j.moduleType = i.moduleType
  closures : j.closures = i.closures
  fields : List.Forall₂ Definition.Kept i.fields j.fields

/-- What is in the tables stays in them as it is. -/
structure RunState.Frozen (s t : RunState) : Prop where
  instances : ∀ ⦃id i⦄, s.instances.get? id = some i →
    ∃ j, t.instances.get? id = some j ∧ i.Kept j
  closures : ∀ ⦃id c⦄, s.closures.get? id = some c → t.closures.get? id = some c
  cache : ∀ ⦃key id⦄, s.cache.find? key = some id → t.cache.find? key = some id
  closureTable : ∀ ⦃site ids⦄, s.closureTable.find? site = some ids →
    t.closureTable.find? site = some ids

theorem Definition.Kept.refl (f : Definition) : f.Kept f := ⟨rfl, rfl, rfl, rfl, rfl, .inl rfl⟩

theorem Definition.Kept.trans {f g h : Definition} (hfg : f.Kept g) (hgh : g.Kept h) :
    f.Kept h where
  name := hgh.name.trans hfg.name
  binding := hgh.binding.trans hfg.binding
  kind := hgh.kind.trans hfg.kind
  type := hgh.type.trans hfg.type
  span := hgh.span.trans hfg.span
  target := by
    rcases hfg.target with hSame | ⟨hPending, hSet⟩
    · rw [← hSame]
      exact hgh.target
    · rcases hgh.target with hSame | ⟨hPending', -⟩
      · rw [hSame]
        exact .inr ⟨hPending, hSet⟩
      · exact absurd hPending' hSet

theorem Instance.Kept.refl (i : Instance) : i.Kept i :=
  ⟨rfl, rfl, rfl, rfl, rfl, rfl, rfl, rfl, List.forall₂_same.mpr fun f _ => .refl f⟩

theorem Instance.Kept.trans {i j k : Instance} (hij : i.Kept j) (hjk : j.Kept k) : i.Kept k where
  id := hjk.id.trans hij.id
  source := hjk.source.trans hij.source
  parent := hjk.parent.trans hij.parent
  substitution := hjk.substitution.trans hij.substitution
  arguments := hjk.arguments.trans hij.arguments
  name := hjk.name.trans hij.name
  moduleType := hjk.moduleType.trans hij.moduleType
  closures := hjk.closures.trans hij.closures
  fields := forall₂_join hij.fields hjk.fields fun _ _ _ => .trans

theorem RunState.Frozen.refl (s : RunState) : s.Frozen s :=
  ⟨fun _ i hi => ⟨i, hi, .refl i⟩, fun _ _ h => h, fun _ _ h => h, fun _ _ h => h⟩

theorem RunState.Frozen.trans {s t u : RunState} (hst : s.Frozen t) (htu : t.Frozen u) :
    s.Frozen u where
  instances id i hi := by
    obtain ⟨j, hj, hKept⟩ := hst.instances hi
    obtain ⟨k, hk, hKept'⟩ := htu.instances hj
    exact ⟨k, hk, hKept.trans hKept'⟩
  closures _ _ h := htu.closures (hst.closures h)
  cache _ _ h := htu.cache (hst.cache h)
  closureTable _ _ h := htu.closureTable (hst.closureTable h)

theorem forall₂_kept_resolve {fields : List Definition} {field : Nat} {f : Definition}
    {target : Target} (hf : fields[field]? = some f) (hPending : f.target = .pending)
    (hTarget : target ≠ .pending) :
    List.Forall₂ Definition.Kept fields (fields.modify field fun f => { f with target }) := by
  induction fields generalizing field with
  | nil => simp at hf
  | cons first rest ih =>
    cases field with
    | zero =>
      cases hf
      exact .cons ⟨rfl, rfl, rfl, rfl, rfl, .inr ⟨hPending, hTarget⟩⟩
        (List.forall₂_same.mpr fun g _ => .refl g)
    | succ field => exact .cons (.refl first) (ih hf)

theorem mem_of_mem_modify {fields : List Definition} {field : Nat} {f g : Definition}
    (hf : fields[field]? = some f) {change : Definition → Definition}
    (hMem : g ∈ fields.modify field change) (hOther : g ≠ change f) : g ∈ fields := by
  obtain ⟨position, hg⟩ := List.mem_iff_getElem?.mp hMem
  rw [List.getElem?_modify] at hg
  obtain ⟨h, hh, rfl⟩ := Option.map_eq_some_iff.mp hg
  by_cases hThere : field = position
  · subst hThere
    cases hf.symm.trans hh
    rw [if_pos rfl] at hOther
    exact absurd rfl hOther
  · rw [if_neg hThere]
    exact List.mem_of_getElem? hh

namespace RunState

variable {p : Program} {s t : RunState} {id : InstanceId}

/-- One change while the instance `id` is processed: new entries behind the old ones, the target of
a field of `id` that is pending, or one more submodule of `id`. -/
inductive Touch (p : Program) (id : InstanceId) : RunState → RunState → Prop where
  | advance {s t : RunState} (h : Advance p s t) : Touch p id s t
  | resolve {s : RunState} {i : Instance} {f : Definition} {field : Nat} {target : Target}
      (hi : s.instances.get? id = some i) (hf : i.fields[field]? = some f)
      (hPending : f.target = .pending) (hTarget : s.Settles p id field target) :
      Touch p id s { s with instances := s.instances.modify id fun i =>
        { i with fields := i.fields.modify field fun f => { f with target } } }
  | adopt (s : RunState) (made : InstanceId) :
      Touch p id s { s with instances := s.instances.modify id fun i =>
        { i with submodules := i.submodules ++ [made] } }
  | processed (s : RunState) :
      Touch p id s { s with stats := { s.stats with processed := s.stats.processed + 1 } }

abbrev Touches (p : Program) (id : InstanceId) : RunState → RunState → Prop :=
  ReflTransGen (Touch p id)

theorem Touch.step (h : Touch p id s t) : Step p s t := by
  cases h with
  | advance h => exact .work (.advance h)
  | resolve hi hf hPending hTarget => exact .work (.resolve s id _ hTarget)
  | adopt made => exact .work (.adopt s id made)
  | processed => exact .processed s

theorem Touches.steps (h : Touches p id s t) : Steps p s t :=
  ReflTransGen.mono (fun _ _ => Touch.step) _ _ h

theorem Advances.touches (h : Advances p s t) : Touches p id s t :=
  ReflTransGen.mono (fun _ _ => .advance) _ _ h

theorem Advance.get?_instances (h : Advance p s t) {i : Instance}
    (hi : s.instances.get? id = some i) : t.instances.get? id = some i := by
  cases h with
  | retyped h => rwa [h.instances_eq]
  | hit => exact hi
  | miss => exact hi
  | enter => exact get?_push_instances _ hi

theorem Advances.get?_instances (h : Advances p s t) {i : Instance}
    (hi : s.instances.get? id = some i) : t.instances.get? id = some i := by
  induction h with
  | refl => exact hi
  | tail _ hAdvance ih => exact hAdvance.get?_instances ih

theorem Touches.get?_other (h : Touches p id s t) {other : InstanceId} {i : Instance}
    (hOther : id ≠ other) (hi : s.instances.get? other = some i) :
    t.instances.get? other = some i := by
  induction h with
  | refl => exact hi
  | tail _ hTouch ih =>
    cases hTouch with
    | advance h => exact h.get?_instances ih
    | resolve => rwa [Arena.get?_modify, if_neg (Ne.symm hOther)]
    | adopt => rwa [Arena.get?_modify, if_neg (Ne.symm hOther)]
    | processed => exact ih

theorem Step.find?_closureTable (h : Step p s t) (hOwned : s.Owned) {site : ClosureSite}
    {ids : List ClosureId} (hFind : s.closureTable.find? site = some ids) :
    t.closureTable.find? site = some ids := by
  cases h with
  | take => exact hFind
  | processed => exact hFind
  | work hWork =>
    cases hWork with
    | resolve => exact hFind
    | adopt => exact hFind
    | advance hAdvance =>
      obtain ⟨made, hMade⟩ := Advances.exists_appends (.single hAdvance)
      exact hMade.find?_closureTable hOwned hFind

theorem Touch.exists_kept (h : Touch p id s t) {other : InstanceId} {i : Instance}
    (hi : s.instances.get? other = some i) : ∃ j, t.instances.get? other = some j ∧ i.Kept j := by
  by_cases hOther : id = other
  · subst hOther
    cases h with
    | advance h => exact ⟨i, h.get?_instances hi, .refl i⟩
    | resolve hj hf hPending hTarget =>
      cases hi.symm.trans hj
      rw [Arena.get?_modify, if_pos rfl, hi]
      exact ⟨_, rfl, rfl, rfl, rfl, rfl, rfl, rfl, rfl, rfl,
        forall₂_kept_resolve hf hPending hTarget.ne_pending⟩
    | adopt made =>
      rw [Arena.get?_modify, if_pos rfl, hi]
      exact ⟨_, rfl, rfl, rfl, rfl, rfl, rfl, rfl, rfl, rfl,
        List.forall₂_same.mpr fun f _ => .refl f⟩
    | processed => exact ⟨i, hi, .refl i⟩
  · exact ⟨i, Touches.get?_other (.single h) hOther hi, .refl i⟩

theorem Touches.frozen (h : Touches p id s t) (hOwned : s.Owned) : s.Frozen t := by
  induction h with
  | refl => exact .refl s
  | tail hTouches hTouch ih =>
    have hStep := hTouch.step
    have hOwned' := hOwned.steps (Touches.steps hTouches)
    apply ih.trans
    constructor
    · exact fun _ _ => hTouch.exists_kept
    · exact fun _ _ => hStep.get?_closures
    · exact hStep.grows.cache
    · exact fun _ _ => hStep.find?_closureTable hOwned'

end RunState

theorem Formed.kind_of_value {p : Program} {s : RunState} {m : ModuleDecl} {id : InstanceId}
    {i : Instance} (h : Formed p s m id i) {f : Definition} (hMem : f ∈ i.fields) {b : Binding}
    (hGet : m.bindings[f.binding]? = some b) {type : TypeId} {init : ExprId}
    (hKind : b.kind = .value type init) : f.kind = .valueConstant := by
  obtain ⟨source, hSource, hYields⟩ := exists_mem_left_of_forall₂ h.fields hMem
  obtain ⟨c, hc, hOf⟩ := ModuleDecl.mem_fieldSources.mp hSource
  rw [← hYields.binding, hGet] at hc
  cases hc
  simp only [FieldSource.ofBinding?, hKind, Option.some.injEq] at hOf
  rw [hYields.kind, ← hOf]

/-- If no binding is handled twice, each field is set while it waits. -/
theorem RunState.Fills.touches {p : Program} {s t : RunState} {id : InstanceId} {i : Instance}
    {done : List Nat} (h : Fills p id done s t) (hSound : Sound p s)
    (hi : s.instances.get? id = some i) (hWaiting : ∀ f ∈ i.fields, f.target = f.unresolved)
    (hOnce : done.Nodup) :
    Touches p id s t ∧ ∃ j, t.instances.get? id = some j ∧
      ∀ f ∈ j.fields, f.binding ∉ done → f.target = f.unresolved := by
  induction h with
  | refl => exact ⟨.refl, i, hi, fun f hf _ => hWaiting f hf⟩
  | advance _ hAdvance ih =>
    obtain ⟨hTouches, j, hj, hLeft⟩ := ih hSound hi hOnce
    exact ⟨hTouches.tail (.advance hAdvance), j, hAdvance.get?_instances hj, hLeft⟩
  | adopt _ made ih =>
    obtain ⟨hTouches, j, hj, hLeft⟩ := ih hSound hi hOnce
    refine ⟨hTouches.tail (.adopt _ made), { j with submodules := j.submodules ++ [made] }, ?_,
      hLeft⟩
    rw [Arena.get?_modify, if_pos rfl, hj]
    rfl
  | pass _ _ ih =>
    obtain ⟨hTouches, j, hj, hLeft⟩ := ih hSound hi hOnce.of_append_left
    refine ⟨hTouches, j, hj, fun f hf hOther => hLeft f hf fun hDone => hOther ?_⟩
    exact List.mem_append_left _ hDone
  | @resolve done s t k index field target h hk hField hTarget ih =>
    obtain ⟨hTouches, j, hj, hLeft⟩ := ih hSound hi hOnce.of_append_left
    cases hk.symm.trans hj
    obtain ⟨hBound, hHere, -⟩ := List.findIdx?_eq_some_iff_getElem.mp hField
    have hGet := List.getElem?_eq_getElem hBound
    have hBinding : k.fields[field].binding = index := of_decide_eq_true hHere
    have hNew : index ∉ done := fun hDone =>
      (List.nodup_append.mp hOnce).2.2 index hDone index List.mem_cons_self rfl
    have hPending : k.fields[field].target = .pending := by
      obtain ⟨_, m, b, other, type, init, -, hOther, hDecl, hAt, hb, hKind, -⟩ := hTarget
      cases hk.symm.trans hOther
      obtain ⟨n, hFormed⟩ := (hSound.steps h.steps).formed hk
      cases hDecl.symm.trans hFormed.decl
      have hFound := (List.findIdx?_eq_some_iff_getElem.mp hAt).2.1
      have hSame : k.fields[field].binding = other := of_decide_eq_true hFound
      rw [← hSame] at hb
      have hMem := List.getElem_mem hBound
      rw [hLeft _ hMem (by rwa [hBinding]), Definition.unresolved,
        hFormed.kind_of_value hMem hb hKind]
    refine ⟨hTouches.tail (.resolve hk hGet hPending hTarget),
      { k with fields := k.fields.modify field fun f => { f with target } }, ?_,
      fun f hf hOther => ?_⟩
    · rw [Arena.get?_modify, if_pos rfl, hk]
      rfl
    · rw [List.mem_append, List.mem_singleton, not_or] at hOther
      refine hLeft f (mem_of_mem_modify hGet hf ?_) hOther.1
      rintro rfl
      exact hOther.2 hBinding

theorem Run.round_touches {p : Program} {s : RunState} {id : InstanceId} {i : Instance}
    {rest : Queue InstanceId} (hSound : Sound p s) (hPop : s.worklist.pop? = some (id, rest))
    (hi : s.instances.get? id = some i) (hWaiting : ∀ f ∈ i.fields, f.target = f.unresolved) :
    Touches p id { s with worklist := rest } ((round p id rest).leave s) := by
  obtain ⟨m, hFormed⟩ := hSound.formed hi
  have hTaken : Sound p { s with worklist := rest } := hSound.step (.take hPop)
  apply ((round_ensures hSound hPop hi hFormed.decl).mono _ _).leave
  · rintro _ _ ⟨u, hServes, rfl⟩
    exact (hServes.fills.touches hTaken hi hWaiting List.nodup_range).1.tail (.processed u)
  · rintro _ t ⟨⟨done, hDone, hFills⟩, -⟩
    exact (hFills.touches hTaken hi hWaiting (hDone.nodup List.nodup_range)).1

/-- Nothing has been done yet for the instances on the work-list. -/
def RunState.Untouched (s : RunState) : Prop :=
  ∀ ⦃id i⦄, id ∈ s.worklist.toList → s.instances.get? id = some i →
    (∀ f ∈ i.fields, f.target = f.unresolved) ∧ i.submodules = []

namespace RunState

variable {p : Program} {s t : RunState} {id : InstanceId}

theorem Untouched.advance (h : s.Untouched) (hAdvance : Advance p s t) : t.Untouched := by
  intro other j hMem hj
  cases hAdvance with
  | retyped hRetyped =>
    rw [hRetyped.worklist_eq] at hMem
    rw [hRetyped.instances_eq] at hj
    exact h hMem hj
  | hit => exact h hMem hj
  | miss => exact h hMem hj
  | @enter r m i closures hFresh hResolves hAbsent hRoom =>
    rcases get?_enroll hFresh.id_eq hj with ⟨rfl, rfl⟩ | hOld
    · exact ⟨hFresh.waiting, hFresh.submodules_eq⟩
    · rcases List.mem_append.mp ((s.worklist.toList_push i.id) ▸ hMem) with hMem | hMem
      · exact h hMem hOld
      · -- The handle of the new instance was not in use.
        rw [List.mem_singleton.mp hMem, hFresh.id_eq] at hOld
        exact absurd (Arena.lt_of_get? hOld) (Nat.lt_irrefl _)

theorem Untouched.advances (h : s.Untouched) (hAdvances : Advances p s t) : t.Untouched := by
  induction hAdvances with
  | refl => exact h
  | tail _ hAdvance ih => exact ih.advance hAdvance

theorem Untouched.touches (h : s.Untouched) (hTouches : Touches p id s t)
    (hLeft : id ∉ t.worklist.toList) : t.Untouched := by
  induction hTouches with
  | refl => exact h
  | @tail t u hTouches hTouch ih =>
    cases hTouch with
    | advance hAdvance =>
      have hBefore : id ∉ t.worklist.toList := fun hMem => hLeft (hAdvance.queues.kept hMem)
      exact (ih hBefore).advance hAdvance
    | resolve =>
      intro other j hMem hj
      have hApart : other ≠ id := fun hSame => hLeft (hSame ▸ hMem)
      rw [Arena.get?_modify, if_neg hApart] at hj
      exact ih hLeft hMem hj
    | adopt =>
      intro other j hMem hj
      have hApart : other ≠ id := fun hSame => hLeft (hSame ▸ hMem)
      rw [Arena.get?_modify, if_neg hApart] at hj
      exact ih hLeft hMem hj
    | processed => exact ih hLeft

structure Regular (p : Program) (s : RunState) (first : Nat) : Prop where
  sound : Sound p s
  owned : s.Owned
  queued : s.QueuedFrom first
  untouched : s.Untouched

theorem Regular.start (p : Program) (types : TypeStore) : Regular p (.start types) 0 where
  sound := .start p types
  owned := .start types
  queued := ⟨rfl, rfl⟩
  untouched id i hMem _ := by simp [RunState.start] at hMem

theorem Regular.advances {first : Nat} (h : Regular p s first) (hAdvances : Advances p s t) :
    Regular p t first where
  sound := h.sound.steps hAdvances.steps
  owned := h.owned.steps hAdvances.steps
  queued := hAdvances.works.queuedFrom h.queued
  untouched := h.untouched.advances hAdvances

theorem QueuedFrom.not_mem {first : Nat} (h : s.QueuedFrom (first + 1)) :
    ⟨first⟩ ∉ s.worklist.toList := by
  rw [h.2]
  intro hMem
  obtain ⟨index, hIndex, hSame⟩ := List.mem_map.mp hMem
  have hAbove := (List.mem_range'_1.mp hIndex).1
  cases hSame
  omega

end RunState

/-- What a phase may change: of the instances that are there, only the one that is processed in it.
Nothing has been done for that one before, and what is done is a series of single changes. -/
structure Phase.Framed (p : Program) (phase : Phase) : Prop where
  frozen : phase.before.Frozen phase.after
  others : ∀ ⦃id i⦄, phase.before.instances.get? id = some i → phase.current ≠ some id →
    phase.after.instances.get? id = some i
  current : ∀ ⦃id⦄, phase.current = some id → ∃ i rest,
    phase.before.instances.get? id = some i ∧ (∀ f ∈ i.fields, f.target = f.unresolved) ∧
      i.submodules = [] ∧ phase.before.worklist.pop? = some (id, rest) ∧
      Touches p id { phase.before with worklist := rest } phase.after

theorem RunState.Regular.round {p : Program} {s : RunState} {first : Nat} (h : Regular p s first)
    {id : InstanceId} {rest : Queue InstanceId} (hPop : s.worklist.pop? = some (id, rest)) :
    Regular p ((Run.round p id rest).leave s) (first + 1) ∧
      Phase.Framed p ⟨some id, s, (Run.round p id rest).leave s⟩ := by
  have hMem : id ∈ s.worklist.toList := by
    rw [Queue.toList_of_pop? hPop]
    exact List.mem_cons_self
  obtain ⟨i, hi⟩ := h.sound.queued id hMem
  obtain ⟨hWaiting, hNone⟩ := h.untouched hMem hi
  have hTouches := Run.round_touches h.sound hPop hi hWaiting
  have hSteps := Run.steps_round h.sound hPop
  have hQueued := h.queued.round h.sound hPop
  have hRest : Untouched { s with worklist := rest } := by
    intro other j hOther hj
    apply h.untouched _ hj
    rw [Queue.toList_of_pop? hPop]
    exact List.mem_cons_of_mem _ hOther
  constructor
  · refine ⟨h.sound.steps hSteps, h.owned.steps hSteps, hQueued, hRest.touches hTouches ?_⟩
    have hLeft := hQueued.not_mem
    rwa [← h.queued.id_eq hPop] at hLeft
  · constructor
    · obtain ⟨hInstances, hClosures, hCache, hTable⟩ := hTouches.frozen h.owned
      exact ⟨hInstances, hClosures, hCache, hTable⟩
    · intro other j hj hOther
      exact hTouches.get?_other (fun hSame => hOther (congrArg some hSame)) hj
    · rintro _ ⟨⟩
      exact ⟨i, rest, hi, hWaiting, hNone, hPop, hTouches⟩

theorem RunState.Regular.request {p : Program} {s : RunState} {first : Nat} (h : Regular p s first)
    (target : ModuleId) (arguments : List Argument) :
    Phase.Framed p ⟨none, s, Call.perform p s (.instantiate target arguments)⟩ := by
  have hAdvances := Run.advances_instantiate h.sound target arguments
  have hTouches : Touches p ⟨0⟩ s (Call.perform p s (.instantiate target arguments)) :=
    hAdvances.touches
  constructor
  · exact hTouches.frozen h.owned
  · exact fun id i hi _ => hAdvances.get?_instances hi
  · exact fun _ h => nomatch h

theorem Rounds.framed {p : Program} {s : RunState} {phases : List Phase}
    {result : EStateM.Result (Failure InstantiationError) RunState Unit}
    (h : Rounds p s phases result) {first : Nat} (hRegular : Regular p s first) :
    (∃ last, Regular p (lastState result) last) ∧ s.Frozen (lastState result) ∧
      ∀ phase ∈ phases, phase.Framed p := by
  induction h generalizing first with
  | done => exact ⟨⟨first, hRegular⟩, .refl _, by simp⟩
  | failed hPop hRound =>
    obtain ⟨hAfter, hFramed⟩ := hRegular.round hPop
    rw [leave_of_error hRound] at hAfter hFramed
    exact ⟨⟨_, hAfter⟩, hFramed.frozen, by simpa using hFramed⟩
  | next hPop hRound _ ih =>
    obtain ⟨hAfter, hFramed⟩ := hRegular.round hPop
    rw [leave_of_ok hRound] at hAfter hFramed
    obtain ⟨hLast, hFrozen, hRest⟩ := ih hAfter
    exact ⟨hLast, hFramed.frozen.trans hFrozen, List.forall_mem_cons.mpr ⟨hFramed, hRest⟩⟩

theorem Life.framed {p : Program} {s : RunState} {calls : List Call} {phases : List Phase}
    (h : Life p s calls phases) {first : Nat} (hRegular : Regular p s first) :
    (∃ last, Regular p (s.after p calls) last) ∧ s.Frozen (s.after p calls) ∧
      ∀ phase ∈ phases, phase.Framed p := by
  induction h generalizing first with
  | nil s => exact ⟨⟨first, hRegular⟩, .refl s, by simp⟩
  | @request s target arguments calls phases _ ih =>
    have hFramed := hRegular.request target arguments
    obtain ⟨hLast, hFrozen, hRest⟩ :=
      ih (hRegular.advances (Run.advances_instantiate hRegular.sound target arguments))
    exact ⟨hLast, hFramed.frozen.trans hFrozen, List.forall_mem_cons.mpr ⟨hFramed, hRest⟩⟩
  | @drain s calls rounds phases hRounds _ ih =>
    obtain ⟨⟨_, hMiddle⟩, hFirst, hFramed⟩ := hRounds.framed hRegular
    obtain ⟨hLast, hFrozen, hRest⟩ := ih hMiddle
    refine ⟨hLast, hFirst.trans hFrozen, fun phase hPhase => ?_⟩
    exact (List.mem_append.mp hPhase).elim (hFramed phase) (hRest phase)

/-- Whatever has been called and whatever is called next, what is in the tables stays as it is. The
targets and submodules of an instance are filled in by one phase of the run alone, and a target only
while it is pending. -/
theorem after_frozen (p : Program) (types : TypeStore) (calls more : List Call) :
    (RunState.after p calls (.start types)).Frozen
      (RunState.after p more (.after p calls (.start types))) ∧
    ∃ phases, Life p (.start types) (calls ++ more) phases ∧ (popped phases).Nodup ∧
      ∀ phase ∈ phases, phase.Framed p := by
  have hStart := Regular.start p types
  constructor
  · obtain ⟨before, hBefore⟩ := Life.exists_phases hStart.sound calls
    obtain ⟨⟨_, hReached⟩, -⟩ := hBefore.framed hStart
    obtain ⟨phases, hLife⟩ := Life.exists_phases hReached.sound more
    exact (hLife.framed hReached).2.1
  · obtain ⟨phases, hLife⟩ := Life.exists_phases hStart.sound (calls ++ more)
    obtain ⟨n, hPopped, -⟩ := hLife.popped_eq hStart.sound hStart.queued
    refine ⟨phases, hLife, ?_, (hLife.framed hStart).2.2⟩
    rw [hPopped]
    apply List.Nodup.map _ List.nodup_range'
    exact fun a b hSame => congrArg Handle.index hSame

end Specializer
