import Specializer.Proofs.Instance.Calls

/-!
# Which instances wait

An instance waits while one of its fields stands for nothing yet. It enters the work-list when it is
made, and processing it to the end resolves all of its fields, so what waits is on the work-list.
The exception is the instance that a failing `drain` was working on: it has left the list for good,
and a later `drain` does not come back to it. There is at most one of these for every such failure.
-/

set_option autoImplicit false

namespace Specializer

open Update RunState

/-- A field of an instance that stands for nothing yet. -/
def RunState.Pending (s : RunState) (id : InstanceId) (f : Definition) : Prop :=
  ∃ i, s.instances.get? id = some i ∧ f ∈ i.fields ∧ f.target = .pending

/-- Fields that are pending were so before, or belong to a new instance and are values. -/
def RunState.Eases (s t : RunState) : Prop :=
  ∀ id f, t.Pending id f →
    s.Pending id f ∨ s.instances.get? id = none ∧ f.kind = .valueConstant

theorem Definition.kind_of_unresolved {f : Definition} (hWaiting : f.target = f.unresolved)
    (hPending : f.target = .pending) : f.kind = .valueConstant := by
  cases hKind : f.kind with
  | valueConstant => rfl
  | typeConstant =>
    rw [hWaiting, Definition.unresolved, hKind] at hPending
    cases hPending

theorem mem_of_mem_resolved {fields : List Definition} {field : Nat} {target : Target}
    {f : Definition} (hTarget : target ≠ .pending) (hPending : f.target = .pending)
    (hMem : f ∈ fields.modify field fun f => { f with target }) :
    ∃ position, position ≠ field ∧ fields[position]? = some f := by
  obtain ⟨position, hGet⟩ := List.mem_iff_getElem?.mp hMem
  rw [List.getElem?_modify] at hGet
  obtain ⟨g, hg, hChanged⟩ := Option.map_eq_some_iff.mp hGet
  by_cases hHere : field = position
  · rw [if_pos hHere] at hChanged
    subst hChanged
    exact absurd hPending hTarget
  · rw [if_neg hHere] at hChanged
    subst hChanged
    exact ⟨position, Ne.symm hHere, hg⟩

namespace RunState

theorem Advance.eases {p : Program} {s t : RunState} (h : Advance p s t) : s.Eases t := by
  intro id f hPending
  cases h with
  | retyped h =>
    rw [Pending, h.instances_eq] at hPending
    exact .inl hPending
  | hit => exact .inl hPending
  | miss => exact .inl hPending
  | @enter r m i closures hFresh hResolves hAbsent hRoom =>
    obtain ⟨j, hj, hMem, hTarget⟩ := hPending
    rcases get?_enroll hFresh.id_eq hj with ⟨rfl, rfl⟩ | hj
    · right
      constructor
      · rw [hFresh.id_eq]
        exact (Arena.get?_eq_none_iff _ _).mpr (Nat.le_refl _)
      · exact Definition.kind_of_unresolved (hFresh.waiting f hMem) hTarget
    · exact .inl ⟨j, hj, hMem, hTarget⟩

theorem Work.eases {p : Program} {s t : RunState} (h : Work p s t) : s.Eases t := by
  intro id f hPending
  cases h with
  | advance h => exact h.eases id f hPending
  | resolve other field hTarget =>
    obtain ⟨j, hj, hMem, hPending⟩ := hPending
    rw [Arena.get?_modify] at hj
    left
    split at hj
    case isTrue =>
      obtain ⟨i, hi, rfl⟩ := Option.map_eq_some_iff.mp hj
      obtain ⟨position, -, hGet⟩ := mem_of_mem_resolved hTarget.ne_pending hPending hMem
      exact ⟨i, hi, List.mem_of_getElem? hGet, hPending⟩
    case isFalse => exact ⟨j, hj, hMem, hPending⟩
  | adopt other made =>
    obtain ⟨j, hj, hMem, hPending⟩ := hPending
    rw [Arena.get?_modify] at hj
    left
    split at hj
    case isTrue =>
      obtain ⟨i, hi, rfl⟩ := Option.map_eq_some_iff.mp hj
      exact ⟨i, hi, hMem, hPending⟩
    case isFalse => exact ⟨j, hj, hMem, hPending⟩

theorem Steps.eases {p : Program} {s t : RunState} (h : Steps p s t) : s.Eases t := by
  induction h with
  | refl => exact fun _ _ h => .inl h
  | @tail t u hSteps hStep ih =>
    intro id f hPending
    have hLast : t.Eases u := by
      cases hStep with
      | work h => exact h.eases
      | take => exact fun _ _ h => .inl h
      | processed => exact fun _ _ h => .inl h
    rcases hLast id f hPending with hPending | ⟨hNone, hKind⟩
    · exact ih id f hPending
    · right
      refine ⟨?_, hKind⟩
      cases hGet : s.instances.get? id with
      | none => rfl
      | some i =>
        obtain ⟨j, hj, -⟩ := (Steps.grows hSteps).instances hGet
        cases hNone.symm.trans hj

theorem Steps.pending_of_get? {p : Program} {s t : RunState} (h : Steps p s t) {id : InstanceId}
    {i : Instance} {f : Definition} (hi : s.instances.get? id = some i)
    (hPending : t.Pending id f) : s.Pending id f := by
  rcases h.eases id f hPending with hPending | ⟨hNone, -⟩
  · exact hPending
  · cases hNone.symm.trans hi

/-- Type constants never wait. -/
def OnlyValuesWait (s : RunState) : Prop :=
  ∀ id f, s.Pending id f → f.kind = .valueConstant

theorem OnlyValuesWait.steps {p : Program} {s t : RunState} (h : s.OnlyValuesWait)
    (hSteps : Steps p s t) : t.OnlyValuesWait := by
  intro id f hPending
  rcases hSteps.eases id f hPending with hPending | ⟨-, hKind⟩
  · exact h id f hPending
  · exact hKind

theorem not_pending_start (types : TypeStore) (id : InstanceId) (f : Definition) :
    ¬(RunState.start types).Pending id f := by
  rintro ⟨i, hi, -⟩
  cases (Run.get?_start types id).symm.trans hi

theorem OnlyValuesWait.start (types : TypeStore) : (RunState.start types).OnlyValuesWait :=
  fun id f h => absurd h (not_pending_start types id f)

/-- What waits is on the work-list or among `dropped`. -/
def Tracks (s : RunState) (dropped : List InstanceId) : Prop :=
  ∀ id f, s.Pending id f → id ∈ s.worklist.toList ∨ id ∈ dropped

theorem Tracks.start (types : TypeStore) : (RunState.start types).Tracks [] :=
  fun id f h => absurd h (not_pending_start types id f)

theorem Tracks.works {p : Program} {s t : RunState} {dropped : List InstanceId}
    (h : s.Tracks dropped) (hWorks : Works p s t) : t.Tracks dropped := by
  intro id f hPending
  rcases hWorks.steps.eases id f hPending with hBefore | ⟨hNone, -⟩
  · rcases h id f hBefore with hQueued | hDropped
    · exact .inl (hWorks.queues.kept hQueued)
    · exact .inr hDropped
  · obtain ⟨j, hj, -⟩ := hPending
    exact .inl (hWorks.queues.joined hj hNone)

end RunState

theorem ModuleDecl.increasing_fieldSources (m : ModuleDecl) :
    (m.fieldSources.map FieldSource.binding).Pairwise (· < ·) := by
  have hIndices : (m.bindings.zipIdx.map Prod.snd).Pairwise (· < ·) := by
    rw [List.zipIdx_map_snd]
    exact List.pairwise_lt_range'
  rw [List.pairwise_map] at hIndices ⊢
  rw [fieldSources, List.pairwise_filterMap]
  apply hIndices.imp
  intro a b hLess source hSource other hOther
  rwa [FieldSource.binding_of_ofBinding? hSource, FieldSource.binding_of_ofBinding? hOther]

theorem Formed.increasing_bindings {p : Program} {s : RunState} {m : ModuleDecl} {id : InstanceId}
    {i : Instance} (h : Formed p s m id i) :
    (i.fields.map Definition.binding).Pairwise (· < ·) := by
  have hSame : m.fieldSources.map FieldSource.binding = i.fields.map Definition.binding := by
    rw [← List.forall₂_eq_eq_eq, List.forall₂_map_left_iff, List.forall₂_map_right_iff]
    exact h.fields.imp fun _ _ hYields => hYields.binding.symm
  rw [← hSame]
  exact m.increasing_fieldSources

namespace RunState

variable {p : Program} {s t : RunState} {id : InstanceId} {i : Instance}

/-- What still waits comes from a binding that was not handled. -/
theorem Fills.not_mem_of_pending {done : List Nat} (h : Fills p id done s t) (hSound : Sound p s)
    (hValues : s.OnlyValuesWait) (hi : s.instances.get? id = some i) {f : Definition}
    (hPending : t.Pending id f) : f.binding ∉ done := by
  induction h generalizing f with
  | refl => exact List.not_mem_nil
  | @advance done s t u h hAdvance ih =>
    obtain ⟨j, hj, -⟩ := h.steps.grows.instances hi
    have hStep : Steps p t u := .single (.work (.advance hAdvance))
    exact ih hSound hValues hi (hStep.pending_of_get? hj hPending)
  | @adopt done s t h made ih =>
    obtain ⟨j, hj, -⟩ := h.steps.grows.instances hi
    have hStep : Steps p t _ := .single (.work (.adopt t id made))
    exact ih hSound hValues hi (hStep.pending_of_get? hj hPending)
  | @pass done s t index h hNone ih =>
    have hKind := hValues.steps h.steps id f hPending
    have hBefore := ih hSound hValues hi hPending
    obtain ⟨j, hj, hMem, -⟩ := hPending
    rw [List.mem_append, List.mem_singleton, not_or]
    exact ⟨hBefore, fun hHere => hNone j hj f hMem hHere hKind⟩
  | @resolve done s t j index field target h hj hField hTarget ih =>
    obtain ⟨k, hk, hMem, hWaits⟩ := hPending
    rw [Arena.get?_modify, if_pos rfl, hj] at hk
    cases hk
    obtain ⟨position, hApart, hGet⟩ := mem_of_mem_resolved hTarget.ne_pending hWaits hMem
    have hBefore : t.Pending id f := ⟨j, hj, List.mem_of_getElem? hGet, hWaits⟩
    rw [List.mem_append, List.mem_singleton, not_or]
    refine ⟨ih hSound hValues hi hBefore, fun hHere => hApart ?_⟩
    -- Another field of the same binding would have been the one that was set.
    obtain ⟨n, hFormed⟩ := (hSound.steps h.steps).formed hj
    obtain ⟨hBound, hFound, -⟩ := List.findIdx?_eq_some_iff_getElem.mp hField
    apply (List.getElem?_inj _ hFormed.increasing_bindings.nodup).mp
    · rw [List.getElem?_map, List.getElem?_map, hGet, List.getElem?_eq_getElem hBound,
        Option.map_some, Option.map_some, hHere, of_decide_eq_true hFound]
    · rw [List.length_map]
      exact (List.getElem?_eq_some_iff.mp hGet).1

/-- An instance whose bindings were all handled waits no more. -/
theorem Fills.not_pending {m : ModuleDecl} (h : Fills p id (List.range m.bindings.length) s t)
    (hSound : Sound p s) (hValues : s.OnlyValuesWait) (hi : s.instances.get? id = some i)
    (hDecl : p.tree.readModule i.source = .ok m) (f : Definition) : ¬t.Pending id f := by
  intro hPending
  apply h.not_mem_of_pending hSound hValues hi hPending
  -- The binding of a field that waits is a value, so it is one of those that were handled.
  have hBefore := h.steps.pending_of_get? hi hPending
  have hKind := hValues id f hBefore
  obtain ⟨j, hj, hMem, -⟩ := hBefore
  cases hi.symm.trans hj
  obtain ⟨n, hFormed⟩ := hSound.formed hi
  cases hDecl.symm.trans hFormed.decl
  obtain ⟨b, _, _, hGet, -⟩ := hFormed.valueAt hMem hKind
  exact List.mem_range.mpr (List.getElem?_eq_some_iff.mp hGet).1

end RunState

namespace Run

variable {p : Program} {s : RunState} {id : InstanceId} {i : Instance}

/-- Draining drops nothing if it succeeds, and at most one instance if it fails. -/
theorem drainWithin_tracks (budget : Nat) {s : RunState} {dropped : List InstanceId}
    (hSound : Sound p s) (hValues : s.OnlyValuesWait) (hTracks : s.Tracks dropped) :
    (drainWithin p budget).Ensures s (fun _ t => t.Tracks dropped)
      (fun _ t => ∃ id, t.Tracks (id :: dropped)) := by
  induction budget generalizing s with
  | zero =>
    unfold drainWithin
    apply Ensures.bindGet
    split
    · exact hTracks
    · exact ⟨⟨0⟩, fun id f hPending => (hTracks id f hPending).imp_right (List.mem_cons_of_mem _)⟩
  | succ budget ih =>
    cases hPop : s.worklist.pop? with
    | none =>
      rw [Ensures, drainWithin_of_empty hPop]
      exact hTracks
    | some entry =>
      obtain ⟨id, rest⟩ := entry
      obtain ⟨i, hi⟩ := hSound.exists_of_pop hPop
      obtain ⟨m, hFormed⟩ := hSound.formed hi
      have hTaken : Step p s { s with worklist := rest } := .take hPop
      have hTracksTaken : Tracks { s with worklist := rest } (id :: dropped) := by
        intro other f hPending
        have hWhere := hTracks other f hPending
        rw [Queue.toList_of_pop? hPop] at hWhere
        simp only [List.mem_cons] at hWhere ⊢
        tauto
      apply Ensures.congr (drainWithin_succ hPop budget)
      apply Ensures.bind (round_ensures hSound hPop hi hFormed.decl)
      · rintro _ _ ⟨u, hServes, rfl⟩
        have hServed : Steps p s u := .head hTaken hServes.works.steps
        have hDone := hServed.tail (.processed u)
        apply ih (hSound.steps hDone) (hValues.steps hDone)
        intro other f hPending
        rcases hTracksTaken.works hServes.works other f hPending with hQueued | hDropped
        · exact .inl hQueued
        · rcases List.mem_cons.mp hDropped with rfl | hDropped
          · have hSettled := hServes.fills.not_pending (hSound.step hTaken)
              (hValues.steps (.single hTaken)) hi hFormed.decl f
            exact absurd hPending hSettled
          · exact .inr hDropped
      · rintro _ u ⟨⟨_, -, hFills⟩, -⟩
        exact ⟨id, hTracksTaken.works hFills.works⟩

theorem drain_tracks {dropped : List InstanceId} (hSound : Sound p s) (hValues : s.OnlyValuesWait)
    (hTracks : s.Tracks dropped) :
    (drain p).Ensures s (fun _ t => t.Tracks dropped) (fun _ t => ∃ id, t.Tracks (id :: dropped)) :=
  Ensures.bindGet (drainWithin_tracks _ hSound hValues hTracks)

theorem finish_tracks {dropped : List InstanceId} (root : InstanceId) (hSound : Sound p s)
    (hValues : s.OnlyValuesWait) (hTracks : s.Tracks dropped) :
    (finish p root).Ensures s
      (fun out _ => ∀ id i, out.instances.get? id = some i → ∀ f ∈ i.fields, f.target = .pending →
        id ∈ dropped)
      (fun _ _ => True) := by
  unfold finish
  apply Ensures.bind ((drain_ensures hSound).and (drain_tracks hSound hValues hTracks)) _
    fun _ _ _ => trivial
  rintro _ t ⟨hDrained, hTracksT⟩
  have hReport : ∀ warnings, (report p root warnings).Ensures t
      (fun out _ => ∀ id i, out.instances.get? id = some i → ∀ f ∈ i.fields, f.target = .pending →
        id ∈ dropped)
      (fun _ _ => True) := by
    intro warnings
    apply (report_ensures root warnings).mono _ fun _ _ => False.elim
    rintro out u ⟨hRetyped, -, -, hInstances, -⟩ id i hi f hMem hPending
    rw [hInstances, hRetyped.instances_eq] at hi
    apply (hTracksT id f ⟨i, hi, hMem, hPending⟩).resolve_left
    rw [hDrained.empty]
    exact List.not_mem_nil
  dsimp only
  split
  · exact Ensures.bindGet (Ensures.bindRead (fun warnings _ => hReport warnings) fun _ _ => trivial)
  · exact hReport []

end Run

def RunState.failedDrains (p : Program) : List Call → RunState → Nat
  | [], _ => 0
  | .drain :: rest, s =>
      (if (Run.drain p).succeeds s then 0 else 1) + failedDrains p rest (Call.drain.perform p s)
  | .instantiate target arguments :: rest, s =>
      failedDrains p rest ((Call.instantiate target arguments).perform p s)

theorem Call.tracks_drain {p : Program} {s : RunState} {dropped : List InstanceId}
    (hSound : Sound p s) (hValues : s.OnlyValuesWait) (hTracks : s.Tracks dropped) :
    ∃ more : List InstanceId, more.length ≤ (if (Run.drain p).succeeds s then 0 else 1) ∧
      (Call.drain.perform p s).Tracks (more ++ dropped) := by
  have hDrain := Run.drain_tracks hSound hValues hTracks
  unfold perform Update.leave Update.succeeds
  cases hRun : Run.drain p s with
  | ok _ t => exact ⟨[], Nat.le_refl _, hDrain.of_ok hRun⟩
  | error e t =>
    obtain ⟨id, hLost⟩ := hDrain.of_error hRun
    exact ⟨[id], Nat.le_refl _, hLost⟩

theorem Sound.exists_tracks {p : Program} {s : RunState} {dropped : List InstanceId}
    (hSound : Sound p s) (hValues : s.OnlyValuesWait) (hTracks : s.Tracks dropped)
    (calls : List Call) : ∃ more : List InstanceId, more.length ≤ failedDrains p calls s ∧
      (RunState.after p calls s).Tracks (more ++ dropped) := by
  induction calls generalizing s dropped with
  | nil => exact ⟨[], Nat.le_refl _, hTracks⟩
  | cons call rest ih =>
    have hSteps := Call.steps_perform hSound call
    cases call with
    | drain =>
      obtain ⟨first, hFirst, hTracksFirst⟩ := Call.tracks_drain hSound hValues hTracks
      obtain ⟨more, hMore, hTracksMore⟩ :=
        ih (hSound.steps hSteps) (hValues.steps hSteps) hTracksFirst
      refine ⟨more ++ first, ?_, ?_⟩
      · rw [List.length_append, failedDrains]
        omega
      · rw [List.append_assoc]
        exact hTracksMore
    | instantiate target arguments =>
      have hAdvances := Run.advances_instantiate hSound target arguments
      exact ih (hSound.steps hSteps) (hValues.steps hSteps) (hTracks.works hAdvances.works)

/-- Whatever the calls returned, what waits is on the work-list, apart from one instance at most for
every `drain` that failed; and only these can be left with a pending field by a run that ends well.
If no `drain` has failed, nothing is. -/
theorem pending_queued_or_dropped (p : Program) (types : TypeStore) (calls : List Call) :
    ∃ dropped : List InstanceId, dropped.length ≤ failedDrains p calls (.start types) ∧
      (∀ id f, (RunState.after p calls (.start types)).Pending id f →
        id ∈ (RunState.after p calls (.start types)).worklist.toList ∨ id ∈ dropped) ∧
      ∀ root out t, Run.finish p root (RunState.after p calls (.start types)) = .ok out t →
        ∀ id i, out.instances.get? id = some i → ∀ f ∈ i.fields, f.target = .pending →
          id ∈ dropped := by
  have hSound := Sound.start p types
  obtain ⟨dropped, hLength, hTracks⟩ :=
    hSound.exists_tracks (.start types) (Tracks.start types) calls
  rw [List.append_nil] at hTracks
  refine ⟨dropped, hLength, hTracks, fun root out t hRun => ?_⟩
  have hValues := (OnlyValuesWait.start types).steps (hSound.steps_after calls)
  exact (Run.finish_tracks root (hSound.after calls) hValues hTracks).of_ok hRun

namespace Stuck

/-! A module whose only field is meant to be another name for a field that the module does not have,
and beside it a module without such trouble. -/

def symbols : SymbolTable :=
  ["Main", "x", "Side", "y"].foldl (fun table name => (table.intern name).2) .empty

def main : ModuleDecl :=
  ⟨⟨0⟩, .origin, none, [], ⟨[], ⟨0⟩⟩, [⟨⟨1⟩, .origin, .value ⟨5⟩ ⟨0⟩⟩]⟩

def side : ModuleDecl :=
  ⟨⟨2⟩, .origin, none, [], ⟨[], ⟨0⟩⟩, [⟨⟨3⟩, .origin, .value ⟨5⟩ ⟨1⟩⟩]⟩

def tree : ModuleTree :=
  ⟨⟨#[main, side]⟩, ⟨#[⟨.field ⟨0⟩ 7, .origin, ⟨5⟩⟩, ⟨.literal (.signed .w32 3), .origin, ⟨5⟩⟩]⟩⟩

def program : Program := ⟨tree, symbols, .silent⟩

def calls : List Call := [.instantiate ⟨0⟩ [], .instantiate ⟨1⟩ [], .drain]

def state : RunState := .after program calls (.start TypeStore.initial)

theorem exists_pending {instances : Arena .instances Instance} {id : InstanceId}
    (h : (instances.get? id).map (fun i => i.fields.map Definition.target) = some [.pending]) :
    ∃ i, instances.get? id = some i ∧ ∃ f ∈ i.fields, f.target = .pending := by
  obtain ⟨i, hi, hTargets⟩ := Option.map_eq_some_iff.mp h
  have hPending : .pending ∈ i.fields.map Definition.target := by simp [hTargets]
  exact ⟨i, hi, List.mem_map.mp hPending⟩

theorem finish_pending : ∃ out t, Run.finish program ⟨0⟩ state = .ok out t ∧
    ∃ i, out.instances.get? ⟨0⟩ = some i ∧ ∃ f ∈ i.fields, f.target = .pending := by
  obtain ⟨out, t, hRun⟩ := Update.exists_of_succeeds
    (show (Run.finish program ⟨0⟩).succeeds state = true by decide +kernel)
  have hTargets : (match Run.finish program ⟨0⟩ state with
      | .ok out _ => (out.instances.get? ⟨0⟩).map fun i => i.fields.map Definition.target
      | .error _ _ => none) = some [.pending] := by decide +kernel
  rw [hRun] at hTargets
  exact ⟨out, t, hRun, exists_pending hTargets⟩

/-- One `drain` has failed, so the main module is all that can be pending in the end. -/
theorem finish_only_main_pending : ∃ out t, Run.finish program ⟨0⟩ state = .ok out t ∧
    (∃ i, out.instances.get? ⟨0⟩ = some i ∧ ∃ f ∈ i.fields, f.target = .pending) ∧
    ∀ id i, out.instances.get? id = some i → ∀ f ∈ i.fields, f.target = .pending → id = ⟨0⟩ := by
  obtain ⟨out, t, hRun, i, hi, f, hMem, hPending⟩ := finish_pending
  have hCount : failedDrains program calls (.start TypeStore.initial) = 1 := by decide +kernel
  obtain ⟨dropped, hLength, -, hFinish⟩ := pending_queued_or_dropped program TypeStore.initial calls
  rw [hCount] at hLength
  have hMain := hFinish ⟨0⟩ out t hRun ⟨0⟩ i hi f hMem hPending
  have hOnly : ∀ id ∈ dropped, id = ⟨0⟩ := by
    cases dropped with
    | nil => cases hMain
    | cons first rest =>
      obtain rfl : rest = [] := List.length_eq_zero_iff.mp (by simpa using hLength)
      rw [List.mem_singleton] at hMain
      simp [← hMain]
  refine ⟨out, t, hRun, ⟨i, hi, f, hMem, hPending⟩, fun id j hj g hg hWaits => ?_⟩
  exact hOnly id (hFinish ⟨0⟩ out t hRun id j hj g hg hWaits)

/-- A failed `drain` leaves the main module off the work-list while it waits, and the run can
still be finished. -/
theorem main_pending_not_queued : ⟨0⟩ ∉ state.worklist.toList ∧ (∃ f, state.Pending ⟨0⟩ f) ∧
    ∃ out t, Run.finish program ⟨0⟩ state = .ok out t ∧
      ∃ i, out.instances.get? ⟨0⟩ = some i ∧ ∃ f ∈ i.fields, f.target = .pending := by
  have hQueue : state.worklist.toList = [⟨1⟩] := by decide +kernel
  have hTargets : (state.instances.get? ⟨0⟩).map (fun i => i.fields.map Definition.target) =
      some [.pending] := by decide +kernel
  obtain ⟨i, hi, f, hMem, hPending⟩ := exists_pending hTargets
  exact ⟨by simp [hQueue], ⟨f, i, hi, hMem, hPending⟩, finish_pending⟩

end Stuck

end Specializer
