import Specializer.Proofs.Instance.Process

/-!
# What draining the work-list does

Every new instance joins the work-list, and an instance leaves it when its demands are about to be
served. So at the end, when the work-list is empty, the demands of all instances are answered, and
nothing was made that these demands do not need. The number of instances that are waiting or may
still be made falls with each round, which is why the loop never runs out of its budget.
-/

set_option autoImplicit false

namespace Specializer

open TypeStore Update RunState ModuleTree

theorem Queue.size_of_pop? {α : Type} {q rest : Queue α} {x : α} (h : q.pop? = some (x, rest)) :
    q.size = rest.size + 1 := by
  rw [← q.length_toList, q.toList_of_pop? h, List.length_cons, rest.length_toList]

namespace RunState

/-- Nothing leaves the work-list, and whatever is new is on it. -/
structure Queues (s t : RunState) : Prop where
  kept : ∀ ⦃id⦄, id ∈ s.worklist.toList → id ∈ t.worklist.toList
  joined : ∀ ⦃new j⦄, t.instances.get? new = some j → s.instances.get? new = none →
    new ∈ t.worklist.toList

theorem Queues.of_keeps {s t : RunState} (hQueue : t.worklist = s.worklist)
    (hBack : t.instances.Keeps s.instances) : Queues s t := by
  refine ⟨fun id hId => hQueue ▸ hId, fun new j hj hOld => ?_⟩
  obtain ⟨i, hi, -⟩ := hBack hj
  cases hOld.symm.trans hi

theorem Advance.queues {p : Program} {s t : RunState} (h : Advance p s t) : Queues s t := by
  cases h with
  | retyped h =>
    refine .of_keeps h.worklist_eq ?_
    rw [h.instances_eq]
    exact .refl _
  | hit => exact .of_keeps rfl (.refl _)
  | miss => exact .of_keeps rfl (.refl _)
  | @enter r m i closures hFresh hResolves hAbsent hRoom =>
    have hList : (s.enroll i closures).worklist.toList = s.worklist.toList ++ [i.id] :=
      Queue.toList_push _ _
    refine ⟨fun id hId => ?_, fun new j hj hOld => ?_⟩
    · rw [hList]
      exact List.mem_append_left _ hId
    · rcases get?_enroll hFresh.id_eq hj with ⟨rfl, -⟩ | hj
      · simp [hList]
      · cases hOld.symm.trans hj

theorem Works.queues {p : Program} {s t : RunState} (h : Works p s t) : Queues s t := by
  induction h with
  | refl => exact .of_keeps rfl (.refl _)
  | @tail t u hWorks hWork ih =>
    have hLast : Queues t u := by
      cases hWork with
      | advance h => exact h.queues
      | resolve id field hTarget =>
        exact .of_keeps rfl (keeps_modify _ id (shell_resolve field _)).2
      | adopt id made => exact .of_keeps rfl (keeps_modify _ id (shell_adopt made)).2
    refine ⟨fun id hId => hLast.kept (ih.kept hId), fun new j hj hOld => ?_⟩
    cases hMiddle : t.instances.get? new with
    | none => exact hLast.joined hj hMiddle
    | some i => exact hLast.kept (ih.joined hMiddle hOld)

/-- How many instances are waiting or may still be made. -/
def remaining (p : Program) (s : RunState) : Nat :=
  s.worklist.size + (p.settings.limits.maxInstances - s.instances.size)

theorem pop?_eq_none_of_remaining {p : Program} {s : RunState} (h : s.remaining p ≤ 0) :
    s.worklist.pop? = none := by
  rw [Queue.pop?_eq_none_iff, ← List.length_eq_zero_iff, Queue.length_toList]
  unfold remaining at h
  omega

theorem Works.remaining_eq {p : Program} {s t : RunState} (h : Works p s t) :
    t.remaining p = s.remaining p := by
  induction h with
  | refl => rfl
  | tail _ hWork ih =>
    rw [← ih]
    unfold remaining
    cases hWork with
    | advance h =>
      cases h with
      | retyped h => rw [h.worklist_eq, h.instances_eq]
      | hit => rfl
      | miss => rfl
      | @enter r m i closures hFresh hResolves hAbsent hRoom =>
        change (Queue.push _ _).size + (_ - (Arena.push _ _).size) = _
        rw [← Queue.length_toList, Queue.toList_push, List.length_append, Queue.length_toList,
          Arena.size_push, List.length_singleton]
        omega
    | resolve => simp
    | adopt => simp

/-- Processing trades room for waiting instances, so only the one taken off the list counts. -/
theorem Works.remaining_of_take {p : Program} {s t : RunState} {id : InstanceId}
    {rest : Queue InstanceId} (hPop : s.worklist.pop? = some (id, rest))
    (h : Works p { s with worklist := rest } t) : t.remaining p + 1 = s.remaining p := by
  have hSize := Queue.size_of_pop? hPop
  rw [h.remaining_eq]
  unfold remaining
  dsimp only
  omega

end RunState

theorem Sound.exists_of_pop {p : Program} {s : RunState} (hSound : Sound p s) {id : InstanceId}
    {rest : Queue InstanceId} (hPop : s.worklist.pop? = some (id, rest)) :
    ∃ i, s.instances.get? id = some i := by
  apply hSound.queued id
  rw [Queue.toList_of_pop? hPop]
  exact List.mem_cons_self

/-- Every instance is waiting or has its demands answered. -/
def Attended (p : Program) (s : RunState) : Prop :=
  ∀ ⦃id i⦄, s.instances.get? id = some i → id ∈ s.worklist.toList ∨
    ∀ target arguments, Asks p i.source target arguments →
      ∃ found, Answers p s ⟨some id, target, arguments⟩ found

/-- What the instance `root` needs: answers to its demands, to theirs and so on, and whatever lies
around these. -/
inductive Needed (p : Program) (s : RunState) (root : InstanceId) : InstanceId → Prop where
  | root : Needed p s root root
  | answer {id found : InstanceId} {i : Instance} {target : ModuleId} {arguments : List Argument}
      (hId : Needed p s root id) (hi : s.instances.get? id = some i)
      (hAsks : Asks p i.source target arguments)
      (hFound : Answers p s ⟨some id, target, arguments⟩ found) : Needed p s root found
  | outer {id up : InstanceId} {i : Instance} (hId : Needed p s root id)
      (hi : s.instances.get? id = some i) (hUp : i.parent = some up) : Needed p s root up

theorem Needed.around {p : Program} {s : RunState} {root id last : InstanceId}
    (h : Needed p s root id) (hAround : Around s.instances id last) : Needed p s root last := by
  induction hAround with
  | self => exact h
  | outer hGet hParent _ ih => exact ih (.outer h hGet hParent)

theorem Needed.grow {p : Program} {s t : RunState} {root id : InstanceId} (h : Needed p s root id)
    (hGrows : Grows s t) : Needed p t root id := by
  induction h with
  | root => exact .root
  | answer _ hi hAsks hFound ih =>
    obtain ⟨j, hj, hShell⟩ := hGrows.instances hi
    rw [← Instance.source_eq_of_shell hShell] at hAsks
    exact .answer ih hj hAsks (hFound.grow hGrows)
  | outer _ hi hUp ih =>
    obtain ⟨j, hj, hShell⟩ := hGrows.instances hi
    exact .outer ih hj ((Instance.parent_eq_of_shell hShell).trans hUp)

/-- Nothing was made that `root` does not need. -/
def AllNeeded (p : Program) (s : RunState) (root : InstanceId) : Prop :=
  ∀ ⦃id i⦄, s.instances.get? id = some i → Needed p s root id

theorem AllNeeded.of_keeps {p : Program} {s t : RunState} {root : InstanceId}
    (h : AllNeeded p s root) (hGrows : Grows s t) (hBack : t.instances.Keeps s.instances) :
    AllNeeded p t root := by
  intro id j hj
  obtain ⟨i, hi, -⟩ := hBack hj
  exact (h hi).grow hGrows

theorem Attended.of_keeps {p : Program} {s t : RunState} (h : Attended p s) (hGrows : Grows s t)
    (hBack : t.instances.Keeps s.instances) (hQueue : t.worklist = s.worklist) : Attended p t := by
  intro id j hj
  obtain ⟨i, hi, hShell⟩ := hBack hj
  rw [hQueue, ← Instance.source_eq_of_shell hShell]
  refine (h hi).imp_right fun hAnswered target arguments hAsks => ?_
  obtain ⟨found, hFound⟩ := hAnswered target arguments hAsks
  exact ⟨found, hFound.grow hGrows⟩

theorem AllNeeded.serves {p : Program} {s t : RunState} {root id : InstanceId} {i : Instance}
    {done : List Nat} (h : AllNeeded p s root) (hi : s.instances.get? id = some i)
    (hServes : Serves p id (Asks p i.source) done s t) : AllNeeded p t root := by
  have hGrows := hServes.works.steps.grows
  intro other j hj
  cases hOld : s.instances.get? other with
  | some k => exact (h hOld).grow hGrows
  | none =>
    obtain ⟨target, arguments, found, hAsks, hFound, hAround⟩ := hServes.needed hj hOld
    obtain ⟨k, hk, hShell⟩ := hGrows.instances hi
    rw [← Instance.source_eq_of_shell hShell] at hAsks
    exact (Needed.answer ((h hi).grow hGrows) hk hAsks hFound).around hAround

theorem Attended.serves {p : Program} {s t : RunState} {id : InstanceId} {i : Instance}
    {rest : Queue InstanceId} {done : List Nat} (h : Attended p s)
    (hPop : s.worklist.pop? = some (id, rest)) (hi : s.instances.get? id = some i)
    (hServes : Serves p id (Asks p i.source) done { s with worklist := rest } t) :
    Attended p t := by
  have hTaken : Step p s { s with worklist := rest } := .take hPop
  have hGrows := hTaken.grows.trans hServes.works.steps.grows
  intro other j hj
  cases hOld : s.instances.get? other with
  | none => exact .inl (hServes.works.queues.joined hj hOld)
  | some k =>
    obtain ⟨j', hj', hShell⟩ := hGrows.instances hOld
    cases hj.symm.trans hj'
    rw [Instance.source_eq_of_shell hShell]
    rcases h hOld with hWaiting | hAnswered
    · -- Of those that were waiting, only `id` does so no longer.
      rw [Queue.toList_of_pop? hPop] at hWaiting
      rcases List.mem_cons.mp hWaiting with rfl | hRest
      · cases hi.symm.trans hOld
        exact .inr hServes.answered
      · exact .inl (hServes.works.queues.kept hRest)
    · refine .inr fun target arguments hAsks => ?_
      obtain ⟨found, hFound⟩ := hAnswered target arguments hAsks
      exact ⟨found, hFound.grow hGrows⟩

structure Drained (p : Program) (s t : RunState) : Prop where
  steps : Steps p s t
  tallied : Tallied s t
  empty : t.worklist.toList = []
  attended : Attended p s → Attended p t
  needed : ∀ root, AllNeeded p s root → AllNeeded p t root

namespace Run

/-- Process the first instance of the work-list; `rest` is what is left of the list. -/
def round (p : Program) (id : InstanceId) (rest : Queue InstanceId) : Run Unit := do
  modify fun s => { s with worklist := rest }
  log p (.traced .instances ("processing " ++ (← readInstance id).name))
  process p id
  modify fun s => { s with stats := { s.stats with processed := s.stats.processed + 1 } }

variable {p : Program} {s : RunState} {id : InstanceId} {rest : Queue InstanceId}

theorem drainWithin_of_empty (h : s.worklist.pop? = none) (budget : Nat) :
    drainWithin p budget s = .ok () s := by
  cases budget with
  | zero => exact bind_eq_ok_iff.mpr ⟨s, s, rfl, by rw [h]; rfl⟩
  | succ budget => exact bind_eq_ok_iff.mpr ⟨s, s, rfl, by rw [h]; rfl⟩

theorem drainWithin_succ (h : s.worklist.pop? = some (id, rest)) (budget : Nat) :
    drainWithin p (budget + 1) s = (round p id rest >>= fun _ => drainWithin p budget) s := by
  rw [round]
  simp only [bind_assoc]
  refine (bind_of_ok (t := s) rfl).trans ?_
  rw [h]
  rfl

theorem round_ensures (hSound : Sound p s) (hPop : s.worklist.pop? = some (id, rest)) {i : Instance}
    (hi : s.instances.get? id = some i) {m : ModuleDecl}
    (hDecl : p.tree.readModule i.source = .ok m) :
    (round p id rest).Ensures s
      (fun _ t => ∃ u, Serves p id (Asks p i.source) (List.range m.bindings.length)
        { s with worklist := rest } u ∧
          t = { u with stats := { u.stats with processed := u.stats.processed + 1 } })
      (fun e t => FillsSome p id (List.range m.bindings.length) { s with worklist := rest } t ∧
        (Orderly p s → LimitReached p e t) ∧ e.Explained p s.types True) := by
  have hTaken : Step p s { s with worklist := rest } := .take hPop
  refine Ensures.bindModify (Ensures.bind
    (readInstance_of_get? (s := { s with worklist := rest }) hi) ?_ fun _ _ h => h)
  rintro _ _ ⟨rfl, rfl⟩
  refine Ensures.bind (log_ensures p _ _) ?_ fun _ _ h => h
  rintro _ t ⟨hRetyped, -⟩
  have hLogged : Fills p id [] { s with worklist := rest } t :=
    .advance (.refl _) (.retyped hRetyped)
  have hBegun : Steps p s t := .head hTaken hLogged.steps
  have hGet : t.instances.get? id = some i := by rwa [hRetyped.instances_eq]
  refine Ensures.bind (process_ensures (hSound.steps hBegun) hGet hDecl) ?_ ?_
  · intro _ u hServes
    have hIdle : Serves p id (fun _ _ => False) [] { s with worklist := rest } t := by
      refine .idle hLogged hRetyped.tallied ?_ fun _ _ h => h
      rw [hRetyped.instances_eq]
      exact .refl _
    refine Ensures.modify ⟨u, (hIdle.trans hServes).congr fun _ _ => ?_, rfl⟩
    rw [false_or]
  · rintro e u ⟨⟨done, hDone, hFills⟩, hLimit, hExplained⟩
    exact ⟨⟨done, hDone, hLogged.trans hFills⟩, fun h => hLimit (h.steps hBegun),
      hBegun.explained hExplained fun _ h => h⟩

theorem steps_round (hSound : Sound p s) (hPop : s.worklist.pop? = some (id, rest)) :
    Steps p s ((round p id rest).leave s) := by
  obtain ⟨i, hi⟩ := hSound.exists_of_pop hPop
  obtain ⟨m, hFormed⟩ := hSound.formed hi
  have hTaken : Step p s { s with worklist := rest } := .take hPop
  refine ((round_ensures hSound hPop hi hFormed.decl).mono ?_ ?_).leave
  · rintro _ t ⟨u, hServes, rfl⟩
    exact .head hTaken (hServes.works.steps.tail (.processed u))
  · exact fun _ t h => .head hTaken h.1.steps

theorem remaining_of_round {t : RunState} (hSound : Sound p s)
    (hPop : s.worklist.pop? = some (id, rest)) (hRun : round p id rest s = .ok () t) :
    t.remaining p + 1 = s.remaining p := by
  obtain ⟨i, hi⟩ := hSound.exists_of_pop hPop
  obtain ⟨m, hFormed⟩ := hSound.formed hi
  obtain ⟨u, hServes, rfl⟩ := (round_ensures hSound hPop hi hFormed.decl).of_ok hRun
  have hTrade := hServes.works.remaining_of_take hPop
  exact hTrade

/-- The loop over the work-list leaves it empty. It never runs out of its budget, and in a
well-formed program it stops early only because of the limit. -/
theorem drainWithin_ensures (budget : Nat) (hSound : Sound p s) (hBudget : s.remaining p ≤ budget) :
    (drainWithin p budget).Ensures s (fun _ t => Drained p s t)
      (fun e t => Steps p s t ∧ (Orderly p s → LimitReached p e t) ∧
        e.Explained p s.types True) := by
  -- Each round takes one instance off the list, and every new one takes up room under the limit.
  induction budget generalizing s with
  | zero =>
    have hEmpty := pop?_eq_none_of_remaining hBudget
    rw [Ensures, drainWithin_of_empty hEmpty]
    exact ⟨.refl, .refl s, (Queue.pop?_eq_none_iff _).mp hEmpty, fun h => h, fun _ h => h⟩
  | succ budget ih =>
    cases hPop : s.worklist.pop? with
    | none =>
      rw [Ensures, drainWithin_of_empty hPop]
      exact ⟨.refl, .refl s, (Queue.pop?_eq_none_iff _).mp hPop, fun h => h, fun _ h => h⟩
    | some entry =>
      obtain ⟨id, rest⟩ := entry
      obtain ⟨i, hi⟩ := hSound.exists_of_pop hPop
      obtain ⟨m, hFormed⟩ := hSound.formed hi
      have hTaken : Step p s { s with worklist := rest } := .take hPop
      have hSize := Queue.size_of_pop? hPop
      refine Ensures.congr (drainWithin_succ hPop budget)
        (Ensures.bind (round_ensures hSound hPop hi hFormed.decl) ?_ ?_)
      · rintro _ _ ⟨u, hServes, rfl⟩
        have hCounted : Step p u
            { u with stats := { u.stats with processed := u.stats.processed + 1 } } :=
          .processed u
        have hServed : Steps p s u := .head hTaken hServes.works.steps
        have hDone : Steps p s _ := hServed.tail hCounted
        have hLess : u.remaining p ≤ budget := by
          have hTrade := hServes.works.remaining_of_take hPop
          omega
        -- What the round takes off the list is what it adds to the count.
        have hRound : Tallied s
            { u with stats := { u.stats with processed := u.stats.processed + 1 } } := by
          obtain ⟨hMisses, hProcessed⟩ := hServes.tallied
          constructor <;> dsimp only at hMisses hProcessed ⊢ <;> omega
        refine (ih (hSound.steps hDone) hLess).mono ?_ ?_
        · rintro _ v ⟨hSteps, hTallied, hEmpty, hAttended, hNeeded⟩
          refine ⟨hDone.trans hSteps, hRound.trans hTallied, hEmpty, fun h => hAttended ?_,
            fun root h => hNeeded root ?_⟩
          · exact (h.serves hPop hi hServes).of_keeps hCounted.grows (.refl _) rfl
          · have hBefore : AllNeeded p { s with worklist := rest } root :=
              h.of_keeps hTaken.grows (.refl _)
            exact (hBefore.serves hi hServes).of_keeps hCounted.grows (.refl _)
        · rintro e v ⟨hSteps, hLimit, hExplained⟩
          exact ⟨hDone.trans hSteps, fun h => hLimit (h.steps hDone),
            hDone.explained hExplained fun _ h => h⟩
      · exact fun e u h => ⟨.head hTaken h.1.steps, h.2⟩

theorem drain_ensures (hSound : Sound p s) :
    (drain p).Ensures s (fun _ t => Drained p s t)
      (fun e t => Steps p s t ∧ (Orderly p s → LimitReached p e t) ∧
        e.Explained p s.types True) :=
  Ensures.bindGet (drainWithin_ensures _ hSound (Nat.le_refl _))

end Run

end Specializer
