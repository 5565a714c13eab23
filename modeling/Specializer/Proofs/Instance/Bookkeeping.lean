import Specializer.Proofs.Instance.Calls

/-!
# The books of a run

The cache and the table of instances are in bijection: every instance is filed under its own key and
under no other. The work-list holds the last instances that were made, in the order of their making,
since it is filled at one end and emptied at the other. As long as no call has failed, the counters
agree with the tables: each miss has made an instance, and the instances that were processed are
those before the work-list.
-/

set_option autoImplicit false

namespace Specializer

open Update RunState

/-- Every instance is found under its key alone, and the work-list names instances, none twice. -/
structure RunState.Indexed (s : RunState) : Prop where
  ids : ∀ ⦃id i⦄, s.instances.get? id = some i → i.id = id
  keys : ∀ ⦃id i⦄, s.instances.get? id = some i → ∀ key, s.cache.find? key = some id ↔
    key.source = i.source ∧ key.parent = i.parent ∧ key.substitution = i.substitution ∧
      key.values = (i.arguments.filterMap Argument.value?).map Literal.canonical
  cached : ∀ ⦃key id⦄, s.cache.find? key = some id → ∃ i, s.instances.get? id = some i
  queued : ∀ id ∈ s.worklist.toList, ∃ i, s.instances.get? id = some i
  once : s.worklist.toList.Nodup

/-- The counters agree with the tables. -/
structure RunState.Balanced (s : RunState) : Prop where
  misses : s.stats.misses = s.instances.size
  processed : s.stats.processed + s.worklist.size = s.instances.size
  worklist : s.worklist.toList = (List.range' s.stats.processed s.worklist.size).map Handle.mk

def Call.succeeds (p : Program) (s : RunState) : Call → Bool
  | .instantiate target arguments => (Run.instantiate p target arguments).succeeds s
  | .drain => (Run.drain p).succeeds s

def RunState.allSucceed (p : Program) : List Call → RunState → Bool
  | [], _ => true
  | call :: rest, s => call.succeeds p s && allSucceed p rest (call.perform p s)

theorem Instance.key_eq_iff (i : Instance) (key : Key) :
    i.key = key ↔ key.source = i.source ∧ key.parent = i.parent ∧
      key.substitution = i.substitution ∧
      key.values = (i.arguments.filterMap Argument.value?).map Literal.canonical := by
  obtain ⟨source, parent, substitution, values⟩ := key
  simp only [Instance.key, Key.of, Key.mk.injEq]
  constructor
  · rintro ⟨rfl, rfl, rfl, rfl⟩
    exact ⟨rfl, rfl, rfl, rfl⟩
  · rintro ⟨rfl, rfl, rfl, rfl⟩
    exact ⟨rfl, rfl, rfl, rfl⟩

namespace RunState

/-- The work-list holds all instances from `first` upwards. -/
def QueuedFrom (s : RunState) (first : Nat) : Prop :=
  first + s.worklist.size = s.instances.size ∧
    s.worklist.toList = (List.range' first s.worklist.size).map Handle.mk

theorem QueuedFrom.congr {s t : RunState} {first : Nat} (h : s.QueuedFrom first)
    (hQueue : t.worklist = s.worklist) (hSize : t.instances.size = s.instances.size) :
    t.QueuedFrom first := by
  rw [QueuedFrom, hQueue, hSize]
  exact h

theorem QueuedFrom.enroll {p : Program} {s : RunState} {first : Nat} (h : s.QueuedFrom first)
    {m : ModuleDecl} {i : Instance} {closures : List Closure} (hFresh : Fresh p s m i closures) :
    (s.enroll i closures).QueuedFrom first := by
  obtain ⟨hCount, hList⟩ := h
  constructor
  · simp only [RunState.enroll, RunState.enter, Queue.size_push, Arena.size_push]
    omega
  · simp only [RunState.enroll, Queue.toList_push, Queue.size_push, List.range'_concat,
      List.map_append, List.map_cons, List.map_nil, hList, hFresh.id_eq, Arena.next, Nat.one_mul,
      hCount]

theorem QueuedFrom.take {s : RunState} {first : Nat} (h : s.QueuedFrom first) {id : InstanceId}
    {rest : Queue InstanceId} (hPop : s.worklist.pop? = some (id, rest)) :
    QueuedFrom { s with worklist := rest } (first + 1) := by
  obtain ⟨hCount, hList⟩ := h
  have hSize := Queue.size_of_pop? hPop
  constructor
  · dsimp only
    omega
  · rw [Queue.toList_of_pop? hPop, hSize, List.range'_succ, List.map_cons] at hList
    exact (List.cons.inj hList).2

theorem Work.queuedFrom {p : Program} {s t : RunState} (hWork : Work p s t) {first : Nat}
    (h : s.QueuedFrom first) : t.QueuedFrom first := by
  cases hWork with
  | resolve => exact h.congr rfl (Arena.size_modify _ _ _)
  | adopt => exact h.congr rfl (Arena.size_modify _ _ _)
  | advance hAdvance =>
    cases hAdvance with
    | retyped hRetyped => exact h.congr hRetyped.worklist_eq (by rw [hRetyped.instances_eq])
    | hit => exact h
    | miss => exact h
    | enter hFresh => exact h.enroll hFresh

theorem Works.queuedFrom {p : Program} {s t : RunState} (hWorks : Works p s t) {first : Nat}
    (h : s.QueuedFrom first) : t.QueuedFrom first := by
  induction hWorks with
  | refl => exact h
  | tail _ hWork ih => exact hWork.queuedFrom ih

theorem Step.queuedFrom {p : Program} {s t : RunState} (hStep : Step p s t) {first : Nat}
    (h : s.QueuedFrom first) : ∃ first', t.QueuedFrom first' := by
  cases hStep with
  | take hPop => exact ⟨first + 1, h.take hPop⟩
  | processed => exact ⟨first, h⟩
  | work hWork => exact ⟨first, hWork.queuedFrom h⟩

theorem Steps.queuedFrom {p : Program} {s t : RunState} (hSteps : Steps p s t) {first : Nat}
    (h : s.QueuedFrom first) : ∃ first', t.QueuedFrom first' := by
  induction hSteps with
  | refl => exact ⟨first, h⟩
  | tail _ hStep ih =>
    obtain ⟨first', h'⟩ := ih
    exact hStep.queuedFrom h'

theorem exists_queuedFrom (p : Program) (types : TypeStore) (calls : List Call) :
    ∃ first, (RunState.after p calls (.start types)).QueuedFrom first := by
  apply Steps.queuedFrom ((Sound.start p types).steps_after calls)
  exact (⟨rfl, rfl⟩ : (RunState.start types).QueuedFrom 0)

end RunState

theorem Sound.indexed {p : Program} {s : RunState} (hSound : Sound p s) {first : Nat}
    (hQueued : s.QueuedFrom first) : s.Indexed where
  ids id i hi := by
    obtain ⟨m, hFormed⟩ := hSound.formed hi
    exact hFormed.id_eq
  keys id i hi key := by
    rw [← i.key_eq_iff]
    constructor
    · intro hFind
      obtain ⟨j, hj, hKey⟩ := hSound.filed hFind
      cases hi.symm.trans hj
      exact hKey
    · rintro rfl
      exact hSound.cached hi
  cached key id hFind := by
    obtain ⟨i, hi, -⟩ := hSound.filed hFind
    exact ⟨i, hi⟩
  queued := hSound.queued
  once := by
    rw [hQueued.2]
    apply List.Nodup.map _ List.nodup_range'
    intro a b hSame
    exact congrArg Handle.index hSame

theorem Call.tallied {p : Program} {s : RunState} (hSound : Sound p s) {call : Call}
    (hOk : call.succeeds p s = true) : Tallied s (call.perform p s) := by
  cases call with
  | instantiate target arguments =>
    obtain ⟨id, t, hRun⟩ := exists_of_succeeds hOk
    rw [perform, leave_of_ok hRun]
    exact ((Run.instantiate_ensures p target arguments hSound).of_ok hRun).tallied
  | drain =>
    obtain ⟨_, t, hRun⟩ := exists_of_succeeds hOk
    rw [perform, leave_of_ok hRun]
    exact ((Run.drain_ensures hSound).of_ok hRun).tallied

theorem Sound.tallied_after {p : Program} {s : RunState} (hSound : Sound p s) {calls : List Call}
    (hOk : s.allSucceed p calls = true) : Tallied s (s.after p calls) := by
  induction calls generalizing s with
  | nil => exact .refl s
  | cons call rest ih =>
    rw [allSucceed, Bool.and_eq_true] at hOk
    have hFirst := call.tallied hSound hOk.1
    exact hFirst.trans (ih (hSound.steps (call.steps_perform hSound)) hOk.2)

theorem RunState.Tallied.balanced {types : TypeStore} {t : RunState}
    (h : Tallied (.start types) t) {first : Nat} (hQueued : t.QueuedFrom first) : t.Balanced := by
  obtain ⟨hMisses, hProcessed⟩ := h
  obtain ⟨hCount, hList⟩ := hQueued
  simp only [RunState.start, Arena.size_empty, Queue.size_empty, Nat.add_zero, Nat.zero_add]
    at hMisses hProcessed
  constructor
  case misses => exact hMisses
  case processed => exact hProcessed
  case worklist =>
    have hFirst : first = t.stats.processed := by omega
    rw [hList, hFirst]

/-- After any calls the cache and the instances are in bijection; if none of the calls failed, the
counters agree with the tables. -/
theorem after_indexed (p : Program) (types : TypeStore) (calls : List Call) :
    (RunState.after p calls (.start types)).Indexed ∧
      ((RunState.start types).allSucceed p calls = true →
        (RunState.after p calls (.start types)).Balanced) := by
  obtain ⟨first, hQueued⟩ := exists_queuedFrom p types calls
  constructor
  · exact (Sound.after_start p types calls).indexed hQueued
  · intro hOk
    exact ((Sound.start p types).tallied_after hOk).balanced hQueued

/-- The main module while it waits on the work-list, and again when it and all that it demands have
been processed and it is asked for once more. -/
theorem after_main_balanced :
    (∃ s, RunState.after Sample.program [.instantiate ⟨2⟩ []] (.start Sample.types) = s ∧
      s.worklist.toList = [⟨0⟩] ∧ s.stats.processed = 0 ∧ s.Balanced) ∧
    (RunState.start Sample.types).allSucceed Sample.program
      [.instantiate ⟨2⟩ [], .drain, .instantiate ⟨2⟩ []] = true ∧
    (RunState.after Sample.program [.instantiate ⟨2⟩ [], .drain, .instantiate ⟨2⟩ []]
      (.start Sample.types)).Balanced := by
  have hWaits : (RunState.start Sample.types).allSucceed Sample.program
      [.instantiate ⟨2⟩ []] = true := by decide +kernel
  have hOk : (RunState.start Sample.types).allSucceed Sample.program
      [.instantiate ⟨2⟩ [], .drain, .instantiate ⟨2⟩ []] = true := by decide +kernel
  refine ⟨⟨_, rfl, ?_, ?_, (after_indexed Sample.program Sample.types _).2 hWaits⟩, hOk,
    (after_indexed Sample.program Sample.types _).2 hOk⟩
  · decide +kernel
  · decide +kernel

end Specializer
