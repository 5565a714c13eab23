import Specializer.Proofs.Instance.Calls

/-!
# What a failed request leaves behind

Requests only append: old instances, closures, cache and table entries and the order of the
work-list stay as they are. What is appended comes in complete instances, each with all of its
closures, its cache entry and its place on the work-list. A request that fails has appended at most
the instances around the module that it names, so for a module without a parent it has appended
nothing.
-/

set_option autoImplicit false

namespace Specializer

open TypeStore Update RunState

/-- An instance as it is made, with a field for each type and value binding of its source and a
closure for each lambda in an initializer. -/
structure Complete (p : Program) (types : TypeStore) (m : ModuleDecl) (i : Instance)
    (closures : List Closure) : Prop where
  decl : p.tree.readModule i.source = .ok m
  moduleType : types.Image i.substitution .strict m.scheme.body i.moduleType
  fields : List.Forall₂ (FieldSource.Yields types i.substitution) m.fieldSources i.fields
  waiting : ∀ f ∈ i.fields, f.target = f.unresolved
  shells : ∃ first shells, List.Forall₂
    (fun lambda shell => ClosureShell.Of p types i.substitution i.name lambda shell)
      (ModuleTree.lambdas (p.tree.moduleVisits m)).zipIdx shells ∧
    closures = numbered i.id first shells
  closures_eq : i.closures = closures.map Closure.id
  submodules_eq : i.submodules = []

theorem Fresh.complete {p : Program} {s : RunState} {m : ModuleDecl} {i : Instance}
    {closures : List Closure} (h : Fresh p s m i closures) : Complete p s.types m i closures := by
  obtain ⟨shells, hShells, hClosures⟩ := h.shells
  exact ⟨h.decl, h.moduleType, h.fields, h.waiting, ⟨_, shells, hShells, hClosures⟩, h.closures_eq,
    h.submodules_eq⟩

theorem Complete.extend {p : Program} {types types' : TypeStore} {m : ModuleDecl} {i : Instance}
    {closures : List Closure} (h : Complete p types m i closures) (hExt : types.Extends types') :
    Complete p types' m i closures := by
  obtain ⟨first, shells, hShells, hClosures⟩ := h.shells
  exact ⟨h.decl, h.moduleType.extend hExt, h.fields.imp fun _ _ h => h.extend hExt, h.waiting,
    ⟨first, shells, hShells.imp fun _ _ h => h.extend hExt, hClosures⟩, h.closures_eq,
    h.submodules_eq⟩

theorem Complete.owner_eq {p : Program} {types : TypeStore} {m : ModuleDecl} {i : Instance}
    {closures : List Closure} (h : Complete p types m i closures)
    {entry : ClosureSite × List ClosureId} (hEntry : entry ∈ sitesOf closures) :
    entry.1.owner = i.id := by
  obtain ⟨first, shells, -, rfl⟩ := h.shells
  simp only [sitesOf, numbered, List.mem_map, List.mem_eraseDups] at hEntry
  obtain ⟨site, ⟨c, ⟨⟨shell, index⟩, -, rfl⟩, rfl⟩, rfl⟩ := hEntry
  rfl

@[simp] theorem Arena.toList_push {table : Table} {α : Type} (a : Arena table α) (x : α) :
    (a.push x).toList = a.toList ++ [x] := by
  simp [toList, push]

@[simp] theorem Arena.toList_foldl_push {table : Table} {α : Type} (a : Arena table α)
    (items : List α) : (items.foldl Arena.push a).toList = a.toList ++ items := by
  induction items generalizing a with
  | nil => simp
  | cons item rest ih => simp [ih]

@[simp] theorem Arena.length_toList {table : Table} {α : Type} (a : Arena table α) :
    a.toList.length = a.size := by
  simp [toList, size]

theorem Index.entries_foldl_insert {κ ν : Type} [DecidableEq κ] [Digest κ] (index : Index κ ν)
    (entries : List (κ × ν)) :
    (entries.foldl (fun index entry => index.insert entry.1 entry.2) index).entries =
      entries.reverse ++ index.entries := by
  induction entries generalizing index with
  | nil => rfl
  | cons entry rest ih =>
    rw [List.foldl_cons, ih, List.reverse_cons, List.append_assoc]
    rfl

namespace RunState

/-- Everything in `t` was in `s`, in the same place, or belongs to one of the instances `made`,
which were appended with their closures in this order. -/
structure Appends (p : Program) (s t : RunState) (made : List (Instance × List Closure)) :
    Prop where
  types : s.types.Extends t.types
  instances : t.instances.toList = s.instances.toList ++ made.map Prod.fst
  closures : t.closures.toList = s.closures.toList ++ made.flatMap Prod.snd
  worklist : t.worklist.toList = s.worklist.toList ++ made.map fun entry => entry.1.id
  cache : t.cache.entries =
    (made.map fun entry => (entry.1.key, entry.1.id)).reverse ++ s.cache.entries
  closureTable : t.closureTable.entries =
    (made.flatMap fun entry => sitesOf entry.2).reverse ++ s.closureTable.entries
  ids : made.map (fun entry => entry.1.id.index) = List.range' s.instances.size made.length
  complete : ∀ entry ∈ made, ∃ m, Complete p t.types m entry.1 entry.2
  untouched : made = [] → t = { s with types := t.types, stats := t.stats, log := t.log }

theorem Appends.refl (p : Program) (s : RunState) : Appends p s s [] := by
  constructor <;> simp [Extends.refl]

theorem Appends.size_eq {p : Program} {s t : RunState} {made : List (Instance × List Closure)}
    (h : Appends p s t made) : t.instances.size = s.instances.size + made.length := by
  rw [← Arena.length_toList, h.instances, List.length_append, Arena.length_toList, List.length_map]

theorem Appends.retyped {p : Program} {s t u : RunState} {made : List (Instance × List Closure)}
    (h : Appends p s t made) (hRetyped : Retyped p t u) : Appends p s u made := by
  have hRest := hRetyped.rest
  have hTable : u.closureTable = t.closureTable := by rw [hRest]
  constructor
  case types => exact h.types.trans hRetyped.grown
  case instances => rw [hRetyped.instances_eq, h.instances]
  case closures => rw [hRetyped.closures_eq, h.closures]
  case worklist => rw [hRetyped.worklist_eq, h.worklist]
  case cache => rw [hRetyped.cache_eq, h.cache]
  case closureTable => rw [hTable, h.closureTable]
  case ids => exact h.ids
  case complete =>
    intro entry hEntry
    obtain ⟨m, hComplete⟩ := h.complete entry hEntry
    exact ⟨m, hComplete.extend hRetyped.grown⟩
  case untouched =>
    intro hNone
    rw [hRest, h.untouched hNone]

theorem Appends.enter {p : Program} {s t : RunState} {made : List (Instance × List Closure)}
    (h : Appends p s t made) {m : ModuleDecl} {i : Instance} {closures : List Closure}
    (hFresh : Fresh p t m i closures) :
    Appends p s (t.enroll i closures) (made ++ [(i, closures)]) := by
  constructor
  case types => exact h.types
  case instances => simp [enroll, RunState.enter, h.instances]
  case closures => simp [enroll, RunState.enter, h.closures]
  case worklist => simp [enroll, h.worklist]
  case cache => simp [enroll, Index.insert, h.cache]
  case closureTable =>
    simp [enroll, RunState.enter, Index.entries_foldl_insert, h.closureTable]
  case ids =>
    simp [h.ids, hFresh.id_eq, Arena.next, h.size_eq, List.range'_concat]
  case complete =>
    intro entry hEntry
    rcases List.mem_append.mp hEntry with hEntry | hEntry
    · exact h.complete entry hEntry
    · rw [List.mem_singleton.mp hEntry]
      exact ⟨m, hFresh.complete⟩
  case untouched =>
    intro hNone
    simp at hNone

theorem Advances.exists_appends {p : Program} {s t : RunState} (h : Advances p s t) :
    ∃ made, Appends p s t made := by
  induction h with
  | refl => exact ⟨[], .refl p s⟩
  | @tail t u _ hStep ih =>
    obtain ⟨made, hMade⟩ := ih
    cases hStep with
    | retyped hRetyped => exact ⟨made, hMade.retyped hRetyped⟩
    | hit =>
      refine ⟨made, { hMade with untouched := fun hNone => ?_ }⟩
      rw [hMade.untouched hNone]
    | miss =>
      refine ⟨made, { hMade with untouched := fun hNone => ?_ }⟩
      rw [hMade.untouched hNone]
    | enter hFresh => exact ⟨_, hMade.enter hFresh⟩

theorem Appends.index_of_mem {p : Program} {s t : RunState} {made : List (Instance × List Closure)}
    (h : Appends p s t made) {entry : Instance × List Closure} (hEntry : entry ∈ made) :
    s.instances.size ≤ entry.1.id.index ∧ entry.1.id.index < t.instances.size := by
  have hIndex : entry.1.id.index ∈ made.map fun entry => entry.1.id.index :=
    List.mem_map.mpr ⟨entry, hEntry, rfl⟩
  rw [h.ids, List.mem_range'_1] at hIndex
  rw [h.size_eq]
  exact hIndex

theorem Appends.owner_of_mem {p : Program} {s t : RunState} {made : List (Instance × List Closure)}
    (h : Appends p s t made) {entry : ClosureSite × List ClosureId}
    (hEntry : entry ∈ (made.flatMap fun entry => sitesOf entry.2).reverse) :
    s.instances.size ≤ entry.1.owner.index ∧ entry.1.owner.index < t.instances.size := by
  rw [List.mem_reverse, List.mem_flatMap] at hEntry
  obtain ⟨new, hNew, hEntry⟩ := hEntry
  obtain ⟨m, hComplete⟩ := h.complete new hNew
  rw [hComplete.owner_eq hEntry]
  exact h.index_of_mem hNew

/-- Every entry of the closure table belongs to an instance. -/
def Owned (s : RunState) : Prop :=
  ∀ entry ∈ s.closureTable.entries, entry.1.owner.index < s.instances.size

theorem Owned.start (types : TypeStore) : (RunState.start types).Owned := by
  intro entry hEntry
  cases hEntry

theorem Owned.step {p : Program} {s t : RunState} (h : s.Owned) (hStep : Step p s t) : t.Owned := by
  cases hStep with
  | take => exact h
  | processed => exact h
  | work hWork =>
    intro entry hEntry
    cases hWork with
    | advance hAdvance =>
      obtain ⟨made, hMade⟩ := Advances.exists_appends (.single hAdvance)
      rw [hMade.closureTable] at hEntry
      rcases List.mem_append.mp hEntry with hEntry | hEntry
      · exact (hMade.owner_of_mem hEntry).2
      · have hOld := h entry hEntry
        have hSize := hMade.size_eq
        omega
    | resolve id field =>
      rw [Arena.size_modify]
      exact h entry hEntry
    | adopt id made =>
      rw [Arena.size_modify]
      exact h entry hEntry

theorem Owned.steps {p : Program} {s t : RunState} (h : s.Owned) (hSteps : Steps p s t) :
    t.Owned := by
  induction hSteps with
  | refl => exact h
  | tail _ hStep ih => exact ih.step hStep

theorem Appends.find?_closureTable {p : Program} {s t : RunState}
    {made : List (Instance × List Closure)} (h : Appends p s t made) (hOwned : s.Owned)
    {site : ClosureSite} {ids : List ClosureId} (hFind : s.closureTable.find? site = some ids) :
    t.closureTable.find? site = some ids := by
  rw [Index.find?_eq] at hFind
  obtain ⟨entry, hEntry, -⟩ := Option.map_eq_some_iff.mp hFind
  have hSite : entry.1 = site := by simpa using List.find?_some hEntry
  have hOld := hOwned entry (List.mem_of_find?_eq_some hEntry)
  rw [hSite] at hOld
  have hAbsent : (made.flatMap fun entry => sitesOf entry.2).reverse.find?
      (fun entry => decide (entry.1 = site)) = none := by
    rw [List.find?_eq_none]
    intro new hNew hSame
    have hOwner := (h.owner_of_mem hNew).1
    rw [of_decide_eq_true hSame] at hOwner
    omega
  rw [Index.find?_eq, h.closureTable, firstOf, List.find?_append, hAbsent, Option.none_or]
  exact hFind

end RunState

namespace Sound

variable {p : Program} {s : RunState} (hSound : Sound p s)
include hSound

theorem exists_of_within {id : InstanceId} {i : Instance} {last : ModuleId}
    (hi : s.instances.get? id = some i) (h : p.tree.Within i.source last) :
    ∃ up j, s.instances.get? up = some j ∧ j.source = last ∧ up.index ≤ id.index := by
  generalize hSource : i.source = source at h
  induction h generalizing id i with
  | self => exact ⟨id, i, hi, hSource, Nat.le_refl _⟩
  | outer hDecl hParent _ ih =>
    obtain ⟨m, hFormed⟩ := hSound.formed hi
    subst hSource
    cases hDecl.symm.trans hFormed.decl
    have hLinked := hFormed.linked
    rw [hParent] at hLinked
    obtain ⟨found, j, -, hj, hOuter, hOlder⟩ := hLinked.exists_found
    obtain ⟨up, k, hk, hLast, hAbove⟩ := ih hj hOuter
    exact ⟨up, k, hk, hLast, by omega⟩

theorem not_enclosedBy_self {target : ModuleId} (h : p.tree.EnclosedBy target target)
    {id : InstanceId} {i : Instance} (hi : s.instances.get? id = some i) : i.source ≠ target := by
  obtain ⟨m, outer, hDecl, hParent, hWithin⟩ := h
  -- A way up from the instance would lead to an older instance of the same module.
  induction hIndex : id.index using Nat.strongRecOn generalizing id i with
  | ind index ih =>
    intro hSource
    obtain ⟨n, hFormed⟩ := hSound.formed hi
    have hOwn := hFormed.decl
    rw [hSource] at hOwn
    cases hDecl.symm.trans hOwn
    have hLinked := hFormed.linked
    rw [hParent] at hLinked
    obtain ⟨found, j, -, hj, rfl, hOlder⟩ := hLinked.exists_found
    obtain ⟨up, k, hk, hAgain, hAbove⟩ := hSound.exists_of_within hj hWithin
    exact ih up.index (by omega) hk rfl hAgain

end Sound

theorem RunState.Appends.count_worklist {p : Program} {s t : RunState}
    {made : List (Instance × List Closure)} (h : Appends p s t made) (hSound : Sound p s)
    {entry : Instance × List Closure} (hEntry : entry ∈ made) :
    t.worklist.toList.count entry.1.id = 1 := by
  have hOld : entry.1.id ∉ s.worklist.toList := by
    intro hMem
    obtain ⟨i, hi⟩ := hSound.queued _ hMem
    have hBefore := Arena.lt_of_get? hi
    have hAfter := (h.index_of_mem hEntry).1
    omega
  have hNodup : (made.map fun entry => entry.1.id).Nodup := by
    apply List.Nodup.of_map Handle.index
    rw [List.map_map]
    change (made.map fun entry => entry.1.id.index).Nodup
    rw [h.ids]
    exact List.nodup_range'
  rw [h.worklist, List.count_append, List.count_eq_zero_of_not_mem hOld, Nat.zero_add]
  exact List.count_eq_one_of_mem hNodup (List.mem_map.mpr ⟨entry, hEntry, rfl⟩)

/-- What a failed request leaves behind: nothing old has changed, and what is new are complete
instances of modules around the one that was requested, each cached under its key and queued once.
A request for a module without a parent leaves all tables as they were. -/
theorem instantiate_error_appends {p : Program} {types : TypeStore} {calls : List Call}
    {target : ModuleId} {arguments : List Argument} {e : Failure InstantiationError}
    {s t : RunState} (hs : s = .after p calls (.start types))
    (hRun : Run.instantiate p target arguments s = .error e t) :
    ∃ made, Appends p s t made ∧
      (∀ key id, s.cache.find? key = some id → t.cache.find? key = some id) ∧
      (∀ site ids, s.closureTable.find? site = some ids →
        t.closureTable.find? site = some ids) ∧
      (∀ entry ∈ made, p.tree.EnclosedBy target entry.1.source ∧ entry.1.source ≠ target ∧
        t.worklist.toList.count entry.1.id = 1 ∧
        ∀ key, t.cache.find? key = some entry.1.id ↔ key = entry.1.key) ∧
      ∀ m, p.tree.readModule target = .ok m → m.parent = none →
        made = [] ∧ t = { s with types := t.types, stats := t.stats, log := t.log } := by
  have hSound : Sound p s := hs ▸ Sound.after_start p types calls
  have hOwned : s.Owned :=
    hs ▸ (Owned.start types).steps ((Sound.start p types).steps_after calls)
  obtain ⟨hDenied, -⟩ := (Run.instantiate_ensures p target arguments hSound).of_error hRun
  have hSoundT := hSound.steps hDenied.advances.steps
  obtain ⟨made, hMade⟩ := hDenied.advances.exists_appends
  have hNew : ∀ entry ∈ made, s.instances.get? entry.1.id = none ∧
      t.instances.get? entry.1.id = some entry.1 := by
    intro entry hEntry
    have hMem : entry.1 ∈ t.instances.toList := by
      rw [hMade.instances]
      exact List.mem_append_right _ (List.mem_map_of_mem hEntry)
    obtain ⟨id, hGet⟩ := Arena.exists_get?_of_mem_toList hMem
    obtain ⟨m, hFormed⟩ := hSoundT.formed hGet
    rw [← hFormed.id_eq] at hGet
    exact ⟨(Arena.get?_eq_none_iff _ _).mpr (hMade.index_of_mem hEntry).1, hGet⟩
  have hOuter : ∀ entry ∈ made, p.tree.EnclosedBy target entry.1.source := fun entry hEntry =>
    hDenied.outer (hNew entry hEntry).2 (hNew entry hEntry).1
  refine ⟨made, hMade, fun key id => ?_, fun site ids => ?_, fun entry hEntry => ?_,
    fun m hDecl hTop => ?_⟩
  · exact fun hFind => hDenied.advances.steps.grows.cache hFind
  · exact hMade.find?_closureTable hOwned
  · obtain ⟨hAbsent, hGet⟩ := hNew entry hEntry
    refine ⟨hOuter entry hEntry, fun hSame => ?_, ?_, fun key => ?_⟩
    · have hSelf := hOuter entry hEntry
      rw [hSame] at hSelf
      exact hSoundT.not_enclosedBy_self hSelf hGet hSame
    · exact hMade.count_worklist hSound hEntry
    · constructor
      · intro hFind
        obtain ⟨i, hi, hKey⟩ := hSoundT.filed hFind
        cases hGet.symm.trans hi
        exact hKey.symm
      · rintro rfl
        exact hSoundT.cached hGet
  · have hNone : made = [] := by
      rw [List.eq_nil_iff_forall_not_mem]
      intro entry hEntry
      obtain ⟨n, outer, hOther, hParent, -⟩ := hOuter entry hEntry
      cases hDecl.symm.trans hOther
      cases hTop.symm.trans hParent
    exact ⟨hNone, hMade.untouched hNone⟩

namespace Locks

/-! A case with a lock inside. The lock has a field of a type that nothing determines, so it cannot
be made, but the case around it can. -/

def symbols : SymbolTable :=
  ["Case", "open", "Lock", "key", "Side"].foldl (fun table name => (table.intern name).2) .empty

def types : TypeStore := (initial.add (.var .bound ⟨3⟩)).2

def case : ModuleDecl :=
  ⟨⟨0⟩, .origin, none, [], ⟨[], ⟨0⟩⟩,
    [⟨⟨1⟩, .origin, .value ⟨5⟩ ⟨0⟩⟩, ⟨⟨2⟩, .origin, .nested ⟨1⟩⟩]⟩

def lock : ModuleDecl :=
  ⟨⟨2⟩, .origin, some ⟨0⟩, [], ⟨[], ⟨0⟩⟩, [⟨⟨3⟩, .origin, .value ⟨13⟩ ⟨1⟩⟩]⟩

def side : ModuleDecl :=
  ⟨⟨4⟩, .origin, none, [], ⟨[], ⟨0⟩⟩, [⟨⟨1⟩, .origin, .value ⟨5⟩ ⟨0⟩⟩]⟩

def tree : ModuleTree :=
  ⟨⟨#[case, lock, side]⟩,
    ⟨#[⟨.lambda [] ⟨1⟩, .origin, ⟨5⟩⟩, ⟨.literal (.signed .w32 1), .origin, ⟨5⟩⟩]⟩⟩

def program : Program := ⟨tree, symbols, .silent⟩

def state : RunState := .after program [.instantiate ⟨2⟩ []] (.start types)

/-- The request for the lock fails and leaves the case. -/
theorem lock_error_appends : ∃ e t i c, Run.instantiate program ⟨1⟩ [] state = .error e t ∧
    Appends program state t [(i, [c])] ∧ i.source ≠ ⟨1⟩ ∧ t.worklist.toList.count i.id = 1 := by
  obtain ⟨e, t, hRun⟩ := Update.exists_of_not_succeeds
    (show (Run.instantiate program ⟨1⟩ []).succeeds state = false by decide +kernel)
  have hSizes : state.instances.size = 1 ∧ state.closures.size = 1 ∧
      ((Run.instantiate program ⟨1⟩ []).leave state).instances.size = 2 ∧
      ((Run.instantiate program ⟨1⟩ []).leave state).closures.size = 2 := by decide +kernel
  rw [Update.leave_of_error hRun] at hSizes
  obtain ⟨hBefore, hClosuresBefore, hAfter, hClosuresAfter⟩ := hSizes
  obtain ⟨made, hMade, -, -, hEach, -⟩ := instantiate_error_appends (s := state) rfl hRun
  have hLength : made.length = 1 := by
    have hSize := hMade.size_eq
    omega
  obtain ⟨⟨i, closures⟩, rfl⟩ := List.length_eq_one_iff.mp hLength
  have hClosures : closures.length = 1 := by
    have hList := congrArg List.length hMade.closures
    simp only [Arena.length_toList, List.length_append, List.flatMap_cons, List.flatMap_nil,
      List.append_nil] at hList
    omega
  obtain ⟨c, rfl⟩ := List.length_eq_one_iff.mp hClosures
  obtain ⟨-, hApart, hQueued, -⟩ := hEach _ List.mem_cons_self
  exact ⟨e, t, i, c, hRun, hMade, hApart, hQueued⟩

end Locks

end Specializer
