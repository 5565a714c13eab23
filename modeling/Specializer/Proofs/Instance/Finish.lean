import Specializer.Proofs.Instance.Drain
import Specializer.Proofs.Types.Variables

/-!
# Results of a run

Handing over the result drains the work-list and, if that is wanted, looks for types with variables.
A `Place` is one type that is looked at. The warnings are one for each place with a variable, in the
order of the places: the fields of all instances first, then each closure followed by its captures.
-/

set_option autoImplicit false

namespace Specializer

open TypeStore Update RunState ModuleTree

/-- Where the result of a run holds a type that is looked at in the end. -/
inductive Place where
  | field (i : Instance) (f : Definition)
  | closure (c : Closure)
  | capture (c : Closure) (captured : Capture)

namespace Place

def type : Place → TypeId
  | .field _ f => f.type
  | .closure c => c.type
  | .capture _ captured => captured.type

def label (p : Program) : Place → Read String
  | .field i f => do
      let name ← p.symbols.name f.name
      return i.name ++ ": field '" ++ name ++ "' has "
  | .closure c => return c.symbol ++ ": "
  | .capture c captured => do
      let name ← p.symbols.name captured.name
      return c.symbol ++ ": capture '" ++ name ++ "' has "

def ofInstance (i : Instance) : List Place := i.fields.map (.field i)

def ofClosure (c : Closure) : List Place := .closure c :: c.captures.map (.capture c)

def leftover (p : Program) (types : TypeStore) (place : Place) : Read (Option String) :=
  Run.leftover p types (place.label p) place.type

def Warns (p : Program) (types : TypeStore) (place : Place) (text : String) : Prop :=
  ∃ label spelling, place.label p = .ok label ∧ types.spell p.symbols place.type = .ok spelling ∧
    text = label ++ "non-concrete type " ++ spelling

theorem leftover_eq_ok {p : Program} {types : TypeStore} {place : Place} {found : Option String}
    (h : place.leftover p types = .ok found) :
    (¬types.HasVariable place.type ∧ found = none) ∨
      types.HasVariable place.type ∧ ∃ text, place.Warns p types text ∧ found = some text := by
  obtain ⟨concrete, hConcrete, h⟩ := Read.bind_eq_ok_iff.mp h
  have hIff := isConcrete_eq_ok hConcrete
  split at h
  case isTrue hYes =>
    cases Read.pure_eq_ok_iff.mp h
    exact .inl ⟨hIff.mp hYes, rfl⟩
  case isFalse hNo =>
    obtain ⟨label, hLabel, h⟩ := Read.bind_eq_ok_iff.mp h
    obtain ⟨spelling, hSpelling, h⟩ := Read.bind_eq_ok_iff.mp h
    cases Read.pure_eq_ok_iff.mp h
    have hVariable := Classical.not_not.mp (mt hIff.mpr hNo)
    exact .inr ⟨hVariable, _, ⟨label, spelling, hLabel, hSpelling, rfl⟩, rfl⟩

theorem exists_leftover {p : Program} {types : TypeStore} {place : Place}
    (hSane : types.Sane p.symbols) (hMinted : types.Minted place.type)
    (hLabel : ∃ label, place.label p = .ok label) :
    ∃ found, place.leftover p types = .ok found := by
  refine Read.exists_bind_eq_ok (hSane.grounded.exists_isConcrete hMinted) fun concrete _ => ?_
  split
  · exact ⟨_, rfl⟩
  · refine Read.exists_bind_eq_ok hLabel fun label _ => ?_
    exact Read.exists_bind_eq_ok (hSane.exists_spell hMinted) fun _ _ => ⟨_, rfl⟩

end Place

def places (instances : Arena .instances Instance) (closures : Arena .closures Closure) :
    List Place :=
  instances.toList.flatMap Place.ofInstance ++ closures.toList.flatMap Place.ofClosure

theorem Run.leftover_mono {p : Program} {types types' : TypeStore} (hExt : types.Extends types')
    {label : Read String} {type : TypeId} {found : Option String}
    (h : Run.leftover p types label type = .ok found) :
    Run.leftover p types' label type = .ok found := by
  refine Read.bind_mono (fun _ => isConcrete_mono hExt) (fun concrete found h => ?_) h
  cases concrete with
  | true => exact h
  | false =>
    refine Read.bind_mono (fun _ h => h) (fun _ _ => ?_) h
    exact Read.bind_mono (fun _ => spell_mono hExt) fun _ _ h => h

theorem Run.fieldLeftovers_mono {p : Program} {types types' : TypeStore}
    (hExt : types.Extends types') {i : Instance} {warnings : List String}
    (h : Run.fieldLeftovers p types i = .ok warnings) :
    Run.fieldLeftovers p types' i = .ok warnings := by
  exact Read.bind_mono (fun _ => Read.mapM_mono fun _ _ => leftover_mono hExt) (fun _ _ h => h) h

theorem Run.closureLeftovers_mono {p : Program} {types types' : TypeStore}
    (hExt : types.Extends types') {c : Closure} {warnings : List String}
    (h : Run.closureLeftovers p types c = .ok warnings) :
    Run.closureLeftovers p types' c = .ok warnings := by
  refine Read.bind_mono (fun _ => leftover_mono hExt) (fun _ _ => ?_) h
  exact Read.bind_mono (fun _ => Read.mapM_mono fun _ _ => leftover_mono hExt) fun _ _ h => h

theorem forall₂_filterMap_flatMap {α β γ : Type} {R : β → Option γ → Prop} {f : α → List β}
    {items : List α} {answers : List (List γ)}
    (h : List.Forall₂ (fun a cs => ∃ found, List.Forall₂ R (f a) found ∧ cs = found.filterMap id)
      items answers) :
    ∃ found, List.Forall₂ R (items.flatMap f) found ∧ answers.flatten = found.filterMap id := by
  induction h with
  | nil => exact ⟨[], .nil, rfl⟩
  | cons hHead _ ih =>
    obtain ⟨first, hFirst, rfl⟩ := hHead
    obtain ⟨rest, hRest, hFlatten⟩ := ih
    refine ⟨first ++ rest, List.rel_append hFirst hRest, ?_⟩
    rw [List.flatten_cons, hFlatten, List.filterMap_append]

namespace Run

variable {p : Program}

theorem fieldLeftovers_eq_ok {types : TypeStore} {i : Instance} {warnings : List String}
    (h : fieldLeftovers p types i = .ok warnings) :
    ∃ found, List.Forall₂ (fun place answer => Place.leftover p types place = .ok answer)
      (Place.ofInstance i) found ∧ warnings = found.filterMap id := by
  obtain ⟨found, hFound, h⟩ := Read.bind_eq_ok_iff.mp h
  cases Read.pure_eq_ok_iff.mp h
  refine ⟨found, ?_, rfl⟩
  rw [Place.ofInstance, List.forall₂_map_left_iff]
  exact (Read.mapM_eq_ok_iff.mp hFound).imp fun f answer h => by
    simpa [Place.leftover, Place.label, Place.type] using h

theorem closureLeftovers_eq_ok {types : TypeStore} {c : Closure} {warnings : List String}
    (h : closureLeftovers p types c = .ok warnings) :
    ∃ found, List.Forall₂ (fun place answer => Place.leftover p types place = .ok answer)
      (Place.ofClosure c) found ∧ warnings = found.filterMap id := by
  obtain ⟨own, hOwn, h⟩ := Read.bind_eq_ok_iff.mp h
  obtain ⟨captured, hCaptured, h⟩ := Read.bind_eq_ok_iff.mp h
  cases Read.pure_eq_ok_iff.mp h
  refine ⟨own :: captured, .cons (by simpa [Place.leftover, Place.label, Place.type] using hOwn) ?_,
    rfl⟩
  rw [List.forall₂_map_left_iff]
  exact (Read.mapM_eq_ok_iff.mp hCaptured).imp fun f answer h => by
    simpa [Place.leftover, Place.label, Place.type] using h

theorem leftovers_eq_ok {s : RunState} {warnings : List String}
    (h : leftovers p s = .ok warnings) :
    ∃ found, List.Forall₂ (fun place answer => Place.leftover p s.types place = .ok answer)
      (places s.instances s.closures) found ∧ warnings = found.filterMap id := by
  obtain ⟨fields, hFields, h⟩ := Read.bind_eq_ok_iff.mp h
  obtain ⟨closures, hClosures, h⟩ := Read.bind_eq_ok_iff.mp h
  cases Read.pure_eq_ok_iff.mp h
  obtain ⟨first, hFirst, hFields'⟩ := forall₂_filterMap_flatMap
    ((Read.mapM_eq_ok_iff.mp hFields).imp fun _ _ => fieldLeftovers_eq_ok)
  obtain ⟨second, hSecond, hClosures'⟩ := forall₂_filterMap_flatMap
    ((Read.mapM_eq_ok_iff.mp hClosures).imp fun _ _ => closureLeftovers_eq_ok)
  refine ⟨first ++ second, List.rel_append hFirst hSecond, ?_⟩
  rw [hFields', hClosures', List.filterMap_append]

open Classical in
/-- The warnings, one by one, are about the places whose types have a variable. -/
theorem forall₂_warns {s : RunState} {warnings : List String} (h : leftovers p s = .ok warnings) :
    List.Forall₂ (Place.Warns p s.types)
      ((places s.instances s.closures).filter fun place => decide (s.types.HasVariable place.type))
        warnings := by
  obtain ⟨found, hFound, rfl⟩ := leftovers_eq_ok h
  -- The places are looked at one by one, whatever they are.
  clear h
  generalize places s.instances s.closures = all at hFound
  induction hFound with
  | nil => exact .nil
  | cons hPlace _ ih =>
    rcases Place.leftover_eq_ok hPlace with ⟨hConcrete, rfl⟩ | ⟨hVariable, text, hWarns, rfl⟩
    · rw [List.filter_cons_of_neg (by simpa using hConcrete)]
      exact ih
    · rw [List.filter_cons_of_pos (by simpa using hVariable)]
      exact .cons hWarns ih

theorem exists_leftovers {s : RunState}
    (h : ∀ place ∈ places s.instances s.closures, ∃ found, place.leftover p s.types = .ok found) :
    ∃ warnings, leftovers p s = .ok warnings := by
  refine Read.exists_bind_eq_ok (Read.exists_mapM_eq_ok fun i hi => ?_) fun _ _ =>
    Read.exists_bind_eq_ok (Read.exists_mapM_eq_ok fun c hc => ?_) fun _ _ => ⟨_, rfl⟩
  · have hPlaces : ∀ place ∈ Place.ofInstance i, ∃ found, place.leftover p s.types = .ok found :=
      fun place hPlace => h place (List.mem_append_left _ (List.mem_flatMap.mpr ⟨i, hi, hPlace⟩))
    refine Read.exists_bind_eq_ok (Read.exists_mapM_eq_ok fun f hf => ?_) fun _ _ => ⟨_, rfl⟩
    simpa [Place.leftover, Place.label, Place.type] using hPlaces (.field i f)
      (List.mem_map_of_mem hf)
  · have hPlaces : ∀ place ∈ Place.ofClosure c, ∃ found, place.leftover p s.types = .ok found :=
      fun place hPlace => h place (List.mem_append_right _ (List.mem_flatMap.mpr ⟨c, hc, hPlace⟩))
    refine Read.exists_bind_eq_ok ?_ fun _ _ =>
      Read.exists_bind_eq_ok (Read.exists_mapM_eq_ok fun captured hCaptured => ?_)
        fun _ _ => ⟨_, rfl⟩
    · simpa [Place.leftover, Place.label, Place.type] using hPlaces (.closure c) List.mem_cons_self
    · simpa [Place.leftover, Place.label, Place.type] using
        hPlaces (.capture c captured) (List.mem_cons_of_mem _ (List.mem_map_of_mem hCaptured))

end Run

theorem Arena.exists_get?_of_mem_toList {table : Table} {α : Type} {a : Arena table α} {x : α}
    (h : x ∈ a.toList) : ∃ id, a.get? id = some x := by
  obtain ⟨index, hIndex, rfl⟩ := List.mem_iff_getElem.mp h
  exact ⟨⟨index⟩, by simp [Arena.get?, Arena.toList]⟩

/-- A type that a state of a run holds somewhere. -/
inductive RunState.Holds (s : RunState) : TypeId → Prop where
  | replacement {id : InstanceId} {i : Instance} {var type : TypeId}
      (hi : s.instances.get? id = some i) (hType : i.substitution.get? var = some type) :
      Holds s type
  | argument {id : InstanceId} {i : Instance} {type : TypeId} (hi : s.instances.get? id = some i)
      (hType : .type type ∈ i.arguments) : Holds s type
  | moduleType {id : InstanceId} {i : Instance} (hi : s.instances.get? id = some i) :
      Holds s i.moduleType
  | field {id : InstanceId} {i : Instance} {f : Definition} (hi : s.instances.get? id = some i)
      (hf : f ∈ i.fields) : Holds s f.type
  | closure {id : ClosureId} {c : Closure} (hc : s.closures.get? id = some c) : Holds s c.type
  | capture {id : ClosureId} {c : Closure} {captured : Capture} (hc : s.closures.get? id = some c)
      (hCaptured : captured ∈ c.captures) : Holds s captured.type

/-- Every type in a state comes from a strict substitution. -/
theorem Sound.closed_of_holds {p : Program} {s : RunState} (hSound : Sound p s) {type : TypeId}
    (h : s.Holds type) : s.types.Closed type := by
  cases h with
  | replacement hi hType =>
    obtain ⟨m, hFormed⟩ := hSound.formed hi
    exact hFormed.closed _ _ hType
  | argument hi hType =>
    obtain ⟨m, hFormed⟩ := hSound.formed hi
    exact hFormed.arguments _ hType
  | moduleType hi =>
    obtain ⟨m, hFormed⟩ := hSound.formed hi
    exact hFormed.moduleType.closed hFormed.closed
  | field hi hf =>
    obtain ⟨m, hFormed⟩ := hSound.formed hi
    obtain ⟨source, -, hYields⟩ := exists_mem_left_of_forall₂ hFormed.fields hf
    exact hYields.type.closed hFormed.closed
  | closure hc =>
    obtain ⟨m, i, hMade⟩ := hSound.made hc
    obtain ⟨_, hFormed⟩ := hSound.formed hMade.owner
    obtain ⟨e, -, hImage⟩ := hMade.type
    exact hImage.closed hFormed.closed
  | capture hc hCaptured =>
    obtain ⟨m, i, hMade⟩ := hSound.made hc
    obtain ⟨_, hFormed⟩ := hSound.formed hMade.owner
    obtain ⟨captures, -, hYields⟩ := hMade.captures
    obtain ⟨source, -, hYields⟩ := exists_mem_left_of_forall₂ hYields hCaptured
    exact hYields.type.closed hFormed.closed

theorem RunState.holds_place {s : RunState} {place : Place}
    (h : place ∈ places s.instances s.closures) : s.Holds place.type := by
  rcases List.mem_append.mp h with h | h
  · obtain ⟨i, hi, h⟩ := List.mem_flatMap.mp h
    obtain ⟨f, hf, rfl⟩ := List.mem_map.mp h
    obtain ⟨id, hGet⟩ := Arena.exists_get?_of_mem_toList hi
    exact .field hGet hf
  · obtain ⟨c, hc, h⟩ := List.mem_flatMap.mp h
    obtain ⟨id, hGet⟩ := Arena.exists_get?_of_mem_toList hc
    rcases List.mem_cons.mp h with rfl | h
    · exact .closure hGet
    · obtain ⟨captured, hCaptured, rfl⟩ := List.mem_map.mp h
      exact .capture hGet hCaptured

theorem Sound.exists_label {p : Program} {s : RunState} (hSound : Sound p s)
    (hFields : ∀ ⦃id m⦄, p.tree.readModule id = .ok m → ∀ source ∈ m.fieldSources,
      p.HasText source.name)
    (hCaptures : ∀ ⦃id i m⦄, s.instances.get? id = some i → p.tree.readModule i.source = .ok m →
      ∀ lambda ∈ lambdas (p.tree.moduleVisits m), ∀ captures,
        Capture.ofLambda p.tree lambda.1 = .ok captures → ∀ c ∈ captures, p.HasText c.name)
    {place : Place} (h : place ∈ places s.instances s.closures) :
    ∃ label, place.label p = .ok label := by
  rcases List.mem_append.mp h with h | h
  · obtain ⟨i, hi, h⟩ := List.mem_flatMap.mp h
    obtain ⟨f, hf, rfl⟩ := List.mem_map.mp h
    obtain ⟨id, hGet⟩ := Arena.exists_get?_of_mem_toList hi
    obtain ⟨m, hFormed⟩ := hSound.formed hGet
    obtain ⟨source, hSource, hYields⟩ := exists_mem_left_of_forall₂ hFormed.fields hf
    have hName := hFields hFormed.decl source hSource
    rw [← hYields.name] at hName
    exact Read.exists_bind_eq_ok hName fun _ _ => ⟨_, rfl⟩
  · obtain ⟨c, hc, h⟩ := List.mem_flatMap.mp h
    rcases List.mem_cons.mp h with rfl | h
    · exact ⟨_, rfl⟩
    · obtain ⟨captured, hCaptured, rfl⟩ := List.mem_map.mp h
      obtain ⟨id, hGet⟩ := Arena.exists_get?_of_mem_toList hc
      obtain ⟨m, i, hMade⟩ := hSound.made hGet
      obtain ⟨e, hLambda, -⟩ := hMade.type
      obtain ⟨captures, hOf, hYields⟩ := hMade.captures
      obtain ⟨source, hSource, hYields⟩ := exists_mem_left_of_forall₂ hYields hCaptured
      have hName := hCaptures hMade.owner hMade.decl _ hLambda captures hOf source hSource
      rw [← hYields.name] at hName
      exact Read.exists_bind_eq_ok hName fun _ _ => ⟨_, rfl⟩

theorem Orderly.exists_label {p : Program} {s : RunState} (hOrderly : Orderly p s)
    (hSound : Sound p s) {place : Place} (h : place ∈ places s.instances s.closures) :
    ∃ label, place.label p = .ok label := by
  obtain ⟨types, hTypes, -⟩ := hOrderly.wellFormed
  refine hSound.exists_label (fun _ _ hDecl source hSource => (hTypes.fieldSource hDecl hSource).1)
    (fun id i m hi hDecl lambda hLambda captures hOf c hc => ?_) h
  have hBuild := hTypes.buildable hDecl fun var hVar => hSound.isSome_get? hi hVar
  obtain ⟨visit, hVisit, hIs⟩ := List.mem_filterMap.mp hLambda
  obtain ⟨e, hExpr, hReady⟩ := hBuild.visits visit hVisit
  simp only [hExpr, Option.ite_none_right_eq_some, Option.some.injEq] at hIs
  obtain ⟨hIsLambda, rfl⟩ := hIs
  obtain ⟨-, captures', hOf', hEach⟩ := hReady hIsLambda
  cases hOf.symm.trans hOf'
  exact (hEach c hc).1

theorem Orderly.exists_leftovers {p : Program} {s : RunState} (hOrderly : Orderly p s)
    (hSound : Sound p s) : ∃ warnings, Run.leftovers p s = .ok warnings :=
  Run.exists_leftovers fun _ hPlace => Place.exists_leftover hOrderly.sane
    (hSound.closed_of_holds (holds_place hPlace)).minted (hOrderly.exists_label hSound hPlace)

/-- What the result of a run says about its last state. -/
structure Output.Reports (p : Program) (t : RunState) (out : Output) : Prop where
  instances : out.instances = t.instances
  closures : out.closures = t.closures
  warnings : p.settings.limits.verifyConcrete = true → Run.leftovers p t = .ok out.warnings

theorem Drained.retyped {p : Program} {s t u : RunState} (h : Drained p s t)
    (hRetyped : Retyped p t u) : Drained p s u := by
  have hGrows : Grows t u := (Advance.retyped hRetyped).grows
  have hBack : u.instances.Keeps t.instances := by
    rw [hRetyped.instances_eq]
    exact .refl _
  exact ⟨h.steps.tail (.work (.advance (.retyped hRetyped))), h.tallied.trans hRetyped.tallied,
    by rw [hRetyped.worklist_eq, h.empty],
    fun hAttended => (h.attended hAttended).of_keeps hGrows hBack hRetyped.worklist_eq,
    fun root hNeeded => (h.needed root hNeeded).of_keeps hGrows hBack⟩

namespace Run

variable {p : Program} {s : RunState}

theorem leftovers_of_retyped {t : RunState} (h : Retyped p s t) (hTypes : t.types = s.types) :
    leftovers p t = leftovers p s := by
  rw [h.rest, hTypes]
  rfl

theorem report_ensures (root : InstanceId) (warnings : List String)
    {fail : Failure InstantiationError → RunState → Prop} :
    (report p root warnings).Ensures s
      (fun out t => Retyped p s t ∧ t.types = s.types ∧ out.root = root ∧
        out.instances = t.instances ∧ out.closures = t.closures ∧ out.warnings = warnings)
      fail := by
  unfold report
  dsimp only
  split
  case isTrue =>
    refine Ensures.bind (log_ensures p _ s) ?_ fun _ _ => False.elim
    rintro _ t ⟨hFirst, hTypes⟩
    refine Ensures.bindGet (Ensures.bind (log_ensures p _ t) ?_ fun _ _ => False.elim)
    rintro _ u ⟨hSecond, hTypes'⟩
    exact ⟨hFirst.trans hSecond, hTypes'.trans hTypes, rfl, hSecond.instances_eq.symm,
      hSecond.closures_eq.symm, rfl⟩
  case isFalse =>
    refine Ensures.bindGet (Ensures.bind (log_ensures p _ s) ?_ fun _ _ => False.elim)
    rintro _ t ⟨hLog, hTypes⟩
    exact ⟨hLog, hTypes, rfl, hLog.instances_eq.symm, hLog.closures_eq.symm, rfl⟩

/-- The result is that of a drained run, with the warnings about its last state. In a well-formed
program only the limit on instances stands in its way. -/
theorem finish_ensures (root : InstanceId) (hSound : Sound p s) :
    (finish p root).Ensures s (fun out t => Drained p s t ∧ out.root = root ∧ out.Reports p t)
      (fun e t => Steps p s t ∧ (Orderly p s → LimitReached p e t)) := by
  unfold finish
  refine Ensures.bind (drain_ensures hSound) ?_ fun _ _ h => ⟨h.1, h.2.1⟩
  intro _ t hDrained
  have hReport : ∀ warnings,
      (p.settings.limits.verifyConcrete = true → leftovers p t = .ok warnings) →
      (report p root warnings).Ensures t
        (fun out t => Drained p s t ∧ out.root = root ∧ out.Reports p t)
        (fun e t => Steps p s t ∧ (Orderly p s → LimitReached p e t)) := by
    intro warnings hWarnings
    refine (report_ensures root warnings).mono ?_ fun _ _ => False.elim
    rintro out u ⟨hRetyped, hTypes, hRoot, hInstances, hClosures, rfl⟩
    refine ⟨hDrained.retyped hRetyped, hRoot, hInstances, hClosures, fun hVerify => ?_⟩
    rw [leftovers_of_retyped hRetyped hTypes]
    exact hWarnings hVerify
  dsimp only
  split
  case isTrue =>
    refine Ensures.bindGet (Ensures.bindRead (fun warnings h => hReport warnings fun _ => h) ?_)
    refine fun reason hReason => ⟨hDrained.steps, fun hOrderly => ?_⟩
    obtain ⟨warnings, hWarnings⟩ :=
      (hOrderly.steps hDrained.steps).exists_leftovers (hSound.steps hDrained.steps)
    cases hWarnings.symm.trans hReason
  case isFalse hVerify => exact hReport [] fun h => absurd h hVerify

theorem get?_start (types : TypeStore) (id : InstanceId) :
    (RunState.start types).instances.get? id = none := by
  simp [RunState.start, Arena.empty, Arena.get?]

theorem complete_ensures (p : Program) (root : ModuleId) (types : TypeStore) :
    (complete p root).Ensures (.start types)
      (fun out t => Steps p (.start types) t ∧ out.Reports p t ∧
        Answers p t ⟨none, root, []⟩ out.root ∧ AllNeeded p t out.root ∧
        ∀ id i, t.instances.get? id = some i →
          ∀ target arguments, Asks p i.source target arguments →
            ∃ found, Answers p t ⟨some id, target, arguments⟩ found)
      (fun e t => Steps p (.start types) t ∧
        (Ready p (.start types) ⟨none, root, []⟩ → LimitReached p e t)) := by
  have hStart := Sound.start p types
  refine Ensures.bind (instantiate_ensures p root [] hStart) ?_ ?_
  · intro id t hGranted
    have hBegun : Steps p (.start types) t := hGranted.advances.steps
    have hAttended : Attended p t := fun new j hj =>
      .inl (hGranted.advances.works.queues.joined hj (get?_start types new))
    have hNeeded : AllNeeded p t id := fun new j hj =>
      Needed.root.around (hGranted.around hj (get?_start types new))
    refine (finish_ensures id (hStart.steps hBegun)).mono ?_ ?_
    · rintro out u ⟨hDrained, rfl, hReports⟩
      refine ⟨hBegun.trans hDrained.steps, hReports, hGranted.answers.grow hDrained.steps.grows,
        hDrained.needed _ hNeeded, fun i j hj => ?_⟩
      refine (hDrained.attended hAttended hj).resolve_left ?_
      rw [hDrained.empty]
      exact List.not_mem_nil
    · rintro e u ⟨hSteps, hLimit⟩
      exact ⟨hBegun.trans hSteps, fun hReady => hLimit (hReady.orderly.steps hBegun)⟩
  · rintro e t ⟨hDenied, hLimit, -⟩
    exact ⟨hDenied.advances.steps, hLimit⟩

end Run

end Specializer
