import Specializer.Proofs.Instance.Closures
import Specializer.Proofs.Instance.Pending

/-!
# What fields stand for

Processing an instance settles its value fields, each by the outermost form of its initializer.
What a field then stands for names instances, fields and closures; later steps take none of these
away, so it stays right. A lambda never goes without its closure, since an instance is made together
with its closures. In the end no field waits, and the fields of an instance are the value and type
bindings of its source in their order.
-/

set_option autoImplicit false

namespace Specializer

open TypeStore Update RunState ModuleTree

def BindingKind.isNested : BindingKind → Bool
  | .nested _ => true
  | _ => false

/-- The kind and type of a field and what it stands for, by the kind of its binding. -/
def Definition.Renders (p : Program) (s : RunState) (id : InstanceId) (sub : Substitution)
    (f : Definition) : BindingKind → Prop
  | .value type init => f.kind = .valueConstant ∧ s.types.Rewrites sub type f.type ∧
      ∃ e, p.tree.readExpr init = .ok e ∧ s.Stands p id init e.kind f.target
  | .type type => f.kind = .typeConstant ∧ s.types.Rewrites sub type f.type ∧
      f.target = .type f.type
  | .nested _ => False

/-- The field of an instance that a binding, given with its index, has become. -/
structure Definition.Shows (p : Program) (s : RunState) (id : InstanceId) (sub : Substitution)
    (entry : Binding × Nat) (f : Definition) : Prop where
  name : f.name = entry.1.name
  span : f.span = entry.1.span
  binding : f.binding = entry.2
  content : f.Renders p s id sub entry.1.kind

/-- The fields of all instances are the value and type bindings of their sources, in order, and
stand for what the bindings say. Other fields that they name are there and are values. -/
structure RunState.AllShown (p : Program) (s : RunState) : Prop where
  fields : ∀ ⦃id i⦄, s.instances.get? id = some i → ∃ m, p.tree.readModule i.source = .ok m ∧
    List.Forall₂ (Definition.Shows p s id i.substitution)
      (m.bindings.zipIdx.filter fun entry => !entry.1.kind.isNested) i.fields
  increasing : ∀ ⦃id i⦄, s.instances.get? id = some i →
    (i.fields.map Definition.binding).Pairwise (· < ·)
  definitions : ∀ ⦃id i f owner field⦄, s.instances.get? id = some i → f ∈ i.fields →
    f.target = .definition owner field → ∃ index, s.ValueField owner field index

/-- What holds of a field at any time: a type stands for itself, and a value waits or stands for
what its initializer says. -/
structure RunState.Meant (p : Program) (s : RunState) (id : InstanceId) (m : ModuleDecl)
    (f : Definition) : Prop where
  type : f.kind = .typeConstant → f.target = .type f.type
  value : f.kind = .valueConstant → f.target = .pending ∨ ∃ b type init e,
    m.bindings[f.binding]? = some b ∧ b.kind = .value type init ∧
    p.tree.readExpr init = .ok e ∧ s.Stands p id init e.kind f.target

def RunState.AllMeant (p : Program) (s : RunState) : Prop :=
  ∀ ⦃id i m⦄, s.instances.get? id = some i → p.tree.readModule i.source = .ok m →
    ∀ f ∈ i.fields, s.Meant p id m f

theorem Instance.exists_field_of_shell {i j : Instance} (h : j.shell = i.shell) {field : Nat}
    {f : Definition} (hf : i.fields[field]? = some f) :
    ∃ g, j.fields[field]? = some g ∧ g.binding = f.binding ∧ g.kind = f.kind := by
  have hSame : j.fields.map (fun f => { f with target := .pending }) =
      i.fields.map fun f => { f with target := .pending } := congrArg Instance.fields h
  have hGet := congrArg (·[field]?) hSame
  simp only [List.getElem?_map, hf, Option.map_some] at hGet
  obtain ⟨g, hg, hPending⟩ := Option.map_eq_some_iff.mp hGet
  simp only [Definition.mk.injEq] at hPending
  exact ⟨g, hg, hPending.2.1, hPending.2.2.1⟩

namespace RunState

variable {p : Program} {s t : RunState} {id : InstanceId} {init : ExprId} {kind : ExprKind}
  {target : Target}

theorem ValueField.grow {owner : InstanceId} {field index : Nat}
    (h : s.ValueField owner field index) (hGrows : Grows s t) : t.ValueField owner field index := by
  obtain ⟨i, f, hi, hf, hBinding, hKind⟩ := h
  obtain ⟨j, hj, hShell⟩ := hGrows.instances hi
  obtain ⟨g, hg, hBinding', hKind'⟩ := Instance.exists_field_of_shell hShell hf
  exact ⟨j, g, hj, hg, hBinding'.trans hBinding, hKind'.trans hKind⟩

theorem Step.get?_closures (h : Step p s t) {closure : ClosureId} {c : Closure}
    (hc : s.closures.get? closure = some c) : t.closures.get? closure = some c := by
  cases h with
  | take => exact hc
  | processed => exact hc
  | work hWork =>
    cases hWork with
    | resolve => exact hc
    | adopt => exact hc
    | advance hAdvance =>
      cases hAdvance with
      | retyped hRetyped => rwa [hRetyped.closures_eq]
      | hit => exact hc
      | miss => exact hc
      | enter => exact get?_closures_enroll _ _ hc

theorem Stands.step (h : s.Stands p id init kind target) (hStep : Step p s t) :
    t.Stands p id init kind target := by
  have hGrows := hStep.grows
  cases kind with
  | lambda params body =>
    obtain ⟨closure, c, hTarget, hc, hOf⟩ := h
    exact ⟨closure, c, hTarget, hStep.get?_closures hc, hOf⟩
  | field owner index =>
    obtain ⟨found, field, hTarget, hNear, hField⟩ := h
    exact ⟨found, field, hTarget, hNear.keep hGrows.instances, hField.grow hGrows⟩
  | site goal arguments name =>
    obtain ⟨found, field, m, index, hTarget, hAnswers, hDecl, hIndex, hField⟩ := h
    exact ⟨found, field, m, index, hTarget, hAnswers.grow hGrows, hDecl, hIndex, hField.grow hGrows⟩
  | templateValue owner index =>
    obtain ⟨found, i, value, hTarget, hNear, hi, hValue⟩ := h
    obtain ⟨j, hj, hShell⟩ := hGrows.instances hi
    rw [← Instance.arguments_eq_of_shell hShell] at hValue
    exact ⟨found, j, value, hTarget, hNear.keep hGrows.instances, hj, hValue⟩
  | _ => exact h

theorem Stands.exists_valueField {owner : InstanceId} {field : Nat}
    (h : s.Stands p id init kind (.definition owner field)) :
    ∃ index, s.ValueField owner field index := by
  cases kind with
  | field _ index =>
    obtain ⟨_, _, hTarget, -, hField⟩ := h
    cases hTarget
    exact ⟨index, hField⟩
  | site goal arguments name =>
    obtain ⟨_, _, _, index, hTarget, -, -, -, hField⟩ := h
    cases hTarget
    exact ⟨index, hField⟩
  | _ => simp [Stands] at h

theorem RegistersClosures.stands_lambda (h : RegistersClosures p s) {i : Instance} {m : ModuleDecl}
    (hi : s.instances.get? id = some i) (hDecl : p.tree.readModule i.source = .ok m)
    {b : Binding} {type : TypeId} (hBinding : b ∈ m.bindings) (hValue : b.kind = .value type init)
    {e : Expr} (hExpr : p.tree.readExpr init = .ok e)
    (hLambda : e.kind.isLambda = true) (hAims : s.Aims p id init e.kind target) :
    s.Stands p id init e.kind target := by
  obtain ⟨n, walks, records, hDecl', hWalks, hHeld, hRegisters, hSites⟩ := h.records hi
  cases hDecl.symm.trans hDecl'
  have hTarget := hAims.lambda hLambda
  -- The walk over the initializer begins at the lambda, so a closure was made of it.
  have hMet : (init, e) ∈ walks.flatten.filter fun occurrence => occurrence.2.kind.isLambda := by
    obtain ⟨walk, hWalk, hWalked⟩ := exists_mem_right_of_forall₂ hWalks hBinding
    cases hWalked with
    | value hKind hOrder =>
      cases hValue.symm.trans hKind
      cases hOrder with
      | node hRead =>
        cases hExpr.symm.trans hRead
        exact List.mem_filter.mpr ⟨List.mem_flatten.mpr ⟨_, hWalk, List.mem_cons_self⟩, hLambda⟩
    | type hKind => cases hValue.symm.trans hKind
    | nested hKind => cases hValue.symm.trans hKind
  obtain ⟨position, hPosition⟩ := List.mem_iff_getElem?.mp hMet
  have hNumbered : ((init, e), position) ∈
      (walks.flatten.filter fun occurrence => occurrence.2.kind.isLambda).zipIdx :=
    List.mem_zipIdx_iff_getElem?.mpr hPosition
  obtain ⟨c, hc, hOf⟩ := exists_mem_right_of_forall₂ hRegisters hNumbered
  have hFound : c ∈ records.filter fun c => decide (c.expr = init) :=
    List.mem_filter.mpr ⟨hc, decide_eq_true hOf.expr⟩
  rw [hSites init] at hTarget
  cases hAll : records.filter fun c => decide (c.expr = init) with
  | nil => simp [hAll] at hFound
  | cons first rest =>
    rw [hAll] at hTarget
    have hFirst : first ∈ records.filter fun c => decide (c.expr = init) := by simp [hAll]
    obtain ⟨hRecord, hFirstExpr⟩ := List.mem_filter.mp hFirst
    obtain ⟨_, -, hRegistered⟩ := exists_mem_left_of_forall₂ hRegisters hRecord
    obtain ⟨closure, -, hClosure⟩ := exists_mem_left_of_forall₂ hHeld hRecord
    cases hKind : e.kind with
    | lambda params body =>
      refine ⟨first.id, first, hTarget, ?_, hRegistered.owner, of_decide_eq_true hFirstExpr⟩
      rw [h.ids hClosure]
      exact hClosure
    | _ =>
      rw [hKind] at hLambda
      cases hLambda

theorem Meant.step {m : ModuleDecl} {f : Definition} (h : s.Meant p id m f) (hStep : Step p s t) :
    t.Meant p id m f where
  type := h.type
  value hKind := by
    rcases h.value hKind with hPending | ⟨b, type, init, e, hGet, hValue, hExpr, hStands⟩
    · exact .inl hPending
    · exact .inr ⟨b, type, init, e, hGet, hValue, hExpr, hStands.step hStep⟩

/-- What an initializer is taken to stand for is what it stands for. -/
theorem Settles.meant (hSound : Sound p s) (hRegisters : RegistersClosures p s) {field : Nat}
    (h : s.Settles p id field target) {i : Instance} {m : ModuleDecl} {f : Definition}
    (hi : s.instances.get? id = some i) (hDecl : p.tree.readModule i.source = .ok m)
    (hf : i.fields[field]? = some f) : s.Meant p id m { f with target } := by
  obtain ⟨j, n, b, index, type, init, e, hj, hDecl', hField, hGet, hKind, hExpr, hAims⟩ := h
  cases hi.symm.trans hj
  cases hDecl.symm.trans hDecl'
  obtain ⟨hBound, hHere, -⟩ := List.findIdx?_eq_some_iff_getElem.mp hField
  cases (List.getElem?_eq_getElem hBound).symm.trans hf
  have hBinding : i.fields[field].binding = index := of_decide_eq_true hHere
  obtain ⟨k, hFormed⟩ := hSound.formed hi
  cases hDecl.symm.trans hFormed.decl
  obtain ⟨source, hSource, hYields⟩ :=
    exists_mem_left_of_forall₂ hFormed.fields (List.getElem_mem hBound)
  have hIsValue : i.fields[field].kind = .valueConstant := by
    obtain ⟨b', hGet', hOf⟩ := ModuleDecl.mem_fieldSources.mp hSource
    rw [← hYields.binding, hBinding, hGet] at hGet'
    cases hGet'
    simp only [FieldSource.ofBinding?, hKind, Option.some.injEq] at hOf
    rw [hYields.kind, ← hOf]
  constructor
  case type =>
    intro hType
    cases hIsValue.symm.trans hType
  case value =>
    refine fun _ => .inr ⟨b, type, init, e, by rw [hBinding, hGet], hKind, hExpr, ?_⟩
    cases hLambda : e.kind.isLambda with
    | false => exact hAims.other hLambda
    | true =>
      exact hRegisters.stands_lambda hi hDecl (List.mem_of_getElem? hGet) hKind hExpr hLambda hAims

namespace AllMeant

theorem start (p : Program) (types : TypeStore) : AllMeant p (.start types) := by
  intro id i m hi
  cases (Run.get?_start types id).symm.trans hi

theorem of_step (h : AllMeant p s) (hStep : Step p s t)
    (hFields : ∀ ⦃id j m f⦄, t.instances.get? id = some j → p.tree.readModule j.source = .ok m →
      f ∈ j.fields → (∃ i, s.instances.get? id = some i ∧ i.source = j.source ∧ f ∈ i.fields) ∨
        t.Meant p id m f) : AllMeant p t := by
  intro id j m hj hDecl f hf
  rcases hFields hj hDecl hf with ⟨i, hi, hSource, hOld⟩ | hNew
  · rw [← hSource] at hDecl
    exact (h hi hDecl f hOld).step hStep
  · exact hNew

theorem step (h : AllMeant p s) (hSound : Sound p s) (hRegisters : RegistersClosures p s)
    (hStep : Step p s t) : AllMeant p t := by
  apply h.of_step hStep
  intro id j m f hj hDecl hf
  cases hStep with
  | take => exact .inl ⟨j, hj, rfl, hf⟩
  | processed => exact .inl ⟨j, hj, rfl, hf⟩
  | work hWork =>
    cases hWork with
    | @resolve other field target hSettles =>
      have hStep : Step p s _ := .work (.resolve s other field hSettles)
      rw [Arena.get?_modify] at hj
      split at hj
      case isFalse => exact .inl ⟨j, hj, rfl, hf⟩
      case isTrue hHere =>
        subst hHere
        obtain ⟨i, hi, rfl⟩ := Option.map_eq_some_iff.mp hj
        obtain ⟨position, hGet⟩ := List.mem_iff_getElem?.mp hf
        rw [List.getElem?_modify] at hGet
        obtain ⟨g, hg, rfl⟩ := Option.map_eq_some_iff.mp hGet
        by_cases hPosition : field = position
        · subst hPosition
          rw [if_pos rfl]
          exact .inr ((hSettles.meant hSound hRegisters hi hDecl hg).step hStep)
        · rw [if_neg hPosition]
          exact .inl ⟨i, hi, rfl, List.mem_of_getElem? hg⟩
    | adopt other made =>
      rw [Arena.get?_modify] at hj
      split at hj
      case isFalse => exact .inl ⟨j, hj, rfl, hf⟩
      case isTrue =>
        obtain ⟨i, hi, rfl⟩ := Option.map_eq_some_iff.mp hj
        exact .inl ⟨i, hi, rfl, hf⟩
    | advance hAdvance =>
      cases hAdvance with
      | hit => exact .inl ⟨j, hj, rfl, hf⟩
      | miss => exact .inl ⟨j, hj, rfl, hf⟩
      | retyped hRetyped =>
        rw [hRetyped.instances_eq] at hj
        exact .inl ⟨j, hj, rfl, hf⟩
      | enter hFresh =>
        rcases get?_enroll hFresh.id_eq hj with ⟨-, rfl⟩ | hOld
        · -- A new field is what it is at first.
          have hWaiting := hFresh.waiting f hf
          rw [Definition.unresolved] at hWaiting
          right
          constructor
          case type =>
            intro hKind
            rw [hWaiting, hKind]
          case value =>
            intro hKind
            left
            rw [hWaiting, hKind]
        · exact .inl ⟨j, hOld, rfl, hf⟩

theorem steps (h : AllMeant p s) (hSound : Sound p s) (hOwned : s.Owned)
    (hRegisters : RegistersClosures p s) (hSteps : Steps p s t) : AllMeant p t := by
  induction hSteps with
  | refl => exact h
  | tail hBefore hStep ih =>
    exact ih.step (hSound.steps hBefore) (hRegisters.steps hOwned hSound hBefore) hStep

theorem of_steps_start {types : TypeStore} (hSteps : Steps p (.start types) t) : AllMeant p t :=
  (start p types).steps (.start p types) (.start types) (.start p types) hSteps

end AllMeant

end RunState

theorem ModuleDecl.forall₂_fieldSources (m : ModuleDecl) :
    List.Forall₂ (fun entry source => FieldSource.ofBinding? entry.1 entry.2 = some source)
      (m.bindings.zipIdx.filter fun entry => !entry.1.kind.isNested) m.fieldSources := by
  rw [fieldSources]
  induction m.bindings.zipIdx with
  | nil => exact .nil
  | cons entry rest ih =>
    obtain ⟨⟨name, span, kind⟩, index⟩ := entry
    cases kind with
    | value type init => exact .cons rfl ih
    | type type => exact .cons rfl ih
    | nested nested => exact ih

namespace Formed

variable {p : Program} {s : RunState} {m : ModuleDecl} {id : InstanceId} {i : Instance}
  (h : Formed p s m id i)
include h

theorem shows (hMeant : ∀ f ∈ i.fields, s.Meant p id m f)
    (hSettled : ∀ f ∈ i.fields, f.target ≠ .pending) :
    List.Forall₂ (Definition.Shows p s id i.substitution)
      (m.bindings.zipIdx.filter fun entry => !entry.1.kind.isNested) i.fields := by
  have hEntries : List.Forall₂ (fun entry f => ∃ source,
      FieldSource.ofBinding? entry.1 entry.2 = some source ∧
        source.Yields s.types i.substitution f)
      (m.bindings.zipIdx.filter fun entry => !entry.1.kind.isNested) i.fields :=
    forall₂_join m.forall₂_fieldSources h.fields
      fun _ source _ hOf hYields => ⟨source, hOf, hYields⟩
  rw [List.forall₂_iff_zip] at hEntries ⊢
  refine ⟨hEntries.1, fun {entry f} hPair => ?_⟩
  obtain ⟨source, hOf, hYields⟩ := hEntries.2 hPair
  obtain ⟨hEntry, hf⟩ := List.of_mem_zip hPair
  obtain ⟨⟨name, span, kind⟩, index⟩ := entry
  have hGet : m.bindings[index]? = some ⟨name, span, kind⟩ :=
    List.mem_zipIdx_iff_getElem?.mp (List.mem_filter.mp hEntry).1
  cases kind with
  | nested nested => cases hOf
  | type type =>
    cases hOf
    exact ⟨hYields.name, hYields.span, hYields.binding, hYields.kind,
      hYields.type.rewrites h.closed, (hMeant f hf).type hYields.kind⟩
  | value type init =>
    cases hOf
    obtain ⟨b, type', init', e, hGet', hKind, hExpr, hStands⟩ :=
      ((hMeant f hf).value hYields.kind).resolve_left (hSettled f hf)
    rw [hYields.binding, hGet] at hGet'
    cases hGet'
    cases hKind
    exact ⟨hYields.name, hYields.span, hYields.binding, hYields.kind,
      hYields.type.rewrites h.closed, e, hExpr, hStands⟩

end Formed

/-- A run in which no `drain` has failed ends with every field shown. -/
theorem Run.finish_allShown {p : Program} {s t : RunState} {root : InstanceId} {out : Output}
    {types : TypeStore} (hSteps : Steps p (.start types) s) (hTracks : s.Tracks [])
    (hRun : Run.finish p root s = .ok out t) :
    t.AllShown p ∧ out.instances = t.instances ∧ out.closures = t.closures := by
  have hSound := (Sound.start p types).steps hSteps
  obtain ⟨hDrained, -, hReports⟩ := (Run.finish_ensures root hSound).of_ok hRun
  have hSoundT := hSound.steps hDrained.steps
  have hMeant : AllMeant p t := .of_steps_start (hSteps.trans hDrained.steps)
  have hWaits := (Run.finish_tracks root hSound ((OnlyValuesWait.start types).steps hSteps)
    hTracks).of_ok hRun
  have hSettled : ∀ ⦃id i⦄, t.instances.get? id = some i → ∀ f ∈ i.fields, f.target ≠ .pending := by
    intro id i hi f hf hPending
    rw [← hReports.instances] at hi
    exact List.not_mem_nil (hWaits id i hi f hf hPending)
  refine ⟨?_, hReports.instances, hReports.closures⟩
  constructor
  case fields =>
    intro id i hi
    obtain ⟨m, hFormed⟩ := hSoundT.formed hi
    exact ⟨m, hFormed.decl, hFormed.shows (hMeant hi hFormed.decl) (hSettled hi)⟩
  case increasing =>
    intro id i hi
    obtain ⟨m, hFormed⟩ := hSoundT.formed hi
    exact hFormed.increasing_bindings
  case definitions =>
    intro id i f owner field hi hf hTarget
    obtain ⟨m, hFormed⟩ := hSoundT.formed hi
    have hField := hMeant hi hFormed.decl f hf
    cases hKind : f.kind with
    | typeConstant => cases (hField.type hKind).symm.trans hTarget
    | valueConstant =>
      obtain ⟨_, _, _, _, -, -, -, hStands⟩ :=
        (hField.value hKind).resolve_left (hSettled hi f hf)
      rw [hTarget] at hStands
      exact hStands.exists_valueField

end Specializer
