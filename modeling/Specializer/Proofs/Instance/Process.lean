import Specializer.Proofs.Instance.Request

/-!
# What processing an instance does

The initializers and the nested modules of a source ask for instances. Processing an instance serves
exactly these demands: each of them is answered, and whatever is new answers one of them or lies
around such an answer. In a well-formed program processing can only be stopped by the limit.
-/

set_option autoImplicit false

namespace Specializer

open TypeStore Update RunState ModuleTree

def ModuleTree.SiteAt (t : ModuleTree) (init : ExprId) (target : ModuleId)
    (arguments : List Argument) : Prop :=
  ∃ e field, t.readExpr init = .ok e ∧ e.kind = .site target arguments field

def ModuleTree.Visit.Asks (visit : Visit) (target : ModuleId) (arguments : List Argument) : Prop :=
  ∃ e field, visit.expr = .ok e ∧ e.kind = .site target arguments field

/-- What a binding asks for: what the sites in its initializer name, at any depth, or a nested
module that has no parameters. -/
inductive Binding.Asks (p : Program) (b : Binding) : ModuleId → List Argument → Prop where
  | site {type : TypeId} {init position : ExprId} {e : Expr} {target : ModuleId}
      {arguments : List Argument} {field : SymbolId} (hKind : b.kind = .value type init)
      (hOccurs : p.tree.Occurs init position e) (hSite : e.kind = .site target arguments field) :
      Asks p b target arguments
  | nested {target : ModuleId} {n : ModuleDecl} (hKind : b.kind = .nested target)
      (hDecl : p.tree.readModule target = .ok n) (hParams : n.params = []) : Asks p b target []

section Asks

variable {p : Program} {b : Binding} {target : ModuleId} {arguments : List Argument}

theorem Binding.asks_iff_of_value {type : TypeId} {init : ExprId}
    (hKind : b.kind = .value type init) :
    b.Asks p target arguments ↔ ∃ position e field, p.tree.Occurs init position e ∧
      e.kind = .site target arguments field := by
  constructor
  · intro h
    cases h with
    | site hKind' hOccurs hSite =>
      cases hKind.symm.trans hKind'
      exact ⟨_, _, _, hOccurs, hSite⟩
    | nested hKind' => cases hKind.symm.trans hKind'
  · rintro ⟨position, e, field, hOccurs, hSite⟩
    exact .site hKind hOccurs hSite

theorem Binding.not_asks_of_type {type : TypeId} (hKind : b.kind = .type type) :
    ¬b.Asks p target arguments := by
  intro h
  cases h with
  | site hKind' => cases hKind.symm.trans hKind'
  | nested hKind' => cases hKind.symm.trans hKind'

theorem Binding.asks_iff_of_nested {nested : ModuleId} (hKind : b.kind = .nested nested) :
    b.Asks p target arguments ↔ ∃ n, p.tree.readModule nested = .ok n ∧ n.params = [] ∧
      target = nested ∧ arguments = [] := by
  constructor
  · intro h
    cases h with
    | site hKind' => cases hKind.symm.trans hKind'
    | nested hKind' hDecl hParams =>
      cases hKind.symm.trans hKind'
      exact ⟨_, hDecl, hParams, rfl, rfl⟩
  · rintro ⟨n, hDecl, hParams, rfl, rfl⟩
    exact .nested hKind hDecl hParams

end Asks

/-- What every instance of a module asks for. -/
def Asks (p : Program) (source target : ModuleId) (arguments : List Argument) : Prop :=
  ∃ m b, p.tree.readModule source = .ok m ∧ b ∈ m.bindings ∧ b.Asks p target arguments

/-- On the way from `s` to `t` some bindings of the instance `id` were handled and some demands of
it served, and nothing else was made. -/
structure Serves (p : Program) (id : InstanceId) (asks : ModuleId → List Argument → Prop)
    (done : List Nat) (s t : RunState) : Prop where
  fills : Fills p id done s t
  tallied : Tallied s t
  answered : ∀ ⦃target arguments⦄, asks target arguments →
    ∃ found, Answers p t ⟨some id, target, arguments⟩ found
  needed : ∀ ⦃new j⦄, t.instances.get? new = some j → s.instances.get? new = none →
    ∃ target arguments found, asks target arguments ∧
      Answers p t ⟨some id, target, arguments⟩ found ∧ Around t.instances found new

namespace Serves

variable {p : Program} {id : InstanceId} {asks asks' : ModuleId → List Argument → Prop}
  {done more : List Nat} {s t u : RunState}

theorem works (h : Serves p id asks done s t) : Works p s t := h.fills.works

theorem congr (h : Serves p id asks done s t)
    (hIff : ∀ target arguments, asks target arguments ↔ asks' target arguments) :
    Serves p id asks' done s t := by
  refine ⟨h.fills, h.tallied, fun target arguments hAsks => h.answered ((hIff _ _).mpr hAsks), ?_⟩
  intro new j hj hOld
  obtain ⟨target, arguments, found, hAsks, hFound⟩ := h.needed hj hOld
  exact ⟨target, arguments, found, (hIff _ _).mp hAsks, hFound⟩

theorem idle (hFills : Fills p id done s t) (hTallied : Tallied s t)
    (hSame : t.instances.Keeps s.instances)
    (hNone : ∀ target arguments, ¬asks target arguments) : Serves p id asks done s t := by
  refine ⟨hFills, hTallied, fun target arguments h => absurd h (hNone _ _),
    fun new j hj hOld => ?_⟩
  obtain ⟨i, hi, -⟩ := hSame hj
  cases hOld.symm.trans hi

theorem trans (h : Serves p id asks done s t) (h' : Serves p id asks' more t u) :
    Serves p id (fun target arguments => asks target arguments ∨ asks' target arguments)
      (done ++ more) s u := by
  have hGrows := h'.works.steps.grows
  refine ⟨h.fills.trans h'.fills, h.tallied.trans h'.tallied, fun target arguments hAsks => ?_,
    fun new j hj hOld => ?_⟩
  · rcases hAsks with hAsks | hAsks
    · obtain ⟨found, hFound⟩ := h.answered hAsks
      exact ⟨found, hFound.grow hGrows⟩
    · exact h'.answered hAsks
  · cases hMiddle : t.instances.get? new with
    | none =>
      obtain ⟨target, arguments, found, hAsks, hFound⟩ := h'.needed hj hMiddle
      exact ⟨target, arguments, found, .inr hAsks, hFound⟩
    | some i =>
      obtain ⟨target, arguments, found, hAsks, hFound, hAround⟩ := h.needed hMiddle hOld
      exact ⟨target, arguments, found, .inl hAsks, hFound.grow hGrows,
        hAround.keep hGrows.instances⟩

theorem of_granted {target : ModuleId} {arguments : List Argument} {found : InstanceId}
    (h : Granted p ⟨some id, target, arguments⟩ s found t)
    (hIff : ∀ target' arguments', asks target' arguments' ↔
      target' = target ∧ arguments' = arguments) : Serves p id asks [] s t := by
  refine ⟨h.advances.fills id, h.tallied, fun target' arguments' hAsks => ?_,
    fun new j hj hOld => ?_⟩
  · obtain ⟨rfl, rfl⟩ := (hIff _ _).mp hAsks
    exact ⟨found, h.answers⟩
  · exact ⟨target, arguments, found, (hIff _ _).mpr ⟨rfl, rfl⟩, h.answers, h.around hj hOld⟩

end Serves

theorem Sound.nearest_of_within {p : Program} {s : RunState} (hSound : Sound p s) {id : InstanceId}
    {i : Instance} (hi : s.instances.get? id = some i) {owner : ModuleId}
    (h : p.tree.Within i.source owner) :
    ∃ found, Nearest s.instances owner (some id) (some found) := by
  -- The way up the chain follows the way up the module tree.
  generalize hSource : i.source = source at h
  induction h generalizing id i with
  | self => exact ⟨id, .here hi hSource⟩
  | @outer source outer owner m hDecl hParent _ ih =>
    by_cases hHere : i.source = owner
    · exact ⟨id, .here hi hHere⟩
    · obtain ⟨n, hFormed⟩ := hSound.formed hi
      cases (hSource ▸ hDecl).symm.trans hFormed.decl
      have hLinked := hFormed.linked
      rw [hParent] at hLinked
      obtain ⟨up, j, hUp, hj, hOuter, -⟩ := hLinked.exists_found
      obtain ⟨found, hFound⟩ := ih hj hOuter
      refine ⟨found, .above hi hHere ?_⟩
      rwa [hUp]

theorem Sound.ready_site {p : Program} {s : RunState} {types : TypeStore} (hSound : Sound p s)
    (hSane : s.types.Sane p.symbols) (hTypes : p.WellFormed types) (hExt : types.Extends s.types)
    {id : InstanceId} {i : Instance} (hi : s.instances.get? id = some i) {target : ModuleId}
    {arguments : List Argument} (hSite : p.SiteFits types i.source target arguments) :
    Ready p s ⟨some id, target, arguments⟩ := by
  obtain ⟨m, hDecl, hFits, hPlace⟩ := hSite.fits
  refine ⟨⟨⟨types, hTypes, hExt⟩, hSane⟩, ⟨m, hDecl, hFits, fun outer hOuter => ?_⟩,
    i.substitution, .inside hi, fun type hType => ?_⟩
  · exact (hPlace outer hOuter).imp_left (hSound.nearest_of_within hi)
  · have hCovers := (hSite.visible type hType).covers hTypes.sane.grounded
      fun var hVar => hSound.isSome_get? hi hVar
    exact hCovers.extend hExt

theorem Orderly.ready_nested {p : Program} {s : RunState} (hOrderly : Orderly p s)
    {id : InstanceId} {i : Instance} (hi : s.instances.get? id = some i) {target : ModuleId}
    {n : ModuleDecl} (hDecl : p.tree.readModule target = .ok n) (hParams : n.params = [])
    (hParent : n.parent = some i.source) : Ready p s ⟨some id, target, []⟩ := by
  refine ⟨hOrderly, ⟨n, hDecl, ?_, fun outer hOuter => ?_⟩, i.substitution, .inside hi,
    fun _ h => nomatch h⟩
  · rw [hParams]
    exact .nil
  · cases hParent.symm.trans hOuter
    exact .inl ⟨id, .here hi rfl⟩

theorem FieldSource.binding_of_ofBinding? {b : Binding} {index : Nat} {source : FieldSource}
    (h : FieldSource.ofBinding? b index = some source) : source.binding = index := by
  unfold FieldSource.ofBinding? at h
  split at h
  · cases h
    rfl
  · cases h
    rfl
  · cases h

theorem ModuleDecl.mem_fieldSources {m : ModuleDecl} {source : FieldSource} :
    source ∈ m.fieldSources ↔ ∃ b, m.bindings[source.binding]? = some b ∧
      FieldSource.ofBinding? b source.binding = some source := by
  unfold fieldSources
  rw [List.mem_filterMap]
  constructor
  · rintro ⟨⟨b, index⟩, hMem, hOf⟩
    cases FieldSource.binding_of_ofBinding? hOf
    exact ⟨b, List.mem_zipIdx_iff_getElem?.mp hMem, hOf⟩
  · rintro ⟨b, hGet, hOf⟩
    exact ⟨(b, source.binding), List.mem_zipIdx_iff_getElem?.mpr hGet, hOf⟩

/-- A value binding has become a field, which is what its index leads to. -/
theorem Formed.exists_valueField {p : Program} {s : RunState} {m : ModuleDecl} {id : InstanceId}
    {i : Instance} (h : Formed p s m id i) {index : Nat} (hValue : m.ValueAt index) :
    ∃ field f, i.fieldForBinding? index = some field ∧ i.fields[field]? = some f ∧
      f.kind = .valueConstant := by
  obtain ⟨b, type, init, hGet, hKind⟩ := hValue
  have hSource : ⟨index, b.name, b.span, .valueConstant, type⟩ ∈ m.fieldSources := by
    refine ModuleDecl.mem_fieldSources.mpr ⟨b, hGet, ?_⟩
    simp [FieldSource.ofBinding?, hKind]
  obtain ⟨f, hf, hYields⟩ := exists_mem_right_of_forall₂ h.fields hSource
  have hSome : (i.fieldForBinding? index).isSome = true := by
    rw [Instance.fieldForBinding?, List.findIdx?_isSome, List.any_eq_true]
    exact ⟨f, hf, decide_eq_true hYields.binding⟩
  obtain ⟨field, hField⟩ := Option.isSome_iff_exists.mp hSome
  obtain ⟨hBound, hHere, -⟩ := List.findIdx?_eq_some_iff_getElem.mp hField
  refine ⟨field, i.fields[field], hField, List.getElem?_eq_getElem hBound, ?_⟩
  -- The field that is found first need not be `f`, but it comes from the same binding.
  obtain ⟨source, hMem, hYields'⟩ :=
    exists_mem_left_of_forall₂ h.fields (List.getElem_mem hBound)
  obtain ⟨b', hGet', hOf⟩ := ModuleDecl.mem_fieldSources.mp hMem
  have hIndex : source.binding = index := hYields'.binding.symm.trans (of_decide_eq_true hHere)
  rw [hIndex, hGet] at hGet'
  cases hGet'
  simp only [FieldSource.ofBinding?, hKind, Option.some.injEq] at hOf
  rw [hYields'.kind, ← hOf]

theorem Formed.valueAt {p : Program} {s : RunState} {m : ModuleDecl} {id : InstanceId}
    {i : Instance} (h : Formed p s m id i) {f : Definition} (hMem : f ∈ i.fields)
    (hKind : f.kind = .valueConstant) : m.ValueAt f.binding := by
  obtain ⟨source, hSource, hYields⟩ := exists_mem_left_of_forall₂ h.fields hMem
  obtain ⟨b, hGet, hOf⟩ := ModuleDecl.mem_fieldSources.mp hSource
  rw [← hYields.binding] at hGet
  rw [hYields.kind] at hKind
  unfold FieldSource.ofBinding? at hOf
  split at hOf
  case h_1 type init hValue => exact ⟨b, type, init, hGet, hValue⟩
  case h_2 =>
    rw [← Option.some.inj hOf] at hKind
    cases hKind
  case h_3 => cases hOf

theorem Instance.valueArgument?_eq_some_iff {i : Instance} {index : Nat} {value : Literal} :
    i.valueArgument? index = some value ↔ i.arguments[index]? = some (.value value) := by
  unfold Instance.valueArgument?
  split
  case h_1 other hGet => simp [hGet]
  case h_2 hNone =>
    constructor
    · exact fun h => nomatch h
    · exact fun h => (hNone value h).elim

theorem TemplateParam.Fits.exists_value {params : List TemplateParam} {arguments : List Argument}
    (h : List.Forall₂ TemplateParam.Fits params arguments) {index : Nat} {param : TemplateParam}
    {type : TypeId} (hParam : params[index]? = some param) (hKind : param.kind = .value type) :
    ∃ literal, arguments[index]? = some (.value literal) := by
  induction h generalizing index with
  | nil => simp at hParam
  | cons hFit _ ih =>
    cases index with
    | zero =>
      cases hParam
      cases hFit with
      | type hType => cases hKind.symm.trans hType
      | value => exact ⟨_, rfl⟩
    | succ index => exact ih hParam

/-- The sites of an initializer: the whole of it, and those that the walk below it comes to. -/
theorem ModuleTree.exists_site_iff {t : ModuleTree} {init : ExprId}
    (hThrough : ∀ visit ∈ (t.visits init).tail, ∃ e, visit.expr = .ok e) (target : ModuleId)
    (arguments : List Argument) :
    (∃ position e field, t.Occurs init position e ∧ e.kind = .site target arguments field) ↔
      t.SiteAt init target arguments ∨
        ∃ visit ∈ (t.visits init).tail, visit.Asks target arguments := by
  constructor
  · rintro ⟨position, e, field, hOccurs, hKind⟩
    obtain ⟨outer, hInit⟩ : ∃ outer, t.readExpr init = .ok outer := by
      cases hOccurs with
      | here hExpr => exact ⟨_, hExpr⟩
      | inside hExpr => exact ⟨_, hExpr⟩
    have hVisits : t.visits init = ⟨init, .ok outer⟩ :: (t.visits init).tail := by
      rw [visits, visitsWithin, hInit]
      rfl
    have hAll : ∀ visit ∈ t.visits init, ∃ e, visit.expr = .ok e := by
      rw [hVisits]
      exact List.forall_mem_cons.mpr ⟨⟨outer, rfl⟩, hThrough⟩
    have hMem := mem_visitsWithin_of_occurs hAll hOccurs
    rw [← visits, hVisits] at hMem
    rcases List.mem_cons.mp hMem with hHead | hTail
    · cases hHead
      exact .inl ⟨e, field, hInit, hKind⟩
    · exact .inr ⟨_, hTail, e, field, rfl, hKind⟩
  · rintro (⟨e, field, hInit, hKind⟩ | ⟨visit, hVisit, e, field, hExpr, hKind⟩)
    · exact ⟨init, e, field, .here hInit, hKind⟩
    · have hOccurs := occurs_of_mem_visitsWithin (List.mem_of_mem_tail hVisit) hExpr
      exact ⟨visit.id, e, field, hOccurs, hKind⟩

theorem Program.Legible.minted_site {p : Program} {types : TypeStore} (h : p.Legible types)
    {position : ExprId} {e : Expr} (hExpr : p.tree.readExpr position = .ok e) {target : ModuleId}
    {arguments : List Argument} {field : SymbolId} (hKind : e.kind = .site target arguments field)
    (site : Option InstanceId) : Request.Minted p types ⟨site, target, arguments⟩ := by
  have hMints := h.ofExpr hExpr
  rw [hKind] at hMints
  constructor
  · exact hMints.exists_module List.mem_cons_self
  · exact fun type hType => hMints.minted (List.mem_filterMap.mpr ⟨_, hType, rfl⟩)

/-- What is enough for the initializer of a binding of `source` to be resolved. -/
structure InitReady (p : Program) (s : RunState) (source : ModuleId) (b : Binding) (init : ExprId) :
    Prop where
  sane : s.types.Sane p.symbols
  name : p.HasText b.name
  fits : ∃ types, p.WellFormed types ∧ types.Extends s.types ∧ p.InitFits types source init

namespace InitReady

variable {p : Program} {s t : RunState} {source : ModuleId} {b : Binding} {init : ExprId}

theorem steps (h : InitReady p s source b init) (hSteps : Steps p s t) :
    InitReady p t source b init := by
  obtain ⟨types, hTypes, hExt, hFits⟩ := h.fits
  exact ⟨hSteps.sane h.sane, h.name, types, hTypes, hExt.trans hSteps.grows.types, hFits⟩

theorem namesValue (h : InitReady p s source b init) {e : Expr}
    (hExpr : p.tree.readExpr init = .ok e) : p.NamesValue source e.kind := by
  obtain ⟨types, -, -, hFits⟩ := h.fits
  obtain ⟨other, hOther, hNames⟩ := hFits.whole
  cases hExpr.symm.trans hOther
  exact hNames

theorem site {id : InstanceId} {i : Instance} (h : InitReady p s i.source b init)
    (hSound : Sound p s) (hi : s.instances.get? id = some i) {position : ExprId} {e : Expr}
    (hOccurs : p.tree.Occurs init position e) {target : ModuleId} {arguments : List Argument}
    {field : SymbolId} (hKind : e.kind = .site target arguments field) :
    Ready p s ⟨some id, target, arguments⟩ := by
  obtain ⟨types, hTypes, hExt, hFits⟩ := h.fits
  have hSite := hFits.inner hOccurs
  rw [Program.ExprFits, hKind] at hSite
  exact hSound.ready_site h.sane hTypes hExt hi hSite

end InitReady

namespace Run

variable {p : Program} {s : RunState}

theorem fieldAlias_ensures (hSound : Sound p s) {owner : InstanceId} {j : Instance}
    (hj : s.instances.get? owner = some j) (index : Nat) (referrer : Binding) (span : Span) :
    (fieldAlias p owner index referrer span).Ensures s
      (fun target t => t = s ∧ ∃ field, target = .definition owner field ∧
        s.ValueField owner field index)
      (fun e t => t = s ∧
        ¬(p.HasText referrer.name ∧ ∃ n, p.tree.readModule j.source = .ok n ∧ n.ValueAt index) ∧
        e.Explained p s.types (p.HasText referrer.name)) := by
  obtain ⟨m, hFormed⟩ := hSound.formed hj
  have hValue : (∃ n, p.tree.readModule j.source = .ok n ∧ n.ValueAt index) → m.ValueAt index := by
    rintro ⟨n, hDecl, hValue⟩
    cases hFormed.decl.symm.trans hDecl
    exact hValue
  unfold fieldAlias
  refine Ensures.bind (readInstance_of_get? hj) ?_ fun _ _ h => h
  rintro _ _ ⟨rfl, rfl⟩
  refine Ensures.bindRead (fun name _ => ?_) fun reason hReason => ⟨rfl, ?_, ?_⟩
  · split
    case h_1 field hField =>
      split
      case isTrue hKind =>
        obtain ⟨f, hf, hValueKind⟩ := Option.map_eq_some_iff.mp hKind
        obtain ⟨hBound, hHere, -⟩ := List.findIdx?_eq_some_iff_getElem.mp hField
        cases (List.getElem?_eq_getElem hBound).symm.trans hf
        exact ⟨rfl, field, rfl, j, _, hj, hf, of_decide_eq_true hHere, hValueKind⟩
      case isFalse hKind =>
        refine Ensures.refuse ⟨rfl, fun h => hKind ?_, .refused _⟩
        obtain ⟨field', f, hField', hf, hValueKind⟩ := hFormed.exists_valueField (hValue h.2)
        cases hField.symm.trans hField'
        rw [hf, Option.map_some, hValueKind]
    case h_2 hNone =>
      have hNot : ¬(p.HasText referrer.name ∧
          ∃ n, p.tree.readModule j.source = .ok n ∧ n.ValueAt index) := by
        intro h
        obtain ⟨field, _, hField, -⟩ := hFormed.exists_valueField (hValue h.2)
        cases hNone.symm.trans hField
      refine Ensures.bindReadOk hFormed.decl ?_
      split
      · exact Ensures.refuse ⟨rfl, hNot, .refused _⟩
      · exact Ensures.refuse ⟨rfl, hNot, .refused _⟩
  · rintro ⟨⟨text, hText⟩, -⟩
    cases hText.symm.trans hReason
  · exact .of_arena hReason fun _ h => h

theorem owningInstance_ensures (hSound : Sound p s) {id : InstanceId} {i : Instance}
    (hi : s.instances.get? id = some i) (owner : ModuleId) (span : Span) :
    (owningInstance p id owner span).Ensures s
      (fun found t => t = s ∧ Nearest s.instances owner (some id) (some found))
      (fun e t => t = s ∧ ¬p.tree.Within i.source owner ∧
        e.Explained p s.types (∃ m, p.tree.readModule owner = .ok m)) := by
  unfold owningInstance
  have hThere : ∀ other, some id = some other → ∃ i, s.instances.get? other = some i := by
    rintro _ ⟨⟩
    exact ⟨i, hi⟩
  refine Ensures.bind (findInChain_ensures hSound owner hThere) ?_ fun _ _ h => h.elim
  rintro found s ⟨rfl, hNear⟩
  cases found with
  | some found => exact ⟨rfl, hNear⟩
  | none =>
    have hNot : ¬p.tree.Within i.source owner := by
      intro hWithin
      obtain ⟨found, hFound⟩ := hSound.nearest_of_within hi hWithin
      cases hNear.unique hFound
    refine Ensures.bindRead (fun m hDecl => ?_)
      fun _ hReason => ⟨rfl, hNot, .of_arena hReason fun _ h => h⟩
    exact Ensures.bindRead (fun name _ => Ensures.refuse ⟨rfl, hNot, .refused _⟩)
      fun _ hReason => ⟨rfl, hNot, .of_arena hReason fun hLegible _ => hLegible.moduleName hDecl⟩

theorem requestIn_ensures (hSound : Sound p s) {id : InstanceId} {i : Instance}
    (hi : s.instances.get? id = some i) (target : ModuleId) (arguments : List Argument)
    (span : Span) :
    (request p target arguments (some id) span).Ensures s
      (Granted p ⟨some id, target, arguments⟩ s)
      (fun e t => Denied p ⟨some id, target, arguments⟩ s t ∧
        (Ready p s ⟨some id, target, arguments⟩ → LimitReached p e t) ∧
        e.Explained p s.types (Request.Minted p s.types ⟨some id, target, arguments⟩)) := by
  refine request_ensures p ⟨some id, target, arguments⟩ span hSound ?_
  rintro _ ⟨⟩
  exact ⟨i, hi⟩

theorem resolveField_ensures (hSound : Sound p s) {id : InstanceId} {i : Instance}
    (hi : s.instances.get? id = some i) (b : Binding) (init : ExprId) (owner : ModuleId)
    (index : Nat) (span : Span) :
    (do fieldAlias p (← owningInstance p id owner span) index b span : Run Target).Ensures s
      (fun target t => t = s ∧ s.Stands p id init (.field owner index) target)
      (fun e t => t = s ∧ ¬(p.HasText b.name ∧ p.NamesValue i.source (.field owner index)) ∧
        e.Explained p s.types
          ((∃ m, p.tree.readModule owner = .ok m) ∧ p.HasText b.name)) := by
  refine Ensures.bind (owningInstance_ensures hSound hi owner span) ?_ ?_
  · rintro found s ⟨rfl, hNear⟩
    obtain ⟨j, hj, hSource⟩ := hNear.exists_get
    refine (fieldAlias_ensures hSound hj index b span).mono ?_ ?_
    · rintro target s ⟨rfl, field, hTarget, hField⟩
      exact ⟨rfl, found, field, hTarget, hNear, hField⟩
    · rintro e s ⟨rfl, hNot, hExplained⟩
      refine ⟨rfl, ?_, hExplained.mono fun _ h => h.2⟩
      rintro ⟨hName, -, m, hDecl, hValue⟩
      exact hNot ⟨hName, m, hSource ▸ hDecl, hValue⟩
  · rintro e s ⟨rfl, hNot, hExplained⟩
    exact ⟨rfl, fun h => hNot h.2.1, hExplained.mono fun _ h => h.1⟩

theorem resolveValue_ensures (hSound : Sound p s) {id : InstanceId} {i : Instance}
    (hi : s.instances.get? id = some i) (init : ExprId) (owner : ModuleId) (index : Nat)
    (span : Span) :
    (do
      let name ← p.symbols.name (← p.tree.readModule owner).name
      let i ← readInstance (← owningInstance p id owner span)
      match i.valueArgument? index with
      | some value => return .literal value
      | none => refuse span (.argumentKind name index false) : Run Target).Ensures s
      (fun target t => t = s ∧ s.Stands p id init (.templateValue owner index) target)
      (fun e t => t = s ∧
        ¬((∀ m, p.tree.readModule owner = .ok m → p.HasText m.name) ∧
          p.NamesValue i.source (.templateValue owner index)) ∧
        e.Explained p s.types (∃ m, p.tree.readModule owner = .ok m)) := by
  refine Ensures.bindRead (fun m hDecl => ?_) fun reason hReason => ⟨rfl, ?_, ?_⟩
  · refine Ensures.bindRead (fun name _ => ?_) fun reason hReason => ⟨rfl, ?_, ?_⟩
    · refine Ensures.bind (owningInstance_ensures hSound hi owner span) ?_ ?_
      · rintro found s ⟨rfl, hNear⟩
        obtain ⟨j, hj, hSource⟩ := hNear.exists_get
        refine Ensures.bind (readInstance_of_get? hj) ?_ fun _ _ h => h
        rintro _ _ ⟨rfl, rfl⟩
        split
        case h_1 value hValue =>
          exact ⟨rfl, found, j, value, rfl, hNear, hj,
            Instance.valueArgument?_eq_some_iff.mp hValue⟩
        case h_2 hNone =>
          refine Ensures.refuse ⟨rfl, ?_, .refused _⟩
          rintro ⟨-, -, n, param, type, hOwner, hParam, hValue⟩
          obtain ⟨n', hFormed⟩ := hSound.formed hj
          cases (hSource ▸ hOwner).symm.trans hFormed.decl
          obtain ⟨literal, hLiteral⟩ := TemplateParam.Fits.exists_value hFormed.fits hParam hValue
          simp [Instance.valueArgument?, hLiteral] at hNone
      · rintro e s ⟨rfl, hNot, hExplained⟩
        exact ⟨rfl, fun h => hNot h.2.1, hExplained⟩
    · rintro ⟨hText, -⟩
      obtain ⟨text, hName⟩ := hText m hDecl
      cases hName.symm.trans hReason
    · exact .of_arena hReason fun hLegible _ => hLegible.moduleName hDecl
  · rintro ⟨-, -, n, _, _, hOwner, -⟩
    cases hOwner.symm.trans hReason
  · exact .of_arena hReason fun _ h => h

theorem resolveSite_ensures (hSound : Sound p s) {id : InstanceId} {i : Instance}
    (hi : s.instances.get? id = some i) (b : Binding) (init : ExprId) (target : ModuleId)
    (arguments : List Argument) (field : SymbolId) (span : Span) :
    (do
      let made ← request p target arguments (some id) span
      match (← p.tree.readModule target).bindingIndex? field with
      | some index => fieldAlias p made index b span
      | none =>
        refuse span (.noField (← readInstance made).name (← p.symbols.name field)) :
        Run Target).Ensures s
      (fun result t =>
        (∃ made, Granted p ⟨some id, target, arguments⟩ s made t) ∧
          t.Stands p id init (.site target arguments field) result)
      (fun e t => Advances p s t ∧
        (Ready p s ⟨some id, target, arguments⟩ → p.HasText b.name →
          p.NamesValue i.source (.site target arguments field) → LimitReached p e t) ∧
        e.Explained p s.types (Request.Minted p s.types ⟨some id, target, arguments⟩ ∧
          p.HasText b.name ∧ p.HasText field)) := by
  refine Ensures.bind (requestIn_ensures hSound hi target arguments span) ?_ ?_
  · intro made t hGranted
    have hAdvances := hGranted.advances
    obtain ⟨j, hj, hSource⟩ := hGranted.answers.source_eq
    refine Ensures.bindRead (fun m hDecl => ?_)
      fun reason hReason => ⟨hAdvances, fun _ _ hNames => ?_, ?_⟩
    · split
      case h_1 index hIndex =>
        refine (fieldAlias_ensures (hSound.steps hAdvances.steps) hj index b span).mono ?_ ?_
        · rintro result t ⟨rfl, position, hTarget, hField⟩
          exact ⟨⟨made, hGranted⟩, made, position, m, index, hTarget, hGranted.answers, hDecl,
            hIndex, hField⟩
        · rintro e t ⟨rfl, hNot, hExplained⟩
          refine ⟨hAdvances, fun _ hName hNames => absurd ⟨hName, m, hSource ▸ hDecl, ?_⟩ hNot,
            hAdvances.steps.explained hExplained fun _ h => h.2.1⟩
          obtain ⟨other, index', hOther, hIndex', hValue⟩ := hNames
          cases hDecl.symm.trans hOther
          cases hIndex.symm.trans hIndex'
          exact hValue
      case h_2 hNone =>
        have hNot : ¬p.NamesValue i.source (.site target arguments field) := by
          rintro ⟨other, index, hOther, hIndex, -⟩
          cases hDecl.symm.trans hOther
          cases hNone.symm.trans hIndex
        refine Ensures.bind (readInstance_of_get? hj) ?_ fun _ _ h => h
        rintro _ _ ⟨rfl, rfl⟩
        refine Ensures.bindRead (fun text _ => Ensures.refuse
          ⟨hAdvances, fun _ _ hNames => absurd hNames hNot, .refused _⟩) fun _ hReason => ?_
        exact ⟨hAdvances, fun _ _ hNames => absurd hNames hNot,
          .of_arena hReason fun _ h => h.2.2⟩
    · obtain ⟨m, -, hDecl, -⟩ := hNames
      cases hDecl.symm.trans hReason
    · exact .of_arena hReason fun _ h => h.1.1
  · rintro e t ⟨hDenied, hLimit, hExplained⟩
    exact ⟨hDenied.advances, fun hReady _ _ => hLimit hReady, hExplained.mono fun _ h => h.1⟩

/-- Resolving an initializer makes a request only if the whole initializer is a site. -/
theorem resolve_ensures (hSound : Sound p s) {id : InstanceId} {i : Instance}
    (hi : s.instances.get? id = some i) (b : Binding) (init : ExprId) :
    (resolve p id b init).Ensures s
      (fun target t => Serves p id (p.tree.SiteAt init) [] s t ∧
        ∃ e, p.tree.readExpr init = .ok e ∧ t.Aims p id init e.kind target)
      (fun e t => Fills p id [] s t ∧ (InitReady p s i.source b init → LimitReached p e t) ∧
        e.Explained p s.types (p.HasText b.name ∧ ∃ e, p.tree.readExpr init = .ok e)) := by
  unfold resolve
  refine Ensures.bindRead (fun e hExpr => ?_) fun reason hReason => ⟨.refl s, fun h => ?_, ?_⟩
  · have hIdle : (∀ target arguments field, e.kind ≠ .site target arguments field) →
        Serves p id (p.tree.SiteAt init) [] s s := by
      intro hNot
      refine .idle (.refl s) (.refl _) (.refl _) ?_
      rintro target arguments ⟨other, field, hOther, hKind⟩
      cases hExpr.symm.trans hOther
      exact hNot target arguments field hKind
    have hAims : ∀ {t : RunState} {target}, e.kind.isLambda = false →
        t.Stands p id init e.kind target →
        ∃ e, p.tree.readExpr init = .ok e ∧ t.Aims p id init e.kind target :=
      fun hNot hStands => ⟨e, hExpr, fun h => absurd h (by simp [hNot]), fun _ => hStands⟩
    split
    case h_1 value hKind =>
      exact ⟨hIdle (by simp [hKind]), hAims (by rw [hKind]; rfl) (by rw [hKind]; rfl)⟩
    case h_2 params body hKind =>
      refine Ensures.bindGet ?_
      have hLambda : e.kind.isLambda = true := by rw [hKind]; rfl
      split
      case h_1 closure rest hTable =>
        refine ⟨hIdle (by simp [hKind]), e, hExpr, fun _ => ?_,
          fun h => absurd hLambda (by simp [h])⟩
        rw [hTable]
      case h_2 hTable =>
        refine ⟨hIdle (by simp [hKind]), e, hExpr, fun _ => ?_,
          fun h => absurd hLambda (by simp [h])⟩
        rw [hTable]
    case h_3 owner index hKind =>
      refine (resolveField_ensures hSound hi b init owner index e.span).mono ?_ ?_
      · rintro target s ⟨rfl, hTarget⟩
        exact ⟨hIdle (by simp [hKind]), hAims (by rw [hKind]; rfl) (by rwa [hKind])⟩
      · rintro failure s ⟨rfl, hNot, hExplained⟩
        refine ⟨.refl s, fun h => absurd ⟨h.name, hKind ▸ h.namesValue hExpr⟩ hNot,
          hExplained.mono fun hLegible h => ⟨?_, h.1⟩⟩
        exact (hLegible.ofExpr hExpr).exists_module (by simp [hKind, ExprKind.handles])
    case h_4 target arguments field hKind =>
      refine (resolveSite_ensures hSound hi b init target arguments field e.span).mono ?_ ?_
      · rintro result t ⟨⟨made, hGranted⟩, hTarget⟩
        refine ⟨.of_granted hGranted fun target' arguments' => ?_,
          hAims (by rw [hKind]; rfl) (by rwa [hKind])⟩
        simp [ModuleTree.SiteAt, hExpr, hKind, eq_comm]
      · rintro failure t ⟨hAdvances, hLimit, hExplained⟩
        refine ⟨hAdvances.fills id, fun h => ?_, hExplained.mono fun hLegible h =>
          ⟨hLegible.minted_site hExpr hKind _, h.1, ?_⟩⟩
        · exact hLimit (h.site hSound hi (.here hExpr) hKind) h.name
            (hKind ▸ h.namesValue hExpr)
        · exact (hLegible.ofExpr hExpr).hasText (by simp [hKind, ExprKind.handles])
    case h_5 owner index hKind =>
      refine (resolveValue_ensures hSound hi init owner index e.span).mono ?_ ?_
      · rintro target s ⟨rfl, hTarget⟩
        exact ⟨hIdle (by simp [hKind]), hAims (by rw [hKind]; rfl) (by rwa [hKind])⟩
      · rintro failure s ⟨rfl, hNot, hExplained⟩
        refine ⟨.refl s, fun h => (hNot ⟨fun m hDecl => ?_, hKind ▸ h.namesValue hExpr⟩).elim,
          hExplained.mono fun hLegible _ => ?_⟩
        · obtain ⟨types, hTypes, -⟩ := h.fits
          exact (hTypes.modules hDecl).name
        · exact (hLegible.ofExpr hExpr).exists_module (by simp [hKind, ExprKind.handles])
    case h_6 hNotLiteral hNotLambda hNotField hNotSite hNotValue =>
      refine ⟨hIdle hNotSite, ?_⟩
      cases hKind : e.kind with
      | literal value => exact (hNotLiteral value hKind).elim
      | lambda params body => exact (hNotLambda params body hKind).elim
      | field owner index => exact (hNotField owner index hKind).elim
      | site target arguments field => exact (hNotSite target arguments field hKind).elim
      | templateValue owner index => exact (hNotValue owner index hKind).elim
      | _ => exact hAims (by rw [hKind]; rfl) (by rw [hKind]; rfl)
  · obtain ⟨types, -, -, hFits⟩ := h.fits
    obtain ⟨e, hExpr, -⟩ := hFits.whole
    cases hExpr.symm.trans hReason
  · exact .of_arena hReason fun _ h => h.2

theorem visitSite_ensures (hSound : Sound p s) {id : InstanceId} {i : Instance}
    (hi : s.instances.get? id = some i) (visit : Visit) :
    (visitSite p id visit).Ensures s
      (fun _ t => Serves p id visit.Asks [] s t ∧ ∃ e, visit.expr = .ok e)
      (fun e t => Fills p id [] s t ∧ ((∃ e, visit.expr = .ok e) →
        (∀ target arguments, visit.Asks target arguments → Ready p s ⟨some id, target, arguments⟩) →
        LimitReached p e t) ∧ ∀ init, visit ∈ p.tree.visits init →
          e.Explained p s.types (∃ e, p.tree.readExpr init = .ok e)) := by
  unfold visitSite
  refine Ensures.bindRead (fun e hExpr => ?_)
    fun reason hReason => ⟨.refl s, fun h => ?_, fun init hVisit => ?_⟩
  · split
    case h_1 target arguments field hKind =>
      refine Ensures.bind (requestIn_ensures hSound hi target arguments e.span) ?_ ?_
      · intro made t hGranted
        refine ⟨.of_granted hGranted fun target' arguments' => ?_, e, hExpr⟩
        simp [Visit.Asks, hExpr, hKind, eq_comm]
      · rintro failure t ⟨hDenied, hLimit, hExplained⟩
        refine ⟨hDenied.advances.fills id,
          fun _ h => hLimit (h target arguments ⟨e, field, hExpr, hKind⟩),
          fun init hVisit => hExplained.mono fun hLegible _ => ?_⟩
        exact hLegible.minted_site (occurs_of_mem_visitsWithin hVisit hExpr).read_eq hKind _
    case h_2 hNot =>
      refine ⟨.idle (.refl s) (.refl _) (.refl _) ?_, e, hExpr⟩
      rintro target arguments ⟨other, field, hOther, hKind⟩
      cases hExpr.symm.trans hOther
      exact hNot target arguments field hKind
  · obtain ⟨e, hExpr⟩ := h
    cases hExpr.symm.trans hReason
  · exact .of_read hReason fun hOrdered => (hOrdered.excused_visit hVisit).mono fun h => h.2

theorem visitSites_ensures (hSound : Sound p s) {id : InstanceId} {i : Instance}
    (hi : s.instances.get? id = some i) (visits : List Visit) :
    (visits.foldlM (fun _ visit => visitSite p id visit) ()).Ensures s
      (fun _ t => Serves p id
          (fun target arguments => ∃ visit ∈ visits, visit.Asks target arguments) [] s t ∧
        ∀ visit ∈ visits, ∃ e, visit.expr = .ok e)
      (fun e t => Fills p id [] s t ∧ ((∀ visit ∈ visits, ∃ e, visit.expr = .ok e) →
        (∀ visit ∈ visits, ∀ target arguments, visit.Asks target arguments →
          Ready p s ⟨some id, target, arguments⟩) → LimitReached p e t) ∧
        ∀ init, (∀ visit ∈ visits, visit ∈ p.tree.visits init) →
          e.Explained p s.types (∃ e, p.tree.readExpr init = .ok e)) := by
  refine Ensures.foldlM (I := fun (past : List Visit) _ t => Serves p id
    (fun target arguments => ∃ visit ∈ past, visit.Asks target arguments) [] s t ∧
      ∀ visit ∈ past, ∃ e, visit.expr = .ok e) ?_
    ⟨.idle (.refl s) (.refl _) (.refl _) (by simp), by simp⟩
  rintro past visit rest hVisits _ t ⟨hServes, hPast⟩
  have hMem : visit ∈ visits := by simp [hVisits]
  obtain ⟨j, hj, -⟩ := hServes.works.steps.grows.instances hi
  refine (visitSite_ensures (hSound.steps hServes.works.steps) hj visit).mono ?_ ?_
  · rintro _ u ⟨hServes', hExpr⟩
    refine ⟨(hServes.trans hServes').congr fun target arguments => ?_, ?_⟩
    · simp [or_and_right, exists_or]
    · simpa [or_imp, forall_and] using ⟨hPast, hExpr⟩
  · rintro e u ⟨hFills, hLimit, hExplained⟩
    refine ⟨hServes.fills.trans hFills, fun hThrough hReady => hLimit (hThrough visit hMem) ?_,
      fun init hAll => hServes.works.steps.explained (hExplained init (hAll visit hMem))
        fun _ h => h⟩
    exact fun target arguments hAsks =>
      (hReady visit hMem target arguments hAsks).steps hServes.works.steps

/-- Processing a value binding sets its field and serves every site in its initializer. -/
theorem processValue_ensures (hSound : Sound p s) {id : InstanceId} {i : Instance}
    (hi : s.instances.get? id = some i) {m : ModuleDecl}
    (hDecl : p.tree.readModule i.source = .ok m) {b : Binding} {index : Nat}
    (hGet : m.bindings[index]? = some b) {type : TypeId} {init : ExprId}
    (hKind : b.kind = .value type init) :
    (processValue p id b index init).Ensures s
      (fun _ t => Serves p id (fun target arguments => ∃ position e field,
        p.tree.Occurs init position e ∧ e.kind = .site target arguments field) [index] s t)
      (fun e t => FillsSome p id [index] s t ∧
        (InitReady p s i.source b init → LimitReached p e t) ∧
        e.Explained p s.types (p.HasText b.name ∧ ∃ e, p.tree.readExpr init = .ok e)) := by
  unfold processValue
  refine Ensures.bind (resolve_ensures hSound hi b init) ?_
    fun _ _ h => ⟨⟨[], List.nil_sublist _, h.1⟩, h.2⟩
  rintro target t ⟨hServes, e, hExpr, hAims⟩
  obtain ⟨j, hj, hShell⟩ := hServes.works.steps.grows.instances hi
  rw [← Instance.source_eq_of_shell hShell] at hDecl
  have hWalk : ∀ u, Fills p id [index] t u → Tallied t u → u.instances.Keeps t.instances →
      (p.tree.walkBelow (fun _ visit => visitSite p id visit) () init).Ensures u
        (fun _ v => Serves p id (fun target arguments => ∃ position e field,
          p.tree.Occurs init position e ∧ e.kind = .site target arguments field) [index] s v)
        (fun e v => FillsSome p id [index] s v ∧
          (InitReady p s i.source b init → LimitReached p e v) ∧
          e.Explained p s.types (p.HasText b.name ∧ ∃ e, p.tree.readExpr init = .ok e)) := by
    intro u hFills hTallied hSame
    have hReached : Fills p id [index] s u := hServes.fills.trans hFills
    have hSoundU := hSound.steps hReached.steps
    obtain ⟨k, hk, hShell⟩ := hReached.steps.grows.instances hi
    rw [p.tree.walkBelow_eq]
    refine (visitSites_ensures hSoundU hk _).mono ?_ ?_
    · rintro _ v ⟨hServes', hThrough⟩
      have hIdle : Serves p id (fun _ _ => False) [index] t u :=
        .idle hFills hTallied hSame fun _ _ h => h
      refine ((hServes.trans hIdle).trans hServes').congr fun target arguments => ?_
      rw [exists_site_iff hThrough, or_false]
    · rintro failure v ⟨hFills', hLimit, hExplained⟩
      refine ⟨⟨[index], .refl _, hReached.trans hFills'⟩, fun h => ?_,
        hReached.steps.explained (hExplained init fun _ => List.mem_of_mem_tail) fun _ h => h.2⟩
      have hReady := h.steps hReached.steps
      rw [← Instance.source_eq_of_shell hShell] at hReady
      obtain ⟨types, hTypes, -, hFits⟩ := h.fits
      refine hLimit (fun visit hVisit => ?_) fun visit hVisit target arguments hAsks => ?_
      · obtain ⟨e, hExpr, -⟩ := hTypes.exists_expr_of_visit hFits (List.mem_of_mem_tail hVisit)
        exact ⟨e, hExpr⟩
      · obtain ⟨e, field, hExpr, hKind⟩ := hAsks
        have hOccurs := occurs_of_mem_visitsWithin (List.mem_of_mem_tail hVisit) hExpr
        exact hReady.site hSoundU hk hOccurs hKind
  refine Ensures.bind (readInstance_of_get? hj) ?_ fun _ _ h => h
  rintro _ t ⟨rfl, rfl⟩
  dsimp only
  split
  case h_1 field hField =>
    have hSettles : t.Settles p id field target :=
      ⟨j, m, b, index, type, init, e, hj, hDecl, hField, hGet, hKind, hExpr, hAims⟩
    exact Ensures.bindModify (hWalk _ (.resolve (.refl t) hj hField hSettles)
      ⟨by simp, by simp⟩ (keeps_modify _ id (shell_resolve field target)).2)
  case h_2 hNone =>
    refine hWalk t (.pass (.refl t) fun k hk f hf hHere => ?_) (.refl t) (.refl _)
    cases hj.symm.trans hk
    have hAbsent := List.findIdx?_eq_none_iff.mp hNone f hf
    simp [hHere] at hAbsent

theorem processNested_ensures (hSound : Sound p s) {id : InstanceId} {i : Instance}
    (hi : s.instances.get? id = some i) (b : Binding) (nested : ModuleId) :
    (processNested p id b nested).Ensures s
      (fun _ t => Serves p id (fun target arguments => ∃ n, p.tree.readModule nested = .ok n ∧
        n.params = [] ∧ target = nested ∧ arguments = []) [] s t)
      (fun e t => Fills p id [] s t ∧ (Orderly p s →
        (∃ n, p.tree.readModule nested = .ok n ∧ n.parent = some i.source) →
          LimitReached p e t) ∧ e.Explained p s.types (∃ n, p.tree.readModule nested = .ok n)) := by
  unfold processNested
  refine Ensures.bindRead (fun n hDecl => ?_) fun reason hReason => ⟨.refl s, fun _ h => ?_, ?_⟩
  · split
    case isTrue hPlain =>
      have hParams : n.params = [] := by simpa [ModuleDecl.isGeneric] using hPlain
      refine Ensures.bind (requestIn_ensures hSound hi nested [] b.span) ?_ ?_
      · intro made t hGranted
        have hServes : Serves p id (fun target arguments => ∃ n, p.tree.readModule nested = .ok n ∧
            n.params = [] ∧ target = nested ∧ arguments = []) [] s t := by
          refine .of_granted hGranted fun target arguments => ?_
          simp [hDecl, hParams]
        have hAdopt : Serves p id (fun _ _ => False) [] t { t with
            instances := t.instances.modify id fun i =>
              { i with submodules := i.submodules ++ [made] } } :=
          .idle (.adopt (.refl t) made) ⟨by simp, by simp⟩
            (keeps_modify _ id (shell_adopt made)).2 fun _ _ h => h
        refine Ensures.modify ((hServes.trans hAdopt).congr fun _ _ => ?_)
        rw [or_false]
      · rintro e t ⟨hDenied, hLimit, hExplained⟩
        refine ⟨hDenied.advances.fills id, fun hOrderly h => hLimit ?_,
          hExplained.mono fun _ h => ⟨h, fun _ h => absurd h List.not_mem_nil⟩⟩
        obtain ⟨other, hOther, hParent⟩ := h
        cases hDecl.symm.trans hOther
        exact hOrderly.ready_nested hi hDecl hParams hParent
    case isFalse hGeneric =>
      refine .idle (.refl s) (.refl _) (.refl _) ?_
      rintro target arguments ⟨other, hOther, hParams, -⟩
      cases hDecl.symm.trans hOther
      simp [ModuleDecl.isGeneric, hParams] at hGeneric
  · obtain ⟨n, hDecl, -⟩ := h
    cases hDecl.symm.trans hReason
  · exact .of_arena hReason fun _ h => h

theorem pass_of_kind {t : RunState} (hSound : Sound p t) {id : InstanceId} {j : Instance}
    (hj : t.instances.get? id = some j) {m : ModuleDecl}
    (hDecl : p.tree.readModule j.source = .ok m) {b : Binding} {index : Nat}
    (hGet : m.bindings[index]? = some b) (hKind : ∀ type init, b.kind ≠ .value type init) :
    Fills p id [index] t t := by
  refine .pass (.refl t) fun k hk f hf hHere hValue => ?_
  cases hj.symm.trans hk
  obtain ⟨n, hFormed⟩ := hSound.formed hj
  cases hDecl.symm.trans hFormed.decl
  obtain ⟨c, type, init, hc, hOther⟩ := hFormed.valueAt hf hValue
  rw [hHere, hGet] at hc
  cases hc
  exact hKind type init hOther

theorem processBinding_ensures (hSound : Sound p s) {id : InstanceId} {i : Instance}
    (hi : s.instances.get? id = some i) {m : ModuleDecl}
    (hDecl : p.tree.readModule i.source = .ok m) {entry : Binding × Nat}
    (hEntry : entry ∈ m.bindings.zipIdx) :
    (processBinding p id entry).Ensures s
      (fun _ t => Serves p id (entry.1.Asks p) [entry.2] s t)
      (fun e t => FillsSome p id [entry.2] s t ∧ (s.types.Sane p.symbols →
        p.HasText entry.1.name → (∃ types, p.WellFormed types ∧ types.Extends s.types ∧
          p.BindingFits types i.source entry.1.kind) → LimitReached p e t) ∧
        e.Explained p s.types True) := by
  obtain ⟨b, index⟩ := entry
  have hMem : b ∈ m.bindings := List.fst_mem_of_mem_zipIdx hEntry
  have hGet := List.mem_zipIdx_iff_getElem?.mp hEntry
  unfold processBinding
  dsimp only
  split
  case h_1 type init hKind =>
    refine (processValue_ensures hSound hi hDecl hGet hKind).mono ?_ ?_
    · exact fun _ t h => h.congr fun target arguments => (Binding.asks_iff_of_value hKind).symm
    · rintro e t ⟨hSome, hLimit, hExplained⟩
      refine ⟨hSome, fun hSane hName h => hLimit ?_, hExplained.mono fun hLegible _ => ?_⟩
      · obtain ⟨types, hTypes, hExt, hFits⟩ := h
        rw [hKind] at hFits
        exact ⟨hSane, hName, types, hTypes, hExt, hFits.2⟩
      · exact ⟨hLegible.bindingName hDecl hMem,
          hLegible.exists_initializer hDecl hMem (by simp [hKind, BindingKind.handles])⟩
  case h_2 type hKind =>
    have hPass := pass_of_kind hSound hi hDecl hGet (by simp [hKind])
    exact .idle hPass (.refl _) (.refl _) fun target arguments => Binding.not_asks_of_type hKind
  case h_3 nested hKind =>
    refine (processNested_ensures hSound hi b nested).mono ?_ ?_
    · intro _ t h
      obtain ⟨j, hj, hShell⟩ := h.works.steps.grows.instances hi
      rw [← Instance.source_eq_of_shell hShell] at hDecl
      have hPass := pass_of_kind (hSound.steps h.works.steps) hj hDecl hGet (by simp [hKind])
      have hIdle : Serves p id (fun _ _ => False) [index] t t :=
        .idle hPass (.refl _) (.refl _) fun _ _ h => h
      refine (h.trans hIdle).congr fun target arguments => ?_
      rw [or_false, Binding.asks_iff_of_nested hKind]
    · rintro e t ⟨hFills, hLimit, hExplained⟩
      refine ⟨⟨[], List.nil_sublist _, hFills⟩, fun hSane _ h => ?_,
        hExplained.mono fun hLegible _ => hLegible.exists_nested hDecl hMem hKind⟩
      obtain ⟨types, hTypes, hExt, hFits⟩ := h
      rw [hKind] at hFits
      exact hLimit ⟨⟨types, hTypes, hExt⟩, hSane⟩ hFits

/-- Processing an instance handles its bindings in their order and serves exactly the demands of its
source. -/
theorem process_ensures (hSound : Sound p s) {id : InstanceId} {i : Instance}
    (hi : s.instances.get? id = some i) {m : ModuleDecl}
    (hDecl : p.tree.readModule i.source = .ok m) :
    (process p id).Ensures s
      (fun _ t => Serves p id (Asks p i.source) (List.range m.bindings.length) s t)
      (fun e t => FillsSome p id (List.range m.bindings.length) s t ∧
        (Orderly p s → LimitReached p e t) ∧ e.Explained p s.types True) := by
  have hIndices : m.bindings.zipIdx.map Prod.snd = List.range m.bindings.length := by
    rw [List.zipIdx_map_snd, List.range_eq_range']
  unfold process
  refine Ensures.bind (readInstance_ensures id s) ?_ ?_
  · rintro other s ⟨rfl, hOther⟩
    cases hi.symm.trans hOther
    refine Ensures.bindReadOk hDecl ((Ensures.forM (I := fun (done : List (Binding × Nat)) t =>
      Serves p id (fun target arguments => ∃ entry ∈ done, entry.1.Asks p target arguments)
        (done.map Prod.snd) s t) ?_ (.idle (.refl s) (.refl _) (.refl _) (by simp))).mono ?_
      fun _ _ h => h)
    · intro done entry rest hEntries t hServes
      obtain ⟨j, hj, hShell⟩ := hServes.works.steps.grows.instances hi
      have hSource := Instance.source_eq_of_shell hShell
      have hSteps := hServes.works.steps
      have hEntry : entry ∈ m.bindings.zipIdx :=
        hEntries ▸ List.mem_append_right _ List.mem_cons_self
      refine (processBinding_ensures (hSound.steps hSteps) hj (hSource ▸ hDecl) hEntry).mono ?_ ?_
      · intro _ u hServes'
        rw [List.map_append]
        refine (hServes.trans hServes').congr fun target arguments => ?_
        simp [or_and_right, exists_or]
      · rintro e u ⟨⟨last, hLast, hFills⟩, hLimit, hExplained⟩
        refine ⟨⟨_, ?_, hServes.fills.trans hFills⟩, fun h => ?_,
          hSteps.explained hExplained fun _ h => h⟩
        · rw [← hIndices, hEntries, List.map_append]
          exact (hLast.trans (List.sublist_append_left [entry.2] (rest.map Prod.snd))).append_left _
        · obtain ⟨types, hTypes, hExt⟩ := h.wellFormed
          have hMem : entry.1 ∈ m.bindings := List.fst_mem_of_mem_zipIdx hEntry
          obtain ⟨hName, hFits⟩ := (hTypes.modules hDecl).bindings entry.1 hMem
          rw [hSource] at hLimit
          exact hLimit (hSteps.sane h.sane) hName
            ⟨types, hTypes, hExt.trans hSteps.grows.types, hFits⟩
    · intro _ t h
      rw [hIndices] at h
      refine h.congr fun target arguments => ?_
      constructor
      · rintro ⟨entry, hEntry, hAsks⟩
        exact ⟨m, entry.1, hDecl, List.fst_mem_of_mem_zipIdx hEntry, hAsks⟩
      · rintro ⟨n, b, hDecl', hb, hAsks⟩
        cases hDecl.symm.trans hDecl'
        rw [← List.zipIdx_map_fst 0 m.bindings] at hb
        obtain ⟨entry, hEntry, rfl⟩ := List.mem_map.mp hb
        exact ⟨entry, hEntry, hAsks⟩
  · rintro _ s ⟨rfl, hNone⟩
    cases hNone.symm.trans hi

end Run

end Specializer
