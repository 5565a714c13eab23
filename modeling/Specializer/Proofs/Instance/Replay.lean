import Specializer.Proofs.Instance.Legible
import Specializer.Proofs.Instance.Lockstep
import Specializer.Proofs.Instance.Names
import Specializer.Proofs.Instance.Request

/-!
# Requests made again

A request that is made again, in a run whose type store holds what the first run will have added,
is answered alike. Concrete types decide it: the same of them are refused, and the handles are the
same except for the types of modules. Names, fields and closures are made of these, the keys and so
the look-ups agree, and the rest of a request reads what the two states have in common.
-/

set_option autoImplicit false

namespace Specializer

open TypeStore Update RunState ModuleTree

abbrev RunState.Hosts (s : RunState) (site : Option InstanceId) : Prop :=
  ∀ id, site = some id → ∃ i, s.instances.get? id = some i

theorem RunState.Hosts.grow {s t : RunState} {site : Option InstanceId} (h : s.Hosts site)
    (hGrows : Grows s t) : t.Hosts site := by
  intro id hId
  obtain ⟨i, hi⟩ := h id hId
  obtain ⟨j, hj, -⟩ := hGrows.instances hi
  exact ⟨j, hj⟩

namespace Run

/-- What becomes of a type that the program mentions depends on the substitution alone. -/
theorem concretize_decided {p : Program} {base : TypeStore} {sub : Substitution} {s : RunState}
    {type : TypeId} {vars : List TypeId} (span : Span) {context : Read TypeContext}
    {place : TypeContext} (hContext : context = .ok place)
    (hVars : base.occurrencesWithin base.depth type = .ok vars) (hOver : s.Over p base)
    (hSub : sub.ClosedIn s.types) :
    (concretize p sub type span context).Ensures s
      (fun image t => Retyped p s t ∧ t.types.Image sub .strict type image ∧
        sub.firstUnmapped base vars = none)
      (fun e t => Retyped p s t ∧ ∃ var, e = .refused ⟨.type (.unmapped var) place, span⟩ ∧
        sub.firstUnmapped base vars = some var) := by
  unfold concretize
  refine Ensures.bindGet ?_
  have hApply := (Substitution.applyStrict_ensures p.symbols
    fun var type h => (hSub var type h).minted).and (Substitution.decidedBy_applyStrict hVars
      hOver.holds)
  refine Ensures.bind (Q := fun image t => (Retyped p s t ∧ t.types.Image sub .strict type image ∧
      sub.firstUnmapped base vars = none) ∧ t.types.Minted image)
    (Ensures.focus hApply ?_ ?_ ?_) ?_ fun _ _ h => h
  · rintro image types ⟨⟨hGrown, hStays, hMinted, hImage⟩, -, hNone⟩
    exact ⟨⟨⟨hGrown, hStays, rfl⟩, hImage, hNone⟩, hMinted⟩
  · rintro cause types ⟨⟨hGrown, hStays, -⟩, var, hCause, hSome⟩
    cases hCause
    rw [hContext]
    exact ⟨⟨hGrown, hStays, rfl⟩, var, rfl, hSome⟩
  · rintro reason types ⟨-, var, hCause, -⟩
    cases hCause
  · rintro image t ⟨⟨hRetyped, hImage, hNone⟩, hMinted⟩
    refine Ensures.bind (traceNewTypes_ensures p _ image t) ?_ ?_
    · rintro _ u ⟨hTraced, hSame⟩
      exact ⟨hRetyped.trans hTraced, by rwa [hSame], hNone⟩
    · rintro _ u ⟨rfl, hFail⟩
      exact absurd (hRetyped.sane hOver.sane) (hFail hMinted).1

end Run

namespace InStep

variable {p : Program} {base : TypeStore} {sub : Substitution}

theorem concretize (hGround : base.Grounded) {type : TypeId} (hMinted : base.Minted type)
    (span : Span) {context : Read TypeContext} {place : TypeContext}
    (hContext : context = .ok place) :
    Replays p base (fun s => sub.ClosedIn s.types) (Run.concretize p sub type span context)
      (fun a b => base.Steady type → a = b) := by
  obtain ⟨vars, hVars⟩ := hGround.exists_occurrences hMinted
  have hGrows : ∀ s, s.Over p base → sub.ClosedIn s.types →
      s.types.Extends ((Run.concretize p sub type span context).leave s).types ∧
        ((Run.concretize p sub type span context).leave s).Over p base := by
    intro s hOver hSub
    refine Ensures.leave (I := fun t => s.types.Extends t.types ∧ t.Over p base)
      ((Run.concretize_decided span hContext hVars hOver hSub).mono ?_ ?_)
    · rintro image t ⟨hRetyped, -⟩
      exact ⟨hRetyped.grown, hOver.retyped hRetyped⟩
    · rintro e t ⟨hRetyped, -⟩
      exact ⟨hRetyped.grown, hOver.retyped hRetyped⟩
  constructor
  · exact hGrows
  · intro s s' hOver hOver' hAlike hSub hAhead
    have hSub' := hSub.extend ((hGrows s hOver hSub).1.trans hAhead)
    have hFirst := Run.concretize_decided span hContext hVars hOver hSub
    have hSecond := Run.concretize_decided span hContext hVars hOver' hSub'
    cases hRun : Run.concretize p sub type span context s with
    | ok image t =>
      rw [leave_of_ok hRun] at hAhead
      obtain ⟨hRetyped, hImage, hNone⟩ := hFirst.of_ok hRun
      cases hRun' : Run.concretize p sub type span context s' with
      | ok image' t' =>
        obtain ⟨hRetyped', hImage', -⟩ := hSecond.of_ok hRun'
        have hOverT := hOver'.retyped hRetyped'
        refine ⟨fun hSteady => ?_, hAlike.retyped hRetyped hRetyped', hOverT, hRetyped'.grown⟩
        exact hGround.image_unique_of_steady hMinted hSteady hOverT.holds hOverT.canonical
          (hImage.extend (hAhead.trans hRetyped'.grown)) hImage'
      | error e t' =>
        obtain ⟨-, var, -, hSome⟩ := hSecond.of_error hRun'
        cases hNone.symm.trans hSome
    | error e t =>
      obtain ⟨-, var, rfl, hSome⟩ := hFirst.of_error hRun
      cases hRun' : Run.concretize p sub type span context s' with
      | ok image' t' =>
        obtain ⟨-, -, hNone⟩ := hSecond.of_ok hRun'
        cases hNone.symm.trans hSome
      | error e' t' =>
        obtain ⟨-, var', rfl, hSome'⟩ := hSecond.of_error hRun'
        cases hSome.symm.trans hSome'
        exact rfl

theorem concretizeSteady (hGround : base.Grounded) {type : TypeId} (hMinted : base.Minted type)
    (hSteady : base.Steady type) (span : Span) {context : Read TypeContext} {place : TypeContext}
    (hContext : context = .ok place) :
    Replays p base (fun s => sub.ClosedIn s.types) (Run.concretize p sub type span context) Eq :=
  (concretize hGround hMinted span hContext).weaken (fun _ h => h) fun _ _ h => h hSteady

section Create

variable (hLegible : p.Legible base) (hSteady : p.Steady base)
include hLegible hSteady

theorem newField (owner : String) {id : ModuleId} {m : ModuleDecl}
    (hDecl : p.tree.readModule id = .ok m) {source : FieldSource}
    (hSource : source ∈ m.fieldSources) :
    Replays p base (fun s => sub.ClosedIn s.types) (Run.newField p sub owner source) Eq := by
  obtain ⟨⟨text, hText⟩, hMinted⟩ := hLegible.fieldSource hDecl hSource
  refine bindReadOk hText (bindFree ?_ fun type => pure rfl)
  exact concretizeSteady hLegible.grounded hMinted (hSteady.fieldSource hDecl hSource) _ rfl

theorem newShell (symbol : String) {id : ExprId} {e : Expr} (hExpr : p.tree.readExpr id = .ok e)
    (hLambda : e.kind.isLambda = true) :
    Replays p base (fun s => sub.ClosedIn s.types) (Run.newShell p sub symbol id e) Eq := by
  obtain ⟨captures, hCaptures, hEach⟩ := hLegible.exists_captures hSteady hExpr
  refine bindKeep (concretizeSteady hLegible.grounded (hLegible.minted_type hExpr)
    (hSteady.lambda hExpr hLambda) _ rfl) (fun _ _ hSub hGrown => hSub.extend hGrown) fun type => ?_
  refine bindReadOk hCaptures (bindFree (mapM (fun c hc => ?_) ?_) fun made => pure rfl)
  · obtain ⟨⟨text, hText⟩, hMinted, hTypeSteady⟩ := hEach c hc
    have hContext : (do return .capture (← p.symbols.name c.name) symbol : Read TypeContext) =
        .ok (.capture text symbol) := by
      rw [hText]
      rfl
    exact bindFree (concretizeSteady hLegible.grounded hMinted hTypeSteady _ hContext)
      fun type => pure rfl
  · exact fun _ _ _ _ _ hSub _ hGrown => hSub.extend hGrown

theorem newShells (owner : String) {id : ModuleId} {m : ModuleDecl}
    (hDecl : p.tree.readModule id = .ok m) :
    Replays p base (fun s => sub.ClosedIn s.types) (Run.newShells p sub owner m) Eq := by
  unfold Run.newShells
  rw [foldlM_walk]
  refine bindFree (foldlM (fun visit hVisit shells => ?_) ?_ _) fun shells => pure rfl
  · obtain ⟨e, hRead, hExpr⟩ := hLegible.exists_moduleVisit hDecl hVisit
    refine bindReadOk hRead ?_
    split
    case isTrue hLambda =>
      exact bindFree (newShell hLegible hSteady _ hExpr hLambda) fun shell => pure rfl
    case isFalse => exact pure rfl
  · exact fun _ _ _ _ _ _ hSub _ hGrown => hSub.extend hGrown

omit hSteady in
theorem baseName {id : ModuleId} {m : ModuleDecl} (hDecl : p.tree.readModule id = .ok m)
    (parent : Option InstanceId) :
    Replays p base (fun s => s.Hosts parent) (Run.baseName p m parent) Eq := by
  obtain ⟨text, hText⟩ := hLegible.moduleName hDecl
  refine bindReadOk hText ?_
  cases parent with
  | none => exact pure rfl
  | some outer => exact bindInstance (fun s h => h outer rfl) fun i type => pure rfl

/-- The two instances may differ in the types of their modules and agree in the rest. -/
theorem create {key : Key} {m : ModuleDecl} (hDecl : p.tree.readModule key.source = .ok m)
    (arguments : List Argument) :
    Replays p base (fun s => key.substitution.ClosedIn s.types ∧
        s.Hosts key.parent ∧ ∀ type, .type type ∈ arguments → s.types.Minted type)
      (Run.create p key arguments) Eq := by
  refine bindReadOk hDecl ?_
  refine bind ((baseName hLegible hDecl key.parent).weaken (fun _ h => h.2.1) fun _ _ h => h)
    (V := fun _ s => key.substitution.ClosedIn s.types ∧
      ∀ type, .type type ∈ arguments → s.types.Minted type) ?_ fun text => ?_
  · rintro s text t ⟨hSub, -, hArguments⟩ - hGrown
    exact ⟨hSub.extend hGrown, fun type hType => (hArguments type hType).extend hGrown⟩
  refine bindGet fun s s' hOver _ _ hHeld ⟨hSub, hArguments⟩ => ?_
  obtain ⟨name, hName⟩ := Mangle.instanceName_succeeds hOver.sane.grounded text hArguments
  refine bindReads hName (Mangle.instanceName_mono hHeld hName) ?_
  refine InStep.weaken (U := fun t => key.substitution.ClosedIn t.types) ?_
    (fun _ hSame => hSame ▸ hSub) fun _ _ h => h
  have hKeep : ∀ s t : RunState, key.substitution.ClosedIn s.types → s.types.Extends t.types →
      key.substitution.ClosedIn t.types := fun _ _ hSub hGrown => hSub.extend hGrown
  refine bindAny ((concretize hLegible.grounded (hLegible.body hDecl) _ rfl).weaken (fun _ h => h)
    fun _ _ _ => trivial) (fun s _ t hSub _ hGrown => hKeep s t hSub hGrown) fun type type' => ?_
  refine bindKeep (mapM (fun source hSource => newField hLegible hSteady name hDecl hSource)
    fun _ _ s _ t hSub _ hGrown => hKeep s t hSub hGrown) hKeep fun fields => ?_
  refine bindKeep (log _ _) hKeep fun _ => ?_
  refine bindFree (newShells hLegible hSteady name hDecl) fun shells => ?_
  refine bindGet fun s s' _ _ hAlike _ _ => ?_
  have hNext : s'.instances.next = s.instances.next := congrArg Handle.mk hAlike.instances.size_eq
  rw [hNext, hAlike.closures_eq]
  refine InStep.weaken (U := fun _ => True) ?_ (fun _ _ => trivial) fun _ _ h => h
  refine bindFree (forM (fun c _ => log _ _) fun _ _ _ _ _ _ _ _ => trivial) fun _ => ?_
  refine bindFree (modify (fun _ => rfl) (fun _ => rfl) fun s s' _ hAlike => ?_) fun _ => pure rfl
  exact hAlike.enter ⟨type', rfl⟩ _

/-- Keys are the same in both runs, and so are the answers of the cache. -/
theorem obtain (name : String) (span : Span) (r : Request) (m : ModuleDecl)
    (actuals : List Argument) (key : Key) :
    Replays p base (fun s => Sound p s ∧ Resolves p s r m actuals key)
      (Run.obtain p name span key actuals) Eq := by
  refine pointwise fun s s' _ _ hAlike _ ⟨hSound, hResolves⟩ => ?_
  have hSize : s'.instances.size = s.instances.size := hAlike.instances.size_eq
  cases hFind : s.cache.find? key with
  | some id =>
    refine ⟨_, _, Run.obtain_of_hit name span actuals hFind, Run.obtain_of_hit name span actuals
      (hAlike.cache_eq ▸ hFind), ?_⟩
    refine bind (modify (fun _ => rfl) (fun _ => rfl) fun _ _ _ h =>
        h.counted fun stats => { stats with hits := stats.hits + 1 })
      (V := fun _ t => ∃ i, t.instances.get? id = some i) ?_ fun _ => ?_
    · rintro s _ t rfl hRun -
      cases hRun
      obtain ⟨i, hi, -⟩ := hSound.filed hFind
      exact ⟨i, hi⟩
    · exact bindInstance (fun _ h => h) fun i type => bindFree (log _ _) fun _ => pure rfl
  | none =>
    by_cases hFull : p.settings.limits.maxInstances ≤ s.instances.size
    · exact ⟨_, _, Run.obtain_of_full name span actuals hFind hFull,
        Run.obtain_of_full name span actuals (hAlike.cache_eq ▸ hFind) (hSize ▸ hFull), refuse _ _⟩
    · refine ⟨_, _, Run.obtain_of_miss name span actuals hFind hFull,
        Run.obtain_of_miss name span actuals (hAlike.cache_eq ▸ hFind) (hSize ▸ hFull), ?_⟩
      have hDecl : p.tree.readModule key.source = .ok m := by
        rw [hResolves.key_eq]
        exact hResolves.decl
      refine bind (modify (fun _ => rfl) (fun _ => rfl) fun _ _ _ h =>
          h.counted fun stats => { stats with misses := stats.misses + 1 }) ?_
        fun _ => bindFree (create hLegible hSteady hDecl actuals) fun id => ?_
      · rintro s _ t rfl hRun -
        cases hRun
        exact ⟨hResolves.closedIn hSound, fun outer => hResolves.parent.minted,
          fun type hType => (hResolves.closed hSound hType).minted⟩
      · refine bindFree (modify (fun _ => rfl) (fun _ => rfl) fun _ _ _ h => ?_) fun _ => pure rfl
        exact ⟨h.instances, h.closures_eq, by rw [h.cache_eq], h.closureTable_eq,
          by rw [h.worklist_eq], h.stats_eq⟩

end Create

section Request

theorem findInChain (start : Option InstanceId) (source : ModuleId) :
    Replays p base (fun s => Sound p s ∧ s.Hosts start) (Run.findInChain start source) Eq := by
  have hRun : ∀ {s : RunState} {found}, Run.findInChainWithin s.instances source
      (s.instances.size + 1) start = .ok found → Run.findInChain start source s = .ok found s := by
    intro s found hFound
    refine (bind_of_ok (t := s) rfl).trans ?_
    rw [hFound]
    rfl
  refine pointwise fun s s' _ _ hAlike _ ⟨hSound, hStart⟩ => ?_
  obtain ⟨found, hFound⟩ := hSound.exists_findInChain source hStart
  have hFound' := hAlike.instances.findInChainWithin_eq_ok hFound
  rw [← hAlike.instances.size_eq] at hFound'
  exact ⟨Pure.pure found, Pure.pure found, hRun hFound, hRun hFound', pure rfl⟩

theorem siteSubstitution (site : Option InstanceId) :
    Replays p base (fun s => s.Hosts site) (Run.siteSubstitution site) Eq := by
  cases site with
  | none => exact pure rfl
  | some id => exact bindInstance (fun s h => h id rfl) fun i type => pure rfl

variable (hLegible : p.Legible base) (hSteady : p.Steady base)
include hLegible

theorem newArgument (name : String) (span : Span) (entry : (TemplateParam × Argument) × Nat)
    (hGiven : ∀ type, entry.1.2 = .type type → base.Minted type ∧ base.Steady type) :
    Replays p base (fun s => sub.ClosedIn s.types) (Run.newArgument p name sub span entry) Eq := by
  obtain ⟨⟨param, argument⟩, index⟩ := entry
  unfold Run.newArgument
  dsimp only
  split
  case h_1 var type hKind =>
    obtain ⟨hMinted, hTypeSteady⟩ := hGiven type rfl
    exact bindFree (concretizeSteady hLegible.grounded hMinted hTypeSteady _ rfl) fun _ => pure rfl
  case h_2 => exact pure rfl
  case h_3 => exact refuse _ _

theorem enclosing {again : ModuleId → Span → Run InstanceId} {target : ModuleId} {m : ModuleDecl}
    (hDecl : p.tree.readModule target = .ok m) (hAgain : ∀ outer, m.parent = some outer → ∀ span,
      Replays p base (Sound p) (again outer span) Eq) (name : String)
    (site : Option InstanceId) (span : Span) :
    Replays p base (fun s => Sound p s ∧ s.Hosts site)
      (Run.enclosing p again m name site span) Eq := by
  unfold Run.enclosing
  cases hParent : m.parent with
  | none => exact pure rfl
  | some outer =>
    obtain ⟨n, hOuter⟩ := hLegible.exists_parent hDecl hParent
    obtain ⟨rank, hRanked⟩ := hLegible.exists_parentsRanked
    obtain ⟨answer, hAnswer, -⟩ := isMonomorphicChain_eq hRanked hOuter
    refine bind (findInChain site outer) (V := fun _ => Sound p) ?_ fun found => ?_
    · rintro s found t ⟨hSound, hSite⟩ hRun -
      obtain ⟨rfl, -⟩ := (Run.findInChain_ensures hSound outer hSite).of_ok hRun
      exact hSound
    · cases found with
      | some found => exact pure rfl
      | none =>
        refine bindReadOk hAnswer ?_
        cases answer with
        | true => exact bindReadOk hOuter (bindFree (hAgain outer hParent n.span) fun _ => pure rfl)
        | false => exact refuse _ _

theorem inherit {target : ModuleId} {m : ModuleDecl} (hDecl : p.tree.readModule target = .ok m)
    (own : Substitution) (parent : Option InstanceId) :
    Replays p base (fun s => s.Hosts parent) (Run.inherit p target own parent) Eq := by
  cases parent with
  | none => exact pure rfl
  | some outer =>
    obtain ⟨rank, hRanked⟩ := hLegible.exists_parentsRanked
    obtain ⟨vars, hVars⟩ := exists_ancestorVars hRanked hDecl
    exact bindInstance (fun s h => h outer rfl) fun i type => bindReadOk hVars (pure rfl)

include hSteady

theorem settle {again : ModuleId → Span → Run InstanceId} {r : Request} {m : ModuleDecl}
    (hDecl : p.tree.readModule r.target = .ok m)
    (hFits : List.Forall₂ TemplateParam.Fits m.params r.arguments)
    (hGranted : ∀ outer, m.parent = some outer → ∀ span s, Sound p s →
      (again outer span).Ensures s (Granted p ⟨none, outer, []⟩ s)
        (fun _ t => Denied p ⟨none, outer, []⟩ s t))
    (hAgain : ∀ outer, m.parent = some outer → ∀ span,
      Replays p base (Sound p) (again outer span) Eq)
    (siteSub : Substitution) (actuals : List Argument) (name : String) (span : Span) :
    Replays p base (fun s => (Sound p s ∧ s.Hosts r.site) ∧ SiteSub s.instances r.site siteSub ∧
        List.Forall₂ (Argument.Image s.types siteSub) r.arguments actuals)
      (do
        let parent ← Run.enclosing p again m name r.site span
        let substitution ← Run.inherit p r.target (m.pairing actuals) parent
        Run.obtain p name span (Key.of r.target parent substitution actuals) actuals) Eq := by
  refine bind ((enclosing hLegible hDecl hAgain name r.site span).weaken (fun _ h => h.1)
    fun _ _ h => h) (V := fun parent s => Sound p s ∧ SiteSub s.instances r.site siteSub ∧
      List.Forall₂ (Argument.Image s.types siteSub) r.arguments actuals ∧
      Encloses p s.instances r.site m.parent parent) ?_ fun parent => ?_
  · rintro s parent t ⟨⟨hSound, hSite⟩, hSiteSub, hImages⟩ hRun hGrown
    obtain ⟨hAdvances, -, hEncloses, -⟩ := (Run.enclosing_ensures (C := False) name span hSound
      hSite hDecl fun outer hOuter span => (hGranted outer hOuter span s hSound).mono
        (fun _ _ h => h) fun _ _ h => ⟨h, fun _ => False.elim, False.elim⟩).of_ok hRun
    exact ⟨hSound.steps hAdvances.steps, hSiteSub.keep hAdvances.steps.grows.instances,
      hImages.imp fun _ _ h => h.extend hGrown, hEncloses⟩
  refine bind ((inherit hLegible hDecl _ parent).weaken (fun _ h outer => h.2.2.2.minted)
    fun _ _ h => h) (V := fun sub s => Sound p s ∧
      Resolves p s r m actuals (.of r.target parent sub actuals)) ?_ fun sub => ?_
  · rintro s sub t ⟨hSound, hSiteSub, hImages, hEncloses⟩ hRun -
    obtain ⟨rfl, hInherits⟩ :=
      (Run.inherit_ensures hDecl _ fun outer => hEncloses.minted).of_ok hRun
    exact ⟨hSound, hDecl, hFits, ⟨siteSub, hSiteSub, hImages⟩, hEncloses, hInherits, rfl⟩
  · exact obtain hLegible hSteady name span r m actuals _

/-- Only the request for the enclosing instance recurs, one rank further down. -/
theorem requestWithin {rank : ModuleId → Nat} (hRanked : p.tree.ParentsRanked rank) {depth : Nat}
    {target : ModuleId} {m : ModuleDecl} (hDecl : p.tree.readModule target = .ok m)
    (hDepth : rank target < depth) {arguments : List Argument}
    (hGiven : ∀ type, .type type ∈ arguments → base.Minted type ∧ base.Steady type)
    (site : Option InstanceId) (span : Span) :
    Replays p base (fun s => Sound p s ∧ s.Hosts site)
      (Run.requestWithin p depth target arguments site span) Eq := by
  induction depth generalizing target m arguments site span with
  | zero => exact absurd hDepth (Nat.not_lt_zero _)
  | succ depth ih =>
    obtain ⟨name, hName⟩ := hLegible.moduleName hDecl
    unfold Run.requestWithin
    refine bindReadOk hDecl (bindReadOk hName ?_)
    split
    case isTrue hCount => exact bindRefuse _ _
    case isFalse hCount =>
      refine bind ((siteSubstitution site).weaken (fun _ h => h.2) fun _ _ h => h)
        (V := fun siteSub s => (Sound p s ∧ s.Hosts site) ∧ SiteSub s.instances site siteSub) ?_
        fun siteSub => ?_
      · rintro s siteSub t hU hRun -
        obtain ⟨rfl, hSiteSub⟩ := (Run.siteSubstitution_ensures hU.2).of_ok hRun
        exact ⟨hU, hSiteSub⟩
      refine bind ((mapM (fun entry hEntry => newArgument hLegible name span entry ?_)
        fun _ _ _ _ _ hSub _ hGrown => hSub.extend hGrown).weaken
          (fun _ h => h.2.closed h.1.1) fun _ _ h => h)
        (V := fun actuals s => (Sound p s ∧ s.Hosts site) ∧ SiteSub s.instances site siteSub ∧
          List.Forall₂ TemplateParam.Fits m.params arguments ∧
            List.Forall₂ (Argument.Image s.types siteSub) arguments actuals) ?_ fun actuals => ?_
      · intro type hType
        refine hGiven type ?_
        rw [← hType]
        exact (List.of_mem_zip (List.fst_mem_of_mem_zipIdx hEntry)).2
      · rintro s actuals t ⟨⟨hSound, hSite⟩, hSiteSub⟩ hRun -
        obtain ⟨hRetyped, hFits, hImages⟩ := (Run.newArguments_ensures name span
          (Decidable.of_not_not hCount) (hSiteSub.closed hSound)).of_ok hRun
        have hAdvance : Advance p s t := .retyped hRetyped
        exact ⟨⟨hSound.advance hAdvance, hSite.grow hAdvance.grows⟩,
          hSiteSub.keep hAdvance.grows.instances, hFits, hImages⟩
      cases hOwn : Run.ownSubstitution m name (actuals.filterMap Argument.type?) with
      | error refusal => exact bindRefuse _ _
      | ok own =>
        cases Run.ownSubstitution_eq_ok hOwn
        dsimp only
        rw [pure_bind]
        refine assuming (fun _ h => h.2.2.1) fun hFits => ?_
        refine (settle (r := ⟨site, target, arguments⟩) hLegible hSteady hDecl hFits ?_ ?_ siteSub
          actuals name span).weaken (fun _ h => ⟨h.1, h.2.1, h.2.2.2⟩) fun _ _ h => h
        · intro outer _ span s hSound
          exact (Run.requestWithin_ensures p depth ⟨none, outer, []⟩ span hSound
            (by rintro _ ⟨⟩)).mono (fun _ _ h => h) fun _ _ h => h.1
        · intro outer hOuter span
          obtain ⟨n, hOuterDecl⟩ := hLegible.exists_parent hDecl hOuter
          have hLower := hRanked.lower hDecl hOuter
          refine (ih hOuterDecl ?_ (fun _ h => absurd h List.not_mem_nil) none span).weaken
            (fun _ hSound => ⟨hSound, by rintro _ ⟨⟩⟩) fun _ _ h => h
          omega

theorem request {target : ModuleId} {m : ModuleDecl} (hDecl : p.tree.readModule target = .ok m)
    {arguments : List Argument}
    (hGiven : ∀ type, .type type ∈ arguments → base.Minted type ∧ base.Steady type)
    (site : Option InstanceId) (span : Span) :
    Replays p base (fun s => Sound p s ∧ s.Hosts site)
      (Run.request p target arguments site span) Eq := by
  obtain ⟨rank, hRanked⟩ := hLegible.exists_parentsRanked
  have hDepth : rank target < p.tree.modules.size + 1 := Nat.lt_succ_of_lt (hRanked.bounded hDecl)
  exact requestWithin hLegible hSteady hRanked hDecl hDepth hGiven site span

end Request

end InStep

end Specializer
