import Specializer.Proofs.Instance.Finish
import Specializer.Proofs.Instance.Replay
import Specializer.Proofs.Types.History
import Specializer.Workspace

/-!
# Running again

The types of a run stay in the store, so a second run of the same program starts from a larger store
than the first. It ends alike: with the same refusal, or with a result that differs from the first
at most in the types of modules.
-/

set_option autoImplicit false

namespace Specializer

open TypeStore Update RunState ModuleTree

def RunState.Home (p : Program) (id : InstanceId) (source : ModuleId) (s : RunState) : Prop :=
  Sound p s ∧ ∃ i, s.instances.get? id = some i ∧ i.source = source

namespace RunState.Home

variable {p : Program} {id : InstanceId} {source : ModuleId} {s t : RunState}

theorem works (h : Home p id source s) (hWorks : Works p s t) : Home p id source t := by
  obtain ⟨hSound, i, hi, rfl⟩ := h
  obtain ⟨j, hj, hShell⟩ := hWorks.steps.grows.instances hi
  exact ⟨hSound.steps hWorks.steps, j, hj, Instance.source_eq_of_shell hShell⟩

theorem reshape (h : Home p id source s) (other : InstanceId) {change : Instance → Instance}
    (hShell : ∀ i, (change i).shell = i.shell) :
    Home p id source { s with instances := s.instances.modify other change } := by
  obtain ⟨hSound, i, hi, rfl⟩ := h
  obtain ⟨j, hj, hSame⟩ := (keeps_modify s.instances other hShell).1 hi
  exact ⟨hSound.reshape other hShell, j, hj, Instance.source_eq_of_shell hSame⟩

theorem hosts (h : Home p id source s) : s.Hosts (some id) := by
  obtain ⟨-, i, hi, -⟩ := h
  rintro _ ⟨⟩
  exact ⟨i, hi⟩

end RunState.Home

/-- The results agree in everything but the types of modules. -/
structure Output.Alike (o o' : Output) : Prop where
  root_eq : o'.root = o.root
  instances : o.instances.Alike o'.instances
  closures_eq : o'.closures = o.closures
  cache_eq : o'.cache = o.cache
  closureTable_eq : o'.closureTable = o.closureTable
  stats_eq : o'.stats = o.stats
  warnings_eq : o'.warnings = o.warnings

/-- The warnings about alike states are the same, whatever else the second store holds. -/
theorem RunState.Alike.leftovers_eq_ok {p : Program} {s s' : RunState} (h : s.Alike s')
    (hExt : s.types.Extends s'.types) {warnings : List String}
    (hWarnings : Run.leftovers p s = .ok warnings) : Run.leftovers p s' = .ok warnings := by
  obtain ⟨fields, hFields, hRest⟩ := Read.bind_eq_ok_iff.mp hWarnings
  have hFields' : s'.instances.toList.mapM (Run.fieldLeftovers p s'.types) = .ok fields := by
    apply Read.mapM_eq_ok_iff.mpr
    apply forall₂_join h.instances.flip (Read.mapM_eq_ok_iff.mp hFields)
    rintro _ i found ⟨type, rfl⟩ hFound
    exact Run.fieldLeftovers_mono hExt hFound
  refine Read.bind_eq_ok_iff.mpr ⟨fields, hFields', ?_⟩
  rw [h.closures_eq]
  refine Read.bind_mono (fun _ => Read.mapM_mono fun c found => ?_) (fun _ _ h => h) hRest
  exact Run.closureLeftovers_mono hExt

theorem Program.Legible.exists_leftovers {p : Program} {types : TypeStore} (h : p.Legible types)
    (hSteady : p.Steady types) {s : RunState} (hSound : Sound p s)
    (hSane : s.types.Sane p.symbols) : ∃ warnings, Run.leftovers p s = .ok warnings := by
  refine Run.exists_leftovers fun place hPlace => Place.exists_leftover hSane
    (hSound.closed_of_holds (holds_place hPlace)).minted (hSound.exists_label ?_ ?_ hPlace)
  · exact fun id m hDecl source hSource => (h.fieldSource hDecl hSource).1
  · intro id i m hi hDecl lambda hLambda captures hOf c hc
    obtain ⟨visit, hVisit, hIs⟩ := List.mem_filterMap.mp hLambda
    obtain ⟨e, hRead, hExpr⟩ := h.exists_moduleVisit hDecl hVisit
    simp only [hRead, Option.ite_none_right_eq_some, Option.some.injEq] at hIs
    obtain ⟨-, rfl⟩ := hIs
    obtain ⟨captures', hOf', hEach⟩ := h.exists_captures hSteady hExpr
    cases hOf.symm.trans hOf'
    exact (hEach c hc).1

namespace InStep

variable {p : Program} {base : TypeStore}

section Process

variable (hLegible : p.Legible base) (hSteady : p.Steady base)
include hLegible

omit hLegible in
theorem fieldAlias (owner : InstanceId) (index : Nat) {referrer : Binding}
    (hName : p.HasText referrer.name) (span : Span) :
    Replays p base (fun s => Sound p s ∧ ∃ j, s.instances.get? owner = some j)
      (Run.fieldAlias p owner index referrer span) Eq := by
  obtain ⟨text, hText⟩ := hName
  refine bindInstance (fun _ h => h.2) fun j type => bindReadOk hText ?_
  rw [j.fieldForBinding?_retyped type]
  cases j.fieldForBinding? index with
  | some field =>
    dsimp only
    split
    · exact pure rfl
    · exact refuse _ _
  | none =>
    refine bindRead ?_ fun m _ => ?_
    · rintro s ⟨⟨hSound, -⟩, hj⟩
      obtain ⟨m, hFormed⟩ := hSound.formed hj
      exact ⟨m, hFormed.decl⟩
    · split
      · exact refuse _ _
      · exact refuse _ _

theorem owningInstance (id : InstanceId) {owner : ModuleId}
    (hOwner : ∃ m, p.tree.readModule owner = .ok m) (span : Span) :
    Replays p base (fun s => Sound p s ∧ s.Hosts (some id))
      (Run.owningInstance p id owner span) Eq := by
  obtain ⟨m, hDecl⟩ := hOwner
  obtain ⟨text, hText⟩ := hLegible.moduleName hDecl
  refine bindFree (findInChain (some id) owner) fun found => ?_
  cases found with
  | some found => exact pure rfl
  | none => exact bindReadOk hDecl (bindReadOk hText (refuse _ _))

omit hLegible in
theorem exists_owner {s t : RunState} {id found : InstanceId} {source owner : ModuleId}
    {span : Span} (h : Home p id source s)
    (hRun : Run.owningInstance p id owner span s = .ok found t) :
    Sound p t ∧ ∃ j, t.instances.get? found = some j := by
  obtain ⟨hSound, i, hi, -⟩ := h
  obtain ⟨rfl, hNear⟩ := (Run.owningInstance_ensures hSound hi owner span).of_ok hRun
  obtain ⟨j, hj, -⟩ := hNear.exists_get
  exact ⟨hSound, j, hj⟩

include hSteady

theorem site {e : Expr} {position : ExprId} (hExpr : p.tree.readExpr position = .ok e)
    {target : ModuleId} {arguments : List Argument} {field : SymbolId}
    (hKind : e.kind = .site target arguments field) (id : InstanceId) (source : ModuleId)
    (span : Span) :
    Replays p base (Home p id source) (Run.request p target arguments (some id) span) Eq := by
  have hMints := hLegible.ofExpr hExpr
  rw [hKind] at hMints
  obtain ⟨m, hDecl⟩ := hMints.exists_module List.mem_cons_self
  refine (request hLegible hSteady hDecl (fun type hType => ⟨?_, ?_⟩) (some id) span).weaken
    (fun _ h => ⟨h.1, h.hosts⟩) fun _ _ h => h
  · exact hMints.minted (List.mem_filterMap.mpr ⟨.type type, hType, rfl⟩)
  · exact hSteady.site hExpr hKind hType

theorem resolve (id : InstanceId) (source : ModuleId) {b : Binding} (hName : p.HasText b.name)
    {init : ExprId} (hInit : ∃ e, p.tree.readExpr init = .ok e) :
    Replays p base (Home p id source) (Run.resolve p id b init) Eq := by
  obtain ⟨e, hExpr⟩ := hInit
  have hMints := hLegible.ofExpr hExpr
  have hOwning : ∀ owner, (∃ m, p.tree.readModule owner = .ok m) →
      Replays p base (Home p id source) (Run.owningInstance p id owner e.span) Eq := by
    intro owner hOwner
    exact (owningInstance hLegible id hOwner e.span).weaken (fun _ h => ⟨h.1, h.hosts⟩)
      fun _ _ h => h
  refine bindReadOk hExpr ?_
  split
  case h_1 => exact pure rfl
  case h_2 =>
    refine bindGet fun s s' _ _ hAlike _ _ => ?_
    rw [hAlike.closureTable_eq]
    split
    · exact pure rfl
    · exact pure rfl
  case h_3 owner index hKind =>
    rw [hKind] at hMints
    refine bind (hOwning owner (hMints.exists_module List.mem_cons_self)) ?_
      fun found => fieldAlias found index hName e.span
    exact fun s found t h hRun _ => exists_owner h hRun
  case h_4 target arguments field hKind =>
    rw [hKind] at hMints
    obtain ⟨m, hDecl⟩ := hMints.exists_module List.mem_cons_self
    refine bind (site hLegible hSteady hExpr hKind id source e.span)
      (V := fun made s => Sound p s ∧ ∃ j, s.instances.get? made = some j) ?_ fun made => ?_
    · rintro s made t ⟨hSound, i, hi, -⟩ hRun -
      have hGranted := (Run.requestIn_ensures hSound hi target arguments e.span).of_ok hRun
      obtain ⟨j, hj, -⟩ := hGranted.answers.source_eq
      exact ⟨hSound.steps hGranted.advances.steps, j, hj⟩
    · refine bindReadOk hDecl ?_
      split
      case h_1 index hIndex => exact fieldAlias made index hName e.span
      case h_2 =>
        obtain ⟨text, hText⟩ := hMints.hasText List.mem_cons_self
        exact bindInstance (fun _ h => h.2) fun j type => bindReadOk hText (refuse _ _)
  case h_5 owner index hKind =>
    rw [hKind] at hMints
    obtain ⟨m, hDecl⟩ := hMints.exists_module List.mem_cons_self
    obtain ⟨text, hText⟩ := hLegible.moduleName hDecl
    refine bindReadOk hDecl (bindReadOk hText ?_)
    refine bind (hOwning owner ⟨m, hDecl⟩) (fun s found t h hRun _ => exists_owner h hRun)
      fun found => bindInstance (fun _ h => h.2) fun j type => ?_
    rw [j.valueArgument?_retyped type]
    cases j.valueArgument? index with
    | some value => exact pure rfl
    | none => exact refuse _ _
  case h_6 => exact pure rfl

theorem visitSite (id : InstanceId) (source : ModuleId) {visit : Visit} {e : Expr}
    (hVisit : visit.expr = .ok e) (hExpr : p.tree.readExpr visit.id = .ok e) :
    Replays p base (Home p id source) (Run.visitSite p id visit) Eq := by
  refine bindReadOk hVisit ?_
  split
  case h_1 target arguments field hKind =>
    exact bindFree (site hLegible hSteady hExpr hKind id source e.span) fun _ => pure rfl
  case h_2 => exact pure rfl

theorem walkBelow (id : InstanceId) (source : ModuleId) {init : ExprId}
    (hInit : ∃ e, p.tree.readExpr init = .ok e) :
    Replays p base (Home p id source)
      (p.tree.walkBelow (fun _ visit => Run.visitSite p id visit) () init) Eq := by
  rw [p.tree.walkBelow_eq]
  refine foldlM (fun visit hVisit _ => ?_) (fun visit _ _ s _ t h hRun _ => ?_) _
  · obtain ⟨e, hRead, hExpr⟩ := hLegible.exists_visit hInit (List.mem_of_mem_tail hVisit)
    exact visitSite hLegible hSteady id source hRead hExpr
  · have ⟨hSound, i, hi, _⟩ := h
    exact h.works ((Run.visitSite_ensures hSound hi visit).of_ok hRun).1.works

theorem processValue (id : InstanceId) (source : ModuleId) {b : Binding} (hName : p.HasText b.name)
    (index : Nat) {init : ExprId} (hInit : ∃ e, p.tree.readExpr init = .ok e) :
    Replays p base (Home p id source) (Run.processValue p id b index init) Eq := by
  refine bind (resolve hLegible hSteady id source hName hInit) (V := fun _ => Home p id source)
    ?_ fun target => ?_
  · intro s target t h hRun _
    have ⟨hSound, i, hi, _⟩ := h
    exact h.works ((Run.resolve_ensures hSound hi b init).of_ok hRun).1.works
  refine bindInstance (fun _ h => h.hosts id rfl) fun i type => ?_
  rw [i.fieldForBinding?_retyped type]
  refine InStep.weaken (U := Home p id source) ?_ (fun _ h => h.1) fun _ _ h => h
  cases i.fieldForBinding? index with
  | none => exact walkBelow hLegible hSteady id source hInit
  | some field =>
    refine bind (modify (fun _ => rfl) (fun _ => rfl) fun s s' _ h => ?_)
      (V := fun _ => Home p id source) ?_ fun _ => walkBelow hLegible hSteady id source hInit
    · exact h.reshape id fun i j ⟨type, hSame⟩ => ⟨type, by rw [hSame]⟩
    · rintro s _ t h hRun -
      cases hRun
      exact h.reshape id (shell_resolve field target)

theorem processNested (id : InstanceId) (source : ModuleId) (b : Binding) {nested : ModuleId}
    (hNested : ∃ n, p.tree.readModule nested = .ok n) :
    Replays p base (Home p id source) (Run.processNested p id b nested) Eq := by
  obtain ⟨n, hDecl⟩ := hNested
  refine bindReadOk hDecl ?_
  split
  case isTrue =>
    refine bindFree ((request hLegible hSteady hDecl (fun _ h => absurd h List.not_mem_nil)
      (some id) b.span).weaken (fun _ h => ⟨h.1, h.hosts⟩) fun _ _ h => h) fun made => ?_
    refine modify (fun _ => rfl) (fun _ => rfl) fun s s' _ h => ?_
    exact h.reshape id fun i j ⟨type, hSame⟩ => ⟨type, by rw [hSame]⟩
  case isFalse => exact pure rfl

theorem processBinding (id : InstanceId) {source : ModuleId} {m : ModuleDecl}
    (hDecl : p.tree.readModule source = .ok m) {entry : Binding × Nat}
    (hEntry : entry ∈ m.bindings.zipIdx) :
    Replays p base (Home p id source) (Run.processBinding p id entry) Eq := by
  have hMem : entry.1 ∈ m.bindings := List.fst_mem_of_mem_zipIdx hEntry
  unfold Run.processBinding
  split
  case h_1 type init hKind =>
    refine processValue hLegible hSteady id source (hLegible.bindingName hDecl hMem) entry.2 ?_
    exact hLegible.exists_initializer hDecl hMem (by simp [hKind, BindingKind.handles])
  case h_2 => exact pure rfl
  case h_3 nested hKind =>
    exact processNested hLegible hSteady id source entry.1 (hLegible.exists_nested hDecl hMem hKind)

theorem process (id : InstanceId) :
    Replays p base (fun s => Sound p s ∧ s.Hosts (some id)) (Run.process p id) Eq := by
  refine bindInstance (fun _ h => h.2 id rfl) fun i type => ?_
  have hFormed : ∀ s, (Sound p s ∧ s.Hosts (some id)) ∧ s.instances.get? id = some i →
      ∃ m, p.tree.readModule i.source = .ok m := by
    rintro s ⟨⟨hSound, -⟩, hi⟩
    obtain ⟨m, hFormed⟩ := hSound.formed hi
    exact ⟨m, hFormed.decl⟩
  refine assuming hFormed fun ⟨m, hDecl⟩ => bindReadOk hDecl ?_
  refine InStep.weaken (U := Home p id i.source) ?_ (fun _ h => ⟨h.1.1, i, h.2, rfl⟩) fun _ _ h => h
  refine forM (fun entry hEntry => processBinding hLegible hSteady id hDecl hEntry) ?_
  intro entry hEntry s _ t h hRun _
  have ⟨hSound, j, hj, hSource⟩ := h
  rw [← hSource] at hDecl
  exact h.works ((Run.processBinding_ensures hSound hj hDecl hEntry).of_ok hRun).works

end Process

section Drain

variable (hLegible : p.Legible base) (hSteady : p.Steady base)
include hLegible hSteady

theorem round (id : InstanceId) (rest : Queue InstanceId) :
    Replays p base (fun s => Sound p s ∧ s.worklist.pop? = some (id, rest)) (Run.round p id rest)
      Eq := by
  refine bind (modify (fun _ => rfl) (fun _ => rfl) fun _ _ _ h => ?_)
    (V := fun _ t => Sound p t ∧ t.Hosts (some id)) ?_ fun _ => ?_
  · exact ⟨h.instances, h.closures_eq, h.cache_eq, h.closureTable_eq, rfl, h.stats_eq⟩
  · rintro s _ t ⟨hSound, hPop⟩ hRun -
    cases hRun
    have hTaken : Step p s { s with worklist := rest } := .take hPop
    refine ⟨hSound.step hTaken, ?_⟩
    rintro _ ⟨⟩
    exact hSound.exists_of_pop hPop
  refine bindInstance (fun _ h => h.2 id rfl) fun i type => ?_
  refine InStep.weaken (U := fun t => Sound p t ∧ t.Hosts (some id)) ?_ (fun _ h => h.1)
    fun _ _ h => h
  refine bindLog (fun s t ⟨hSound, hHosts⟩ hRetyped => ?_) ?_
  · have hAdvance : Advance p s t := .retyped hRetyped
    exact ⟨hSound.advance hAdvance, hHosts.grow hAdvance.grows⟩
  refine bindFree (process hLegible hSteady id) fun _ => ?_
  exact modify (fun _ => rfl) (fun _ => rfl) fun _ _ _ h =>
    h.counted fun stats => { stats with processed := stats.processed + 1 }

theorem drainWithin (budget : Nat) :
    Replays p base (fun s => Sound p s ∧ s.remaining p ≤ budget) (Run.drainWithin p budget) Eq := by
  induction budget with
  | zero =>
    refine pointwise fun s s' _ _ hAlike _ ⟨hSound, hBudget⟩ => ?_
    have hEmpty := pop?_eq_none_of_remaining hBudget
    exact ⟨Pure.pure (), Pure.pure (), Run.drainWithin_of_empty hEmpty 0,
      Run.drainWithin_of_empty (hAlike.worklist_eq ▸ hEmpty) 0, pure rfl⟩
  | succ budget ih =>
    refine pointwise fun s s' _ _ hAlike _ ⟨hSound, hBudget⟩ => ?_
    cases hPop : s.worklist.pop? with
    | none =>
      exact ⟨Pure.pure (), Pure.pure (), Run.drainWithin_of_empty hPop _,
        Run.drainWithin_of_empty (hAlike.worklist_eq ▸ hPop) _, pure rfl⟩
    | some entry =>
      obtain ⟨id, rest⟩ := entry
      refine ⟨_, _, Run.drainWithin_succ hPop budget,
        Run.drainWithin_succ (hAlike.worklist_eq ▸ hPop) budget, ?_⟩
      refine bind ((round hLegible hSteady id rest).weaken ?_ fun _ _ h => h) ?_ fun _ => ih
      · rintro _ rfl
        exact ⟨hSound, hPop⟩
      · rintro s _ t rfl hRun -
        have hSteps := Run.steps_round hSound hPop
        have hLess := Run.remaining_of_round hSound hPop hRun
        rw [leave_of_ok hRun] at hSteps
        exact ⟨hSound.steps hSteps, by omega⟩

theorem drain : Replays p base (Sound p) (Run.drain p) Eq := by
  refine bindGet fun s s' _ _ hAlike _ hSound => ?_
  rw [hAlike.worklist_eq, hAlike.instances.size_eq]
  refine (drainWithin hLegible hSteady _).weaken ?_ fun _ _ h => h
  rintro _ rfl
  exact ⟨hSound, Nat.le_refl _⟩

end Drain

theorem report (root : InstanceId) (warnings : List String) :
    Replays p base (fun _ => True) (Run.report p root warnings) Output.Alike := by
  have hEnd : Replays p base (fun _ => True)
      (do
        let s ← get
        Run.log p (.debug ("monomorphized " ++ toString s.instances.size ++ " instance(s), " ++
          toString s.closures.size ++ " closure(s), " ++ toString s.stats.hits ++ " cache hit(s)"))
        return ⟨root, s.instances, s.closures, s.cache, s.closureTable, s.stats, warnings⟩)
      Output.Alike := by
    refine bindGet fun s s' _ _ hAlike _ _ => bindFree (log _ _) fun _ => pure ?_
    exact ⟨rfl, hAlike.instances, hAlike.closures_eq, hAlike.cache_eq, hAlike.closureTable_eq,
      hAlike.stats_eq, rfl⟩
  unfold Run.report
  dsimp only
  split
  · exact bindFree (log _ _) fun _ => hEnd
  · exact hEnd

section Finish

variable (hLegible : p.Legible base) (hSteady : p.Steady base)
include hLegible hSteady

theorem finish (root : InstanceId) :
    Replays p base (Sound p) (Run.finish p root) Output.Alike := by
  refine bind (drain hLegible hSteady) (V := fun _ => Sound p) ?_ fun _ => ?_
  · intro s _ t hSound hRun _
    exact hSound.steps ((Run.drain_ensures hSound).of_ok hRun).steps
  dsimp only
  split
  case isTrue =>
    refine bindGet fun s s' hOver _ hAlike hHeld hSound => ?_
    obtain ⟨warnings, hWarnings⟩ := hLegible.exists_leftovers hSteady hSound hOver.sane
    refine bindReads hWarnings (hAlike.leftovers_eq_ok hHeld hWarnings) ?_
    exact (report root warnings).weaken (fun _ _ => trivial) fun _ _ h => h
  case isFalse => exact (report root []).weaken (fun _ _ => trivial) fun _ _ h => h

theorem complete {root : ModuleId} {m : ModuleDecl} (hDecl : p.tree.readModule root = .ok m) :
    Replays p base (Sound p) (Run.complete p root) Output.Alike := by
  have hRequest := request hLegible hSteady hDecl (fun _ h => absurd h List.not_mem_nil) none m.span
  refine bind (bindReadOk hDecl (hRequest.weaken
    (fun _ h => ⟨h, fun _ h => nomatch h⟩) fun _ _ h => h)) (V := fun _ => Sound p) ?_
    fun id => finish hLegible hSteady id
  intro s id t hSound hRun _
  exact hSound.steps ((Run.instantiate_ensures p root [] hSound).of_ok hRun).advances.steps

theorem specialize {root : ModuleId} {m : ModuleDecl} (hDecl : p.tree.readModule root = .ok m) :
    Replays p base (Sound p) (Workspace.specialize p root) Output.Alike := by
  obtain ⟨text, hText⟩ := hLegible.moduleName hDecl
  have hKeep : ∀ s t, Sound p s → Retyped p s t → Sound p t :=
    fun s t hSound hRetyped => hSound.advance (.retyped hRetyped)
  refine bindReadOk hDecl (bindReadOk hText (bindLog hKeep ?_))
  refine bindGet fun s s' _ _ _ _ hSound => ?_
  refine InStep.weaken (U := Sound p) ?_ (fun _ hSame => hSame ▸ hSound) fun _ _ h => h
  exact bindLog hKeep (complete hLegible hSteady hDecl)

end Finish

end InStep

theorem RunState.Alike.start (types types' : TypeStore) :
    (RunState.start types).Alike (RunState.start types') :=
  ⟨.refl _, rfl, rfl, rfl, rfl, rfl⟩

/-- The same refusal, or results that agree in everything but the types of modules. -/
inductive SameAnswer :
    Except InstantiationError Output → Except InstantiationError Output → Prop where
  | refused (e : InstantiationError) : SameAnswer (.error e) (.error e)
  | granted {o o' : Output} (hAlike : o.Alike o') : SameAnswer (.ok o) (.ok o')

namespace Workspace

/-- A run that is made again in the workspace that it leaves, after a refusal too, ends as it did
the first time. A module type with variables is made anew whenever it is made concrete; only the
types of modules may be such types, so only they can differ. -/
theorem specialize_again (w : Workspace) (root : ModuleId) (hBuilt : w.types.Built)
    (hMinted : w.program.AllMinted w.types) (hRoot : root.index < w.tree.modules.size)
    (hAcyclic : w.tree.Acyclic) (hSteady : w.program.Steady w.types) :
    ∃ first s second t,
      (specialize w.program root).outcome (.start w.types) = .ok (first, s) ∧
      (specialize { w with types := s.types }.program root).outcome (.start s.types) =
        .ok (second, t) ∧
      SameAnswer first second := by
  have hLegible : w.program.Legible w.types := ⟨hBuilt.grounded, hMinted, hAcyclic⟩
  obtain ⟨m, hDecl⟩ := Arena.exists_read_of_lt hRoot
  have hStep := InStep.specialize hLegible hSteady hDecl
  have hStart := Sound.start w.program w.types
  have hOver : (RunState.start w.types).Over w.program w.types :=
    ⟨.refl _, hLegible.sane, hBuilt.canonical⟩
  obtain ⟨-, hLeft⟩ := hStep.grows hOver hStart
  have hOver' : (RunState.start ((specialize w.program root).leave (.start w.types)).types).Over
      w.program w.types := hLeft.of_types_eq rfl
  have hMatch := hStep.matched hOver hOver' (.start _ _) hStart (.refl _)
  cases hRun : specialize w.program root (.start w.types) with
  | ok o s =>
    rw [hRun, leave_of_ok hRun] at hMatch
    obtain ⟨o', t, hRun', hAlike, -⟩ := hMatch.of_ok
    exact ⟨.ok o, s, .ok o', t, outcome_of_ok hRun, outcome_of_ok hRun', .granted hAlike⟩
  | error e s =>
    rw [hRun, leave_of_error hRun] at hMatch
    obtain ⟨cause, t, rfl, hRun'⟩ := hMatch.of_error
    exact ⟨.error cause, s, .error cause, t, outcome_of_refused hRun, outcome_of_refused hRun',
      .refused cause⟩

end Workspace

/-! A box for any type with a closure that captures a value of that type, and a cell inside it. The
cell was added before the box, and the closure before its body. The type of the box is a module type
with a variable, so every run makes a new one. -/

namespace Wraps

def symbols : SymbolTable :=
  ["main", "Box", "T", "item", "Cell", "wrap", "seed"].foldl
    (fun table name => (table.intern name).2) .empty

def calls : List TypeCall :=
  [.add (.var .bound ⟨2⟩), .add (.function ⟨13⟩ ⟨13⟩ .total),
    .add (.composite .moduleType [⟨some ⟨3⟩, ⟨5⟩, false⟩, ⟨some ⟨5⟩, ⟨14⟩, false⟩])]

def types : TypeStore := initial.after calls

def cell : ModuleDecl :=
  ⟨⟨4⟩, .origin, some ⟨1⟩, [], ⟨[], ⟨13⟩⟩, [⟨⟨3⟩, .origin, .value ⟨5⟩ ⟨1⟩⟩]⟩

def box : ModuleDecl :=
  ⟨⟨1⟩, .origin, none, [⟨⟨2⟩, .origin, .type ⟨13⟩⟩], ⟨[⟨13⟩], ⟨15⟩⟩,
    [⟨⟨3⟩, .origin, .value ⟨5⟩ ⟨0⟩⟩, ⟨⟨5⟩, .origin, .value ⟨14⟩ ⟨3⟩⟩, ⟨⟨4⟩, .origin, .nested ⟨0⟩⟩]⟩

def main : ModuleDecl :=
  ⟨⟨0⟩, .origin, none, [], ⟨[], ⟨0⟩⟩, [⟨⟨3⟩, .origin, .value ⟨5⟩ ⟨2⟩⟩]⟩

def exprs : Array Expr :=
  #[⟨.literal (.signed .w32 7), .origin, ⟨5⟩⟩, ⟨.field ⟨1⟩ 0, .origin, ⟨5⟩⟩,
    ⟨.site ⟨1⟩ [.type ⟨5⟩] ⟨3⟩, .origin, ⟨5⟩⟩, ⟨.lambda [⟨⟨3⟩, ⟨13⟩⟩] ⟨4⟩, .origin, ⟨14⟩⟩,
    ⟨.localName ⟨6⟩, .origin, ⟨13⟩⟩]

def workspace : Workspace :=
  ⟨.silent, false, .empty, symbols, types, ⟨⟨#[cell, box, main]⟩, ⟨exprs⟩⟩⟩

theorem built : types.Built := ⟨calls, by decide +kernel, rfl⟩

theorem hasTexts {names : List SymbolId} (h : ∀ name ∈ names, name.index < symbols.size) :
    ∀ name ∈ names, ∃ text, symbols.name name = .ok text :=
  fun name hName => Arena.exists_read_of_lt (h name hName)

theorem named : types.Named symbols :=
  (((named_initial symbols).add (hasTexts (by decide +kernel))).add
    (hasTexts (by decide +kernel))).add (hasTexts (by decide +kernel))

theorem allMinted : workspace.program.AllMinted types :=
  ⟨named, by decide +kernel, by decide +kernel⟩

theorem acyclic : workspace.tree.Acyclic :=
  .of_ranks (fun id => if id = ⟨0⟩ then 1 else 0) (fun id => if id = ⟨3⟩ then 1 else 0)
    (by decide +kernel) (by decide +kernel)

theorem steady : workspace.program.Steady types := by
  have hOlder : ∀ type : TypeId, type.index < 15 → types.Steady type :=
    fun type => built.grounded.steady_of_older (by decide +kernel)
  have hBindings : ∀ m ∈ workspace.tree.modules.toList, ∀ b ∈ m.bindings,
      ∀ type ∈ b.kind.handles.types, type.index < 15 := by decide +kernel
  have hExprs : ∀ e ∈ workspace.tree.exprs.toList, ∀ type ∈ e.concretized, type.index < 15 := by
    decide +kernel
  exact ⟨fun m hm b hb type hType => hOlder type (hBindings m hm b hb type hType),
    fun e he type hType => hOlder type (hExprs e he type hType)⟩

def moduleTypes (types : TypeStore) : List TypeId × TypeStore :=
  match Workspace.specialize workspace.program ⟨2⟩ (.start types) with
  | .ok o s => (o.instances.toList.map Instance.moduleType, s.types)
  | .error _ s => ([], s.types)

end Wraps

/-- The main module of the sample, whose box gets another module type in the second run. -/
theorem Workspace.specialize_wraps_again :
    Wraps.types.Built ∧ Wraps.workspace.program.AllMinted Wraps.types ∧
    Wraps.workspace.tree.Acyclic ∧ Wraps.workspace.program.Steady Wraps.types ∧
    ∃ first s second t,
      (specialize Wraps.workspace.program ⟨2⟩).outcome (.start Wraps.types) = .ok (first, s) ∧
      (specialize { Wraps.workspace with types := s.types }.program ⟨2⟩).outcome
        (.start s.types) = .ok (second, t) ∧
      SameAnswer first second :=
  ⟨Wraps.built, Wraps.allMinted, Wraps.acyclic, Wraps.steady,
    specialize_again Wraps.workspace ⟨2⟩ Wraps.built Wraps.allMinted (by decide) Wraps.acyclic
      Wraps.steady⟩

example : (Wraps.moduleTypes Wraps.types).1 = [⟨0⟩, ⟨17⟩, ⟨5⟩] ∧
    (Wraps.moduleTypes (Wraps.moduleTypes Wraps.types).2).1 = [⟨0⟩, ⟨18⟩, ⟨5⟩] := by
  decide +kernel

end Specializer
