import Specializer.Proofs.Instance.Legible
import Specializer.Proofs.Instance.Rerun
import Specializer.Proofs.Instance.Targets
import Specializer.Workspace

/-!
# Emission

An emission is a fixed list of calls on a back end: one for each closure, then one for each value
field, instance by instance. It goes along the list to its end, or to the first call that fails, and
asks for the text only if none has failed. After a run that ends well the listing takes all of these
calls: no field waits, and whatever a field stands for is in the tables and has a name.
-/

set_option autoImplicit false

namespace Specializer

open TypeStore Update RunState ModuleTree

inductive Notice where
  | closure (c : Closure)
  | field (i : Instance) (f : Definition)

/-- A back end is told of values and not of types. -/
def Instance.noticesOf (i : Instance) (f : Definition) : List Notice :=
  match f.kind with
  | .valueConstant => [.field i f]
  | .typeConstant => []

def Instance.notices (i : Instance) : List Notice := i.fields.flatMap i.noticesOf

theorem Instance.notices_eq (i : Instance) :
    i.notices = (Emission.valueFields i).map (.field i) := by
  unfold notices Emission.valueFields
  induction i.fields with
  | nil => rfl
  | cons f rest ih =>
    rw [List.flatMap_cons, ih, noticesOf]
    cases hKind : f.kind <;> simp [hKind]

/-- All that a back end is told of, in this order. -/
def Output.notices (o : Output) : List Notice :=
  o.closures.toList.map .closure ++ o.instances.toList.flatMap Instance.notices

namespace Backend

variable {σ : Type} {backend : Backend σ} {view : EmitView} {first middle last : σ}
  {notices : List Notice} {n : Notice} {e : Failure String}

def tell (backend : Backend σ) (view : EmitView) : Notice → Update σ String Unit
  | .closure c => backend.declareClosure view c
  | .field i f => backend.emitField view i f

/-- The calls succeed one after the other and lead from the first state to the last. -/
inductive Takes (backend : Backend σ) (view : EmitView) : σ → List Notice → σ → Prop where
  | nil (b : σ) : Takes backend view b [] b
  | cons {n : Notice} {rest : List Notice} {first middle last : σ}
      (hTell : backend.tell view n first = .ok () middle)
      (hRest : Takes backend view middle rest last) : Takes backend view first (n :: rest) last

/-- The calls succeed up to one that fails; none is made after it. -/
inductive Stops (backend : Backend σ) (view : EmitView) (first : σ) (notices : List Notice)
    (e : Failure String) (last : σ) : Prop where
  | at {before after : List Notice} {n : Notice} {middle : σ}
      (hNotices : notices = before ++ n :: after) (hTakes : backend.Takes view first before middle)
      (hTell : backend.tell view n middle = .error e last)

/-- How the whole emission ends, with the answer and the state of the back end. -/
inductive Serves (backend : Backend σ) (view : EmitView) (first : σ) :
    Except (Failure String) String → σ → Prop where
  | finished {middle last : σ} {text : String}
      (hTakes : backend.Takes view first view.output.notices middle)
      (hFinish : backend.finish view middle = .ok text last) :
      Serves backend view first (.ok text) last
  | unfinished {middle last : σ} {e : Failure String}
      (hTakes : backend.Takes view first view.output.notices middle)
      (hFinish : backend.finish view middle = .error e last) :
      Serves backend view first (.error e) last
  | stopped {last : σ} {e : Failure String}
      (hStops : backend.Stops view first view.output.notices e last) :
      Serves backend view first (.error e) last

theorem Takes.snoc (h : backend.Takes view first notices middle)
    (hTell : backend.tell view n middle = .ok () last) :
    backend.Takes view first (notices ++ [n]) last := by
  induction h with
  | nil => exact .cons hTell (.nil last)
  | cons hFirst _ ih => exact .cons hFirst (ih hTell)

theorem Takes.unique {last' : σ} (h : backend.Takes view first notices last)
    (h' : backend.Takes view first notices last') : last = last' := by
  induction h with
  | nil =>
    cases h'
    rfl
  | cons hTell _ ih =>
    cases h' with
    | cons hTell' hRest =>
      cases hTell.symm.trans hTell'
      exact ih hRest

theorem Takes.split {before after : List Notice}
    (h : backend.Takes view first (before ++ after) last) :
    ∃ middle, backend.Takes view first before middle ∧ backend.Takes view middle after last := by
  induction before generalizing first with
  | nil => exact ⟨first, .nil first, h⟩
  | cons n rest ih =>
    cases h with
    | cons hTell hRest =>
      obtain ⟨middle, hBefore, hAfter⟩ := ih hRest
      exact ⟨middle, .cons hTell hBefore, hAfter⟩

theorem Takes.not_stops (h : backend.Takes view first notices middle) :
    ¬backend.Stops view first notices e last := by
  rintro ⟨rfl, hTakes, hTell⟩
  obtain ⟨middle, hBefore, hRest⟩ := h.split
  cases hTakes.unique hBefore
  cases hRest with
  | cons hTell' _ => cases hTell.symm.trans hTell'

theorem Takes.finish_of_serves {answer : Except (Failure String) String}
    (hTakes : backend.Takes view first view.output.notices middle)
    (h : backend.Serves view first answer last) :
    backend.finish view middle =
      match answer with
      | .ok text => .ok text last
      | .error e => .error e last := by
  cases h with
  | finished hTakes' hFinish => rw [hTakes.unique hTakes', hFinish]
  | unfinished hTakes' hFinish => rw [hTakes.unique hTakes', hFinish]
  | stopped hStops => exact absurd hStops hTakes.not_stops

end Backend

namespace Emission

variable {σ α β : Type} {backend : Backend σ} {view : EmitView} {b : σ}

theorem call_ensures (update : Update σ String α) (s : Emission σ) :
    (call update).Ensures s (fun a t => update s.backend = .ok a t.backend)
      (fun e t => update s.backend = .error e t.backend) := by
  unfold Ensures call focus
  cases hRun : update s.backend with
  | ok a t => rfl
  | error e t => cases e <;> rfl

theorem forM_tell_ensures (notice : β → Notice) {all : List Notice} (before after : List Notice)
    {items : List β} {s : Emission σ} (hAll : all = before ++ items.map notice ++ after)
    (hTakes : backend.Takes view b before s.backend) :
    (items.forM fun item => call (backend.tell view (notice item))).Ensures s
      (fun _ t => backend.Takes view b (before ++ items.map notice) t.backend)
      (fun e t => backend.Stops view b all e t.backend) := by
  apply Ensures.forM (I := fun done (t : Emission σ) =>
    backend.Takes view b (before ++ done.map notice) t.backend)
  · intro done item rest hItems t hDone
    apply (call_ensures _ t).mono
    · intro _ u hTell
      rw [List.map_append, List.map_singleton, ← List.append_assoc]
      exact hDone.snoc hTell
    · intro e u hTell
      have hSplit : all = (before ++ done.map notice) ++ notice item ::
          (rest.map notice ++ after) := by
        simp [hAll, hItems]
      exact .at hSplit hDone hTell
  · simpa using hTakes

theorem emitInstance_ensures (settings : Settings) {all : List Notice} (before after : List Notice)
    {i : Instance} {s : Emission σ} (hAll : all = before ++ i.notices ++ after)
    (hTakes : backend.Takes view b before s.backend) :
    (emitInstance settings view backend i).Ensures s
      (fun _ t => backend.Takes view b (before ++ i.notices) t.backend)
      (fun e t => backend.Stops view b all e t.backend) := by
  rw [i.notices_eq] at hAll ⊢
  unfold emitInstance
  apply Ensures.bind (forM_tell_ensures (.field i) before after hAll hTakes) _ fun _ _ h => h
  intro _ t hTaken
  exact hTaken

/-- Any back end, in any state, gets the calls it should get. -/
theorem emit_ensures (settings : Settings) (view : EmitView) (backend : Backend σ)
    (s : Emission σ) : (emit settings view backend).Ensures s
      (fun text t => backend.Serves view s.backend (.ok text) t.backend)
      (fun e t => backend.Serves view s.backend (.error e) t.backend) := by
  have hClosures : (view.output.closures.toList.forM
      fun c => call (backend.declareClosure view c)).Ensures s
        (fun _ t => backend.Takes view s.backend (view.output.closures.toList.map .closure)
          t.backend)
        (fun e t => backend.Stops view s.backend view.output.notices e t.backend) :=
    forM_tell_ensures .closure [] _ rfl (.nil s.backend)
  apply hClosures.bind _ fun _ _ => .stopped
  intro _ t hClosed
  have hInstances : (view.output.instances.toList.forM (emitInstance settings view backend)).Ensures
      t (fun _ u => backend.Takes view s.backend view.output.notices u.backend)
        (fun e u => backend.Stops view s.backend view.output.notices e u.backend) := by
    apply Ensures.forM (I := fun done (u : Emission σ) => backend.Takes view s.backend
      (view.output.closures.toList.map Notice.closure ++ done.flatMap Instance.notices) u.backend)
    · intro done i rest hItems u hDone
      rw [List.flatMap_append, List.flatMap_singleton, ← List.append_assoc]
      apply emitInstance_ensures settings _ (rest.flatMap Instance.notices) _ hDone
      simp [Output.notices, hItems]
    · simpa using hClosed
  apply hInstances.bind _ fun _ _ => .stopped
  intro _ u hTaken
  apply Ensures.bindModify
  apply (call_ensures _ _).mono
  · intro text v hFinish
    exact .finished hTaken hFinish
  · intro e v hFinish
    exact .unfinished hTaken hFinish

end Emission

def EmitView.line (view : EmitView) : Notice → Read String
  | .closure c => Backend.listedClosure view c
  | .field i f => do Backend.listedField view i f (← view.symbols.name f.name)

def Notice.Settled : Notice → Prop
  | .closure _ => True
  | .field _ f => f.target ≠ .pending

namespace Backend

variable {view : EmitView} {n : Notice} {line : String}

theorem tell_listing (hLine : view.line n = .ok line) (hSettled : n.Settled)
    (lines : List String) : listing.tell view n lines = .ok () (line :: lines) := by
  cases n with
  | closure c =>
    have hListed : listedClosure view c = .ok line := hLine
    simp only [tell, listing, hListed]
    rfl
  | field i f =>
    obtain ⟨name, hName, hListed⟩ := Read.bind_eq_ok_iff.mp hLine
    have hNot : ¬f.target = .pending := hSettled
    simp only [tell, listing, hName, if_neg hNot]
    change (liftM (listedField view i f name) >>= fun line => modify fun lines => line :: lines :
      Update (List String) String PUnit) lines = _
    rw [hListed]
    rfl

theorem takes_listing {notices : List Notice} {lines : List String}
    (h : List.Forall₂ (fun n line => view.line n = .ok line) notices lines)
    (hSettled : ∀ n ∈ notices, n.Settled) (before : List String) :
    listing.Takes view before notices (lines.reverse ++ before) := by
  induction h generalizing before with
  | nil => exact .nil before
  | cons hLine _ ih =>
    rw [List.reverse_cons, List.append_assoc]
    apply Takes.cons (tell_listing hLine (hSettled _ List.mem_cons_self) before)
    exact ih (fun n hn => hSettled n (List.mem_cons_of_mem _ hn)) _

end Backend

section Lines

variable {p : Program} {types : TypeStore} {t : RunState} (hLegible : p.Legible types)
  (hSteps : Steps p (.start types) t)
include hLegible hSteps

theorem RunState.exists_spell_of_holds {type : TypeId} (h : t.Holds type) :
    ∃ text, t.types.spell p.symbols type = .ok text :=
  (hSteps.sane hLegible.sane).exists_spell
    (((Sound.start p types).steps hSteps).closed_of_holds h).minted

theorem RunState.hasText_field {id : InstanceId} {i : Instance} {f : Definition}
    (hi : t.instances.get? id = some i) (hf : f ∈ i.fields) : p.HasText f.name := by
  obtain ⟨m, hFormed⟩ := ((Sound.start p types).steps hSteps).formed hi
  obtain ⟨source, hSource, hYields⟩ := exists_mem_left_of_forall₂ hFormed.fields hf
  rw [hYields.name]
  exact (hLegible.fieldSource hFormed.decl hSource).1

theorem RunState.hasText_captured {id : ClosureId} {c : Closure} {captured : Capture}
    (hc : t.closures.get? id = some c) (hCaptured : captured ∈ c.captures) :
    p.HasText captured.name := by
  obtain ⟨m, i, hMade⟩ := ((Sound.start p types).steps hSteps).made hc
  obtain ⟨captures, hOf, hYields⟩ := hMade.captures
  obtain ⟨source, hSource, hYields⟩ := exists_mem_left_of_forall₂ hYields hCaptured
  rw [hYields.name]
  exact (hLegible.capture hOf hSource).1

theorem RunState.exists_listedClosure (o : Output) {id : ClosureId} {c : Closure}
    (hc : t.closures.get? id = some c) :
    ∃ line, Backend.listedClosure ⟨o, p.tree, t.types, p.symbols⟩ c = .ok line := by
  apply Read.exists_bind_eq_ok (exists_spell_of_holds hLegible hSteps (.closure hc))
  intro spelling _
  apply Read.exists_bind_eq_ok _ fun _ _ => ⟨_, rfl⟩
  apply Read.exists_mapM_eq_ok
  intro captured hCaptured
  apply Read.exists_bind_eq_ok (hasText_captured hLegible hSteps hc hCaptured)
  intro name _
  apply Read.exists_bind_eq_ok _ fun _ _ => ⟨_, rfl⟩
  exact exists_spell_of_holds hLegible hSteps (.capture hc hCaptured)

variable {o : Output} (hInstances : o.instances = t.instances) (hClosures : o.closures = t.closures)
include hInstances

theorem RunState.ValueField.exists_targetText {owner : InstanceId} {field index : Nat}
    (h : t.ValueField owner field index) :
    ∃ text, Report.targetText o t.types p.symbols (.definition owner field) = .ok text := by
  obtain ⟨i, f, hi, hf, -, -⟩ := h
  have hRead : o.instances.read owner = .ok i := by
    rw [hInstances]
    exact (Arena.read_eq_ok_iff _ _ _).mpr hi
  apply Read.exists_bind_eq_ok ⟨i, hRead⟩
  intro other hOther
  cases hRead.symm.trans hOther
  simp only [hf]
  apply Read.exists_bind_eq_ok _ fun _ _ => ⟨_, rfl⟩
  exact hasText_field hLegible hSteps hi (List.mem_of_getElem? hf)

include hClosures

theorem RunState.Stands.exists_targetText {id : InstanceId} {init : ExprId} {kind : ExprKind}
    {target : Target} (h : t.Stands p id init kind target) :
    ∃ text, Report.targetText o t.types p.symbols target = .ok text := by
  cases kind with
  | literal value =>
    cases h
    exact ⟨_, rfl⟩
  | lambda params body =>
    obtain ⟨closure, c, rfl, hc, -⟩ := h
    have hRead : o.closures.read closure = .ok c := by
      rw [hClosures]
      exact (Arena.read_eq_ok_iff _ _ _).mpr hc
    exact Read.exists_bind_eq_ok ⟨c, hRead⟩ fun _ _ => ⟨_, rfl⟩
  | field owner index =>
    obtain ⟨found, field, rfl, -, hField⟩ := h
    exact hField.exists_targetText hLegible hSteps hInstances
  | site goal arguments name =>
    obtain ⟨found, field, m, index, rfl, -, -, -, hField⟩ := h
    exact hField.exists_targetText hLegible hSteps hInstances
  | templateValue owner index =>
    obtain ⟨found, j, value, rfl, -⟩ := h
    exact ⟨_, rfl⟩
  | _ =>
    cases h
    exact ⟨_, rfl⟩

theorem RunState.AllShown.exists_line (hShown : t.AllShown p) {n : Notice} (hn : n ∈ o.notices) :
    n.Settled ∧ ∃ line, EmitView.line ⟨o, p.tree, t.types, p.symbols⟩ n = .ok line := by
  rcases List.mem_append.mp hn with hn | hn
  · obtain ⟨c, hc, rfl⟩ := List.mem_map.mp hn
    rw [hClosures] at hc
    obtain ⟨id, hGet⟩ := Arena.exists_get?_of_mem_toList hc
    exact ⟨trivial, exists_listedClosure hLegible hSteps o hGet⟩
  · obtain ⟨i, hi, hn⟩ := List.mem_flatMap.mp hn
    rw [i.notices_eq] at hn
    obtain ⟨f, hf, rfl⟩ := List.mem_map.mp hn
    obtain ⟨hf, hKind⟩ := List.mem_filter.mp hf
    rw [hInstances] at hi
    obtain ⟨id, hGet⟩ := Arena.exists_get?_of_mem_toList hi
    obtain ⟨m, hDecl, hFields⟩ := hShown.fields hGet
    obtain ⟨⟨⟨name, span, kind⟩, index⟩, -, hShows⟩ := exists_mem_left_of_forall₂ hFields hf
    have hContent := hShows.content
    cases kind with
    | nested inner => exact hContent.elim
    | type type => cases hContent.1.symm.trans (of_decide_eq_true hKind)
    | value type init =>
      obtain ⟨-, -, e, hExpr, hStands⟩ := hContent
      refine ⟨hStands.ne_pending, ?_⟩
      apply Read.exists_bind_eq_ok (hasText_field hLegible hSteps hGet hf)
      intro text _
      apply Read.exists_bind_eq_ok
        (hStands.exists_targetText hLegible hSteps hInstances hClosures)
      intro target _
      apply Read.exists_bind_eq_ok _ fun _ _ => ⟨_, rfl⟩
      exact exists_spell_of_holds hLegible hSteps (.field hGet hf)

end Lines

namespace Workspace

def leftBy (w : Workspace) (s : RunState) : Workspace := { w with types := s.types }

theorem specialize_ensures (p : Program) (root : ModuleId) (types : TypeStore) :
    (specialize p root).Ensures (.start types)
      (fun o t => Steps p (.start types) t ∧ t.AllShown p ∧ o.instances = t.instances ∧
        o.closures = t.closures)
      (fun _ _ => True) := by
  have hSound := Sound.start p types
  have hStart := RunState.Tracks.start types
  refine Ensures.bindRead (fun m _ => ?_) fun _ _ => trivial
  refine Ensures.bindRead (fun name _ => ?_) fun _ _ => trivial
  apply Ensures.bind (Run.log_ensures p _ _) _ fun _ _ => False.elim
  rintro _ s ⟨hFirst, -⟩
  apply Ensures.bindGet
  apply Ensures.bind (Run.log_ensures p _ s) _ fun _ _ => False.elim
  rintro _ s' ⟨hSecond, -⟩
  have hBegun : Advances p (.start types) s' := .single (.retyped (hFirst.trans hSecond))
  apply Ensures.bind (Run.instantiate_ensures p root [] (hSound.steps hBegun.steps)) _
    fun _ _ _ => trivial
  intro id u hGranted
  have hAdvances : Advances p (.start types) u := hBegun.trans hGranted.advances
  unfold Ensures
  split
  case h_1 o t hRun =>
    have hDrained := ((Run.finish_ensures id (hSound.steps hAdvances.steps)).of_ok hRun).1
    exact ⟨hAdvances.steps.trans hDrained.steps,
      Run.finish_allShown hAdvances.steps (hStart.works hAdvances.works) hRun⟩
  case h_2 => trivial

theorem emit_listing (w : Workspace) {o : Output} {lines : List String}
    (hTakes : Backend.listing.Takes (w.view o) [] o.notices lines) :
    ∃ printed, w.emit o .listing = .ok (.ok ("\n".intercalate lines.reverse), printed) := by
  have hEnds := Emission.emit_ensures w.settings (w.view o) .listing ⟨[], []⟩
  cases hRun : Emission.emit w.settings (w.view o) .listing ⟨[], []⟩ with
  | ok text t =>
    have hFinish : EStateM.Result.ok ("\n".intercalate lines.reverse) [] = .ok text t.backend :=
      hTakes.finish_of_serves (hEnds.of_ok hRun)
    injection hFinish with hText
    rw [hText]
    exact ⟨_, Read.bind_eq_ok_iff.mpr ⟨_, outcome_of_ok hRun, rfl⟩⟩
  | error e t => cases hTakes.finish_of_serves (hEnds.of_error hRun)

/-- After a run that ends well, the listing has one line for each closure and then one for each
value field. Any back end gets the same calls, up to the first at which it fails. -/
theorem emit_after_specialize (w : Workspace) (root : ModuleId) (hBuilt : w.types.Built)
    (hMinted : w.program.AllMinted w.types) (hAcyclic : w.tree.Acyclic) {o : Output} {s : RunState}
    (hRun : specialize w.program root (.start w.types) = .ok o s) :
    (∃ lines printed,
      (w.leftBy s).emit o .listing = .ok (.ok ("\n".intercalate lines), printed) ∧
      Backend.listing.Takes ((w.leftBy s).view o) [] o.notices lines.reverse ∧
      List.Forall₂ (fun n line => ((w.leftBy s).view o).line n = .ok line) o.notices lines) ∧
    ∀ (σ : Type) (backend : Backend σ) (b : σ) (log : Log),
      (Emission.emit w.settings ((w.leftBy s).view o) backend).Ensures ⟨b, log⟩
        (fun text t => backend.Serves ((w.leftBy s).view o) b (.ok text) t.backend)
        (fun e t => backend.Serves ((w.leftBy s).view o) b (.error e) t.backend) := by
  have hLegible : w.program.Legible w.types := ⟨hBuilt.grounded, hMinted, hAcyclic⟩
  refine ⟨?_, fun σ backend b log => Emission.emit_ensures w.settings _ backend ⟨b, log⟩⟩
  obtain ⟨hSteps, hShown, hInstances, hClosures⟩ :=
    (specialize_ensures w.program root w.types).of_ok hRun
  have hEach : ∀ n ∈ o.notices,
      n.Settled ∧ ∃ line, ((w.leftBy s).view o).line n = .ok line :=
    fun n hn => hShown.exists_line hLegible hSteps hInstances hClosures hn
  obtain ⟨lines, hLines⟩ := Read.exists_mapM_eq_ok fun n hn => (hEach n hn).2
  have hListed := Read.mapM_eq_ok_iff.mp hLines
  have hTakes := Backend.takes_listing hListed (fun n hn => (hEach n hn).1) []
  rw [List.append_nil] at hTakes
  obtain ⟨printed, hEmit⟩ := emit_listing (w.leftBy s) hTakes
  rw [List.reverse_reverse] at hEmit
  exact ⟨lines, printed, hEmit, hTakes, hListed⟩

theorem emit_wraps : Wraps.types.Built ∧ Wraps.workspace.program.AllMinted Wraps.types ∧
    Wraps.workspace.tree.Acyclic ∧ ∃ o s,
      specialize Wraps.workspace.program ⟨2⟩ (.start Wraps.types) = .ok o s ∧
      (∃ lines printed, (Wraps.workspace.leftBy s).emit o .listing =
          .ok (.ok ("\n".intercalate lines), printed) ∧
        List.Forall₂ (fun n line => ((Wraps.workspace.leftBy s).view o).line n = .ok line)
          o.notices lines) ∧
      (Emission.emit .silent ((Wraps.workspace.leftBy s).view o) .failing).Ensures ⟨(), []⟩
        (fun text t => Backend.failing.Serves ((Wraps.workspace.leftBy s).view o) () (.ok text)
          t.backend)
        (fun e t => Backend.failing.Serves ((Wraps.workspace.leftBy s).view o) () (.error e)
          t.backend) := by
  obtain ⟨o, s, hRun⟩ := exists_of_succeeds (show (specialize Wraps.workspace.program ⟨2⟩).succeeds
    (.start Wraps.types) = true by decide +kernel)
  obtain ⟨⟨lines, printed, hEmit, -, hLines⟩, hCalls⟩ := emit_after_specialize Wraps.workspace ⟨2⟩
    Wraps.built Wraps.allMinted Wraps.acyclic hRun
  exact ⟨Wraps.built, Wraps.allMinted, Wraps.acyclic, o, s, hRun, ⟨lines, printed, hEmit, hLines⟩,
    hCalls Unit .failing () []⟩

example : (Wraps.workspace.compile ⟨2⟩ .listing).map (fun r => r.result.map Compilation.emitted) =
    .ok (some ("closure Box__i32__closure0 :: (Int32) -> Int32 [seed :: Int32]\n" ++
      "main.item :: Int32 = Box__i32.item\n" ++
      "Box__i32.item :: Int32 = 7\n" ++
      "Box__i32.wrap :: (Int32) -> Int32 = Box__i32__closure0\n" ++
      "Box__i32__Cell.item :: Int32 = Box__i32.item")) := by
  decide +kernel

end Workspace

end Specializer
