import Specializer.Proofs.Instance.Chain
import Specializer.Proofs.Types.Interning

/-!
# Two runs in step

A program is run twice, and the second run starts from a type store that holds whatever the first
run will have added. `InStep` says that the two then do the same: neither of them ends with a fault,
both are refused for the same cause or both succeed, and their states are alike in everything but
the types of modules and the log. What the first run adds lies ahead of each of its steps, so
`InStep` comes with a bound on the store that the rest of the first run leads to, and each rule
passes that bound on.
-/

set_option autoImplicit false

namespace Specializer

open TypeStore Update

section Matches

variable {σ ε α β : Type}

/-- Both outcomes are successes with `post`, or both are refusals for the same cause. -/
def Matches (post : α → β → σ → σ → Prop) :
    EStateM.Result (Failure ε) σ α → EStateM.Result (Failure ε) σ β → Prop
  | .ok a t, .ok b t' => post a b t t'
  | .error (.refused cause) _, .error (.refused cause') _ => cause = cause'
  | _, _ => False

theorem Matches.mono {post post' : α → β → σ → σ → Prop}
    {x : EStateM.Result (Failure ε) σ α} {y : EStateM.Result (Failure ε) σ β}
    (h : Matches post x y) (hPost : ∀ a b t t', post a b t t' → post' a b t t') :
    Matches post' x y := by
  unfold Matches at h ⊢
  split at h
  · exact hPost _ _ _ _ h
  · exact h
  · exact h.elim

theorem Matches.of_ok {post : α → β → σ → σ → Prop} {a : α} {t : σ}
    {y : EStateM.Result (Failure ε) σ β} (h : Matches post (.ok a t) y) :
    ∃ b t', y = .ok b t' ∧ post a b t t' := by
  cases y with
  | ok b t' => exact ⟨b, t', rfl, h⟩
  | error e t' => exact h.elim

theorem Matches.of_error {post : α → β → σ → σ → Prop} {e : Failure ε} {t : σ}
    {y : EStateM.Result (Failure ε) σ β} (h : Matches post (.error e t) y) :
    ∃ cause t', e = .refused cause ∧ y = .error (.refused cause) t' := by
  cases e with
  | fault reason => exact h.elim
  | refused cause =>
    cases y with
    | ok b t' => exact h.elim
    | error e' t' =>
      cases e' with
      | fault reason => exact h.elim
      | refused cause' =>
        obtain rfl : cause = cause' := h
        exact ⟨cause, t', rfl, rfl⟩

end Matches

/-- The same instance up to the type of its module. -/
def Instance.Alike (i j : Instance) : Prop := ∃ type, j = { i with moduleType := type }

namespace Instance

theorem Alike.refl (i : Instance) : i.Alike i := ⟨i.moduleType, rfl⟩

theorem fieldForBinding?_retyped (i : Instance) (type : TypeId) (index : Nat) :
    { i with moduleType := type }.fieldForBinding? index = i.fieldForBinding? index := rfl

theorem valueArgument?_retyped (i : Instance) (type : TypeId) (index : Nat) :
    { i with moduleType := type }.valueArgument? index = i.valueArgument? index := rfl

end Instance

def Arena.Alike (a b : Arena .instances Instance) : Prop :=
  List.Forall₂ Instance.Alike a.toList b.toList

namespace Arena.Alike

variable {a b : Arena .instances Instance}

theorem refl (a : Arena .instances Instance) : a.Alike a :=
  List.forall₂_same.mpr fun i _ => .refl i

theorem size_eq (h : a.Alike b) : b.size = a.size := by
  simpa [Arena.toList, Arena.size] using (List.Forall₂.length_eq h).symm

theorem get? (h : a.Alike b) {id : InstanceId} {i : Instance} (hi : a.get? id = some i) :
    ∃ j, b.get? id = some j ∧ i.Alike j := by
  unfold Arena.get? at hi ⊢
  rw [← Array.getElem?_toList] at hi ⊢
  exact exists_getElem?_of_forall₂ h hi

theorem push (h : a.Alike b) {i j : Instance} (hAlike : i.Alike j) :
    (a.push i).Alike (b.push j) := by
  unfold Arena.Alike Arena.push Arena.toList
  rw [Array.toList_push, Array.toList_push]
  exact List.rel_append h (.cons hAlike .nil)

theorem modify (h : a.Alike b) (id : InstanceId) {change : Instance → Instance}
    (hChange : ∀ i j, i.Alike j → (change i).Alike (change j)) :
    (a.modify id change).Alike (b.modify id change) := by
  unfold Arena.Alike Arena.modify Arena.toList
  rw [Array.toList_modify, Array.toList_modify]
  exact forall₂_modify h hChange id.index

theorem findInChainWithin_eq_ok (h : a.Alike b) {source : ModuleId} {depth : Nat}
    {start found : Option InstanceId}
    (hFound : Run.findInChainWithin a source depth start = .ok found) :
    Run.findInChainWithin b source depth start = .ok found := by
  induction depth generalizing start with
  | zero => cases start <;> exact hFound
  | succ depth ih =>
    cases start with
    | none => exact hFound
    | some id =>
      rw [Run.findInChainWithin] at hFound ⊢
      obtain ⟨i, hi, hRest⟩ := Read.bind_eq_ok_iff.mp hFound
      obtain ⟨_, hj, type, rfl⟩ := h.get? ((Arena.read_eq_ok_iff _ _ _).mp hi)
      refine Read.bind_eq_ok_iff.mpr ⟨_, (Arena.read_eq_ok_iff _ _ _).mpr hj, ?_⟩
      split at hRest
      case isTrue hSource => rwa [if_pos hSource]
      case isFalse hSource =>
        rw [if_neg hSource]
        exact ih hRest

end Arena.Alike

namespace RunState

/-- The states agree in everything but the types of modules, the type stores and the logs. -/
structure Alike (s s' : RunState) : Prop where
  instances : s.instances.Alike s'.instances
  closures_eq : s'.closures = s.closures
  cache_eq : s'.cache = s.cache
  closureTable_eq : s'.closureTable = s.closureTable
  worklist_eq : s'.worklist = s.worklist
  stats_eq : s'.stats = s.stats

theorem Alike.refl (s : RunState) : s.Alike s := ⟨.refl _, rfl, rfl, rfl, rfl, rfl⟩

theorem Alike.retyped {p : Program} {s s' t t' : RunState} (h : s.Alike s') (ht : Retyped p s t)
    (ht' : Retyped p s' t') : t.Alike t' := by
  rw [ht.rest, ht'.rest]
  exact ⟨h.instances, h.closures_eq, h.cache_eq, h.closureTable_eq, h.worklist_eq, h.stats_eq⟩

theorem Alike.enter {s s' : RunState} (h : s.Alike s') {i j : Instance} (hAlike : i.Alike j)
    (closures : List Closure) : (s.enter i closures).Alike (s'.enter j closures) := by
  unfold RunState.enter
  rw [h.closures_eq, h.closureTable_eq]
  exact ⟨h.instances.push hAlike, rfl, h.cache_eq, rfl, h.worklist_eq, h.stats_eq⟩

theorem Alike.reshape {s s' : RunState} (h : s.Alike s') (id : InstanceId)
    {change : Instance → Instance} (hChange : ∀ i j, i.Alike j → (change i).Alike (change j)) :
    { s with instances := s.instances.modify id change }.Alike
      { s' with instances := s'.instances.modify id change } :=
  ⟨h.instances.modify id hChange, h.closures_eq, h.cache_eq, h.closureTable_eq, h.worklist_eq,
    h.stats_eq⟩

theorem Alike.counted {s s' : RunState} (h : s.Alike s') (count : Stats → Stats) :
    { s with stats := count s.stats }.Alike { s' with stats := count s'.stats } :=
  ⟨h.instances, h.closures_eq, h.cache_eq, h.closureTable_eq, h.worklist_eq,
    congrArg count h.stats_eq⟩

/-- A state whose type store is in order and holds `base`. -/
structure Over (p : Program) (base : TypeStore) (s : RunState) : Prop where
  holds : base.Extends s.types
  sane : s.types.Sane p.symbols
  canonical : s.types.Canonical

theorem Over.retyped {p : Program} {base : TypeStore} {s t : RunState} (h : s.Over p base)
    (hRetyped : Retyped p s t) : t.Over p base :=
  ⟨h.holds.trans hRetyped.grown, hRetyped.sane h.sane, hRetyped.added.canonical h.canonical⟩

theorem Over.of_types_eq {p : Program} {base : TypeStore} {s t : RunState} (h : s.Over p base)
    (hTypes : t.types = s.types) : t.Over p base :=
  ⟨hTypes ▸ h.holds, hTypes ▸ h.sane, hTypes ▸ h.canonical⟩

end RunState

open RunState

/-- From states that are alike the updates end alike, if the first starts from a state with `U` and
the second from a store that holds everything the first will have added. Answers are related by
`R`. -/
structure InStep {α : Type} (p : Program) (base : TypeStore) (U : RunState → Prop) (u u' : Run α)
    (R : α → α → Prop) : Prop where
  grows : ∀ ⦃s⦄, s.Over p base → U s →
    s.types.Extends (u.leave s).types ∧ (u.leave s).Over p base
  matched : ∀ ⦃s s'⦄, s.Over p base → s'.Over p base → s.Alike s' → U s →
    (u.leave s).types.Extends s'.types →
      Matches (fun a b t t' => R a b ∧ t.Alike t' ∧ t'.Over p base ∧ s'.types.Extends t'.types)
        (u s) (u' s')

/-- Made again, the update ends as it did. -/
abbrev Replays {α : Type} (p : Program) (base : TypeStore) (U : RunState → Prop) (u : Run α)
    (R : α → α → Prop) : Prop :=
  InStep p base U u u R

namespace InStep

variable {p : Program} {base : TypeStore} {U V : RunState → Prop} {α β : Type}
  {R R' : α → α → Prop} {S : β → β → Prop} {u u' : Run α} {f f' : α → Run β}

theorem weaken (h : InStep p base U u u' R) (hU : ∀ s, V s → U s) (hR : ∀ a b, R a b → R' a b) :
    InStep p base V u u' R' := by
  constructor
  · exact fun s hOver hV => h.grows hOver (hU s hV)
  · intro s s' hOver hOver' hAlike hV hAhead
    refine (h.matched hOver hOver' hAlike (hU s hV) hAhead).mono ?_
    rintro a b t t' ⟨hAnswers, hRest⟩
    exact ⟨hR a b hAnswers, hRest⟩

theorem assuming {P : Prop} (hP : ∀ s, U s → P) (h : P → InStep p base U u u' R) :
    InStep p base U u u' R :=
  ⟨fun s hOver hU => (h (hP s hU)).grows hOver hU,
    fun s _ hOver hOver' hAlike hU => (h (hP s hU)).matched hOver hOver' hAlike hU⟩

/-- It is enough to know, for each two states, updates that do the same from there. -/
theorem pointwise (h : ∀ s s', s.Over p base → s'.Over p base → s.Alike s' →
      s.types.Extends s'.types → U s → ∃ v v', u s = v s ∧ u' s' = v' s' ∧
        InStep p base (fun t => t = s) v v' R) : InStep p base U u u' R := by
  have hGrows : ∀ s, s.Over p base → U s →
      s.types.Extends (u.leave s).types ∧ (u.leave s).Over p base := by
    intro s hOver hU
    obtain ⟨v, _, hv, -, hStep⟩ := h s s hOver hOver (.refl s) (.refl _) hU
    rw [leave_congr hv]
    exact hStep.grows hOver rfl
  constructor
  · exact hGrows
  · intro s s' hOver hOver' hAlike hU hAhead
    have hHeld := (hGrows s hOver hU).1.trans hAhead
    obtain ⟨v, v', hv, hv', hStep⟩ := h s s' hOver hOver' hAlike hHeld hU
    rw [leave_congr hv] at hAhead
    rw [hv, hv']
    exact hStep.matched hOver hOver' hAlike rfl hAhead

theorem pure {a b : α} (hR : R a b) : InStep p base U (pure a) (pure b) R := by
  constructor
  · exact fun s hOver _ => ⟨.refl _, hOver⟩
  · exact fun s s' _ hOver' hAlike _ _ => ⟨hR, hAlike, hOver', .refl _⟩

theorem refuse (span : Span) (refusal : Refusal) :
    InStep p base U (Run.refuse span refusal) (Run.refuse span refusal) R := by
  constructor
  · exact fun s hOver _ => ⟨.refl _, hOver⟩
  · exact fun s s' _ _ _ _ _ => rfl

theorem bindRefuse (span : Span) (refusal : Refusal) :
    InStep p base U (Run.refuse span refusal >>= f) (Run.refuse span refusal >>= f') S := by
  constructor
  · exact fun s hOver _ => ⟨.refl _, hOver⟩
  · exact fun s s' _ _ _ _ _ => rfl

theorem bindRel {V : α → RunState → Prop} (h : InStep p base U u u' R)
    (hThen : ∀ s a t, U s → u s = .ok a t → s.types.Extends t.types → V a t)
    (hRefl : ∀ a, R a a)
    (hNext : ∀ a b, R a b → InStep p base (V a) (f a) (f' b) S) :
    InStep p base U (u >>= f) (u' >>= f') S := by
  constructor
  · intro s hOver hU
    obtain ⟨hFirst, hBetween⟩ := h.grows hOver hU
    cases hRun : u s with
    | error e t =>
      rw [leave_bind_of_error hRun]
      exact ⟨hFirst, hBetween⟩
    | ok a t =>
      rw [leave_of_ok hRun] at hFirst hBetween
      rw [leave_bind_of_ok hRun]
      have hV := hThen s a t hU hRun hFirst
      obtain ⟨hSecond, hEnd⟩ := (hNext a a (hRefl a)).grows hBetween hV
      exact ⟨hFirst.trans hSecond, hEnd⟩
  · intro s s' hOver hOver' hAlike hU hAhead
    obtain ⟨hSoon, hBetween⟩ := h.grows hOver hU
    cases hRun : u s with
    | error e t =>
      rw [leave_bind_of_error hRun] at hAhead
      have hFirst := h.matched hOver hOver' hAlike hU hAhead
      rw [hRun] at hFirst
      obtain ⟨cause, t', rfl, hRun'⟩ := hFirst.of_error
      rw [bind_of_error hRun, bind_of_error hRun']
      exact rfl
    | ok a t =>
      rw [leave_bind_of_ok hRun] at hAhead
      rw [leave_of_ok hRun] at hSoon hBetween
      have hV := hThen s a t hU hRun hSoon
      have hLater := ((hNext a a (hRefl a)).grows hBetween hV).1.trans hAhead
      have hFirst := h.matched hOver hOver' hAlike hU (by rwa [leave_of_ok hRun])
      rw [hRun] at hFirst
      obtain ⟨b, t', hRun', hR, hAlike', hOverT, hGrown⟩ := hFirst.of_ok
      rw [bind_of_ok hRun, bind_of_ok hRun']
      refine ((hNext a b hR).matched hBetween hOverT hAlike' hV (hAhead.trans hGrown)).mono ?_
      rintro c d w w' ⟨hS, hAlike'', hOverW, hGrown'⟩
      exact ⟨hS, hAlike'', hOverW, hGrown.trans hGrown'⟩

theorem bind {V : α → RunState → Prop} (h : InStep p base U u u' Eq)
    (hThen : ∀ s a t, U s → u s = .ok a t → s.types.Extends t.types → V a t)
    (hNext : ∀ a, InStep p base (V a) (f a) (f' a) S) :
    InStep p base U (u >>= f) (u' >>= f') S :=
  h.bindRel hThen (fun _ => rfl) fun a _ hSame => hSame ▸ hNext a

theorem bindKeep (h : InStep p base U u u' Eq) (hKeep : ∀ s t, U s → s.types.Extends t.types → U t)
    (hNext : ∀ a, InStep p base U (f a) (f' a) S) : InStep p base U (u >>= f) (u' >>= f') S :=
  h.bind (fun s _ t hU _ hGrown => hKeep s t hU hGrown) hNext

theorem bindFree (h : InStep p base U u u' Eq)
    (hNext : ∀ a, InStep p base (fun _ => True) (f a) (f' a) S) :
    InStep p base U (u >>= f) (u' >>= f') S :=
  h.bind (fun _ _ _ _ _ _ => trivial) hNext

/-- The answers need not be related if what follows works with any two of them. -/
theorem bindAny {V : α → RunState → Prop} (h : InStep p base U u u' fun _ _ => True)
    (hThen : ∀ s a t, U s → u s = .ok a t → s.types.Extends t.types → V a t)
    (hNext : ∀ a b, InStep p base (V a) (f a) (f' b) S) :
    InStep p base U (u >>= f) (u' >>= f') S :=
  h.bindRel hThen (fun _ => trivial) fun a b _ => hNext a b

theorem bindRead {x : Read α} (hOk : ∀ s, U s → ∃ a, x = .ok a)
    (hNext : ∀ a, x = .ok a → InStep p base U (f a) (f' a) S) :
    InStep p base U (liftM x >>= f) (liftM x >>= f') S := by
  cases x with
  | ok a => exact hNext a rfl
  | error reason =>
    constructor
    · intro s _ hU
      obtain ⟨_, h⟩ := hOk s hU
      cases h
    · intro s _ _ _ _ hU
      obtain ⟨_, h⟩ := hOk s hU
      cases h

theorem bindReads {x x' : Read α} {a b : α} (hOk : x = .ok a) (hOk' : x' = .ok b)
    (hNext : InStep p base U (f a) (f' b) S) :
    InStep p base U (liftM x >>= f) (liftM x' >>= f') S := by
  subst hOk hOk'
  exact hNext

theorem bindReadOk {x : Read α} {a : α} (hOk : x = .ok a)
    (hNext : InStep p base U (f a) (f' a) S) :
    InStep p base U (liftM x >>= f) (liftM x >>= f') S :=
  bindReads hOk hOk hNext

theorem bindGet {g g' : RunState → Run β} (h : ∀ s s', s.Over p base → s'.Over p base →
      s.Alike s' → s.types.Extends s'.types → U s →
        InStep p base (fun t => t = s) (g s) (g' s') S) :
    InStep p base U (get >>= g) (get >>= g') S :=
  pointwise fun s s' hOver hOver' hAlike hHeld hU =>
    ⟨g s, g' s', rfl, rfl, h s s' hOver hOver' hAlike hHeld hU⟩

theorem modify {change change' : RunState → RunState} (hTypes : ∀ s, (change s).types = s.types)
    (hTypes' : ∀ s, (change' s).types = s.types)
    (hAlike : ∀ s s', U s → s.Alike s' → (change s).Alike (change' s')) :
    InStep p base U (modify change) (modify change') Eq := by
  constructor
  · intro s hOver _
    refine ⟨?_, hOver.of_types_eq (hTypes s)⟩
    change s.types.Extends (change s).types
    rw [hTypes s]
    exact .refl _
  · intro s s' _ hOver' hBefore hU _
    refine ⟨rfl, hAlike s s' hU hBefore, hOver'.of_types_eq (hTypes' s'), ?_⟩
    rw [hTypes' s']
    exact .refl _

theorem log (line line' : LogLine) : InStep p base U (Run.log p line) (Run.log p line') Eq :=
  modify (fun _ => rfl) (fun _ => rfl) fun _ _ _ h =>
    ⟨h.instances, h.closures_eq, h.cache_eq, h.closureTable_eq, h.worklist_eq, h.stats_eq⟩

theorem bindLog {line line' : LogLine} {g g' : PUnit → Run β}
    (hKeep : ∀ s t, U s → Retyped p s t → U t) (hNext : InStep p base U (g ⟨⟩) (g' ⟨⟩) S) :
    InStep p base U (Run.log p line >>= g) (Run.log p line' >>= g') S := by
  refine (log line line').bind (V := fun _ => U) ?_ fun _ => hNext
  rintro s _ t hU hRun -
  cases hRun
  exact hKeep s _ hU ⟨.refl _, .refl _ _, rfl⟩

section Lists

variable {items : List α}

theorem mapM (h : ∀ item ∈ items, InStep p base U (f item) (f' item) Eq)
    (hKeep : ∀ item ∈ items, ∀ s b t, U s → f item s = .ok b t → s.types.Extends t.types → U t) :
    InStep p base U (items.mapM f) (items.mapM f') Eq := by
  induction items with
  | nil => exact pure rfl
  | cons item rest ih =>
    rw [List.mapM_cons, List.mapM_cons]
    refine (h item List.mem_cons_self).bind (V := fun _ => U)
      (fun s b t => hKeep item List.mem_cons_self s b t) fun b => ?_
    have hRest := ih (fun other hOther => h other (List.mem_cons_of_mem _ hOther))
      fun other hOther => hKeep other (List.mem_cons_of_mem _ hOther)
    exact hRest.bindFree fun others => pure rfl

theorem foldlM {step step' : β → α → Run β}
    (h : ∀ item ∈ items, ∀ acc, InStep p base U (step acc item) (step' acc item) Eq)
    (hKeep : ∀ item ∈ items, ∀ acc s b t, U s → step acc item s = .ok b t →
      s.types.Extends t.types → U t) (acc : β) :
    InStep p base U (items.foldlM step acc) (items.foldlM step' acc) Eq := by
  induction items generalizing acc with
  | nil => exact pure rfl
  | cons item rest ih =>
    rw [List.foldlM_cons, List.foldlM_cons]
    refine (h item List.mem_cons_self acc).bind (V := fun _ => U)
      (fun s b t => hKeep item List.mem_cons_self acc s b t) fun b => ?_
    exact ih (fun other hOther => h other (List.mem_cons_of_mem _ hOther))
      (fun other hOther => hKeep other (List.mem_cons_of_mem _ hOther)) b

theorem forM {step step' : α → Run PUnit}
    (h : ∀ item ∈ items, InStep p base U (step item) (step' item) Eq)
    (hKeep : ∀ item ∈ items, ∀ s b t, U s → step item s = .ok b t → s.types.Extends t.types → U t) :
    InStep p base U (items.forM step) (items.forM step') Eq := by
  induction items with
  | nil => exact pure rfl
  | cons item rest ih =>
    refine (h item List.mem_cons_self).bind (V := fun _ => U)
      (fun s b t => hKeep item List.mem_cons_self s b t) fun _ => ?_
    exact ih (fun other hOther => h other (List.mem_cons_of_mem _ hOther))
      fun other hOther => hKeep other (List.mem_cons_of_mem _ hOther)

end Lists

theorem bindInstance {id : InstanceId} {g g' : Instance → Run β}
    (hThere : ∀ s, U s → ∃ i, s.instances.get? id = some i)
    (hNext : ∀ i type, InStep p base (fun s => U s ∧ s.instances.get? id = some i) (g i)
      (g' { i with moduleType := type }) S) :
    InStep p base U (Run.readInstance id >>= g) (Run.readInstance id >>= g') S := by
  have hRead : ∀ {s : RunState} {i}, s.instances.get? id = some i →
      Run.readInstance id s = .ok i s := by
    intro s i hi
    refine bind_of_ok (t := s) rfl |>.trans ?_
    rw [(Arena.read_eq_ok_iff _ _ _).mpr hi]
    rfl
  refine pointwise fun s s' _ _ hAlike _ hU => ?_
  obtain ⟨i, hi⟩ := hThere s hU
  obtain ⟨_, hj, type, rfl⟩ := hAlike.instances.get? hi
  refine ⟨g i, g' { i with moduleType := type }, bind_of_ok (hRead hi), bind_of_ok (hRead hj), ?_⟩
  refine (hNext i type).weaken ?_ fun _ _ h => h
  rintro _ rfl
  exact ⟨hU, hi⟩

end InStep

end Specializer
