import Specializer.Proofs.Instance.Rounds

/-!
# Every run comes to an end

The loop over the work-list adds to the list while it runs, and a program may ask for instances of
instances without end. The limit stops it: the loop has at most as many rounds as the limit allows
instances, over all calls together. Inside a round all recursions go down in some table, so a bound
on their depth that is above the handle they start from changes nothing.
-/

set_option autoImplicit false

namespace Specializer

open TypeStore Update RunState ModuleTree

/-- The run ends from `s`: with an answer, with a refusal, or, unless `clean`, at a handle that
nobody was given. -/
def Run.Ends {α : Type} (clean : Prop) (run : Run α) (s : RunState) : Prop :=
  (∃ a t, run s = .ok a t) ∨ (∃ cause t, run s = .error (.refused cause) t) ∨
    ¬clean ∧ ∃ t, run s = .error (.fault .unminted) t

theorem Run.ends_of_explained {p : Program} {known clean : Prop} {α : Type} {run : Run α}
    {s : RunState} (h : run.Ensures s (fun _ _ => True) fun e _ => e.Explained p s.types known)
    (hOrdered : p.Ordered s.types) (hClean : clean → p.AllMinted s.types ∧ known) :
    Ends clean run s := by
  cases hRun : run s with
  | ok a t => exact .inl ⟨a, t, hRun⟩
  | error e t =>
    have hExcused : e.Excused clean := (h.of_error hRun hOrdered).mono fun hNow =>
      ⟨hOrdered.legible (hClean hNow).1, (hClean hNow).2⟩
    cases e with
    | refused cause => exact .inr (.inl ⟨cause, t, hRun⟩)
    | fault reason =>
      obtain ⟨rfl, hNot⟩ := hExcused
      exact .inr (.inr ⟨hNot, t, hRun⟩)

theorem Update.liftM_ok_bind {σ ε α β : Type} (a : α) (f : α → Update σ ε β) :
    (liftM (Except.ok a : Read α) >>= f) = f a := rfl

namespace ModuleTree

variable {t : ModuleTree}

/-- A walk that may go deeper than the handle it starts from is a walk without a bound. -/
theorem ChildrenFirst.visitsWithin_eq (hChildren : t.ChildrenFirst) {depth depth' : Nat}
    {id : ExprId} (hDepth : id.index < depth) (hDepth' : id.index < depth') :
    t.visitsWithin depth id = t.visitsWithin depth' id := by
  induction depth generalizing depth' id with
  | zero => exact absurd hDepth (Nat.not_lt_zero _)
  | succ depth ih =>
    cases depth' with
    | zero => exact absurd hDepth' (Nat.not_lt_zero _)
    | succ depth' =>
      rw [visitsWithin, visitsWithin]
      cases hExpr : t.readExpr id with
      | error reason => rfl
      | ok e =>
        have hSame : e.kind.children.flatMap (t.visitsWithin depth) =
            e.kind.children.flatMap (t.visitsWithin depth') := by
          apply List.flatMap_congr
          intro child hChild
          have hLower := hChildren hExpr hChild
          exact ih (by omega) (by omega)
        simp only [hSame]

theorem ChildrenFirst.visitsWithin_eq_visits (hChildren : t.ChildrenFirst) {depth : Nat}
    {id : ExprId} (hDepth : id.index < depth) : t.visitsWithin depth id = t.visits id := by
  cases hExpr : t.readExpr id with
  | ok e =>
    exact hChildren.visitsWithin_eq hDepth (Nat.lt_succ_of_lt (Arena.lt_of_read hExpr))
  | error reason =>
    obtain ⟨depth, rfl⟩ := Nat.exists_eq_add_of_lt hDepth
    rw [visits, visitsWithin, visitsWithin, hExpr]

end ModuleTree

namespace Run

variable {p : Program}

theorem enclosing_congr {again again' : ModuleId → Span → Run InstanceId} {m : ModuleDecl}
    (h : ∀ outer, m.parent = some outer → again outer = again' outer) (name : String)
    (site : Option InstanceId) (span : Span) :
    enclosing p again m name site span = enclosing p again' m name site span := by
  unfold enclosing
  cases hParent : m.parent with
  | none => rfl
  | some outer => simp only [h outer hParent]

/-- Only the parent of the target is requested in turn, and it is older. -/
theorem requestWithin_eq (hParents : p.tree.ParentsFirst) {depth depth' : Nat} {target : ModuleId}
    (hDepth : target.index < depth) (hDepth' : target.index < depth') (arguments : List Argument)
    (site : Option InstanceId) (span : Span) :
    requestWithin p depth target arguments site span =
      requestWithin p depth' target arguments site span := by
  induction depth generalizing depth' target arguments site span with
  | zero => exact absurd hDepth (Nat.not_lt_zero _)
  | succ depth ih =>
    cases depth' with
    | zero => exact absurd hDepth' (Nat.not_lt_zero _)
    | succ depth' =>
      rw [requestWithin, requestWithin]
      cases hDecl : p.tree.readModule target with
      | error reason => rfl
      | ok m =>
        have hAgain : ∀ outer, m.parent = some outer →
            (fun span => requestWithin p depth outer [] none span) =
              fun span => requestWithin p depth' outer [] none span := by
          intro outer hOuter
          funext span
          have hLower := hParents hDecl hOuter
          exact ih (by omega) (by omega) [] none span
        have hSame : ∀ name,
            enclosing p (fun outer span => requestWithin p depth outer [] none span) m name site
              span =
            enclosing p (fun outer span => requestWithin p depth' outer [] none span) m name site
              span := fun name => enclosing_congr hAgain name site span
        rw [Update.liftM_ok_bind, Update.liftM_ok_bind]
        simp only [hSame]

theorem requestWithin_eq_request (hParents : p.tree.ParentsFirst) {depth : Nat} {target : ModuleId}
    (hDepth : target.index < depth) (arguments : List Argument) (site : Option InstanceId)
    (span : Span) :
    requestWithin p depth target arguments site span = request p target arguments site span := by
  unfold request
  cases hDecl : p.tree.readModule target with
  | ok m =>
    exact requestWithin_eq hParents hDepth (Nat.lt_succ_of_lt (Arena.lt_of_read hDecl)) _ _ _
  | error reason =>
    obtain ⟨depth, rfl⟩ := Nat.exists_eq_add_of_lt hDepth
    rw [requestWithin, requestWithin, hDecl]
    rfl

end Run

/-- From `s` the loop over the work-list ends, and so does every recursion in it: an answer that is
there at some depth is there at every greater one. -/
structure RunState.Terminates (p : Program) (types : TypeStore) (s : RunState) : Prop where
  drain : Run.Ends (p.AllMinted types) (Run.drain p) s
  rounds : ∃ phases, Rounds p s phases (Run.drain p s) ∧
    ∀ budget, phases.length ≤ budget → Run.drainWithin p budget s = Run.drain p s
  request : ∀ (r : Request) span, (∀ id, r.site = some id → ∃ i, s.instances.get? id = some i) →
    Run.Ends (p.AllMinted types ∧ r.Minted p s.types)
      (Run.request p r.target r.arguments r.site span) s ∧
    ∀ depth, r.target.index < depth → Run.requestWithin p depth r.target r.arguments r.site span =
      Run.request p r.target r.arguments r.site span
  chain : ∀ source start, (∀ id, start = some id → ∃ i, s.instances.get? id = some i) →
    ∃ found, Run.findInChain start source s = .ok found s ∧
      ∀ depth, (∀ id, start = some id → id.index < depth) →
        Run.findInChainWithin s.instances source depth start = .ok found
  walk : ∀ {β : Type} (step : β → Visit → Run β) acc init depth, init.index < depth →
    p.tree.walkWithin step depth acc init = p.tree.walk step acc init
  closures : ∀ id m sub owner, p.tree.readModule id = .ok m → sub.ClosedIn s.types →
    Run.Ends (p.AllMinted types) (Run.newShells p sub owner m) s
  sites : ∀ id i init, s.instances.get? id = some i →
    Run.Ends (p.AllMinted types ∧ ∃ e, p.tree.readExpr init = .ok e)
      (p.tree.walkBelow (fun _ visit => Run.visitSite p id visit) () init) s

theorem Sound.findInChain_eq {p : Program} {s : RunState} (hSound : Sound p s) (source : ModuleId)
    {start : Option InstanceId}
    (hStart : ∀ id, start = some id → ∃ i, s.instances.get? id = some i) :
    ∃ found, Run.findInChain start source s = .ok found s ∧
      ∀ depth, (∀ id, start = some id → id.index < depth) →
        Run.findInChainWithin s.instances source depth start = .ok found := by
  obtain ⟨found, _, hRun, rfl, hNear⟩ := (Run.findInChain_ensures hSound source hStart).exists_ok
  refine ⟨found, hRun, fun depth hDepth => ?_⟩
  obtain ⟨other, hOther⟩ :=
    hSound.exists_findInChainWithin source fun id hId => ⟨hDepth id hId, hStart id hId⟩
  rw [hOther, (findInChainWithin_nearest hOther).unique hNear]

theorem Sound.terminates {p : Program} {types : TypeStore} {s : RunState} (hSound : Sound p s)
    (hOrdered : p.Ordered s.types) (hMinted : p.AllMinted types → p.AllMinted s.types) :
    s.Terminates p types where
  drain := by
    apply Run.ends_of_explained _ hOrdered fun h => ⟨hMinted h, trivial⟩
    exact (Run.drain_ensures hSound).mono (fun _ _ _ => trivial) fun _ _ h => h.2.2
  rounds := by
    obtain ⟨phases, hRounds⟩ := Run.exists_rounds _ hSound (Nat.le_refl _)
    exact ⟨phases, hRounds, fun budget hBudget => hRounds.drainWithin_eq hBudget⟩
  request r span hSite := by
    constructor
    · apply Run.ends_of_explained _ hOrdered fun h => ⟨hMinted h.1, h.2⟩
      exact (Run.request_ensures p r span hSound hSite).mono (fun _ _ _ => trivial)
        fun _ _ h => h.2.2
    · exact fun depth hDepth => Run.requestWithin_eq_request hOrdered.parents hDepth _ _ _
  chain source start hStart := hSound.findInChain_eq source hStart
  walk step acc init depth hDepth := by
    rw [p.tree.walkWithin_eq, p.tree.walk_eq, hOrdered.children.visitsWithin_eq_visits hDepth]
  closures id m sub owner hDecl hSub := by
    have hExplained := (Run.newShells_ensures (p := p) owner m hSub).mono (fun _ _ _ => trivial)
      fun _ _ h => h.2.2
    exact Run.ends_of_explained hExplained hOrdered fun h => ⟨hMinted h, id, hDecl⟩
  sites id i init hi := by
    apply Run.ends_of_explained _ hOrdered fun h => ⟨hMinted h.1, h.2⟩
    rw [p.tree.walkBelow_eq]
    exact (Run.visitSites_ensures hSound hi _).mono (fun _ _ _ => trivial)
      fun _ _ h => h.2.2 init fun _ => List.mem_of_mem_tail

/-- If modules come after their parents and expressions after their parts, then every loop over the
work-list ends, whatever the program asks for. All loops together have at most as many rounds as the
limit allows instances. -/
theorem after_terminates (p : Program) (hParents : p.tree.ParentsFirst)
    (hChildren : p.tree.ChildrenFirst) {types : TypeStore} (hTypes : types.Grounded)
    (calls : List Call) :
    (RunState.after p calls (.start types)).Terminates p types ∧
    (∃ phases, Life p (.start types) (calls ++ [.drain]) phases) ∧
    ∀ phases, Life p (.start types) (calls ++ [.drain]) phases →
      (popped phases).length ≤ p.settings.limits.maxInstances := by
  have hSound := Sound.start p types
  have hOrdered : p.Ordered (RunState.start types).types := ⟨hParents, hChildren, hTypes⟩
  have hSteps := hSound.steps_after calls
  refine ⟨(hSound.after calls).terminates (hSteps.ordered hOrdered)
    fun h => (hSteps.legible (hOrdered.legible h)).minted, Life.exists_phases hSound _,
    fun phases hLife => ?_⟩
  have hStart : (RunState.start types).QueuedFrom 0 := ⟨rfl, rfl⟩
  obtain ⟨n, hPopped, hCount, -⟩ := hLife.popped_eq hSound hStart
  have hBounded := (hSound.after (calls ++ [.drain])).bounded
  rw [hPopped, List.length_map, List.length_range']
  omega

namespace Nest

/-! A module that asks for itself at a larger type each time. -/

def symbols : SymbolTable :=
  ["Nest", "T", "next"].foldl (fun table name => (table.intern name).2) .empty

def calls : List TypeCall := [.add (.var .bound ⟨1⟩), .add (.tuple [⟨13⟩])]

def types : TypeStore := initial.after calls

def nest : ModuleDecl :=
  ⟨⟨0⟩, .origin, none, [⟨⟨1⟩, .origin, .type ⟨13⟩⟩], ⟨[⟨13⟩], ⟨0⟩⟩,
    [⟨⟨2⟩, .origin, .value ⟨0⟩ ⟨0⟩⟩]⟩

def tree : ModuleTree := ⟨⟨#[nest]⟩, ⟨#[⟨.site ⟨0⟩ [.type ⟨14⟩] ⟨2⟩, .origin, ⟨0⟩⟩]⟩⟩

def program (limit : Nat) : Program :=
  ⟨tree, symbols, { Settings.silent with limits := { Settings.silent.limits with
    maxInstances := limit } }⟩

theorem parentsFirst : tree.ParentsFirst
  | ⟨0⟩, _, _, hDecl, hParent => nomatch (Except.ok.inj hDecl) ▸ hParent
  | ⟨_ + 1⟩, _, _, hDecl, _ => nomatch hDecl

theorem childrenFirst : tree.ChildrenFirst
  | ⟨0⟩, _, _, hExpr, hChild => nomatch (Except.ok.inj hExpr) ▸ hChild
  | ⟨_ + 1⟩, _, _, hExpr, _ => nomatch hExpr

theorem built : types.Built := ⟨calls, by decide +kernel, rfl⟩

/-- With a limit of three instances the loop fails, and three rounds is all that there are. -/
theorem nest_terminates : tree.ParentsFirst ∧ tree.ChildrenFirst ∧ types.Grounded ∧
    (RunState.after (program 3) [.instantiate ⟨0⟩ [.type ⟨5⟩]] (.start types)).Terminates
      (program 3) types ∧
    (Run.drain (program 3)).succeeds
      (RunState.after (program 3) [.instantiate ⟨0⟩ [.type ⟨5⟩]] (.start types)) = false ∧
    ∃ phases, Life (program 3) (.start types) [.instantiate ⟨0⟩ [.type ⟨5⟩], .drain] phases ∧
      (popped phases).length ≤ 3 := by
  obtain ⟨hEnds, ⟨phases, hLife⟩, hCount⟩ := after_terminates (program 3) parentsFirst childrenFirst
    built.grounded [.instantiate ⟨0⟩ [.type ⟨5⟩]]
  exact ⟨parentsFirst, childrenFirst, built.grounded, hEnds, by decide +kernel, phases, hLife,
    hCount phases hLife⟩

end Nest

end Specializer
