import Specializer.Proofs.Instance.Calls

/-!
# The limit on instances is a cut-off

The same program is run under two limits. As long as the second one leaves room, the two runs stay
in step: only a cache miss reads the limit, and it comes after the instances around the new one have
been found or made. So a limit either has no effect at all or ends the run at the first instance
beyond it.
-/

set_option autoImplicit false

namespace Specializer

open Update RunState

def Program.limited (p : Program) (limit : Nat) : Program :=
  { p with settings := { p.settings with
      limits := { p.settings.limits with maxInstances := limit } } }

namespace Run

variable {α β : Type} {p : Program} {limit : Nat} {s : RunState}

theorem create_limited : create (p.limited limit) = create p := rfl

/-- From `s` the second update does what the first one does, except that it is refused at the first
instance beyond the limit. -/
structure CutOff (limit : Nat) (u u' : Run α) (s : RunState) : Prop where
  grown : ∀ a t, u s = .ok a t → s.instances.size ≤ t.instances.size
  same : ∀ a t, u s = .ok a t → t.instances.size ≤ limit → u' s = .ok a t
  refused : ∀ a t, u s = .ok a t → s.instances.size ≤ limit → limit < t.instances.size →
    ∃ name span r, u' s = .error (.refused ⟨.tooManyInstances limit name, span⟩) r ∧
      r.instances.size = limit

namespace CutOff

theorem of_fails {u u' : Run α} (h : ∀ a t, u s ≠ .ok a t) : CutOff limit u u' s :=
  ⟨fun a t hRun => (h a t hRun).elim, fun a t hRun => (h a t hRun).elim,
    fun a t hRun => (h a t hRun).elim⟩

theorem refuse (span : Span) (refusal : Refusal) :
    CutOff limit (Run.refuse span refusal : Run α) (Run.refuse span refusal) s :=
  of_fails fun _ _ h => nomatch h

/-- What makes no instance is the same under every limit. -/
theorem of_level {u : Run α} {Q : α → RunState → Prop}
    {F : Failure InstantiationError → RunState → Prop} (h : u.Ensures s Q F)
    (hLevel : ∀ a t, Q a t → t.instances.size = s.instances.size) : CutOff limit u u s := by
  constructor
  · intro a t hRun
    exact Nat.le_of_eq (hLevel a t (h.of_ok hRun)).symm
  · exact fun a t hRun _ => hRun
  · intro a t hRun hUnder hOver
    have hSize := hLevel a t (h.of_ok hRun)
    omega

theorem pure (a : α) : CutOff limit (pure a) (pure a) s :=
  of_level (Q := fun _ t => t = s) (F := fun _ _ => False) rfl (by rintro _ _ rfl; rfl)

theorem of_made {u u' : Run α} (h : ∀ a t, u s = .ok a t → t.instances.size = s.instances.size + 1)
    (hFull : limit ≤ s.instances.size →
      ∃ name span, u' s = .error (.refused ⟨.tooManyInstances limit name, span⟩) s)
    (hFree : s.instances.size < limit → u' s = u s) : CutOff limit u u' s := by
  constructor
  · intro a t hRun
    have hSize := h a t hRun
    omega
  · intro a t hRun hUnder
    have hSize := h a t hRun
    exact (hFree (by omega)).trans hRun
  · intro a t hRun hUnder hOver
    have hSize := h a t hRun
    obtain ⟨name, span, hRefused⟩ := hFull (by omega)
    exact ⟨name, span, s, hRefused, by omega⟩

/-- Beyond the limit nothing is said about the second update. -/
theorem of_lt {u u' : Run α} (h : ∀ a t, u s = .ok a t → s.instances.size ≤ t.instances.size)
    (hOver : limit < s.instances.size) : CutOff limit u u' s := by
  constructor
  · exact h
  · intro a t hRun hUnder
    have hSize := h a t hRun
    omega
  · intro a t hRun hUnder
    omega

theorem congr {u u' v v' : Run α} (hSame : u s = v s) (hSame' : u' s = v' s)
    (h : CutOff limit v v' s) : CutOff limit u u' s :=
  ⟨by rw [hSame]; exact h.grown, by rw [hSame, hSame']; exact h.same,
    by rw [hSame, hSame']; exact h.refused⟩

theorem bind {u u' : Run α} {f f' : α → Run β} (h : CutOff limit u u' s)
    (hNext : ∀ a t, u s = .ok a t → CutOff limit (f a) (f' a) t) :
    CutOff limit (u >>= f) (u' >>= f') s := by
  constructor
  · intro b t hRun
    obtain ⟨a, r, hFirst, hRest⟩ := bind_eq_ok_iff.mp hRun
    exact (h.grown a r hFirst).trans ((hNext a r hFirst).grown b t hRest)
  · intro b t hRun hUnder
    obtain ⟨a, r, hFirst, hRest⟩ := bind_eq_ok_iff.mp hRun
    have hMade := (hNext a r hFirst).grown b t hRest
    have hFirst' := h.same a r hFirst (Nat.le_trans hMade hUnder)
    exact bind_eq_ok_iff.mpr ⟨a, r, hFirst', (hNext a r hFirst).same b t hRest hUnder⟩
  · intro b t hRun hUnder hOver
    obtain ⟨a, r, hFirst, hRest⟩ := bind_eq_ok_iff.mp hRun
    -- The limit is passed either in the first part or after it.
    by_cases hMiddle : r.instances.size ≤ limit
    · obtain ⟨name, span, stop, hRefused, hFull⟩ :=
        (hNext a r hFirst).refused b t hRest hMiddle hOver
      exact ⟨name, span, stop, by rw [bind_of_ok (h.same a r hFirst hMiddle), hRefused], hFull⟩
    · obtain ⟨name, span, stop, hRefused, hFull⟩ :=
        h.refused a r hFirst hUnder (Nat.not_le.mp hMiddle)
      exact ⟨name, span, stop, bind_of_error hRefused, hFull⟩

/-- What makes no instance may come first. -/
theorem after {u : Run α} {f f' : α → Run β} {Q : α → RunState → Prop}
    {F : Failure InstantiationError → RunState → Prop} (h : u.Ensures s Q F)
    (hLevel : ∀ a t, Q a t → t.instances.size = s.instances.size)
    (hNext : ∀ a t, Q a t → CutOff limit (f a) (f' a) t) :
    CutOff limit (u >>= f) (u >>= f') s :=
  (of_level h hLevel).bind fun a t hRun => hNext a t (h.of_ok hRun)

theorem afterRead {x : Read α} {f f' : α → Run β}
    (hNext : ∀ a, x = .ok a → CutOff limit (f a) (f' a) s) :
    CutOff limit (liftM x >>= f) (liftM x >>= f') s := by
  cases x with
  | ok a => exact hNext a rfl
  | error reason => exact of_fails fun _ _ h => nomatch h

theorem afterLook {u : Run α} {f f' : α → Run β} {R : α → Prop}
    {F : Failure InstantiationError → RunState → Prop}
    (h : u.Ensures s (fun a t => t = s ∧ R a) F)
    (hNext : ∀ a, R a → CutOff limit (f a) (f' a) s) : CutOff limit (u >>= f) (u >>= f') s := by
  apply after h
  · rintro _ _ ⟨rfl, -⟩
    rfl
  · rintro a _ ⟨rfl, hAnswer⟩
    exact hNext a hAnswer

theorem afterLog {line : LogLine} {f f' : PUnit → Run β}
    (hNext : ∀ t, Retyped p s t → CutOff limit (f ⟨⟩) (f' ⟨⟩) t) :
    CutOff limit (log p line >>= f) (log p line >>= f') s := by
  apply after (F := fun _ _ => False) (log_ensures p line s)
  · exact fun _ t h => congrArg Arena.size h.1.instances_eq
  · exact fun _ t h => hNext t h.1

theorem get {f f' : RunState → Run α} (h : CutOff limit (f s) (f' s) s) :
    CutOff limit (get >>= f) (get >>= f') s :=
  ⟨h.grown, h.same, h.refused⟩

theorem of_modify {change : RunState → RunState}
    (hLevel : (change s).instances.size = s.instances.size) :
    CutOff limit (modify change : Run PUnit) (modify change) s := by
  apply of_level (F := fun _ _ => False) (Ensures.modify (Q := fun _ t => t = change s) rfl)
  rintro _ _ rfl
  exact hLevel

theorem modify {change : RunState → RunState} {f f' : PUnit → Run α}
    (hLevel : (change s).instances.size = s.instances.size)
    (h : CutOff limit (f ⟨⟩) (f' ⟨⟩) (change s)) :
    CutOff limit (modify change >>= f) (modify change >>= f') s :=
  ⟨fun a r hRun => hLevel ▸ h.grown a r hRun, h.same,
    fun a r hRun hUnder => h.refused a r hRun (hLevel ▸ hUnder)⟩

theorem foldlM {f f' : β → α → Run β} {items : List α} {I : RunState → Prop}
    (hStep : ∀ a ∈ items, ∀ acc t, I t → CutOff limit (f acc a) (f' acc a) t)
    (hKeep : ∀ a ∈ items, ∀ acc t b u, I t → f acc a t = .ok b u → I u) (hInv : I s) (acc : β) :
    CutOff limit (items.foldlM f acc) (items.foldlM f' acc) s := by
  induction items generalizing acc s with
  | nil => exact pure acc
  | cons item rest ih =>
    rw [List.foldlM_cons, List.foldlM_cons]
    apply (hStep item List.mem_cons_self acc s hInv).bind
    intro b t hRun
    exact ih (fun a ha => hStep a (List.mem_cons_of_mem _ ha))
      (fun a ha => hKeep a (List.mem_cons_of_mem _ ha))
      (hKeep item List.mem_cons_self acc s b t hInv hRun) b

theorem forM {f f' : α → Run PUnit} {items : List α} {I : RunState → Prop}
    (hStep : ∀ a ∈ items, ∀ t, I t → CutOff limit (f a) (f' a) t)
    (hKeep : ∀ a ∈ items, ∀ t b u, I t → f a t = .ok b u → I u) (hInv : I s) :
    CutOff limit (items.forM f) (items.forM f') s := by
  induction items generalizing s with
  | nil => exact pure _
  | cons item rest ih =>
    apply (hStep item List.mem_cons_self s hInv).bind
    intro b t hRun
    exact ih (fun a ha => hStep a (List.mem_cons_of_mem _ ha))
      (fun a ha => hKeep a (List.mem_cons_of_mem _ ha))
      (hKeep item List.mem_cons_self s b t hInv hRun)

end CutOff

/-- A cache hit makes nothing. A miss makes one instance, which is where the limit counts. -/
theorem obtain_cutOff (name : String) (span : Span) {r : Request} {m : ModuleDecl}
    {actuals : List Argument} {key : Key} (hSound : Sound p s)
    (hResolves : Resolves p s r m actuals key) :
    CutOff limit (obtain p name span key actuals)
      (obtain (p.limited limit) name span key actuals) s := by
  cases hFind : s.cache.find? key with
  | some id =>
    apply CutOff.congr (obtain_of_hit name span actuals hFind)
      (obtain_of_hit name span actuals hFind)
    apply CutOff.modify (by rfl)
    apply CutOff.afterLook (readInstance_ensures id _)
    exact fun i _ => .afterLog fun t _ => .pure id
  | none =>
    by_cases hFull : p.settings.limits.maxInstances ≤ s.instances.size
    · apply CutOff.of_fails
      intro a t hRun
      cases (obtain_of_full name span actuals hFind hFull).symm.trans hRun
    · have hMiss := obtain_of_miss name span actuals hFind hFull
      apply CutOff.of_made
      · intro a t hRun
        obtain ⟨_, _, ⟨⟩, hRun⟩ := bind_eq_ok_iff.mp (hMiss.symm.trans hRun)
        obtain ⟨id, r, hCreate, ⟨⟩⟩ := bind_eq_ok_iff.mp hRun
        have hCreated := create_ensures (p := p) (s := { s with stats := { s.stats with
          misses := s.stats.misses + 1 } }) (hResolves.closedIn hSound)
          (fun outer => hResolves.parent.minted) fun type hType =>
            (hResolves.closed hSound hType).minted
        obtain ⟨u, _, i, closures, hRetyped, -, -, -, -, -, rfl, -⟩ := hCreated.of_ok hCreate
        change (u.instances.push i).size = _
        rw [Arena.size_push, hRetyped.instances_eq]
      · exact fun hOver => ⟨name, span, obtain_of_full name span actuals hFind hOver⟩
      · intro hFree
        rw [hMiss, obtain_of_miss name span actuals hFind (Nat.not_le.mpr hFree), create_limited]

theorem enclosing_cutOff {again again' : ModuleId → Span → Run InstanceId} (m : ModuleDecl)
    (name : String) {site : Option InstanceId} (span : Span) (hSound : Sound p s)
    (hSite : ∀ id, site = some id → ∃ i, s.instances.get? id = some i)
    (hAgain : ∀ outer span, CutOff limit (again outer span) (again' outer span) s) :
    CutOff limit (enclosing p again m name site span)
      (enclosing (p.limited limit) again' m name site span) s := by
  unfold enclosing
  cases m.parent with
  | none => exact .pure none
  | some outer =>
    apply CutOff.afterLook (findInChain_ensures hSound outer hSite)
    intro found _
    cases found with
    | some found => exact .pure _
    | none =>
      apply CutOff.afterRead
      intro plain _
      cases plain with
      | true =>
        apply CutOff.afterRead
        intro decl _
        exact (hAgain outer decl.span).bind fun _ t _ => .pure _
      | false => exact .refuse span _

theorem requestWithin_cutOff (depth : Nat) (r : Request) (span : Span) (hSound : Sound p s)
    (hSite : ∀ id, r.site = some id → ∃ i, s.instances.get? id = some i) :
    CutOff limit (requestWithin p depth r.target r.arguments r.site span)
      (requestWithin (p.limited limit) depth r.target r.arguments r.site span) s := by
  induction depth generalizing r span s with
  | zero => exact .of_fails (by rintro _ _ ⟨⟩)
  | succ depth ih =>
    unfold requestWithin
    apply CutOff.afterRead
    intro m hDecl
    apply CutOff.afterRead
    intro name _
    dsimp only
    split
    case isTrue => exact .of_fails (by rintro _ _ ⟨⟩)
    case isFalse hCount =>
      apply CutOff.afterLook (siteSubstitution_ensures hSite)
      intro site hSiteSub
      apply CutOff.after (newArguments_ensures name span (Decidable.of_not_not hCount)
        (hSiteSub.closed hSound)) fun _ _ h => congrArg Arena.size h.1.instances_eq
      rintro actuals t ⟨hRetyped, hFits, hGiven⟩
      have hSoundT := hSound.advance (.retyped hRetyped)
      rw [← hRetyped.instances_eq] at hSite hSiteSub
      cases hOwn : ownSubstitution m name (actuals.filterMap Argument.type?) with
      | error refusal => exact .of_fails (by rintro _ _ ⟨⟩)
      | ok own =>
        dsimp only
        rw [ownSubstitution_eq_ok hOwn, pure_bind, pure_bind]
        have hEnclosing := enclosing_ensures (C := False) name span hSoundT hSite hDecl
          fun outer _ span => (requestWithin_ensures p depth ⟨none, outer, []⟩ span hSoundT
            (by rintro _ ⟨⟩)).mono (fun _ _ h => h)
            fun _ _ h => ⟨h.1, fun _ => False.elim, False.elim⟩
        apply (enclosing_cutOff m name span hSoundT hSite fun outer span =>
          ih ⟨none, outer, []⟩ span hSoundT (by rintro _ ⟨⟩)).bind
        intro parent u hRun
        obtain ⟨hAdvances, -, hEncloses, -⟩ := hEnclosing.of_ok hRun
        have hGrows := hAdvances.steps.grows
        apply CutOff.afterLook (inherit_ensures hDecl _ fun outer => hEncloses.minted)
        intro sub hInherits
        apply obtain_cutOff name span (hSoundT.steps hAdvances.steps) (r := r) (m := m)
        exact ⟨hDecl, hFits, ⟨site, hSiteSub.keep hGrows.instances,
          hGiven.imp fun _ _ h => h.extend hGrows.types⟩, hEncloses, hInherits, rfl⟩

theorem request_cutOff (r : Request) (span : Span) (hSound : Sound p s)
    (hSite : ∀ id, r.site = some id → ∃ i, s.instances.get? id = some i) :
    CutOff limit (request p r.target r.arguments r.site span)
      (request (p.limited limit) r.target r.arguments r.site span) s :=
  requestWithin_cutOff _ r span hSound hSite

section Process

variable {id : InstanceId} {i : Instance}

theorem requestIn_cutOff (target : ModuleId) (arguments : List Argument) (span : Span)
    (hSound : Sound p s) (hi : s.instances.get? id = some i) :
    CutOff limit (request p target arguments (some id) span)
      (request (p.limited limit) target arguments (some id) span) s := by
  apply request_cutOff ⟨some id, target, arguments⟩ span hSound
  rintro _ ⟨⟩
  exact ⟨i, hi⟩

theorem resolve_cutOff (b : Binding) (init : ExprId) (hSound : Sound p s)
    (hi : s.instances.get? id = some i) :
    CutOff limit (resolve p id b init) (resolve (p.limited limit) id b init) s := by
  have hAlias : ∀ {t : RunState} {owner j} index span, Sound p t →
      t.instances.get? owner = some j →
      CutOff limit (fieldAlias p owner index b span) (fieldAlias p owner index b span) t := by
    intro t owner j index span hSoundT hj
    apply CutOff.of_level (fieldAlias_ensures hSoundT hj index b span)
    rintro _ _ ⟨rfl, -⟩
    rfl
  unfold resolve
  apply CutOff.afterRead
  intro e _
  split
  case h_1 => exact .pure _
  case h_2 =>
    apply CutOff.get
    split <;> exact .pure _
  case h_3 owner index _ =>
    apply CutOff.afterLook (owningInstance_ensures hSound hi owner e.span)
    intro found hNear
    obtain ⟨j, hj, -⟩ := hNear.exists_get
    exact hAlias index e.span hSound hj
  case h_4 target arguments field _ =>
    apply (requestIn_cutOff target arguments e.span hSound hi).bind
    intro made t hRun
    have hGranted := (requestIn_ensures hSound hi target arguments e.span).of_ok hRun
    obtain ⟨j, hj, -⟩ := hGranted.answers.source_eq
    apply CutOff.afterRead
    intro m _
    split
    · exact hAlias _ e.span (hSound.steps hGranted.advances.steps) hj
    · apply CutOff.afterLook (readInstance_ensures made t)
      exact fun _ _ => .afterRead fun _ _ => .refuse _ _
  case h_5 owner index _ =>
    apply CutOff.afterRead
    intro m _
    apply CutOff.afterRead
    intro name _
    apply CutOff.afterLook (owningInstance_ensures hSound hi owner e.span)
    intro found _
    apply CutOff.afterLook (readInstance_ensures found s)
    intro j _
    split
    · exact .pure _
    · exact .refuse _ _
  case h_6 => exact .pure _

theorem visitSite_cutOff (visit : ModuleTree.Visit) (hSound : Sound p s)
    (hi : s.instances.get? id = some i) :
    CutOff limit (visitSite p id visit) (visitSite (p.limited limit) id visit) s := by
  unfold visitSite
  apply CutOff.afterRead
  intro e _
  split
  · exact (requestIn_cutOff _ _ e.span hSound hi).bind fun _ t _ => .pure _
  · exact .pure _

theorem walkBelow_cutOff (init : ExprId) (hSound : Sound p s) (hi : s.instances.get? id = some i) :
    CutOff limit (p.tree.walkBelow (fun _ visit => visitSite p id visit) () init)
      (p.tree.walkBelow (fun _ visit => visitSite (p.limited limit) id visit) () init) s := by
  rw [ModuleTree.walkBelow_eq, ModuleTree.walkBelow_eq]
  apply CutOff.foldlM (I := fun t => Sound p t ∧ ∃ j, t.instances.get? id = some j)
  · rintro visit _ _ t ⟨hSoundT, j, hj⟩
    exact visitSite_cutOff visit hSoundT hj
  · rintro visit _ _ t _ u ⟨hSoundT, j, hj⟩ hRun
    have hSteps := ((visitSite_ensures hSoundT hj visit).of_ok hRun).1.works.steps
    obtain ⟨k, hk, -⟩ := hSteps.grows.instances hj
    exact ⟨hSoundT.steps hSteps, k, hk⟩
  · exact ⟨hSound, i, hi⟩

theorem processValue_cutOff (b : Binding) (index : Nat) (init : ExprId) (hSound : Sound p s)
    (hi : s.instances.get? id = some i) :
    CutOff limit (processValue p id b index init)
      (processValue (p.limited limit) id b index init) s := by
  unfold processValue
  apply (resolve_cutOff b init hSound hi).bind
  intro target t hRun
  have hSteps := ((resolve_ensures hSound hi b init).of_ok hRun).1.works.steps
  have hSoundT := hSound.steps hSteps
  obtain ⟨j, hj, -⟩ := hSteps.grows.instances hi
  apply CutOff.afterLook (readInstance_ensures id t)
  intro k _
  dsimp only
  split
  case h_1 field _ =>
    unfold setTarget
    apply CutOff.modify (Arena.size_modify _ _ _)
    apply walkBelow_cutOff init (hSoundT.reshape id (shell_resolve field target))
    · rw [Arena.get?_modify, if_pos rfl, hj]
      rfl
  case h_2 => exact walkBelow_cutOff init hSoundT hj

theorem processNested_cutOff (b : Binding) (nested : ModuleId) (hSound : Sound p s)
    (hi : s.instances.get? id = some i) :
    CutOff limit (processNested p id b nested) (processNested (p.limited limit) id b nested) s := by
  unfold processNested
  apply CutOff.afterRead
  intro n _
  split
  · apply (requestIn_cutOff nested [] b.span hSound hi).bind
    intro made t _
    exact .of_modify (Arena.size_modify _ _ _)
  · exact .pure _

theorem processBinding_cutOff (entry : Binding × Nat) (hSound : Sound p s)
    (hi : s.instances.get? id = some i) :
    CutOff limit (processBinding p id entry) (processBinding (p.limited limit) id entry) s := by
  unfold processBinding
  split
  case h_1 type init _ => exact processValue_cutOff entry.1 entry.2 init hSound hi
  case h_2 => exact .pure _
  case h_3 nested _ => exact processNested_cutOff entry.1 nested hSound hi

theorem process_cutOff (hSound : Sound p s) (hi : s.instances.get? id = some i) :
    CutOff limit (process p id) (process (p.limited limit) id) s := by
  obtain ⟨m, hFormed⟩ := hSound.formed hi
  unfold process
  apply CutOff.afterLook (readInstance_ensures id s)
  intro j hj
  cases hi.symm.trans hj
  apply CutOff.afterRead
  intro n hDecl
  apply CutOff.forM (I := fun t => Sound p t ∧ ∃ j, t.instances.get? id = some j ∧
    p.tree.readModule j.source = .ok n)
  · rintro entry _ t ⟨hSoundT, k, hk, -⟩
    exact processBinding_cutOff entry hSoundT hk
  · rintro entry hEntry t _ u ⟨hSoundT, k, hk, hSource⟩ hRun
    have hSteps := ((processBinding_ensures hSoundT hk hSource hEntry).of_ok hRun).works.steps
    obtain ⟨l, hl, hShell⟩ := hSteps.grows.instances hk
    refine ⟨hSoundT.steps hSteps, l, hl, ?_⟩
    rwa [Instance.source_eq_of_shell hShell]
  · exact ⟨hSound, i, hi, hDecl⟩

end Process

theorem round_cutOff {id : InstanceId} {rest : Queue InstanceId} (hSound : Sound p s)
    (hPop : s.worklist.pop? = some (id, rest)) :
    CutOff limit (round p id rest) (round (p.limited limit) id rest) s := by
  obtain ⟨i, hi⟩ := hSound.exists_of_pop hPop
  have hTaken : Sound p { s with worklist := rest } := hSound.step (.take hPop)
  unfold round
  apply CutOff.modify (by rfl)
  apply CutOff.afterLook (readInstance_ensures id _)
  intro j _
  apply CutOff.afterLog
  intro t hRetyped
  have hGet : t.instances.get? id = some i := by rwa [hRetyped.instances_eq]
  apply (process_cutOff (hTaken.advance (.retyped hRetyped)) hGet).bind
  exact fun _ u _ => .of_modify rfl

theorem drainWithin_cutOff (budget budget' : Nat) (hSound : Sound p s)
    (hBudget : s.instances.size ≤ limit →
      s.worklist.size + (limit - s.instances.size) ≤ budget') :
    CutOff limit (drainWithin p budget) (drainWithin (p.limited limit) budget') s := by
  induction budget generalizing budget' s with
  | zero =>
    cases hPop : s.worklist.pop? with
    | none =>
      exact .congr (drainWithin_of_empty hPop 0) (drainWithin_of_empty hPop budget') (.pure ())
    | some entry =>
      apply CutOff.of_fails
      intro a t h
      obtain ⟨_, _, ⟨⟩, h⟩ := bind_eq_ok_iff.mp h
      rw [hPop] at h
      cases h
  | succ budget ih =>
    cases hPop : s.worklist.pop? with
    | none =>
      exact .congr (drainWithin_of_empty hPop _) (drainWithin_of_empty hPop budget') (.pure ())
    | some entry =>
      obtain ⟨id, rest⟩ := entry
      have hSize := Queue.size_of_pop? hPop
      have hRound : ∀ budget',
          (s.instances.size ≤ limit → rest.size + (limit - s.instances.size) ≤ budget') →
          CutOff limit (drainWithin p (budget + 1))
            (drainWithin (p.limited limit) (budget' + 1)) s := by
        intro budget' hBudget'
        apply CutOff.congr (drainWithin_succ hPop budget) (drainWithin_succ hPop budget')
        have hFirst : CutOff limit (round p id rest) (round (p.limited limit) id rest) s :=
          round_cutOff hSound hPop
        apply hFirst.bind
        intro _ t hRun
        have hSteps := steps_round hSound hPop
        have hLess := remaining_of_round hSound hPop hRun
        rw [leave_of_ok hRun] at hSteps
        have hSoundT := hSound.steps hSteps
        apply ih _ hSoundT
        -- A round adds to the list as many instances as it makes.
        have hMade := hFirst.grown _ t hRun
        have hBounded := hSound.bounded
        have hBoundedT := hSoundT.bounded
        unfold remaining at hLess
        omega
      by_cases hOver : limit < s.instances.size
      · exact .of_lt (hRound 0 (by omega)).grown hOver
      · cases budget' with
        | zero => omega
        | succ budget' => exact hRound budget' (by omega)

theorem drain_cutOff (hSound : Sound p s) :
    CutOff limit (drain p) (drain (p.limited limit)) s := by
  unfold drain
  apply CutOff.get
  exact drainWithin_cutOff _ _ hSound fun _ => Nat.le_refl _

theorem finish_cutOff (root : InstanceId) (hSound : Sound p s) :
    CutOff limit (finish p root) (finish (p.limited limit) root) s := by
  unfold finish
  apply (drain_cutOff hSound).bind
  intro _ t _
  have hReport : ∀ warnings, (report p root warnings).Ensures t
      (fun _ u => u.instances = t.instances) (fun _ _ => True) :=
    fun warnings => (report_ensures root warnings).mono (fun _ _ h => h.1.instances_eq)
      fun _ _ h => h
  apply CutOff.of_level (Q := fun _ u => u.instances = t.instances) (F := fun _ _ => True)
  · dsimp only
    split
    · exact Ensures.bindGet (Ensures.bindRead (fun warnings _ => hReport warnings)
        fun _ _ => trivial)
    · exact hReport []
  · exact fun _ _ h => congrArg Arena.size h

theorem complete_cutOff (root : ModuleId) (hSound : Sound p s) :
    CutOff limit (complete p root) (complete (p.limited limit) root) s := by
  unfold complete
  apply CutOff.bind
  · unfold instantiate
    apply CutOff.afterRead
    exact fun m _ => request_cutOff ⟨none, root, []⟩ m.span hSound (by rintro _ ⟨⟩)
  · intro id t hRun
    have hGranted := (instantiate_ensures p root [] hSound).of_ok hRun
    exact finish_cutOff id (hSound.steps hGranted.advances.steps)

theorem complete_instances {root : ModuleId} {types : TypeStore} {out : Output} {t : RunState}
    (h : complete p root (.start types) = .ok out t) : out.instances = t.instances := by
  obtain ⟨-, hReports, -⟩ := (complete_ensures p root types).of_ok h
  exact hReports.instances

end Run

open Run in
/-- The limit on instances decides whether a run comes to its end, and nothing else: every limit
that leaves room for its instances gives the same result and the same last state, and every lower
one is reached and named in the refusal. No limit is ever passed. -/
theorem complete_limited (p : Program) (types : TypeStore) :
    (∀ root out t limit, complete p root (.start types) = .ok out t →
      (out.instances.size ≤ limit → complete (p.limited limit) root (.start types) = .ok out t) ∧
      (limit < out.instances.size → ∃ name span r,
        complete (p.limited limit) root (.start types) =
          .error (.refused ⟨.tooManyInstances limit name, span⟩) r ∧ r.instances.size = limit)) ∧
    (∀ calls, (RunState.after p calls (.start types)).instances.size ≤
      p.settings.limits.maxInstances) ∧
    ∀ root, ((complete p root).leave (.start types)).instances.size ≤
      p.settings.limits.maxInstances := by
  refine ⟨?_, ?_, ?_⟩
  · intro root out t limit hRun
    have hCutOff : CutOff limit (complete p root) (complete (p.limited limit) root)
        (.start types) := complete_cutOff root (.start p types)
    rw [complete_instances hRun]
    exact ⟨hCutOff.same out t hRun, hCutOff.refused out t hRun (Nat.zero_le _)⟩
  · intro calls
    exact (Sound.after_start p types calls).bounded
  · intro root
    have hSteps := ((complete_ensures p root types).mono (fun _ _ h => h.1) fun _ _ h => h.1).leave
    exact ((Sound.start p types).steps hSteps).bounded

/-- The main module, its box and the cell in it need room for three. -/
theorem complete_main_limited : ∃ out t, out.instances.size = 3 ∧
    Run.complete Sample.program ⟨2⟩ (.start Sample.types) = .ok out t ∧
    Run.complete (Sample.program.limited 3) ⟨2⟩ (.start Sample.types) = .ok out t ∧
    ∃ name span r, Run.complete (Sample.program.limited 2) ⟨2⟩ (.start Sample.types) =
      .error (.refused ⟨.tooManyInstances 2 name, span⟩) r ∧ r.instances.size = 2 := by
  obtain ⟨out, t, hRun⟩ := Update.exists_of_succeeds
    (show (Run.complete Sample.program ⟨2⟩).succeeds (.start Sample.types) = true by decide +kernel)
  have hLast : ((Run.complete Sample.program ⟨2⟩).leave (.start Sample.types)).instances.size =
      3 := by decide +kernel
  have hSize : out.instances.size = 3 := by
    rwa [Update.leave_of_ok hRun, ← Run.complete_instances hRun] at hLast
  obtain ⟨hLimits, -⟩ := complete_limited Sample.program Sample.types
  exact ⟨out, t, hSize, hRun, (hLimits ⟨2⟩ out t 3 hRun).1 (Nat.le_of_eq hSize),
    (hLimits ⟨2⟩ out t 2 hRun).2 (by omega)⟩

end Specializer
