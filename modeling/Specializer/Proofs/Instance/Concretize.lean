import Specializer.Proofs.Instance.Legible

/-!
# Concrete types

Making a type concrete changes a run in its type store and its log only. The result is the strict
image of the type under the substitution. It is refused, or stops with a fault, only if the store is
not in order or the substitution leaves out a bound variable of the type. If the store is in order
and the type is there, it can only be refused.
-/

set_option autoImplicit false

namespace Specializer

namespace TypeStore

/-- The substitution maps every bound variable below `id`. -/
def Covers (s : TypeStore) (sub : Substitution) (id : TypeId) : Prop :=
  s.AllWithin (fun id node => node.isBound = true → (sub.get? id).isSome = true) (id.index + 1) id

theorem Covers.extend {s t : TypeStore} {sub : Substitution} {id : TypeId} (h : s.Covers sub id)
    (hExt : s.Extends t) : t.Covers sub id :=
  AllWithin.extend h hExt

theorem spellWithin_succeeds {symbols : SymbolTable} {s : TypeStore} {depth : Nat} {id : TypeId}
    (h : s.AllWithin (fun _ node => ∀ name ∈ node.names, ∃ text, symbols.name name = .ok text)
      depth id) : ∃ text, s.spellWithin symbols depth id = .ok text := by
  induction depth generalizing id with
  | zero => exact h.elim
  | succ depth ih =>
    obtain ⟨node, hNode, hNames, hParts⟩ := h
    rw [spellWithin]
    refine Read.exists_bind_eq_ok ⟨node, hNode⟩ fun other hOther => ?_
    cases hNode.symm.trans hOther
    cases node with
    | unit => exact ⟨_, rfl⟩
    | bool => exact ⟨_, rfl⟩
    | string => exact ⟨_, rfl⟩
    | number sort width => exact ⟨_, rfl⟩
    | indirect via target writable =>
      exact Read.exists_bind_eq_ok (ih (hParts target List.mem_cons_self)) fun _ _ => ⟨_, rfl⟩
    | function argument result effect =>
      refine Read.exists_bind_eq_ok (ih (hParts argument List.mem_cons_self)) fun _ _ => ?_
      refine Read.exists_bind_eq_ok (ih (hParts result ?_)) fun _ _ => ⟨_, rfl⟩
      exact List.mem_cons_of_mem _ List.mem_cons_self
    | tuple items =>
      refine Read.exists_bind_eq_ok (Read.exists_mapM_eq_ok fun item hItem => ?_)
        fun _ _ => ⟨_, rfl⟩
      refine ih (hParts item ?_)
      simp only [Node.components, Node.elements, List.map_map]
      exact List.mem_map.mpr ⟨item, hItem, rfl⟩
    | var binder name =>
      exact Read.exists_bind_eq_ok (hNames name List.mem_cons_self) fun _ _ => ⟨_, rfl⟩
    | composite shape fields =>
      cases fields with
      | nil => exact ⟨_, rfl⟩
      | cons first rest =>
        refine Read.exists_bind_eq_ok (Read.exists_mapM_eq_ok fun field hField => ?_)
          fun _ _ => ⟨_, rfl⟩
        have hInner := ih (hParts field.type (List.mem_map_of_mem hField))
        cases hName : field.name with
        | some name =>
          have hText := hNames name (List.mem_filterMap.mpr ⟨field, hField, hName⟩)
          exact Read.exists_bind_eq_ok hText fun _ _ =>
            Read.exists_bind_eq_ok hInner fun _ _ => ⟨_, rfl⟩
        | none =>
          exact Read.exists_bind_eq_ok ⟨_, rfl⟩ fun _ _ =>
            Read.exists_bind_eq_ok hInner fun _ _ => ⟨_, rfl⟩

theorem spellWithin_mono {symbols : SymbolTable} {s t : TypeStore} (hExt : s.Extends t)
    {depth depth' : Nat} (hDepth : depth ≤ depth') {id : TypeId} {text : String}
    (h : s.spellWithin symbols depth id = .ok text) :
    t.spellWithin symbols depth' id = .ok text := by
  induction depth generalizing depth' id text with
  | zero => cases h
  | succ depth ih =>
    cases depth' with
    | zero => cases hDepth
    | succ depth' =>
      have hInner : ∀ id text, s.spellWithin symbols depth id = .ok text →
          t.spellWithin symbols depth' id = .ok text :=
        fun _ _ => ih (Nat.le_of_succ_le_succ hDepth)
      rw [spellWithin] at h ⊢
      refine Read.bind_mono (fun _ h => hExt h) (fun node text h => ?_) h
      cases node with
      | indirect via target writable => exact Read.bind_mono (hInner target) (fun _ _ h => h) h
      | function argument result effect =>
        exact Read.bind_mono (hInner argument)
          (fun _ _ => Read.bind_mono (hInner result) fun _ _ h => h) h
      | tuple items =>
        exact Read.bind_mono (fun _ => Read.mapM_mono hInner) (fun _ _ h => h) h
      | composite shape fields =>
        cases fields with
        | nil => exact h
        | cons first rest =>
          refine Read.bind_mono (fun _ => Read.mapM_mono fun field text => ?_) (fun _ _ h => h) h
          cases field.name with
          | some name =>
            exact Read.bind_mono (fun _ h => h)
              fun _ _ => Read.bind_mono (hInner field.type) fun _ _ h => h
          | none =>
            exact Read.bind_mono (fun _ h => h)
              fun _ _ => Read.bind_mono (hInner field.type) fun _ _ h => h
      | _ => exact h

theorem spell_mono {symbols : SymbolTable} {s t : TypeStore} (hExt : s.Extends t) {id : TypeId}
    {text : String} (h : s.spell symbols id = .ok text) : t.spell symbols id = .ok text :=
  spellWithin_mono hExt (Nat.succ_le_succ hExt.size_le) h

theorem Sane.exists_spell {symbols : SymbolTable} {s : TypeStore} (hSane : s.Sane symbols)
    {id : TypeId} (hMinted : s.Minted id) : ∃ text, s.spell symbols id = .ok text := by
  have hAll := hSane.grounded.allWithin hMinted fun _ _ _ hNode => hSane.named hNode
  have hDepth : id.index + 1 ≤ s.depth := Nat.succ_le_succ (Nat.le_of_lt (minted_iff_lt.mp hMinted))
  exact spellWithin_succeeds (hAll.mono hDepth)

/-- In a grounded store a spelling cannot go on for ever, and only handles can be missing. -/
theorem Grounded.excused_spellWithin {s : TypeStore} (hGround : s.Grounded)
    (symbols : SymbolTable) {depth : Nat} {id : TypeId} (hPositive : 0 < depth)
    (hDepth : s.Minted id → id.index < depth) :
    (s.spellWithin symbols depth id).Excused False := by
  have hName : ∀ name, (symbols.name name).Excused False := fun name => .ofArena False.elim
  induction depth generalizing id with
  | zero => exact absurd hPositive (Nat.lt_irrefl 0)
  | succ depth ih =>
    rw [spellWithin]
    apply Read.Excused.bind (.ofArena False.elim)
    intro node hNode
    have hInner : ∀ part ∈ node.components, (s.spellWithin symbols depth part).Excused False := by
      intro part hPart
      have hLower := hGround hNode part hPart
      have hBound := hDepth ⟨node, hNode⟩
      exact ih (by omega) fun _ => by omega
    cases node with
    | indirect via target writable =>
      exact (hInner target List.mem_cons_self).bind fun _ _ => .pure _
    | function argument result effect =>
      apply (hInner argument List.mem_cons_self).bind
      intro _ _
      exact (hInner result (List.mem_cons_of_mem _ List.mem_cons_self)).bind fun _ _ => .pure _
    | tuple items =>
      apply Read.Excused.bind (.mapM fun item hItem => hInner item ?_) fun _ _ => .pure _
      simp only [Node.components, Node.elements, List.map_map]
      exact List.mem_map.mpr ⟨item, hItem, rfl⟩
    | var binder name => exact (hName name).bind fun _ _ => .pure _
    | composite shape fields =>
      cases fields with
      | nil => exact .pure _
      | cons first rest =>
        apply Read.Excused.bind (.mapM fun field hField => ?_) fun _ _ => .pure _
        have hType := hInner field.type (List.mem_map_of_mem hField)
        cases field.name with
        | some name => exact (hName name).bind fun _ _ => hType.bind fun _ _ => .pure _
        | none => exact Read.Excused.bind (.pure _) fun _ _ => hType.bind fun _ _ => .pure _
    | _ => exact .pure _

theorem Grounded.excused_spell {s : TypeStore} (hGround : s.Grounded) (symbols : SymbolTable)
    {id : TypeId} (hMinted : s.Minted id) :
    (s.spell symbols id).Excused (s.Named symbols) := by
  apply Read.Excused.of_cases
  · apply hGround.excused_spellWithin symbols (Nat.succ_pos _)
    exact fun _ => Nat.lt_succ_of_lt (minted_iff_lt.mp hMinted)
  · exact fun hNamed => Sane.exists_spell ⟨hGround, hNamed⟩ hMinted

end TypeStore

namespace Substitution

open TypeStore Update

variable {s : TypeStore} {sub : Substitution}

/-- In a grounded store a strict substitution into a minted type can only be refused. -/
theorem applyStrict_excused {id : TypeId} (hGround : s.Grounded) :
    (sub.applyStrict id).Ensures s (fun _ _ => True) (fun e _ => e.Excused (s.Minted id)) := by
  by_cases hMinted : s.Minted id
  · obtain ⟨vars, hVars⟩ := hGround.exists_occurrences hMinted
    apply (decidedBy_applyStrict hVars (Extends.refl s)).mono fun _ _ _ => trivial
    rintro _ _ ⟨var, rfl, -⟩
    trivial
  · -- The first thing that is done is to read the type.
    have hRead : (s.read id).Excused (s.Minted id) := .ofArena fun h => h
    unfold applyStrict applyAs
    apply Ensures.bindGet
    rw [show growingDepth s = (s.depth + 4294967295) + 1 from rfl, applyWithin]
    apply Ensures.bind (Q := fun _ _ => False) (F := fun e _ => e.Excused (s.Minted id))
    · apply Ensures.bindGet
      exact Ensures.read (fun node hNode => hMinted ⟨node, hNode⟩) hRead
    · exact fun _ _ => False.elim
    · exact fun _ _ h => h

theorem applyStrict_staysSane (symbols : SymbolTable) {id : TypeId}
    (hSub : ∀ var type, sub.get? var = some type → s.Minted type) :
    (sub.applyStrict id).Ensures s (fun image t => StaysSane symbols s t ∧ t.Minted image)
      (fun _ t => StaysSane symbols s t) := by
  unfold applyStrict applyAs
  refine Ensures.bindGet ((applyWithin_keeps (K := StaysSane symbols s) ?_ hSub
    (.refl symbols s) _ _).mono (fun _ _ h => h.2) fun _ _ h => h.2)
  intro t _ node parts hStays hNode _ hLength hMinted
  refine ⟨fun h => (hStays.grounded h).add ?_, fun h => (hStays.named h).add ?_⟩
  · rwa [node.components_withComponents parts hLength]
  · rw [node.names_withComponents parts hLength]
    exact hStays.named h hNode

theorem applyStrict_ensures (symbols : SymbolTable) {id : TypeId}
    (hSub : ∀ var type, sub.get? var = some type → s.Minted type) :
    (sub.applyStrict id).Ensures s
      (fun image t => s.Grown t ∧ StaysSane symbols s t ∧ t.Minted image ∧
        t.Image sub .strict id image)
      (fun e t => s.Grown t ∧ StaysSane symbols s t ∧ ¬s.Covers sub id ∧
        (s.Grounded → e.Excused (s.Minted id))) := by
  have hImage : (sub.applyStrict id).Ensures s
      (fun image t => s.Grown t ∧ t.Image sub .strict id image) (fun _ t => s.Grown t) :=
    Ensures.bindGet ((sub.applyWithin_ensures .strict (growingDepth s) id s).mono
      (fun _ _ h => ⟨h.1, _, h.2⟩) fun _ _ h => h)
  have hSucceeds : (sub.applyStrict id).Ensures s
      (fun _ _ => s.Covers sub id → True) (fun _ _ => ¬s.Covers sub id) := by
    refine Ensures.under fun h => Ensures.bindGet ?_
    have hLt := minted_iff_lt.mp (AllWithin.minted h)
    have hDepth : id.index + 1 ≤ growingDepth s := by
      unfold growingDepth TypeStore.depth
      omega
    exact (applyWithin_succeeds ((AllWithin.mono h hDepth).imp fun _ _ h _ => h)).mono
      (fun _ _ _ => trivial) fun _ _ h => h
  refine (((hImage.and (applyStrict_staysSane symbols hSub)).and hSucceeds).and
    (Ensures.under applyStrict_excused)).mono ?_ ?_
  · rintro image t ⟨⟨⟨⟨hGrown, hImage⟩, hStays, hMinted⟩, -⟩, -⟩
    exact ⟨hGrown, hStays, hMinted, hImage⟩
  · rintro e t ⟨⟨⟨hGrown, hStays⟩, hNot⟩, hExcused⟩
    exact ⟨hGrown, hStays, hNot, hExcused⟩

end Substitution

/-- `t` is `s` with more types and other log lines. -/
structure RunState.Retyped (p : Program) (s t : RunState) : Prop where
  added : s.types.Grown t.types
  stays : s.types.StaysSane p.symbols t.types
  rest : t = { s with types := t.types, log := t.log }

namespace RunState.Retyped

variable {p : Program} {s t u : RunState}

theorem refl (p : Program) (s : RunState) : Retyped p s s := ⟨.refl _, .refl _ _, rfl⟩

theorem grown (h : Retyped p s t) : s.types.Extends t.types := h.added.extension

theorem trans (hst : Retyped p s t) (htu : Retyped p t u) : Retyped p s u := by
  refine ⟨hst.added.trans htu.added, hst.stays.trans htu.stays, ?_⟩
  rw [htu.rest, hst.rest]

theorem instances_eq (h : Retyped p s t) : t.instances = s.instances := by rw [h.rest]

theorem cache_eq (h : Retyped p s t) : t.cache = s.cache := by rw [h.rest]

theorem closures_eq (h : Retyped p s t) : t.closures = s.closures := by rw [h.rest]

theorem worklist_eq (h : Retyped p s t) : t.worklist = s.worklist := by rw [h.rest]

theorem sane (h : Retyped p s t) (hSane : s.types.Sane p.symbols) : t.types.Sane p.symbols :=
  ⟨h.stays.grounded hSane.grounded, h.stays.named hSane.named⟩

theorem ordered (h : Retyped p s t) (hOrdered : p.Ordered s.types) : p.Ordered t.types :=
  ⟨hOrdered.parents, hOrdered.children, h.stays.grounded hOrdered.grounded⟩

theorem legible (h : Retyped p s t) (hLegible : p.Legible s.types) : p.Legible t.types where
  grounded := h.stays.grounded hLegible.grounded
  minted := hLegible.minted.extend h.grown (h.stays.named hLegible.minted.named)
  acyclic := hLegible.acyclic

theorem explained {ε : Type} {e : Failure ε} {known known' : Prop} (h : Retyped p s t)
    (hLater : e.Explained p t.types known') (hKnown : p.Legible s.types → known → known') :
    e.Explained p s.types known :=
  hLater.later h.ordered h.legible hKnown

end RunState.Retyped

namespace Run

open TypeStore Update RunState

theorem readInstance_ensures (id : InstanceId) (s : RunState) :
    (readInstance id).Ensures s (fun i t => t = s ∧ s.instances.get? id = some i)
      (fun _ t => t = s ∧ s.instances.get? id = none) := by
  refine Ensures.bindGet (Ensures.read (fun i hi => ⟨rfl, (Arena.read_eq_ok_iff _ _ _).mp hi⟩) ?_)
  intro reason hReason
  refine ⟨rfl, ?_⟩
  cases hGet : s.instances.get? id with
  | none => rfl
  | some i => cases ((Arena.read_eq_ok_iff _ _ _).mpr hGet).symm.trans hReason

theorem readInstance_of_get? {id : InstanceId} {s : RunState} {i : Instance}
    (hi : s.instances.get? id = some i) {fail : Failure InstantiationError → RunState → Prop} :
    (readInstance id).Ensures s (fun j t => i = j ∧ t = s) fail := by
  refine Ensures.bindGet (Ensures.read (fun j hj => ?_) fun reason hReason => ?_)
  · cases hi.symm.trans ((Arena.read_eq_ok_iff _ _ _).mp hj)
    exact ⟨rfl, rfl⟩
  · cases ((Arena.read_eq_ok_iff _ _ _).mpr hi).symm.trans hReason

theorem log_ensures (p : Program) (line : LogLine) (s : RunState)
    {fail : Failure InstantiationError → RunState → Prop} :
    (log p line).Ensures s (fun _ t => Retyped p s t ∧ t.types = s.types) fail :=
  ⟨⟨.refl _, .refl _ _, rfl⟩, rfl⟩

theorem traceNewTypes_ensures (p : Program) (before : Nat) (type : TypeId) (s : RunState) :
    (traceNewTypes p before type).Ensures s (fun _ t => Retyped p s t ∧ t.types = s.types)
      (fun e t => t = s ∧ (s.types.Minted type →
        ¬s.types.Sane p.symbols ∧ e.Explained p s.types True)) := by
  unfold traceNewTypes
  refine Ensures.bindGet ?_
  dsimp only
  split
  case isTrue =>
    refine Ensures.bindRead (fun text _ => log_ensures p _ s)
      fun reason hReason => ⟨rfl, fun hMinted => ⟨fun hSane => ?_, ?_⟩⟩
    · obtain ⟨text, hText⟩ := hSane.exists_spell hMinted
      cases hText.symm.trans hReason
    · refine .of_read hReason fun hOrdered => ?_
      apply (hOrdered.grounded.excused_spell p.symbols hMinted).mono
      exact fun hClean => hClean.1.minted.named
  case isFalse => exact ⟨.refl p s, rfl⟩

theorem concretize_ensures (p : Program) {sub : Substitution} {s : RunState} (type : TypeId)
    (span : Span) {context : Read TypeContext} (hContext : context.Excused False)
    (hSub : sub.ClosedIn s.types) :
    (concretize p sub type span context).Ensures s
      (fun image t => Retyped p s t ∧ t.types.Image sub .strict type image)
      (fun e t => Retyped p s t ∧ ¬(s.types.Sane p.symbols ∧ s.types.Covers sub type) ∧
        e.Explained p s.types (s.types.Minted type ∧ ∃ text, context = .ok text)) := by
  unfold concretize
  refine Ensures.bindGet ?_
  refine Ensures.bind (Q := fun image t => Retyped p s t ∧ t.types.Image sub .strict type image ∧
      t.types.Minted image) (Ensures.focus
    (Substitution.applyStrict_ensures p.symbols fun var type h => (hSub var type h).minted)
    ?_ ?_ ?_) ?_ fun _ _ h => h
  · rintro image types ⟨hGrown, hStays, hMinted, hImage⟩
    exact ⟨⟨hGrown, hStays, rfl⟩, hImage, hMinted⟩
  · rintro _ types ⟨hGrown, hStays, hNot, -⟩
    refine ⟨⟨hGrown, hStays, rfl⟩, fun h => hNot h.2, fun _ => ?_⟩
    exact Read.Excused.ofCause ((Read.Excused.of_cases hContext fun h => h.2.2).bind
      fun _ _ => .pure _)
  · rintro _ types ⟨hGrown, hStays, hNot, hExcused⟩
    refine ⟨⟨hGrown, hStays, rfl⟩, fun h => hNot h.2, fun hOrdered => ?_⟩
    exact Failure.Excused.mono (hExcused hOrdered.grounded) fun h => h.2.1
  · rintro image t ⟨hRetyped, hImage, hMinted⟩
    refine Ensures.bind (traceNewTypes_ensures p _ image t) ?_ ?_
    · rintro _ u ⟨hTraced, hSame⟩
      exact ⟨hRetyped.trans hTraced, by rwa [hSame]⟩
    · rintro _ u ⟨rfl, hFail⟩
      obtain ⟨hNot, hExplained⟩ := hFail hMinted
      exact ⟨hRetyped, fun h => hNot (hRetyped.sane h.1),
        hRetyped.explained hExplained fun _ _ => trivial⟩

end Run

end Specializer
