import Specializer.Proofs.Substitution.Repeated

/-!
# Opening a scheme and solving it

Without actual types a scheme is opened with new free variables, which are the next handles of the
store and so meet nothing that was there. Putting types in their place afterwards is the same as
instantiating with these types at once: the two substitutions compose to the direct one on every
variable that the body can mention, and a body without module types has one handle for each result.
-/

set_option autoImplicit false

namespace Specializer

open TypeStore Update

namespace Substitution

variable {keys fresh values : List TypeId} {key new : TypeId}

def pairing (keys values : List TypeId) : Substitution := .ofPairs (keys.zip values)

theorem isSome_get?_pairing (hLength : values.length = keys.length) :
    ((pairing keys values).get? key).isSome = true ↔ key ∈ keys := by
  rw [pairing, isSome_get?_ofPairs_iff, List.map_fst_zip (Nat.le_of_eq hLength.symm)]

theorem get?_pairing_eq_none_iff (hLength : values.length = keys.length) :
    (pairing keys values).get? key = none ↔ key ∉ keys := by
  rw [← Option.not_isSome_iff_eq_none, isSome_get?_pairing hLength]

theorem mem_of_get?_pairing {value : TypeId} (hGet : (pairing keys values).get? key = some value) :
    value ∈ values :=
  (List.of_mem_zip (mem_of_get?_ofPairs hGet)).2

theorem get?_pairing_of_mem (hDistinct : keys.Nodup) (hLength : values.length = keys.length)
    {value : TypeId} (hMem : (key, value) ∈ keys.zip values) :
    (pairing keys values).get? key = some value := by
  refine get?_ofPairs_of_mem ?_ hMem
  rwa [List.map_fst_zip (Nat.le_of_eq hLength.symm)]

theorem get?_ofPairs_map {α : Type} (items : List α) (name value : α → TypeId) :
    (ofPairs (items.map fun item => (name item, value item))).get? key =
      (items.reverse.find? fun item => decide (name item = key)).map value := by
  rw [get?_ofPairs, ← List.map_reverse, List.find?_map, Option.map_map]
  rfl

theorem get?_pairing_both (keys : List TypeId) {left right : List TypeId}
    (hLength : left.length = right.length) (key : TypeId) :
    ∃ found : Option (TypeId × TypeId), (∀ pair ∈ found, pair ∈ left.zip right) ∧
      (pairing keys left).get? key = found.map Prod.fst ∧
      (pairing keys right).get? key = found.map Prod.snd := by
  have hLeft : keys.zip left = (keys.zip (left.zip right)).map fun item => (item.1, item.2.1) := by
    conv_lhs => rw [← List.map_fst_zip (Nat.le_of_eq hLength)]
    exact List.zip_map_right
  have hRight : keys.zip right =
      (keys.zip (left.zip right)).map fun item => (item.1, item.2.2) := by
    conv_lhs => rw [← List.map_snd_zip (Nat.le_of_eq hLength.symm)]
    exact List.zip_map_right
  refine ⟨((keys.zip (left.zip right)).reverse.find? fun item => decide (item.1 = key)).map
    Prod.snd, fun pair hPair => ?_, ?_, ?_⟩
  · obtain ⟨item, hFind, rfl⟩ := Option.map_eq_some_iff.mp (Option.mem_def.mp hPair)
    exact (List.of_mem_zip (List.mem_reverse.mp (List.mem_of_find?_eq_some hFind))).2
  · rw [pairing, hLeft, get?_ofPairs_map, Option.map_map]
    rfl
  · rw [pairing, hRight, get?_ofPairs_map, Option.map_map]
    rfl

theorem get?_pairing_through (hDistinct : fresh.Nodup) (hFresh : fresh.length = keys.length)
    (hValues : values.length = keys.length) (hGet : (pairing keys fresh).get? key = some new) :
    ∃ value, (pairing keys values).get? key = some value ∧
      (pairing fresh values).get? new = some value := by
  have hLength : values.length = fresh.length := hValues.trans hFresh.symm
  obtain ⟨found, hZip, hLeft, hRight⟩ := get?_pairing_both keys hLength.symm key
  obtain ⟨⟨_, value⟩, rfl, rfl⟩ := Option.map_eq_some_iff.mp (hLeft.symm.trans hGet)
  exact ⟨value, hRight, get?_pairing_of_mem hDistinct hLength (hZip _ rfl)⟩

/-- Pairing keys with new variables, and these with values, comes to pairing the keys with the
values, apart from what it does to the new variables themselves. -/
theorem composedFrom_pairing {w : TypeStore} (hDistinct : fresh.Nodup)
    (hFresh : fresh.length = keys.length) (hValues : values.length = keys.length)
    (hFree : ∀ free ∈ fresh, ∃ name, w.read free = .ok (.var .free name)) :
    ComposedFrom w (pairing fresh values) (pairing keys fresh).entries
      ((pairing fresh values).extend (pairing keys values)) := by
  constructor
  · intro var free hMem
    have hGet := (get?_eq_some_iff _).mpr hMem
    obtain ⟨value, hTarget, hSolved⟩ := get?_pairing_through hDistinct hFresh hValues hGet
    obtain ⟨name, hName⟩ := hFree free (mem_of_get?_pairing hGet)
    refine ⟨value, ?_, 1, _, hName, .inl ⟨rfl, .inl hSolved⟩⟩
    rw [get?_extend, hTarget, Option.some_or]
  · intro var hVar
    have hNone : (pairing keys values).get? var = none := by
      rw [get?_pairing_eq_none_iff hValues, ← get?_pairing_eq_none_iff hFresh]
      exact (get?_eq_none_iff _).mpr hVar
    rw [get?_extend, hNone, Option.none_or]

end Substitution

namespace TypeStore

variable {s t w : TypeStore}

def upcoming (s : TypeStore) (count : Nat) : List TypeId := (List.range' s.size count).map Handle.mk

theorem mem_upcoming {count : Nat} {id : TypeId} :
    id ∈ s.upcoming count ↔ s.size ≤ id.index ∧ id.index < s.size + count := by
  obtain ⟨index⟩ := id
  simp [upcoming, List.mem_range'_1]

@[simp] theorem length_upcoming (s : TypeStore) (count : Nat) :
    (s.upcoming count).length = count := by
  simp [upcoming]

theorem nodup_upcoming (s : TypeStore) (count : Nat) : (s.upcoming count).Nodup := by
  refine List.Nodup.map (fun a b h => ?_) List.nodup_range'
  cases h
  rfl

theorem upcoming_succ (hSize : t.size = s.size + 1) (count : Nat) :
    s.upcoming (count + 1) = ⟨s.size⟩ :: t.upcoming count := by
  rw [upcoming, List.range'_succ, List.map_cons, upcoming, hSize]

/-- On the way from `s` to `t` the store has handed out `fresh` for `bound`: free variables with the
names of those in `bound`, before anything else that is new, and no other variable. -/
structure Opens (s : TypeStore) (bound fresh : List TypeId) (t : TypeStore) : Prop where
  distinct : fresh.Nodup
  new : ∀ var ∈ fresh, ¬s.Minted var
  named : List.Forall₂ (fun var free => ∃ binder name, s.read var = .ok (.var binder name) ∧
    t.read free = .ok (.var .free name)) bound fresh
  first : ∀ id node, t.read id = .ok node → ¬s.Minted id → id ∉ fresh →
    node.isVariable = false ∧ ∀ var ∈ fresh, var.index < id.index

theorem freshen_eq {var : TypeId} {binder : Binder} {name : SymbolId}
    (hVar : s.read var = .ok (.var binder name)) :
    Scheme.freshen var s = .ok (var, ⟨s.size⟩) (s.add (.var .free name)).2 := by
  rw [Scheme.freshen, bind_of_ok (Substitution.readNode_eq hVar)]
  change EStateM.Result.ok (var, (s.add (.var .free name)).1) _ = _
  rw [add_of_isNominal rfl]
  rfl

theorem size_add_of_isNominal {node : Node} (h : node.isNominal = true) :
    (s.add node).2.size = s.size + 1 := by
  rw [add, if_pos h]
  exact Arena.size_push _ _

theorem mapM_freshen {bound : List TypeId}
    (hVars : ∀ var ∈ bound, ∃ binder name, s.read var = .ok (.var binder name)) :
    ∃ t, bound.mapM Scheme.freshen s = .ok (bound.zip (s.upcoming bound.length)) t ∧
      s.Grown t ∧ t.size = s.size + bound.length ∧
      List.Forall₂ (fun var free => ∃ binder name, s.read var = .ok (.var binder name) ∧
        t.read free = .ok (.var .free name)) bound (s.upcoming bound.length) := by
  induction bound generalizing s with
  | nil => exact ⟨s, rfl, .refl s, rfl, .nil⟩
  | cons var rest ih =>
    obtain ⟨binder, name, hVar⟩ := hVars var List.mem_cons_self
    have hGrown : s.Grown (s.add (.var .free name)).2 := .add (.refl s) _
    have hSize : (s.add (.var .free name)).2.size = s.size + 1 := size_add_of_isNominal rfl
    have hAdded : (s.add (.var .free name)).2.read ⟨s.size⟩ = .ok (.var .free name) := by
      have hId : (s.add (.var .free name)).1 = ⟨s.size⟩ := add_of_isNominal rfl
      exact hId ▸ s.read_add _
    have hOthers := fun other hOther => hVars other (List.mem_cons_of_mem _ hOther)
    -- With one more variable, the store goes on with the rest of the same run of handles.
    obtain ⟨t, hRest, hGrown', hSize', hNamed⟩ := ih fun other hOther => by
      obtain ⟨binder, name, hOld⟩ := hOthers other hOther
      exact ⟨binder, name, hGrown.extension hOld⟩
    refine ⟨t, ?_, hGrown.trans hGrown', ?_, ?_⟩
    · rw [List.mapM_cons, bind_of_ok (freshen_eq hVar), bind_of_ok hRest, List.length_cons,
        upcoming_succ hSize]
      rfl
    · rw [hSize', hSize, List.length_cons]
      omega
    · rw [List.length_cons, upcoming_succ hSize]
      refine .cons ⟨binder, name, hVar, hGrown'.extension hAdded⟩ ?_
      refine ((List.forall₂_and_left _ _).mpr ⟨hOthers, hNamed⟩).imp ?_
      rintro other free ⟨⟨binder, name, hOld⟩, binder', name', hRead, hFree⟩
      cases (hGrown.extension hOld).symm.trans hRead
      exact ⟨binder, name, hOld, hFree⟩

theorem minted_of_isVariable {sub : Substitution} {id image : TypeId} (hSub : sub.MintedIn s)
    (hApply : sub.apply id s = .ok image t) {var : TypeId} {node : Node}
    (hNode : t.read var = .ok node) (hVar : node.isVariable = true) : s.Minted var := by
  rw [Substitution.apply, Substitution.applyAs_eq] at hApply
  have hStart : ∀ var node, s.read var = .ok node → node.isVariable = true → s.Minted var :=
    fun _ node hNode _ => ⟨node, hNode⟩
  suffices hKeeps : ∀ var node, t.read var = .ok node → node.isVariable = true → s.Minted var from
    hKeeps var node hNode hVar
  refine ((Substitution.applyWithin_keeps (K := fun t => ∀ var node, t.read var = .ok node →
    node.isVariable = true → s.Minted var) ?_ hSub hStart _ id).of_ok hApply).2.1
  intro u _ node parts hKeep _ hNot _ _ var other hOther hVar
  rcases u.add_cases (node.withComponents parts) with ⟨hSame, -⟩ | ⟨-, -, -, hRead⟩
  · rw [hSame] at hOther
    exact hKeep var other hOther hVar
  · rw [hRead] at hOther
    split at hOther
    case isTrue =>
      cases hOther
      rw [node.isVariable_withComponents, hNot] at hVar
      cases hVar
    case isFalse => exact hKeep var other hOther hVar

variable {scheme : Scheme} {actuals : List TypeId}

/-- `opened` is the body of a scheme over new variables of `s`, which were added on the way to
`t`. -/
structure Opened (s : TypeStore) (scheme : Scheme) (opened : TypeId) (t : TypeStore) : Prop where
  opens : s.Opens scheme.bound (s.upcoming scheme.arity) t
  grown : s.Grown t
  image : t.Image (.pairing scheme.bound (s.upcoming scheme.arity)) .lenient scheme.body opened
  grounded : t.Grounded
  minted : t.Minted opened

theorem Grounded.instantiate_opens (hGround : s.Grounded)
    (hVars : ∀ var ∈ scheme.bound, ∃ binder name, s.read var = .ok (.var binder name))
    (hBody : s.Minted scheme.body) :
    ∃ opened t, scheme.instantiate none s =
        .ok (.pairing scheme.bound (s.upcoming scheme.arity), opened) t ∧
      s.Opened scheme opened t := by
  obtain ⟨r, hMap, hGrown, hSize, hNamed⟩ := mapM_freshen hVars
  have hArguments : scheme.arguments none s =
      .ok (.pairing scheme.bound (s.upcoming scheme.arity)) r := bind_of_ok hMap
  obtain ⟨-, hGroundR, hQuantifies⟩ := (scheme.arguments_ensures none s).of_ok hArguments
  have hr := hGroundR hGround
  have hSub := hQuantifies.mintedIn fun _ h => absurd h List.not_mem_nil
  obtain ⟨opened, t, hApply, hGrown', hImage, ht, hMinted⟩ :=
    hr.apply_succeeds hSub (hBody.extend hGrown.extension)
  refine ⟨opened, t, Scheme.instantiate_eq_ok_iff.mpr ⟨r, hArguments, hApply⟩,
    ⟨s.nodup_upcoming _, ?_, ?_, ?_⟩, hGrown.trans hGrown', hImage, ht, hMinted⟩
  · intro var hVar hOld
    exact absurd (minted_iff_lt.mp hOld) (Nat.not_lt.mpr (mem_upcoming.mp hVar).1)
  · refine hNamed.imp ?_
    rintro var free ⟨binder, name, hVar, hFree⟩
    exact ⟨binder, name, hVar, hGrown'.extension hFree⟩
  · intro id node hNode hNew hOther
    rw [minted_iff_lt] at hNew
    rw [mem_upcoming] at hOther
    have hLater : s.size + scheme.arity ≤ id.index := by omega
    refine ⟨Bool.eq_false_iff.mpr fun hVar => ?_, fun var hVar => ?_⟩
    · have hLt := minted_iff_lt.mp (minted_of_isVariable hSub hApply hNode hVar)
      rw [hSize] at hLt
      exact absurd hLt (Nat.not_lt.mpr hLater)
    · exact Nat.lt_of_lt_of_le (mem_upcoming.mp hVar).2 hLater

theorem Grounded.instantiate_actuals (hGround : s.Grounded) (hBody : s.Minted scheme.body)
    (hLength : actuals.length = scheme.arity) (hActuals : ∀ type ∈ actuals, s.Minted type) :
    ∃ direct t,
      scheme.instantiate (some actuals) s = .ok (.pairing scheme.bound actuals, direct) t ∧
      s.Grown t ∧ t.Image (.pairing scheme.bound actuals) .lenient scheme.body direct ∧
      t.Grounded ∧ t.Minted direct := by
  have hChecked : scheme.actualArguments actuals = .ok (.pairing scheme.bound actuals) :=
    if_pos hLength
  have hArguments : scheme.arguments (some actuals) s = .ok (.pairing scheme.bound actuals) s := by
    rw [Scheme.arguments, hChecked]
    rfl
  have hQuantifies := Scheme.quantifies_actualArguments (s := s) hChecked
  obtain ⟨direct, t, hApply, hRest⟩ :=
    hGround.apply_succeeds (hQuantifies.mintedIn hActuals) hBody
  exact ⟨direct, t, Scheme.instantiate_eq_ok_iff.mpr ⟨s, hArguments, hApply⟩, hRest⟩

theorem Canonical.direct_eq (hCanonical : w.Canonical) (hGround : w.Grounded)
    {fresh : List TypeId} {depth : Nat} {opened closed direct : TypeId}
    (hBody : w.StructuralWithin depth scheme.body) (hDistinct : fresh.Nodup)
    (hFresh : ∀ free ∈ fresh, scheme.body.index < free.index ∧
      ∃ name, w.read free = .ok (.var .free name))
    (hCount : fresh.length = scheme.arity) (hLength : actuals.length = scheme.arity)
    (hOpened : w.Image (.pairing scheme.bound fresh) .lenient scheme.body opened)
    (hClosed : w.Image (.pairing fresh actuals) .lenient opened closed)
    (hDirect : w.Image (.pairing scheme.bound actuals) .lenient scheme.body direct) :
    direct = closed := by
  have hFrom := Substitution.composedFrom_pairing hDistinct hCount hLength
    fun free hMem => (hFresh free hMem).2
  have hInner (var free : TypeId) (hGet : (Substitution.pairing scheme.bound fresh).get? var =
      some free) : ∃ depth, w.StructuralWithin depth free := by
    obtain ⟨-, name, hFree⟩ := hFresh free (Substitution.mem_of_get?_pairing hGet)
    exact ⟨1, _, hFree, fun _ => rfl, fun _ h => absurd h List.not_mem_nil⟩
  -- The composition also maps the new variables, but none of them is below the body.
  refine hCanonical.image_compose hFrom hInner hBody (hDirect.congr ?_) hOpened hClosed
  intro var node hReach _ _
  have hNone : (Substitution.pairing fresh actuals).get? var = none := by
    rw [Substitution.get?_pairing_eq_none_iff (hLength.trans hCount.symm)]
    intro hVar
    exact absurd (hGround.le_of_reaches hReach) (Nat.not_le.mpr (hFresh var hVar).1)
  rw [Substitution.get?_extend, hNone, Option.or_none]

def solution (s : TypeStore) (scheme : Scheme) (actuals : List TypeId) : Substitution :=
  .pairing (s.upcoming scheme.arity) actuals

theorem solution_mintedIn (hActuals : ∀ type ∈ actuals, t.Minted type) :
    (s.solution scheme actuals).MintedIn t :=
  fun _ type hGet => hActuals type (Substitution.mem_of_get?_pairing hGet)

/-- `t` is a store that callers can come to from `s` with minted handles. -/
def Leads (s t : TypeStore) : Prop := ∃ calls, s.Admits calls ∧ t = s.after calls

theorem Leads.grown (h : s.Leads t) : s.Grown t := by
  obtain ⟨calls, -, rfl⟩ := h
  exact grown_after calls s

theorem Leads.grounded (h : s.Leads t) (hGround : s.Grounded) : t.Grounded := by
  obtain ⟨calls, hAdmits, rfl⟩ := h
  exact hGround.after hAdmits

theorem Opened.solve {opened : TypeId} (h : s.Opened scheme opened t) {r : TypeStore}
    (htr : t.Grown r) (hr : r.Grounded) (hActuals : ∀ type ∈ actuals, r.Minted type) :
    ∃ closed u, (s.solution scheme actuals).apply opened r = .ok closed u ∧ r.Grown u ∧
      u.Image (s.solution scheme actuals) .lenient opened closed ∧ u.Grounded := by
  obtain ⟨closed, u, hSolve, hru, hClosed, hu, -⟩ :=
    hr.apply_succeeds (solution_mintedIn hActuals) (h.minted.extend htr.extension)
  exact ⟨closed, u, hSolve, hru, hClosed, hu⟩

section Agreement

variable (hBuilt : s.Built) (hBody : s.Minted scheme.body) (hFree : s.ModuleFree scheme.body)
  (hLength : actuals.length = scheme.arity)
include hBuilt hBody hFree hLength

/-- Wherever the body was opened after `s`, solving it leads to the direct instance. -/
theorem Built.direct_eq {p : TypeStore} {opened closed direct : TypeId} (hsp : s.Grown p)
    (h : p.Opened scheme opened t) (htw : t.Grown w) (hw : w.Grounded)
    (hClosed : w.Image (p.solution scheme actuals) .lenient opened closed)
    (hDirect : w.Image (.pairing scheme.bound actuals) .lenient scheme.body direct) :
    direct = closed := by
  have hsw := (hsp.trans h.grown).trans htw
  refine (hsw.canonical hBuilt.canonical).direct_eq hw
    ((hBuilt.grounded.structuralWithin hBody hFree).extend hsw.extension) h.opens.distinct
    (fun free hMem => ⟨?_, ?_⟩) (p.length_upcoming _) hLength (h.image.extend htw.extension)
    hClosed hDirect
  · calc scheme.body.index < s.size := minted_iff_lt.mp hBody
      _ ≤ p.size := hsp.extension.size_le
      _ ≤ free.index := (mem_upcoming.mp hMem).1
  · obtain ⟨_, -, _, name, -, hName⟩ := exists_mem_left_of_forall₂ h.opens.named hMem
    exact ⟨name, htw.extension hName⟩

theorem Built.direct_last {opened : TypeId} (h : s.Opened scheme opened t) {r : TypeStore}
    (htr : t.Leads r) (hActuals : ∀ type ∈ actuals, r.Minted type) :
    ∃ closed u, (s.solution scheme actuals).apply opened r = .ok closed u ∧ ∀ p, u.Leads p →
      ∃ sub q, scheme.instantiate (some actuals) p = .ok (sub, closed) q := by
  obtain ⟨closed, u, hSolve, hru, hClosed, hu⟩ :=
    h.solve htr.grown (htr.grounded h.grounded) hActuals
  refine ⟨closed, u, hSolve, fun p hup => ?_⟩
  have hrp := hru.trans hup.grown
  have htp := htr.grown.trans hrp
  obtain ⟨direct, q, hRun, hpq, hDirect, hq, -⟩ := (hup.grounded hu).instantiate_actuals
    (hBody.extend (h.grown.trans htp).extension) hLength
    fun type hType => (hActuals type hType).extend hrp.extension
  obtain rfl := hBuilt.direct_eq hBody hFree hLength (.refl s) h (htp.trans hpq) hq
    (hClosed.extend (hup.grown.trans hpq).extension) hDirect
  exact ⟨_, q, hRun⟩

theorem Built.direct_between {opened : TypeId} (h : s.Opened scheme opened t) {r : TypeStore}
    (htr : t.Leads r) (hActuals : ∀ type ∈ actuals, r.Minted type) :
    ∃ sub direct u, scheme.instantiate (some actuals) r = .ok (sub, direct) u ∧ ∀ p, u.Leads p →
      ∃ q, (s.solution scheme actuals).apply opened p = .ok direct q := by
  obtain ⟨direct, u, hRun, hru, hDirect, hu, -⟩ := (htr.grounded h.grounded).instantiate_actuals
    (hBody.extend (h.grown.trans htr.grown).extension) hLength hActuals
  refine ⟨_, direct, u, hRun, fun p hup => ?_⟩
  have hrp := hru.trans hup.grown
  have htp := htr.grown.trans hrp
  obtain ⟨closed, q, hSolve, hpq, hClosed, hq⟩ := h.solve htp (hup.grounded hu)
    fun type hType => (hActuals type hType).extend hrp.extension
  obtain rfl := hBuilt.direct_eq hBody hFree hLength (.refl s) h (htp.trans hpq) hq hClosed
    (hDirect.extend (hup.grown.trans hpq).extension)
  exact ⟨q, hSolve⟩

theorem Built.direct_first
    (hVars : ∀ var ∈ scheme.bound, ∃ binder name, s.read var = .ok (.var binder name))
    (hActuals : ∀ type ∈ actuals, s.Minted type) :
    ∃ sub direct u, scheme.instantiate (some actuals) s = .ok (sub, direct) u ∧ ∀ p, u.Leads p →
      ∃ opened t, scheme.instantiate none p =
          .ok (.pairing scheme.bound (p.upcoming scheme.arity), opened) t ∧ ∀ r, t.Leads r →
        ∃ q, (p.solution scheme actuals).apply opened r = .ok direct q := by
  obtain ⟨direct, u, hRun, hsu, hDirect, hu, -⟩ :=
    hBuilt.grounded.instantiate_actuals hBody hLength hActuals
  refine ⟨_, direct, u, hRun, fun p hup => ?_⟩
  have hsp := hsu.trans hup.grown
  have hVarsLater : ∀ var ∈ scheme.bound, ∃ binder name, p.read var = .ok (.var binder name) := by
    intro var hVar
    obtain ⟨binder, name, hOld⟩ := hVars var hVar
    exact ⟨binder, name, hsp.extension hOld⟩
  obtain ⟨opened, t, hOpen, h⟩ :=
    (hup.grounded hu).instantiate_opens hVarsLater (hBody.extend hsp.extension)
  refine ⟨opened, t, hOpen, fun r htr => ?_⟩
  have hpr := h.grown.trans htr.grown
  obtain ⟨closed, q, hSolve, hrq, hClosed, hq⟩ := h.solve htr.grown (htr.grounded h.grounded)
    fun type hType => (hActuals type hType).extend (hsp.trans hpr).extension
  obtain rfl := hBuilt.direct_eq hBody hFree hLength hsp h (htr.grown.trans hrq) hq hClosed
    (hDirect.extend (hup.grown.trans (hpr.trans hrq)).extension)
  exact ⟨q, hSolve⟩

end Agreement

/-- A scheme over variables is opened with as many new free variables as it has, named alike, before
any other type is added, and no later opening meets them. If no module type is below its body,
solving the opened body for some types and instantiating the scheme with them directly lead to one
handle, whatever is done in between: the direct instance may come last, between, or first. -/
theorem Built.instantiations_agree (hBuilt : s.Built)
    (hVars : ∀ var ∈ scheme.bound, ∃ binder name, s.read var = .ok (.var binder name))
    (hBody : s.Minted scheme.body) (hFree : s.ModuleFree scheme.body) :
    (∃ opened t, scheme.instantiate none s =
        .ok (.pairing scheme.bound (s.upcoming scheme.arity), opened) t ∧
      s.Opens scheme.bound (s.upcoming scheme.arity) t ∧
      (∀ calls bound fresh u, (t.after calls).Opens bound fresh u →
        fresh.Disjoint (s.upcoming scheme.arity)) ∧
      ∀ r actuals, t.Leads r → actuals.length = scheme.arity → (∀ type ∈ actuals, r.Minted type) →
        (∃ closed u, (s.solution scheme actuals).apply opened r = .ok closed u ∧ ∀ p, u.Leads p →
          ∃ sub q, scheme.instantiate (some actuals) p = .ok (sub, closed) q) ∧
        ∃ sub direct u, scheme.instantiate (some actuals) r = .ok (sub, direct) u ∧ ∀ p, u.Leads p →
          ∃ q, (s.solution scheme actuals).apply opened p = .ok direct q) ∧
    ∀ actuals, actuals.length = scheme.arity → (∀ type ∈ actuals, s.Minted type) →
      ∃ sub direct u, scheme.instantiate (some actuals) s = .ok (sub, direct) u ∧ ∀ p, u.Leads p →
        ∃ opened t, scheme.instantiate none p =
            .ok (.pairing scheme.bound (p.upcoming scheme.arity), opened) t ∧ ∀ r, t.Leads r →
          ∃ q, (p.solution scheme actuals).apply opened r = .ok direct q := by
  refine ⟨?_, fun actuals hLength hActuals =>
    hBuilt.direct_first hBody hFree hLength hVars hActuals⟩
  obtain ⟨opened, t, hOpen, h⟩ := hBuilt.grounded.instantiate_opens hVars hBody
  refine ⟨opened, t, hOpen, h.opens, fun calls bound fresh u hLater var hFresh hVar => ?_,
    fun r actuals htr hLength hActuals => ⟨?_, ?_⟩⟩
  · obtain ⟨_, -, _, name, -, hName⟩ := exists_mem_left_of_forall₂ h.opens.named hVar
    exact hLater.new var hFresh ⟨_, (grown_after calls t).extension hName⟩
  · exact hBuilt.direct_last hBody hFree hLength h htr hActuals
  · exact hBuilt.direct_between hBody hFree hLength h htr hActuals

namespace Sample

def twice : Scheme := ⟨[⟨13⟩, ⟨14⟩, ⟨13⟩], ⟨16⟩⟩

theorem instantiations_agree_twice : ∃ opened t closed u sub v,
    twice.instantiate none pairs =
      .ok (.pairing twice.bound [⟨21⟩, ⟨22⟩, ⟨23⟩], opened) t ∧
    (Substitution.pairing [⟨21⟩, ⟨22⟩, ⟨23⟩] [⟨5⟩, ⟨0⟩, ⟨15⟩]).apply opened t = .ok closed u ∧
    twice.instantiate (some [⟨5⟩, ⟨0⟩, ⟨15⟩]) u = .ok (sub, closed) v := by
  have hVars : ∀ var ∈ twice.bound, ∃ binder name, pairs.read var = .ok (.var binder name) := by
    have hFirst : pairs.read ⟨13⟩ = .ok (.var .bound ⟨0⟩) := by decide +kernel
    have hSecond : pairs.read ⟨14⟩ = .ok (.var .free ⟨1⟩) := by decide +kernel
    simp [twice, hFirst, hSecond]
  have hBody : pairs.Minted twice.body := by decide +kernel
  have hUpcoming : pairs.upcoming twice.arity = [⟨21⟩, ⟨22⟩, ⟨23⟩] := by decide +kernel
  obtain ⟨⟨opened, t, hOpen, -, -, hAgree⟩, -⟩ := built_pairs.instantiations_agree hVars hBody
    (moduleFree_of_lt (by decide))
  have hActuals : ∀ type ∈ [⟨5⟩, ⟨0⟩, ⟨15⟩], t.Minted type := by
    have hOld : ∀ type ∈ [⟨5⟩, ⟨0⟩, ⟨15⟩], pairs.Minted type := by decide +kernel
    have hGrown := ((twice.instantiate_ensures none pairs).of_ok hOpen).grown
    exact fun type hType => (hOld type hType).extend hGrown.extension
  obtain ⟨⟨closed, u, hSolve, hDirect⟩, -⟩ :=
    hAgree t [⟨5⟩, ⟨0⟩, ⟨15⟩] ⟨[], trivial, rfl⟩ rfl hActuals
  obtain ⟨sub, v, hRun⟩ := hDirect u ⟨[], trivial, rfl⟩
  rw [solution, hUpcoming] at hSolve
  rw [hUpcoming] at hOpen
  exact ⟨opened, t, closed, u, sub, v, hOpen, hSolve, hRun⟩

end Sample

end TypeStore

end Specializer
