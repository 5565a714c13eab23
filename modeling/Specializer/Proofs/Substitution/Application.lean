import Specializer.Proofs.Substitution.Image
import Specializer.Scheme

/-!
# What applying, composing and instantiating do to the store

Each of them only adds nodes, whatever it is given and however it ends. If the store is grounded and
the given handles are minted, the store stays grounded and the answer is minted, and the lenient
ones do not fail. A composed substitution maps a key of the inner one to an image of its replacement
under the outer one, and leaves all other keys to the outer one.
-/

set_option autoImplicit false

namespace Specializer

open TypeStore Update

/-- `t` is `s` after additions, which were around minted handles if all of `given` were minted. -/
structure TypeStore.GrownAround (s : TypeStore) (given : List TypeId) (t : TypeStore) : Prop where
  grown : s.Grown t
  grounded : s.Grounded → (∀ id ∈ given, s.Minted id) → t.Grounded

namespace Substitution

variable {s t : TypeStore} {sub outer inner : Substitution} {mode : Strictness}

def MintedIn (sub : Substitution) (s : TypeStore) : Prop :=
  ∀ ⦃var type⦄, sub.get? var = some type → s.Minted type

theorem MintedIn.extend (h : sub.MintedIn s) (hExt : s.Extends t) : sub.MintedIn t :=
  fun _ _ hGet => (h hGet).extend hExt

theorem MintedIn.insert (h : sub.MintedIn s) {key value : TypeId} (hValue : s.Minted value) :
    (sub.insert key value).MintedIn s := by
  intro var type hGet
  rw [get?_insert] at hGet
  split at hGet
  · cases hGet
    exact hValue
  · exact h hGet

theorem applyWithin_grounded (sub : Substitution) (mode : Strictness) (depth : Nat) (id : TypeId)
    (s : TypeStore) : (sub.applyWithin mode depth id).Ensures s
      (fun image t => s.Grounded → sub.MintedIn s → t.Grounded ∧ t.Minted image)
      (fun _ t => s.Grounded → sub.MintedIn s → t.Grounded) := by
  refine Ensures.under fun hs => Ensures.under fun hSub => ?_
  refine (applyWithin_keeps (K := TypeStore.Grounded) ?_ hSub hs depth id).mono
    (fun _ _ h => h.2) fun _ _ h => h.2
  intro t _ node parts ht _ _ hLength hMinted
  refine ht.add ?_
  rwa [node.components_withComponents parts hLength]

theorem applyWithin_lenient {depth : Nat} (hDepth : s.size ≤ depth) (hGround : s.Grounded)
    {id : TypeId} (hId : s.Minted id) :
    (sub.applyWithin .lenient depth id).Ensures s (fun _ _ => True) (fun _ _ => False) := by
  have hLe : id.index + 1 ≤ depth := by
    have hLt := minted_iff_lt.mp hId
    omega
  have hAll := hGround.allWithin (G := fun id node => Strictness.lenient = .strict →
    node.isBound = true → (sub.get? id).isSome = true) hId fun _ _ _ _ h => nomatch h
  exact (applyWithin_succeeds (hAll.mono hLe)).mono (fun _ _ _ => trivial) fun _ _ h => h

theorem applyAs_ensures (sub : Substitution) (mode : Strictness) (id : TypeId) (s : TypeStore) :
    (sub.applyAs mode id).Ensures s
      (fun image t => s.Grown t ∧ t.Image sub mode id image ∧
        (s.Grounded → sub.MintedIn s → t.Grounded ∧ t.Minted image))
      (fun _ t => s.Grown t ∧ (s.Grounded → sub.MintedIn s → t.Grounded) ∧
        ¬(mode = .lenient ∧ s.Grounded ∧ s.Minted id)) := by
  unfold applyAs
  refine Ensures.bindGet ?_
  have hDepth : s.size ≤ growingDepth s := by
    unfold growingDepth TypeStore.depth
    omega
  have hSucceeds : (sub.applyWithin mode (growingDepth s) id).Ensures s
      (fun _ _ => mode = .lenient ∧ s.Grounded ∧ s.Minted id → True)
      (fun _ _ => ¬(mode = .lenient ∧ s.Grounded ∧ s.Minted id)) := by
    refine Ensures.under ?_
    rintro ⟨rfl, hGround, hId⟩
    exact applyWithin_lenient hDepth hGround hId
  refine ((sub.applyWithin_ensures mode _ id s).and
    ((sub.applyWithin_grounded mode _ id s).and hSucceeds)).mono ?_ ?_
  · rintro image t ⟨⟨hGrown, hWithin⟩, hGround, -⟩
    exact ⟨hGrown, ⟨_, hWithin⟩, hGround⟩
  · rintro _ t ⟨hGrown, hGround, hNot⟩
    exact ⟨hGrown, hGround, hNot⟩

/-- The entries in `done` were composed, all other keys are those of `outer`. -/
structure ComposedFrom (t : TypeStore) (outer : Substitution) (done : List (TypeId × TypeId))
    (composed : Substitution) : Prop where
  mapped : ∀ ⦃var type⦄, (var, type) ∈ done →
    ∃ image, composed.get? var = some image ∧ t.Image outer .lenient type image
  kept : ∀ ⦃var⦄, var ∉ done.map Prod.fst → composed.get? var = outer.get? var

theorem ComposedFrom.extend {done : List (TypeId × TypeId)} {composed : Substitution}
    (h : ComposedFrom s outer done composed) (hExt : s.Extends t) :
    ComposedFrom t outer done composed := by
  refine ⟨fun var type hMem => ?_, h.kept⟩
  obtain ⟨image, hGet, hImage⟩ := h.mapped hMem
  exact ⟨image, hGet, hImage.extend hExt⟩

theorem ComposedFrom.insert {done : List (TypeId × TypeId)} {composed : Substitution}
    {key value image : TypeId} (h : ComposedFrom s outer done composed)
    (hNew : key ∉ done.map Prod.fst) (hImage : s.Image outer .lenient value image) :
    ComposedFrom s outer (done ++ [(key, value)]) (composed.insert key image) := by
  constructor
  · intro var type hMem
    rcases List.mem_append.mp hMem with hMem | hMem
    · obtain ⟨old, hGet, hOld⟩ := h.mapped hMem
      have hNe : key ≠ var := by
        rintro rfl
        exact hNew (List.mem_map_of_mem hMem)
      exact ⟨old, by rw [get?_insert, if_neg hNe, hGet], hOld⟩
    · cases List.mem_singleton.mp hMem
      exact ⟨image, by rw [get?_insert, if_pos rfl], hImage⟩
  · intro var hVar
    simp only [List.map_append, List.map_cons, List.map_nil, List.mem_append,
      List.mem_singleton, not_or] at hVar
    rw [get?_insert, if_neg (Ne.symm hVar.2), h.kept hVar.1]

theorem compose_ensures (outer inner : Substitution) (s : TypeStore) :
    (outer.compose inner).Ensures s
      (fun composed t => s.Grown t ∧ ComposedFrom t outer inner.entries composed ∧
        (s.Grounded → outer.MintedIn s → t.Grounded ∧ composed.MintedIn t))
      (fun _ t => s.Grown t ∧ (s.Grounded → outer.MintedIn s → t.Grounded) ∧
        ¬(s.Grounded ∧ outer.MintedIn s ∧ inner.MintedIn s)) := by
  unfold compose
  refine Ensures.foldlM (I := fun done composed t =>
    s.Grown t ∧ ComposedFrom t outer done composed ∧
      (s.Grounded → outer.MintedIn s → t.Grounded ∧ composed.MintedIn t)) ?_
    ⟨.refl s, ⟨by simp, by simp⟩, fun hs hOuter => ⟨hs, hOuter⟩⟩
  rintro done ⟨key, value⟩ rest hEntries composed t ⟨hGrown, hFrom, hGround⟩
  have hExt := hGrown.extension
  have hNew : key ∉ done.map Prod.fst := by
    have hNodup := inner.nodup_keys
    rw [hEntries, List.map_append, List.nodup_append] at hNodup
    exact fun hMem => hNodup.2.2 key hMem key List.mem_cons_self rfl
  refine Ensures.bind (outer.applyAs_ensures .lenient value t) ?_ ?_
  · rintro image u ⟨hGrown', hImage, hGround'⟩
    refine ⟨hGrown.trans hGrown', (hFrom.extend hGrown'.extension).insert hNew hImage,
      fun hs hOuter => ?_⟩
    obtain ⟨ht, hComposed⟩ := hGround hs hOuter
    obtain ⟨hu, hMinted⟩ := hGround' ht (hOuter.extend hExt)
    exact ⟨hu, (hComposed.extend hGrown'.extension).insert hMinted⟩
  · rintro _ u ⟨hGrown', hGround', hNot⟩
    refine ⟨hGrown.trans hGrown', fun hs hOuter => ?_, ?_⟩
    · exact hGround' (hGround hs hOuter).1 (hOuter.extend hExt)
    · rintro ⟨hs, hOuter, hInner⟩
      have hMem : (key, value) ∈ inner.entries := by simp [hEntries]
      exact hNot ⟨rfl, (hGround hs hOuter).1,
        (hInner (inner.get?_eq_some_iff.mpr hMem)).extend hExt⟩

end Substitution

namespace Scheme

open Substitution

variable {s : TypeStore}

def arguments (scheme : Scheme) (actuals : Option (List TypeId)) : TypeUpdate Substitution :=
  match actuals with
  | none => scheme.freshArguments
  | some types => Update.ofCheck (scheme.actualArguments types)

theorem instantiate_eq (scheme : Scheme) (actuals : Option (List TypeId)) :
    scheme.instantiate actuals = scheme.arguments actuals >>= fun sub =>
      sub.apply scheme.body >>= fun body => pure (sub, body) := by
  cases actuals <;> rfl

theorem instantiate_eq_ok_iff {scheme : Scheme} {actuals : Option (List TypeId)} {t : TypeStore}
    {sub : Substitution} {image : TypeId} :
    scheme.instantiate actuals s = .ok (sub, image) t ↔
      ∃ r, scheme.arguments actuals s = .ok sub r ∧ sub.apply scheme.body r = .ok image t := by
  rw [instantiate_eq, bind_eq_ok_iff]
  constructor
  · rintro ⟨other, r, hArguments, h⟩
    obtain ⟨body, u, hBody, h⟩ := bind_eq_ok_iff.mp h
    cases h
    exact ⟨r, hArguments, hBody⟩
  · rintro ⟨r, hArguments, hBody⟩
    exact ⟨sub, r, hArguments, bind_eq_ok_iff.mpr ⟨image, t, hBody, rfl⟩⟩

/-- What stands for a quantified variable: a free variable, or one of the given types. -/
def Stands (types : TypeStore) (actuals : Option (List TypeId)) (type : TypeId) : Prop :=
  match actuals with
  | none => ∃ name, types.read type = .ok (.var .free name)
  | some given => type ∈ given

/-- `sub` has the quantified variables as its keys, and what stands for them as its values. -/
structure Quantifies (scheme : Scheme) (types : TypeStore) (actuals : Option (List TypeId))
    (sub : Substitution) : Prop where
  keys : ∀ var, (sub.get? var).isSome = true ↔ var ∈ scheme.bound
  values : ∀ ⦃var type⦄, sub.get? var = some type → Stands types actuals type

theorem Quantifies.extend {scheme : Scheme} {actuals : Option (List TypeId)} {sub : Substitution}
    {t : TypeStore} (h : scheme.Quantifies s actuals sub) (hExt : s.Extends t) :
    scheme.Quantifies t actuals sub := by
  refine ⟨h.keys, fun var type hGet => ?_⟩
  have hStands := h.values hGet
  cases actuals with
  | none => exact hStands.imp fun name hName => hExt hName
  | some types => exact hStands

theorem Quantifies.mintedIn {scheme : Scheme} {actuals : Option (List TypeId)} {sub : Substitution}
    (h : scheme.Quantifies s actuals sub) (hActuals : ∀ type ∈ actuals.getD [], s.Minted type) :
    sub.MintedIn s := by
  intro var type hGet
  have hStands := h.values hGet
  cases actuals with
  | none =>
    obtain ⟨name, hName⟩ := hStands
    exact ⟨_, hName⟩
  | some types => exact hActuals type hStands

theorem freshen_ensures (var : TypeId) (s : TypeStore) :
    (freshen var).Ensures s
      (fun pair t => s.Grown t ∧ (s.Grounded → t.Grounded) ∧ pair.1 = var ∧
        Stands t none pair.2)
      (fun _ t => s.Grown t ∧ (s.Grounded → t.Grounded)) := by
  unfold freshen
  refine Ensures.bind (Q := fun _ t => t = s)
    (Ensures.bindGet (Ensures.read (fun _ _ => rfl) fun _ _ => ⟨.refl s, id⟩)) ?_ fun _ _ h => h
  rintro node t rfl
  split
  case h_1 _ name =>
    -- A variable has no components that could break the order of the handles.
    have hGround : t.Grounded → (t.add (.var .free name)).2.Grounded :=
      fun ht => ht.add fun _ h => nomatch h
    exact ⟨.add (.refl t) (.var .free name), hGround, rfl, name, t.read_add (.var .free name)⟩
  case h_2 => exact Ensures.refuse ⟨.refl t, id⟩

theorem freshArguments_ensures (scheme : Scheme) (s : TypeStore) :
    scheme.freshArguments.Ensures s
      (fun sub t => s.Grown t ∧ (s.Grounded → t.Grounded) ∧ scheme.Quantifies t none sub)
      (fun _ t => s.Grown t ∧ (s.Grounded → t.Grounded)) := by
  unfold freshArguments
  refine Ensures.bind (Ensures.mapM (I := fun t => s.Grown t ∧ (s.Grounded → t.Grounded))
    (L := TypeStore.Grown) (R := fun t var (pair : TypeId × TypeId) => pair.1 = var ∧
      Stands t none pair.2) .refl (fun _ _ _ => .trans)
    (fun _ _ _ _ hGrown h => ⟨h.1, h.2.imp fun _ h => hGrown.extension h⟩) ?_
    ⟨.refl s, id⟩) ?_ fun _ _ h => h
  · rintro var - t ⟨hGrown, hGround⟩
    refine (freshen_ensures var t).mono ?_ ?_
    · rintro pair u ⟨hGrown', hGround', hPair⟩
      exact ⟨⟨hGrown.trans hGrown', fun hs => hGround' (hGround hs)⟩, hGrown', hPair⟩
    · rintro _ u ⟨hGrown', hGround'⟩
      exact ⟨hGrown.trans hGrown', fun hs => hGround' (hGround hs)⟩
  · rintro pairs t ⟨⟨hGrown, hGround⟩, -, hPairs⟩
    have hKeys : pairs.map Prod.fst = scheme.bound := by
      rw [← List.forall₂_eq_eq_eq, List.forall₂_map_left_iff]
      exact hPairs.flip.imp fun _ _ h => h.1
    refine ⟨hGrown, hGround, fun var => ?_, fun var type hGet => ?_⟩
    · rw [isSome_get?_ofPairs_iff, hKeys]
    · obtain ⟨_, -, -, hStands⟩ := exists_mem_left_of_forall₂ hPairs (mem_of_get?_ofPairs hGet)
      exact hStands

theorem quantifies_actualArguments {scheme : Scheme} {actuals : List TypeId} {sub : Substitution}
    (h : scheme.actualArguments actuals = .ok sub) : scheme.Quantifies s (some actuals) sub := by
  unfold actualArguments at h
  split at h
  case isTrue hLength =>
    cases h
    refine ⟨fun var => ?_, fun var type hGet => ?_⟩
    · rw [isSome_get?_ofPairs_iff, List.map_fst_zip (Nat.le_of_eq hLength.symm)]
    · exact (List.of_mem_zip (mem_of_get?_ofPairs hGet)).2
  case isFalse => cases h

theorem arguments_ensures (scheme : Scheme) (actuals : Option (List TypeId)) (s : TypeStore) :
    (scheme.arguments actuals).Ensures s
      (fun sub t => s.Grown t ∧ (s.Grounded → t.Grounded) ∧ scheme.Quantifies t actuals sub)
      (fun _ t => s.Grown t ∧ (s.Grounded → t.Grounded)) := by
  cases actuals with
  | none => exact scheme.freshArguments_ensures s
  | some types =>
    refine Ensures.check (fun sub hSub => ?_) fun _ _ => ⟨.refl s, id⟩
    exact ⟨.refl s, id, quantifies_actualArguments hSub⟩

theorem instantiate_ensures (scheme : Scheme) (actuals : Option (List TypeId)) (s : TypeStore) :
    (scheme.instantiate actuals).Ensures s
      (fun _ t => s.GrownAround (actuals.getD []) t)
      (fun _ t => s.GrownAround (actuals.getD []) t) := by
  rw [instantiate_eq]
  refine (scheme.arguments_ensures actuals s).bind ?_ fun _ _ h => ⟨h.1, fun hs _ => h.2 hs⟩
  rintro sub t ⟨hGrown, hGround, hQuantifies⟩
  have hSub (hTypes : ∀ type ∈ actuals.getD [], s.Minted type) : sub.MintedIn t :=
    hQuantifies.mintedIn fun type hType => (hTypes type hType).extend hGrown.extension
  refine Ensures.bind (sub.applyAs_ensures .lenient scheme.body t) ?_ ?_
  · rintro image u ⟨hGrown', -, hGround'⟩
    exact ⟨hGrown.trans hGrown', fun hs hTypes => (hGround' (hGround hs) (hSub hTypes)).1⟩
  · rintro _ u ⟨hGrown', hGround', -⟩
    exact ⟨hGrown.trans hGrown', fun hs hTypes => hGround' (hGround hs) (hSub hTypes)⟩

end Scheme

end Specializer
