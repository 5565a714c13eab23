import Specializer.Proofs.Substitution.Refusal

/-!
# Checked schemes

The check of a scheme looks at the bound variables of its body in order and objects to the first
that neither the scheme nor a definition around it quantifies. What passes it can be instantiated
leniently at any later time: a bound variable of the result was given by an actual type or belongs
to a definition around, and if there is none, a strict substitution would have done the same.
-/

set_option autoImplicit false

namespace Specializer

open TypeStore Update

theorem Read.filterM_eq_ok {α : Type} {f : α → Read Bool} {keep : α → Bool} {items : List α}
    (h : ∀ item ∈ items, f item = .ok (keep item)) :
    items.filterM f = .ok (items.filter keep) := by
  have hAux (found : List α) :
      items.filterAuxM f found = .ok ((items.filter keep).reverse ++ found) := by
    induction items generalizing found with
    | nil => rfl
    | cons item rest ih =>
      rw [List.filterAuxM, h item List.mem_cons_self, Read.ok_bind,
        ih fun other hOther => h other (List.mem_cons_of_mem _ hOther)]
      cases hKeep : keep item <;> simp [hKeep]
  rw [List.filterM, hAux, Read.ok_bind, List.append_nil, List.reverse_reverse]
  rfl

theorem TypeStore.Image.reaches_variable {s : TypeStore} {sub : Substitution} {mode : Strictness}
    {id image var : TypeId} {node : Node} (h : s.Image sub mode id image)
    (hReach : s.Reaches image var) (hNode : s.read var = .ok node) (hVar : node.isVariable = true) :
    ∃ source other, s.Reaches id source ∧ s.read source = .ok other ∧ other.isVariable = true ∧
      s.Reaches ((sub.get? source).getD source) var := by
  obtain ⟨depth, h⟩ := h
  induction depth generalizing id image with
  | zero => exact h.elim
  | succ depth ih =>
    obtain ⟨outer, hOuter, ⟨hOuterVar, hCases⟩ | ⟨hNot, parts, hParts, hCases⟩⟩ := h
    · refine ⟨id, outer, .refl id, hOuter, hOuterVar, ?_⟩
      rcases hCases with hMapped | ⟨hUnmapped, rfl, -⟩
      · rwa [hMapped]
      · rwa [hUnmapped]
    · have hRead : s.read image = .ok (outer.withComponents parts) := by
        rcases hCases with ⟨rfl, rfl⟩ | ⟨-, hRead⟩
        · rw [outer.withComponents_components, hOuter]
        · exact hRead
      rcases (reaches_iff hRead).mp hReach with rfl | ⟨part, hPart, hBelow⟩
      · cases hNode.symm.trans hRead
        rw [outer.isVariable_withComponents, hNot] at hVar
        cases hVar
      · rw [outer.components_withComponents parts hParts.length_eq.symm] at hPart
        obtain ⟨origin, hOrigin, hImage⟩ := exists_mem_left_of_forall₂ hParts hPart
        obtain ⟨source, other, hSource, hRest⟩ := ih hBelow hImage
        exact ⟨source, other, .step hOuter hOrigin hSource, hRest⟩

theorem TypeStore.Reaches.eq_of_isVariable {s : TypeStore} {id last : TypeId} {node : Node}
    (h : s.Reaches id last) (hNode : s.read id = .ok node) (hVar : node.isVariable = true) :
    last = id := by
  rcases (reaches_iff hNode).mp h with hSame | ⟨part, hPart, -⟩
  · exact hSame
  · rw [node.components_of_isVariable hVar] at hPart
    cases hPart

namespace Scheme

variable {s t u : TypeStore} {scheme : Scheme} {bound enclosing vars : List TypeId} {body : TypeId}

/-- `var` is bound, and neither the scheme nor a definition around it quantifies it. -/
def Stray (types : TypeStore) (bound enclosing : List TypeId) (var : TypeId) : Prop :=
  ∃ node, types.read var = .ok node ∧ node.isBound = true ∧ var ∉ bound ∧ var ∉ enclosing

def isBoundAt (types : TypeStore) (var : TypeId) : Bool :=
  match types.read var with
  | .ok node => node.isBound
  | .error _ => false

theorem boundVariables_eq (hVars : s.vars body = .ok vars) :
    boundVariables s body = .ok (vars.filter (isBoundAt s)) := by
  rw [boundVariables, hVars, Read.ok_bind]
  refine Read.filterM_eq_ok fun var hMem => ?_
  obtain ⟨-, node, hNode, -⟩ := (mem_vars_iff hVars).mp hMem
  rw [hNode, isBoundAt, hNode]
  rfl

theorem stray_iff {var : TypeId} : (isBoundAt s var && !(bound.contains var ||
    enclosing.contains var)) = true ↔ Stray s bound enclosing var := by
  unfold Stray isBoundAt
  cases s.read var <;> simp

/-- The check goes over the variables of the body and stops at the first stray one. -/
theorem checked_cases (bound enclosing : List TypeId) (hVars : s.vars body = .ok vars) :
    (∀ var ∈ vars, ¬Stray s bound enclosing var) ∧
        checked s bound body enclosing = .ok (.ok ⟨bound, body⟩) ∨
      ∃ var, IsFirst (Stray s bound enclosing) vars var ∧
        checked s bound body enclosing = .ok (.error (.unquantified var)) := by
  have hFilter : (vars.filter (isBoundAt s)).find? (fun var =>
      !(bound.contains var || enclosing.contains var)) = vars.find? fun var =>
        isBoundAt s var && !(bound.contains var || enclosing.contains var) := by
    rw [List.find?_filter]
    simp
  rw [checked, boundVariables_eq hVars, Read.ok_bind, hFilter]
  cases hFind : vars.find? fun var =>
      isBoundAt s var && !(bound.contains var || enclosing.contains var) with
  | none => exact .inl ⟨(find?_eq_none_iff_forall fun _ => stray_iff).mp hFind, rfl⟩
  | some var =>
    exact .inr ⟨var, (find?_eq_some_iff_isFirst fun _ => stray_iff).mp hFind, rfl⟩

/-- A bound variable below an instance of a checked scheme is quantified around it or came with an
actual type. -/
theorem Quantifies.left_behind {actuals : Option (List TypeId)} {sub : Substitution}
    {image var : TypeId} {node : Node} (h : scheme.Quantifies t actuals sub)
    (hImage : t.Image sub .lenient scheme.body image) (hExt : s.Extends t)
    (hVars : s.vars scheme.body = .ok vars)
    (hNone : ∀ var ∈ vars, ¬Stray s scheme.bound enclosing var) (hReach : t.Reaches image var)
    (hNode : t.read var = .ok node) (hBound : node.isBound = true) :
    var ∈ enclosing ∧ var ∉ scheme.bound ∨ ∃ actual ∈ actuals.getD [], t.Reaches actual var := by
  obtain ⟨source, other, hSource, hOther, hVar, hBelow⟩ :=
    hImage.reaches_variable hReach hNode (Node.isVariable_of_isBound hBound)
  -- Either `var` was left in place, or it came with what replaced a variable.
  cases hGet : sub.get? source with
  | none =>
    rw [hGet, Option.getD_none] at hBelow
    obtain rfl := hBelow.eq_of_isVariable hOther hVar
    have hMem := (mem_vars_iff (vars_mono hExt hVars)).mpr ⟨hSource, other, hOther, hVar⟩
    obtain ⟨-, old, hOld, -⟩ := (mem_vars_iff hVars).mp hMem
    cases hNode.symm.trans (hExt hOld)
    have hFree : var ∉ scheme.bound := by
      rw [← h.keys, hGet]
      exact Bool.false_ne_true
    refine .inl ⟨not_not.mp fun hNot => ?_, hFree⟩
    exact hNone var hMem ⟨node, hOld, hBound, hFree, hNot⟩
  | some type =>
    rw [hGet, Option.getD_some] at hBelow
    have hStands := h.values hGet
    cases actuals with
    | none =>
      obtain ⟨name, hName⟩ := hStands
      obtain rfl := hBelow.eq_of_isVariable hName rfl
      cases hNode.symm.trans hName
      cases hBound
    | some types => exact .inr ⟨type, hStands, hBelow⟩

theorem Quantifies.not_lacks {actuals : Option (List TypeId)} {sub : Substitution}
    (h : scheme.Quantifies t actuals sub) (hNone : ∀ var ∈ vars, ¬Stray s scheme.bound [] var) :
    ∀ var ∈ vars, ¬sub.Lacks s var := by
  rintro var hMem ⟨node, hNode, hBound, hMissing⟩
  refine hNone var hMem ⟨node, hNode, hBound, ?_, List.not_mem_nil⟩
  rw [← h.keys]
  exact Bool.not_eq_true _ ▸ hMissing

theorem Quantifies.applyStrict_eq {actuals : Option (List TypeId)} {sub : Substitution}
    {image : TypeId} (h : scheme.Quantifies t actuals sub) (hExt : s.Extends t)
    (hVars : s.vars scheme.body = .ok vars) (hNone : ∀ var ∈ vars, ¬Stray s scheme.bound [] var)
    (hApply : sub.apply scheme.body t = .ok image u) :
    sub.applyStrict scheme.body t = .ok image u := by
  have hDecided := sub.decidedBy_vars hVars hExt
  cases hStrict : sub.applyStrict scheme.body t with
  | ok result v => exact (Substitution.apply_of_applyStrict hStrict).symm.trans hApply
  | error e v =>
    obtain ⟨var, -, hFirst⟩ := hDecided.of_error hStrict
    rw [Substitution.firstUnmapped_eq_none_iff.mpr (h.not_lacks hNone)] at hFirst
    cases hFirst

end Scheme

namespace TypeStore

variable {s : TypeStore} {body : TypeId}

open Scheme

/-- A scheme is accepted exactly if every bound variable of its body is quantified by it or around
it, and otherwise the first that is not is named. Whenever an accepted scheme is instantiated later,
every bound variable of the result is quantified around it and not by it, or occurs in an actual
type; and if nothing is around it, a strict substitution from the same store gives the same. -/
theorem Built.checked_instantiate (hBuilt : s.Built) (hBody : s.Minted body)
    (bound enclosing : List TypeId) :
    ∃ vars, s.vars body = .ok vars ∧
      ((∃ scheme, checked s bound body enclosing = .ok (.ok scheme)) ↔
        ∀ var ∈ vars, ¬Stray s bound enclosing var) ∧
      ((∃ var ∈ vars, Stray s bound enclosing var) →
        ∃ var, IsFirst (Stray s bound enclosing) vars var ∧
          checked s bound body enclosing = .ok (.error (.unquantified var))) ∧
      ∀ scheme, checked s bound body enclosing = .ok (.ok scheme) →
        scheme = ⟨bound, body⟩ ∧ ∀ calls actuals sub image u,
          scheme.instantiate actuals (s.after calls) = .ok (sub, image) u →
          (∀ var node, u.Reaches image var → u.read var = .ok node → node.isBound = true →
            var ∈ enclosing ∧ var ∉ bound ∨ ∃ actual ∈ actuals.getD [], u.Reaches actual var) ∧
          ∃ r, scheme.arguments actuals (s.after calls) = .ok sub r ∧
            sub.apply body r = .ok image u ∧
            (enclosing = [] → sub.applyStrict body r = .ok image u) := by
  obtain ⟨vars, hVars⟩ := hBuilt.grounded.exists_vars hBody
  refine ⟨vars, hVars, ?_⟩
  rcases checked_cases bound enclosing hVars with
    ⟨hNone, hOk⟩ | ⟨var, hFirst, hError⟩
  · refine ⟨⟨fun _ => hNone, fun _ => ⟨_, hOk⟩⟩, ?_, fun scheme hScheme => ?_⟩
    · rintro ⟨var, hMem, hStray⟩
      exact absurd hStray (hNone var hMem)
    · cases hOk.symm.trans hScheme
      refine ⟨rfl, fun calls actuals sub image u hRun => ?_⟩
      obtain ⟨r, hArguments, hApply⟩ := instantiate_eq_ok_iff.mp hRun
      obtain ⟨hGrown, -, hQuantifies⟩ := (arguments_ensures _ actuals _).of_ok hArguments
      obtain ⟨hGrown', hImage, -⟩ := (sub.applyAs_ensures .lenient body r).of_ok hApply
      have hExt := ((grown_after calls s).trans hGrown).extension
      have hExt' := hExt.trans hGrown'.extension
      refine ⟨fun var node hReach hNode hBound => ?_, r, hArguments, hApply, ?_⟩
      · exact (hQuantifies.extend hGrown'.extension).left_behind hImage hExt' hVars hNone hReach
          hNode hBound
      · rintro rfl
        exact hQuantifies.applyStrict_eq hExt hVars hNone hApply
  · refine ⟨⟨?_, fun hNone => ?_⟩, fun _ => ⟨var, hFirst, hError⟩, fun scheme hScheme => ?_⟩
    · rintro ⟨scheme, hScheme⟩
      cases hError.symm.trans hScheme
    · obtain ⟨before, after, rfl, -, hStray⟩ := hFirst
      exact absurd hStray (hNone var (List.mem_append_right _ List.mem_cons_self))
    · cases hError.symm.trans hScheme

namespace Sample

def inner : Scheme := ⟨[⟨13⟩, ⟨5⟩, ⟨13⟩], ⟨22⟩⟩

def outer : Scheme := ⟨[⟨21⟩, ⟨13⟩], ⟨22⟩⟩

def meantime : List TypeCall := [.instantiate outer none, .apply half .lenient ⟨22⟩]

theorem checked_instantiate_mixed :
    checked mixed inner.bound inner.body [] = .ok (.error (.unquantified ⟨21⟩)) ∧
    (∃ sub image u,
      inner.instantiate (some [⟨0⟩, ⟨1⟩, ⟨15⟩]) (mixed.after meantime) = .ok (sub, image) u ∧
      ∀ var node, u.Reaches image var → u.read var = .ok node → node.isBound = true →
        var ∈ [⟨21⟩] ∧ var ∉ inner.bound ∨ ∃ actual ∈ [⟨0⟩, ⟨1⟩, ⟨15⟩], u.Reaches actual var) ∧
    ∃ sub image u r, outer.instantiate none (mixed.after meantime) = .ok (sub, image) u ∧
      outer.arguments none (mixed.after meantime) = .ok sub r ∧
      sub.applyStrict outer.body r = .ok image u := by
  have hInner : mixed.Minted inner.body := by decide +kernel
  have hOuter : mixed.Minted outer.body := by decide +kernel
  refine ⟨?_, ?_, ?_⟩
  · obtain ⟨vars, hVars, -, hRefused, -⟩ :=
      built_mixed.checked_instantiate hInner inner.bound []
    have hMixed : mixed.vars inner.body = .ok [⟨13⟩, ⟨21⟩, ⟨14⟩] := by decide +kernel
    cases hMixed.symm.trans hVars
    obtain ⟨var, hFirst, hChecked⟩ := hRefused ⟨⟨21⟩, by decide, stray_iff.mp (by decide +kernel)⟩
    have hThird : [⟨13⟩, ⟨21⟩, ⟨14⟩].find? (fun var => isBoundAt mixed var &&
        !(inner.bound.contains var || [].contains var)) = some ⟨21⟩ := by decide +kernel
    cases hThird.symm.trans ((find?_eq_some_iff_isFirst fun _ => stray_iff).mpr hFirst)
    exact hChecked
  · obtain ⟨-, -, -, -, hLater⟩ := built_mixed.checked_instantiate hInner inner.bound [⟨21⟩]
    have hAccepted : checked mixed inner.bound inner.body [⟨21⟩] = .ok (.ok inner) := by
      decide +kernel
    have hSucceeds :
        (inner.instantiate (some [⟨0⟩, ⟨1⟩, ⟨15⟩])).succeeds (mixed.after meantime) = true := by
      decide +kernel
    obtain ⟨⟨sub, image⟩, u, hRun⟩ := exists_of_succeeds hSucceeds
    exact ⟨sub, image, u, hRun, ((hLater inner hAccepted).2 meantime _ sub image u hRun).1⟩
  · obtain ⟨-, -, -, -, hLater⟩ := built_mixed.checked_instantiate hOuter outer.bound []
    have hAccepted : checked mixed outer.bound outer.body [] = .ok (.ok outer) := by decide +kernel
    have hSucceeds : (outer.instantiate none).succeeds (mixed.after meantime) = true := by
      decide +kernel
    obtain ⟨⟨sub, image⟩, u, hRun⟩ := exists_of_succeeds hSucceeds
    obtain ⟨-, r, hArguments, -, hStrict⟩ := (hLater outer hAccepted).2 meantime _ sub image u hRun
    exact ⟨sub, image, u, r, hRun, hArguments, hStrict rfl⟩

end Sample

end TypeStore

end Specializer
