import Specializer.Proofs.Substitution.Refusal

/-!
# Which replacements matter

The walk over a type looks up the variables of that type and no others: it does not go into what it
puts in their place. So two substitutions that agree on these variables take the same steps. They
end alike, with the same handle or the same refusal, and they add the same nodes in the same order.
-/

set_option autoImplicit false

namespace Specializer

open TypeStore Update

namespace Update

variable {σ ε α β : Type} {s : σ}

theorem bind_congr_of_run {u v : Update σ ε α} {f g : α → Update σ ε β} (h : u s = v s)
    (hNext : ∀ a t, u s = .ok a t → f a t = g a t) : (u >>= f) s = (v >>= g) s := by
  cases hRun : u s with
  | ok a t => rw [bind_of_ok hRun, bind_of_ok (h ▸ hRun), hNext a t hRun]
  | error e t => rw [bind_of_error hRun, bind_of_error (h ▸ hRun)]

theorem mapM_congr_of_run {f g : α → Update σ ε β} {items : List α} {I : σ → Prop}
    (hSame : ∀ a ∈ items, ∀ s, I s → f a s = g a s)
    (hKeep : ∀ a s b t, I s → f a s = .ok b t → I t) (hInv : I s) :
    items.mapM f s = items.mapM g s := by
  induction items generalizing s with
  | nil => rfl
  | cons item rest ih =>
    rw [List.mapM_cons, List.mapM_cons]
    refine bind_congr_of_run (hSame item List.mem_cons_self s hInv) fun b t hRun => ?_
    refine bind_congr_of_run (ih ?_ (hKeep item s b t hInv hRun)) fun _ _ _ => rfl
    exact fun a ha => hSame a (List.mem_cons_of_mem _ ha)

end Update

namespace Substitution

variable {sub other : Substitution} {mode : Strictness} {s : TypeStore} {id : TypeId}

theorem applyWithin_congr {depth : Nat} (h : s.AllWithin
    (fun id node => node.isVariable = true → sub.get? id = other.get? id) depth id) :
    sub.applyWithin mode depth id s = other.applyWithin mode depth id s := by
  induction depth generalizing id s with
  | zero => exact h.elim
  | succ depth ih =>
    obtain ⟨node, hNode, hSame, hParts⟩ := h
    rw [applyWithin, applyWithin, bind_of_ok (readNode_eq hNode), bind_of_ok (readNode_eq hNode)]
    cases hVar : node.isVariable with
    | true => rw [if_pos rfl, if_pos rfl, hSame hVar]
    | false =>
      rw [if_neg Bool.false_ne_true, if_neg Bool.false_ne_true]
      -- A component is walked in a store that has grown, in which the types below it are the same.
      refine bind_congr_of_run (mapM_congr_of_run (I := s.Extends) ?_ ?_ (.refl s)) fun _ _ _ => rfl
      · exact fun part hPart t hExt => ih ((hParts part hPart).extend hExt)
      · intro part t image u hExt hRun
        exact hExt.trans ((sub.applyWithin_ensures mode depth part t).of_ok hRun).1.extension

end Substitution

namespace TypeStore

variable {s : TypeStore} {sub other : Substitution} {id : TypeId} {vars : List TypeId}

/-- Both substitutions do the same to `id`, whether bound variables may stay or not: they end alike
and leave the same store. -/
structure RewrittenAlike (s : TypeStore) (id : TypeId) (sub other : Substitution) : Prop where
  lenient : sub.apply id s = other.apply id s
  strict : sub.applyStrict id s = other.applyStrict id s

theorem Grounded.rewrittenAlike (hGround : s.Grounded) (hId : s.Minted id)
    (hVars : s.vars id = .ok vars) (hSame : ∀ var ∈ vars, sub.get? var = other.get? var) :
    s.RewrittenAlike id sub other := by
  have hAll : s.AllWithin (fun id node => node.isVariable = true → sub.get? id = other.get? id)
      (Substitution.growingDepth s) id := by
    refine (hGround.allWithin hId ?_).mono (Substitution.le_growingDepth hId)
    intro var node hReach hNode hVar
    exact hSame var ((mem_vars_iff hVars).mpr ⟨hReach, node, hNode, hVar⟩)
  have hModes (mode : Strictness) : sub.applyAs mode id s = other.applyAs mode id s := by
    rw [Substitution.applyAs_eq, Substitution.applyAs_eq]
    exact Substitution.applyWithin_congr hAll
  exact ⟨hModes .lenient, hModes .strict⟩

/-- How a type is rewritten depends on the replacements of its variables only. So nothing changes
when a substitution keeps the entries of these variables and any others, forgets entries of others,
or is extended by entries of others. -/
theorem Built.rewrittenAlike_of_vars (hBuilt : s.Built) (hId : s.Minted id) :
    ∃ vars, s.vars id = .ok vars ∧ ∀ sub,
      (∀ other, (∀ var ∈ vars, sub.get? var = other.get? var) → s.RewrittenAlike id sub other) ∧
      (∀ keys, vars ⊆ keys → s.RewrittenAlike id (sub.only keys) sub) ∧
      (∀ keys, keys.Disjoint vars → s.RewrittenAlike id (sub.without keys) sub) ∧
      ∀ later, (∀ var ∈ vars, later.contains var = false) →
        s.RewrittenAlike id (sub.extend later) sub := by
  obtain ⟨vars, hVars⟩ := hBuilt.grounded.exists_vars hId
  have hAlike (sub other : Substitution) (h : ∀ var ∈ vars, sub.get? var = other.get? var) :
      s.RewrittenAlike id sub other := hBuilt.grounded.rewrittenAlike hId hVars h
  refine ⟨vars, hVars, fun sub => ⟨hAlike sub, ?_, ?_, ?_⟩⟩
  · intro keys hKeys
    refine hAlike _ _ fun var hVar => ?_
    rw [Substitution.get?_only, if_pos (hKeys hVar)]
  · intro keys hKeys
    refine hAlike _ _ fun var hVar => ?_
    rw [Substitution.get?_without, if_neg fun hMem => hKeys hMem hVar]
  · intro later hLater
    refine hAlike _ _ fun var hVar => ?_
    have hNone : later.get? var = none :=
      Option.isNone_iff_eq_none.mp (Option.isSome_eq_false_iff.mp (hLater var hVar))
    rw [Substitution.get?_extend, hNone, Option.none_or]

namespace Sample

theorem rewrittenAlike_of_vars_sample :
    mixed.RewrittenAlike ⟨22⟩ (half.extend (.ofPairs [(⟨16⟩, ⟨1⟩)])) half ∧
    mixed.RewrittenAlike ⟨16⟩ (fill.without [⟨14⟩, ⟨0⟩]) fill ∧
    mixed.RewrittenAlike ⟨16⟩ (fill.only [⟨7⟩, ⟨13⟩]) fill ∧
    mixed.RewrittenAlike ⟨16⟩ whole (.ofPairs [(⟨14⟩, ⟨5⟩), (⟨13⟩, ⟨0⟩)]) := by
  have hTuple : mixed.vars ⟨22⟩ = .ok [⟨13⟩, ⟨21⟩, ⟨14⟩] := by decide +kernel
  have hPair : mixed.vars ⟨16⟩ = .ok [⟨13⟩] := by decide +kernel
  constructor
  · obtain ⟨vars, hVars, hAlike⟩ :=
      built_mixed.rewrittenAlike_of_vars (show mixed.Minted ⟨22⟩ by decide +kernel)
    cases hTuple.symm.trans hVars
    exact (hAlike half).2.2.2 _ (by decide)
  · obtain ⟨vars, hVars, hAlike⟩ :=
      built_mixed.rewrittenAlike_of_vars (show mixed.Minted ⟨16⟩ by decide +kernel)
    cases hPair.symm.trans hVars
    refine ⟨(hAlike fill).2.2.1 _ ?_, (hAlike fill).2.1 _ ?_, (hAlike whole).1 _ ?_⟩
    · simp
    · simp
    · decide

end Sample

end TypeStore

end Specializer
