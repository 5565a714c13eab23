import Specializer.Proofs.Instance.Calls

/-!
# Well-formed programs do not go wrong

In a well-formed program a run for a module without parameters comes to its end, or it is refused
because the limit on the number of instances is reached. It never stops with a fault, and no other
refusal can happen. A module inside one with parameters has no instance of its own to start with,
and the run says so at once.
-/

set_option autoImplicit false

namespace Specializer

open Update RunState ModuleTree

theorem Update.Ensures.ok_or_error {σ ε α : Type} {update : Update σ ε α} {s : σ} {Q : α → σ → Prop}
    {F : Failure ε → σ → Prop} (h : update.Ensures s Q F) :
    (∃ a t, update s = .ok a t ∧ Q a t) ∨ ∃ e t, update s = .error e t ∧ F e t := by
  cases hRun : update s with
  | ok a t => exact .inl ⟨a, t, rfl, h.of_ok hRun⟩
  | error e t => exact .inr ⟨e, t, rfl, h.of_error hRun⟩

theorem ModuleTree.plain_of_outer {t : ModuleTree} {id : ModuleId} {m : ModuleDecl}
    (hDecl : t.readModule id = .ok m) (hParams : m.params = [])
    (hOuter : ∀ outer, m.parent = some outer → t.Plain outer) : t.Plain id := by
  intro last hWithin
  rcases (within_iff hDecl).mp hWithin with rfl | ⟨outer, hParent, hWithin⟩
  · exact ⟨m, hDecl, hParams⟩
  · exact hOuter outer hParent last hWithin

namespace Run

variable {p : Program}

theorem enclosing_outside {again : ModuleId → Span → Run InstanceId} {m : ModuleDecl}
    {outer : ModuleId} (hParent : m.parent = some outer)
    (hGeneric : p.tree.isMonomorphicChain outer = .ok false) (name : String) (span : Span)
    (s : RunState) : (enclosing p again m name none span).Ensures s (fun _ _ => False)
      (fun e t => e = .refused ⟨.outsideInstance name, span⟩ ∧ t = s) := by
  unfold enclosing
  rw [hParent]
  refine Ensures.bind (Q := fun found t => found = none ∧ t = s) ⟨rfl, rfl⟩ ?_ fun _ _ h => h
  rintro _ s ⟨rfl, rfl⟩
  exact Ensures.bindReadOk hGeneric (Ensures.refuse ⟨rfl, rfl⟩)

theorem instantiate_outside {root outer : ModuleId} {m : ModuleDecl} {name : String}
    (hDecl : p.tree.readModule root = .ok m) (hName : p.symbols.name m.name = .ok name)
    (hParams : m.params = []) (hParent : m.parent = some outer)
    (hGeneric : p.tree.isMonomorphicChain outer = .ok false) (s : RunState) :
    (instantiate p root []).Ensures s (fun _ _ => False)
      (fun e t => e = .refused ⟨.outsideInstance name, m.span⟩ ∧ t = s) := by
  have hOwn : ownSubstitution m name [] = .ok .empty := by simp [ownSubstitution, hParams]
  unfold instantiate request requestWithin
  refine Ensures.bindReadOk hDecl (Ensures.bindReadOk hDecl (Ensures.bindReadOk hName ?_))
  rw [hParams]
  refine Ensures.bind (Q := fun _ t => t = s) rfl ?_ fun _ _ => False.elim
  rintro site s rfl
  refine Ensures.bind (Q := fun actuals t => actuals = [] ∧ t = s) ⟨rfl, rfl⟩ ?_
    fun _ _ => False.elim
  rintro _ s ⟨rfl, rfl⟩
  rw [List.filterMap_nil, hOwn]
  dsimp only
  rw [pure_bind]
  exact Ensures.bind (enclosing_outside hParent hGeneric name m.span s) (fun _ _ => False.elim)
    fun _ _ h => h

end Run

/-- A run for a module without parameters ends well or at the limit, unless a module around the root
has parameters, which is refused. -/
theorem complete_ok_or_limit {p : Program} {types : TypeStore} (hWell : p.WellFormed types)
    {root : ModuleId} {m : ModuleDecl} (hDecl : p.tree.readModule root = .ok m)
    (hParams : m.params = []) :
    (p.tree.Plain root →
      (∃ out t, Run.complete p root (.start types) = .ok out t) ∨
        ∃ e t, Run.complete p root (.start types) = .error e t ∧ LimitReached p e t) ∧
    (¬p.tree.Plain root → ∃ name, p.symbols.name m.name = .ok name ∧
      Run.complete p root (.start types) =
        .error (.refused ⟨.outsideInstance name, m.span⟩) (.start types)) := by
  constructor
  · intro hPlain
    have hOrderly : Orderly p (.start types) := ⟨⟨types, hWell, .refl _⟩, hWell.sane⟩
    rcases (Run.complete_ensures p root types).ok_or_error with
      ⟨out, t, hRun, -⟩ | ⟨e, t, hRun, -, hLimit⟩
    · exact .inl ⟨out, t, hRun⟩
    · exact .inr ⟨e, t, hRun, hLimit (hOrderly.ready hPlain)⟩
  · intro hGeneric
    obtain ⟨name, hName⟩ := (hWell.modules hDecl).name
    refine ⟨name, hName, ?_⟩
    -- The root itself has no parameters, so the obstacle is further out.
    obtain ⟨outer, hParent, hOuter⟩ : ∃ outer, m.parent = some outer ∧ ¬p.tree.Plain outer := by
      by_contra hNone
      refine hGeneric (plain_of_outer hDecl hParams fun outer hParent => ?_)
      by_contra hOuter
      exact hNone ⟨outer, hParent, hOuter⟩
    obtain ⟨n, hOuterDecl⟩ := exists_readModule_of_within hWell.parentsFirst.ranked hDecl
      (.outer hDecl hParent (.self outer))
    obtain ⟨answer, hAnswer, hIff⟩ := isMonomorphicChain_eq hWell.parentsFirst.ranked hOuterDecl
    have hFalse : answer = false := Bool.eq_false_iff.mpr (mt hIff.mp hOuter)
    rw [hFalse] at hAnswer
    have hRefused := Run.instantiate_outside hDecl hName hParams hParent hAnswer (.start types)
    have hComplete : (Run.complete p root).Ensures (.start types) (fun _ _ => False)
        (fun e t => e = .refused ⟨.outsideInstance name, m.span⟩ ∧ t = .start types) :=
      hRefused.bind (fun _ _ => False.elim) fun _ _ h => h
    rcases hComplete.ok_or_error with ⟨_, _, -, hNever⟩ | ⟨_, _, hRun, rfl, rfl⟩
    · exact hNever.elim
    · exact hRun

/-- Only the limit could stop a run for the main module; the cell cannot be had without a box. -/
theorem complete_cell_refused : Sample.program.WellFormed Sample.types ∧
    ((∃ out t, Run.complete Sample.program ⟨2⟩ (.start Sample.types) = .ok out t) ∨
      ∃ e t, Run.complete Sample.program ⟨2⟩ (.start Sample.types) = .error e t ∧
        LimitReached Sample.program e t) ∧
    ∃ t, Run.complete Sample.program ⟨1⟩ (.start Sample.types) =
      .error (.refused ⟨.outsideInstance "Cell", .origin⟩) t := by
  have hMain : Sample.program.tree.Plain ⟨2⟩ :=
    plain_of_outer (m := Sample.main) rfl rfl fun _ h => nomatch h
  have hCell : ¬Sample.program.tree.Plain ⟨1⟩ := fun h =>
    nomatch (h.outer (m := Sample.cell) rfl rfl).params_eq (m := Sample.box) rfl
  refine ⟨Sample.wellFormed, ?_, ?_⟩
  · exact (complete_ok_or_limit Sample.wellFormed (m := Sample.main) rfl rfl).1 hMain
  · obtain ⟨name, hName, hRun⟩ :=
      (complete_ok_or_limit Sample.wellFormed (m := Sample.cell) rfl rfl).2 hCell
    have hText : Sample.program.symbols.name Sample.cell.name = .ok "Cell" := by decide +kernel
    cases hText.symm.trans hName
    exact ⟨_, hRun⟩

end Specializer
