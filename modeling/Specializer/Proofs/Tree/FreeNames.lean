import Specializer.Capture
import Specializer.Proofs.FirstOccurrence
import Specializer.Proofs.Tree.Acyclic

/-!
# Free names

A name is free where it is read, and further out as long as nothing on the way binds it. That is
said by recursion on the expression alone, without a scope and without the names met before. The
walk that collects the captures of a lambda keeps both of these on its way; what it finds are the
free occurrences, of each name the first one. It follows that a lambda inside another one captures
what the outer one captures or what is bound between the two.
-/

set_option autoImplicit false

namespace Specializer

open Relation

/-- Direct sub-expressions in the order of evaluation, each with the names that are bound for it. -/
def ExprKind.scopedChildren : ExprKind → List (List SymbolId × ExprId)
  | .lambda params body => [(params.map LambdaParam.name, body)]
  | .letIn name value body => [([], value), ([name], body)]
  | kind => kind.children.map fun child => ([], child)

theorem ExprKind.map_snd_scopedChildren (kind : ExprKind) :
    kind.scopedChildren.map Prod.snd = kind.children := by
  cases kind <;> simp [scopedChildren, children]

theorem ExprKind.name_or_other (kind : ExprKind) :
    (∃ name, kind = .localName name) ∨ ∀ name, kind ≠ .localName name := by
  by_cases h : ∃ name, kind = .localName name
  · exact .inl h
  · exact .inr fun name hName => h ⟨name, hName⟩

theorem ModuleTree.hasChild_of_scoped {t : ModuleTree} {id : ExprId} {e : Expr}
    {part : List SymbolId × ExprId} (hExpr : t.readExpr id = .ok e)
    (hPart : part ∈ e.kind.scopedChildren) : t.HasChild id part.2 := by
  refine ⟨e, hExpr, ?_⟩
  rw [← e.kind.map_snd_scopedChildren]
  exact List.mem_map_of_mem hPart

def ModuleTree.Complete (t : ModuleTree) (id : ExprId) : Prop :=
  ∀ last, ReflTransGen t.HasChild id last → ∃ e, t.readExpr last = .ok e

theorem ModuleTree.ChildrenRanked.acyclic {t : ModuleTree} {rank : ExprId → Nat}
    (h : t.ChildrenRanked rank) (id : ExprId) : ¬TransGen t.HasChild id id := by
  have hLower : ∀ id child, t.HasChild id child → rank child < rank id := by
    rintro id child ⟨e, hExpr, hChild⟩
    exact h.lower hExpr hChild
  exact fun hCycle => Nat.lt_irrefl _ (lt_of_transGen hLower hCycle)

theorem ModuleTree.ChildrenRanked.complete {t : ModuleTree} {rank : ExprId → Nat}
    (h : t.ChildrenRanked rank) {id : ExprId} {e : Expr} (hExpr : t.readExpr id = .ok e) :
    t.Complete id := by
  intro last hReach
  induction hReach with
  | refl => exact ⟨e, hExpr⟩
  | tail _ hStep _ =>
    obtain ⟨outer, hOuter, hChild⟩ := hStep
    exact h.minted hOuter hChild

/-- The name is read somewhere in the expression, out of the reach of all that binds it there. -/
inductive ModuleTree.Free (t : ModuleTree) : ExprId → SymbolId → Prop where
  | here {id : ExprId} {e : Expr} {name : SymbolId} (hExpr : t.readExpr id = .ok e)
      (hKind : e.kind = .localName name) : Free t id name
  | inside {id child : ExprId} {e : Expr} {bound : List SymbolId} {name : SymbolId}
      (hExpr : t.readExpr id = .ok e) (hChild : (bound, child) ∈ e.kind.scopedChildren)
      (hNot : name ∉ bound) (hFree : Free t child name) : Free t id name

theorem ModuleTree.free_iff {t : ModuleTree} {id : ExprId} {e : Expr} {name : SymbolId}
    (hExpr : t.readExpr id = .ok e) : t.Free id name ↔ e.kind = .localName name ∨
      ∃ part ∈ e.kind.scopedChildren, name ∉ part.1 ∧ t.Free part.2 name := by
  constructor
  · intro h
    cases h with
    | here hExpr' hKind =>
      cases hExpr.symm.trans hExpr'
      exact .inl hKind
    | inside hExpr' hChild hNot hFree =>
      cases hExpr.symm.trans hExpr'
      exact .inr ⟨_, hChild, hNot, hFree⟩
  · rintro (hKind | ⟨part, hPart, hNot, hFree⟩)
    · exact .here hExpr hKind
    · exact .inside hExpr hPart hNot hFree

namespace Capture

def outside (bound : List SymbolId) (occurrences : List Capture) : List Capture :=
  occurrences.filter fun c => !bound.contains c.name

theorem outside_outside (inner outer : List SymbolId) (occurrences : List Capture) :
    outside outer (outside inner occurrences) = outside (inner ++ outer) occurrences := by
  simp only [outside, List.filter_filter, List.contains_append, Bool.not_or]
  exact List.filter_congr fun c _ => Bool.and_comm _ _

theorem mem_outside {bound : List SymbolId} {occurrences : List Capture} {c : Capture} :
    c ∈ outside bound occurrences ↔ c ∈ occurrences ∧ c.name ∉ bound := by
  simp [outside]

def note (found : List Capture) (c : Capture) : List Capture :=
  if found.any fun d => decide (d.name = c.name) then found else found ++ [c]

def firsts (occurrences : List Capture) : List Capture := occurrences.foldl note []

theorem firsts_concat (occurrences : List Capture) (c : Capture) :
    firsts (occurrences ++ [c]) = note (firsts occurrences) c := by
  rw [firsts, List.foldl_append]
  rfl

theorem names_firsts (occurrences : List Capture) :
    (firsts occurrences).map name = (occurrences.map name).eraseDups := by
  induction occurrences using List.reverseRecOn with
  | nil => rfl
  | append_singleton occurrences c ih =>
    have hAny : ((firsts occurrences).any fun d => decide (d.name = c.name)) = true ↔
        c.name ∈ occurrences.map name := by
      rw [← List.mem_eraseDups, ← ih]
      simp
    rw [firsts_concat, note, List.map_append, List.map_singleton]
    by_cases hMem : c.name ∈ occurrences.map name
    · rw [if_pos (hAny.mpr hMem), eraseDups_concat_of_mem hMem, ih]
    · rw [if_neg (hAny.not.mpr hMem), eraseDups_concat_of_not_mem hMem, List.map_append, ih,
        List.map_singleton]

theorem find?_of_mem_firsts {occurrences : List Capture} {c : Capture}
    (h : c ∈ firsts occurrences) :
    occurrences.find? (fun d => decide (d.name = c.name)) = some c := by
  induction occurrences using List.reverseRecOn with
  | nil => cases h
  | append_singleton occurrences last ih =>
    rw [firsts_concat, note] at h
    rw [List.find?_append]
    split at h
    case isTrue => rw [ih h, Option.some_or]
    case isFalse hNew =>
      rcases List.mem_append.mp h with h | h
      · rw [ih h, Option.some_or]
      · obtain rfl := List.mem_singleton.mp h
        have hNone : c.name ∉ occurrences.map name := by
          rw [← List.mem_eraseDups, ← names_firsts]
          simpa using hNew
        have hFind : occurrences.find? (fun d => decide (d.name = c.name)) = none := by
          simpa using hNone
        simp [hFind]

theorem mem_of_mem_firsts {occurrences : List Capture} {c : Capture} (h : c ∈ firsts occurrences) :
    c ∈ occurrences :=
  List.mem_of_find?_eq_some (find?_of_mem_firsts h)

end Capture

namespace ModuleTree

variable {t : ModuleTree} {depth : Nat} {id : ExprId} {e : Expr}

/-- The free occurrences of names in an expression, in the order of evaluation. -/
def freeWithin (t : ModuleTree) : Nat → ExprId → Read (List Capture)
  | 0, _ => .error .endless
  | depth + 1, id => do
      let e ← t.readExpr id
      match e.kind with
      | .localName name => return [⟨name, e.type⟩]
      | kind => (kind.scopedChildren.mapM fun part =>
          (t.freeWithin depth part.2).map (Capture.outside part.1)).map List.flatten

def FreeOccurrences (t : ModuleTree) (id : ExprId) (occurrences : List Capture) : Prop :=
  ∃ depth, t.freeWithin depth id = .ok occurrences

theorem freeWithin_of_name (hExpr : t.readExpr id = .ok e) {name : SymbolId}
    (hKind : e.kind = .localName name) : t.freeWithin (depth + 1) id = .ok [⟨name, e.type⟩] := by
  rw [freeWithin, hExpr, Read.ok_bind, hKind]
  rfl

theorem freeWithin_of_parts (hExpr : t.readExpr id = .ok e)
    (hKind : ∀ name, e.kind ≠ .localName name) : t.freeWithin (depth + 1) id =
      (e.kind.scopedChildren.mapM fun part =>
        (t.freeWithin depth part.2).map (Capture.outside part.1)).map List.flatten := by
  rw [freeWithin, hExpr, Read.ok_bind]
  split
  case h_1 name hName => exact absurd hName (hKind name)
  case h_2 => rfl

theorem freeWithin_cases {occurrences : List Capture}
    (h : t.freeWithin (depth + 1) id = .ok occurrences) : ∃ e, t.readExpr id = .ok e ∧
      ((∃ name, e.kind = .localName name ∧ occurrences = [⟨name, e.type⟩]) ∨
        (∀ name, e.kind ≠ .localName name) ∧ ∃ parts, List.Forall₂ (fun part found =>
          ∃ inside, t.freeWithin depth part.2 = .ok inside ∧ Capture.outside part.1 inside = found)
            e.kind.scopedChildren parts ∧ occurrences = parts.flatten) := by
  cases hExpr : t.readExpr id with
  | error reason =>
    rw [freeWithin, hExpr] at h
    cases h
  | ok e =>
    refine ⟨e, rfl, ?_⟩
    rcases e.kind.name_or_other with ⟨name, hName⟩ | hKind
    · rw [freeWithin_of_name hExpr hName] at h
      cases h
      exact .inl ⟨name, hName, rfl⟩
    · rw [freeWithin_of_parts hExpr hKind] at h
      obtain ⟨parts, hParts, rfl⟩ := Read.map_eq_ok_iff.mp h
      have hEach := Read.mapM_eq_ok_iff.mp hParts
      exact .inr ⟨hKind, parts, hEach.imp fun _ _ => Read.map_eq_ok_iff.mp, rfl⟩

theorem mem_freeWithin_iff {occurrences : List Capture}
    (h : t.freeWithin depth id = .ok occurrences) {name : SymbolId} :
    name ∈ occurrences.map Capture.name ↔ t.Free id name := by
  induction depth generalizing id occurrences with
  | zero => cases h
  | succ depth ih =>
    obtain ⟨e, hExpr, ⟨other, hKind, rfl⟩ | ⟨hKind, parts, hParts, rfl⟩⟩ := freeWithin_cases h
    · rw [free_iff hExpr, hKind]
      simp [ExprKind.scopedChildren, ExprKind.children, eq_comm]
    · rw [free_iff hExpr, or_iff_right (hKind name)]
      constructor
      · intro hMem
        obtain ⟨c, hFlat, rfl⟩ := List.mem_map.mp hMem
        obtain ⟨found, hFound, hc⟩ := List.mem_flatten.mp hFlat
        obtain ⟨part, hPart, inside, hInside, rfl⟩ := exists_mem_left_of_forall₂ hParts hFound
        obtain ⟨hc, hNot⟩ := Capture.mem_outside.mp hc
        exact ⟨part, hPart, hNot, (ih hInside).mp (List.mem_map_of_mem hc)⟩
      · rintro ⟨part, hPart, hNot, hFree⟩
        obtain ⟨found, hFound, inside, hInside, rfl⟩ := exists_mem_right_of_forall₂ hParts hPart
        obtain ⟨c, hc, rfl⟩ := List.mem_map.mp ((ih hInside).mpr hFree)
        have hOutside : c ∈ Capture.outside part.1 inside := Capture.mem_outside.mpr ⟨hc, hNot⟩
        exact List.mem_map_of_mem (List.mem_flatten.mpr ⟨_, hFound, hOutside⟩)

theorem occurs_of_mem_freeWithin {occurrences : List Capture}
    (h : t.freeWithin depth id = .ok occurrences) {c : Capture} (hc : c ∈ occurrences) :
    ∃ position inner, t.Occurs id position inner ∧ inner.kind = .localName c.name ∧
      c.type = inner.type := by
  induction depth generalizing id occurrences with
  | zero => cases h
  | succ depth ih =>
    obtain ⟨e, hExpr, ⟨name, hKind, rfl⟩ | ⟨-, parts, hParts, rfl⟩⟩ := freeWithin_cases h
    · cases List.mem_singleton.mp hc
      exact ⟨id, e, .here hExpr, hKind, rfl⟩
    · obtain ⟨found, hFound, hc⟩ := List.mem_flatten.mp hc
      obtain ⟨part, hPart, inside, hInside, rfl⟩ := exists_mem_left_of_forall₂ hParts hFound
      obtain ⟨position, inner, hOccurs, hLocal⟩ := ih hInside (Capture.mem_outside.mp hc).1
      obtain ⟨_, hExpr', hChild⟩ := hasChild_of_scoped hExpr hPart
      exact ⟨position, inner, .inside hExpr' hChild hOccurs, hLocal⟩

theorem complete_of_freeWithin {occurrences : List Capture}
    (h : t.freeWithin depth id = .ok occurrences) : t.Complete id := by
  induction depth generalizing id occurrences with
  | zero => cases h
  | succ depth ih =>
    intro last hReach
    obtain ⟨e, hExpr, hCases⟩ := freeWithin_cases h
    rcases ReflTransGen.cases_head hReach with rfl | ⟨child, ⟨e', hExpr', hChild⟩, hRest⟩
    · exact ⟨e, hExpr⟩
    · cases hExpr.symm.trans hExpr'
      obtain ⟨name, hKind, -⟩ | ⟨-, parts, hParts, -⟩ := hCases
      · rw [hKind] at hChild
        cases hChild
      · rw [← e.kind.map_snd_scopedChildren] at hChild
        obtain ⟨part, hPart, rfl⟩ := List.mem_map.mp hChild
        obtain ⟨_, -, inside, hInside, -⟩ := exists_mem_right_of_forall₂ hParts hPart
        exact ih hInside last hRest

/-- A search that goes deep enough fails only where an expression is missing. -/
theorem exists_missing_of_freeWithin (hAcyclic : ∀ id, ¬TransGen t.HasChild id id)
    (hDepth : t.childRank id < depth) {reason : Fault} (h : t.freeWithin depth id = .error reason) :
    ∃ last, ReflTransGen t.HasChild id last ∧ t.readExpr last = .error reason := by
  induction depth generalizing id with
  | zero => exact absurd hDepth (Nat.not_lt_zero _)
  | succ depth ih =>
    cases hExpr : t.readExpr id with
    | error other =>
      rw [freeWithin, hExpr] at h
      cases h
      exact ⟨id, .refl, hExpr⟩
    | ok e =>
      rcases e.kind.name_or_other with ⟨name, hName⟩ | hKind
      · rw [freeWithin_of_name hExpr hName] at h
        cases h
      · rw [freeWithin_of_parts hExpr hKind] at h
        obtain ⟨part, hPart, hFault⟩ :=
          Read.exists_of_mapM_eq_error (Read.map_eq_error_iff.mp h)
        have hChild := hasChild_of_scoped hExpr hPart
        have hLess := childRank_lt hAcyclic hChild
        obtain ⟨last, hReach, hLast⟩ := ih (by omega) (Read.map_eq_error_iff.mp hFault)
        exact ⟨last, .head hChild hReach, hLast⟩

theorem exists_freeWithin (hAcyclic : ∀ id, ¬TransGen t.HasChild id id)
    (hDepth : t.exprs.size < depth) (hComplete : t.Complete id) :
    ∃ occurrences, t.freeWithin depth id = .ok occurrences := by
  cases hFree : t.freeWithin depth id with
  | ok occurrences => exact ⟨occurrences, rfl⟩
  | error reason =>
    have hRank := Nat.lt_of_le_of_lt (childRank_le hAcyclic id) hDepth
    obtain ⟨last, hReach, hMissing⟩ := exists_missing_of_freeWithin hAcyclic hRank hFree
    obtain ⟨e, hExpr⟩ := hComplete last hReach
    cases hMissing.symm.trans hExpr

theorem freeWithin_of_not_complete (hAcyclic : ∀ id, ¬TransGen t.HasChild id id)
    (hDepth : t.exprs.size < depth) (hMissing : ¬t.Complete id) :
    t.freeWithin depth id = .error .unminted := by
  cases hFree : t.freeWithin depth id with
  | ok occurrences => exact absurd (complete_of_freeWithin hFree) hMissing
  | error reason =>
    have hRank := Nat.lt_of_le_of_lt (childRank_le hAcyclic id) hDepth
    obtain ⟨last, -, hLast⟩ := exists_missing_of_freeWithin hAcyclic hRank hFree
    rw [Arena.eq_unminted_of_read hLast]

end ModuleTree

namespace Capture

variable {t : ModuleTree} {depth : Nat} {scope : List SymbolId} {found : List Capture} {id : ExprId}
  {e : Expr}

theorem collectWithin_of_name (hExpr : t.readExpr id = .ok e) {name : SymbolId}
    (hKind : e.kind = .localName name) : collectWithin t (depth + 1) scope found id =
      .ok ((outside scope [⟨name, e.type⟩]).foldl note found) := by
  rw [collectWithin, hExpr, Read.ok_bind, hKind]
  by_cases hScope : name ∈ scope
  · simp [outside, hScope, pure, Except.pure]
  · by_cases hFound : found.any fun c => decide (c.name = name)
    · simp [outside, note, hScope, hFound, pure, Except.pure]
    · simp [outside, note, hScope, hFound, pure, Except.pure]

theorem collectWithin_of_parts (hExpr : t.readExpr id = .ok e)
    (hKind : ∀ name, e.kind ≠ .localName name) : collectWithin t (depth + 1) scope found id =
      e.kind.scopedChildren.foldlM
        (fun found part => collectWithin t depth (part.1 ++ scope) found part.2) found := by
  rw [collectWithin, hExpr, Read.ok_bind]
  cases hCase : e.kind with
  | localName name => exact absurd hCase (hKind name)
  | lambda params body => simp [ExprKind.scopedChildren]
  | letIn name value body => simp [ExprKind.scopedChildren]
  | _ => simp [ExprKind.scopedChildren, List.foldlM_map]

theorem foldlM_collectWithin
    (hEach : ∀ scope found id, collectWithin t depth scope found id =
      (t.freeWithin depth id).map fun occurrences => (outside scope occurrences).foldl note found)
    (parts : List (List SymbolId × ExprId)) (scope : List SymbolId) (found : List Capture) :
    parts.foldlM (fun found part => collectWithin t depth (part.1 ++ scope) found part.2) found =
      (parts.mapM fun part => (t.freeWithin depth part.2).map (outside part.1)).map
        fun lists => (outside scope lists.flatten).foldl note found := by
  induction parts generalizing found with
  | nil => rfl
  | cons part rest ih =>
    rw [List.foldlM_cons, List.mapM_cons, hEach]
    cases t.freeWithin depth part.2 with
    | error reason => rfl
    | ok occurrences =>
      change rest.foldlM _ ((outside (part.1 ++ scope) occurrences).foldl note found) = _
      rw [ih]
      cases rest.mapM fun part => (t.freeWithin depth part.2).map (outside part.1) with
      | error reason => rfl
      | ok lists =>
        have hSplit : outside scope (outside part.1 occurrences :: lists).flatten =
            outside (part.1 ++ scope) occurrences ++ outside scope lists.flatten := by
          rw [← outside_outside, List.flatten_cons, outside, List.filter_append]
          rfl
        refine congrArg Except.ok ?_
        beta_reduce
        rw [hSplit, List.foldl_append]

/-- Inside a scope the walk adds the free occurrences that the scope does not bind, in order, and
faults where looking for the free occurrences does. -/
theorem collectWithin_eq (t : ModuleTree) (depth : Nat) (scope : List SymbolId)
    (found : List Capture) (id : ExprId) :
    collectWithin t depth scope found id = (t.freeWithin depth id).map
      fun occurrences => (outside scope occurrences).foldl note found := by
  induction depth generalizing scope found id with
  | zero => rfl
  | succ depth ih =>
    cases hExpr : t.readExpr id with
    | error reason =>
      rw [collectWithin, ModuleTree.freeWithin, hExpr]
      rfl
    | ok e =>
      rcases e.kind.name_or_other with ⟨name, hName⟩ | hKind
      · rw [collectWithin_of_name hExpr hName, ModuleTree.freeWithin_of_name hExpr hName]
        rfl
      · rw [collectWithin_of_parts hExpr hKind, ModuleTree.freeWithin_of_parts hExpr hKind,
          foldlM_collectWithin ih]
        cases e.kind.scopedChildren.mapM fun part =>
          (t.freeWithin depth part.2).map (outside part.1) <;> rfl

theorem ofLambda_eq (hExpr : t.readExpr id = .ok e) (hLambda : e.kind.isLambda = true) :
    ofLambda t id = (t.freeWithin (t.exprs.size + 2) id).map firsts := by
  cases hKind : e.kind with
  | lambda params body =>
    have hParts : ∀ name, e.kind ≠ .localName name := by simp [hKind]
    rw [ofLambda, hExpr, Read.ok_bind, hKind, ModuleTree.freeWithin_of_parts hExpr hParts, hKind]
    simp only [collectWithin_eq, ExprKind.scopedChildren, List.mapM_cons, List.mapM_nil]
    cases t.freeWithin (t.exprs.size + 1) body with
    | error reason => rfl
    | ok occurrences =>
      change Except.ok (firsts _) = Except.ok (firsts [outside _ occurrences].flatten)
      rw [List.flatten_singleton]
  | _ => simp [hKind, ExprKind.isLambda] at hLambda

theorem ofLambda_of_not_lambda (hExpr : t.readExpr id = .ok e) (hNot : e.kind.isLambda = false) :
    ofLambda t id = .ok [] := by
  rw [ofLambda, hExpr, Read.ok_bind]
  split
  case h_1 params body hKind =>
    rw [hKind] at hNot
    cases hNot
  case h_2 => rfl

theorem exists_ofLambda_eq (hAcyclic : ∀ id, ¬TransGen t.HasChild id id)
    (hExpr : t.readExpr id = .ok e) (hLambda : e.kind.isLambda = true)
    (hComplete : t.Complete id) : ∃ occurrences, t.FreeOccurrences id occurrences ∧
      ofLambda t id = .ok (firsts occurrences) ∧
      ∀ name, name ∈ (firsts occurrences).map Capture.name ↔ t.Free id name := by
  have hDepth : t.exprs.size < t.exprs.size + 2 := Nat.lt_add_of_pos_right Nat.two_pos
  obtain ⟨occurrences, hFree⟩ := ModuleTree.exists_freeWithin hAcyclic hDepth hComplete
  refine ⟨occurrences, ⟨_, hFree⟩, ?_, fun name => ?_⟩
  · rw [ofLambda_eq hExpr hLambda, hFree]
    rfl
  · rw [names_firsts, List.mem_eraseDups, ModuleTree.mem_freeWithin_iff hFree]

theorem exists_ofLambda {rank : ExprId → Nat} (hChildren : t.ChildrenRanked rank)
    (hExpr : t.readExpr id = .ok e) :
    ∃ captures, ofLambda t id = .ok captures ∧ ∀ c ∈ captures, ∃ position inner,
      t.Occurs id position inner ∧ inner.kind = .localName c.name ∧ c.type = inner.type := by
  by_cases hLambda : e.kind.isLambda = true
  · obtain ⟨occurrences, ⟨_, hFree⟩, hCaptures, -⟩ :=
      exists_ofLambda_eq hChildren.acyclic hExpr hLambda (hChildren.complete hExpr)
    exact ⟨_, hCaptures,
      fun c hc => ModuleTree.occurs_of_mem_freeWithin hFree (mem_of_mem_firsts hc)⟩
  · exact ⟨[], ofLambda_of_not_lambda hExpr (Bool.eq_false_iff.mpr hLambda), by simp⟩

theorem ofLambda_of_not_complete (hAcyclic : ∀ id, ¬TransGen t.HasChild id id)
    (hExpr : t.readExpr id = .ok e) (hLambda : e.kind.isLambda = true)
    (hMissing : ¬t.Complete id) : ofLambda t id = .error .unminted := by
  rw [ofLambda_eq hExpr hLambda, ModuleTree.freeWithin_of_not_complete hAcyclic
    (Nat.lt_add_of_pos_right Nat.two_pos) hMissing]
  rfl

/-- The captures of a lambda are the names that are free in it, without repetition. They come in the
order of their first free occurrences, each with the type it has there. Only a handle that names
nothing keeps a lambda from having captures. -/
theorem ofLambda_lists_free (hAcyclic : ∀ id, ¬TransGen t.HasChild id id)
    (hExpr : t.readExpr id = .ok e) (hLambda : e.kind.isLambda = true) :
    (t.Complete id → ∃ captures occurrences, ofLambda t id = .ok captures ∧
      t.FreeOccurrences id occurrences ∧ (captures.map name).Nodup ∧
      (∀ name, name ∈ captures.map Capture.name ↔ t.Free id name) ∧
      captures.map name = (occurrences.map name).eraseDups ∧
      ∀ c ∈ captures, occurrences.find? (fun d => decide (d.name = c.name)) = some c) ∧
    (¬t.Complete id → ofLambda t id = .error .unminted) := by
  refine ⟨fun hComplete => ?_, ofLambda_of_not_complete hAcyclic hExpr hLambda⟩
  obtain ⟨occurrences, hFree, hCaptures, hNames⟩ :=
    exists_ofLambda_eq hAcyclic hExpr hLambda hComplete
  refine ⟨firsts occurrences, occurrences, hCaptures, hFree, ?_, hNames, names_firsts occurrences,
    fun c => find?_of_mem_firsts⟩
  rw [names_firsts]
  exact nodup_eraseDups _

end Capture

namespace Shadows

/-! Two parameters of one name; around the inner lambda a `let` binds the name that its value reads;
and a parameter of the inner lambda is read again outside of it, at another type. -/

def x : SymbolId := ⟨0⟩
def y : SymbolId := ⟨1⟩
def z : SymbolId := ⟨2⟩
def w : SymbolId := ⟨3⟩

/-- The lambda `fun (x, x) -> (let y = y in fun (z) -> (z, y, w, x), z, y)`. -/
def tree : ModuleTree :=
  ⟨.empty, ⟨#[⟨.localName y, .origin, ⟨5⟩⟩, ⟨.localName z, .origin, ⟨5⟩⟩,
    ⟨.localName w, .origin, ⟨1⟩⟩, ⟨.localName x, .origin, ⟨5⟩⟩,
    ⟨.tuple [⟨1⟩, ⟨0⟩, ⟨2⟩, ⟨3⟩], .origin, ⟨13⟩⟩, ⟨.lambda [⟨z, ⟨5⟩⟩] ⟨4⟩, .origin, ⟨14⟩⟩,
    ⟨.letIn y ⟨0⟩ ⟨5⟩, .origin, ⟨14⟩⟩, ⟨.localName z, .origin, ⟨12⟩⟩,
    ⟨.localName y, .origin, ⟨1⟩⟩, ⟨.tuple [⟨6⟩, ⟨7⟩, ⟨8⟩], .origin, ⟨15⟩⟩,
    ⟨.lambda [⟨x, ⟨5⟩⟩, ⟨x, ⟨1⟩⟩] ⟨9⟩, .origin, ⟨16⟩⟩]⟩⟩

theorem acyclic : ∀ id, ¬TransGen tree.HasChild id id :=
  (ModuleTree.Acyclic.of_ranks Handle.index Handle.index (by decide) (by decide)).children

theorem complete : tree.Complete ⟨10⟩ := by
  have hFree : tree.freeWithin 6 ⟨10⟩ =
      .ok [⟨y, ⟨5⟩⟩, ⟨w, ⟨1⟩⟩, ⟨z, ⟨12⟩⟩, ⟨y, ⟨1⟩⟩] := rfl
  exact ModuleTree.complete_of_freeWithin hFree

theorem ofLambda_outer :
    Capture.ofLambda tree ⟨10⟩ = .ok [⟨y, ⟨5⟩⟩, ⟨w, ⟨1⟩⟩, ⟨z, ⟨12⟩⟩] := rfl

theorem outer_lists_free : Capture.ofLambda tree ⟨10⟩ = .ok [⟨y, ⟨5⟩⟩, ⟨w, ⟨1⟩⟩, ⟨z, ⟨12⟩⟩] ∧
    ∀ name, name ∈ [y, w, z] ↔ tree.Free ⟨10⟩ name := by
  obtain ⟨captures, _, hCaptures, -, -, hNames, -⟩ :=
    (Capture.ofLambda_lists_free acyclic (show tree.readExpr ⟨10⟩ = .ok _ from rfl) rfl).1 complete
  cases ofLambda_outer.symm.trans hCaptures
  exact ⟨ofLambda_outer, hNames⟩

end Shadows

/-- A way down from an expression, with the names that are bound on it for what is at its end. -/
inductive ModuleTree.Enters (t : ModuleTree) : ExprId → List SymbolId → ExprId → Prop where
  | here (id : ExprId) : Enters t id [] id
  | inside {id child last : ExprId} {e : Expr} {names bound : List SymbolId}
      (hExpr : t.readExpr id = .ok e) (hChild : (names, child) ∈ e.kind.scopedChildren)
      (hRest : Enters t child bound last) : Enters t id (names ++ bound) last

namespace ModuleTree.Enters

variable {t : ModuleTree} {id last : ExprId} {bound : List SymbolId}

theorem reaches (h : t.Enters id bound last) : ReflTransGen t.HasChild id last := by
  induction h with
  | here => exact .refl
  | inside hExpr hChild _ ih => exact .head (hasChild_of_scoped hExpr hChild) ih

theorem free (h : t.Enters id bound last) {name : SymbolId} (hFree : t.Free last name)
    (hNot : name ∉ bound) : t.Free id name := by
  induction h with
  | here => exact hFree
  | inside hExpr hChild _ ih =>
    obtain ⟨hNames, hBound⟩ := not_or.mp (List.mem_append.not.mp hNot)
    exact .inside hExpr hChild hNames (ih hFree hBound)

end ModuleTree.Enters

namespace Capture

variable {t : ModuleTree} {outer inner body : ExprId} {e e' : Expr} {params : List LambdaParam}
  {bound : List SymbolId}

/-- What a lambda inside another one captures can be had from the outer one: it is captured there
too, or a parameter of it, or bound on the way. -/
theorem ofLambda_inner_available (hAcyclic : ∀ id, ¬TransGen t.HasChild id id)
    (hOuter : t.readExpr outer = .ok e) (hKind : e.kind = .lambda params body)
    (hEnters : t.Enters body bound inner) (hInner : t.readExpr inner = .ok e')
    (hLambda : e'.kind.isLambda = true) :
    (t.Complete outer → ∃ captures captures', ofLambda t outer = .ok captures ∧
      ofLambda t inner = .ok captures' ∧ ∀ name ∈ captures'.map Capture.name,
        name ∈ captures.map Capture.name ∨ name ∈ params.map LambdaParam.name ∨ name ∈ bound) ∧
    (¬t.Complete outer → ofLambda t outer = .error .unminted) := by
  have hLambda' : e.kind.isLambda = true := by rw [hKind]; rfl
  have hBody : (params.map LambdaParam.name, body) ∈ e.kind.scopedChildren := by
    rw [hKind]
    exact List.mem_singleton_self _
  have hPath : t.Enters outer (params.map LambdaParam.name ++ bound) inner :=
    .inside hOuter hBody hEnters
  refine ⟨fun hComplete => ?_, ofLambda_of_not_complete hAcyclic hOuter hLambda'⟩
  have hComplete' : t.Complete inner :=
    fun last hReach => hComplete last (hPath.reaches.trans hReach)
  obtain ⟨_, -, hCaptures, hNames⟩ := exists_ofLambda_eq hAcyclic hOuter hLambda' hComplete
  obtain ⟨_, -, hCaptures', hNames'⟩ := exists_ofLambda_eq hAcyclic hInner hLambda hComplete'
  refine ⟨_, _, hCaptures, hCaptures', fun name hName => ?_⟩
  by_cases hBound : name ∈ params.map LambdaParam.name ++ bound
  · exact .inr (List.mem_append.mp hBound)
  · exact .inl ((hNames name).mpr (hPath.free ((hNames' name).mp hName) hBound))

end Capture

namespace Shadows

theorem inner_available : Capture.ofLambda tree ⟨5⟩ = .ok [⟨y, ⟨5⟩⟩, ⟨w, ⟨1⟩⟩, ⟨x, ⟨5⟩⟩] ∧
    ∀ name ∈ [y, w, x], name ∈ [y, w, z] ∨ name ∈ [x, x] ∨ name ∈ [y] := by
  have hInner : Capture.ofLambda tree ⟨5⟩ = .ok [⟨y, ⟨5⟩⟩, ⟨w, ⟨1⟩⟩, ⟨x, ⟨5⟩⟩] := rfl
  have hTuple : ([], ⟨6⟩) ∈ ExprKind.scopedChildren (.tuple [⟨6⟩, ⟨7⟩, ⟨8⟩]) := by decide
  have hLet : ([y], ⟨5⟩) ∈ ExprKind.scopedChildren (.letIn y ⟨0⟩ ⟨5⟩) := by decide
  have hBelow : tree.Enters ⟨6⟩ ([y] ++ []) ⟨5⟩ := .inside rfl hLet (.here ⟨5⟩)
  have hEnters : tree.Enters ⟨9⟩ ([] ++ ([y] ++ [])) ⟨5⟩ := .inside rfl hTuple hBelow
  obtain ⟨captures, captures', hCaptures, hCaptures', hAvailable⟩ :=
    (Capture.ofLambda_inner_available acyclic (show tree.readExpr ⟨10⟩ = .ok _ from rfl) rfl hEnters
      rfl rfl).1 complete
  cases ofLambda_outer.symm.trans hCaptures
  cases hInner.symm.trans hCaptures'
  exact ⟨hInner, hAvailable⟩

end Shadows

end Specializer
