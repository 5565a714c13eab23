import Specializer.Instance.Request
import Specializer.Proofs.Types.Growth

/-!
# What lies around a module and inside an expression

`Within` goes from a module to those around it and `Occurs` from an expression to those inside it.
Both follow handles without a bound on their number. The walks of the program, which have a bound,
see exactly this whenever they come to an end. They come to an end if there are ranks that go down
with every parent and every sub-expression; handles are such ranks if each of these was there before
what refers to it.
-/

set_option autoImplicit false

namespace Specializer

theorem Arena.exists_get?_of_lt {table : Table} {α : Type} {a : Arena table α} {h : Handle table}
    (hLt : h.index < a.size) : ∃ x, a.get? h = some x :=
  ⟨_, Array.getElem?_eq_getElem hLt⟩

theorem Arena.lt_of_read {table : Table} {α : Type} {a : Arena table α} {h : Handle table} {x : α}
    (hRead : a.read h = .ok x) : h.index < a.size :=
  Arena.lt_of_get? ((Arena.read_eq_ok_iff _ _ _).mp hRead)

theorem Arena.exists_read_of_lt {table : Table} {α : Type} {a : Arena table α} {h : Handle table}
    (hLt : h.index < a.size) : ∃ x, a.read h = .ok x := by
  obtain ⟨x, hx⟩ := Arena.exists_get?_of_lt hLt
  exact ⟨x, (Arena.read_eq_ok_iff _ _ _).mpr hx⟩

theorem Arena.eq_unminted_of_read {table : Table} {α : Type} {a : Arena table α} {h : Handle table}
    {reason : Fault} (hRead : a.read h = .error reason) : reason = .unminted := by
  unfold Arena.read at hRead
  split at hRead <;> cases hRead
  rfl

/-- A type for a type parameter, a value for a value parameter. -/
inductive TemplateParam.Fits (param : TemplateParam) : Argument → Prop where
  | type {var type : TypeId} (hKind : param.kind = .type var) : Fits param (.type type)
  | value {type : TypeId} {literal : Literal} (hKind : param.kind = .value type) :
      Fits param (.value literal)

inductive Argument.SameSort : Argument → Argument → Prop where
  | type (a b : TypeId) : SameSort (.type a) (.type b)
  | value (a b : Literal) : SameSort (.value a) (.value b)

theorem TemplateParam.Fits.sameSort {param : TemplateParam} {a b : Argument} (ha : param.Fits a)
    (hb : param.Fits b) : a.SameSort b := by
  cases ha with
  | type hKind =>
    cases hb with
    | type => exact .type _ _
    | value hKind' => cases hKind.symm.trans hKind'
  | value hKind =>
    cases hb with
    | type hKind' => cases hKind.symm.trans hKind'
    | value => exact .value _ _

theorem TemplateParam.Fits.forall₂_sameSort {params : List TemplateParam} {a b : List Argument}
    (ha : List.Forall₂ TemplateParam.Fits params a)
    (hb : List.Forall₂ TemplateParam.Fits params b) : List.Forall₂ Argument.SameSort a b :=
  forall₂_join ha.flip hb fun _ _ _ hFit hFit' => hFit.sameSort hFit'

namespace ModuleTree

variable {t : ModuleTree}

/-- `last` is the module `id` or one around it. -/
inductive Within (t : ModuleTree) : ModuleId → ModuleId → Prop where
  | self (id : ModuleId) : Within t id id
  | outer {id outer last : ModuleId} {m : ModuleDecl} (hDecl : t.readModule id = .ok m)
      (hParent : m.parent = some outer) (hRest : Within t outer last) : Within t id last

/-- No template parameters on the way from `id` outwards. -/
def Plain (t : ModuleTree) (id : ModuleId) : Prop :=
  ∀ last, t.Within id last → ∃ m, t.readModule last = .ok m ∧ m.params = []

/-- A type parameter of the module `id` or of one around it. -/
def InScope (t : ModuleTree) (id : ModuleId) (var : TypeId) : Prop :=
  ∃ last m, t.Within id last ∧ t.readModule last = .ok m ∧ var ∈ m.typeVars

/-- Parents were added before the modules inside them. -/
def ParentsFirst (t : ModuleTree) : Prop :=
  ∀ ⦃id m outer⦄, t.readModule id = .ok m → m.parent = some outer → outer.index < id.index

/-- Sub-expressions were added before what they are part of. -/
def ChildrenFirst (t : ModuleTree) : Prop :=
  ∀ ⦃id e child⦄, t.readExpr id = .ok e → child ∈ e.kind.children → child.index < id.index

/-- Parents are there, and `rank` goes down from a module to its parent. -/
structure ParentsRanked (t : ModuleTree) (rank : ModuleId → Nat) : Prop where
  minted : ∀ ⦃id m outer⦄, t.readModule id = .ok m → m.parent = some outer →
    ∃ n, t.readModule outer = .ok n
  lower : ∀ ⦃id m outer⦄, t.readModule id = .ok m → m.parent = some outer → rank outer < rank id
  bounded : ∀ ⦃id m⦄, t.readModule id = .ok m → rank id < t.modules.size

/-- Sub-expressions are there, and `rank` goes down from an expression to its parts. -/
structure ChildrenRanked (t : ModuleTree) (rank : ExprId → Nat) : Prop where
  minted : ∀ ⦃id e child⦄, t.readExpr id = .ok e → child ∈ e.kind.children →
    ∃ c, t.readExpr child = .ok c
  lower : ∀ ⦃id e child⦄, t.readExpr id = .ok e → child ∈ e.kind.children → rank child < rank id
  bounded : ∀ ⦃id e⦄, t.readExpr id = .ok e → rank id < t.exprs.size

theorem ParentsFirst.ranked (h : t.ParentsFirst) : t.ParentsRanked Handle.index where
  minted _ _ _ hDecl hParent :=
    Arena.exists_read_of_lt (Nat.lt_trans (h hDecl hParent) (Arena.lt_of_read hDecl))
  lower _ _ _ hDecl hParent := h hDecl hParent
  bounded _ _ hDecl := Arena.lt_of_read hDecl

theorem ChildrenFirst.ranked (h : t.ChildrenFirst) : t.ChildrenRanked Handle.index where
  minted _ _ _ hExpr hChild :=
    Arena.exists_read_of_lt (Nat.lt_trans (h hExpr hChild) (Arena.lt_of_read hExpr))
  lower _ _ _ hExpr hChild := h hExpr hChild
  bounded _ _ hExpr := Arena.lt_of_read hExpr

theorem within_iff {id last : ModuleId} {m : ModuleDecl} (hDecl : t.readModule id = .ok m) :
    t.Within id last ↔ last = id ∨ ∃ outer, m.parent = some outer ∧ t.Within outer last := by
  constructor
  · intro h
    cases h with
    | self => exact .inl rfl
    | outer hDecl' hParent hRest =>
      cases hDecl.symm.trans hDecl'
      exact .inr ⟨_, hParent, hRest⟩
  · rintro (rfl | ⟨outer, hParent, hRest⟩)
    · exact .self _
    · exact .outer hDecl hParent hRest

theorem Plain.outer {id outer : ModuleId} {m : ModuleDecl} (h : t.Plain id)
    (hDecl : t.readModule id = .ok m) (hParent : m.parent = some outer) : t.Plain outer :=
  fun last hLast => h last (.outer hDecl hParent hLast)

theorem Plain.params_eq {id : ModuleId} {m : ModuleDecl} (h : t.Plain id)
    (hDecl : t.readModule id = .ok m) : m.params = [] := by
  obtain ⟨other, hOther, hParams⟩ := h id (.self id)
  cases hDecl.symm.trans hOther
  exact hParams

theorem mem_chainWithin {depth : Nat} {start : Option ModuleId} {ids : List ModuleId}
    (h : t.chainWithin depth start = .ok ids) {last : ModuleId} :
    last ∈ ids ↔ ∃ first, start = some first ∧ t.Within first last := by
  induction depth generalizing start ids with
  | zero =>
    cases start with
    | none =>
      cases h
      simp
    | some first => cases h
  | succ depth ih =>
    cases start with
    | none =>
      cases h
      simp
    | some first =>
      rw [chainWithin] at h
      obtain ⟨m, hDecl, h⟩ := Read.bind_eq_ok_iff.mp h
      obtain ⟨rest, hRest, h⟩ := Read.bind_eq_ok_iff.mp h
      cases h
      simp only [List.mem_cons, ih hRest, Option.some.injEq, exists_eq_left']
      exact (within_iff hDecl).symm

theorem mem_ancestors {id : ModuleId} {m : ModuleDecl} {ids : List ModuleId}
    (hDecl : t.readModule id = .ok m) (h : t.ancestors id = .ok ids) {last : ModuleId} :
    last ∈ ids ↔ ∃ outer, m.parent = some outer ∧ t.Within outer last := by
  obtain ⟨other, hOther, h⟩ := Read.bind_eq_ok_iff.mp h
  cases hDecl.symm.trans hOther
  exact mem_chainWithin h

theorem exists_chainWithin {rank : ModuleId → Nat} (hParents : t.ParentsRanked rank) {depth : Nat}
    {start : Option ModuleId} (h : ∀ first, start = some first → rank first < depth ∧
      ∃ m, t.readModule first = .ok m) :
    ∃ ids, t.chainWithin depth start = .ok ids := by
  induction depth generalizing start with
  | zero =>
    cases start with
    | none => exact ⟨[], rfl⟩
    | some first => exact absurd (h first rfl).1 (Nat.not_lt_zero _)
  | succ depth ih =>
    cases start with
    | none => exact ⟨[], rfl⟩
    | some first =>
      obtain ⟨hDepth, hMinted⟩ := h first rfl
      rw [chainWithin]
      refine Read.exists_bind_eq_ok hMinted fun m hDecl => ?_
      refine Read.exists_bind_eq_ok (ih fun outer hParent => ?_) fun _ _ => ⟨_, rfl⟩
      have hLower := hParents.lower hDecl hParent
      exact ⟨by omega, hParents.minted hDecl hParent⟩

theorem exists_ancestors {rank : ModuleId → Nat} (hParents : t.ParentsRanked rank) {id : ModuleId}
    {m : ModuleDecl} (hDecl : t.readModule id = .ok m) : ∃ ids, t.ancestors id = .ok ids := by
  refine Read.exists_bind_eq_ok ⟨m, hDecl⟩ fun other hOther => ?_
  cases hDecl.symm.trans hOther
  refine exists_chainWithin hParents fun first hFirst => ?_
  obtain ⟨n, hOuter⟩ := hParents.minted hDecl hFirst
  exact ⟨hParents.bounded hOuter, n, hOuter⟩

theorem exists_readModule_of_within {rank : ModuleId → Nat} (hParents : t.ParentsRanked rank)
    {id last : ModuleId} {m : ModuleDecl} (hDecl : t.readModule id = .ok m) (h : t.Within id last) :
    ∃ n, t.readModule last = .ok n := by
  induction h generalizing m with
  | self => exact ⟨m, hDecl⟩
  | outer hDecl' hParent _ ih =>
    obtain ⟨n, hOuter⟩ := hParents.minted hDecl' hParent
    exact ih hOuter

theorem mem_ancestorVars {id : ModuleId} {m : ModuleDecl} {vars : List TypeId}
    (hDecl : t.readModule id = .ok m) (h : t.ancestorVars id = .ok vars) {var : TypeId} :
    var ∈ vars ↔ ∃ outer, m.parent = some outer ∧ t.InScope outer var := by
  obtain ⟨ids, hIds, h⟩ := Read.bind_eq_ok_iff.mp h
  obtain ⟨decls, hDecls, h⟩ := Read.bind_eq_ok_iff.mp h
  cases h
  have hEach := Read.mapM_eq_ok_iff.mp hDecls
  rw [List.mem_flatMap]
  constructor
  · rintro ⟨n, hn, hVar⟩
    obtain ⟨last, hLast, hRead⟩ := exists_mem_left_of_forall₂ hEach hn
    obtain ⟨outer, hParent, hWithin⟩ := (mem_ancestors hDecl hIds).mp hLast
    exact ⟨outer, hParent, last, n, hWithin, hRead, hVar⟩
  · rintro ⟨outer, hParent, last, n, hWithin, hRead, hVar⟩
    have hLast := (mem_ancestors hDecl hIds).mpr ⟨outer, hParent, hWithin⟩
    obtain ⟨other, hOther, hRead'⟩ := exists_mem_right_of_forall₂ hEach hLast
    cases hRead.symm.trans hRead'
    exact ⟨n, hOther, hVar⟩

theorem exists_ancestorVars {rank : ModuleId → Nat} (hParents : t.ParentsRanked rank)
    {id : ModuleId} {m : ModuleDecl} (hDecl : t.readModule id = .ok m) :
    ∃ vars, t.ancestorVars id = .ok vars := by
  refine Read.exists_bind_eq_ok (exists_ancestors hParents hDecl) fun ids hIds => ?_
  refine Read.exists_bind_eq_ok (Read.exists_mapM_eq_ok fun last hLast => ?_) fun _ _ => ⟨_, rfl⟩
  obtain ⟨outer, hParent, hWithin⟩ := (mem_ancestors hDecl hIds).mp hLast
  exact exists_readModule_of_within hParents hDecl (.outer hDecl hParent hWithin)

theorem ancestorVars_eq_nil {id outer : ModuleId} {m : ModuleDecl} {vars : List TypeId}
    (hDecl : t.readModule id = .ok m) (hParent : m.parent = some outer) (hPlain : t.Plain outer)
    (h : t.ancestorVars id = .ok vars) : vars = [] := by
  refine List.eq_nil_iff_forall_not_mem.mpr fun var hVar => ?_
  obtain ⟨other, hOther, last, n, hWithin, hRead, hMem⟩ := (mem_ancestorVars hDecl h).mp hVar
  cases hParent.symm.trans hOther
  obtain ⟨n', hRead', hParams⟩ := hPlain last hWithin
  cases hRead.symm.trans hRead'
  simp [ModuleDecl.typeVars, hParams] at hMem

theorem plain_of_isMonomorphicChain {id : ModuleId} (h : t.isMonomorphicChain id = .ok true) :
    t.Plain id := by
  obtain ⟨ids, hIds, h⟩ := Read.bind_eq_ok_iff.mp h
  obtain ⟨decls, hDecls, h⟩ := Read.bind_eq_ok_iff.mp h
  obtain ⟨m, hDecl, -⟩ := Read.bind_eq_ok_iff.mp hIds
  have hPlain : (decls.all fun m => !m.isGeneric) = true := Read.pure_eq_ok_iff.mp h
  intro last hLast
  have hMem : last ∈ id :: ids := by
    rw [List.mem_cons, mem_ancestors hDecl hIds]
    exact (within_iff hDecl).mp hLast
  obtain ⟨n, hn, hRead⟩ := exists_mem_right_of_forall₂ (Read.mapM_eq_ok_iff.mp hDecls) hMem
  exact ⟨n, hRead, by simpa [ModuleDecl.isGeneric] using List.all_eq_true.mp hPlain n hn⟩

/-- Where parents are ranked the check gives an answer, and the right one. -/
theorem isMonomorphicChain_eq {rank : ModuleId → Nat} (hParents : t.ParentsRanked rank)
    {id : ModuleId} {m : ModuleDecl} (hDecl : t.readModule id = .ok m) :
    ∃ answer, t.isMonomorphicChain id = .ok answer ∧ (answer = true ↔ t.Plain id) := by
  obtain ⟨ids, hIds⟩ := exists_ancestors hParents hDecl
  have hWithin : ∀ last, last ∈ id :: ids ↔ t.Within id last := by
    intro last
    rw [List.mem_cons, mem_ancestors hDecl hIds, within_iff hDecl]
  obtain ⟨decls, hDecls⟩ := Read.exists_mapM_eq_ok fun last hLast =>
    exists_readModule_of_within hParents hDecl ((hWithin last).mp hLast)
  have hEach := Read.mapM_eq_ok_iff.mp hDecls
  refine ⟨decls.all fun m => !m.isGeneric, ?_, ?_⟩
  · exact Read.bind_eq_ok_iff.mpr ⟨ids, hIds, Read.bind_eq_ok_iff.mpr ⟨decls, hDecls, rfl⟩⟩
  · constructor
    · intro hAll last hLast
      obtain ⟨n, hn, hRead⟩ := exists_mem_right_of_forall₂ hEach ((hWithin last).mpr hLast)
      exact ⟨n, hRead, by simpa [ModuleDecl.isGeneric] using List.all_eq_true.mp hAll n hn⟩
    · intro hPlain
      refine List.all_eq_true.mpr fun n hn => ?_
      obtain ⟨last, hLast, hRead⟩ := exists_mem_left_of_forall₂ hEach hn
      obtain ⟨other, hOther, hParams⟩ := hPlain last ((hWithin last).mp hLast)
      cases hRead.symm.trans hOther
      simp [ModuleDecl.isGeneric, hParams]

/-- The expression `e` with handle `id` is `root` or part of it. -/
inductive Occurs (t : ModuleTree) : ExprId → ExprId → Expr → Prop where
  | here {id : ExprId} {e : Expr} (hExpr : t.readExpr id = .ok e) : Occurs t id id e
  | inside {root child id : ExprId} {outer e : Expr} (hExpr : t.readExpr root = .ok outer)
      (hChild : child ∈ outer.kind.children) (hRest : Occurs t child id e) : Occurs t root id e

theorem Occurs.read_eq {root id : ExprId} {e : Expr} (h : t.Occurs root id e) :
    t.readExpr id = .ok e := by
  induction h with
  | here hExpr => exact hExpr
  | inside _ _ _ ih => exact ih

theorem Occurs.trans {root child id : ExprId} {outer e : Expr} (h : t.Occurs root child outer)
    (h' : t.Occurs child id e) : t.Occurs root id e := by
  induction h with
  | here => exact h'
  | inside hExpr hChild _ ih => exact .inside hExpr hChild (ih h')

theorem occurs_of_mem_visitsWithin {depth : Nat} {root : ExprId} {visit : Visit}
    (h : visit ∈ t.visitsWithin depth root) {e : Expr} (hExpr : visit.expr = .ok e) :
    t.Occurs root visit.id e := by
  induction depth generalizing root with
  | zero =>
    rw [visitsWithin, List.mem_singleton] at h
    subst h
    cases hExpr
  | succ depth ih =>
    rw [visitsWithin] at h
    cases hRoot : t.readExpr root with
    | error reason =>
      rw [hRoot, List.mem_singleton] at h
      subst h
      cases hExpr
    | ok outer =>
      rw [hRoot] at h
      rcases List.mem_cons.mp h with rfl | h
      · cases hExpr
        exact .here hRoot
      · obtain ⟨child, hChild, h⟩ := List.mem_flatMap.mp h
        exact .inside hRoot hChild (ih h)

theorem mem_visitsWithin_of_occurs {depth : Nat} {root id : ExprId} {e : Expr}
    (hThrough : ∀ visit ∈ t.visitsWithin depth root, ∃ e, visit.expr = .ok e)
    (h : t.Occurs root id e) : ⟨id, .ok e⟩ ∈ t.visitsWithin depth root := by
  -- Where the walk runs out of depth it records a fault, which `hThrough` excludes.
  induction h generalizing depth with
  | @here id e hExpr =>
    cases depth with
    | zero => obtain ⟨_, hError⟩ := hThrough _ List.mem_cons_self; cases hError
    | succ depth =>
      rw [visitsWithin, hExpr]
      exact List.mem_cons_self
  | @inside root child id outer e hExpr hChild _ ih =>
    cases depth with
    | zero => obtain ⟨_, hError⟩ := hThrough _ List.mem_cons_self; cases hError
    | succ depth =>
      rw [visitsWithin, hExpr] at hThrough ⊢
      refine List.mem_cons_of_mem _
        (List.mem_flatMap.mpr ⟨child, hChild, ih fun visit hVisit => ?_⟩)
      exact hThrough visit (List.mem_cons_of_mem _ (List.mem_flatMap.mpr ⟨child, hChild, hVisit⟩))

theorem exists_expr_of_mem_visits {rank : ExprId → Nat} (hChildren : t.ChildrenRanked rank)
    {depth : Nat} {root : ExprId} (hDepth : rank root < depth)
    (hMinted : ∃ e, t.readExpr root = .ok e) {visit : Visit}
    (h : visit ∈ t.visitsWithin depth root) : ∃ e, visit.expr = .ok e := by
  induction depth generalizing root with
  | zero => exact absurd hDepth (Nat.not_lt_zero _)
  | succ depth ih =>
    obtain ⟨outer, hRoot⟩ := hMinted
    rw [visitsWithin, hRoot] at h
    rcases List.mem_cons.mp h with rfl | h
    · exact ⟨outer, rfl⟩
    · obtain ⟨child, hChild, h⟩ := List.mem_flatMap.mp h
      have hLower := hChildren.lower hRoot hChild
      exact ih (by omega) (hChildren.minted hRoot hChild) h

end ModuleTree

end Specializer
