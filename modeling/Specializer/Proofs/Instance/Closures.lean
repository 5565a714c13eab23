import Specializer.Proofs.Instance.Names
import Specializer.Proofs.Instance.Residue
import Specializer.Proofs.Substitution.Laws

/-!
# The closures of an instance

An instance has one closure for each lambda that is met in the initializers of its source, in the
order of a walk that comes to an expression before its parts. The table of closures answers for
every expression with the closures made of it, and the closures of all instances lie one after the
other in the order in which the instances were made. None of this needs a bound on the depth of the
walk: a walk that does not end leaves no instance.
-/

set_option autoImplicit false

namespace Specializer

open TypeStore RunState ModuleTree

/-- The occurrences in an expression: first the expression, then those in its parts, in order. -/
inductive ModuleTree.Preorder (t : ModuleTree) : ExprId → List (ExprId × Expr) → Prop where
  | node {id : ExprId} {e : Expr} {parts : List (List (ExprId × Expr))}
      (hExpr : t.readExpr id = .ok e) (hParts : List.Forall₂ (Preorder t) e.kind.children parts) :
      Preorder t id ((id, e) :: parts.flatten)

/-- The occurrences in a binding: those in its initializer, if it binds a value. -/
inductive Binding.Walked (t : ModuleTree) (b : Binding) : List (ExprId × Expr) → Prop where
  | value {type : TypeId} {init : ExprId} {occurrences : List (ExprId × Expr)}
      (hKind : b.kind = .value type init) (hInit : t.Preorder init occurrences) :
      Walked t b occurrences
  | type {type : TypeId} (hKind : b.kind = .type type) : Walked t b []
  | nested {inner : ModuleId} (hKind : b.kind = .nested inner) : Walked t b []

/-- The type `image` is the type `id` with all replacements made, as trees. -/
def TypeStore.Rewrites (types : TypeStore) (sub : Substitution) (id image : TypeId) : Prop :=
  ∃ tree replace, types.Unfolds id tree ∧ types.Replaces sub replace ∧
    types.Unfolds image (tree.substitute replace)

/-- The closure made of the lambda at a position among those of an instance. -/
structure Closure.Registers (p : Program) (types : TypeStore) (id : InstanceId) (i : Instance)
    (lambda : (ExprId × Expr) × Nat) (c : Closure) : Prop where
  owner : c.owner = id
  index : c.index = lambda.2
  symbol : c.symbol = i.name ++ "__closure" ++ toString lambda.2
  expr : c.expr = lambda.1.1
  type : types.Rewrites i.substitution lambda.1.2.type c.type
  captures : ∃ free, Capture.ofLambda p.tree lambda.1.1 = .ok free ∧
    List.Forall₂ (fun source capture => capture.name = source.name ∧
      types.Rewrites i.substitution source.type capture.type) free c.captures

/-- Closures are where they belong: in the lists of their owners, in the table and in the arena. -/
structure RunState.RegistersClosures (p : Program) (s : RunState) : Prop where
  records : ∀ ⦃id i⦄, s.instances.get? id = some i → ∃ m walks records,
    p.tree.readModule i.source = .ok m ∧ List.Forall₂ (Binding.Walked p.tree) m.bindings walks ∧
    List.Forall₂ (fun closure c => s.closures.get? closure = some c) i.closures records ∧
    List.Forall₂ (Closure.Registers p s.types id i)
      (walks.flatten.filter fun occurrence => occurrence.2.kind.isLambda).zipIdx records ∧
    ∀ expr, s.closureTable.closuresOf ⟨expr, id⟩ =
      (records.filter fun c => decide (c.expr = expr)).map Closure.id
  arena : s.closures.toList.map Closure.id = s.instances.toList.flatMap Instance.closures
  ids : ∀ ⦃closure c⦄, s.closures.get? closure = some c → c.id = closure

namespace ModuleTree

variable {t : ModuleTree}

def Visit.found (occurrence : ExprId × Expr) : Visit := ⟨occurrence.1, .ok occurrence.2⟩

theorem lambdas_map_found (occurrences : List (ExprId × Expr)) :
    lambdas (occurrences.map Visit.found) =
      occurrences.filter fun occurrence => occurrence.2.kind.isLambda := by
  induction occurrences with
  | nil => rfl
  | cons first rest ih =>
    rw [List.map_cons, lambdas, List.filterMap_cons, ← lambdas, ih]
    cases hLambda : first.2.kind.isLambda <;> simp [Visit.found, hLambda]

theorem exists_forall₂_flatten {roots : List ExprId} {walk : ExprId → List Visit}
    (h : ∀ root ∈ roots, ∃ occurrences, t.Preorder root occurrences ∧
      walk root = occurrences.map Visit.found) :
    ∃ walks, List.Forall₂ t.Preorder roots walks ∧
      roots.flatMap walk = walks.flatten.map Visit.found := by
  induction roots with
  | nil => exact ⟨[], .nil, rfl⟩
  | cons root rest ih =>
    obtain ⟨first, hFirst, hWalk⟩ := h root List.mem_cons_self
    obtain ⟨walks, hWalks, hRest⟩ := ih fun other hOther => h other (List.mem_cons_of_mem _ hOther)
    refine ⟨first :: walks, .cons hFirst hWalks, ?_⟩
    rw [List.flatMap_cons, hWalk, hRest, List.flatten_cons, List.map_append]

theorem exists_preorder_of_walked {depth : Nat} {root : ExprId}
    (hThrough : ∀ visit ∈ t.visitsWithin depth root, ∃ e, visit.expr = .ok e) :
    ∃ occurrences, t.Preorder root occurrences ∧
      t.visitsWithin depth root = occurrences.map Visit.found := by
  induction depth generalizing root with
  | zero =>
    obtain ⟨_, hError⟩ := hThrough _ List.mem_cons_self
    cases hError
  | succ depth ih =>
    rw [visitsWithin] at hThrough ⊢
    cases hRoot : t.readExpr root with
    | error reason =>
      rw [hRoot] at hThrough
      obtain ⟨_, hError⟩ := hThrough _ List.mem_cons_self
      cases hError
    | ok e =>
      rw [hRoot] at hThrough
      have hParts : ∀ child ∈ e.kind.children, ∃ occurrences, t.Preorder child occurrences ∧
          t.visitsWithin depth child = occurrences.map Visit.found := by
        intro child hChild
        apply ih
        intro visit hVisit
        apply hThrough
        exact List.mem_cons_of_mem _ (List.mem_flatMap.mpr ⟨child, hChild, hVisit⟩)
      obtain ⟨parts, hPreorder, hWalk⟩ := exists_forall₂_flatten hParts
      refine ⟨(root, e) :: parts.flatten, .node hRoot hPreorder, ?_⟩
      simp only [hWalk, List.map_cons, Visit.found]

/-- Bindings without an initializer add nothing to the walks over the others. -/
theorem exists_walked_of_preorders {m : ModuleDecl} {walks : List (List (ExprId × Expr))}
    (h : List.Forall₂ t.Preorder m.initializers walks) :
    ∃ parts, List.Forall₂ (Binding.Walked t) m.bindings parts ∧ parts.flatten = walks.flatten := by
  unfold ModuleDecl.initializers at h
  generalize m.bindings = bindings at h ⊢
  induction bindings generalizing walks with
  | nil =>
    cases h
    exact ⟨[], .nil, rfl⟩
  | cons b rest ih =>
    rw [List.filterMap_cons] at h
    cases hKind : b.kind with
    | value type init =>
      rw [hKind] at h
      cases h with
      | cons hFirst hRest =>
        obtain ⟨parts, hParts, hFlat⟩ := ih hRest
        exact ⟨_ :: parts, .cons (.value hKind hFirst) hParts, by simp [hFlat]⟩
    | type type =>
      rw [hKind] at h
      obtain ⟨parts, hParts, hFlat⟩ := ih h
      exact ⟨[] :: parts, .cons (.type hKind) hParts, by simp [hFlat]⟩
    | nested inner =>
      rw [hKind] at h
      obtain ⟨parts, hParts, hFlat⟩ := ih h
      exact ⟨[] :: parts, .cons (.nested hKind) hParts, by simp [hFlat]⟩

theorem exists_walked {m : ModuleDecl}
    (hWalked : ∀ visit ∈ t.moduleVisits m, ∃ e, visit.expr = .ok e) :
    ∃ walks, List.Forall₂ (Binding.Walked t) m.bindings walks ∧ lambdas (t.moduleVisits m) =
      walks.flatten.filter fun occurrence => occurrence.2.kind.isLambda := by
  have hEach : ∀ init ∈ m.initializers, ∃ occurrences, t.Preorder init occurrences ∧
      t.visits init = occurrences.map Visit.found := by
    intro init hInit
    apply exists_preorder_of_walked
    intro visit hVisit
    exact hWalked visit (List.mem_flatMap.mpr ⟨init, hInit, hVisit⟩)
  obtain ⟨walks, hWalks, hVisits⟩ := exists_forall₂_flatten hEach
  obtain ⟨parts, hParts, hFlat⟩ := exists_walked_of_preorders hWalks
  exact ⟨parts, hParts, by rw [moduleVisits, hVisits, lambdas_map_found, hFlat]⟩

end ModuleTree

namespace TypeStore

variable {s t : TypeStore} {sub : Substitution} {id image : TypeId}

theorem Image.rewrites (h : s.Image sub .strict id image) (hSub : sub.ClosedIn s) :
    s.Rewrites sub id image := by
  obtain ⟨tree, hTree⟩ := h.exists_unfolds
  obtain ⟨replace, hReplace⟩ := hSub.exists_replaces
  exact ⟨tree, replace, hTree, hReplace, h.unfolds hTree hReplace⟩

theorem Rewrites.extend (h : s.Rewrites sub id image) (hExt : s.Extends t) :
    t.Rewrites sub id image := by
  obtain ⟨tree, replace, hTree, hReplace, hImage⟩ := h
  exact ⟨tree, replace, hTree.extend hExt, hReplace.extend hExt, hImage.extend hExt⟩

end TypeStore

section Arena

variable {table : Table} {α β : Type}

theorem Arena.get?_eq_getElem?_toList (a : Arena table α) (h : Handle table) :
    a.get? h = a.toList[h.index]? := by
  rw [Arena.get?, Arena.toList, Array.getElem?_toList]

theorem Arena.flatMap_toList_modify (a : Arena table α) (h : Handle table) {change : α → α}
    {part : α → List β} (hSame : ∀ x, part (change x) = part x) :
    (a.modify h change).toList.flatMap part = a.toList.flatMap part := by
  have hParts : (a.modify h change).toList.map part = a.toList.map part := by
    apply List.ext_getElem
    · simp [Arena.toList, Arena.modify]
    · intro index _ _
      simp only [Arena.toList, Arena.modify, List.getElem_map, Array.getElem_toList,
        Array.getElem_modify]
      split
      · exact hSame _
      · rfl
  rw [List.flatMap_def, List.flatMap_def, hParts]

end Arena

theorem Closure.Registers.keep {p : Program} {s t : TypeStore} {id : InstanceId} {i j : Instance}
    {lambda : (ExprId × Expr) × Nat} {c : Closure} (h : c.Registers p s id i lambda)
    (hExt : s.Extends t) (hShell : j.shell = i.shell) : c.Registers p t id j lambda := by
  have hSub := Instance.substitution_eq_of_shell hShell
  obtain ⟨free, hFree, hCaptures⟩ := h.captures
  constructor
  case owner => exact h.owner
  case index => exact h.index
  case symbol => rw [Instance.name_eq_of_shell hShell, h.symbol]
  case expr => exact h.expr
  case type =>
    rw [hSub]
    exact h.type.extend hExt
  case captures =>
    refine ⟨free, hFree, hCaptures.imp fun _ _ hCapture => ⟨hCapture.1, ?_⟩⟩
    rw [hSub]
    exact hCapture.2.extend hExt

theorem mem_sitesOf_iff {closures : List Closure} {entry : ClosureSite × List ClosureId} :
    entry ∈ sitesOf closures ↔ (∃ c ∈ closures, c.site = entry.1) ∧
      entry.2 = (closures.filter fun c => decide (c.site = entry.1)).map Closure.id := by
  simp only [sitesOf, List.mem_map, List.mem_eraseDups]
  constructor
  · rintro ⟨site, hSite, rfl⟩
    exact ⟨hSite, rfl⟩
  · rintro ⟨hSite, hIds⟩
    exact ⟨entry.1, hSite, by rw [← hIds]⟩

namespace Fresh

variable {p : Program} {s : RunState} {m : ModuleDecl} {i : Instance} {closures : List Closure}
  (h : Fresh p s m i closures)
include h

theorem registers (hSub : i.substitution.ClosedIn s.types) :
    List.Forall₂ (Closure.Registers p s.types i.id i)
      (lambdas (p.tree.moduleVisits m)).zipIdx closures := by
  obtain ⟨shells, hShells, hNumbered⟩ := h.shells
  have hLength : (lambdas (p.tree.moduleVisits m)).zipIdx.length = closures.length := by
    rw [hShells.length_eq, hNumbered, numbered, List.length_map, List.length_zipIdx]
  apply List.forall₂_iff_get.mpr
  refine ⟨hLength, fun index hLambda hClosure => ?_⟩
  have hShell : index < shells.length := by rwa [← hShells.length_eq]
  have hOf := hShells.get hLambda hShell
  have hRecord : closures.get ⟨index, hClosure⟩ = ⟨⟨s.closures.size + index⟩, i.id, index,
      shells[index].expr, shells[index].type, shells[index].captures, shells[index].symbol⟩ := by
    simp [hNumbered, numbered]
  have hIndex : ((lambdas (p.tree.moduleVisits m)).zipIdx.get ⟨index, hLambda⟩).2 = index := by
    simp
  obtain ⟨free, hFree, hCaptures⟩ := hOf.captures
  rw [hRecord]
  constructor
  case owner => rfl
  case index => exact hIndex.symm
  case symbol => exact hOf.symbol
  case expr => exact hOf.expr
  case type => exact hOf.type.rewrites hSub
  case captures =>
    exact ⟨free, hFree, hCaptures.imp fun _ _ hCapture =>
      ⟨hCapture.name, hCapture.type.rewrites hSub⟩⟩

theorem get?_closure {c : Closure} (hc : c ∈ closures) :
    (s.enroll i closures).closures.get? c.id = some c := by
  obtain ⟨index, hIndex⟩ := List.mem_iff_getElem?.mp hc
  have hHandle : c.id = ⟨s.closures.size + index⟩ := by
    obtain ⟨-, -, -, hListed⟩ := h.closure_at hIndex
    rw [h.closures_eq, List.getElem?_map, hIndex] at hListed
    exact Option.some.inj hListed
  rw [hHandle, Arena.get?_eq_getElem?_toList, enroll, enter, Arena.toList_foldl_push,
    List.getElem?_append_right (by simp), Arena.length_toList, Nat.add_sub_cancel_left, hIndex]

theorem closuresOf_enroll (hOwned : s.Owned) (site : ClosureSite) :
    (s.enroll i closures).closureTable.closuresOf site =
      if site.owner = i.id then
        (closures.filter fun c => decide (c.expr = site.expr)).map Closure.id
      else s.closureTable.closuresOf site := by
  have hOwner : ∀ c ∈ closures, c.owner = i.id := fun c hc => (h.mem_closures hc).1
  have hEntries : (s.enroll i closures).closureTable.entries =
      (sitesOf closures).reverse ++ s.closureTable.entries :=
    Index.entries_foldl_insert _ _
  rw [ClosureTable.closuresOf, ClosureTable.closuresOf, Index.find?_eq, hEntries, firstOf,
    List.find?_append]
  cases hFind : (sitesOf closures).reverse.find? fun entry => decide (entry.1 = site) with
  | some entry =>
    have hSite : entry.1 = site := by simpa using List.find?_some hFind
    obtain ⟨⟨c, hc, hOf⟩, hIds⟩ :=
      mem_sitesOf_iff.mp (List.mem_reverse.mp (List.mem_of_find?_eq_some hFind))
    have hHere : site.owner = i.id := by
      rw [← hSite, ← hOf, Closure.site, hOwner c hc]
    rw [if_pos hHere]
    change entry.2 = _
    rw [hIds, hSite]
    congr 1
    apply List.filter_congr
    intro d hd
    obtain ⟨expr, owner⟩ := site
    simp [Closure.site, hOwner d hd, ← hHere]
  | none =>
    have hAbsent : ∀ c ∈ closures, c.site ≠ site := by
      intro c hc hSite
      have hEntry : (c.site, (closures.filter fun d => decide (d.site = c.site)).map Closure.id) ∈
          sitesOf closures := mem_sitesOf_iff.mpr ⟨⟨c, hc, rfl⟩, rfl⟩
      exact List.find?_eq_none.mp hFind _ (List.mem_reverse.mpr hEntry) (decide_eq_true hSite)
    rw [Option.none_or]
    split
    case isTrue hNew =>
      have hNone : closures.filter (fun c => decide (c.expr = site.expr)) = [] := by
        rw [List.filter_eq_nil_iff]
        intro c hc hExpr
        apply hAbsent c hc
        rw [Closure.site, of_decide_eq_true hExpr, hOwner c hc, ← hNew]
      have hOld : (s.closureTable.entries.find? fun entry => decide (entry.1 = site)) = none := by
        rw [List.find?_eq_none]
        intro entry hEntry hSame
        have hLess := hOwned entry hEntry
        rw [of_decide_eq_true hSame, hNew, h.id_eq] at hLess
        exact Nat.lt_irrefl _ hLess
      rw [hNone, hOld]
      rfl
    case isFalse => rw [Index.find?_eq, firstOf]

end Fresh

theorem RunState.get?_closures_enroll {s : RunState} {closure : ClosureId} {c : Closure}
    (i : Instance) (closures : List Closure) (hc : s.closures.get? closure = some c) :
    (s.enroll i closures).closures.get? closure = some c := by
  rw [Arena.get?_eq_getElem?_toList] at hc ⊢
  rw [enroll, enter, Arena.toList_foldl_push]
  exact List.getElem?_append_left (List.getElem?_eq_some_iff.mp hc).1 ▸ hc

namespace RunState.RegistersClosures

variable {p : Program} {s t : RunState}

theorem start (p : Program) (types : TypeStore) : RegistersClosures p (.start types) where
  records _ _ h := by simp [RunState.start, Arena.empty, Arena.get?] at h
  arena := rfl
  ids _ _ h := by simp [RunState.start, Arena.empty, Arena.get?] at h

theorem of_keeps (h : RegistersClosures p s) (hGrows : Grows s t)
    (hBack : t.instances.Keeps s.instances) (hClosures : t.closures = s.closures)
    (hTable : t.closureTable = s.closureTable)
    (hLists : t.instances.toList.flatMap Instance.closures =
      s.instances.toList.flatMap Instance.closures) : RegistersClosures p t where
  records id j hj := by
    obtain ⟨i, hi, hShell⟩ := hBack hj
    obtain ⟨m, walks, records, hDecl, hWalks, hHeld, hRegisters, hSites⟩ := h.records hi
    rw [Instance.source_eq_of_shell hShell] at hDecl
    rw [Instance.closures_eq_of_shell hShell] at hHeld
    rw [← hClosures] at hHeld
    rw [← hTable] at hSites
    exact ⟨m, walks, records, hDecl, hWalks, hHeld,
      hRegisters.imp fun _ _ hRecord => hRecord.keep hGrows.types hShell.symm, hSites⟩
  arena := by rw [hClosures, hLists, h.arena]
  ids closure c hc := h.ids (hClosures ▸ hc)

theorem enroll (h : RegistersClosures p s) (hOwned : s.Owned) {m : ModuleDecl} {i : Instance}
    {closures : List Closure} (hFresh : Fresh p s m i closures)
    (hSub : i.substitution.ClosedIn s.types) : RegistersClosures p (s.enroll i closures) where
  records id j hj := by
    rcases get?_enroll hFresh.id_eq hj with ⟨rfl, rfl⟩ | hj
    · obtain ⟨walks, hWalks, hLambdas⟩ := exists_walked hFresh.walked
      have hRegisters := hFresh.registers hSub
      rw [hLambdas] at hRegisters
      refine ⟨m, walks, closures, hFresh.decl, hWalks, ?_, hRegisters, fun expr => ?_⟩
      · rw [hFresh.closures_eq, List.forall₂_map_left_iff, List.forall₂_same]
        exact fun c => hFresh.get?_closure
      · rw [hFresh.closuresOf_enroll hOwned, if_pos rfl]
    · obtain ⟨n, walks, records, hDecl, hWalks, hHeld, hRegisters, hSites⟩ := h.records hj
      refine ⟨n, walks, records, hDecl, hWalks, hHeld.imp fun closure c hc => ?_, hRegisters,
        fun expr => ?_⟩
      · exact get?_closures_enroll i closures hc
      · have hOther : id ≠ i.id := by
          rintro rfl
          have hLess := Arena.lt_of_get? hj
          rw [hFresh.id_eq] at hLess
          exact Nat.lt_irrefl _ hLess
        rw [hFresh.closuresOf_enroll hOwned, if_neg hOther, hSites]
  arena := by
    simp [RunState.enroll, RunState.enter, h.arena, hFresh.closures_eq]
  ids closure c hc := by
    rcases Sound.get?_foldl_push hc with hc | ⟨index, hIndex, rfl⟩
    · exact h.ids hc
    · obtain ⟨-, -, -, hListed⟩ := hFresh.closure_at hIndex
      rw [hFresh.closures_eq, List.getElem?_map, hIndex] at hListed
      exact Option.some.inj hListed

theorem step (h : RegistersClosures p s) (hOwned : s.Owned) (hSound : Sound p s)
    (hStep : Step p s t) : RegistersClosures p t := by
  have hGrows := hStep.grows
  cases hStep with
  | take => exact h.of_keeps hGrows (.refl _) rfl rfl rfl
  | processed => exact h.of_keeps hGrows (.refl _) rfl rfl rfl
  | work hWork =>
    cases hWork with
    | resolve id field =>
      exact h.of_keeps hGrows (keeps_modify _ id (shell_resolve field _)).2 rfl rfl
        (Arena.flatMap_toList_modify _ id fun _ => rfl)
    | adopt id made =>
      exact h.of_keeps hGrows (keeps_modify _ id (shell_adopt made)).2 rfl rfl
        (Arena.flatMap_toList_modify _ id fun _ => rfl)
    | advance hAdvance =>
      cases hAdvance with
      | retyped hRetyped =>
        have hTable : t.closureTable = s.closureTable := by rw [hRetyped.rest]
        refine h.of_keeps hGrows ?_ hRetyped.closures_eq hTable ?_
        · rw [hRetyped.instances_eq]
          exact .refl _
        · rw [hRetyped.instances_eq]
      | hit => exact h.of_keeps hGrows (.refl _) rfl rfl rfl
      | miss => exact h.of_keeps hGrows (.refl _) rfl rfl rfl
      | @enter r m i closures hFresh hResolves hAbsent hRoom =>
        have hNew : (s.enroll i closures).instances.get? i.id = some i := by
          rw [hFresh.id_eq]
          exact Arena.get?_push_next _ _
        obtain ⟨_, hFormed⟩ := (hSound.enroll hFresh hResolves hAbsent hRoom).formed hNew
        exact h.enroll hOwned hFresh hFormed.closed

theorem steps (h : RegistersClosures p s) (hOwned : s.Owned) (hSound : Sound p s)
    (hSteps : Steps p s t) : RegistersClosures p t := by
  induction hSteps with
  | refl => exact h
  | tail hBefore hStep ih =>
    exact ih.step (hOwned.steps hBefore) (hSound.steps hBefore) hStep

end RunState.RegistersClosures

/-- Whatever a caller does, every instance has the closures of the lambdas in its initializers. -/
theorem after_registersClosures (p : Program) (types : TypeStore) (calls : List Call) :
    RegistersClosures p (.after p calls (.start types)) := by
  have hSound := Sound.start p types
  exact (RegistersClosures.start p types).steps (Owned.start types) hSound
    (hSound.steps_after calls)

namespace Curried

/-! A box whose only field is a function that returns a function, which captures its argument. -/

def symbols : SymbolTable :=
  ["Box", "T", "f", "x", "y"].foldl (fun table name => (table.intern name).2) .empty

def nodes : List Node :=
  [.var .bound ⟨1⟩, .function ⟨5⟩ ⟨13⟩ .total, .function ⟨13⟩ ⟨14⟩ .total]

def types : TypeStore := nodes.foldl (fun types node => (types.add node).2) initial

def box : ModuleDecl :=
  ⟨⟨0⟩, .origin, none, [⟨⟨1⟩, .origin, .type ⟨13⟩⟩], ⟨[⟨13⟩], ⟨13⟩⟩,
    [⟨⟨1⟩, .origin, .type ⟨13⟩⟩, ⟨⟨2⟩, .origin, .value ⟨15⟩ ⟨2⟩⟩]⟩

def tree : ModuleTree :=
  ⟨⟨#[box]⟩, ⟨#[⟨.localName ⟨3⟩, .origin, ⟨13⟩⟩, ⟨.lambda [⟨⟨4⟩, ⟨5⟩⟩] ⟨0⟩, .origin, ⟨14⟩⟩,
    ⟨.lambda [⟨⟨3⟩, ⟨13⟩⟩] ⟨1⟩, .origin, ⟨15⟩⟩]⟩⟩

def program : Program := ⟨tree, symbols, .silent⟩

def state : RunState := .after program [.instantiate ⟨0⟩ [.type ⟨2⟩]] (.start types)

/-- The outer lambda comes first, and the inner one has captured a string. -/
theorem state_registersClosures : RegistersClosures program state ∧
    state.instances.toList.map Instance.closures = [[⟨0⟩, ⟨1⟩]] ∧
    state.closures.toList.map (fun c => (c.expr, c.symbol)) =
      [(⟨2⟩, "Box__string__closure0"), (⟨1⟩, "Box__string__closure1")] ∧
    state.closures.toList.map (fun c => c.captures.map fun captured =>
      (captured.name, captured.type)) = [[], [(⟨3⟩, ⟨2⟩)]] := by
  refine ⟨after_registersClosures program types [.instantiate ⟨0⟩ [.type ⟨2⟩]], ?_, ?_, ?_⟩
  · decide +kernel
  · decide +kernel
  · decide +kernel

end Curried

end Specializer
