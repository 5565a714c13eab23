import Specializer.Proofs.Outcome
import Specializer.Types.Spelling

/-!
# Growth of the type store

Adding a node never changes what an older handle reads, so whatever is known of the types below a
handle stays known. What lies below a handle is said in two ways: `Reaches` follows components one
by one, and `AllWithin` gives a bound on the depth together with a property of every node, which is
the form that a walk with a bounded depth needs. In a grounded store the two agree.
-/

set_option autoImplicit false

namespace Specializer

theorem Arena.get?_of_find? {table : Table} {α : Type} [DecidableEq α] {a : Arena table α} {x : α}
    {h : Handle table} (hFind : a.find? x = some h) : a.get? h = some x := by
  obtain ⟨index, hIndex, rfl⟩ := Option.map_eq_some_iff.mp hFind
  obtain ⟨hBound, hEntry, -⟩ := Array.findIdx?_eq_some_iff_getElem.mp hIndex
  rw [get?, Array.getElem?_eq_getElem hBound]
  exact congrArg some (of_decide_eq_true hEntry)

theorem Arena.get?_ne_of_find? {table : Table} {α : Type} [DecidableEq α] {a : Arena table α}
    {x : α} (hFind : a.find? x = none) (h : Handle table) : a.get? h ≠ some x := by
  intro hGet
  have hNone := Array.findIdx?_eq_none_iff.mp (Option.map_eq_none_iff.mp hFind)
  simpa using hNone x (Array.mem_of_getElem? hGet)

theorem Arena.lt_of_get? {table : Table} {α : Type} {a : Arena table α} {h : Handle table} {x : α}
    (hGet : a.get? h = some x) : h.index < a.size :=
  (Array.getElem?_eq_some_iff.mp hGet).1

theorem Arena.mem_entries {table : Table} {α : Type} {a : Arena table α} {h : Handle table} {x : α}
    (hGet : a.get? h = some x) : (h, x) ∈ a.entries := by
  refine List.mem_map.mpr ⟨(x, h.index), List.mem_zipIdx_iff_getElem?.mpr ?_, rfl⟩
  rw [Array.getElem?_toList]
  exact hGet

theorem Arena.mem_toList_of_read {table : Table} {α : Type} {a : Arena table α} {h : Handle table}
    {x : α} (hRead : a.read h = .ok x) : x ∈ a.toList := by
  have hGet := (Arena.read_eq_ok_iff _ _ _).mp hRead
  rw [Arena.get?, ← Array.getElem?_toList] at hGet
  exact List.mem_of_getElem? hGet

namespace Node

/-- The symbols that the text of a node needs. -/
def names : Node → List SymbolId
  | .composite _ fields => fields.filterMap Field.name
  | .var _ name => [name]
  | _ => []

theorem components_withComponents (node : Node) (parts : List TypeId)
    (h : parts.length = node.components.length) :
    (node.withComponents parts).components = parts := by
  cases node with
  | indirect via target writable =>
    obtain ⟨part, rfl⟩ := List.length_eq_one_iff.mp (h.trans rfl)
    rfl
  | function argument result effect =>
    obtain ⟨first, second, rfl⟩ := List.length_eq_two.mp (h.trans rfl)
    rfl
  | tuple items =>
    simp only [withComponents, components, elements, List.map_map]
    exact List.map_id parts
  | composite shape fields =>
    have hLength : parts.length = fields.length := by simpa [components, elements] using h
    simp only [withComponents, components, elements]
    apply List.ext_getElem
    · simp [hLength]
    · intro i _ _
      simp
  | _ => exact (List.length_eq_zero_iff.mp (h.trans rfl)).symm

theorem withComponents_components (node : Node) : node.withComponents node.components = node := by
  cases node with
  | tuple items => simp [withComponents, components, elements, Field.unnamed, Function.comp_def]
  | composite shape fields =>
    simp [withComponents, components, elements, List.zipWith_map_right, List.zipWith_self]
  | _ => rfl

theorem withComponents_withComponents (node : Node) (parts parts' : List TypeId)
    (h : parts.length = node.components.length) (h' : parts'.length = node.components.length) :
    (node.withComponents parts).withComponents parts' = node.withComponents parts' := by
  cases node with
  | indirect via target writable =>
    obtain ⟨part, rfl⟩ := List.length_eq_one_iff.mp (h.trans rfl)
    obtain ⟨part', rfl⟩ := List.length_eq_one_iff.mp (h'.trans rfl)
    rfl
  | function argument result effect =>
    obtain ⟨first, second, rfl⟩ := List.length_eq_two.mp (h.trans rfl)
    obtain ⟨first', second', rfl⟩ := List.length_eq_two.mp (h'.trans rfl)
    rfl
  | composite shape fields =>
    simp only [components, elements, List.length_map] at h h'
    simp only [withComponents]
    congr 1
    apply List.ext_getElem
    · simp [h, h']
    · intro i _ _
      simp
  | _ => rfl

theorem isNominal_withComponents (node : Node) (parts : List TypeId) :
    (node.withComponents parts).isNominal = node.isNominal := by
  unfold withComponents
  split
  case h_4 shape fields => cases shape <;> rfl
  all_goals rfl

theorem names_withComponents (node : Node) (parts : List TypeId)
    (h : parts.length = node.components.length) :
    (node.withComponents parts).names = node.names := by
  cases node with
  | composite shape fields =>
    have hLength : parts.length = fields.length := by simpa [components, elements] using h
    simp only [withComponents, names]
    clear h
    induction fields generalizing parts with
    | nil => rw [List.zipWith_nil_left]
    | cons field fields ih =>
      cases parts with
      | nil => cases hLength
      | cons part parts =>
        rw [List.zipWith_cons_cons, List.filterMap_cons, List.filterMap_cons,
          ih parts (Nat.succ.inj hLength)]
  | indirect via target writable => unfold withComponents; split <;> simp_all [names]
  | function argument result effect => unfold withComponents; split <;> simp_all [names]
  | _ => rfl

theorem isVariable_withComponents (node : Node) (parts : List TypeId) :
    (node.withComponents parts).isVariable = node.isVariable := by
  unfold withComponents
  split <;> rfl

theorem components_of_isVariable {node : Node} (h : node.isVariable = true) :
    node.components = [] := by
  cases node <;> first | rfl | cases h

theorem isVariable_of_isBound {node : Node} (h : node.isBound = true) : node.isVariable = true := by
  cases node <;> first | rfl | cases h

end Node

namespace TypeStore

/-- Every handle of `s` reads the same node in `t`. -/
def Extends (s t : TypeStore) : Prop :=
  ∀ ⦃id node⦄, s.read id = .ok node → t.read id = .ok node

def Minted (s : TypeStore) (id : TypeId) : Prop := ∃ node, s.read id = .ok node

theorem Extends.refl (s : TypeStore) : s.Extends s := fun _ _ h => h

theorem Extends.trans {s t u : TypeStore} (hst : s.Extends t) (htu : t.Extends u) : s.Extends u :=
  fun _ _ h => htu (hst h)

theorem Minted.extend {s t : TypeStore} {id : TypeId} (h : s.Minted id) (hExt : s.Extends t) :
    t.Minted id := by
  obtain ⟨node, hNode⟩ := h
  exact ⟨node, hExt hNode⟩

theorem read_eq_ok_iff {s : TypeStore} {id : TypeId} {node : Node} :
    s.read id = .ok node ↔ s.nodes.items.get? id = some node :=
  Arena.read_eq_ok_iff _ _ _

theorem minted_iff_lt {s : TypeStore} {id : TypeId} : s.Minted id ↔ id.index < s.size := by
  constructor
  · rintro ⟨node, hNode⟩
    exact Arena.lt_of_get? (read_eq_ok_iff.mp hNode)
  · intro h
    exact ⟨_, read_eq_ok_iff.mpr (Array.getElem?_eq_getElem h)⟩

theorem Extends.size_le {s t : TypeStore} (h : s.Extends t) : s.size ≤ t.size := by
  cases hSize : s.size with
  | zero => exact Nat.zero_le _
  | succ last =>
    have hMinted : s.Minted ⟨last⟩ := minted_iff_lt.mpr (by rw [hSize]; exact Nat.lt_succ_self last)
    exact minted_iff_lt.mp (hMinted.extend h)

/-- The store behind `add` holds everything it held, and the node at the handle given for it. A
handle that is given anew is the next one, and no structural node gets one that it has already. -/
theorem add_cases (s : TypeStore) (node : Node) :
    ((s.add node).2 = s ∧ s.read (s.add node).1 = .ok node) ∨
      (s.add node).1 = ⟨s.size⟩ ∧ (s.add node).2.size = s.size + 1 ∧
        (node.isNominal = false → ∀ id, s.read id ≠ .ok node) ∧
        ∀ id, (s.add node).2.read id = if id = ⟨s.size⟩ then .ok node else s.read id := by
  have hPush : ∀ id, (s.push node).read id = if id = ⟨s.size⟩ then .ok node else s.read id := by
    intro id
    have hGet := s.nodes.items.get?_push node id
    change Arena.read (s.nodes.items.push node) id = _
    unfold Arena.read
    rw [hGet]
    by_cases hNext : id = s.nodes.items.next
    · rw [if_pos hNext, if_pos (show id = ⟨s.size⟩ from hNext)]
    · rw [if_neg hNext, if_neg (show id ≠ ⟨s.size⟩ from hNext)]
      rfl
  have hSize : (s.push node).size = s.size + 1 := Arena.size_push _ _
  unfold add
  split
  case isTrue hNominal =>
    refine .inr ⟨rfl, hSize, fun hNot => ?_, hPush⟩
    rw [hNominal] at hNot
    cases hNot
  case isFalse =>
    cases hFind : s.nodes.find? node with
    | some id =>
      rw [Interner.find?_eq] at hFind
      exact .inl ⟨rfl, read_eq_ok_iff.mpr (Arena.get?_of_find? hFind)⟩
    | none =>
      rw [Interner.find?_eq] at hFind
      exact .inr ⟨rfl, hSize, fun _ id h => Arena.get?_ne_of_find? hFind id (read_eq_ok_iff.mp h),
        hPush⟩

theorem extends_add (s : TypeStore) (node : Node) : s.Extends (s.add node).2 := by
  intro id old hOld
  rcases s.add_cases node with ⟨hSame, -⟩ | ⟨-, -, -, hRead⟩
  · rwa [hSame]
  · have hLt := minted_iff_lt.mp ⟨old, hOld⟩
    have hNe : id ≠ ⟨s.size⟩ := by
      rintro rfl
      exact Nat.lt_irrefl _ hLt
    rw [hRead, if_neg hNe, hOld]

theorem read_add (s : TypeStore) (node : Node) :
    (s.add node).2.read (s.add node).1 = .ok node := by
  rcases s.add_cases node with ⟨hSame, hNode⟩ | ⟨hId, -, -, hRead⟩
  · rwa [hSame]
  · rw [hRead, hId, if_pos rfl]

/-- `t` is `s` after some additions. -/
inductive Grown : TypeStore → TypeStore → Prop where
  | refl (s : TypeStore) : Grown s s
  | add {s t : TypeStore} (h : Grown s t) (node : Node) : Grown s (t.add node).2

namespace Grown

variable {s t u : TypeStore}

theorem trans (hst : s.Grown t) (htu : t.Grown u) : s.Grown u := by
  induction htu with
  | refl => exact hst
  | add _ node ih => exact ih.add node

theorem keeps {K : TypeStore → Prop} (hAdd : ∀ s node, K s → K (s.add node).2) (h : s.Grown t)
    (hKeep : K s) : K t := by
  induction h with
  | refl => exact hKeep
  | add _ node ih => exact hAdd _ node ih

theorem extension (h : s.Grown t) : s.Extends t :=
  h.keeps (K := s.Extends) (fun t node hExt => hExt.trans (t.extends_add node)) (.refl s)

end Grown

inductive Reaches (s : TypeStore) : TypeId → TypeId → Prop where
  | refl (id : TypeId) : Reaches s id id
  | step {id part last : TypeId} {node : Node} (hNode : s.read id = .ok node)
      (hPart : part ∈ node.components) (hRest : Reaches s part last) : Reaches s id last

theorem Reaches.extend {s t : TypeStore} {id last : TypeId} (h : s.Reaches id last)
    (hExt : s.Extends t) : t.Reaches id last := by
  induction h with
  | refl id => exact .refl id
  | step hNode hPart _ ih => exact .step (hExt hNode) hPart ih

/-- No way down from `id` is longer than `depth`, and every node on it is as `good` says. -/
def AllWithin (s : TypeStore) (good : TypeId → Node → Prop) : Nat → TypeId → Prop
  | 0, _ => False
  | depth + 1, id => ∃ node, s.read id = .ok node ∧ good id node ∧
      ∀ part ∈ node.components, s.AllWithin good depth part

namespace AllWithin

variable {s t : TypeStore} {good good' : TypeId → Node → Prop} {depth depth' : Nat} {id : TypeId}

theorem minted (h : s.AllWithin good depth id) : s.Minted id := by
  cases depth with
  | zero => exact h.elim
  | succ depth =>
    obtain ⟨node, hNode, -⟩ := h
    exact ⟨node, hNode⟩

theorem mono (h : s.AllWithin good depth id) (hDepth : depth ≤ depth') :
    s.AllWithin good depth' id := by
  induction depth generalizing id depth' with
  | zero => exact h.elim
  | succ depth ih =>
    obtain ⟨node, hNode, hHere, hParts⟩ := h
    cases depth' with
    | zero => cases hDepth
    | succ depth' =>
      exact ⟨node, hNode, hHere,
        fun part hPart => ih (hParts part hPart) (Nat.le_of_succ_le_succ hDepth)⟩

theorem extend (h : s.AllWithin good depth id) (hExt : s.Extends t) :
    t.AllWithin good depth id := by
  induction depth generalizing id with
  | zero => exact h
  | succ depth ih =>
    obtain ⟨node, hNode, hHere, hParts⟩ := h
    exact ⟨node, hExt hNode, hHere, fun part hPart => ih (hParts part hPart)⟩

theorem imp (h : s.AllWithin good depth id) (hGood : ∀ id node, good id node → good' id node) :
    s.AllWithin good' depth id := by
  induction depth generalizing id with
  | zero => exact h
  | succ depth ih =>
    obtain ⟨node, hNode, hHere, hParts⟩ := h
    exact ⟨node, hNode, hGood id node hHere, fun part hPart => ih (hParts part hPart)⟩

theorem of_reaches (h : s.AllWithin good depth id) {last : TypeId} (hReach : s.Reaches id last) :
    ∃ node, s.read last = .ok node ∧ good last node := by
  induction hReach generalizing depth with
  | refl id =>
    cases depth with
    | zero => exact h.elim
    | succ depth =>
      obtain ⟨node, hNode, hHere, -⟩ := h
      exact ⟨node, hNode, hHere⟩
  | step hNode hPart hRest ih =>
    cases depth with
    | zero => exact h.elim
    | succ depth =>
      obtain ⟨node, hNode', -, hParts⟩ := h
      cases hNode.symm.trans hNode'
      exact ih (hParts _ hPart)

end AllWithin

/-- Every component was there before the node it belongs to, which is so when nodes are only ever
added around handles that the store has handed out. -/
def Grounded (s : TypeStore) : Prop :=
  ∀ ⦃id node⦄, s.read id = .ok node → ∀ part ∈ node.components, part.index < id.index

theorem Grounded.minted_part {s : TypeStore} (hGround : s.Grounded) {id part : TypeId} {node : Node}
    (hNode : s.read id = .ok node) (hPart : part ∈ node.components) : s.Minted part :=
  minted_iff_lt.mpr (Nat.lt_trans (hGround hNode part hPart) (minted_iff_lt.mp ⟨node, hNode⟩))

theorem Grounded.allWithin {s : TypeStore} (hGround : s.Grounded) {G : TypeId → Node → Prop}
    {id : TypeId} (hMinted : s.Minted id)
    (hGood : ∀ last node, s.Reaches id last → s.read last = .ok node → G last node) :
    s.AllWithin G (id.index + 1) id := by
  suffices h : ∀ depth id, id.index < depth → s.Minted id →
      (∀ last node, s.Reaches id last → s.read last = .ok node → G last node) →
      s.AllWithin G depth id from h _ id (Nat.lt_succ_self _) hMinted hGood
  intro depth
  induction depth with
  | zero => exact fun id h => absurd h (Nat.not_lt_zero _)
  | succ depth ih =>
    intro id hLt hMinted hGood
    obtain ⟨node, hNode⟩ := hMinted
    refine ⟨node, hNode, hGood id node (.refl id) hNode, fun part hPart => ?_⟩
    have hPartLt := hGround hNode part hPart
    exact ih part (by omega) (hGround.minted_part hNode hPart)
      fun last other hReach hOther => hGood last other (.step hNode hPart hReach) hOther

theorem Grounded.le_of_reaches {s : TypeStore} (hGround : s.Grounded) {id last : TypeId}
    (h : s.Reaches id last) : last.index ≤ id.index := by
  induction h with
  | refl => exact Nat.le_refl _
  | step hNode hPart _ ih => exact Nat.le_trans ih (Nat.le_of_lt (hGround hNode _ hPart))

theorem Grounded.add {s : TypeStore} (hGround : s.Grounded) {node : Node}
    (hParts : ∀ part ∈ node.components, s.Minted part) : (s.add node).2.Grounded := by
  rcases s.add_cases node with ⟨hSame, -⟩ | ⟨-, -, -, hRead⟩
  · rwa [hSame]
  · intro id other hOther part hPart
    rw [hRead] at hOther
    split at hOther
    case isTrue hNext =>
      cases hOther
      rw [hNext]
      exact minted_iff_lt.mp (hParts part hPart)
    case isFalse => exact hGround hOther part hPart

theorem read_initial {id : TypeId} {node : Node} :
    initial.read id = .ok node ↔ primitives[id.index]? = some node := by
  have hItems : initial.nodes.items.items.toList = primitives := by decide +kernel
  rw [read_eq_ok_iff, ← hItems, Array.getElem?_toList]
  rfl

theorem mem_primitives {id : TypeId} {node : Node} (h : initial.read id = .ok node) :
    node ∈ primitives :=
  List.mem_of_getElem? (read_initial.mp h)

theorem grounded_initial : initial.Grounded := by
  intro id node hNode part hPart
  have hNone : ∀ node ∈ primitives, node.components = [] := by decide
  rw [hNone node (mem_primitives hNode)] at hPart
  cases hPart

/-- Every name in the store has a text. -/
def Named (symbols : SymbolTable) (s : TypeStore) : Prop :=
  ∀ ⦃id node⦄, s.read id = .ok node → ∀ name ∈ node.names, ∃ text, symbols.name name = .ok text

theorem Named.add {symbols : SymbolTable} {s : TypeStore} (hNamed : s.Named symbols) {node : Node}
    (hNames : ∀ name ∈ node.names, ∃ text, symbols.name name = .ok text) :
    (s.add node).2.Named symbols := by
  rcases s.add_cases node with ⟨hSame, -⟩ | ⟨-, -, -, hRead⟩
  · rwa [hSame]
  · intro id other hOther
    rw [hRead] at hOther
    split at hOther
    · cases hOther
      exact hNames
    · exact hNamed hOther

theorem named_initial (symbols : SymbolTable) : initial.Named symbols := by
  intro id node hNode name hName
  have hNone : ∀ node ∈ primitives, node.names = [] := by decide
  rw [hNone node (mem_primitives hNode)] at hName
  cases hName

/-- A store in which every walk down from a handle ends and every name can be shown. -/
structure Sane (symbols : SymbolTable) (s : TypeStore) : Prop where
  grounded : s.Grounded
  named : s.Named symbols

/-- Each half of being sane passes from `s` to `t` on its own. -/
structure StaysSane (symbols : SymbolTable) (s t : TypeStore) : Prop where
  grounded : s.Grounded → t.Grounded
  named : s.Named symbols → t.Named symbols

theorem StaysSane.refl (symbols : SymbolTable) (s : TypeStore) : StaysSane symbols s s := ⟨id, id⟩

theorem StaysSane.trans {symbols : SymbolTable} {s t u : TypeStore} (hst : StaysSane symbols s t)
    (htu : StaysSane symbols t u) : StaysSane symbols s u :=
  ⟨fun h => htu.grounded (hst.grounded h), fun h => htu.named (hst.named h)⟩

end TypeStore

end Specializer
