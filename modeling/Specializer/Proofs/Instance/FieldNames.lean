import Specializer.Proofs.Instance.ModuleTypes
import Specializer.Proofs.Instance.Pending
import Specializer.Proofs.Types.FieldTables

/-!
# Looking up a name

A name can be looked up in three places: among the bindings of a module, among the fields of an
instance, and in the type of that instance. The first two lookups find the first place that has the
name and the third finds the last one. They agree exactly if no two value or type bindings of the
module have that name; a name that the type does not know is never that of a value or type binding.
-/

set_option autoImplicit false

namespace Specializer

open TypeStore RunState

/-- The binding at `index` is a value or a type of that name. -/
def ModuleDecl.Lists (m : ModuleDecl) (name : SymbolId) (index : Nat) : Prop :=
  ∃ b field, m.bindings[index]? = some b ∧ b.field? = some field ∧ b.name = name

/-- A value or type binding that its name leads to is the first of that name. -/
theorem ModuleDecl.isLeast_bindingIndex? {m : ModuleDecl} {name : SymbolId} {index : Nat}
    (h : m.bindingIndex? name = some index) (hLists : m.Lists name index) :
    IsLeast {k | m.Lists name k} index := by
  obtain ⟨_, _, hBefore⟩ := List.findIdx?_eq_some_iff_getElem.mp h
  refine ⟨hLists, ?_⟩
  rintro k ⟨b, _, hGet, _, hName⟩
  by_contra hLess
  obtain ⟨_, rfl⟩ := List.getElem?_eq_some_iff.mp hGet
  exact hBefore k (not_le.mp hLess) (decide_eq_true hName)

theorem Binding.nested_of_field?_eq_none {b : Binding} (h : b.field? = none) :
    ∃ inner, b.kind = .nested inner := by
  unfold field? at h
  split at h
  · cases h
  · cases h
  case h_3 inner hKind => exact ⟨inner, hKind⟩

/-- How the lookups of a name compare, where `answer` is what the type of the instance says. -/
structure Instance.Lookups (m : ModuleDecl) (i : Instance) (name : SymbolId) (answer : Option Nat) :
    Prop where
  /-- The instance finds the first of the bindings and the type the last one. -/
  found : ∀ ⦃index⦄, m.bindingIndex? name = some index → m.Lists name index →
    ∃ position first last, i.fieldByName? name = some first ∧ first.binding = index ∧
      answer = some position ∧ i.fields[position]? = some last ∧
      IsGreatest {k | m.Lists name k} last.binding ∧
      (last = first ↔ ∀ k, m.Lists name k → k = index)
  unknown : answer = none → m.bindingIndex? name = none ∨ ∃ index b inner,
    m.bindingIndex? name = some index ∧ m.bindings[index]? = some b ∧ b.kind = .nested inner

section Fields

variable {p : Program} {s : RunState} {m : ModuleDecl} {id : InstanceId} {i : Instance}
  {name : SymbolId}

theorem FieldSource.name_of_ofBinding? {b : Binding} {index : Nat} {source : FieldSource}
    (h : ofBinding? b index = some source) : source.name = b.name := by
  unfold ofBinding? at h
  split at h <;> cases h <;> rfl

theorem Formed.lists_iff (h : Formed p s m id i) {index : Nat} :
    m.Lists name index ↔ ∃ f ∈ i.fields, f.name = name ∧ f.binding = index := by
  constructor
  · rintro ⟨b, field, hGet, hField, rfl⟩
    rw [← FieldSource.map_entry_ofBinding? b index, Option.map_eq_some_iff] at hField
    obtain ⟨source, hOf, -⟩ := hField
    have hIndex := FieldSource.binding_of_ofBinding? hOf
    have hSource : source ∈ m.fieldSources := by
      rw [ModuleDecl.mem_fieldSources, hIndex]
      exact ⟨b, hGet, hOf⟩
    obtain ⟨f, hf, hYields⟩ := exists_mem_right_of_forall₂ h.fields hSource
    exact ⟨f, hf, hYields.name.trans (FieldSource.name_of_ofBinding? hOf),
      hYields.binding.trans hIndex⟩
  · rintro ⟨f, hf, rfl, rfl⟩
    obtain ⟨source, hSource, hYields⟩ := exists_mem_left_of_forall₂ h.fields hf
    obtain ⟨b, hGet, hOf⟩ := ModuleDecl.mem_fieldSources.mp hSource
    rw [hYields.name, hYields.binding, FieldSource.name_of_ofBinding? hOf]
    refine ⟨b, source.entry, hGet, ?_, rfl⟩
    rw [← FieldSource.map_entry_ofBinding? b source.binding, hOf, Option.map_some]

theorem Formed.isLeast_fieldByName? (h : Formed p s m id i) {f : Definition}
    (hFind : i.fieldByName? name = some f) : IsLeast {k | m.Lists name k} f.binding := by
  obtain ⟨hName, before, after, hSplit, hBefore⟩ := List.find?_eq_some_iff_append.mp hFind
  have hIncreasing := h.increasing_bindings
  constructor
  · refine h.lists_iff.mpr ⟨f, ?_, of_decide_eq_true hName, rfl⟩
    simp [hSplit]
  · intro k hLists
    obtain ⟨g, hg, hgName, rfl⟩ := h.lists_iff.mp hLists
    rw [hSplit, List.mem_append, List.mem_cons] at hg
    rcases hg with hg | rfl | hg
    · simp only [Bool.not_eq_true', decide_eq_false_iff_not] at hBefore
      exact absurd hgName (hBefore g hg)
    · exact le_rfl
    · -- Fields stand in the order of their bindings, so what follows `f` has later ones.
      rw [hSplit, List.map_append, List.map_cons, List.pairwise_append, List.pairwise_cons]
        at hIncreasing
      exact le_of_lt (hIncreasing.2.1.1 _ (List.mem_map_of_mem hg))

theorem Formed.isGreatest_binding (h : Formed p s m id i) {position : Nat} {last : Definition}
    (hGreatest : IsGreatest {k | ∃ f, i.fields[k]? = some f ∧ f.name = name} position)
    (hLast : i.fields[position]? = some last) : IsGreatest {k | m.Lists name k} last.binding := by
  obtain ⟨⟨f, hf, hName⟩, hUpper⟩ := hGreatest
  cases hf.symm.trans hLast
  refine ⟨h.lists_iff.mpr ⟨last, List.mem_of_getElem? hLast, hName, rfl⟩, ?_⟩
  intro k hLists
  obtain ⟨g, hg, hgName, rfl⟩ := h.lists_iff.mp hLists
  obtain ⟨other, hOther⟩ := List.mem_iff_getElem?.mp hg
  have hLe : other ≤ position := hUpper ⟨g, hOther, hgName⟩
  rcases hLe.lt_or_eq with hLess | rfl
  · have hIncreasing := List.pairwise_iff_getElem.mp h.increasing_bindings
    obtain ⟨hBound, rfl⟩ := List.getElem?_eq_some_iff.mp hLast
    obtain ⟨hBound', rfl⟩ := List.getElem?_eq_some_iff.mp hOther
    simp only [List.length_map, List.getElem_map] at hIncreasing
    exact (hIncreasing other position hBound' hBound hLess).le
  · cases hOther.symm.trans hLast
    exact le_rfl

theorem Formed.eq_of_binding_eq (h : Formed p s m id i) {f g : Definition} (hf : f ∈ i.fields)
    (hg : g ∈ i.fields) (hSame : f.binding = g.binding) : f = g :=
  List.inj_on_of_nodup_map h.increasing_bindings.nodup hf hg hSame

theorem Formed.exists_fieldByName? (h : Formed p s m id i) {index : Nat}
    (hLists : m.Lists name index) : ∃ f, i.fieldByName? name = some f := by
  obtain ⟨f, hf, hName, -⟩ := h.lists_iff.mp hLists
  apply Option.isSome_iff_exists.mp
  rw [Instance.fieldByName?, List.find?_isSome]
  exact ⟨f, hf, decide_eq_true hName⟩

section Entries

variable {entries : List Field}

theorem Formed.exists_find?_fieldTable (h : Formed p s m id i)
    (hNames : entries.map Field.name = i.fields.map fun f => some f.name) {index : Nat}
    (hLists : m.Lists name index) :
    ∃ position, (Node.fieldTable entries).find? name = some position := by
  obtain ⟨f, hf, rfl, -⟩ := h.lists_iff.mp hLists
  apply Option.ne_none_iff_exists'.mp
  rw [ne_eq, Node.find?_fieldTable_eq_none_iff, hNames, not_not]
  exact List.mem_map_of_mem hf

theorem Formed.isGreatest_find?_fieldTable (h : Formed p s m id i)
    (hNames : entries.map Field.name = i.fields.map fun f => some f.name) {position : Nat}
    (hPosition : (Node.fieldTable entries).find? name = some position) :
    ∃ last, i.fields[position]? = some last ∧ IsGreatest {k | m.Lists name k} last.binding := by
  have hGreatest := Node.isGreatest_of_find? hPosition
  simp only [hNames, List.getElem?_map, Option.map_eq_some_iff, Option.some.injEq] at hGreatest
  obtain ⟨last, hLast, -⟩ := hGreatest.1
  exact ⟨last, hLast, h.isGreatest_binding hGreatest hLast⟩

theorem Formed.lookups (h : Formed p s m id i)
    (hNames : entries.map Field.name = i.fields.map fun f => some f.name) :
    i.Lookups m name ((Node.fieldTable entries).find? name) where
  found index hIndex hLists := by
    obtain ⟨first, hFind⟩ := h.exists_fieldByName? hLists
    obtain ⟨position, hPosition⟩ := h.exists_find?_fieldTable hNames hLists
    obtain ⟨last, hGet, hLast⟩ := h.isGreatest_find?_fieldTable hNames hPosition
    have hFirst := h.isLeast_fieldByName? hFind
    have hSame : first.binding = index :=
      hFirst.unique (ModuleDecl.isLeast_bindingIndex? hIndex hLists)
    refine ⟨position, first, last, hFind, hSame, hPosition, hGet, hLast, ?_⟩
    constructor
    · rintro rfl k hk
      exact (le_antisymm (hLast.2 hk) (hFirst.2 hk)).trans hSame
    · intro hOnly
      apply h.eq_of_binding_eq (List.mem_of_getElem? hGet) (List.mem_of_find?_eq_some hFind)
      exact (hOnly _ hLast.1).trans hSame.symm
  unknown hNone := by
    cases hIndex : m.bindingIndex? name with
    | none => exact .inl rfl
    | some index =>
      obtain ⟨hBound, hHere, -⟩ := List.findIdx?_eq_some_iff_getElem.mp hIndex
      have hGet := List.getElem?_eq_getElem hBound
      cases hField : m.bindings[index].field? with
      | none =>
        obtain ⟨inner, hKind⟩ := Binding.nested_of_field?_eq_none hField
        exact .inr ⟨index, _, inner, rfl, hGet, hKind⟩
      | some field =>
        obtain ⟨position, hPosition⟩ :=
          h.exists_find?_fieldTable hNames ⟨_, field, hGet, hField, of_decide_eq_true hHere⟩
        cases hNone.symm.trans hPosition

end Entries

theorem Formed.names_of_moduleType (h : Formed p s m id i) {shape : Shape}
    (hBody : s.types.read m.scheme.body =
      .ok (.composite shape (m.bindings.filterMap Binding.field?))) :
    ∃ entries, s.types.read i.moduleType = .ok (.composite shape entries) ∧
      entries.map Field.name = i.fields.map fun f => some f.name := by
  obtain ⟨entries, hRead, hEntries⟩ := h.moduleType.of_composite hBody
  refine ⟨entries, hRead, ?_⟩
  rw [← m.map_entry_fieldSources, List.forall₂_map_left_iff] at hEntries
  rw [← List.forall₂_eq_eq_eq, List.forall₂_map_left_iff, List.forall₂_map_right_iff]
  apply forall₂_join hEntries.flip h.fields
  rintro entry source f ⟨hName, -⟩ hYields
  rw [hName, hYields.name, FieldSource.entry]

end Fields

/-- Whatever a caller does, the type of an instance of a sealed module answers for each name. -/
theorem after_fieldIndex_lookups (p : Program) (types : TypeStore) (calls : List Call)
    {id : InstanceId} {i : Instance} {m : ModuleDecl}
    (hi : (after p calls (.start types)).instances.get? id = some i)
    (hDecl : p.tree.readModule i.source = .ok m)
    (hSealed : types.read m.scheme.body = p.tree.moduleNode i.source) (name : SymbolId) :
    ∃ answer, (after p calls (.start types)).types.fieldIndex i.moduleType name = .ok (.ok answer) ∧
      i.Lookups m name answer := by
  have hSound := Sound.start p types
  have hGrown := (hSound.steps_after calls).grown
  obtain ⟨n, hFormed⟩ := (hSound.after calls).formed hi
  cases hDecl.symm.trans hFormed.decl
  obtain ⟨entries, hRead, hNames⟩ := hFormed.names_of_moduleType
    (hGrown.extension (hSealed.trans (ModuleTree.moduleNode_eq hDecl)))
  exact ⟨_, fieldIndex_of_fields hRead rfl name, hFormed.lookups hNames⟩

namespace Repeated

def symbols : SymbolTable :=
  ["Main", "Inner", "x", "y"].foldl (fun table name => (table.intern name).2) .empty

def types : TypeStore :=
  (initial.add (.composite .moduleType
    [⟨some ⟨2⟩, ⟨5⟩, false⟩, ⟨some ⟨3⟩, ⟨5⟩, false⟩, ⟨some ⟨2⟩, ⟨1⟩, false⟩])).2

def main : ModuleDecl :=
  ⟨⟨0⟩, .origin, none, [], ⟨[], ⟨13⟩⟩,
    [⟨⟨1⟩, .origin, .nested ⟨1⟩⟩, ⟨⟨2⟩, .origin, .value ⟨5⟩ ⟨0⟩⟩, ⟨⟨3⟩, .origin, .value ⟨5⟩ ⟨1⟩⟩,
      ⟨⟨2⟩, .origin, .value ⟨1⟩ ⟨2⟩⟩]⟩

def inner : ModuleDecl := ⟨⟨1⟩, .origin, some ⟨0⟩, [], ⟨[], ⟨0⟩⟩, []⟩

def exprs : Array Expr :=
  #[⟨.literal (.signed .w32 3), .origin, ⟨5⟩⟩, ⟨.literal (.signed .w32 4), .origin, ⟨5⟩⟩,
    ⟨.literal (.boolean true), .origin, ⟨1⟩⟩]

def program : Program := ⟨⟨⟨#[main, inner]⟩, ⟨exprs⟩⟩, symbols, .silent⟩

def calls : List Call := [.instantiate ⟨0⟩ [], .drain]

def state : RunState := after program calls (.start types)

def made : Instance :=
  ⟨⟨0⟩, ⟨0⟩, none, .empty, [], "Main", ⟨13⟩,
    [⟨⟨2⟩, 1, .valueConstant, ⟨5⟩, .literal (.signed .w32 3), .origin⟩,
      ⟨⟨3⟩, 2, .valueConstant, ⟨5⟩, .literal (.signed .w32 4), .origin⟩,
      ⟨⟨2⟩, 3, .valueConstant, ⟨1⟩, .literal (.boolean true), .origin⟩], [], [⟨1⟩]⟩

theorem get?_made : state.instances.get? ⟨0⟩ = some made := by decide +kernel

theorem read_main : program.tree.readModule made.source = .ok main := rfl

theorem sealed : types.read main.scheme.body = program.tree.moduleNode made.source := by
  decide +kernel

theorem lists_first : main.Lists ⟨2⟩ 1 := ⟨_, _, rfl, rfl, rfl⟩

end Repeated

theorem Repeated.made_lookups : ∃ answer,
    state.types.fieldIndex made.moduleType ⟨2⟩ = .ok (.ok answer) ∧
      made.Lookups main ⟨2⟩ answer ∧ main.bindingIndex? ⟨2⟩ = some 1 ∧ main.Lists ⟨2⟩ 1 := by
  obtain ⟨answer, hAnswer, hLookups⟩ :=
    after_fieldIndex_lookups program types calls get?_made read_main sealed ⟨2⟩
  exact ⟨answer, hAnswer, hLookups, rfl, lists_first⟩

/-- The module and the instance find the first of the two values, but the type finds the last. -/
theorem Repeated.lookups_differ : state.instances.get? ⟨0⟩ = some made ∧
    program.tree.readModule made.source = .ok main ∧
    types.read main.scheme.body = program.tree.moduleNode made.source ∧
    main.bindingIndex? ⟨2⟩ = some 1 ∧ main.Lists ⟨2⟩ 1 ∧
    (made.fieldByName? ⟨2⟩).map Definition.binding = some 1 ∧
    state.types.fieldIndex made.moduleType ⟨2⟩ = .ok (.ok (some 2)) ∧
    made.fields[2]?.map Definition.binding = some 3 := by
  refine ⟨get?_made, read_main, sealed, rfl, lists_first, rfl, ?_, rfl⟩
  decide +kernel

end Specializer
