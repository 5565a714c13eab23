import Specializer.Proofs.Instance.Calls
import Specializer.Proofs.Instance.Process
import Specializer.Proofs.Substitution.Strict

/-!
# The type of an instance and its fields

A sealed module has a type that lists its value and type bindings. An instance of it says the same
twice: its module type is the listing under the substitution of the instance, rewritten in one go,
and its fields were rewritten one by one, in a store that had grown in between. The two views go in
step. Their types are equal as trees, and they have the same handle unless there is a module type
with variables in the source, since such a type gets a new handle each time it is rewritten.
-/

set_option autoImplicit false

namespace Specializer

open TypeStore RunState

namespace TypeStore

variable {s : TypeStore} {sub : Substitution} {id a b : TypeId}

theorem AllWithin.of_all_reached {good good' : TypeId → Node → Prop} {depth : Nat}
    (h : s.AllWithin good depth id)
    (hGood : ∀ last node, s.Reaches id last → s.read last = .ok node → good' last node) :
    s.AllWithin good' depth id := by
  induction depth generalizing id with
  | zero => exact h.elim
  | succ depth ih =>
    obtain ⟨node, hNode, -, hParts⟩ := h
    refine ⟨node, hNode, hGood id node (.refl id) hNode, fun part hPart => ?_⟩
    apply ih (hParts part hPart)
    intro last other hReach hOther
    exact hGood last other (.step hNode hPart hReach) hOther

theorem AllWithin.exists_of_reaches {good : TypeId → Node → Prop} {depth : Nat}
    (h : s.AllWithin good depth id) {last : TypeId} (hReach : s.Reaches id last) :
    ∃ depth, s.AllWithin good depth last := by
  induction hReach generalizing depth with
  | refl => exact ⟨depth, h⟩
  | step hNode hPart _ ih =>
    cases depth with
    | zero => exact h.elim
    | succ depth =>
      obtain ⟨node, hNode', -, hParts⟩ := h
      cases hNode.symm.trans hNode'
      exact ih (hParts _ hPart)

/-- What has an image has an end, so nothing needs to be known about the rest of the store. -/
theorem Image.exists_steadyWithin {mode : Strictness} (h : s.Image sub mode id a)
    (hSteady : s.Steady id) : ∃ depth, s.SteadyWithin depth id := by
  obtain ⟨depth, h⟩ := h
  have hAll := h.allWithin
  refine ⟨depth, hAll.of_all_reached fun last node hReach hNode hNominal => ?_⟩
  unfold Node.isNominal at hNominal
  split at hNominal
  case h_1 fields =>
    obtain ⟨below, hBelow⟩ := hAll.exists_of_reaches hReach
    refine .inr ⟨below, hBelow.of_all_reached fun under other hUnder hOther => ?_⟩
    apply Bool.eq_false_iff.mpr
    intro hVar
    exact hSteady last fields hReach hNode ⟨under, other, hUnder, hOther, hVar⟩
  case h_2 => exact .inl rfl
  case h_3 => cases hNominal

theorem Canonical.image_eq_of_steady (hCanonical : s.Canonical) {mode : Strictness}
    (hSteady : s.Steady id) (ha : s.Image sub mode id a) (hb : s.Image sub mode id b) : a = b := by
  obtain ⟨depth, hWithin⟩ := ha.exists_steadyWithin hSteady
  exact hCanonical.image_unique hWithin ha hb

theorem Image.agree {mode : Strictness} (ha : s.Image sub mode id a) (hb : s.Image sub mode id b)
    (hSub : sub.ClosedIn s) : s.Agree a b := by
  obtain ⟨tree, hTree⟩ := ha.exists_unfolds
  obtain ⟨replace, hReplace⟩ := hSub.exists_replaces
  exact ⟨tree.substitute replace, ha.unfolds hTree hReplace, hb.unfolds hTree hReplace⟩

end TypeStore

def FieldSource.entry (source : FieldSource) : Field :=
  ⟨some source.name, source.type, decide (source.kind = .typeConstant)⟩

theorem FieldSource.map_entry_ofBinding? (b : Binding) (index : Nat) :
    (FieldSource.ofBinding? b index).map FieldSource.entry = b.field? := by
  obtain ⟨name, span, kind⟩ := b
  cases kind <;> rfl

theorem ModuleDecl.map_entry_fieldSources (m : ModuleDecl) :
    m.fieldSources.map FieldSource.entry = m.bindings.filterMap Binding.field? := by
  have hBindings : m.bindings = m.bindings.zipIdx.map Prod.fst := by simp
  rw [fieldSources, List.map_filterMap]
  conv_rhs => rw [hBindings, List.filterMap_map]
  congr 1
  funext entry
  exact FieldSource.map_entry_ofBinding? entry.1 entry.2

/-- An entry of the type of an instance says the same as a field of that instance. The types are
one handle, unless the type of the binding has a module type with variables below it. -/
structure Field.Mirrors (types : TypeStore) (m : ModuleDecl) (entry : Field) (f : Definition) :
    Prop where
  name : entry.name = some f.name
  isType : entry.isType = true ↔ f.kind = .typeConstant
  type : types.Agree entry.type f.type
  handle : ∃ b field, m.bindings[f.binding]? = some b ∧ b.field? = some field ∧
    (types.Steady field.type → entry.type = f.type)

section Mirrors

variable {p : Program} {s : RunState} {m : ModuleDecl} {id : InstanceId} {i : Instance}

theorem FieldSource.mirrors (hCanonical : s.types.Canonical) {sub : Substitution}
    (hSub : sub.ClosedIn s.types) {source : FieldSource} {entry : Field} {f : Definition}
    (hSource : source ∈ m.fieldSources) (hName : entry.name = source.entry.name)
    (hIsType : entry.isType = source.entry.isType)
    (hType : s.types.Image sub .strict source.type entry.type)
    (hYields : source.Yields s.types sub f) : entry.Mirrors s.types m f where
  name := by rw [hName, hYields.name, FieldSource.entry]
  isType := by rw [hIsType, hYields.kind, FieldSource.entry, decide_eq_true_iff]
  type := hType.agree hYields.type hSub
  handle := by
    obtain ⟨b, hGet, hOf⟩ := ModuleDecl.mem_fieldSources.mp hSource
    have hField : b.field? = some source.entry := by
      rw [← FieldSource.map_entry_ofBinding? b source.binding, hOf, Option.map_some]
    rw [← hYields.binding] at hGet
    exact ⟨b, source.entry, hGet, hField,
      fun hSteady => hCanonical.image_eq_of_steady hSteady hType hYields.type⟩

theorem Formed.mirrors (h : Formed p s m id i) (hCanonical : s.types.Canonical) {shape : Shape}
    (hBody : s.types.read m.scheme.body =
      .ok (.composite shape (m.bindings.filterMap Binding.field?))) :
    ∃ entries, s.types.read i.moduleType = .ok (.composite shape entries) ∧
      List.Forall₂ (Field.Mirrors s.types m) entries i.fields := by
  obtain ⟨entries, hRead, hEntries⟩ := h.moduleType.of_composite hBody
  refine ⟨entries, hRead, ?_⟩
  rw [← m.map_entry_fieldSources, List.forall₂_map_left_iff] at hEntries
  -- Both views are lists over the sources of the fields; membership goes along with the pairing.
  have hBoth : List.Forall₂ (fun source entry => source ∈ m.fieldSources ∧
      entry.name = source.entry.name ∧ entry.isType = source.entry.isType ∧
      s.types.Image i.substitution .strict source.type entry.type) m.fieldSources entries :=
    List.forall₂_iff_zip.mpr ⟨hEntries.length_eq, fun hPair =>
      ⟨(List.of_mem_zip hPair).1, List.forall₂_zip hEntries hPair⟩⟩
  apply forall₂_join hBoth.flip h.fields
  rintro entry source f ⟨hSource, hName, hIsType, hType⟩ hYields
  exact FieldSource.mirrors hCanonical h.closed hSource hName hIsType hType hYields

end Mirrors

/-- Whatever a caller does, an instance of a sealed module has the fields that its type lists. -/
theorem after_moduleType_mirrors (p : Program) {types : TypeStore} (hTypes : initial.Grown types)
    (calls : List Call) {id : InstanceId} {i : Instance} {m : ModuleDecl}
    (hi : (after p calls (.start types)).instances.get? id = some i)
    (hDecl : p.tree.readModule i.source = .ok m)
    (hSealed : types.read m.scheme.body = p.tree.moduleNode i.source) :
    ∃ node, (after p calls (.start types)).types.read i.moduleType = .ok node ∧
      List.Forall₂ (Field.Mirrors (after p calls (.start types)).types m)
        node.elements i.fields := by
  have hSound := Sound.start p types
  have hGrown := (hSound.steps_after calls).grown
  obtain ⟨n, hFormed⟩ := (hSound.after calls).formed hi
  cases hDecl.symm.trans hFormed.decl
  have hCanonical := (hTypes.trans hGrown).canonical canonical_initial
  have hBody := hGrown.extension (hSealed.trans (ModuleTree.moduleNode_eq hDecl))
  obtain ⟨entries, hRead, hEntries⟩ := hFormed.mirrors hCanonical hBody
  exact ⟨_, hRead, hEntries⟩

namespace Sealed

def symbols : SymbolTable :=
  ["Box", "T", "link", "item", "Cell"].foldl (fun table name => (table.intern name).2) .empty

def nodes : List Node :=
  [.var .bound ⟨1⟩, .indirect .pointer ⟨13⟩ true,
    .composite .moduleType [⟨some ⟨3⟩, ⟨13⟩, false⟩],
    .composite .moduleType [⟨some ⟨1⟩, ⟨13⟩, true⟩, ⟨some ⟨2⟩, ⟨15⟩, false⟩,
      ⟨some ⟨3⟩, ⟨14⟩, false⟩]]

def types : TypeStore := nodes.foldl (fun types node => (types.add node).2) initial

def box : ModuleDecl :=
  ⟨⟨0⟩, .origin, none, [⟨⟨1⟩, .origin, .type ⟨13⟩⟩], ⟨[⟨13⟩], ⟨16⟩⟩,
    [⟨⟨4⟩, .origin, .nested ⟨1⟩⟩, ⟨⟨1⟩, .origin, .type ⟨13⟩⟩, ⟨⟨2⟩, .origin, .value ⟨15⟩ ⟨0⟩⟩,
      ⟨⟨3⟩, .origin, .value ⟨14⟩ ⟨1⟩⟩]⟩

def cell : ModuleDecl := ⟨⟨4⟩, .origin, some ⟨0⟩, [], ⟨[], ⟨0⟩⟩, []⟩

def exprs : Array Expr := #[⟨.localName ⟨2⟩, .origin, ⟨15⟩⟩, ⟨.localName ⟨3⟩, .origin, ⟨14⟩⟩]

def program : Program := ⟨⟨⟨#[box, cell]⟩, ⟨exprs⟩⟩, symbols, .silent⟩

def state : RunState := after program [.instantiate ⟨0⟩ [.type ⟨5⟩], .drain] (.start types)

theorem grown : initial.Grown types :=
  .add (.add (.add (.add (.refl initial) _) _) _) _

end Sealed

theorem Sealed.box_mirrors : ∃ i node, state.instances.get? ⟨0⟩ = some i ∧
    state.types.read i.moduleType = .ok node ∧
    List.Forall₂ (Field.Mirrors state.types box) node.elements i.fields ∧
    i.fields.map Definition.binding = [1, 2, 3] := by
  obtain ⟨i, hi⟩ : ∃ i, state.instances.get? ⟨0⟩ = some i :=
    Option.isSome_iff_exists.mp (by decide +kernel)
  have hSource : (state.instances.get? ⟨0⟩).map Instance.source = some ⟨0⟩ := by decide +kernel
  have hBindings : (state.instances.get? ⟨0⟩).map (fun i => i.fields.map Definition.binding) =
      some [1, 2, 3] := by decide +kernel
  rw [hi, Option.map_some, Option.some.injEq] at hSource hBindings
  have hDecl : program.tree.readModule i.source = .ok box := by
    rw [hSource]
    rfl
  have hSealed : types.read box.scheme.body = program.tree.moduleNode i.source := by
    rw [hSource]
    decide +kernel
  obtain ⟨node, hNode, hMirrors⟩ := after_moduleType_mirrors program grown
    [.instantiate ⟨0⟩ [.type ⟨5⟩], .drain] hi hDecl hSealed
  exact ⟨i, node, hi, hNode, hMirrors, hBindings⟩

-- The link has a module type with a variable for its type, so the views differ in its handle.
example : (Sealed.state.types.read ⟨19⟩).map Node.components = .ok [⟨5⟩, ⟨17⟩, ⟨18⟩] ∧
    Sealed.state.instances.toList.map (fun i => (i.moduleType, i.fields.map Definition.type)) =
      [(⟨19⟩, [⟨5⟩, ⟨20⟩, ⟨18⟩]), (⟨0⟩, [])] := by
  decide +kernel

end Specializer
