import Mathlib.Data.List.Induction
import Mathlib.Order.Bounds.Basic
import Specializer.Proofs.Substitution.Laws

/-!
# Field tables

A composite gets the table of its fields when its handle is handed out, and the table is never
touched again. It depends on the names of the fields and their order alone, so a substitution, which
changes the types of fields only, leaves every lookup as it was. Of several fields with one name the
table keeps the last, since entries are made from left to right.
-/

set_option autoImplicit false

namespace Specializer

namespace Node

variable {fields entries : List Field} {name : SymbolId}

theorem find?_fieldTable_concat (fields : List Field) (field : Field) (name : SymbolId) :
    (fieldTable (fields ++ [field])).find? name =
      if field.name = some name then some fields.length else (fieldTable fields).find? name := by
  simp only [fieldTable, List.zipIdx_append, List.foldl_append, List.zipIdx_singleton,
    List.foldl_cons, List.foldl_nil]
  cases field.name with
  | some other => simp [Index.find?_insert]
  | none => simp

theorem isGreatest_of_find? {position : Nat} (h : (fieldTable fields).find? name = some position) :
    IsGreatest {k | (fields.map Field.name)[k]? = some (some name)} position := by
  -- from the end of the list, since the last field of a name decides
  induction fields using List.reverseRecOn with
  | nil => cases h
  | append_singleton fields field ih =>
    rw [find?_fieldTable_concat] at h
    split at h
    case isTrue hHere =>
      cases h
      constructor
      · simp [hHere]
      · intro k hk
        have hBound := (List.getElem?_eq_some_iff.mp hk).1
        simp only [List.length_map, List.length_append, List.length_singleton] at hBound
        omega
    case isFalse hNot =>
      obtain ⟨hMem, hUpper⟩ := ih h
      have hBound := (List.getElem?_eq_some_iff.mp hMem).1
      constructor
      · rw [Set.mem_ofPred_eq, List.map_append, List.getElem?_append_left hBound]
        exact hMem
      · intro k hk
        rw [Set.mem_ofPred_eq, List.map_append, List.getElem?_append] at hk
        split at hk
        · exact hUpper hk
        · simp [List.getElem?_singleton, hNot] at hk

theorem find?_fieldTable_eq_none_iff :
    (fieldTable fields).find? name = none ↔ some name ∉ fields.map Field.name := by
  induction fields using List.reverseRecOn with
  | nil => simp [fieldTable]
  | append_singleton fields field ih =>
    rw [find?_fieldTable_concat]
    by_cases h : field.name = some name
    · simp [h]
    · simp [h, Ne.symm h, ih]

theorem find?_fieldTable_eq_some_iff {position : Nat} :
    (fieldTable fields).find? name = some position ↔
      IsGreatest {k | (fields.map Field.name)[k]? = some (some name)} position := by
  constructor
  · exact isGreatest_of_find?
  · intro h
    cases hFound : (fieldTable fields).find? name with
    | none => exact absurd (List.mem_of_getElem? h.1) (find?_fieldTable_eq_none_iff.mp hFound)
    | some other => rw [(isGreatest_of_find? hFound).unique h]

theorem find?_fieldTable_congr (h : fields.map Field.name = entries.map Field.name) :
    (fieldTable fields).find? name = (fieldTable entries).find? name := by
  apply Option.ext
  intro position
  rw [find?_fieldTable_eq_some_iff, find?_fieldTable_eq_some_iff, h]

theorem fieldNameAt?_eq_some_iff {node : Node} (h : node.fields? = some fields) {k : Nat} :
    node.fieldNameAt? k = some name ↔ (fields.map Field.name)[k]? = some (some name) := by
  simp only [fieldNameAt?, h, List.getElem?_map]
  cases hGet : fields[k]? <;> simp [hGet]

theorem fieldNameAt?_of_fields?_eq_none {node : Node} (h : node.fields? = none) (k : Nat) :
    node.fieldNameAt? k = none := by
  simp [fieldNameAt?, h]

def compositeKinds : List String := ["Struct", "Union", "Enum", "Module"]

theorem kind_mem_compositeKinds {node : Node} :
    node.kind ∈ compositeKinds ↔ ∃ fields, node.fields? = some fields := by
  cases node with
  | composite shape fields => cases shape <;> simp [kind, Shape.keyword, compositeKinds, fields?]
  | number sort width => cases sort <;> simp [kind, compositeKinds, fields?]
  | indirect via target writable => cases via <;> simp [kind, compositeKinds, fields?]
  | var binder name => cases binder <;> simp [kind, compositeKinds, fields?]
  | _ => simp [kind, compositeKinds, fields?]

end Node

namespace TypeStore

variable {s t : TypeStore} {id image : TypeId} {node : Node} {fields : List Field}

theorem tables_of_read (hNode : s.read id = .ok node) : s.tables.find? id = node.fieldTable? := by
  rw [s.agrees, read_eq_ok_iff.mp hNode]
  rfl

theorem fieldIndex_of_fields (hNode : s.read id = .ok node) (hFields : node.fields? = some fields)
    (name : SymbolId) : s.fieldIndex id name = .ok (.ok ((Node.fieldTable fields).find? name)) := by
  simp only [fieldIndex, tables_of_read hNode, Node.fieldTable?, hFields, Option.map_some]
  rfl

theorem fieldIndex_of_no_fields (hNode : s.read id = .ok node) (hFields : node.fields? = none)
    (name : SymbolId) : s.fieldIndex id name = .ok (.error (.noFields id node name)) := by
  simp only [fieldIndex, tables_of_read hNode, Node.fieldTable?, hFields, Option.map_none, hNode]
  rfl

theorem fieldIndex_extend (hNode : s.read id = .ok node) (hExt : s.Extends t) (name : SymbolId) :
    t.fieldIndex id name = s.fieldIndex id name := by
  cases hFields : node.fields? with
  | some fields =>
    rw [fieldIndex_of_fields hNode hFields, fieldIndex_of_fields (hExt hNode) hFields]
  | none => rw [fieldIndex_of_no_fields hNode hFields, fieldIndex_of_no_fields (hExt hNode) hFields]

theorem Image.fieldIndex_eq {sub : Substitution} {mode : Strictness} (h : s.Image sub mode id image)
    (hNode : s.read id = .ok node) (hFields : node.fields? = some fields) (name : SymbolId) :
    s.fieldIndex image name = s.fieldIndex id name := by
  cases node with
  | composite shape listed =>
    cases hFields
    obtain ⟨entries, hImage, hEntries⟩ := h.of_composite hNode
    have hNames : fields.map Field.name = entries.map Field.name := by
      rw [← List.forall₂_eq_eq_eq, List.forall₂_map_left_iff, List.forall₂_map_right_iff]
      exact hEntries.imp fun _ _ h => h.1.symm
    rw [fieldIndex_of_fields hNode rfl, fieldIndex_of_fields hImage rfl,
      Node.find?_fieldTable_congr hNames]
  | _ => cases hFields

/-- What the answers to a lookup say of the fields of a type. -/
structure ExactAt (s : TypeStore) (id : TypeId) (node : Node) (name : SymbolId) : Prop where
  error_iff : ∀ cause, s.fieldIndex id name = .ok (.error cause) ↔
    node.kind ∉ Node.compositeKinds ∧ cause = .noFields id node name
  some_iff : ∀ i, s.fieldIndex id name = .ok (.ok (some i)) ↔
    IsGreatest {k | node.fieldNameAt? k = some name} i
  none_iff : s.fieldIndex id name = .ok (.ok none) ↔
    node.kind ∈ Node.compositeKinds ∧ ∀ k, node.fieldNameAt? k ≠ some name

theorem exactAt_of_read (hNode : s.read id = .ok node) (name : SymbolId) :
    s.ExactAt id node name := by
  cases hFields : node.fields? with
  | some fields =>
    have hKind := Node.kind_mem_compositeKinds.mpr ⟨fields, hFields⟩
    have hIndex := fieldIndex_of_fields hNode hFields name
    constructor
    · simp [hIndex, hKind]
    · intro i
      simp only [hIndex, Node.fieldNameAt?_eq_some_iff hFields]
      simpa using Node.find?_fieldTable_eq_some_iff
    · have hNone : (Node.fieldTable fields).find? name = none ↔ _ :=
        Node.find?_fieldTable_eq_none_iff
      rw [List.mem_iff_getElem?, not_exists] at hNone
      simpa [hIndex, hKind, Node.fieldNameAt?_eq_some_iff hFields] using hNone
  | none =>
    have hKind : node.kind ∉ Node.compositeKinds := by
      simp [Node.kind_mem_compositeKinds, hFields]
    have hIndex := fieldIndex_of_no_fields hNode hFields name
    constructor
    · simp [hIndex, hKind, eq_comm]
    · intro i
      simp [hIndex, Node.fieldNameAt?_of_fields?_eq_none hFields, IsGreatest]
    · simp [hIndex, hKind]

/-- Every lookup is exact, and rewriting a composite changes none. -/
theorem Built.fieldIndex_exact (hBuilt : s.Built) (hNode : s.read id = .ok node) :
    (∀ name, s.ExactAt id node name) ∧
    (node.kind ∈ Node.compositeKinds → ∀ sub : Substitution, ∃ image t,
      sub.apply id s = .ok image t ∧ ∀ name, t.fieldIndex image name = t.fieldIndex id name ∧
        t.fieldIndex id name = s.fieldIndex id name) := by
  refine ⟨exactAt_of_read hNode, fun hKind sub => ?_⟩
  obtain ⟨fields, hFields⟩ := Node.kind_mem_compositeKinds.mp hKind
  obtain ⟨image, t, hApply, hGrown, hImage, -⟩ :=
    hBuilt.grounded.exists_image sub ⟨node, hNode⟩
  have hExt := hGrown.extension
  refine ⟨image, t, hApply, fun name => ⟨?_, fieldIndex_extend hNode hExt name⟩⟩
  exact hImage.fieldIndex_eq (hExt hNode) hFields name

namespace Sample

def sameNames (first last : TypeId) : Node :=
  .composite .struct [⟨some ⟨1⟩, first, false⟩, ⟨none, last, false⟩, ⟨some ⟨1⟩, last, false⟩]

def namedCalls : List TypeCall :=
  [.add (.var .bound ⟨0⟩), .add (.indirect .pointer ⟨13⟩ true), .add (sameNames ⟨13⟩ ⟨14⟩),
    .add (.indirect .pointer ⟨5⟩ true), .add (sameNames ⟨5⟩ ⟨16⟩)]

def named : TypeStore := initial.after namedCalls

theorem built_named : named.Built := ⟨namedCalls, by decide +kernel, rfl⟩

end Sample

/-- Of two fields the last one is found, also where a rewriting ends at a type that was there. -/
theorem Sample.fieldIndex_exact_named : named.read ⟨15⟩ = .ok (sameNames ⟨13⟩ ⟨14⟩) ∧
    IsGreatest {k | (sameNames ⟨13⟩ ⟨14⟩).fieldNameAt? k = some ⟨1⟩} 2 ∧
    ∃ image t, (Substitution.ofPairs [(⟨13⟩, ⟨5⟩)]).apply ⟨15⟩ named = .ok image t ∧
      t.fieldIndex image ⟨1⟩ = .ok (.ok (some 2)) := by
  have hNode : named.read ⟨15⟩ = .ok (sameNames ⟨13⟩ ⟨14⟩) := by decide +kernel
  have hIndex : named.fieldIndex ⟨15⟩ ⟨1⟩ = .ok (.ok (some 2)) := by decide +kernel
  obtain ⟨hExact, hRewrite⟩ := built_named.fieldIndex_exact hNode
  obtain ⟨image, t, hApply, hSame⟩ := hRewrite (by decide) (.ofPairs [(⟨13⟩, ⟨5⟩)])
  refine ⟨hNode, ((hExact ⟨1⟩).some_iff 2).mp hIndex, image, t, hApply, ?_⟩
  rw [(hSame ⟨1⟩).1, (hSame ⟨1⟩).2, hIndex]

end TypeStore

end Specializer
