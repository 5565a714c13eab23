import Specializer.Proofs.Toml.Documents
import Specializer.Settings.File

/-!
# Settings files are read back

The document of a settings file is plain, and its entries are understood as the file again. So
every format that keeps to its laws writes the file and reads it back, unless the limit has more
than 64 bits.
-/

set_option autoImplicit false

namespace Specializer

open Toml

theorem Topic.isScalar_name (topic : Topic) : (Toml.string topic.name).isScalar := by
  cases topic <;> decide

theorem Dump.isScalar_name (dump : Dump) : (Toml.string dump.name).isScalar := by
  cases dump <;> decide

theorem Topic.ofName?_name (topic : Topic) : Topic.ofName? topic.name = some topic := by
  cases topic <;> decide

theorem Dump.ofName?_name (dump : Dump) : Dump.ofName? dump.name = some dump := by
  cases dump <;> decide

namespace SettingsFile

theorem namesOf_nameArray {α : Type} {name : α → String} {ofName? : String → Option α}
    (h : ∀ x, ofName? (name x) = some x) (xs : List α) :
    namesOf ofName? (nameArray name xs) = some xs := by
  unfold namesOf nameArray
  simp only [items?, Option.bind_eq_bind, Option.bind_some]
  induction xs with
  | nil => rfl
  | cons x xs ih =>
    rw [List.map_cons, List.mapM_cons, ih]
    simp [name?, h]

theorem ofEntries_document (file : SettingsFile) :
    ofEntries file.document.entries = some file := by
  simp [ofEntries, document, Document.entries, lookup, readOr, namesOf_nameArray Topic.ofName?_name,
    namesOf_nameArray Dump.ofName?_name, Limits.ofToml, Limits.ofFields, natural?, boolean?]

theorem isPlain_document (file : SettingsFile) : file.document.isPlain := by
  have hTraces : (nameArray Topic.name file.traces).isPlain := by
    simp [nameArray, isPlain, Topic.isScalar_name]
  have hDumps : (nameArray Dump.name file.dumps).isPlain := by
    simp [nameArray, isPlain, Dump.isScalar_name]
  have hLimit (n : Int) : (Toml.integer n).isPlain := rfl
  have hFlag (b : Bool) : (Toml.boolean b).isPlain := rfl
  have hKeys : ["debug_trace", "dump", "mono", "max_instances", "verify_concrete"].all
      isBareWord := by
    decide
  simp only [List.all_cons, List.all_nil, Bool.and_true, Bool.and_eq_true] at hKeys
  simp [Document.isPlain, Document.entries, Document.blocks, document, hTraces, hDumps, hLimit,
    hFlag, hKeys]

theorem isInRange_document (file : SettingsFile) :
    file.document.isInRange = decide (file.limits.maxInstances ≤ maxInteger) := by
  have hNames {α : Type} (name : α → String) (xs : List α) : (nameArray name xs).isInRange := by
    simp [nameArray, isInRange, isScalarInRange]
  have hLimit (n : Nat) : (Toml.integer n).isInRange = decide (n ≤ maxInteger) := by
    refine decide_eq_decide.mpr ?_
    omega
  have hFlag (b : Bool) : (Toml.boolean b).isInRange := rfl
  simp [Document.isInRange, Document.blocks, document, hNames, hLimit, hFlag]

theorem parse_write {format : Format} {Denotes : String → Entries → Prop}
    (h : format.Conforms Denotes) (file : SettingsFile) :
    (file.limits.maxInstances ≤ 9223372036854775807 →
      ∃ text, file.write format = some text ∧ SettingsFile.parse format text = some file) ∧
    (9223372036854775807 < file.limits.maxInstances → file.write format = none) := by
  have hPlain := file.isPlain_document
  have hRange := file.isInRange_document
  constructor
  · intro hLimit
    obtain ⟨text, hWrite, hText⟩ := h.writes _ hPlain (hRange.trans (decide_eq_true hLimit))
    refine ⟨text, hWrite, ?_⟩
    simp [SettingsFile.parse, h.reads _ _ hText, ofEntries_document]
  · intro hLimit
    exact h.refuses _ hPlain (hRange.trans (decide_eq_false (Nat.not_le_of_lt hLimit)))

theorem parse_write_greatest :
    (∃ text, write .toml
        ⟨[.driver, .types, .driver], [.json, .table], ⟨9223372036854775807, false⟩⟩ = some text ∧
      SettingsFile.parse .toml text =
        some ⟨[.driver, .types, .driver], [.json, .table], ⟨9223372036854775807, false⟩⟩) ∧
    write .toml ⟨[], [], ⟨9223372036854775808, true⟩⟩ = none :=
  ⟨(parse_write Format.toml_conforms _).1 (by decide),
    (parse_write Format.toml_conforms _).2 (by decide)⟩

end SettingsFile

end Specializer
