import Mathlib.Data.List.Induction
import Mathlib.Data.List.Nodup

/-!
# First occurrences

A list without its repetitions, each member at the place where it comes first. What is appended to a
list is looked at from left to right, so all laws follow from what happens to one more member. One
of them is about a list whose members stand for lists: repetitions among the members, and inside the
lists they stand for, may be dropped before or after these are strung together. The first member
with a property is the same with and without repetitions.
-/

set_option autoImplicit false

namespace Specializer

variable {α β : Type} [BEq α] [LawfulBEq α] {items others : List α} {item : α}

theorem eraseDups_concat_of_mem (h : item ∈ items) :
    (items ++ [item]).eraseDups = items.eraseDups := by
  simp [List.eraseDups_append, List.removeAll, h]

theorem eraseDups_concat_of_not_mem (h : item ∉ items) :
    (items ++ [item]).eraseDups = items.eraseDups ++ [item] := by
  simp [List.eraseDups_append, List.removeAll, h, List.eraseDups_cons]

theorem nodup_eraseDups (items : List α) : items.eraseDups.Nodup := by
  induction items using List.reverseRecOn with
  | nil => exact .nil
  | append_singleton items item ih =>
    by_cases h : item ∈ items
    · rwa [eraseDups_concat_of_mem h]
    · rw [eraseDups_concat_of_not_mem h, ← List.concat_eq_append]
      exact ih.concat fun hMem => h (List.mem_eraseDups.mp hMem)

theorem eraseDups_append_of_subset (h : others ⊆ items) :
    (items ++ others).eraseDups = items.eraseDups := by
  have hNone : others.removeAll items = [] := by
    refine List.filter_eq_nil_iff.mpr fun other hOther => ?_
    simpa using h hOther
  rw [List.eraseDups_append, hNone, List.eraseDups_nil, List.append_nil]

theorem eraseDups_concat_congr (h : items.eraseDups = others.eraseDups) (item : α) :
    (items ++ [item]).eraseDups = (others ++ [item]).eraseDups := by
  have hSame : item ∈ items ↔ item ∈ others := by
    rw [← List.mem_eraseDups, h, List.mem_eraseDups]
  by_cases hMem : item ∈ items
  · rw [eraseDups_concat_of_mem hMem, eraseDups_concat_of_mem (hSame.mp hMem), h]
  · rw [eraseDups_concat_of_not_mem hMem, eraseDups_concat_of_not_mem (hSame.not.mp hMem), h]

theorem eraseDups_append_congr (h : items.eraseDups = others.eraseDups) (more : List α) :
    (items ++ more).eraseDups = (others ++ more).eraseDups := by
  induction more using List.reverseRecOn with
  | nil => simpa using h
  | append_singleton more item ih =>
    rw [← List.append_assoc, ← List.append_assoc]
    exact eraseDups_concat_congr ih item

theorem eraseDups_append_eraseDups (items more : List α) :
    (items ++ more.eraseDups).eraseDups = (items ++ more).eraseDups := by
  induction more using List.reverseRecOn with
  | nil => rfl
  | append_singleton more item ih =>
    by_cases h : item ∈ more
    · rw [eraseDups_concat_of_mem h, ih, ← List.append_assoc,
        eraseDups_concat_of_mem (List.mem_append_right items h)]
    · rw [eraseDups_concat_of_not_mem h, ← List.append_assoc, ← List.append_assoc]
      exact eraseDups_concat_congr ih item

theorem find?_eraseDups (found : α → Bool) (items : List α) :
    items.eraseDups.find? found = items.find? found := by
  induction items using List.reverseRecOn with
  | nil => rfl
  | append_singleton items item ih =>
    by_cases h : item ∈ items
    · rw [eraseDups_concat_of_mem h, ih, List.find?_append]
      cases hFind : items.find? found with
      | some first => rfl
      | none =>
        have hNot := List.find?_eq_none.mp hFind item h
        rw [List.find?_cons_of_neg hNot, List.find?_nil, Option.none_or]
    · rw [eraseDups_concat_of_not_mem h, List.find?_append, ih, List.find?_append]

theorem eraseDups_flatMap [BEq β] [LawfulBEq β] (items : List β) (stands : β → List α) :
    (items.flatMap stands).eraseDups =
      (items.eraseDups.flatMap fun item => (stands item).eraseDups).eraseDups := by
  induction items using List.reverseRecOn with
  | nil => rfl
  | append_singleton items item ih =>
    rw [List.flatMap_append, List.flatMap_singleton]
    by_cases h : item ∈ items
    · have hSubset : stands item ⊆ items.flatMap stands :=
        fun a ha => List.mem_flatMap.mpr ⟨item, h, ha⟩
      rw [eraseDups_append_of_subset hSubset, eraseDups_concat_of_mem h, ih]
    · rw [eraseDups_concat_of_not_mem h, List.flatMap_append, List.flatMap_singleton,
        eraseDups_append_eraseDups]
      exact eraseDups_append_congr ih (stands item)

section IsFirst

variable {items : List α} {item : α} {found : α → Bool} {P : α → Prop}

omit [BEq α] [LawfulBEq α]

/-- `item` has the property, and no member of the list before it has. -/
def IsFirst (P : α → Prop) (items : List α) (item : α) : Prop :=
  ∃ before after, items = before ++ item :: after ∧ (∀ earlier ∈ before, ¬P earlier) ∧ P item

theorem find?_eq_some_iff_isFirst (h : ∀ a, found a = true ↔ P a) :
    items.find? found = some item ↔ IsFirst P items item := by
  rw [List.find?_eq_some_iff_append, IsFirst, h]
  simp only [Bool.not_eq_true', ← Bool.not_eq_true, h]
  constructor
  · rintro ⟨hItem, before, after, hSplit, hBefore⟩
    exact ⟨before, after, hSplit, hBefore, hItem⟩
  · rintro ⟨before, after, hSplit, hBefore, hItem⟩
    exact ⟨hItem, before, after, hSplit, hBefore⟩

theorem find?_eq_none_iff_forall (h : ∀ a, found a = true ↔ P a) :
    items.find? found = none ↔ ∀ a ∈ items, ¬P a := by
  simp only [List.find?_eq_none, h]

end IsFirst

end Specializer
