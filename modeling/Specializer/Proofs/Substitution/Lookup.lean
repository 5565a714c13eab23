import Specializer.Substitution.Basic
import Mathlib.Data.List.Nodup

/-!
# Looking up replacements

What each operation on substitutions does to the replacement of a key. Later proofs speak of `get?`
only and never of the sorted list behind it.
-/

set_option autoImplicit false

namespace Specializer.Substitution

@[simp] theorem get?_empty (key : TypeId) : empty.get? key = none := rfl

theorem nodup_keys (s : Substitution) : (s.entries.map Prod.fst).Nodup := by
  refine List.pairwise_map.mpr (s.sorted.imp fun {a b} hLt hSame => ?_)
  rw [hSame] at hLt
  exact Nat.lt_irrefl _ hLt

/-- Each key has one entry, the one that is looked up. -/
theorem get?_eq_some_iff (s : Substitution) {key value : TypeId} :
    s.get? key = some value ↔ (key, value) ∈ s.entries := by
  constructor
  · intro h
    obtain ⟨⟨found, value⟩, hFind, rfl⟩ := Option.map_eq_some_iff.mp h
    obtain rfl : found = key := by simpa using List.find?_some hFind
    exact List.mem_of_find?_eq_some hFind
  · intro hMem
    have hSome : (s.entries.find? fun entry => decide (entry.1 = key)).isSome = true :=
      List.find?_isSome.mpr ⟨_, hMem, by simp⟩
    obtain ⟨⟨found, other⟩, hFind⟩ := Option.isSome_iff_exists.mp hSome
    obtain rfl : found = key := by simpa using List.find?_some hFind
    have hSame := List.inj_on_of_nodup_map s.nodup_keys (List.mem_of_find?_eq_some hFind) hMem rfl
    rw [get?, hFind, hSame, Option.map_some]

theorem get?_eq_none_iff (s : Substitution) {key : TypeId} :
    s.get? key = none ↔ key ∉ s.entries.map Prod.fst := by
  rw [get?, Option.map_eq_none_iff, List.find?_eq_none]
  simp only [decide_eq_true_eq, List.mem_map, not_exists, not_and]

theorem find?_insertEntry (key value : TypeId) {entries : List (TypeId × TypeId)}
    (hSorted : entries.Pairwise fun a b => a.1.index < b.1.index) (other : TypeId) :
    ((insertEntry key value entries).find? fun entry => decide (entry.1 = other)).map Prod.snd =
      if key = other then some value
      else (entries.find? fun entry => decide (entry.1 = other)).map Prod.snd := by
  induction entries with
  | nil => by_cases h : key = other <;> simp [insertEntry, h]
  | cons first rest ih =>
    obtain ⟨hLeast, hRest⟩ := List.pairwise_cons.mp hSorted
    unfold insertEntry
    split
    case isTrue =>
      by_cases h : key = other <;> simp [h]
    case isFalse =>
      split
      case isTrue hSame =>
        by_cases h : key = other
        · simp [h]
        · have hFirst : first.1 ≠ other := hSame ▸ h
          simp [h, hFirst]
      case isFalse hApart =>
        by_cases hFirst : first.1 = other
        · have hKey : key ≠ other := fun h => hApart (h.trans hFirst.symm)
          simp [hFirst, hKey]
        · rw [List.find?_cons_of_neg (by simpa using hFirst), ih hRest,
            List.find?_cons_of_neg (by simpa using hFirst)]

theorem get?_insert (s : Substitution) (key value other : TypeId) :
    (s.insert key value).get? other = if key = other then some value else s.get? other :=
  find?_insertEntry key value s.sorted other

theorem get?_foldl_insert (pairs : List (TypeId × TypeId)) (s : Substitution) (key : TypeId) :
    (pairs.foldl (fun acc pair => acc.insert pair.1 pair.2) s).get? key =
      ((pairs.reverse.find? fun pair => decide (pair.1 = key)).map Prod.snd).or (s.get? key) := by
  induction pairs generalizing s with
  | nil => simp
  | cons pair rest ih =>
    rw [List.foldl_cons, ih, get?_insert, List.reverse_cons, List.find?_append]
    cases rest.reverse.find? fun pair => decide (pair.1 = key) with
    | some found => simp
    | none => by_cases h : pair.1 = key <;> simp [h]

theorem get?_ofPairs (pairs : List (TypeId × TypeId)) (key : TypeId) :
    (ofPairs pairs).get? key =
      (pairs.reverse.find? fun pair => decide (pair.1 = key)).map Prod.snd := by
  rw [ofPairs, get?_foldl_insert, get?_empty, Option.or_none]

theorem mem_of_get?_ofPairs {pairs : List (TypeId × TypeId)} {key value : TypeId}
    (h : (ofPairs pairs).get? key = some value) : (key, value) ∈ pairs := by
  rw [get?_ofPairs] at h
  obtain ⟨⟨found, value⟩, hFind, rfl⟩ := Option.map_eq_some_iff.mp h
  have hKey : found = key := by simpa using List.find?_some hFind
  subst hKey
  exact List.mem_reverse.mp (List.mem_of_find?_eq_some hFind)

theorem isSome_get?_ofPairs_iff (pairs : List (TypeId × TypeId)) (key : TypeId) :
    ((ofPairs pairs).get? key).isSome = true ↔ key ∈ pairs.map Prod.fst := by
  rw [get?_ofPairs, Option.isSome_map, List.find?_isSome]
  simp

theorem get?_ofPairs_of_mem {pairs : List (TypeId × TypeId)}
    (hDistinct : (pairs.map Prod.fst).Nodup) {key value : TypeId} (hMem : (key, value) ∈ pairs) :
    (ofPairs pairs).get? key = some value := by
  have hSome := (isSome_get?_ofPairs_iff pairs key).mpr (List.mem_map_of_mem hMem)
  obtain ⟨found, hFound⟩ := Option.isSome_iff_exists.mp hSome
  have hSame := List.inj_on_of_nodup_map hDistinct (mem_of_get?_ofPairs hFound) hMem rfl
  cases hSame
  exact hFound

theorem find?_reverse_of_sorted {entries : List (TypeId × TypeId)}
    (hSorted : entries.Pairwise fun a b => a.1.index < b.1.index) (key : TypeId) :
    (entries.reverse.find? fun entry => decide (entry.1 = key)) =
      entries.find? fun entry => decide (entry.1 = key) := by
  induction entries with
  | nil => rfl
  | cons first rest ih =>
    obtain ⟨hLeast, hRest⟩ := List.pairwise_cons.mp hSorted
    rw [List.reverse_cons, List.find?_append, ih hRest]
    by_cases hFirst : first.1 = key
    · have hNone : rest.find? (fun entry => decide (entry.1 = key)) = none := by
        rw [List.find?_eq_none]
        intro entry hEntry hSame
        have hLt := hLeast entry hEntry
        rw [of_decide_eq_true hSame, hFirst] at hLt
        exact Nat.lt_irrefl _ hLt
      simp [hNone, hFirst]
    · simp [hFirst]

theorem get?_extend (s later : Substitution) (key : TypeId) :
    (s.extend later).get? key = (later.get? key).or (s.get? key) := by
  rw [extend, get?_foldl_insert, find?_reverse_of_sorted later.sorted]
  rfl

theorem get?_filterKeys (s : Substitution) (keep : TypeId → Bool) (key : TypeId) :
    (s.filterKeys keep).get? key = if keep key = true then s.get? key else none := by
  simp only [get?, filterKeys, List.find?_filter]
  by_cases h : keep key = true
  · rw [if_pos h]
    congr 2
    funext entry
    by_cases hEntry : entry.1 = key <;> simp [hEntry, h]
  · rw [if_neg h, Option.map_eq_none_iff, List.find?_eq_none]
    intro entry _ hEntry
    obtain ⟨hKeep, hKey⟩ : keep entry.1 = true ∧ entry.1 = key := by simpa using hEntry
    exact h (hKey ▸ hKeep)

theorem get?_only (s : Substitution) (keys : List TypeId) (key : TypeId) :
    (s.only keys).get? key = if key ∈ keys then s.get? key else none := by
  simp [only, get?_filterKeys]

theorem get?_without (s : Substitution) (keys : List TypeId) (key : TypeId) :
    (s.without keys).get? key = if key ∈ keys then none else s.get? key := by
  by_cases h : key ∈ keys <;> simp [without, get?_filterKeys, h]

end Specializer.Substitution
