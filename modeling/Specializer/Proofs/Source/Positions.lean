import Mathlib.Data.List.DropRight
import Specializer.Proofs.Outcome
import Specializer.Source.File

/-!
# Lines and columns

The table of line starts splits at every position: the lines that start at or before it are those of
the text up to there, and all others start behind it. The search for the line of a position keeps
the place of this split inside its range, so it only reads entries that are there and ends at the
last line before the split. What stands between the start of that line and the position has no
newline in it, and its characters give the column. In a text of fewer than 2^32 bytes all of this
has 32 bits, but for one number: the line or the column at the end of a text of 2^32 - 1 bytes.
-/

set_option autoImplicit false

namespace Specializer

namespace Source

theorem startsOf_concat (all : List UInt8) (b : UInt8) :
    startsOf (all ++ [b]) = startsOf all ++ if b = newline then [all.length + 1] else [] := by
  by_cases h : b = newline <;> simp [startsOf, List.zipIdx_append, h]

theorem length_startsOf (all : List UInt8) : (startsOf all).length = all.count newline + 1 := by
  induction all using List.reverseRecOn with
  | nil => rfl
  | append_singleton all b ih =>
    rw [startsOf_concat, List.length_append, ih, List.count_append, List.count_singleton]
    by_cases h : b = newline <;> simp [h]

theorem mem_startsOf_iff {all : List UInt8} {start : Nat} :
    start ∈ startsOf all ↔ start = 0 ∨ ∃ i, all[i]? = some newline ∧ start = i + 1 := by
  simp only [startsOf, List.mem_cons, List.mem_filterMap]
  apply or_congr_right
  constructor
  · rintro ⟨⟨b, i⟩, hMem, hStart⟩
    split at hStart
    case isTrue hNewline =>
      cases hStart
      cases hNewline
      exact ⟨i, List.mem_zipIdx_iff_getElem?.mp hMem, rfl⟩
    case isFalse => cases hStart
  · rintro ⟨i, hGet, rfl⟩
    exact ⟨(newline, i), List.mem_zipIdx_iff_getElem?.mpr hGet, if_pos rfl⟩

theorem le_length_of_mem_startsOf {all : List UInt8} {start : Nat} (h : start ∈ startsOf all) :
    start ≤ all.length := by
  obtain rfl | ⟨i, hGet, rfl⟩ := mem_startsOf_iff.mp h
  · exact Nat.zero_le _
  · exact (List.getElem?_eq_some_iff.mp hGet).1

theorem startsOf_append (before after : List UInt8) :
    ∃ late, startsOf (before ++ after) = startsOf before ++ late ∧
      ∀ start ∈ late, before.length < start := by
  induction after using List.reverseRecOn with
  | nil => exact ⟨[], by simp, by simp⟩
  | append_singleton after b ih =>
    obtain ⟨late, hStarts, hLate⟩ := ih
    refine ⟨late ++ if b = newline then [(before ++ after).length + 1] else [], ?_, ?_⟩
    · rw [← List.append_assoc, startsOf_concat, hStarts, List.append_assoc]
    · intro start hStart
      rcases List.mem_append.mp hStart with hOld | hNew
      · exact hLate start hOld
      · split at hNew
        · rw [List.mem_singleton.mp hNew, List.length_append]
          omega
        · cases hNew

theorem getElem?_startsOf_count (all : List UInt8) :
    (startsOf all)[all.count newline]? = some (all.rdropWhile (· != newline)).length := by
  induction all using List.reverseRecOn with
  | nil => rfl
  | append_singleton all b ih =>
    have hLength := length_startsOf all
    rw [startsOf_concat, List.count_append, List.count_singleton]
    by_cases h : b = newline
    · rw [List.rdropWhile_concat_neg _ _ _ (by simp [h])]
      simp [h, hLength]
    · rw [List.rdropWhile_concat_pos _ _ _ (by simp [h])]
      simp [h, ih]

/-- A table of line starts in two parts, up to a position and behind it. -/
structure SplitsAt (position : Nat) (early late : List Nat) : Prop where
  early_le : ∀ start ∈ early, start ≤ position
  lt_late : ∀ start ∈ late, position < start

theorem startsOf_splits (all : List UInt8) (position : Nat) :
    ∃ late, startsOf all = startsOf (all.take position) ++ late ∧
      SplitsAt position (startsOf (all.take position)) late := by
  obtain ⟨late, hSplit, hLate⟩ := startsOf_append (all.take position) (all.drop position)
  rw [List.take_append_drop] at hSplit
  rw [List.length_take] at hLate
  refine ⟨late, hSplit, ?_, ?_⟩
  · intro start hStart
    exact (le_length_of_mem_startsOf hStart).trans (List.length_take_le _ _)
  · intro start hStart
    -- Behind the end of the text there is no position left that a line could start at.
    have hBound : start ≤ all.length := by
      apply le_length_of_mem_startsOf
      rw [hSplit]
      exact List.mem_append_right _ hStart
    have hBehind := hLate start hStart
    omega

theorem entry_toArray {α : Type} {items : List α} {index : Nat} {item : α}
    (h : items[index]? = some item) : entry items.toArray index = .ok item := by
  simp [entry, h]

section Search

variable {early late : List Nat} {position low high : Nat}

theorem SplitsAt.le_iff (h : SplitsAt position early late) {index start : Nat}
    (hGet : (early ++ late)[index]? = some start) : start ≤ position ↔ index < early.length := by
  rw [List.getElem?_append] at hGet
  split at hGet
  case isTrue hSide => simp [hSide, h.early_le start (List.mem_of_getElem? hGet)]
  case isFalse hSide => simp [hSide, h.lt_late start (List.mem_of_getElem? hGet)]

theorem SplitsAt.searchLine_eq (h : SplitsAt position early late) (hLow : low < early.length)
    (hHigh : early.length ≤ high) (hEnd : high ≤ (early ++ late).length) :
    searchLine (early ++ late).toArray position low high = .ok (early.length - 1) := by
  -- The invariant is that the split lies behind `low` and not behind `high`.
  induction low, high using searchLine.induct with
  | case1 low high hWide ihUpper ihLower =>
    have hMiddle : (low + high) / 2 < (early ++ late).length := by omega
    obtain ⟨start, hStart⟩ : ∃ start, (early ++ late)[(low + high) / 2]? = some start :=
      ⟨_, List.getElem?_eq_getElem hMiddle⟩
    rw [searchLine, dif_pos hWide, entry_toArray hStart, Read.ok_bind]
    have hSide := h.le_iff hStart
    by_cases hBefore : start ≤ position
    · rw [if_pos hBefore]
      exact ihUpper (hSide.mp hBefore) hHigh hEnd
    · rw [if_neg hBefore]
      exact ihLower hLow (not_lt.mp (hSide.not.mp hBefore)) hMiddle.le
  | case2 low high hNarrow =>
    rw [searchLine, dif_neg hNarrow]
    have hLast : early.length - 1 = low := by omega
    rw [hLast]
    rfl

end Search

section Line

variable (all : List UInt8) (position : Nat)

theorem searchLine_startsOf :
    searchLine (startsOf all).toArray position 0 (startsOf all).toArray.size =
      .ok ((all.take position).count newline) := by
  obtain ⟨late, hTable, hSplit⟩ := startsOf_splits all position
  have hLength := length_startsOf (all.take position)
  have hLine : (all.take position).count newline = (startsOf (all.take position)).length - 1 := by
    omega
  rw [List.size_toArray, hTable, hLine]
  exact hSplit.searchLine_eq (by omega) (by simp) le_rfl

theorem getElem?_startsOf_line :
    (startsOf all)[(all.take position).count newline]? =
      some ((all.take position).rdropWhile (· != newline)).length := by
  obtain ⟨late, hTable, -⟩ := startsOf_splits all position
  have hLength := length_startsOf (all.take position)
  rw [hTable, List.getElem?_append_left (by omega)]
  exact getElem?_startsOf_count _

theorem cut_line :
    cut all (min ((all.take position).rdropWhile (· != newline)).length (min position all.length))
      (min position all.length) = .ok ((all.take position).rtakeWhile (· != newline)) := by
  have hParts := congrArg (List.drop ((all.take position).rdropWhile (· != newline)).length)
    (List.rdropWhile_append_rtakeWhile (p := (· != newline)) (l := all.take position))
  have hPrefix : (all.take position).rdropWhile (· != newline) <+: all.take position :=
    List.rdropWhile_prefix _ _
  have hStart := hPrefix.length_le
  rw [List.drop_left] at hParts
  rw [List.length_take] at hStart
  rw [Nat.min_eq_left hStart, cut, if_neg (not_lt.mpr hStart),
    if_neg (not_lt.mpr (Nat.min_le_right _ _)), ← List.take_eq_take_min, ← hParts]

end Line

/-- One more than the number of newlines before a position. -/
def lineOf (text : String) (position : Nat) : Nat :=
  ((bytes text).take position).count newline + 1

/-- One more than the number of characters between the last newline before a position and that
position, or than the number of bytes there if they are not the bytes of a text. -/
def columnOf (text : String) (position : Nat) : Nat :=
  width (((bytes text).take position).rtakeWhile (· != newline)) + 1

theorem length_le_utf8ByteSize (text : String) : text.length ≤ text.utf8ByteSize := by
  induction text using String.push_induction with
  | empty => exact Nat.le_refl 0
  | push text c ih =>
    rw [String.length_push, String.utf8ByteSize_push]
    have hSize := c.utf8Size_pos
    omega

theorem width_le_length (slice : List UInt8) : width slice ≤ slice.length := by
  unfold width
  split
  case h_1 text hText =>
    unfold String.fromUTF8? at hText
    split at hText
    · cases hText
      exact length_le_utf8ByteSize _
    · cases hText
  case h_2 => exact Nat.le_refl _

theorem count_add_length_rtakeWhile_le (all : List UInt8) :
    all.count newline + (all.rtakeWhile (· != newline)).length ≤ all.length := by
  induction all using List.reverseRecOn with
  | nil => exact Nat.le_refl 0
  | append_singleton all b ih =>
    rw [List.count_append, List.count_singleton, List.length_append, List.length_singleton]
    by_cases h : b = newline
    · rw [List.rtakeWhile_concat_neg _ _ _ (by simp [h])]
      have hCount := List.count_le_length (a := newline) (l := all)
      simp [h, hCount]
    · rw [List.rtakeWhile_concat_pos _ _ _ (by simp [h]), List.length_append,
        List.length_singleton, if_neg (by simp [h])]
      omega

theorem lineOf_add_columnOf_le (text : String) (position : Nat) :
    lineOf text position + columnOf text position ≤ min position text.utf8ByteSize + 2 := by
  have hWidth := width_le_length (((bytes text).take position).rtakeWhile (· != newline))
  have hCount := count_add_length_rtakeWhile_le ((bytes text).take position)
  have hLength : ((bytes text).take position).length = min position text.utf8ByteSize :=
    List.length_take
  unfold lineOf columnOf
  omega

theorem lineTable_eq {all : List UInt8} (h : all.length < wordLimit) :
    lineTable all = (startsOf all).toArray := by
  have hSmall : ∀ start ∈ startsOf all, start % wordLimit = start := by
    intro start hStart
    have hStart := le_length_of_mem_startsOf hStart
    apply Nat.mod_eq_of_lt
    omega
  rw [lineTable, List.map_congr_left hSmall, List.map_id']

theorem following_pair {line column : Nat} (hLine : line < wordLimit)
    (hColumn : column < wordLimit) :
    (do return (← following line, ← following column) : Read (Nat × Nat)) =
      if line + 1 < wordLimit ∧ column + 1 < wordLimit then .ok (line + 1, column + 1)
      else .error .overflow := by
  unfold following
  rw [Nat.mod_eq_of_lt hLine, Nat.mod_eq_of_lt hColumn]
  by_cases hLine : line + 1 < wordLimit
  · by_cases hColumn : column + 1 < wordLimit
    · simp only [hLine, hColumn, and_self, if_true]
      rfl
    · simp only [hLine, hColumn, and_false, if_true, if_false]
      rfl
  · simp only [hLine, false_and, if_false]
    rfl

/-- The line and the column of a position have 32 bits. -/
def Fits (text : String) (position : Nat) : Prop :=
  lineOf text position < wordLimit ∧ columnOf text position < wordLimit

instance (text : String) (position : Nat) : Decidable (Fits text position) :=
  inferInstanceAs (Decidable (_ ∧ _))

theorem fits_or_last {text : String} (h : text.utf8ByteSize < wordLimit) (position : Nat) :
    Fits text position ∨ text.utf8ByteSize = 4294967295 ∧ 4294967295 ≤ position := by
  have hSum := lineOf_add_columnOf_le text position
  have hLine : 0 < lineOf text position := Nat.succ_pos _
  have hColumn : 0 < columnOf text position := Nat.succ_pos _
  unfold Fits
  unfold wordLimit at h ⊢
  omega

end Source

open Source

theorem SourceFile.locate_eq (f : SourceFile) (hSize : f.text.utf8ByteSize < wordLimit)
    (position : Nat) :
    f.locate position =
      if Fits f.text position then .ok (lineOf f.text position, columnOf f.text position)
      else .error .overflow := by
  have hSum := lineOf_add_columnOf_le f.text position
  have hTable : f.lineStarts = (startsOf (bytes f.text)).toArray :=
    f.starts_eq.trans (lineTable_eq hSize)
  rw [locate, hTable, searchLine_startsOf, Read.ok_bind, entry_toArray (getElem?_startsOf_line _ _),
    Read.ok_bind]
  dsimp only
  rw [cut_line, Read.ok_bind]
  unfold lineOf columnOf at hSum
  exact following_pair (by omega) (by omega)

-- The position is inside the second character of the line, so its column counts bytes.
example : (SourceFile.ofText "unit" "a\nbé").locate 4 = .ok (2, 3) := by decide +kernel

end Specializer
