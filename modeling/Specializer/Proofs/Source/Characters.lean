import Specializer.Proofs.Source.Positions

/-!
# Positions between characters

A position between two characters cuts a text in two. Its line and its column are then counted in
characters: a newline is one byte, which is part of no other character, so what stands behind the
last newline is the same in bytes and in characters. The lines of a text are counted alike, and the
line of the position is made of what stands before and behind it up to the next newlines. Counted
so, the end of a text of 2^32 - 1 characters, one byte each, has no line or no column of 32 bits if
they are all newlines or none is.
-/

set_option autoImplicit false

namespace Specializer.Source

theorem bytes_eq (text : String) : bytes text = text.toList.flatMap String.utf8EncodeChar := by
  have hText : text.toByteArray = (text.toList.flatMap String.utf8EncodeChar).toByteArray := by
    rw [← List.utf8Encode.eq_1, ← String.toByteArray_ofList, String.ofList_toList]
  change text.toByteArray.data.toList = _
  rw [hText, List.toList_data_toByteArray]

theorem take_bytes (before after : String) :
    (bytes (before ++ after)).take before.utf8ByteSize = bytes before := by
  have hLength : before.utf8ByteSize = (bytes before).length := rfl
  rw [hLength, bytes_eq (before ++ after), String.toList_append, List.flatMap_append, ← bytes_eq,
    List.take_left]

theorem width_bytes (text : String) : width (bytes text) = text.length := by
  have hText : String.fromUTF8? ⟨(bytes text).toArray⟩ = some text := by
    change String.fromUTF8? text.toByteArray = _
    rw [String.fromUTF8?, dif_pos text.isValidUTF8]
    rfl
  rw [width, hText]

/-- A newline is a byte of its own. -/
theorem newline_mem_utf8EncodeChar {c : Char} : newline ∈ String.utf8EncodeChar c ↔ c = '\n' := by
  have hChar : c = '\n' ↔ c.val.toNat = 10 := by
    rw [Char.ext_iff, ← UInt32.toNat_inj]
    rfl
  have hByte (n : Nat) : newline = UInt8.ofNat n ↔ n % 256 = 10 := by
    rw [← UInt8.toNat_inj, UInt8.toNat_ofNat']
    exact eq_comm
  rw [String.utf8EncodeChar, hChar]
  split_ifs <;> simp only [List.mem_cons, List.not_mem_nil, or_false, hByte] <;> omega

section Newlines

variable (cs : List Char)

theorem count_newline : (cs.flatMap String.utf8EncodeChar).count newline = cs.count '\n' := by
  induction cs with
  | nil => rfl
  | cons c cs ih =>
    rw [List.flatMap_cons, List.count_append, ih, List.count_cons]
    by_cases h : c = '\n'
    · subst h
      simp [Nat.add_comm, show (String.utf8EncodeChar '\n').count newline = 1 by decide]
    · simp [h, List.count_eq_zero_of_not_mem (newline_mem_utf8EncodeChar.not.mpr h)]

def lastLine : List Char := cs.rtakeWhile (· != '\n')

theorem lastLine_append {cs more : List Char} (h : '\n' ∉ more) :
    lastLine (cs ++ more) = lastLine cs ++ more := by
  induction more using List.reverseRecOn with
  | nil => simp
  | append_singleton more c ih =>
    simp only [List.mem_append, List.mem_singleton, not_or] at h
    rw [← List.append_assoc, lastLine, List.rtakeWhile_concat_pos _ _ _ (by simp [Ne.symm h.2]),
      ← List.append_assoc, ← ih h.1, lastLine]

theorem rtakeWhile_newline : (cs.flatMap String.utf8EncodeChar).rtakeWhile (· != newline) =
    (lastLine cs).flatMap String.utf8EncodeChar := by
  induction cs using List.reverseRecOn with
  | nil => rfl
  | append_singleton cs c ih =>
    rw [List.flatMap_append]
    by_cases h : c = '\n'
    · have hNone : lastLine (cs ++ [c]) = [] := by simp [lastLine, h]
      rw [hNone]
      subst h
      exact List.rtakeWhile_concat_neg _ _ newline (by simp)
    · have hPlain : ∀ b ∈ (String.utf8EncodeChar c).reverse, (b != newline) = true := by
        intro b hb
        simp only [bne_iff_ne]
        rintro rfl
        exact h (newline_mem_utf8EncodeChar.mp (List.mem_reverse.mp hb))
      rw [lastLine_append (by simpa using Ne.symm h), List.flatMap_append, ← ih,
        List.flatMap_singleton, List.rtakeWhile, List.reverse_append,
        List.takeWhile_append_of_pos hPlain, List.reverse_append, List.reverse_reverse,
        List.rtakeWhile]

end Newlines

section Split

variable (before after : String)

theorem lineOf_append :
    lineOf (before ++ after) before.utf8ByteSize = before.toList.count '\n' + 1 := by
  rw [lineOf, take_bytes, bytes_eq, count_newline]

theorem columnOf_append :
    columnOf (before ++ after) before.utf8ByteSize = (lastLine before.toList).length + 1 := by
  have hBytes : (lastLine before.toList).flatMap String.utf8EncodeChar =
      bytes (String.ofList (lastLine before.toList)) := by simp [bytes_eq]
  rw [columnOf, take_bytes, bytes_eq, rtakeWhile_newline, hBytes, width_bytes, String.length_ofList]

end Split

/-- The end of a text with 2^32 - 1 lines, or with as many characters on its only line. -/
def Overflows (text : String) (position : Nat) : Prop :=
  text.utf8ByteSize = 4294967295 ∧ 4294967295 ≤ position ∧ text.length = text.utf8ByteSize ∧
    ((∀ c ∈ text.toList, c = '\n') ∨ '\n' ∉ text.toList)

theorem not_overflows {text : String} (h : text.utf8ByteSize < 4294967295) (position : Nat) :
    ¬Overflows text position :=
  fun hOver => h.ne hOver.1

section Overflow

variable {text : String} {position : Nat}

theorem take_end (h : text.utf8ByteSize ≤ position) : (bytes text).take position = bytes text :=
  List.take_of_length_le h

theorem lineOf_end (h : text.utf8ByteSize ≤ position) :
    lineOf text position = text.toList.count '\n' + 1 := by
  rw [lineOf, take_end h, bytes_eq, count_newline]

theorem columnOf_end (h : text.utf8ByteSize ≤ position) :
    columnOf text position = (lastLine text.toList).length + 1 := by
  have hEnd := columnOf_append text ""
  rw [String.append_empty, columnOf, take_end (Nat.le_refl _)] at hEnd
  rw [columnOf, take_end h, hEnd]

theorem length_lastLine_eq_iff {cs : List Char} :
    (lastLine cs).length = cs.length ↔ '\n' ∉ cs := by
  have hSuffix : lastLine cs <:+ cs := List.rtakeWhile_suffix _ _
  have hSelf : lastLine cs = cs ↔ ∀ c ∈ cs, (c != '\n') = true := List.rtakeWhile_eq_self_iff
  constructor
  · intro h hMem
    simpa using hSelf.mp (hSuffix.eq_of_length h) _ hMem
  · intro h
    rw [hSelf.mpr]
    intro c hc
    simp only [bne_iff_ne]
    rintro rfl
    exact h hc

theorem fits_iff (hSize : text.utf8ByteSize < wordLimit) :
    Fits text position ↔ ¬Overflows text position := by
  have hLength : text.toList.length ≤ text.utf8ByteSize := length_le_utf8ByteSize text
  have hLines : text.toList.count '\n' = text.toList.length ↔ ∀ c ∈ text.toList, c = '\n' := by
    rw [List.count_eq_length]
    exact forall₂_congr fun _ _ => eq_comm
  have hCount := List.count_le_length (a := '\n') (l := text.toList)
  have hLast : (lastLine text.toList).length ≤ text.toList.length :=
    (List.rtakeWhile_suffix _ _).length_le
  by_cases hEnd : text.utf8ByteSize = 4294967295 ∧ 4294967295 ≤ position
  · have hPast : text.utf8ByteSize ≤ position := hEnd.1 ▸ hEnd.2
    rw [Fits, Overflows, lineOf_end hPast, columnOf_end hPast, ← hLines, ← length_lastLine_eq_iff,
      ← String.length_toList]
    unfold wordLimit
    omega
  · constructor
    · intro _ hOver
      exact hEnd ⟨hOver.1, hOver.2.1⟩
    · intro _
      exact (fits_or_last hSize position).resolve_right hEnd

end Overflow

section Pieces

theorem pieces_eq_splitOn (cs : List Char) : pieces cs = cs.splitOn '\n' := by
  unfold List.splitOn
  induction cs with
  | nil => rfl
  | cons c cs ih =>
    rw [List.splitOnP_cons_eq_if_modifyHead, ← ih]
    by_cases h : c = '\n'
    · simp [pieces, h]
    · cases hRest : pieces cs with
      | nil => exact absurd (ih.symm.trans hRest) (List.splitOnP_ne_nil _ _)
      | cons first others => simp [pieces, h, hRest]

theorem length_pieces (cs : List Char) : (pieces cs).length = cs.count '\n' + 1 := by
  rw [pieces_eq_splitOn]
  unfold List.splitOn
  induction cs with
  | nil => rfl
  | cons c cs ih => by_cases h : c = '\n' <;> simp [List.splitOnP_cons_eq_if_modifyHead, h, ih]

def firstLine (cs : List Char) : List Char := cs.takeWhile (· != '\n')

theorem getElem?_zero_pieces (cs : List Char) : (pieces cs)[0]? = some (firstLine cs) := by
  rw [pieces_eq_splitOn, ← List.head?_eq_getElem?]
  unfold List.splitOn firstLine
  induction cs with
  | nil => rfl
  | cons c cs ih => by_cases h : c = '\n' <;> simp [List.splitOnP_cons_eq_if_modifyHead, h, ih]

theorem getElem?_pieces (before after : List Char) :
    (pieces (before ++ after))[before.count '\n']? = some (lastLine before ++ firstLine after) := by
  induction before using List.reverseRecOn generalizing after with
  | nil => simpa [lastLine] using getElem?_zero_pieces after
  | append_singleton before c ih =>
    rw [List.append_assoc, List.singleton_append, List.count_append, List.count_singleton]
    by_cases h : c = '\n'
    · have hSplit : pieces (before ++ c :: after) = pieces before ++ pieces after := by
        simp only [pieces_eq_splitOn]
        exact List.splitOn_append_cons_of_beq before after (by simp [h])
      have hLength := length_pieces before
      rw [hSplit, List.getElem?_append_right (by simp [h, hLength])]
      simpa [h, hLength, lastLine] using getElem?_zero_pieces after
    · have hHere := ih (c :: after)
      have hFirst : firstLine (c :: after) = c :: firstLine after := by simp [firstLine, h]
      rw [lastLine_append (by simpa using Ne.symm h), List.append_assoc, List.singleton_append]
      simpa [h, hFirst] using hHere

/-- The line at a position, without the newline at its end and a carriage return before that. -/
def shownLine (before after : List Char) : List Char :=
  if '\n' ∈ after then dropReturn (lastLine before ++ firstLine after) else lastLine before ++ after

theorem getElem?_lines {before after : String}
    (hLine : before.toList.count '\n' < (lines (before ++ after)).length) :
    (lines (before ++ after))[before.toList.count '\n']? =
      some (shownLine before.toList after.toList) := by
  have hPiece := getElem?_pieces before.toList after.toList
  have hLength := length_pieces (before.toList ++ after.toList)
  rw [List.count_append] at hLength
  unfold shownLine
  unfold lines at hLine ⊢
  rw [String.toList_append] at hLine ⊢
  generalize pieces (before.toList ++ after.toList) = all at hPiece hLength hLine ⊢
  dsimp only at hLine ⊢
  by_cases h : '\n' ∈ after.toList
  · have hMore := List.count_pos_iff.mpr h
    rw [if_pos h, List.getElem?_append_left (by simp; omega), List.getElem?_map,
      List.getElem?_dropLast, if_pos (by omega), hPiece, Option.map_some]
  · have hNone := List.count_eq_zero_of_not_mem h
    have hFirst : firstLine after.toList = after.toList := by
      rw [firstLine, List.takeWhile_eq_self_iff]
      intro c hc
      simp only [bne_iff_ne]
      rintro rfl
      exact h hc
    -- the position is in the last piece, which is a line only if it is not empty
    have hLast : all.getLast?.getD [] = lastLine before.toList ++ after.toList := by
      have hIndex : all.length - 1 = before.toList.count '\n' := by omega
      rw [List.getLast?_eq_getElem?, hIndex, hPiece, hFirst, Option.getD_some]
    rw [hLast] at hLine ⊢
    rw [if_neg h, List.getElem?_append_right (by simp; omega)]
    split at hLine
    · simp at hLine
      omega
    case isFalse hSome => simp [hSome, hLength, hNone]

end Pieces

end Specializer.Source
