import Specializer.Proofs.Source.Characters
import Specializer.Proofs.Source.Excerpts

/-!
# Underlined spans

The carets below a line start at the character that a span starts at. A span inside of one line has
a caret for each of its characters, and one that is empty has a single caret. A span that goes on
behind its first line has as many as the line has bytes beyond the column, which starts at one: one
caret too few if all characters of the line are single bytes.
-/

set_option autoImplicit false

namespace Specializer

namespace Source

/-- A span between characters cuts a text into three. -/
structure Cuts (text : String) (start stop : Nat) (before inside after : String) : Prop where
  text_eq : text = before ++ (inside ++ after)
  start_eq : start = before.utf8ByteSize
  stop_eq : stop = (before ++ inside).utf8ByteSize

theorem exists_cuts {text : String} {start stop : Nat}
    (hStart : String.Pos.Raw.IsValid text ⟨start⟩) (hStop : String.Pos.Raw.IsValid text ⟨stop⟩)
    (hLe : start ≤ stop) : ∃ before inside after, Cuts text start stop before inside after := by
  obtain ⟨before, rest, hFirst⟩ : ∃ before rest, (text.pos ⟨start⟩ hStart).Splits before rest :=
    ⟨_, _, (text.pos ⟨start⟩ hStart).splits⟩
  obtain ⟨reached, after, hSecond⟩ : ∃ reached after,
      (text.pos ⟨stop⟩ hStop).Splits reached after :=
    ⟨_, _, (text.pos ⟨stop⟩ hStop).splits⟩
  obtain ⟨inside, rfl, rfl⟩ := (hFirst.le_iff_exists_eq_append hSecond).mp hLe
  have hStartAt : ⟨start⟩ = before.rawEndPos := hFirst.offset_eq_rawEndPos
  have hStopAt : ⟨stop⟩ = (before ++ inside).rawEndPos := hSecond.offset_eq_rawEndPos
  exact ⟨before, inside, after, hFirst.eq_append, congrArg String.Pos.Raw.byteIdx hStartAt,
    congrArg String.Pos.Raw.byteIdx hStopAt⟩

theorem eq_of_append_eq {before before' after after' : String}
    (hText : before ++ after = before' ++ after')
    (hSize : before.utf8ByteSize = before'.utf8ByteSize) : before = before' := by
  have hBytes := take_bytes before after
  rw [hText, hSize, take_bytes before' after'] at hBytes
  exact String.toByteArray_inj.mp (ByteArray.ext (Array.toList_inj.mp hBytes.symm))

theorem Cuts.unique {text : String} {start stop : Nat}
    {before inside after before' inside' after' : String}
    (h : Cuts text start stop before inside after)
    (h' : Cuts text start stop before' inside' after') :
    before = before' ∧ inside = inside' ∧ after = after' := by
  have hBefore : before = before' :=
    eq_of_append_eq (h.text_eq.symm.trans h'.text_eq) (h.start_eq.symm.trans h'.start_eq)
  subst hBefore
  have hRest := (String.append_right_inj _).mp (h.text_eq.symm.trans h'.text_eq)
  have hSize := h.stop_eq.symm.trans h'.stop_eq
  rw [String.utf8ByteSize_append, String.utf8ByteSize_append] at hSize
  obtain rfl := eq_of_append_eq hRest (by omega)
  exact ⟨rfl, rfl, (String.append_right_inj _).mp hRest⟩

/-- The characters of a span on its first line, without the terminator of that line. -/
def onFirstLine (inside after : List Char) : List Char :=
  (shownLine [] (inside ++ after)).take inside.length

/-- A span that ends between a carriage return and the newline that belongs to it. -/
def Severs (inside after : List Char) : Prop :=
  inside.getLast? = some '\r' ∧ after.head? = some '\n'

instance (inside after : List Char) : Decidable (Severs inside after) :=
  inferInstanceAs (Decidable (_ ∧ _))

theorem length_dropReturn (cs : List Char) :
    (dropReturn cs).length = if cs.getLast? = some '\r' then cs.length - 1 else cs.length := by
  unfold dropReturn
  split <;> simp

theorem length_shownLine_sub (before after : List Char) :
    (shownLine before after).length - (lastLine before).length = (shownLine [] after).length := by
  have hNil : lastLine [] = [] := rfl
  unfold shownLine
  split
  · rw [hNil, List.nil_append, length_dropReturn, length_dropReturn]
    cases hEnd : (firstLine after).getLast? with
    | none =>
      -- The position is behind the whole line, and a carriage return before it is cut off.
      rw [List.getLast?_eq_none_iff] at hEnd
      rw [hEnd, List.append_nil]
      split <;> simp
    | some c =>
      have hPos : 0 < (firstLine after).length := by
        apply List.length_pos_iff.mpr
        rintro hNone
        simp [hNone] at hEnd
      rw [List.getLast?_append, hEnd, Option.some_or, List.length_append]
      split <;> omega
  · simp [hNil]

section Counts

variable {inside after : List Char}

theorem firstLine_append (h : '\n' ∉ inside) :
    firstLine (inside ++ after) = inside ++ firstLine after := by
  apply List.takeWhile_append_of_pos
  intro c hc
  simp only [bne_iff_ne]
  rintro rfl
  exact h hc

theorem firstLine_append_of_mem (h : '\n' ∈ inside) :
    firstLine (inside ++ after) = firstLine inside := by
  induction inside with
  | nil => cases h
  | cons c inside ih =>
    by_cases hc : c = '\n'
    · simp [firstLine, hc]
    · have hRest : '\n' ∈ inside := by simpa [Ne.symm hc] using h
      simpa [firstLine, hc] using ih hRest

theorem length_onFirstLine (h : '\n' ∉ inside) :
    (onFirstLine inside after).length =
      if Severs inside after then inside.length - 1 else inside.length := by
  have hNil : lastLine [] = [] := rfl
  rw [onFirstLine, List.length_take, shownLine, hNil, List.nil_append, List.nil_append,
    firstLine_append h]
  cases after with
  | nil => simp [h, Severs]
  | cons c after =>
    by_cases hc : c = '\n'
    · have hFirst : firstLine (c :: after) = [] := by simp [firstLine, hc]
      rw [if_pos (by simp [hc]), hFirst, List.append_nil, length_dropReturn]
      by_cases hEnd : inside.getLast? = some '\r' <;> simp [Severs, hEnd, hc]
    · have hLength := length_dropReturn (inside ++ firstLine (c :: after))
      have hFirst : firstLine (c :: after) = c :: firstLine after := by simp [firstLine, hc]
      have hNot : ¬Severs inside (c :: after) := by simp [Severs, hc]
      rw [if_neg hNot]
      rw [hFirst, List.length_append, List.length_cons] at hLength
      rw [hFirst]
      apply Nat.min_eq_left
      split
      · rw [hLength]
        split <;> omega
      · simp

theorem length_onFirstLine_of_mem (h : '\n' ∈ inside) :
    (onFirstLine inside after).length = (shownLine [] (inside ++ after)).length := by
  have hNil : lastLine [] = [] := rfl
  have hLe : (firstLine inside).length ≤ inside.length :=
    (List.takeWhile_prefix _).length_le
  rw [onFirstLine, List.length_take]
  apply Nat.min_eq_right
  rw [shownLine, if_pos (List.mem_append_left _ h), hNil, List.nil_append,
    firstLine_append_of_mem h, length_dropReturn]
  split <;> omega

end Counts

end Source

namespace Diagnostic

open Source Text

def above (d : Diagnostic) (path : String) (line column : Nat) (shown : List Char) : String :=
  d.header false ++ "  --> " ++ path ++ ":" ++ toString line ++ ":" ++ toString column ++
    "\n   |  \n" ++ padRight 3 (toString line) ++ "|  " ++ String.ofList shown ++ "\n"

def caretLine (column carets : Nat) : String :=
  "   |  " ++ String.ofList (List.replicate (column - 1) ' ' ++ List.replicate carets '^') ++ "\n"

def below (d : Diagnostic) : String :=
  String.join (d.notes.map fun note => "  note: " ++ note ++ "\n") ++ "\n"

theorem render_eq {d : Diagnostic} {sources : SourceMap} {f : SourceFile} {shown : List Char}
    (hFile : sources.get? d.span.file = some f) (hSize : f.text.utf8ByteSize < 4294967295)
    (hShown : (lines f.text)[lineOf f.text d.span.start - 1]? = some shown) :
    d.render false sources = .ok
      (d.above f.path (lineOf f.text d.span.start) (columnOf f.text d.span.start) shown ++
        caretLine (columnOf f.text d.span.start)
          (underlineLength (lineOf f.text d.span.start) (columnOf f.text d.span.start)
            (lineOf f.text d.span.stop) (columnOf f.text d.span.stop)
            (String.ofList shown).utf8ByteSize) ++
        d.below) := by
  have hBody : d.body false sources = d.excerpt false f := by simp [body, hFile]
  have hPipe : pipe false = "|  " := by decide
  have hWord : f.text.utf8ByteSize < wordLimit := Nat.lt_trans hSize (by decide)
  rw [render, hBody, excerpt, SourceFile.locate_eq_ok hWord (not_overflows hSize _),
    SourceFile.locate_eq_ok hWord (not_overflows hSize _)]
  simp only [Read.ok_bind, hShown]
  apply congrArg Except.ok
  apply String.toList_injective
  simp [above, caretLine, below, underline, arrow, hPipe, bold, Style.paint]

/-- The number of carets below a span of a shown line. -/
structure Covers (before inside after shown : List Char) (carets : Nat) : Prop where
  within : '\n' ∉ inside → ¬Severs inside after → carets = max (onFirstLine inside after).length 1
  severed : '\n' ∉ inside → Severs inside after → carets = (onFirstLine inside after).length + 1
  across : '\n' ∈ inside →
    (onFirstLine inside after).length = shown.length - (lastLine before).length ∧
      carets = max ((String.ofList shown).utf8ByteSize - ((lastLine before).length + 1)) 1

theorem covers_underlineLength (before inside after : List Char) :
    Covers before inside after (shownLine before (inside ++ after))
      (underlineLength (before.count '\n' + 1) ((lastLine before).length + 1)
        ((before ++ inside).count '\n' + 1) ((lastLine (before ++ inside)).length + 1)
        (String.ofList (shownLine before (inside ++ after))).utf8ByteSize) := by
  have hCount : (before ++ inside).count '\n' = before.count '\n' + inside.count '\n' :=
    List.count_append
  by_cases h : '\n' ∈ inside
  · -- the ends are on different lines, and the length of the shown line counts
    have hMore := List.count_pos_iff.mpr h
    refine ⟨fun hNot => absurd h hNot, fun hNot => absurd h hNot, fun _ => ⟨?_, ?_⟩⟩
    · rw [length_onFirstLine_of_mem h, length_shownLine_sub]
    · rw [underlineLength, if_neg (by omega)]
  · have hNone := List.count_eq_zero_of_not_mem h
    have hLength : (onFirstLine inside after).length = _ := length_onFirstLine h
    have hCarets : underlineLength (before.count '\n' + 1) ((lastLine before).length + 1)
        ((before ++ inside).count '\n' + 1) ((lastLine (before ++ inside)).length + 1)
        (String.ofList (shownLine before (inside ++ after))).utf8ByteSize =
        max inside.length 1 := by
      rw [underlineLength, if_pos (by omega), lastLine_append h, List.length_append]
      congr 1
      omega
    rw [hCarets]
    refine ⟨fun _ hNot => ?_, fun _ hSevers => ?_, fun hMem => absurd hMem h⟩
    · rw [hLength, if_neg hNot]
    · have hPos : 0 < inside.length := by
        apply List.length_pos_iff.mpr
        rintro rfl
        cases hSevers.1
      rw [hLength, if_pos hSevers]
      omega

/-- The line of a span is shown with carets from the column of its start. -/
theorem render_underlines {d : Diagnostic} {sources : SourceMap} {f : SourceFile}
    (hFile : sources.get? d.span.file = some f) (hSize : f.text.utf8ByteSize < 4294967295)
    (hStart : String.Pos.Raw.IsValid f.text ⟨d.span.start⟩)
    (hStop : String.Pos.Raw.IsValid f.text ⟨d.span.stop⟩) (hLe : d.span.start ≤ d.span.stop)
    (hLine : lineOf f.text d.span.start ≤ (lines f.text).length) :
    ∃ before inside after shown carets,
      Cuts f.text d.span.start d.span.stop before inside after ∧
      (lines f.text)[before.toList.count '\n']? = some shown ∧
      d.render false sources = .ok
        (d.above f.path (before.toList.count '\n' + 1) ((lastLine before.toList).length + 1)
            shown ++
          caretLine ((lastLine before.toList).length + 1) carets ++ d.below) ∧
      Covers before.toList inside.toList after.toList shown carets := by
  obtain ⟨before, inside, after, hCuts⟩ := exists_cuts hStart hStop hLe
  have hAssoc : f.text = before ++ inside ++ after := by rw [hCuts.text_eq, String.append_assoc]
  have hLineOf : lineOf f.text d.span.start = before.toList.count '\n' + 1 := by
    rw [hCuts.text_eq, hCuts.start_eq, lineOf_append]
  have hColumnOf : columnOf f.text d.span.start = (lastLine before.toList).length + 1 := by
    rw [hCuts.text_eq, hCuts.start_eq, columnOf_append]
  have hStopLine : lineOf f.text d.span.stop = (before.toList ++ inside.toList).count '\n' + 1 := by
    rw [hAssoc, hCuts.stop_eq, lineOf_append, String.toList_append]
  have hStopColumn : columnOf f.text d.span.stop =
      (lastLine (before.toList ++ inside.toList)).length + 1 := by
    rw [hAssoc, hCuts.stop_eq, columnOf_append, String.toList_append]
  have hShown : (lines f.text)[before.toList.count '\n']? =
      some (shownLine before.toList (inside.toList ++ after.toList)) := by
    rw [hLineOf, hCuts.text_eq] at hLine
    rw [hCuts.text_eq, getElem?_lines (by omega), String.toList_append]
  refine ⟨before, inside, after, _, _, hCuts, hShown, ?_, covers_underlineLength _ _ _⟩
  rw [← Nat.add_sub_cancel (before.toList.count '\n') 1, ← hLineOf] at hShown
  rw [render_eq hFile hSize hShown, hLineOf, hColumnOf, hStopLine, hStopColumn]

namespace Sample

def sources (text : String) : SourceMap := (SourceMap.empty.add "unit" text).2

def mismatch (start stop : Nat) : Diagnostic :=
  .plain .error "M0001" "mismatch" ⟨⟨0⟩, start, stop⟩

end Sample

theorem Sample.render_underlines_accented :
    Cuts "aéß\r\nbc\n" 1 5 "a" "éß" "\r\nbc\n" ∧
    ∃ shown, (mismatch 1 5).render false (sources "aéß\r\nbc\n") = .ok
      ((mismatch 1 5).above "<unit>" 1 2 shown ++ caretLine 2 2 ++ (mismatch 1 5).below) := by
  have hFile : (sources "aéß\r\nbc\n").get? (mismatch 1 5).span.file =
      some (.ofText "<unit>" "aéß\r\nbc\n") := rfl
  have hParts : Cuts "aéß\r\nbc\n" 1 5 "a" "éß" "\r\nbc\n" := by constructor <;> decide +kernel
  obtain ⟨before, inside, after, shown, carets, hCuts, -, hRender, hCovers⟩ :=
    render_underlines hFile (by decide +kernel) (by decide +kernel) (by decide +kernel) (by decide)
      (by decide +kernel)
  obtain ⟨rfl, rfl, rfl⟩ := hParts.unique hCuts
  have hCarets : carets = 2 := (hCovers.within (by decide) (by decide)).trans (by decide +kernel)
  rw [hCarets] at hRender
  exact ⟨hParts, shown, hRender⟩

/-- Three characters of the first line have two carets only. -/
theorem Sample.carets_short :
    (sources "abc\ndef\n").get? (mismatch 0 5).span.file = some (.ofText "<unit>" "abc\ndef\n") ∧
    Cuts "abc\ndef\n" 0 5 "" "abc\nd" "ef\n" ∧ lineOf "abc\ndef\n" 0 ≤ (lines "abc\ndef\n").length ∧
    onFirstLine "abc\nd".toList "ef\n".toList = ['a', 'b', 'c'] ∧
    (mismatch 0 5).render false (sources "abc\ndef\n") = .ok
      ((mismatch 0 5).above "<unit>" 1 1 ['a', 'b', 'c'] ++ caretLine 1 2 ++
        (mismatch 0 5).below) := by
  refine ⟨rfl, ⟨?_, ?_, ?_⟩, ?_, ?_, ?_⟩ <;> decide +kernel

end Diagnostic

end Specializer
