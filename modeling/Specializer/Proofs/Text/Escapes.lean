import Mathlib.Algebra.Ring.Parity
import Mathlib.Data.List.DropRight
import Specializer.Index
import Specializer.Literal

/-!
# Escaped strings

The passes of `escapeSpecials` come to one pass over the string: no pass finds the character that it
is looking for in what earlier passes have written. So an escaped string is made of one piece for
each character, and a quote in it ends such a piece, behind the backslash that opened it. What comes
before a piece ends in an even number of backslashes.
-/

set_option autoImplicit false

namespace Specializer

namespace Text

/-- What stands for a character when those of a table are escaped. -/
def escapeBy (table : List (Char × Char)) (c : Char) : List Char :=
  match firstOf table c with
  | some letter => ['\\', letter]
  | none => [c]

theorem escapeBy_concat (table : List (Char × Char)) (special : Char × Char) (c : Char) :
    escapeBy (table ++ [special]) c =
      match firstOf table c with
      | some letter => ['\\', letter]
      | none => if special.1 = c then ['\\', special.2] else [c] := by
  unfold escapeBy firstOf
  rw [List.find?_append]
  cases table.find? fun entry => decide (entry.1 = c) with
  | some entry => rfl
  | none => by_cases h : special.1 = c <;> simp [h]

theorem mem_of_firstOf {table : List (Char × Char)} {c letter : Char}
    (h : firstOf table c = some letter) : (c, letter) ∈ table := by
  obtain ⟨⟨key, value⟩, hFind, rfl⟩ := Option.map_eq_some_iff.mp h
  obtain rfl : key = c := by simpa using List.find?_some hFind
  exact List.mem_of_find?_eq_some hFind

theorem replaceChar_eq_self {c : Char} {text cs : List Char} (h : c ∉ cs) :
    replaceChar c text cs = cs := by
  unfold replaceChar
  induction cs with
  | nil => rfl
  | cons d cs ih =>
    rw [List.mem_cons, not_or] at h
    rw [List.flatMap_cons, if_neg (Ne.symm h.1), ih h.2]
    rfl

/-- One pass for each entry of a table comes to one pass with the whole table, if no pass looks for
what an earlier one has written. -/
theorem foldl_replaceChar {table : List (Char × Char)}
    (hTable : table.Pairwise fun earlier later => later.1 ≠ '\\' ∧ later.1 ≠ earlier.2)
    (cs : List Char) :
    table.foldl (fun acc special => replaceChar special.1 ['\\', special.2] acc) cs =
      cs.flatMap (escapeBy table) := by
  -- The induction is on the passes made: the last one meets what the table before it has left.
  induction table using List.reverseRecOn with
  | nil => exact (List.flatMap_singleton' cs).symm
  | append_singleton table special ih =>
    obtain ⟨hBefore, -, hLast⟩ := List.pairwise_append.mp hTable
    rw [List.foldl_append, ih hBefore, List.foldl_cons, List.foldl_nil]
    conv_lhs => unfold replaceChar
    rw [List.flatMap_assoc]
    congr 1
    funext c
    change replaceChar special.1 ['\\', special.2] (escapeBy table c) = _
    rw [escapeBy_concat, escapeBy]
    cases hFound : firstOf table c with
    | some letter =>
      obtain ⟨hSlash, hLetter⟩ := hLast _ (mem_of_firstOf hFound) special List.mem_cons_self
      exact replaceChar_eq_self (by simp [hSlash, hLetter])
    | none => simp [replaceChar, eq_comm]

def escapeChar (c : Char) : List Char := escapeBy specials c

theorem escapeSpecials_eq (cs : List Char) : escapeSpecials cs = cs.flatMap escapeChar :=
  foldl_replaceChar (by decide) cs

theorem escapeChar_cases (c : Char) :
    (∃ letter, (c, letter) ∈ specials ∧ escapeChar c = ['\\', letter]) ∨
      (∀ letter, (c, letter) ∉ specials) ∧ escapeChar c = [c] := by
  unfold escapeChar escapeBy
  cases hFound : firstOf specials c with
  | some letter => exact .inl ⟨letter, mem_of_firstOf hFound, rfl⟩
  | none =>
    refine .inr ⟨?_, rfl⟩
    intro letter hMem
    have hNone := List.find?_eq_none.mp (Option.map_eq_none_iff.mp hFound) _ hMem
    simp at hNone

section Pieces

variable {c d : Char} {cs before after : List Char}

theorem not_mem_escapeSpecials (h : d ∈ ['\n', '\r', '\t', '\x00']) :
    d ∉ escapeSpecials cs := by
  have hWritten : ∀ special ∈ specials, ∀ d ∈ ['\n', '\r', '\t', '\x00'],
      d ∉ ['\\', special.2] := by simp [specials]
  have hTable : ∀ d ∈ ['\n', '\r', '\t', '\x00'], ∃ special ∈ specials, special.1 = d := by
    simp [specials]
  rw [escapeSpecials_eq, List.mem_flatMap]
  rintro ⟨c, -, hMem⟩
  rcases escapeChar_cases c with ⟨letter, hSpecial, hPiece⟩ | ⟨hPlain, hPiece⟩
  · rw [hPiece] at hMem
    exact hWritten _ hSpecial d h hMem
  · rw [hPiece, List.mem_singleton] at hMem
    obtain ⟨special, hSpecial, rfl⟩ := hTable d h
    exact hPlain special.2 (hMem ▸ hSpecial)

theorem escapeSpecials_cons (c : Char) (cs : List Char) :
    escapeSpecials (c :: cs) = escapeChar c ++ escapeSpecials cs := by
  simp [escapeSpecials_eq]

theorem escapeSpecials_concat (cs : List Char) (c : Char) :
    escapeSpecials (cs ++ [c]) = escapeSpecials cs ++ escapeChar c := by
  simp [escapeSpecials_eq]

/-- A quote in an escaped string stands for a quote of the string. -/
theorem exists_of_quote (h : escapeSpecials cs = before ++ '"' :: after) :
    ∃ front back, cs = front ++ '"' :: back ∧ before = escapeSpecials front ++ ['\\'] := by
  have hLetter : ∀ special ∈ specials, special.2 = '"' → special.1 = '"' := by decide
  induction cs generalizing before with
  | nil => simp [escapeSpecials_eq] at h
  | cons c cs ih =>
    rw [escapeSpecials_cons] at h
    rcases escapeChar_cases c with ⟨letter, hSpecial, hPiece⟩ | ⟨hPlain, hPiece⟩
    · rw [hPiece] at h
      match before with
      | [] => simp at h
      | [first] =>
        obtain ⟨rfl, rfl, -⟩ : '\\' = first ∧ letter = '"' ∧ _ := by simpa using h
        obtain rfl : c = '"' := hLetter _ hSpecial rfl
        exact ⟨[], cs, rfl, rfl⟩
      | first :: second :: before =>
        obtain ⟨rfl, rfl, hRest⟩ : '\\' = first ∧ letter = second ∧ _ := by simpa using h
        obtain ⟨front, back, rfl, rfl⟩ := ih hRest
        exact ⟨c :: front, back, rfl, by simp [escapeSpecials_cons, hPiece]⟩
    · rw [hPiece] at h
      match before with
      | [] =>
        obtain rfl : c = '"' := by simpa using congrArg List.head? h
        exact absurd (by decide) (hPlain '"')
      | first :: before =>
        obtain ⟨rfl, hRest⟩ : c = first ∧ _ := by simpa using h
        obtain ⟨front, back, rfl, rfl⟩ := ih hRest
        exact ⟨c :: front, back, rfl, by simp [escapeSpecials_cons, hPiece]⟩

def slashes (cs : List Char) : Nat := (cs.rtakeWhile (· == '\\')).length

theorem slashes_concat (cs : List Char) (c : Char) :
    slashes (cs ++ [c]) = if c = '\\' then slashes cs + 1 else 0 := by
  by_cases h : c = '\\' <;> simp [slashes, h]

theorem even_slashes (cs : List Char) : Even (slashes (escapeSpecials cs)) := by
  have hLetter : ∀ special ∈ specials, special.2 = '\\' → special.1 = '\\' := by decide
  induction cs using List.reverseRecOn with
  | nil => simp [escapeSpecials_eq, slashes]
  | append_singleton cs c ih =>
    rw [escapeSpecials_concat]
    rcases escapeChar_cases c with ⟨letter, -, hPiece⟩ | ⟨hPlain, hPiece⟩
    · rw [hPiece, List.append_cons, slashes_concat, slashes_concat]
      split
      · simpa [add_assoc] using ih.add even_two
      · exact Even.zero
    · have hNe : c ≠ '\\' := by
        rintro rfl
        exact hPlain '\\' (by decide)
      rw [hPiece, slashes_concat, if_neg hNe]
      exact Even.zero

theorem odd_slashes (h : escapeSpecials cs = before ++ '"' :: after) : Odd (slashes before) := by
  obtain ⟨front, back, -, rfl⟩ := exists_of_quote h
  rw [slashes_concat, if_pos rfl]
  exact (even_slashes front).add_one

theorem escapeChar_append_inj {xs ys : List Char} (h : escapeChar c ++ xs = escapeChar d ++ ys) :
    c = d ∧ xs = ys := by
  have hLetter : ∀ a ∈ specials, ∀ b ∈ specials, a.2 = b.2 → a.1 = b.1 := by decide
  have hSlash : ('\\', '\\') ∈ specials := by decide
  rcases escapeChar_cases c with ⟨letter, hc, hPiece⟩ | ⟨hc, hPiece⟩ <;>
    rcases escapeChar_cases d with ⟨letter', hd, hPiece'⟩ | ⟨hd, hPiece'⟩ <;>
      rw [hPiece, hPiece'] at h
  · obtain ⟨rfl, rfl⟩ : letter = letter' ∧ xs = ys := by simpa using h
    exact ⟨hLetter _ hc _ hd rfl, rfl⟩
  · obtain ⟨rfl, -⟩ : '\\' = d ∧ _ := by simpa using h
    exact absurd hSlash (hd _)
  · obtain ⟨rfl, -⟩ : c = '\\' ∧ _ := by simpa using h
    exact absurd hSlash (hc _)
  · simpa using h

theorem escapeSpecials_injective {xs ys : List Char} (h : escapeSpecials xs = escapeSpecials ys) :
    xs = ys := by
  have hPiece (c : Char) (cs : List Char) : escapeSpecials (c :: cs) ≠ [] := by
    rcases escapeChar_cases c with ⟨letter, -, hc⟩ | ⟨-, hc⟩ <;> simp [escapeSpecials_cons, hc]
  induction xs generalizing ys with
  | nil =>
    cases ys with
    | nil => rfl
    | cons d ys => exact absurd h.symm (hPiece d ys)
  | cons c xs ih =>
    cases ys with
    | nil => exact absurd h (hPiece c xs)
    | cons d ys =>
      rw [escapeSpecials_cons, escapeSpecials_cons] at h
      obtain ⟨rfl, hRest⟩ := escapeChar_append_inj h
      rw [ih hRest]

end Pieces

end Text

open Text

/-- A shown string has one piece for each character, nothing that would end its line or be taken for
its closing quote, and is shown for no other string. -/
theorem Literal.string_text_unambiguous (s : String) :
    escapeSpecials s.toList = s.toList.flatMap escapeChar ∧
    (string s).text.toList = '"' :: escapeSpecials s.toList ++ ['"'] ∧
    (∀ c ∈ ['\n', '\r', '\t', '\x00'], c ∉ (string s).text.toList) ∧
    (∀ before after, escapeSpecials s.toList = before ++ '"' :: after → Odd (slashes before)) ∧
    ∀ t, (string t).text = (string s).text ↔ t = s := by
  have hText (t : String) : (string t).text.toList = '"' :: escapeSpecials t.toList ++ ['"'] := by
    simp [text, quoted]
  refine ⟨escapeSpecials_eq _, hText s, ?_, fun _ _ => odd_slashes, fun t => ⟨fun h => ?_, ?_⟩⟩
  · intro c hc
    have hQuote : c ≠ '"' := by
      rintro rfl
      revert hc
      decide
    rw [hText]
    simp [hQuote, not_mem_escapeSpecials hc]
  · have hSame := congrArg String.toList h
    rw [hText, hText] at hSame
    exact String.toList_injective (escapeSpecials_injective (by simpa using hSame))
  · rintro rfl
    rfl

end Specializer
