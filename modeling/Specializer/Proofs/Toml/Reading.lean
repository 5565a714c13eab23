import Mathlib.Data.List.Forall2
import Specializer.Toml.Format

/-!
# Reading plain values back

What the readers make of plain values: strings without escapes, integers, truth values, and arrays
of these on one line. Every statement leaves open what follows in the text, so that the items of an
array and the lines of a document can be read one after another.
-/

set_option autoImplicit false

namespace Specializer.Toml

/-! ### First characters -/

/-- Characters that no reader skips and that close nothing. -/
def isSolid (c : Char) : Bool := !isBlank c && !(['\n', '\r', '#', ']'].contains c)

/-- Text whose first character is not skipped. -/
def Solid (text : List Char) : Prop := ∃ c tail, text = c :: tail ∧ isSolid c

theorem solid_cons {c : Char} (h : isSolid c) (tail : List Char) : Solid (c :: tail) :=
  ⟨c, tail, rfl, h⟩

namespace Solid

variable {text : List Char} (h : Solid text)

include h

theorem append_ne_cons {d : Char} (hd : isSolid d = false) (rest tail : List Char) :
    text ++ rest ≠ d :: tail := by
  obtain ⟨c, front, rfl, hFirst⟩ := h
  intro heq
  obtain ⟨rfl, -⟩ := List.cons.inj heq
  rw [hd] at hFirst
  cases hFirst

theorem skipBlanks_append (rest : List Char) : skipBlanks (text ++ rest) = text ++ rest := by
  obtain ⟨c, front, rfl, hFirst⟩ := h
  have hBlank : isBlank c = false := by
    simp only [isSolid, Bool.and_eq_true, Bool.not_eq_true'] at hFirst
    exact hFirst.1
  simp [skipBlanks, hBlank]

theorem skipTrivia_append (rest : List Char) : skipTrivia (text ++ rest) = text ++ rest := by
  obtain ⟨c, front, rfl, hFirst⟩ := h
  simp only [isSolid, Bool.and_eq_true, Bool.not_eq_true', List.contains_eq_mem,
    List.mem_cons, List.not_mem_nil, or_false, decide_eq_false_iff_not, not_or] at hFirst
  obtain ⟨hBlank, hNewline, hReturn, hHash, -⟩ := hFirst
  simp [skipTrivia, skipTriviaFrom, hReturn, hHash, hBlank]

end Solid

/-! ### What reads a text -/

/-- Characters behind a plain value. -/
def isEnd (c : Char) : Bool := [',', ']', '\n'].contains c

theorem ne_of_isEnd {c d : Char} (hc : isEnd c) (hd : isEnd d = false) : c ≠ d := by
  rintro rfl
  rw [hd] at hc
  cases hc

/-- Text that a reader takes for a value, whatever follows its end. -/
structure Reads (item : List Char → Option (Toml × List Char)) (text : List Char) (v : Toml) :
    Prop where
  solid : Solid text
  item_append : ∀ {c : Char}, isEnd c → ∀ rest, item (text ++ c :: rest) = some (v, c :: rest)

/-! ### Strings -/

theorem isPlainChar_iff {c : Char} : isPlainChar c ↔ isTextChar c ∧ c ≠ '"' ∧ c ≠ '\\' := by
  simp [isPlainChar, and_assoc]

theorem basicBody_plain {word : List Char} (h : ∀ c ∈ word, isPlainChar c) (rest : List Char) :
    basicBody (word ++ '"' :: rest) = some (word, rest) := by
  induction word with
  | nil => rfl
  | cons c word ih =>
    rw [List.forall_mem_cons] at h
    obtain ⟨hText, hQuote, hSlash⟩ := isPlainChar_iff.mp h.1
    simp [basicBody, hSlash, hText, ih h.2]

theorem unescapeWithin_plain {word : List Char} (h : ∀ c ∈ word, isPlainChar c) :
    unescapeWithin word.length word = some word := by
  induction word with
  | nil => rfl
  | cons c word ih =>
    rw [List.forall_mem_cons] at h
    have hSlash := (isPlainChar_iff.mp h.1).2.2
    simp [unescapeWithin, hSlash, ih h.2]

theorem quotedString_plain {word : List Char} (h : ∀ c ∈ word, isPlainChar c) {d : Char}
    (hd : d ≠ '"') (rest : List Char) :
    quotedString ('"' :: (word ++ '"' :: d :: rest)) = some (word, d :: rest) := by
  have hBasic : basic (word ++ '"' :: d :: rest) = some (word, d :: rest) := by
    simp [basic, basicBody_plain h, unescapeWithin_plain h]
  -- three quotes in a row would open a string of several lines
  cases word with
  | nil => simpa [quotedString, hd] using hBasic
  | cons c word =>
    have hQuote := (isPlainChar_iff.mp (h c List.mem_cons_self)).2.1
    simpa [quotedString, hQuote] using hBasic

theorem reads_string (bound depth : Nat) {word : String} (h : ∀ c ∈ word.toList, isPlainChar c) :
    Reads (value bound depth) ('"' :: (word.toList ++ ['"'])) (.string word) where
  solid := solid_cons (by decide) _
  item_append {c} hc rest := by
    have hString := quotedString_plain h (ne_of_isEnd hc (by decide)) rest
    have hText : '"' :: (word.toList ++ ['"']) ++ c :: rest =
        '"' :: (word.toList ++ '"' :: c :: rest) := by simp
    rw [hText, value]
    simp [stringValue, hString]

/-! ### Numbers and truth values -/

theorem numeral_of_digits {cs : List Char} (h : ∀ c ∈ cs, c.isDigit) :
    numeral 10 cs = Nat.ofDigitChars 10 cs 0 := by
  have hFilter : cs.filter (fun c => c ≠ '_') = cs := by
    rw [List.filter_eq_self]
    intro c hc
    have hDigit := h c hc
    exact decide_eq_true (by rintro rfl; cases hDigit)
  unfold numeral
  rw [hFilter, Nat.ofDigitChars_eq_foldl]
  refine List.foldl_ext _ _ 0 fun n c hc => ?_
  simp [digitValue, h c hc]

theorem isDigitRun_of_digits {cs : List Char} (hNil : cs ≠ []) (h : ∀ c ∈ cs, c.isDigit) :
    isDigitRun isDecimal cs := by
  fun_induction isDigitRun isDecimal cs with
  | case1 => exact absurd rfl hNil
  | case2 c => exact h c List.mem_cons_self
  | case3 c rest ih => cases h '_' (by simp)
  | case4 c rest hOne hMark ih =>
    rw [List.forall_mem_cons] at h
    simp [isDecimal, h.1, ih hOne h.2]

theorem head?_toDigits {n : Nat} (h : 0 < n) : (Nat.toDigits 10 n).head? ≠ some '0' := by
  induction n using Nat.strongRecOn with
  | ind n ih =>
    rw [Nat.toDigits_eq_if (by decide)]
    split
    · simp only [List.head?_cons, ne_eq, Option.some.injEq, Nat.digitChar_eq_zero]
      omega
    · rw [List.head?_append_of_ne_nil _ Nat.toDigits_ne_nil]
      exact ih (n / 10) (by omega) (by omega)

theorem toDigits_digits (n : Nat) : ∀ c ∈ Nat.toDigits 10 n, c.isDigit :=
  fun _ => Nat.isDigit_of_mem_toDigits (by decide) (by decide)

theorem isPlainDecimal_toDigits (n : Nat) : isPlainDecimal (Nat.toDigits 10 n) := by
  have hRun := isDigitRun_of_digits Nat.toDigits_ne_nil (toDigits_digits n)
  cases Nat.eq_zero_or_pos n with
  | inl hZero => subst hZero; decide
  | inr hPos => simp [isPlainDecimal, hRun, head?_toDigits hPos]

theorem numeral_toDigits (n : Nat) : numeral 10 (Nat.toDigits 10 n) = n :=
  (numeral_of_digits (toDigits_digits n)).trans Nat.ofDigitChars_ten_toDigits

def integerDigits : Int → List Char
  | .ofNat n => Nat.toDigits 10 n
  | .negSucc n => '-' :: Nat.toDigits 10 (n + 1)

theorem toList_toString (value : Int) : (toString value).toList = integerDigits value := by
  cases value with
  | ofNat n =>
    change n.repr.toList = _
    simp [integerDigits]
  | negSucc n =>
    change ("-" ++ (n + 1).repr).toList = _
    simp [integerDigits]

theorem mem_integerDigits {value : Int} {c : Char} (h : c ∈ integerDigits value) :
    c.isDigit ∨ c = '-' := by
  cases value with
  | ofNat n => exact .inl (toDigits_digits n c h)
  | negSucc n =>
    cases h with
    | head => exact .inr rfl
    | tail _ h => exact .inl (toDigits_digits _ c h)

theorem integerDigits_ne_nil (value : Int) : integerDigits value ≠ [] := by
  cases value with
  | ofNat n => exact Nat.toDigits_ne_nil
  | negSucc n => exact List.cons_ne_nil _ _

theorem decimal_integerDigits {value : Int} (hLow : -(maxInteger + 1) ≤ value)
    (hHigh : value ≤ maxInteger) : decimal (integerDigits value) = some value := by
  cases value with
  | ofNat n =>
    have hDigits := toDigits_digits n
    have hSign : splitSign (Nat.toDigits 10 n) = (false, Nat.toDigits 10 n) := by
      unfold splitSign
      split
      · next heq => cases hDigits '-' (heq ▸ List.mem_cons_self)
      · next heq => cases hDigits '+' (heq ▸ List.mem_cons_self)
      · rfl
    have hLe : n ≤ maxInteger := Int.ofNat_le.mp hHigh
    simp [decimal, integerDigits, hSign, isPlainDecimal_toDigits, numeral_toDigits, hLe]
  | negSucc n =>
    have hLe : n + 1 ≤ maxInteger + 1 := by omega
    simp only [decimal, integerDigits, splitSign, isPlainDecimal_toDigits, numeral_toDigits, hLe,
      if_true]
    rfl

theorem scalar?_integerDigits {value : Int} (hLow : -(maxInteger + 1) ≤ value)
    (hHigh : value ≤ maxInteger) : scalar? (integerDigits value) = some (.integer value) := by
  have hNot {c : Char} (hDigit : c.isDigit = false) (hSign : c ≠ '-') :
      c ∉ integerDigits value := by
    intro hc
    obtain h | h := mem_integerDigits hc
    · rw [hDigit] at h
      cases h
    · exact hSign h
  have hInteger : integer? (integerDigits value) = some value := by
    unfold integer?
    split
    · next heq => exact absurd (by simp [heq]) (hNot (c := 'x') (by decide) (by decide))
    · next heq => exact absurd (by simp [heq]) (hNot (c := 'o') (by decide) (by decide))
    · next heq => exact absurd (by simp [heq]) (hNot (c := 'b') (by decide) (by decide))
    · exact decimal_integerDigits hLow hHigh
  have hTrue : integerDigits value ≠ ['t', 'r', 'u', 'e'] := by
    intro heq
    exact hNot (c := 't') (by decide) (by decide) (by simp [heq])
  have hFalse : integerDigits value ≠ ['f', 'a', 'l', 's', 'e'] := by
    intro heq
    exact hNot (c := 'f') (by decide) (by decide) (by simp [heq])
  simp [scalar?, hTrue, hFalse, hInteger]

theorem scalar_word {word : List Char} {v : Toml} (hWord : ∀ c ∈ word, isWordChar c)
    (hValue : scalar? word = some v) {c : Char} (hc : isEnd c) (rest : List Char) :
    scalar (word ++ c :: rest) = some (v, c :: rest) := by
  have hEnd : isWordChar c = false := by
    simp only [isEnd, List.contains_eq_mem, List.mem_cons, List.not_mem_nil, or_false,
      decide_eq_true_eq] at hc
    rcases hc with rfl | rfl | rfl <;> decide
  have hBlank : c ≠ ' ' := ne_of_isEnd hc (by decide)
  simp [scalar, List.takeWhile_append_of_pos hWord, List.dropWhile_append_of_pos hWord, hEnd,
    hValue, hBlank]

theorem reads_word (bound depth : Nat) {word : List Char} {v : Toml} (hNil : word ≠ [])
    (hWord : ∀ c ∈ word, isWordChar c) (hValue : scalar? word = some v) :
    Reads (value bound depth) word v := by
  obtain ⟨c, tail, rfl⟩ := List.exists_cons_of_ne_nil hNil
  have hFirst := hWord c List.mem_cons_self
  -- none of the characters that open another value or are skipped is part of a word
  have hNe {d : Char} (hd : isWordChar d = false) : c ≠ d := by
    rintro rfl
    rw [hd] at hFirst
    cases hFirst
  refine ⟨solid_cons ?_ tail, fun {d} hd rest => ?_⟩
  · simp [isSolid, isBlank, hNe (d := ' ') (by decide), hNe (d := '\t') (by decide),
      hNe (d := '\n') (by decide), hNe (d := '\r') (by decide), hNe (d := '#') (by decide),
      hNe (d := ']') (by decide)]
  · rw [value]
    · exact scalar_word hWord hValue hd rest
    · simp [hNe (d := '"') (by decide)]
    · simp [hNe (d := '\'') (by decide)]
    · simp [hNe (d := '[') (by decide)]
    · simp [hNe (d := '\x7b') (by decide)]

theorem reads_scalar (bound depth : Nat) {v : Toml} (hScalar : v.isScalar)
    (hRange : v.isScalarInRange) : Reads (value bound depth) v.scalarText.toList v := by
  cases v with
  | string word =>
    have hText : (scalarText (.string word)).toList = '"' :: (word.toList ++ ['"']) := by
      simp [scalarText]
    rw [hText]
    exact reads_string bound depth (List.all_eq_true.mp hScalar)
  | integer n =>
    obtain ⟨hLow, hHigh⟩ := of_decide_eq_true hRange
    have hWord : ∀ c ∈ integerDigits n, isWordChar c := by
      intro c hc
      obtain hDigit | rfl := mem_integerDigits hc
      · simp [isWordChar, Char.isAlphanum, hDigit]
      · decide
    rw [scalarText, toList_toString]
    exact reads_word bound depth (integerDigits_ne_nil n) hWord (scalar?_integerDigits hLow hHigh)
  | boolean b =>
    cases b with
    | false => exact reads_word bound depth (by decide) (List.all_eq_true.mp (by decide)) rfl
    | true => exact reads_word bound depth (by decide) (List.all_eq_true.mp (by decide)) rfl
  | float => cases hScalar
  | moment => cases hScalar
  | array items => cases hScalar
  | table origin entries => cases hScalar
  | tables rows => cases hScalar

/-! ### Arrays -/

def listed (texts : List (List Char)) : List Char := [',', ' '].intercalate texts ++ [']']

theorem listed_singleton (text : List Char) : listed [text] = text ++ [']'] := by
  simp [listed]

theorem listed_cons_cons (text next : List Char) (texts : List (List Char)) :
    listed (text :: next :: texts) = text ++ ',' :: ' ' :: listed (next :: texts) := by
  simp [listed, List.intercalate_cons_cons]

theorem length_lt_listed (texts : List (List Char)) : texts.length < (listed texts).length + 1 := by
  induction texts with
  | nil => decide
  | cons text texts ih =>
    cases texts with
    | nil => simp [listed_singleton]
    | cons next texts =>
      rw [listed_cons_cons]
      simp only [List.length_cons, List.length_append] at ih ⊢
      omega

theorem itemsWithin_blank (item : List Char → Option (Toml × List Char)) (fuel : Nat)
    (cs : List Char) : itemsWithin item fuel (' ' :: cs) = itemsWithin item fuel cs := by
  have hSkip : skipTrivia (' ' :: cs) = skipTrivia cs := rfl
  cases fuel with
  | zero => rfl
  | succ fuel => rw [itemsWithin, itemsWithin, hSkip]

section Items

variable {item : List Char → Option (Toml × List Char)} {text : List Char} {v : Toml}
  (h : Reads item text v)

include h

theorem itemsWithin_last (fuel : Nat) (rest : List Char) :
    itemsWithin item (fuel + 1) (text ++ ']' :: rest) = some ([v], rest) := by
  have hSkip : skipTrivia (']' :: rest) = ']' :: rest := rfl
  rw [itemsWithin, h.solid.skipTrivia_append]
  split
  · next heq => exact absurd heq (h.solid.append_ne_cons (by decide) _ _)
  · simp [h.item_append (c := ']') (by decide), hSkip]

theorem itemsWithin_more {fuel : Nat} {rest after : List Char} {others : List Toml}
    (hOthers : itemsWithin item fuel rest = some (others, after)) :
    itemsWithin item (fuel + 1) (text ++ ',' :: rest) = some (v :: others, after) := by
  have hSkip : skipTrivia (',' :: rest) = ',' :: rest := rfl
  rw [itemsWithin, h.solid.skipTrivia_append]
  split
  · next heq => exact absurd heq (h.solid.append_ne_cons (by decide) _ _)
  · simp [h.item_append (c := ',') (by decide), hSkip, hOthers]

end Items

theorem itemsWithin_listed {item : List Char → Option (Toml × List Char)}
    {texts : List (List Char)} {values : List Toml} (h : List.Forall₂ (Reads item) texts values)
    {fuel : Nat} (hFuel : texts.length < fuel) (rest : List Char) :
    itemsWithin item fuel (listed texts ++ rest) = some (values, rest) := by
  induction h generalizing fuel with
  | nil =>
    obtain ⟨fuel, rfl⟩ := Nat.exists_eq_add_one_of_ne_zero (Nat.ne_zero_of_lt hFuel)
    rfl
  | cons hRead hOthers ih =>
    obtain ⟨fuel, rfl⟩ := Nat.exists_eq_add_one_of_ne_zero (Nat.ne_zero_of_lt hFuel)
    have hNext := ih (Nat.lt_of_succ_lt_succ hFuel)
    cases hOthers with
    | nil =>
      rw [listed_singleton, List.append_assoc, List.singleton_append, itemsWithin_last hRead]
    | cons =>
      -- the other items start with the blank behind the comma
      rw [← itemsWithin_blank] at hNext
      rw [listed_cons_cons, List.append_assoc, List.cons_append, List.cons_append,
        itemsWithin_more hRead hNext]

theorem reads_plain {bound : Nat} {v : Toml} (hPlain : v.isPlain) (hRange : v.isInRange)
    (hBound : v.text.toList.length ≤ bound) :
    Reads (value bound (maxNesting - 1)) v.text.toList v := by
  cases v with
  | array items =>
    have hText : (text (.array items)).toList =
        '[' :: listed (items.map fun item => item.scalarText.toList) := by
      simp [text, listed, String.toList_intercalate, Function.comp_def]
    have hItems : List.Forall₂ (Reads (value bound 78))
        (items.map fun item => item.scalarText.toList) items := by
      rw [List.forall₂_map_left_iff, List.forall₂_same]
      intro item hItem
      exact reads_scalar bound 78 (List.all_eq_true.mp hPlain item hItem)
        (List.all_eq_true.mp hRange item hItem)
    rw [hText] at hBound ⊢
    have hLength := length_lt_listed (items.map fun item => item.scalarText.toList)
    refine ⟨solid_cons (by decide) _, fun {c} _ rest => ?_⟩
    rw [List.cons_append, maxNesting, value,
      itemsWithin_listed hItems (Nat.lt_of_lt_of_le hLength hBound)]
    rfl
  | string word => exact reads_scalar bound _ hPlain hRange
  | integer n => exact reads_scalar bound _ hPlain hRange
  | boolean b => exact reads_scalar bound _ hPlain hRange
  | float => cases hPlain
  | moment => cases hPlain
  | table origin entries => cases hPlain
  | tables rows => cases hPlain

end Specializer.Toml
