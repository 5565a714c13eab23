import Specializer.Proofs.Mangle.Segments

/-!
# Literals in names

Literals of one kind have different manglings, and none of them holds an underscore. Of literals of
different kinds only integers share one: a number does not say how wide it is. All other kinds can
be told from the first character and the length of the text.
-/

set_option autoImplicit false

namespace Specializer

namespace Text

open Mangle

theorem toList_hex (width n : Nat) : (hex width n).toList =
    List.replicate (width - (Nat.toDigits 16 n).length) '0' ++ Nat.toDigits 16 n := by
  rw [hex, String.toList_ofList]

theorem hex_inj {width m n : Nat} (h : hex width m = hex width n) : m = n := by
  have hZeros (k : Nat) :
      (List.replicate k '0').foldl (fun acc c => 16 * acc + digitValue c) 0 = 0 := by
    induction k with
    | zero => rfl
    | succ k ih => exact ih
  have hRead (n : Nat) : readDigits 16 (hex width n).toList = n := by
    rw [toList_hex, readDigits, List.foldl_append, hZeros]
    exact readDigits_toDigits (by decide) (by decide) n
  rw [← hRead m, h, hRead]

theorem length_hex {width n : Nat} (hWidth : 0 < width) (h : n < Decimal.power 16 width) :
    (hex width n).toList.length = width := by
  have hLe : (Nat.toDigits 16 n).length ≤ width :=
    (Nat.length_toDigits_le_iff (by decide) hWidth).mpr h
  rw [toList_hex, List.length_append, List.length_replicate]
  omega

theorem length_hex_byte (byte : UInt8) : (hex 2 byte.toNat).toList.length = 2 :=
  length_hex (by decide) byte.toNat_lt

theorem hexBytes_inj {a b : List UInt8}
    (h : a.flatMap (fun byte => (hex 2 byte.toNat).toList) =
      b.flatMap fun byte => (hex 2 byte.toNat).toList) : a = b := by
  induction a generalizing b with
  | nil =>
    cases b with
    | nil => rfl
    | cons byte b =>
      have hLength := congrArg List.length h
      simp only [List.flatMap_nil, List.flatMap_cons, List.length_nil, List.length_append,
        length_hex_byte] at hLength
      omega
  | cons byte a ih =>
    cases b with
    | nil =>
      have hLength := congrArg List.length h
      simp only [List.flatMap_nil, List.flatMap_cons, List.length_nil, List.length_append,
        length_hex_byte] at hLength
      omega
    | cons other b =>
      simp only [List.flatMap_cons] at h
      obtain ⟨hByte, hRest⟩ := List.append_inj h (by rw [length_hex_byte, length_hex_byte])
      rw [UInt8.toNat_inj.mp (hex_inj (String.toList_inj.mp hByte)), ih hRest]

end Text

theorem Width.rank_lt (width : Width) : width.rank < 4 := by
  cases width <;> decide

theorem Width.rank_inj {a b : Width} (h : a.rank = b.rank) : a = b := by
  cases a <;> cases b <;> first | rfl | cases h

theorem Literal.rank_floating (precision : Precision) (bits : Nat) :
    8 ≤ (Literal.floating precision bits).rank ∧ (Literal.floating precision bits).rank ≤ 9 := by
  cases precision <;> simp [rank]

def Width.bits : Width → Nat
  | .w8 => 8
  | .w16 => 16
  | .w32 => 32
  | .w64 => 64

def Decimal.Format.bits (f : Decimal.Format) : Nat := f.fraction + f.exponent + 1

namespace Literal

/-- The payload is one that a literal of its kind can have. -/
def Representable : Literal → Prop
  | .signed width value => -(Decimal.power 2 (width.bits - 1) : Int) ≤ value ∧
      value < (Decimal.power 2 (width.bits - 1) : Int)
  | .unsigned width value => value < Decimal.power 2 width.bits
  | .floating precision bits => bits < Decimal.power 2 precision.format.bits
  | .character byte => byte < 256
  | _ => True

instance : (a : Literal) → Decidable a.Representable
  | .signed _ _ => inferInstanceAs (Decidable (_ ∧ _))
  | .unsigned _ _ => inferInstanceAs (Decidable (_ < _))
  | .floating _ _ => inferInstanceAs (Decidable (_ < _))
  | .boolean _ => inferInstanceAs (Decidable True)
  | .character _ => inferInstanceAs (Decidable (_ < _))
  | .string _ => inferInstanceAs (Decidable True)
  | .unit => inferInstanceAs (Decidable True)

/-- The number that an integer stands for, whatever its width. -/
def integer? : Literal → Option Int
  | .signed _ value => some value
  | .unsigned _ value => some value
  | _ => none

inductive Family where
  | integer | single | double | boolean | character | string | unit
  deriving DecidableEq

def family : Literal → Family
  | .signed _ _ => .integer
  | .unsigned _ _ => .integer
  | .floating .single _ => .single
  | .floating .double _ => .double
  | .boolean _ => .boolean
  | .character _ => .character
  | .string _ => .string
  | .unit => .unit

theorem exists_integer_of_family {a : Literal} (h : a.family = .integer) :
    ∃ value, a.integer? = some value := by
  cases a with
  | signed width value => exact ⟨value, rfl⟩
  | unsigned width value => exact ⟨value, rfl⟩
  | floating precision bits => cases precision <;> cases h
  | _ => cases h

theorem rank_eq_of_family {a b : Literal} (h : a.family = b.family) (hNot : a.family ≠ .integer) :
    a.rank = b.rank := by
  cases a <;> cases b <;> simp_all [family, rank] <;> grind

end Literal

namespace Mangle

theorem underscore_not_mem_hex (width n : Nat) : '_' ∉ (Text.hex width n).toList := by
  rw [Text.toList_hex, List.mem_append, not_or]
  exact ⟨by simp, underscore_not_mem_toDigits (by decide) n⟩

theorem segment_literal (value : Literal) : Segment (literal value).toList := by
  apply Segment.of_not_mem
  unfold literal
  split
  case h_1 value =>
    split
    · simp
    · exact underscore_not_mem_toString value.natAbs
  case h_2 value => exact underscore_not_mem_toString value
  case h_3 bits => simpa using underscore_not_mem_hex 8 bits
  case h_4 bits => simpa using underscore_not_mem_hex 16 bits
  case h_5 value => cases value <;> decide
  case h_6 byte => simp
  case h_7 value =>
    simpa [String.toList_join] using
      fun (byte : UInt8) _ => underscore_not_mem_hex 2 byte.toNat
  case h_8 => decide

theorem toString_ne_append (m : Nat) {word rest : String} {c : Char}
    (hHead : word.toList.head? = some c) (hDigit : c.isDigit = false) :
    toString m ≠ word ++ rest := by
  intro h
  have hMem : c ∈ (toString m).toList := by
    rw [h, String.toList_append]
    exact List.mem_append_left _ (List.mem_of_mem_head? hHead)
  rw [toList_toString] at hMem
  rw [Nat.isDigit_of_mem_toDigits (by decide) (by decide) hMem] at hDigit
  cases hDigit

def integerText (value : Int) : String :=
  if value < 0 then "n" ++ toString value.natAbs else toString value.natAbs

theorem integerText_inj {m n : Int} (h : integerText m = integerText n) : m = n := by
  unfold integerText at h
  split at h <;> split at h
  · have hAbs := toString_inj ((String.append_right_inj _).mp h)
    omega
  · exact absurd h.symm (toString_ne_append _ rfl rfl)
  · exact absurd h (toString_ne_append _ rfl rfl)
  · have hAbs := toString_inj h
    omega

theorem literal_of_integer {a : Literal} {value : Int} (h : a.integer? = some value) :
    literal a = integerText value := by
  cases a with
  | signed width value =>
    cases h
    rfl
  | unsigned width value =>
    cases h
    have hNot : ¬(value : Int) < 0 := by omega
    simp [literal, integerText, hNot]
  | _ => cases h

theorem literal_inj {a b : Literal} (hKind : a.rank = b.rank) (h : literal a = literal b) :
    a = b := by
  cases a <;> cases b
  case signed.signed width value width' value' =>
    obtain rfl := Width.rank_inj hKind
    rw [integerText_inj h]
  case unsigned.unsigned width value width' value' =>
    obtain rfl := Width.rank_inj (Nat.add_left_cancel hKind)
    rw [toString_inj h]
  case floating.floating precision bits precision' bits' =>
    cases precision <;> cases precision'
    · rw [Text.hex_inj ((String.append_right_inj _).mp h)]
    · cases hKind
    · cases hKind
    · rw [Text.hex_inj ((String.append_right_inj _).mp h)]
  case boolean.boolean value value' =>
    cases value <;> cases value'
    · rfl
    · exact absurd h (by decide)
    · exact absurd h (by decide)
    · rfl
  case character.character byte byte' =>
    rw [toString_inj ((String.append_right_inj _).mp h)]
  case string.string value value' =>
    have hBytes := congrArg String.toList ((String.append_right_inj _).mp h)
    simp only [String.toList_join, List.flatMap_map] at hBytes
    have hData := Array.toList_inj.mp (Text.hexBytes_inj hBytes)
    rw [String.toByteArray_inj.mp (ByteArray.ext hData)]
  case unit.unit => rfl
  -- Literals of different kinds have different ranks.
  all_goals grind [Literal.rank, Literal.rank_floating, Width.rank_lt]

/-- The kind of a literal, as its text tells it. -/
def readFamily : List Char → Literal.Family
  | 'f' :: digits =>
      if digits.length = 8 then .single else if digits.length = 16 then .double else .boolean
  | 't' :: _ => .boolean
  | 'c' :: _ => .character
  | 's' :: _ => .string
  | 'u' :: _ => .unit
  | _ => .integer

theorem readFamily_toString (n : Nat) : readFamily (toString n).toList = .integer := by
  rw [toList_toString]
  cases hDigits : Nat.toDigits 10 n with
  | nil => rfl
  | cons c rest =>
    have hDigit : c.isDigit = true :=
      Nat.isDigit_of_mem_toDigits (by decide) (by decide) (hDigits ▸ List.mem_cons_self)
    unfold readFamily
    split <;> simp_all

theorem readFamily_literal {a : Literal} (h : a.Representable) :
    readFamily (literal a).toList = a.family := by
  cases a with
  | signed width value =>
    simp only [literal]
    split
    · simp [readFamily, Literal.family]
    · exact readFamily_toString _
  | unsigned width value => exact readFamily_toString value
  | floating precision bits =>
    cases precision with
    | single =>
      have hLength : (Text.hex 8 bits).toList.length = 8 := Text.length_hex (by decide) h
      simp [literal, readFamily, Literal.family, hLength]
    | double =>
      have hLength : (Text.hex 16 bits).toList.length = 16 := Text.length_hex (by decide) h
      simp [literal, readFamily, Literal.family, hLength]
  | boolean value => cases value <;> rfl
  | character byte => simp [literal, readFamily, Literal.family]
  | string value => simp [literal, readFamily, Literal.family]
  | unit => rfl

/-- A text belongs to one literal, or to the integers of one value. -/
theorem literal_eq_iff {a b : Literal} (ha : a.Representable) (hb : b.Representable) :
    literal a = literal b ↔ a = b ∨ ∃ value, a.integer? = some value ∧ b.integer? = some value := by
  constructor
  · intro h
    have hFamily : a.family = b.family := by
      rw [← readFamily_literal ha, h, readFamily_literal hb]
    by_cases hInteger : a.family = .integer
    · obtain ⟨m, hm⟩ := Literal.exists_integer_of_family hInteger
      obtain ⟨n, hn⟩ := Literal.exists_integer_of_family (hFamily ▸ hInteger)
      rw [literal_of_integer hm, literal_of_integer hn] at h
      exact .inr ⟨m, hm, integerText_inj h ▸ hn⟩
    · exact .inl (literal_inj (Literal.rank_eq_of_family hFamily hInteger) h)
  · rintro (rfl | ⟨value, hValue, hValue'⟩)
    · rfl
    · rw [literal_of_integer hValue, literal_of_integer hValue']

end Mangle

end Specializer
