import Specializer.Mangle
import Mathlib.Data.List.Basic

/-!
# Reading names back

The parts of a name are segments: in them an underscore is always followed by something else. So
the first two underscores in a row end a part, whatever the next part begins with, and a name gives
back its parts. Escaped names are segments and give back the names, and digits give back the number.
-/

set_option autoImplicit false

namespace Specializer.Mangle

theorem append_inj_of_forall {q : Char → Prop} {a b rest rest' : List Char} (ha : ∀ c ∈ a, q c)
    (hb : ∀ c ∈ b, q c) (hRest : ∀ c ∈ rest.head?, ¬q c) (hRest' : ∀ c ∈ rest'.head?, ¬q c)
    (h : a ++ rest = b ++ rest') : a = b ∧ rest = rest' := by
  induction a generalizing b with
  | nil =>
    cases b with
    | nil => exact ⟨rfl, h⟩
    | cons c b =>
      rw [List.nil_append] at h
      exact absurd (hb c List.mem_cons_self) (hRest c (by simp [h]))
  | cons c a ih =>
    cases b with
    | nil =>
      rw [List.nil_append] at h
      exact absurd (ha c List.mem_cons_self) (hRest' c (by simp [← h]))
    | cons d b =>
      simp only [List.cons_append, List.cons.injEq] at h
      obtain ⟨rfl, h⟩ := h
      obtain ⟨rfl, hSame⟩ := ih (fun e he => ha e (List.mem_cons_of_mem _ he))
        (fun e he => hb e (List.mem_cons_of_mem _ he)) h
      exact ⟨rfl, hSame⟩

section Digits

def digitValue (c : Char) : Nat := "0123456789abcdef".toList.idxOf c

def readDigits (base : Nat) (cs : List Char) : Nat :=
  cs.foldl (fun acc c => base * acc + digitValue c) 0

theorem readDigits_toDigits {base : Nat} (hBase : 1 < base) (hLe : base ≤ 16) (n : Nat) :
    readDigits base (Nat.toDigits base n) = n := by
  have hDigit : ∀ d < 16, digitValue d.digitChar = d := by decide
  induction n using Nat.strongRecOn with
  | ind n ih =>
    rw [Nat.toDigits_eq_if hBase]
    split
    case isTrue hLt => simp [readDigits, hDigit n (by omega)]
    case isFalse hNot =>
      have hLess : n / base < n := Nat.div_lt_self (by omega) hBase
      have hMod := Nat.mod_lt n (show base > 0 by omega)
      have hRest := ih (n / base) hLess
      rw [readDigits] at hRest
      rw [readDigits, List.foldl_append, hRest, List.foldl_cons, List.foldl_nil,
        hDigit _ (by omega), Nat.div_add_mod]

theorem underscore_not_mem_toDigits {base : Nat} (hBase : 1 < base) (n : Nat) :
    '_' ∉ Nat.toDigits base n := by
  induction n using Nat.strongRecOn with
  | ind n ih =>
    rw [Nat.toDigits_eq_if hBase]
    split
    case isTrue => simp
    case isFalse hLe =>
      have hRest := ih (n / base) (Nat.div_lt_self (by omega) hBase)
      simp [hRest]

theorem toList_toString (n : Nat) : (toString n).toList = Nat.toDigits 10 n := Nat.toList_repr

theorem toString_inj {m n : Nat} (h : toString m = toString n) : m = n := by
  have hDigits := congrArg String.toList h
  rw [toList_toString, toList_toString] at hDigits
  rw [← readDigits_toDigits (by decide : 1 < 10) (by decide) m, hDigits,
    readDigits_toDigits (by decide) (by decide)]

theorem underscore_not_mem_toString (n : Nat) : '_' ∉ (toString n).toList := by
  rw [toList_toString]
  exact underscore_not_mem_toDigits (by decide) n

end Digits

/-- No underscore is last, and none is followed by another. -/
inductive Segment : List Char → Prop where
  | nil : Segment []
  | plain {c : Char} {cs : List Char} (hc : c ≠ '_') (h : Segment cs) : Segment (c :: cs)
  | escaped {c : Char} {cs : List Char} (hc : c ≠ '_') (h : Segment cs) : Segment ('_' :: c :: cs)

theorem Segment.append {a b : List Char} (ha : Segment a) (hb : Segment b) : Segment (a ++ b) := by
  induction ha with
  | nil => exact hb
  | plain hc _ ih => exact .plain hc ih
  | escaped hc _ ih => exact .escaped hc ih

theorem Segment.of_not_mem {cs : List Char} (h : '_' ∉ cs) : Segment cs := by
  induction cs with
  | nil => exact .nil
  | cons c cs ih =>
    rw [List.mem_cons, not_or] at h
    exact .plain (Ne.symm h.1) (ih h.2)

theorem Segment.not_infix {cs : List Char} (h : Segment cs) : ¬['_', '_'] <:+: cs := by
  induction h with
  | nil => simp
  | plain hc _ ih =>
    rw [List.infix_cons_iff, List.cons_prefix_cons, not_or]
    exact ⟨fun hHead => hc hHead.1.symm, ih⟩
  | escaped hc _ ih =>
    simp only [List.infix_cons_iff, List.cons_prefix_cons, not_or]
    exact ⟨fun hHead => hc hHead.2.1.symm, fun hHead => hc hHead.1.symm, ih⟩

theorem Segment.not_suffix {cs : List Char} (h : Segment cs) : ¬['_'] <:+ cs := by
  induction h with
  | nil => simp
  | plain hc _ ih =>
    rw [List.suffix_cons_iff, not_or]
    exact ⟨fun hSame => hc (List.cons.inj hSame).1.symm, ih⟩
  | escaped hc _ ih =>
    simp only [List.suffix_cons_iff, not_or]
    exact ⟨by simp, fun hSame => hc (List.cons.inj hSame).1.symm, ih⟩

/-- The parts of a name, each after two underscores. -/
def chain (parts : List String) : String := String.join (parts.map ("__" ++ ·))

theorem chain_append (parts more : List String) :
    chain (parts ++ more) = chain parts ++ chain more := by
  rw [chain, List.map_append, String.join_append, chain, chain]

theorem chain_cons (part : String) (rest : List String) :
    chain (part :: rest) = "__" ++ part ++ chain rest := by
  rw [chain, List.map_cons, String.join_cons, chain]

theorem toList_chain_cons (part : String) (rest : List String) :
    (chain (part :: rest)).toList = '_' :: '_' :: (part.toList ++ (chain rest).toList) := by
  simp [chain_cons]

theorem Segment.append_inj {a b : List Char} (ha : Segment a) (hb : Segment b)
    {more more' : List String} (h : a ++ (chain more).toList = b ++ (chain more').toList) :
    a = b ∧ chain more = chain more' := by
  -- What follows a segment is nothing or two underscores, and it holds no such pair itself.
  have hBreak (parts : List String) (c : Char) (cs : List Char)
      (hText : (chain parts).toList = c :: cs) : c = '_' ∧ cs.head? = some '_' := by
    cases parts with
    | nil => cases hText
    | cons part rest =>
      rw [toList_chain_cons, List.cons.injEq] at hText
      exact ⟨hText.1.symm, by rw [← hText.2]; rfl⟩
  induction ha generalizing b with
  | nil =>
    cases hb with
    | nil => exact ⟨rfl, String.toList_inj.mp h⟩
    | plain hc _ => exact absurd (hBreak more _ _ h).1 hc
    | escaped hc _ => exact absurd (Option.some.inj (hBreak more _ _ h).2) hc
  | plain hc _ ih =>
    cases hb with
    | nil => exact absurd (hBreak more' _ _ h.symm).1 hc
    | plain _ hb =>
      obtain ⟨rfl, hTail⟩ := List.cons.inj h
      obtain ⟨rfl, hMore⟩ := ih hb hTail
      exact ⟨rfl, hMore⟩
    | escaped => exact absurd (List.cons.inj h).1 hc
  | escaped hc _ ih =>
    cases hb with
    | nil => exact absurd (Option.some.inj (hBreak more' _ _ h.symm).2) hc
    | plain hd _ => exact absurd (List.cons.inj h).1.symm hd
    | escaped _ hb =>
      obtain ⟨rfl, hTail⟩ := List.cons.inj (List.cons.inj h).2
      obtain ⟨rfl, hMore⟩ := ih hb hTail
      exact ⟨rfl, hMore⟩

theorem chain_inj {parts parts' : List String} (hParts : ∀ part ∈ parts, Segment part.toList)
    (hParts' : ∀ part ∈ parts', Segment part.toList) (h : chain parts = chain parts') :
    parts = parts' := by
  induction parts generalizing parts' with
  | nil =>
    cases parts' with
    | nil => rfl
    | cons part rest =>
      have hText := toList_chain_cons part rest
      rw [← h] at hText
      cases hText
  | cons part rest ih =>
    have hText := congrArg String.toList h
    rw [toList_chain_cons] at hText
    cases parts' with
    | nil => cases hText
    | cons part' rest' =>
      rw [toList_chain_cons] at hText
      obtain ⟨hSame, hRest⟩ := (hParts part List.mem_cons_self).append_inj
        (hParts' part' List.mem_cons_self) (List.cons.inj (List.cons.inj hText).2).2
      rw [String.toList_inj.mp hSame, ih (fun other hOther => hParts other (.tail _ hOther))
        (fun other hOther => hParts' other (.tail _ hOther)) hRest]

theorem segment_escape (name : String) : Segment (escape name).toList := by
  rw [escape, String.toList_ofList]
  induction name.toList with
  | nil => exact .nil
  | cons c cs ih =>
    rw [List.flatMap_cons]
    refine Segment.append ?_ ih
    split
    · exact .escaped (by decide) .nil
    · exact .plain ‹_› .nil

theorem escape_of_not_mem {name : String} (h : '_' ∉ name.toList) : escape name = name := by
  rw [escape, ← String.toList_inj, String.toList_ofList]
  generalize name.toList = cs at h ⊢
  induction cs with
  | nil => rfl
  | cons c cs ih =>
    obtain ⟨hHead, hTail⟩ := not_or.mp (mt List.mem_cons.mpr h)
    rw [List.flatMap_cons, if_neg (Ne.symm hHead), ih hTail, List.singleton_append]

theorem escape_inj {a b : String} (h : escape a = escape b) : a = b := by
  rw [escape, escape, String.ofList_inj] at h
  apply String.toList_inj.mp
  generalize a.toList = cs, b.toList = ds at h ⊢
  induction cs generalizing ds with
  | nil =>
    cases ds with
    | nil => rfl
    | cons d ds => by_cases hd : d = '_' <;> simp [hd] at h
  | cons c cs ih =>
    cases ds with
    | nil => by_cases hc : c = '_' <;> simp [hc] at h
    | cons d ds =>
      simp only [List.flatMap_cons] at h
      by_cases hc : c = '_'
      · by_cases hd : d = '_'
        · simp only [hc, hd, if_true, List.append_cancel_left_eq] at h
          rw [hc, hd, ih ds h]
        · simp only [hc, hd, if_true, if_false, List.cons_append, List.cons.injEq] at h
          exact absurd h.1.symm hd
      · by_cases hd : d = '_'
        · simp only [hc, hd, if_true, if_false, List.cons_append, List.cons.injEq] at h
          exact h.1.elim
        · simp only [hc, hd, if_false, List.cons_append, List.nil_append, List.cons.injEq] at h
          rw [h.1, ih ds h.2]

end Specializer.Mangle
