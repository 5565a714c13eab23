import Specializer.Proofs.Mangle.Literals
import Specializer.Proofs.Types.Interning
import Mathlib.Data.List.Nodup

/-!
# Types in names

The mangling of a type is its head followed by the manglings of its operands, each after one
underscore. A head is a word and a number. The two say how many operands follow, so that a type can
be told from what stands behind it, and in a store without duplicates no two types are mangled
alike.
-/

set_option autoImplicit false

namespace Specializer.Mangle

open TypeStore

inductive Label where
  | unit | bool | string
  | number (sort : Numeric)
  | indirect (via : Indirection) (writable : Bool)
  | function (effect : Effect)
  | tuple
  | composite (shape : Shape)
  | var
  deriving DecidableEq

namespace Label

def word : Label → String
  | .unit => "unit"
  | .bool => "bool"
  | .string => "string"
  | .number sort => numeric sort
  | .indirect via writable => indirection via writable
  | .function e => effect e
  | .tuple => "tuple"
  | .composite s => shape s
  | .var => "var"

def all : List Label :=
  [.unit, .bool, .string, .number .signed, .number .unsigned, .number .floating,
    .indirect .pointer true, .indirect .pointer false, .indirect .array true,
    .indirect .array false, .indirect .slice true, .indirect .slice false,
    .function .total, .function .divergent, .function .state, .function .exception,
    .function .machineLevel, .tuple, .composite .struct, .composite .union,
    .composite .enumeration, .composite .moduleType, .var]

theorem mem_all (label : Label) : label ∈ all := by
  cases label with
  | number sort => cases sort <;> decide
  | indirect via writable => cases via <;> cases writable <;> decide
  | function effect => cases effect <;> decide
  | composite shape => cases shape <;> decide
  | _ => decide

theorem word_inj {a b : Label} (h : a.word = b.word) : a = b :=
  List.inj_on_of_nodup_map (by decide : (all.map word).Nodup) (mem_all a) (mem_all b) h

theorem isDigit_word (label : Label) : ∀ c ∈ label.word.toList, c.isDigit = false := by
  have hAll : ∀ label ∈ all, label.word.toList.any Char.isDigit = false := by decide
  simpa using hAll label (mem_all label)

theorem underscore_not_mem_word (label : Label) : '_' ∉ label.word.toList := by
  have hAll : ∀ label ∈ all, '_' ∉ label.word.toList := by decide
  exact hAll label (mem_all label)

theorem word_ne_empty (label : Label) : label.word.toList ≠ [] := by
  have hAll : ∀ label ∈ all, label.word.toList ≠ [] := by decide
  exact hAll label (mem_all label)

end Label

def label : Node → Label
  | .unit => .unit
  | .bool => .bool
  | .string => .string
  | .number sort _ => .number sort
  | .indirect via _ writable => .indirect via writable
  | .function _ _ e => .function e
  | .tuple _ => .tuple
  | .composite s _ => .composite s
  | .var _ _ => .var

/-- The number in a head. It tells apart what the operands do not. -/
def amount (id : TypeId) : Node → Option Nat
  | .number _ width => some width
  | .tuple items => some items.length
  | .composite _ _ => some id.index
  | .var _ _ => some id.index
  | _ => none

def operands : Node → List TypeId
  | .indirect _ target _ => [target]
  | .function argument result _ => [argument, result]
  | .tuple items => items
  | _ => []

def head (id : TypeId) (node : Node) : String :=
  (label node).word ++ ((amount id node).map toString).getD ""

theorem toList_head (id : TypeId) (node : Node) : (head id node).toList =
    (label node).word.toList ++ (((amount id node).map toString).getD "").toList :=
  String.toList_append

theorem isDigit_amount {found : Option Nat} {c : Char}
    (hc : c ∈ ((found.map toString).getD "").toList) : c.isDigit = true := by
  cases found with
  | none => cases hc
  | some n =>
    rw [Option.map_some, Option.getD_some, toList_toString] at hc
    exact Nat.isDigit_of_mem_toDigits (by decide) (by decide) hc

theorem amount_inj {found found' : Option Nat}
    (h : (found.map toString).getD "" = (found'.map toString).getD "") : found = found' := by
  have hNonempty (n : Nat) : toString n ≠ "" := Nat.repr_ne_empty
  cases found with
  | none =>
    cases found' with
    | none => rfl
    | some n => exact absurd h.symm (hNonempty n)
  | some m =>
    cases found' with
    | none => exact absurd h (hNonempty m)
    | some n => rw [toString_inj h]

theorem head_inj {id id' : TypeId} {node node' : Node} (h : head id node = head id' node') :
    label node = label node' ∧ amount id node = amount id' node' := by
  have hText := congrArg String.toList h
  rw [toList_head, toList_head] at hText
  -- The word ends where the digits begin.
  have hDigit (found : Option Nat) :
      ∀ c ∈ ((found.map toString).getD "").toList.head?, ¬c.isDigit = false := by
    intro c hc
    simp [isDigit_amount (List.mem_of_mem_head? hc)]
  obtain ⟨hWord, hAmount⟩ := append_inj_of_forall (label node).isDigit_word
    (label node').isDigit_word (hDigit _) (hDigit _) hText
  exact ⟨Label.word_inj (String.toList_inj.mp hWord), amount_inj (String.toList_inj.mp hAmount)⟩

theorem underscore_not_mem_head (id : TypeId) (node : Node) : '_' ∉ (head id node).toList := by
  rw [toList_head, List.mem_append, not_or]
  refine ⟨(label node).underscore_not_mem_word, fun hMem => ?_⟩
  cases isDigit_amount hMem

theorem length_operands {id id' : TypeId} {node node' : Node} (hLabel : label node = label node')
    (hAmount : amount id node = amount id' node') :
    (operands node).length = (operands node').length := by
  cases node <;> cases node' <;> simp_all [label, amount, operands]

/-- Head and operands tell a node, unless it is nominal or a composite: then they tell its
handle. -/
theorem eq_of_operands {id id' : TypeId} {node node' : Node} (hLabel : label node = label node')
    (hAmount : amount id node = amount id' node') (hOperands : operands node = operands node') :
    id = id' ∨ node = node' ∧ node.isNominal = false := by
  obtain ⟨index⟩ := id
  obtain ⟨index'⟩ := id'
  cases node <;> cases node' <;> simp_all [label, amount, operands, Node.isNominal]

theorem typeWithin_succ_eq_ok_iff {types : TypeStore} {depth : Nat} {id : TypeId} {text : String} :
    typeWithin types (depth + 1) id = .ok text ↔ ∃ node parts, types.read id = .ok node ∧
      List.Forall₂ (fun part text => typeWithin types depth part = .ok text) (operands node) parts ∧
      text = head id node ++ String.join (parts.map ("_" ++ ·)) := by
  simp only [typeWithin, Read.bind_eq_ok_iff, exists_and_left]
  refine exists_congr fun node => and_congr_right fun _ => ?_
  cases node <;> simp only [Read.bind_eq_ok_iff, Read.mapM_eq_ok_iff, Read.pure_eq_ok_iff] <;>
    simp [operands, head, label, Label.word, amount, List.forall₂_cons_left_iff,
      String.append_assoc, eq_comm (a := text), and_assoc]

theorem typeWithin_mono {s t : TypeStore} (hExt : s.Extends t) {depth depth' : Nat}
    (hDepth : depth ≤ depth') {id : TypeId} {text : String}
    (h : typeWithin s depth id = .ok text) : typeWithin t depth' id = .ok text := by
  induction depth generalizing depth' id text with
  | zero => cases h
  | succ depth ih =>
    cases depth' with
    | zero => cases hDepth
    | succ depth' =>
      obtain ⟨node, parts, hNode, hParts, hText⟩ := typeWithin_succ_eq_ok_iff.mp h
      exact typeWithin_succ_eq_ok_iff.mpr ⟨node, parts, hExt hNode,
        hParts.imp fun _ _ => ih (Nat.le_of_succ_le_succ hDepth), hText⟩

theorem toList_operands_cons (part : String) (parts : List String) :
    (String.join ((part :: parts).map ("_" ++ ·))).toList =
      '_' :: (part.toList ++ (String.join (parts.map ("_" ++ ·))).toList) := by
  simp [String.toList_join]

/-- A segment that does not begin with an underscore, and so remains one behind an underscore. -/
def Solid (cs : List Char) : Prop := ∃ c rest, cs = c :: rest ∧ c ≠ '_' ∧ Segment rest

theorem Solid.segment {cs : List Char} (h : Solid cs) : Segment cs := by
  obtain ⟨c, rest, rfl, hc, hRest⟩ := h
  exact .plain hc hRest

theorem segment_operands {parts : List String} (h : ∀ part ∈ parts, Solid part.toList) :
    Segment (String.join (parts.map ("_" ++ ·))).toList := by
  induction parts with
  | nil => exact .nil
  | cons part parts ih =>
    obtain ⟨c, rest, hText, hc, hRest⟩ := h part List.mem_cons_self
    rw [toList_operands_cons, hText]
    exact .escaped hc
      (hRest.append (ih fun other hOther => h other (List.mem_cons_of_mem _ hOther)))

theorem typeWithin_solid {types : TypeStore} {depth : Nat} {id : TypeId} {text : String}
    (h : typeWithin types depth id = .ok text) : Solid text.toList := by
  induction depth generalizing id text with
  | zero => cases h
  | succ depth ih =>
    obtain ⟨node, parts, -, hParts, rfl⟩ := typeWithin_succ_eq_ok_iff.mp h
    have hTail : Segment (String.join (parts.map ("_" ++ ·))).toList := by
      refine segment_operands fun part hPart => ?_
      obtain ⟨_, -, hText⟩ := exists_mem_left_of_forall₂ hParts hPart
      exact ih hText
    have hHead := underscore_not_mem_head id node
    rw [String.toList_append]
    cases hText : (head id node).toList with
    | nil =>
      rw [toList_head] at hText
      exact absurd (List.append_eq_nil_iff.mp hText).1 (label node).word_ne_empty
    | cons c rest =>
      rw [hText, List.mem_cons, not_or] at hHead
      exact ⟨c, _, rfl, Ne.symm hHead.1, (Segment.of_not_mem hHead.2).append hTail⟩

theorem typeWithin_head {types : TypeStore} {depth : Nat} {id : TypeId} {text : String}
    (h : typeWithin types depth id = .ok text) : text.toList.head? ≠ some 'c' := by
  have hAll : ∀ label ∈ Label.all, label.word.toList.head? ≠ some 'c' := by decide
  cases depth with
  | zero => cases h
  | succ depth =>
    obtain ⟨node, parts, -, -, rfl⟩ := typeWithin_succ_eq_ok_iff.mp h
    rw [String.toList_append, toList_head, List.append_assoc,
      List.head?_append_of_ne_nil _ (label node).word_ne_empty]
    exact hAll _ (Label.mem_all _)

def Breaks (rest : List Char) : Prop := ∀ c ∈ rest.head?, ¬c ≠ '_'

theorem breaks_operands {parts : List String} {rest : List Char} (h : Breaks rest) :
    Breaks ((String.join (parts.map ("_" ++ ·))).toList ++ rest) := by
  cases parts with
  | nil => exact h
  | cons part parts =>
    rw [toList_operands_cons]
    simp [Breaks]

theorem operands_append_inj {R : TypeId → String → Prop}
    (hInj : ∀ a b text text' rest rest', R a text → R b text' → Breaks rest → Breaks rest' →
      text.toList ++ rest = text'.toList ++ rest' → a = b ∧ rest = rest')
    {ids ids' : List TypeId} {parts parts' : List String} {rest rest' : List Char}
    (h : List.Forall₂ R ids parts) (h' : List.Forall₂ R ids' parts')
    (hLength : ids.length = ids'.length) (hRest : Breaks rest) (hRest' : Breaks rest')
    (hText : (String.join (parts.map ("_" ++ ·))).toList ++ rest =
      (String.join (parts'.map ("_" ++ ·))).toList ++ rest') : ids = ids' ∧ rest = rest' := by
  induction h generalizing ids' parts' with
  | nil =>
    cases h' with
    | nil => exact ⟨rfl, hText⟩
    | cons => cases hLength
  | cons hHead _ ih =>
    cases h' with
    | nil => cases hLength
    | cons hHead' hTail' =>
      simp only [toList_operands_cons, List.cons_append, List.append_assoc, List.cons.injEq,
        true_and] at hText
      obtain ⟨rfl, hMore⟩ := hInj _ _ _ _ _ _ hHead hHead' (breaks_operands hRest)
        (breaks_operands hRest') hText
      obtain ⟨rfl, hSame⟩ := ih hTail' (Nat.succ.inj hLength) hMore
      exact ⟨rfl, hSame⟩

section Injective

variable {types : TypeStore} (hCanonical : types.Canonical)
include hCanonical

theorem typeWithin_append_inj {depth : Nat} {a b : TypeId} {text text' : String}
    {rest rest' : List Char} (ha : typeWithin types depth a = .ok text)
    (hb : typeWithin types depth b = .ok text') (hRest : Breaks rest) (hRest' : Breaks rest')
    (h : text.toList ++ rest = text'.toList ++ rest') : a = b ∧ rest = rest' := by
  induction depth generalizing a b text text' rest rest' with
  | zero => cases ha
  | succ depth ih =>
    obtain ⟨node, parts, hNode, hParts, rfl⟩ := typeWithin_succ_eq_ok_iff.mp ha
    obtain ⟨node', parts', hNode', hParts', rfl⟩ := typeWithin_succ_eq_ok_iff.mp hb
    rw [String.toList_append, String.toList_append, List.append_assoc, List.append_assoc] at h
    obtain ⟨hHead, hTail⟩ := append_inj_of_forall
      (fun _ hc => ne_of_mem_of_not_mem hc (underscore_not_mem_head a node))
      (fun _ hc => ne_of_mem_of_not_mem hc (underscore_not_mem_head b node'))
      (breaks_operands hRest) (breaks_operands hRest') h
    obtain ⟨hLabel, hAmount⟩ := head_inj (String.toList_inj.mp hHead)
    obtain ⟨hOperands, hSame⟩ := operands_append_inj (fun _ _ _ _ _ _ => ih) hParts hParts'
      (length_operands hLabel hAmount) hRest hRest' hTail
    refine ⟨?_, hSame⟩
    rcases eq_of_operands hLabel hAmount hOperands with hId | ⟨rfl, hNot⟩
    · exact hId
    · exact hCanonical hNode hNode' hNot

theorem type_inj {a b : TypeId} {text : String} (ha : type types a = .ok text)
    (hb : type types b = .ok text) : a = b :=
  have hEnd : Breaks [] := fun _ h => nomatch h
  (typeWithin_append_inj hCanonical ha hb hEnd hEnd rfl).1

end Injective

theorem type_mono {s t : TypeStore} (hExt : s.Extends t) {id : TypeId} {text : String}
    (h : type s id = .ok text) : type t id = .ok text :=
  typeWithin_mono hExt (Nat.succ_le_succ hExt.size_le) h

theorem argument_mono {s t : TypeStore} (hExt : s.Extends t) {given : Argument} {text : String}
    (h : argument s given = .ok text) : argument t given = .ok text := by
  cases given with
  | type id => exact type_mono hExt h
  | value literal => exact h

theorem segment_argument {types : TypeStore} {given : Argument} {text : String}
    (h : argument types given = .ok text) : Segment text.toList := by
  cases given with
  | type id => exact (typeWithin_solid h).segment
  | value value =>
    cases h
    exact segment_literal value

theorem instanceName_eq_ok_iff {types : TypeStore} {base name : String} {given : List Argument} :
    instanceName types base given = .ok name ↔ ∃ texts,
      List.Forall₂ (fun a text => argument types a = .ok text) given texts ∧
        name = base ++ chain texts := by
  rw [instanceName, Read.bind_eq_ok_iff]
  refine exists_congr fun texts => ?_
  rw [Read.mapM_eq_ok_iff, Read.pure_eq_ok_iff, eq_comm (a := name), chain]

theorem typeWithin_succeeds {types : TypeStore} {good : TypeId → Node → Prop} {depth : Nat}
    {id : TypeId} (h : types.AllWithin good depth id) :
    ∃ text, typeWithin types depth id = .ok text := by
  induction depth generalizing id with
  | zero => exact h.elim
  | succ depth ih =>
    obtain ⟨node, hNode, -, hParts⟩ := h
    rw [typeWithin]
    refine Read.exists_bind_eq_ok ⟨node, hNode⟩ fun other hOther => ?_
    cases hNode.symm.trans hOther
    cases node with
    | indirect via target writable =>
      exact Read.exists_bind_eq_ok (ih (hParts target List.mem_cons_self)) fun _ _ => ⟨_, rfl⟩
    | function argument result effect =>
      refine Read.exists_bind_eq_ok (ih (hParts argument List.mem_cons_self)) fun _ _ => ?_
      refine Read.exists_bind_eq_ok (ih (hParts result ?_)) fun _ _ => ⟨_, rfl⟩
      exact List.mem_cons_of_mem _ List.mem_cons_self
    | tuple items =>
      refine Read.exists_bind_eq_ok (Read.exists_mapM_eq_ok fun item hItem => ?_)
        fun _ _ => ⟨_, rfl⟩
      refine ih (hParts item ?_)
      simp only [Node.components, Node.elements, List.map_map]
      exact List.mem_map.mpr ⟨item, hItem, rfl⟩
    | _ => exact ⟨_, rfl⟩

theorem type_succeeds {types : TypeStore} (hGround : types.Grounded) {id : TypeId}
    (hMinted : types.Minted id) : ∃ text, type types id = .ok text := by
  have hAll := hGround.allWithin (G := fun _ _ => True) hMinted fun _ _ _ _ => trivial
  have hDepth : id.index + 1 ≤ types.depth :=
    Nat.succ_le_succ (Nat.le_of_lt (minted_iff_lt.mp hMinted))
  exact typeWithin_succeeds (hAll.mono hDepth)

theorem instanceName_succeeds {types : TypeStore} (hGround : types.Grounded) (base : String)
    {arguments : List Argument} (hArgs : ∀ type, .type type ∈ arguments → types.Minted type) :
    ∃ text, instanceName types base arguments = .ok text := by
  refine Read.exists_bind_eq_ok (Read.exists_mapM_eq_ok fun given hGiven => ?_)
    fun _ _ => ⟨_, rfl⟩
  cases given with
  | value literal => exact ⟨_, rfl⟩
  | type id => exact type_succeeds hGround (hArgs id hGiven)

end Specializer.Mangle
