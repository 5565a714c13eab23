import Specializer.Proofs.Mangle.Types
import Specializer.Proofs.Tree.Lexical
import Specializer.Proofs.Types.History

/-!
# Arguments in names

In a store that was built from minted handles every type has a mangling of its own, which later
calls do not change. A name therefore gives back the types among its arguments. It gives back the
values too, apart from the width and the sign of integers, which stand in it as bare numbers.
-/

set_option autoImplicit false

namespace Specializer

open TypeStore Mangle

/-- An argument as a caller can have it. -/
def Argument.Valid (types : TypeStore) : Argument → Prop
  | .type id => types.Minted id
  | .value payload => payload.Representable

instance (types : TypeStore) : (given : Argument) → Decidable (given.Valid types)
  | .type id => inferInstanceAs (Decidable (types.Minted id))
  | .value payload => inferInstanceAs (Decidable payload.Representable)

/-- Equal arguments, or integers of one value, whose widths may differ. -/
inductive Argument.SpelledAlike : Argument → Argument → Prop where
  | same (given : Argument) : SpelledAlike given given
  | integer {a b : Literal} {value : Int} (ha : a.integer? = some value)
      (hb : b.integer? = some value) : SpelledAlike (.value a) (.value b)

namespace TypeStore

/-- Manglings tell types apart, have no two underscores in a row and none at their end, and stay
what they are. -/
theorem Built.mangled_apart {s : TypeStore} (hBuilt : s.Built) :
    (∀ id, s.Minted id → ∃ text, Mangle.type s id = .ok text ∧ ¬"__".toList <:+: text.toList ∧
      ¬"_".toList <:+ text.toList ∧ ∀ later, Mangle.type (s.after later) id = .ok text) ∧
    ∀ a b, s.Minted a → s.Minted b → Mangle.type s a = Mangle.type s b → a = b := by
  constructor
  · intro id hMinted
    obtain ⟨text, hText⟩ := type_succeeds hBuilt.grounded hMinted
    have hSegment := (typeWithin_solid hText).segment
    refine ⟨text, hText, hSegment.not_infix, hSegment.not_suffix, fun later => ?_⟩
    exact type_mono (grown_after later s).extension hText
  · intro a b ha _ hSame
    obtain ⟨text, hText⟩ := type_succeeds hBuilt.grounded ha
    exact type_inj hBuilt.canonical hText (hSame ▸ hText)

namespace Sample

def nestedCalls : List TypeCall :=
  [.add (.tuple [⟨5⟩, ⟨5⟩]), .add (.tuple [⟨5⟩]), .add (.tuple [⟨13⟩]), .add (.tuple [⟨14⟩, ⟨5⟩])]

def nested : TypeStore := initial.after nestedCalls

theorem built_nested : nested.Built := ⟨nestedCalls, by decide +kernel, rfl⟩

theorem mangled_apart_nested : nested.Minted ⟨15⟩ ∧ nested.Minted ⟨16⟩ ∧
    Mangle.type nested ⟨15⟩ ≠ Mangle.type nested ⟨16⟩ := by
  have hFirst : nested.Minted ⟨15⟩ := by decide +kernel
  have hSecond : nested.Minted ⟨16⟩ := by decide +kernel
  refine ⟨hFirst, hSecond, fun hSame => ?_⟩
  cases built_nested.mangled_apart.2 _ _ hFirst hSecond hSame

end Sample

end TypeStore

namespace Mangle

theorem argument_succeeds {types : TypeStore} (hGround : types.Grounded) {given : Argument}
    (hValid : given.Valid types) : ∃ text, argument types given = .ok text := by
  cases given with
  | type id => exact type_succeeds hGround hValid
  | value value => exact ⟨literal value, rfl⟩

theorem argument_eq_iff {types : TypeStore} (hGround : types.Grounded)
    (hCanonical : types.Canonical) {a b : Argument} (hSort : a.SameSort b) (ha : a.Valid types)
    (hb : b.Valid types) : argument types a = argument types b ↔ a.SpelledAlike b := by
  cases hSort with
  | type a b =>
    constructor
    · intro h
      obtain ⟨text, hText⟩ := argument_succeeds hGround ha
      rw [type_inj hCanonical hText (h ▸ hText)]
      exact .same _
    · intro h
      cases h
      rfl
  | value a b =>
    change Except.ok (literal a) = Except.ok (literal b) ↔ _
    rw [Except.ok.injEq, literal_eq_iff ha hb]
    constructor
    · rintro (rfl | ⟨value, ha, hb⟩)
      · exact .same _
      · exact .integer ha hb
    · intro h
      cases h with
      | same => exact .inl rfl
      | integer ha hb => exact .inr ⟨_, ha, hb⟩

theorem segment_texts {types : TypeStore} {given : List Argument} {texts : List String}
    (h : List.Forall₂ (fun a text => argument types a = .ok text) given texts) :
    ∀ text ∈ texts, Segment text.toList := by
  intro text hText
  obtain ⟨_, -, hArgument⟩ := exists_mem_left_of_forall₂ h hText
  exact segment_argument hArgument

theorem instanceName_eq_iff_texts {types : TypeStore} {base : String} {a b : List Argument}
    (ha : ∀ given ∈ a, ∃ text, argument types given = .ok text)
    (hb : ∀ given ∈ b, ∃ text, argument types given = .ok text) :
    instanceName types base a = instanceName types base b ↔
      List.Forall₂ (fun x y => argument types x = argument types y) a b := by
  constructor
  · intro h
    obtain ⟨texts, hTexts⟩ := Read.exists_mapM_eq_ok ha
    obtain ⟨texts', hTexts'⟩ := Read.exists_mapM_eq_ok hb
    have hEach := Read.mapM_eq_ok_iff.mp hTexts
    have hEach' := Read.mapM_eq_ok_iff.mp hTexts'
    rw [instanceName_eq_ok_iff.mpr ⟨texts, hEach, rfl⟩,
      instanceName_eq_ok_iff.mpr ⟨texts', hEach', rfl⟩, Except.ok.injEq,
      String.append_right_inj] at h
    obtain rfl := chain_inj (segment_texts hEach) (segment_texts hEach') h
    exact forall₂_join hEach hEach'.flip fun _ _ _ hx hy => hx.trans hy.symm
  · intro h
    have hTexts : a.mapM (argument types) = b.mapM (argument types) := by
      clear ha hb
      induction h with
      | nil => rfl
      | cons hHead _ ih => rw [List.mapM_cons, List.mapM_cons, hHead, ih]
    rw [instanceName, instanceName, hTexts]

end Mangle

/-- Names on one base, with types and values in the same places, are the same exactly if the
arguments are, up to the widths of integers. -/
theorem TypeStore.Built.instanceName_eq_iff {s : TypeStore} (hBuilt : s.Built) (base : String)
    {a b : List Argument} (ha : ∀ given ∈ a, given.Valid s) (hb : ∀ given ∈ b, given.Valid s)
    (hSorts : List.Forall₂ Argument.SameSort a b) :
    (∃ name, instanceName s base a = .ok name) ∧
    (instanceName s base a = instanceName s base b ↔ List.Forall₂ Argument.SpelledAlike a b) := by
  have hGround := hBuilt.grounded
  have hText {given : List Argument} (h : ∀ x ∈ given, x.Valid s) :
      ∀ x ∈ given, ∃ text, argument s x = .ok text :=
    fun x hx => argument_succeeds hGround (h x hx)
  refine ⟨instanceName_succeeds hGround base fun id hId => ha _ hId, ?_⟩
  rw [instanceName_eq_iff_texts (hText ha) (hText hb)]
  clear hText
  induction hSorts with
  | nil => exact iff_of_true .nil .nil
  | cons hSort _ ih =>
    rw [List.forall_mem_cons] at ha hb
    rw [List.forall₂_cons, List.forall₂_cons, ih ha.2 hb.2,
      argument_eq_iff hGround hBuilt.canonical hSort ha.1 hb.1]

theorem TypeStore.Sample.instanceName_eq_iff_numbers :
    instanceName nested "Buf" [.type ⟨15⟩, .value (.signed .w32 3)] =
      instanceName nested "Buf" [.type ⟨15⟩, .value (.unsigned .w8 3)] ∧
    instanceName nested "Buf" [.type ⟨15⟩, .value (.signed .w32 3)] ≠
      instanceName nested "Buf" [.type ⟨16⟩, .value (.signed .w32 3)] := by
  constructor
  · refine (built_nested.instanceName_eq_iff "Buf" (by decide +kernel) (by decide +kernel)
      (.cons (.type _ _) (.cons (.value _ _) .nil))).2.mpr ?_
    exact .cons (.same _) (.cons (.integer rfl rfl) .nil)
  · intro hSame
    have hAlike := (built_nested.instanceName_eq_iff "Buf" (by decide +kernel) (by decide +kernel)
      (.cons (.type _ _) (.cons (.value _ _) .nil))).2.mp hSame
    cases hAlike with
    | cons hHead _ => cases hHead

/-- Two values for one parameter that are not equal and are spelled alike. -/
theorem TypeStore.instanceName_ignores_width : initial.Built ∧
    (Literal.signed .w32 3).Representable ∧ (Literal.signed .w64 3).Representable ∧
    instanceName initial "Buf" [.value (.signed .w32 3)] =
      instanceName initial "Buf" [.value (.signed .w64 3)] ∧
    (Literal.signed .w32 3).same (.signed .w64 3) = false :=
  ⟨⟨[], trivial, rfl⟩, by decide, by decide, by decide +kernel, by decide⟩

end Specializer
