import Specializer.Proofs.Instance.Names

/-!
# Symbols of closures among the names of instances

The symbol of a closure is the name of its owner with one more part, and so is the name of an
instance without arguments inside of one with that name. Nothing that is mangled for an argument
reads as `closure` and a number, so the two meet just where a module is named like that.
-/

set_option autoImplicit false

namespace Specializer

open TypeStore RunState Mangle

namespace Mangle

theorem literal_ne_closure (a : Literal) (index : Nat) :
    literal a ≠ "closure" ++ toString index := by
  intro h
  have hText := congrArg String.toList h
  rw [String.toList_append] at hText
  cases a with
  | signed width value =>
    rw [literal] at h
    split at h
    · rw [literal, if_pos ‹_›, String.toList_append] at hText
      cases hText
    · exact toString_ne_append _ rfl rfl h
  | unsigned width value => exact toString_ne_append _ rfl rfl h
  | floating precision bits => cases precision <;> simp [literal] at hText
  | boolean value => cases value <;> simp [literal] at hText
  | character byte =>
    -- A character begins with the same letter, but goes on with digits.
    have hRest : "closure" = "c" ++ "losure" := by decide
    rw [literal, hRest, String.append_assoc] at h
    exact toString_ne_append byte rfl rfl ((String.append_right_inj _).mp h)
  | string value => simp [literal] at hText
  | unit => simp [literal] at hText

theorem argument_ne_closure {types : TypeStore} {given : Argument} {text : String}
    (h : argument types given = .ok text) (index : Nat) : text ≠ "closure" ++ toString index := by
  cases given with
  | type id =>
    rintro rfl
    exact typeWithin_head h (by simp)
  | value a =>
    cases h
    exact literal_ne_closure a index

end Mangle

def Instance.Named (p : Program) (i : Instance) (text : String) : Prop :=
  ∃ m, p.tree.readModule i.source = .ok m ∧ p.symbols.name m.name = .ok text

theorem Instance.Named.unique {p : Program} {i : Instance} {text text' : String}
    (h : i.Named p text) (h' : i.Named p text') : text = text' := by
  obtain ⟨m, hDecl, hText⟩ := h
  obtain ⟨n, hDecl', hText'⟩ := h'
  cases hDecl.symm.trans hDecl'
  exact Except.ok.inj (hText.symm.trans hText')

namespace Titled

variable {p : Program} {s : RunState}

theorem base_of_arguments_nil (hTitled : Titled p s) {id : InstanceId} {i : Instance}
    {text : String} (hi : s.instances.get? id = some i) (hNone : i.arguments = [])
    (hNamed : i.Named p text) : s.Base text i.parent i.name := by
  obtain ⟨m, own, base, hDecl, hOwn, hBase, hName⟩ := hTitled.name hi
  obtain rfl := Instance.Named.unique ⟨m, hDecl, hOwn⟩ hNamed
  rw [hNone] at hName
  obtain ⟨texts, hTexts, hName⟩ := instanceName_eq_ok_iff.mp hName
  cases hTexts
  rw [hName, show chain [] = "" from rfl, String.append_empty]
  exact hBase

theorem exists_last_parts (hSound : Sound p s) (hTitled : Titled p s) {id : InstanceId}
    {i : Instance} (hi : s.instances.get? id = some i) : ∃ before parts,
      i.Parts p s.types parts ∧ (∀ part ∈ before ++ parts, Segment part.toList) ∧
        "__" ++ i.name = chain (before ++ parts) := by
  obtain ⟨above, lists, -, hLists, hName⟩ := hTitled.exists_path hSound hi
  have hLast := List.forall₂_drop_append lists above [i] hLists.flip
  generalize hDrop : lists.drop above.length = last at hLast
  cases hLast with
  | @cons parts _ _ _ hParts hNil =>
    cases hNil
    have hFlat : (lists.take above.length).flatten ++ parts = lists.flatten := by
      rw [← List.flatten_concat, ← hDrop, List.take_append_drop]
    refine ⟨_, parts, hParts, ?_, hFlat ▸ hName⟩
    rw [hFlat, ← List.append_nil lists.flatten]
    exact Instance.Parts.segment_flatten hLists fun _ h => absurd h List.not_mem_nil

/-- A part that no argument can have ends a name only as the name of a module. -/
theorem named_of_closureName_eq (hSound : Sound p s) (hTitled : Titled p s) {a b : InstanceId}
    {i j : Instance} (hi : s.instances.get? a = some i) (hj : s.instances.get? b = some j)
    {index : Nat} (h : closureName i.name index = j.name) :
    j.arguments = [] ∧ j.Named p ("closure" ++ toString index) := by
  obtain ⟨before, parts, -, hSegments, hName⟩ := hTitled.exists_last_parts hSound hi
  obtain ⟨before', parts', hParts', hSegments', hName'⟩ := hTitled.exists_last_parts hSound hj
  obtain ⟨m, text, texts, hDecl, hText, hTexts, rfl⟩ := hParts'
  have hSame : before ++ parts ++ ["closure" ++ toString index] =
      before' ++ escape text :: texts := by
    apply chain_inj _ hSegments'
    · rw [chain_append, ← hName, ← hName', ← h, closureName_eq, String.append_assoc]
    · intro part hPart
      exact (List.mem_append.mp hPart).elim (hSegments part) (segment_closure index part)
  rcases List.eq_nil_or_concat texts with rfl | ⟨more, last, rfl⟩
  · obtain ⟨-, hEscape⟩ := List.append_inj' hSame rfl
    rw [← escape_of_not_mem (underscore_not_mem_closure index)] at hEscape
    obtain rfl := escape_inj (List.cons.inj hEscape).1
    exact ⟨List.forall₂_nil_right_iff.mp hTexts, m, hDecl, hText⟩
  · rw [List.concat_eq_append] at hSame hTexts
    rw [← List.cons_append, ← List.append_assoc] at hSame
    obtain ⟨-, hLast⟩ := List.append_inj' hSame rfl
    obtain ⟨given, -, hGiven⟩ := exists_mem_left_of_forall₂ hTexts List.mem_concat_self
    exact absurd (List.cons.inj hLast).1.symm (argument_ne_closure hGiven index)

/-- The next part after a name is `closure` and a number only in an instance that is inside of one
with that name, and whose module is named so. -/
theorem closureName_eq_name_iff (hSound : Sound p s) (hTitled : Titled p s) {a b : InstanceId}
    {i j : Instance} (hi : s.instances.get? a = some i) (hj : s.instances.get? b = some j)
    (index : Nat) : closureName i.name index = j.name ↔
      j.arguments = [] ∧ j.Named p ("closure" ++ toString index) ∧
        ∃ outer k, j.parent = some outer ∧ s.instances.get? outer = some k ∧ k.name = i.name := by
  have hClosure (name : String) :
      closureName name index = name ++ "__" ++ escape ("closure" ++ toString index) := by
    rw [escape_of_not_mem (underscore_not_mem_closure index), closureName_eq, chain_cons,
      show chain [] = "" from rfl, String.append_empty, String.append_assoc]
  constructor
  · intro h
    obtain ⟨hNone, hNamed⟩ := hTitled.named_of_closureName_eq hSound hi hj h
    refine ⟨hNone, hNamed, ?_⟩
    have hBase := hTitled.base_of_arguments_nil hj hNone hNamed
    rw [← h, hClosure] at hBase
    generalize hParent : j.parent = parent at hBase
    generalize hWhole : i.name ++ "__" ++ escape _ = whole at hBase
    cases hBase with
    | top =>
      have hLength := congrArg String.length hWhole
      simp [String.length_append] at hLength
    | @inside outer k hk =>
      refine ⟨outer, k, rfl, hk, ?_⟩
      rw [String.append_left_inj, String.append_left_inj] at hWhole
      exact hWhole.symm
  · rintro ⟨hNone, hNamed, outer, k, hParent, hk, hName⟩
    have hBase := hTitled.base_of_arguments_nil hj hNone hNamed
    rw [hParent] at hBase
    generalize hWhole : j.name = whole at hBase
    cases hBase with
    | inside hOuter =>
      cases hk.symm.trans hOuter
      rw [hClosure, hName]

end Titled

/-- The symbol of a closure is the name of an instance just if the instance is of a module without
parameters, named `closure` and the number of the closure, inside of an instance that is named as
the owner of the closure. -/
theorem RunState.Reachable.symbol_eq_name_iff {p : Program} {s : RunState} (hReach : s.Reachable p)
    {a : ClosureId} {b : InstanceId} {c : Closure} {j : Instance}
    (hc : s.closures.get? a = some c) (hj : s.instances.get? b = some j) : c.symbol = j.name ↔
      j.arguments = [] ∧ j.Named p ("closure" ++ toString c.index) ∧
        ∃ outer i k, j.parent = some outer ∧ s.instances.get? c.owner = some i ∧
          s.instances.get? outer = some k ∧ k.name = i.name := by
  obtain ⟨history, calls, rfl⟩ := hReach
  have hTitled := Titled.after_start p (initial.after history) calls
  obtain ⟨i, hi, hSymbol, -⟩ := hTitled.symbol hc
  rw [hSymbol, hTitled.closureName_eq_name_iff (Sound.after_start p _ calls) hi hj]
  refine and_congr_right fun _ => and_congr_right fun _ => ⟨?_, ?_⟩
  · rintro ⟨outer, k, hParent, hk, hName⟩
    exact ⟨outer, i, k, hParent, hi, hk, hName⟩
  · rintro ⟨outer, owner, k, hParent, hOwner, hk, hName⟩
    cases hi.symm.trans hOwner
    exact ⟨outer, k, hParent, hk, hName⟩

namespace Clash

/-! A program whose only closure is the first of a module with a module `closure0` inside it. -/

def symbols : SymbolTable :=
  ["Main", "closure0", "f"].foldl (fun table name => (table.intern name).2) .empty

def main : ModuleDecl :=
  ⟨⟨0⟩, .origin, none, [], ⟨[], ⟨0⟩⟩,
    [⟨⟨2⟩, .origin, .value ⟨5⟩ ⟨0⟩⟩, ⟨⟨1⟩, .origin, .nested ⟨1⟩⟩]⟩

def inside : ModuleDecl := ⟨⟨1⟩, .origin, some ⟨0⟩, [], ⟨[], ⟨0⟩⟩, []⟩

def tree : ModuleTree :=
  ⟨⟨#[main, inside]⟩,
    ⟨#[⟨.lambda [] ⟨1⟩, .origin, ⟨5⟩⟩, ⟨.literal (.signed .w32 7), .origin, ⟨5⟩⟩]⟩⟩

def program : Program := ⟨tree, symbols, .silent⟩

def calls : List Call := [.instantiate ⟨0⟩ [], .drain]

def state : RunState := .after program calls (.start (initial.after []))

theorem reachable : state.Reachable program := ⟨[], calls, rfl⟩

/-- The closure is named as the inner instance and not as the outer one. -/
theorem symbol_eq_name_iff_inside : ∃ c i j,
    state.closures.get? ⟨0⟩ = some c ∧ state.instances.get? ⟨0⟩ = some i ∧
      state.instances.get? ⟨1⟩ = some j ∧ c.symbol ≠ i.name ∧ c.symbol = j.name := by
  have hClosure : (state.closures.get? ⟨0⟩).map (fun c => (c.owner, c.index)) = some (⟨0⟩, 0) := by
    decide +kernel
  have hOuter : (state.instances.get? ⟨0⟩).map (fun i => i.parent) = some none := by
    decide +kernel
  have hInner : (state.instances.get? ⟨1⟩).map (fun j => (j.source, j.parent, j.arguments)) =
      some (⟨1⟩, some ⟨0⟩, []) := by decide +kernel
  obtain ⟨c, hc, hFacts⟩ := Option.map_eq_some_iff.mp hClosure
  obtain ⟨hOwner, hIndex⟩ := Prod.mk.inj hFacts
  obtain ⟨i, hi, hTop⟩ := Option.map_eq_some_iff.mp hOuter
  obtain ⟨j, hj, hFacts⟩ := Option.map_eq_some_iff.mp hInner
  obtain ⟨hSource, hFacts⟩ := Prod.mk.inj hFacts
  obtain ⟨hParent, hNone⟩ := Prod.mk.inj hFacts
  refine ⟨c, i, j, hc, hi, hj, ?_, ?_⟩
  · rw [ne_eq, reachable.symbol_eq_name_iff hc hi]
    rintro ⟨-, -, outer, -, -, hInside, -⟩
    cases hTop.symm.trans hInside
  · rw [reachable.symbol_eq_name_iff hc hj, hIndex]
    refine ⟨hNone, ⟨inside, ?_, by decide⟩, ⟨0⟩, i, i, hParent, ?_, hi, rfl⟩
    · rw [hSource]
      rfl
    · rw [hOwner, hi]

/-- Different names for modules with the same parent do not keep symbols and names apart. -/
theorem symbol_eq_name : state.Reachable program ∧ program.UniqueNames ∧
    (state.closures.get? ⟨0⟩).map Closure.symbol = some "Main__closure0" ∧
    (state.instances.get? ⟨1⟩).map Instance.name = some "Main__closure0" :=
  ⟨reachable, .of_entries (by decide +kernel), by decide +kernel, by decide +kernel⟩

end Clash

end Specializer
