import Specializer.Proofs.Instance.Targets

/-!
# What becomes of the values in a request

An instance that is made for a request has its values as they are written. Later requests share it
by value, and the few literals that count as equal to others, zeros and what is no number, may then
differ from the one that the instance keeps. All other literals arrive as they are.
-/

set_option autoImplicit false

namespace Specializer

open TypeStore Update RunState

namespace Literal

/-- There are other literals of the same value: it is a floating-point zero or no number. -/
def HasTwins : Literal → Prop
  | .floating precision bits => precision.format.magnitude bits = 0 ∨
      precision.format.infinity < precision.format.magnitude bits
  | _ => False

theorem canonical_eq_self {a : Literal} (h : ¬a.HasTwins) : a.canonical = a := by
  cases a with
  | floating precision bits =>
    obtain ⟨hZero, hNumber⟩ := not_or.mp h
    rw [canonical, if_neg hNumber, if_neg hZero]
  | _ => rfl

theorem HasTwins.canonical {a : Literal} (h : a.HasTwins) : a.canonical.HasTwins := by
  cases a with
  | floating precision bits =>
    rw [Literal.canonical]
    split
    case isTrue =>
      right
      cases precision <;> decide
    case isFalse hNumber =>
      rw [if_pos (h.resolve_right hNumber)]
      exact .inl (Nat.zero_mod _)
  | _ => exact h

theorem eq_of_same {a b : Literal} (hSame : a.same b = true) (hTwins : ¬a.HasTwins) : b = a := by
  have hCanonical : a = b.canonical := by
    rw [← of_decide_eq_true hSame, canonical_eq_self hTwins]
  by_cases hOther : b.HasTwins
  · rw [hCanonical] at hTwins
    exact absurd hOther.canonical hTwins
  · rw [hCanonical, canonical_eq_self hOther]

end Literal

namespace Argument

/-- What a request gives and what its answer has: some type for a type, and for a literal one of the
same value, which is the given one unless there are others. -/
inductive Arrives : Argument → Argument → Prop where
  | type (id image : TypeId) : Arrives (.type id) (.type image)
  | value {written kept : Literal} (hSame : written.same kept = true)
      (hText : ¬written.HasTwins → kept = written) : Arrives (.value written) (.value kept)

theorem Image.value_eq {types : TypeStore} {sub : Substitution} {a b : Argument}
    (h : a.Image types sub b) : a.value? = b.value? := by
  cases h <;> rfl

theorem values_eq_of_forall₂ {a b : List Argument}
    (h : List.Forall₂ (fun x y => x.value? = y.value?) a b) :
    a.filterMap value? = b.filterMap value? := by
  induction h with
  | nil => rfl
  | cons hHead _ ih => rw [List.filterMap_cons, List.filterMap_cons, hHead, ih]

theorem forall₂_arrives {a b : List Argument} (hSorts : List.Forall₂ SameSort a b)
    (hValues : (a.filterMap value?).map Literal.canonical =
      (b.filterMap value?).map Literal.canonical) : List.Forall₂ Arrives a b := by
  induction hSorts with
  | nil => exact .nil
  | cons hSort _ ih =>
    cases hSort with
    | type => exact .cons (.type _ _) (ih hValues)
    | value =>
      simp only [List.filterMap_cons, value?, List.map_cons, List.cons.injEq] at hValues
      obtain ⟨hHead, hTail⟩ := hValues
      have hSame := decide_eq_true hHead
      exact .cons (.value hSame (Literal.eq_of_same hSame)) (ih hTail)

end Argument

theorem Answers.arrives {p : Program} {s : RunState} {r : Request} {id : InstanceId}
    (h : Answers p s r id) (hSound : Sound p s) : ∃ i, s.instances.get? id = some i ∧
      List.Forall₂ Argument.Arrives r.arguments i.arguments := by
  obtain ⟨m, actuals, i, hResolves, hi⟩ := h
  obtain ⟨n, hFormed⟩ := hSound.formed hi
  obtain ⟨site, -, hGiven⟩ := hResolves.given
  have hDecl := hFormed.decl
  rw [show i.source = r.target from congrArg Key.source hResolves.key_eq] at hDecl
  cases hDecl.symm.trans hResolves.decl
  refine ⟨i, hi, Argument.forall₂_arrives (TemplateParam.Fits.forall₂_sameSort hResolves.fits
    hFormed.fits) ?_⟩
  rw [Argument.values_eq_of_forall₂ (hGiven.imp fun _ _ h => h.value_eq)]
  exact (congrArg Key.values hResolves.key_eq).symm

/-- The answer to a request between two states: it has the arguments of the request. A new one has
the values as they are written, and one that was there before has those that it had. -/
structure Received (s t : RunState) (arguments : List Argument) (id : InstanceId) : Prop where
  arrives : ∃ i, t.instances.get? id = some i ∧ List.Forall₂ Argument.Arrives arguments i.arguments
  new : ∀ ⦃i⦄, s.instances.get? id = none → t.instances.get? id = some i →
    List.Forall₂ (fun a b => a.value? = b.value?) arguments i.arguments
  old : ∀ ⦃i j⦄, s.instances.get? id = some i → t.instances.get? id = some j →
    j.arguments = i.arguments

theorem Granted.received {p : Program} {r : Request} {s t : RunState} {id : InstanceId}
    (h : Granted p r s id t) (hSound : Sound p s) : Received s t r.arguments id where
  arrives := h.answers.arrives (hSound.steps h.advances.steps)
  new i hOld hi := by
    obtain ⟨m, hResolves⟩ := h.made hi hOld
    obtain ⟨site, -, hGiven⟩ := hResolves.given
    exact hGiven.imp fun _ _ h => h.value_eq
  old i j hi hj := by
    obtain ⟨k, hk, hShell⟩ := h.advances.steps.grows.instances hi
    cases hj.symm.trans hk
    exact Instance.arguments_eq_of_shell hShell

/-- The fields that are settled: one that names a field of an instance leads to an instance that has
the arguments which are written there, and one that names a value parameter of its own module has
the argument. -/
def RunState.FieldsReceive (p : Program) (s : RunState) : Prop :=
  ∀ ⦃id i m f b type init e⦄, s.instances.get? id = some i → p.tree.readModule i.source = .ok m →
    f ∈ i.fields → f.kind = .valueConstant → f.target ≠ .pending →
    m.bindings[f.binding]? = some b → b.kind = .value type init → p.tree.readExpr init = .ok e →
    (∀ target arguments name, e.kind = .site target arguments name →
      ∃ found field j, f.target = .definition found field ∧ s.instances.get? found = some j ∧
        List.Forall₂ Argument.Arrives arguments j.arguments) ∧
    ∀ index, e.kind = .templateValue i.source index →
      ∃ value, f.target = .literal value ∧ i.arguments[index]? = some (.value value)

theorem RunState.AllMeant.fieldsReceive {p : Program} {s : RunState} (h : s.AllMeant p)
    (hSound : Sound p s) : s.FieldsReceive p := by
  intro id i m f b type init e hi hDecl hf hKind hSettled hb hValue hExpr
  obtain ⟨b', type', init', e', hb', hValue', hExpr', hStands⟩ :=
    ((h hi hDecl f hf).value hKind).resolve_left hSettled
  cases hb.symm.trans hb'
  cases hValue.symm.trans hValue'
  cases hExpr.symm.trans hExpr'
  constructor
  · intro target arguments name hSite
    rw [hSite] at hStands
    obtain ⟨found, field, n, index, hTarget, hAnswers, -⟩ := hStands
    obtain ⟨j, hj, hArrives⟩ := hAnswers.arrives hSound
    exact ⟨found, field, j, hTarget, hj, hArrives⟩
  · intro index hOwn
    rw [hOwn] at hStands
    obtain ⟨found, j, value, hTarget, hNear, hj, hArgument⟩ := hStands
    cases hNear.unique (.here hi rfl)
    cases hi.symm.trans hj
    exact ⟨value, hTarget, hArgument⟩

/-- Values reach instances as they are written, except that a zero or what is no number may find an
instance that keeps another literal of the same value. This goes for the requests of a caller after
any calls, for those of an instance in any state on the way, and for the fields at any time. -/
theorem arguments_received (p : Program) (types : TypeStore) :
    (∀ calls target arguments id t,
      Run.instantiate p target arguments (.after p calls (.start types)) = .ok id t →
      Received (.after p calls (.start types)) t arguments id) ∧
    (∀ s site k target arguments span id t, Steps p (.start types) s →
      s.instances.get? site = some k →
      Run.request p target arguments (some site) span s = .ok id t →
      Received s t arguments id) ∧
    ∀ calls, (RunState.after p calls (.start types)).FieldsReceive p := by
  refine ⟨?_, ?_, ?_⟩
  · intro calls target arguments id t hRun
    have hSound := Sound.after_start p types calls
    exact ((Run.instantiate_ensures p target arguments hSound).of_ok hRun).received hSound
  · intro s site k target arguments span id t hSteps hSite hRun
    have hSound := (Sound.start p types).steps hSteps
    exact ((Run.requestIn_ensures hSound hSite target arguments span).of_ok hRun).received hSound
  · intro calls
    exact (AllMeant.of_steps_start ((Sound.start p types).steps_after calls)).fieldsReceive
      (Sound.after_start p types calls)

namespace Zeros

/-! A box that keeps a number, and a main module that names the box of negative zero. -/

def symbols : SymbolTable :=
  ["Box", "Main", "n", "kept"].foldl (fun table name => (table.intern name).2) .empty

def positive : Literal := .floating .single 0

def negative : Literal := .floating .single 0x80000000

def box : ModuleDecl :=
  ⟨⟨0⟩, .origin, none, [⟨⟨2⟩, .origin, .value ⟨11⟩⟩], ⟨[], ⟨0⟩⟩,
    [⟨⟨3⟩, .origin, .value ⟨11⟩ ⟨0⟩⟩]⟩

def main : ModuleDecl := ⟨⟨1⟩, .origin, none, [], ⟨[], ⟨0⟩⟩, [⟨⟨3⟩, .origin, .value ⟨11⟩ ⟨1⟩⟩]⟩

def tree : ModuleTree :=
  ⟨⟨#[box, main]⟩, ⟨#[⟨.templateValue ⟨0⟩ 0, .origin, ⟨11⟩⟩,
    ⟨.site ⟨0⟩ [.value negative] ⟨3⟩, .origin, ⟨11⟩⟩]⟩⟩

def program : Program := ⟨tree, symbols, .silent⟩

def calls : List Call := [.instantiate ⟨0⟩ [.value positive], .instantiate ⟨1⟩ []]

def state (more : List Call) : RunState := .after program (calls ++ more) (.start initial)

/-- A caller and the main module get a box for negative zero, and the field of the main module leads
to one. -/
theorem arguments_received_negative :
    (∃ id t, Run.instantiate program ⟨0⟩ [.value negative] (state []) = .ok id t ∧
      Received (state []) t [.value negative] id) ∧
    (∃ k id t, (state []).instances.get? ⟨1⟩ = some k ∧
      Run.request program ⟨0⟩ [.value negative] (some ⟨1⟩) .origin (state []) = .ok id t ∧
      Received (state []) t [.value negative] id) ∧
    ∃ i f found field j, (state [.drain]).instances.get? ⟨1⟩ = some i ∧ i.fields = [f] ∧
      f.target = .definition found field ∧ (state [.drain]).instances.get? found = some j ∧
      List.Forall₂ Argument.Arrives [.value negative] j.arguments := by
  obtain ⟨hCaller, hSite, hFields⟩ := arguments_received program initial
  refine ⟨?_, ?_, ?_⟩
  · obtain ⟨id, t, hRun⟩ := Update.exists_of_succeeds
      (show (Run.instantiate program ⟨0⟩ [.value negative]).succeeds (state []) = true by
        decide +kernel)
    exact ⟨id, t, hRun, hCaller _ _ _ _ _ hRun⟩
  · obtain ⟨k, hk⟩ := Option.isSome_iff_exists.mp
      (show ((state []).instances.get? ⟨1⟩).isSome = true by decide +kernel)
    obtain ⟨id, t, hRun⟩ := Update.exists_of_succeeds
      (show (Run.request program ⟨0⟩ [.value negative] (some ⟨1⟩) .origin).succeeds
        (state []) = true by decide +kernel)
    have hSteps := (Sound.start program initial).steps_after (calls ++ [])
    exact ⟨k, id, t, hk, hRun, hSite _ _ _ _ _ _ _ _ hSteps hk hRun⟩
  · have hMain : ((state [.drain]).instances.get? ⟨1⟩).map (fun i =>
        (i.source, i.fields.map fun f => (f.kind, f.binding, f.target))) =
        some (⟨1⟩, [(.valueConstant, 0, .definition ⟨0⟩ 0)]) := by decide +kernel
    obtain ⟨i, hi, hFacts⟩ := Option.map_eq_some_iff.mp hMain
    obtain ⟨hSource, hOnly⟩ := Prod.mk.inj hFacts
    obtain ⟨f, hf, hFacts⟩ := List.map_eq_singleton_iff.mp hOnly
    obtain ⟨hKind, hFacts⟩ := Prod.mk.inj hFacts
    obtain ⟨hBinding, hTarget⟩ := Prod.mk.inj hFacts
    have hSettled : f.target ≠ .pending := by
      rw [hTarget]
      decide
    have hDecl : program.tree.readModule i.source = .ok main := by
      rw [hSource]
      rfl
    have hInit : main.bindings[f.binding]? = some ⟨⟨3⟩, .origin, .value ⟨11⟩ ⟨1⟩⟩ := by
      rw [hBinding]
      rfl
    have hMember : f ∈ i.fields := by
      rw [hf]
      exact List.mem_singleton_self f
    have hReceive : (state [.drain]).FieldsReceive program := by
      rw [state]
      exact hFields _
    obtain ⟨hServed, -⟩ := hReceive hi hDecl hMember hKind hSettled hInit rfl rfl
    obtain ⟨found, field, j, hFound, hj, hArrives⟩ := hServed ⟨0⟩ [.value negative] ⟨3⟩ rfl
    exact ⟨i, f, found, field, j, hi, hf, hFound, hj, hArrives⟩

/-- What is asked for with negative zero after positive zero keeps the positive one, whose text is
another. -/
theorem instantiate_negative_keeps_positive : ∃ id t i,
    Run.instantiate program ⟨0⟩ [.value negative] (state []) = .ok id t ∧
    t.instances.get? id = some i ∧ i.arguments = [.value positive] ∧
    Mangle.literal positive ≠ Mangle.literal negative := by
  obtain ⟨id, t, hRun⟩ := Update.exists_of_succeeds
    (show (Run.instantiate program ⟨0⟩ [.value negative]).succeeds (state []) = true by
      decide +kernel)
  have hAll : ∀ e ∈ ((Run.instantiate program ⟨0⟩ [.value negative]).leave
      (state [])).instances.entries, e.2.source = ⟨0⟩ → e.2.arguments = [.value positive] := by
    decide +kernel
  have hSound := Sound.after_start program initial (calls ++ [])
  obtain ⟨i, hi, hSource⟩ :=
    ((Run.instantiate_ensures program _ _ hSound).of_ok hRun).answers.source_eq
  rw [Update.leave_of_ok hRun] at hAll
  exact ⟨id, t, i, hRun, hi, hAll _ (Arena.mem_entries hi) hSource, by decide⟩

end Zeros

end Specializer
