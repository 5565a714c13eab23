import Specializer.Proofs.Substitution.Application
import Specializer.Proofs.Types.Interning

/-!
# Stores as their callers build them

A caller adds nodes, applies and composes substitutions and instantiates schemes, and goes on after
a failure with the store that it has left. As long as it hands in handles that it was given, every
store it can see is acyclic and has one handle for each structure. Older handles keep their nodes
whatever it hands in.
-/

set_option autoImplicit false

namespace Specializer

open Update

def Substitution.handles (sub : Substitution) : List TypeId :=
  sub.entries.flatMap fun entry => [entry.1, entry.2]

theorem Substitution.mintedIn_of_handles {sub : Substitution} {s : TypeStore}
    (h : ∀ id ∈ sub.handles, s.Minted id) : sub.MintedIn s := by
  intro var type hGet
  refine h type (List.mem_flatMap.mpr ⟨_, sub.get?_eq_some_iff.mp hGet, ?_⟩)
  simp

inductive TypeCall where
  | add (node : Node)
  | apply (sub : Substitution) (mode : Strictness) (id : TypeId)
  | compose (outer inner : Substitution)
  | instantiate (scheme : Scheme) (actuals : Option (List TypeId))

namespace TypeCall

def perform (s : TypeStore) : TypeCall → TypeStore
  | .add node => (s.add node).2
  | .apply sub mode id => (sub.applyAs mode id).leave s
  | .compose outer inner => (outer.compose inner).leave s
  | .instantiate scheme actuals => (scheme.instantiate actuals).leave s

def handles : TypeCall → List TypeId
  | .add node => node.components
  | .apply sub _ id => id :: sub.handles
  | .compose outer inner => outer.handles ++ inner.handles
  | .instantiate scheme actuals => scheme.body :: scheme.bound ++ actuals.getD []

theorem perform_grownAround (call : TypeCall) (s : TypeStore) :
    s.GrownAround call.handles (call.perform s) := by
  cases call with
  | add node => exact ⟨.add (.refl s) node, fun hs hMinted => hs.add hMinted⟩
  | apply sub mode id =>
    have hSub (h : ∀ other ∈ id :: sub.handles, s.Minted other) : sub.MintedIn s :=
      Substitution.mintedIn_of_handles fun other hOther => h other (List.mem_cons_of_mem _ hOther)
    refine ((sub.applyAs_ensures mode id s).mono ?_ ?_).leave
    · rintro _ t ⟨hGrown, -, hGround⟩
      exact ⟨hGrown, fun hs hMinted => (hGround hs (hSub hMinted)).1⟩
    · rintro _ t ⟨hGrown, hGround, -⟩
      exact ⟨hGrown, fun hs hMinted => hGround hs (hSub hMinted)⟩
  | compose outer inner =>
    have hOuter (h : ∀ id ∈ outer.handles ++ inner.handles, s.Minted id) : outer.MintedIn s :=
      Substitution.mintedIn_of_handles fun id hId => h id (List.mem_append_left _ hId)
    refine ((outer.compose_ensures inner s).mono ?_ ?_).leave
    · rintro _ t ⟨hGrown, -, hGround⟩
      exact ⟨hGrown, fun hs hMinted => (hGround hs (hOuter hMinted)).1⟩
    · rintro _ t ⟨hGrown, hGround, -⟩
      exact ⟨hGrown, fun hs hMinted => hGround hs (hOuter hMinted)⟩
  | instantiate scheme actuals =>
    have hLeave : s.GrownAround (actuals.getD []) ((scheme.instantiate actuals).leave s) :=
      (scheme.instantiate_ensures actuals s).leave
    exact ⟨hLeave.grown,
      fun hs hMinted => hLeave.grounded hs fun id hId => hMinted id (List.mem_append_right _ hId)⟩

end TypeCall

namespace TypeStore

variable {s : TypeStore}

def after (calls : List TypeCall) (s : TypeStore) : TypeStore := calls.foldl TypeCall.perform s

theorem grown_after (calls : List TypeCall) (s : TypeStore) : s.Grown (s.after calls) := by
  induction calls generalizing s with
  | nil => exact .refl s
  | cons call rest ih => exact (call.perform_grownAround s).grown.trans (ih _)

/-- Every call is given handles only that the store has handed out by then. -/
def Admits (s : TypeStore) : List TypeCall → Prop
  | [] => True
  | call :: rest => (∀ id ∈ call.handles, s.Minted id) ∧ (call.perform s).Admits rest

instance (id : TypeId) : Decidable (s.Minted id) :=
  decidable_of_iff (id.index < s.size) minted_iff_lt.symm

instance Admits.decide : (s : TypeStore) → (calls : List TypeCall) → Decidable (s.Admits calls)
  | _, [] => inferInstanceAs (Decidable True)
  | s, call :: rest =>
      have := Admits.decide (call.perform s) rest
      inferInstanceAs (Decidable ((∀ id ∈ call.handles, s.Minted id) ∧ _))

theorem Grounded.after (hGround : s.Grounded) {calls : List TypeCall} (hAdmits : s.Admits calls) :
    (s.after calls).Grounded := by
  induction calls generalizing s with
  | nil => exact hGround
  | cons call rest ih =>
    exact ih ((call.perform_grownAround s).grounded hGround hAdmits.1) hAdmits.2

/-- The stores that callers can come to with minted handles. -/
def Built (s : TypeStore) : Prop := ∃ calls, initial.Admits calls ∧ s = initial.after calls

theorem Built.grounded (h : s.Built) : s.Grounded := by
  obtain ⟨calls, hAdmits, rfl⟩ := h
  exact grounded_initial.after hAdmits

theorem Built.canonical (h : s.Built) : s.Canonical := by
  obtain ⟨calls, -, rfl⟩ := h
  exact (grown_after calls initial).canonical canonical_initial

namespace Sample

/-- Two variables, a pair of the first and a pointer to it, and a module with that pair and the
second variable in it; then the module for numbers. -/
def pairCalls : List TypeCall :=
  [.add (.var .bound ⟨0⟩), .add (.var .free ⟨1⟩), .add (.indirect .pointer ⟨13⟩ true),
    .add (.composite .struct [⟨some ⟨2⟩, ⟨13⟩, false⟩, ⟨some ⟨3⟩, ⟨15⟩, false⟩]),
    .add (.composite .moduleType [⟨some ⟨4⟩, ⟨16⟩, false⟩, ⟨some ⟨1⟩, ⟨14⟩, true⟩]),
    .apply (.ofPairs [(⟨13⟩, ⟨5⟩)]) .lenient ⟨17⟩]

def pairs : TypeStore := initial.after pairCalls

theorem built_pairs : pairs.Built := ⟨pairCalls, by decide +kernel, rfl⟩

end Sample

/-- A handle is as good as the structure below it, the types below a handle are older than it, and
no call changes what is stored. -/
theorem Built.structural_identity (hBuilt : s.Built) :
    (∀ a b, s.Minted a → s.Minted b →
      (a = b ↔ ∃ tree, s.HasStructure a tree ∧ s.HasStructure b tree)) ∧
    (∀ id node, s.read id = .ok node → ∀ part ∈ node.components, part.index < id.index) ∧
    ∀ later id node, s.read id = .ok node → (s.after later).read id = .ok node := by
  refine ⟨fun a b ha _ => ⟨?_, ?_⟩, hBuilt.grounded, fun later id node hNode => ?_⟩
  · rintro rfl
    obtain ⟨tree, hTree⟩ := hBuilt.grounded.exists_hasStructure ha
    exact ⟨tree, hTree, hTree⟩
  · rintro ⟨tree, ha, hb⟩
    exact hBuilt.canonical.eq_of_hasStructure ha hb
  · exact (grown_after later s).extension hNode

/-- The pointer of the sample and its instance for numbers have no structure in common. -/
theorem Sample.structural_identity_pointers : Sample.pairs.Built ∧
    ¬∃ tree, Sample.pairs.HasStructure ⟨15⟩ tree ∧ Sample.pairs.HasStructure ⟨18⟩ tree := by
  refine ⟨Sample.built_pairs, fun hTree => ?_⟩
  have hSame := (Sample.built_pairs.structural_identity.1 ⟨15⟩ ⟨18⟩ (by decide +kernel)
    (by decide +kernel)).mpr hTree
  cases hSame

end TypeStore

end Specializer
