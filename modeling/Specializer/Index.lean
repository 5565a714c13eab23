import Std.Data.TreeMap.Lemmas

/-!
# Indexed association lists

An association list whose newest entry comes first, together with buckets that answer look-ups
without a walk over the whole list. A key is sent to its bucket by a digest. The buckets are bound
to the list by a proof, so that everything about an index can be said of its list.
-/

set_option autoImplicit false

namespace Specializer

/-- A number that tells most keys apart. -/
class Digest (κ : Type) where
  digest : κ → Nat

def Digest.mix (acc x : Nat) : Nat := (acc * 31 + x + 1) % 2147483647

instance : Digest String where
  digest s := s.toList.foldl (fun acc c => Digest.mix acc c.toNat) 0

def firstOf {κ ν : Type} [DecidableEq κ] (entries : List (κ × ν)) (key : κ) : Option ν :=
  (entries.find? fun entry => decide (entry.1 = key)).map Prod.snd

theorem firstOf_cons {κ ν : Type} [DecidableEq κ] (key : κ) (value : ν) (rest : List (κ × ν))
    (other : κ) :
    firstOf ((key, value) :: rest) other =
      if key = other then some value else firstOf rest other := by
  by_cases h : key = other <;> simp [firstOf, h]

structure Index (κ ν : Type) [DecidableEq κ] [Digest κ] where
  /-- all entries, the newest one first -/
  entries : List (κ × ν)
  /-- the entries by the digests of their keys -/
  buckets : Std.TreeMap Nat (List (κ × ν))
  agrees : ∀ key, firstOf (buckets.getD (Digest.digest key) []) key = firstOf entries key

namespace Index

variable {κ ν : Type} [DecidableEq κ] [Digest κ]

def empty : Index κ ν := ⟨[], ∅, fun key => by rw [Std.TreeMap.getD_emptyc]⟩

/-- The value of the newest entry of a key. -/
def find? (index : Index κ ν) (key : κ) : Option ν :=
  firstOf (index.buckets.getD (Digest.digest key) []) key

/-- Add an entry, which hides older ones of the same key. -/
def insert (index : Index κ ν) (key : κ) (value : ν) : Index κ ν where
  entries := (key, value) :: index.entries
  buckets := index.buckets.insert (Digest.digest key)
    ((key, value) :: index.buckets.getD (Digest.digest key) [])
  agrees other := by
    rw [Std.TreeMap.getD_insert, firstOf_cons]
    split
    case isTrue same =>
      rw [firstOf_cons, Std.LawfulEqCmp.eq_of_compare same, index.agrees other]
    case isFalse different =>
      have apart : key ≠ other := fun equal =>
        different (by rw [equal]; exact Std.ReflCmp.compare_self)
      rw [if_neg apart, index.agrees other]

theorem find?_eq (index : Index κ ν) (key : κ) : index.find? key = firstOf index.entries key :=
  index.agrees key

@[simp] theorem find?_empty (key : κ) : (empty : Index κ ν).find? key = none := rfl

theorem find?_insert (index : Index κ ν) (key : κ) (value : ν) (other : κ) :
    (index.insert key value).find? other =
      if key = other then some value else index.find? other := by
  rw [find?_eq, find?_eq]
  exact firstOf_cons key value index.entries other

end Index

end Specializer
