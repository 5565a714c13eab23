import Specializer.Handle

/-!
# Substitutions

Finite maps from type handles to type handles, kept as a list that is strictly sorted by key. A map
has one such list, so equal lists and equal maps are the same thing.
-/

set_option autoImplicit false

namespace Specializer

structure Substitution where
  entries : List (TypeId × TypeId)
  sorted : entries.Pairwise fun a b => a.1.index < b.1.index
  deriving DecidableEq

namespace Substitution

def empty : Substitution := ⟨[], .nil⟩

def get? (s : Substitution) (key : TypeId) : Option TypeId :=
  (s.entries.find? fun entry => decide (entry.1 = key)).map Prod.snd

def contains (s : Substitution) (key : TypeId) : Bool := (s.get? key).isSome

def size (s : Substitution) : Nat := s.entries.length

/-- Put an entry at its place; the value of an entry with the same key is replaced. -/
def insertEntry (key value : TypeId) : List (TypeId × TypeId) → List (TypeId × TypeId)
  | [] => [(key, value)]
  | entry :: rest =>
      if key.index < entry.1.index then (key, value) :: entry :: rest
      else if key = entry.1 then (key, value) :: rest
      else entry :: insertEntry key value rest

theorem mem_insertEntry {key value : TypeId} {entries : List (TypeId × TypeId)}
    {entry : TypeId × TypeId} (mem : entry ∈ insertEntry key value entries) :
    entry = (key, value) ∨ entry ∈ entries := by
  induction entries with
  | nil => simpa [insertEntry] using mem
  | cons first rest ih =>
    unfold insertEntry at mem
    split at mem
    · simpa using mem
    · split at mem
      · rcases List.mem_cons.mp mem with h | h
        · exact .inl h
        · exact .inr (List.mem_cons_of_mem _ h)
      · rcases List.mem_cons.mp mem with h | h
        · exact .inr (h ▸ List.mem_cons_self)
        · exact (ih h).imp id (List.mem_cons_of_mem _)

theorem sorted_insertEntry (key value : TypeId) {entries : List (TypeId × TypeId)}
    (sorted : entries.Pairwise fun a b => a.1.index < b.1.index) :
    (insertEntry key value entries).Pairwise fun a b => a.1.index < b.1.index := by
  induction entries with
  | nil => simp [insertEntry]
  | cons first rest ih =>
    obtain ⟨least, tail⟩ := List.pairwise_cons.mp sorted
    unfold insertEntry
    split
    case isTrue before =>
      refine List.pairwise_cons.mpr ⟨?_, sorted⟩
      intro other mem
      rcases List.mem_cons.mp mem with rfl | mem
      · exact before
      · exact Nat.lt_trans before (least other mem)
    case isFalse notBefore =>
      split
      case isTrue same =>
        subst same
        exact List.pairwise_cons.mpr ⟨least, tail⟩
      case isFalse different =>
        refine List.pairwise_cons.mpr ⟨?_, ih tail⟩
        intro other mem
        rcases mem_insertEntry mem with rfl | mem
        · have apart : key.index ≠ first.1.index := fun equal =>
            different (by cases key; cases h : first.1; simp_all)
          simp only
          omega
        · exact least other mem

def insert (s : Substitution) (key value : TypeId) : Substitution :=
  ⟨insertEntry key value s.entries, sorted_insertEntry key value s.sorted⟩

/-- The entries of both maps; on a common key the later map wins. -/
def extend (s later : Substitution) : Substitution :=
  later.entries.foldl (fun acc entry => acc.insert entry.1 entry.2) s

/-- A map from its pairs; on a common key the later pair wins. -/
def ofPairs (pairs : List (TypeId × TypeId)) : Substitution :=
  pairs.foldl (fun acc pair => acc.insert pair.1 pair.2) empty

def filterKeys (s : Substitution) (keep : TypeId → Bool) : Substitution :=
  ⟨s.entries.filter fun entry => keep entry.1, s.sorted.filter _⟩

def without (s : Substitution) (keys : List TypeId) : Substitution :=
  s.filterKeys fun key => !keys.contains key

def only (s : Substitution) (keys : List TypeId) : Substitution :=
  s.filterKeys fun key => keys.contains key

end Substitution

end Specializer
