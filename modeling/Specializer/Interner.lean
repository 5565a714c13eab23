import Specializer.Handle
import Specializer.Index

/-!
# Interning

A table in which values are found again: looking a value up gives the earliest handle whose entry it
is. The index beside the table only makes that fast.
-/

set_option autoImplicit false

namespace Specializer

structure Interner (table : Table) (α : Type) [DecidableEq α] [Digest α] where
  items : Arena table α
  index : Index α (Handle table)
  agrees : ∀ x, index.find? x = items.find? x

namespace Interner

variable {table : Table} {α : Type} [DecidableEq α] [Digest α]

def empty : Interner table α := ⟨.empty, .empty, fun x => by simp [Arena.find?, Arena.empty]⟩

def size (t : Interner table α) : Nat := t.items.size

def read (t : Interner table α) (h : Handle table) : Read α := t.items.read h

def next (t : Interner table α) : Handle table := t.items.next

def find? (t : Interner table α) (x : α) : Option (Handle table) := t.index.find? x

/-- Add an entry under a new handle, also if it is there already. -/
def push (t : Interner table α) (x : α) : Interner table α where
  items := t.items.push x
  index := match t.index.find? x with
    | some _ => t.index
    | none => t.index.insert x t.items.next
  agrees y := by
    rw [Arena.find?_push, ← t.agrees y]
    cases found : t.index.find? x with
    | some h =>
      by_cases equal : x = y
      · subst equal
        simp [found]
      · simp [equal]
    | none =>
      rw [Index.find?_insert]
      by_cases equal : x = y
      · subst equal
        simp [found]
      · simp [equal]

/-- The handle of `x`, handed out now if no entry equals `x`. -/
def intern (t : Interner table α) (x : α) : Handle table × Interner table α :=
  match t.find? x with
  | some h => (h, t)
  | none => (t.next, t.push x)

def entries (t : Interner table α) : List (Handle table × α) := t.items.entries

theorem find?_eq (t : Interner table α) (x : α) : t.find? x = t.items.find? x := t.agrees x

@[simp] theorem items_push (t : Interner table α) (x : α) : (t.push x).items = t.items.push x := rfl

end Interner

end Specializer
