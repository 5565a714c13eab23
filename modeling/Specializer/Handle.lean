import Specializer.Index
import Specializer.Outcome

/-!
# Handles and append-only tables

A handle is an index into a table, and the table it belongs to is part of its type. A table only
grows, so a handle that can be read once can be read for good. A handle carries no evidence that it
was ever handed out; reading one that was not is a fault.
-/

set_option autoImplicit false

namespace Specializer

inductive Table where
  | files | symbols | types | modules | exprs | instances | closures

structure Handle (table : Table) where
  index : Nat
  deriving DecidableEq

abbrev FileId := Handle .files
abbrev SymbolId := Handle .symbols
abbrev TypeId := Handle .types
abbrev ModuleId := Handle .modules
abbrev ExprId := Handle .exprs
abbrev InstanceId := Handle .instances
abbrev ClosureId := Handle .closures

def Handle.spelling {table : Table} (h : Handle table) : String :=
  "Id(" ++ toString h.index ++ ")"

instance {table : Table} : Digest (Handle table) := ⟨Handle.index⟩

structure Arena (table : Table) (α : Type) where
  items : Array α

namespace Arena

variable {table : Table} {α : Type}

def empty : Arena table α := ⟨#[]⟩

def size (a : Arena table α) : Nat := a.items.size

def get? (a : Arena table α) (h : Handle table) : Option α := a.items[h.index]?

def read (a : Arena table α) (h : Handle table) : Read α :=
  match a.get? h with
  | some x => .ok x
  | none => .error .unminted

def next (a : Arena table α) : Handle table := ⟨a.size⟩

def push (a : Arena table α) (x : α) : Arena table α := ⟨a.items.push x⟩

/-- Change the entry of a handle in place; nothing happens for one that was never handed out. -/
def modify (a : Arena table α) (h : Handle table) (f : α → α) : Arena table α :=
  ⟨a.items.modify h.index f⟩

def entries (a : Arena table α) : List (Handle table × α) :=
  a.items.toList.zipIdx.map fun entry => (⟨entry.2⟩, entry.1)

def toList (a : Arena table α) : List α := a.items.toList

/-- The earliest handle whose entry is `x`. -/
def find? [DecidableEq α] (a : Arena table α) (x : α) : Option (Handle table) :=
  (a.items.findIdx? fun y => decide (y = x)).map Handle.mk

@[simp] theorem size_empty : (empty : Arena table α).size = 0 := rfl

@[simp] theorem size_push (a : Arena table α) (x : α) : (a.push x).size = a.size + 1 := by
  simp [size, push]

@[simp] theorem get?_push_next (a : Arena table α) (x : α) : (a.push x).get? a.next = some x := by
  simp [get?, push, next, size]

theorem get?_push (a : Arena table α) (x : α) (h : Handle table) :
    (a.push x).get? h = if h = a.next then some x else a.get? h := by
  obtain ⟨index⟩ := h
  simp only [get?, push, next, size, Array.getElem?_push, Handle.mk.injEq]

theorem get?_push_of_lt (a : Arena table α) (x : α) {h : Handle table} (lt : h.index < a.size) :
    (a.push x).get? h = a.get? h := by
  have lt' : h.index < a.items.size := lt
  simp [get?, push, Array.getElem?_push, Nat.ne_of_lt lt']

theorem find?_push [DecidableEq α] (a : Arena table α) (x y : α) :
    (a.push x).find? y = (a.find? y).or (if x = y then some a.next else none) := by
  simp only [find?, push, next, size, Array.findIdx?_push]
  cases a.items.findIdx? fun z => decide (z = y) <;> by_cases h : x = y <;> simp [h]

theorem get?_eq_none_iff (a : Arena table α) (h : Handle table) :
    a.get? h = none ↔ a.size ≤ h.index := by
  simp [get?, size]

theorem read_eq_ok_iff (a : Arena table α) (h : Handle table) (x : α) :
    a.read h = .ok x ↔ a.get? h = some x := by
  unfold read
  cases a.get? h <;> simp

end Arena

end Specializer
