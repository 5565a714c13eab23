/-!
# Queues

First in, first out. What was pushed last is kept in reverse and turned around when the front is
used up, so that no operation walks over the whole queue each time.
-/

set_option autoImplicit false

namespace Specializer

structure Queue (α : Type) where
  front : List α
  back : List α

namespace Queue

variable {α : Type}

def empty : Queue α := ⟨[], []⟩

/-- The elements in the order in which they leave. -/
def toList (q : Queue α) : List α := q.front ++ q.back.reverse

def push (q : Queue α) (x : α) : Queue α := ⟨q.front, x :: q.back⟩

def pop? (q : Queue α) : Option (α × Queue α) :=
  match q.front with
  | x :: rest => some (x, ⟨rest, q.back⟩)
  | [] =>
      match q.back.reverse with
      | x :: rest => some (x, ⟨rest, []⟩)
      | [] => none

def size (q : Queue α) : Nat := q.front.length + q.back.length

@[simp] theorem toList_empty : (empty : Queue α).toList = [] := rfl

@[simp] theorem toList_push (q : Queue α) (x : α) : (q.push x).toList = q.toList ++ [x] := by
  simp [toList, push]

@[simp] theorem length_toList (q : Queue α) : q.toList.length = q.size := by
  simp [toList, size]

@[simp] theorem size_empty : (empty : Queue α).size = 0 := rfl

@[simp] theorem size_push (q : Queue α) (x : α) : (q.push x).size = q.size + 1 := rfl

theorem pop?_eq_none_iff (q : Queue α) : q.pop? = none ↔ q.toList = [] := by
  obtain ⟨front, back⟩ := q
  cases front with
  | cons x rest => simp [pop?, toList]
  | nil => cases h : back.reverse <;> simp [pop?, toList, h]

theorem toList_of_pop? {q rest : Queue α} {x : α} (popped : q.pop? = some (x, rest)) :
    q.toList = x :: rest.toList := by
  obtain ⟨front, back⟩ := q
  cases front with
  | cons y others =>
    obtain ⟨rfl, rfl⟩ : y = x ∧ ⟨others, back⟩ = rest := by simpa [pop?] using popped
    rfl
  | nil =>
    cases h : back.reverse with
    | nil => simp [pop?, h] at popped
    | cons y others =>
      obtain ⟨rfl, rfl⟩ : y = x ∧ ⟨others, []⟩ = rest := by simpa [pop?, h] using popped
      simp [toList, h]

end Queue

end Specializer
