import Specializer.Interner

/-!
# Symbols

Names are interned: one name has one symbol, and a symbol keeps its name.
-/

set_option autoImplicit false

namespace Specializer

structure SymbolTable where
  names : Interner .symbols String

namespace SymbolTable

def empty : SymbolTable := ⟨.empty⟩

def size (t : SymbolTable) : Nat := t.names.size

def intern (t : SymbolTable) (name : String) : SymbolId × SymbolTable :=
  let (id, names) := t.names.intern name
  (id, ⟨names⟩)

def name (t : SymbolTable) (id : SymbolId) : Read String := t.names.read id

end SymbolTable

end Specializer
