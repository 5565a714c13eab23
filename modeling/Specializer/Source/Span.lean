import Specializer.Handle

/-!
# Spans

Byte ranges in source files. A checked span does not end before it starts; the length of one that
does is zero.
-/

set_option autoImplicit false

namespace Specializer

structure Span where
  file : FileId
  start : Nat
  stop : Nat
  deriving DecidableEq

namespace Span

def origin : Span := ⟨⟨0⟩, 0, 0⟩

/-- The file of what has no source text. -/
def noFile : FileId := ⟨4294967295⟩

def synthetic : Span := ⟨noFile, 0, 0⟩

def checked (file : FileId) (start stop : Nat) : Read Span :=
  if start ≤ stop then .ok ⟨file, start, stop⟩ else .error .reversed

def length (s : Span) : Nat := s.stop - s.start

def isEmpty (s : Span) : Bool := s.length == 0

end Span

def fileText (id : FileId) : String := "(file id: " ++ toString id.index ++ ")"

def Span.text (s : Span) : String :=
  "(span start: " ++ toString s.start ++ " end: " ++ toString s.stop ++
    " file: " ++ fileText s.file ++ ")"

end Specializer
