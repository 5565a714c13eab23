import Specializer.Diagnostic
import Specializer.Proofs.Source.Characters
import Specializer.Proofs.Types.Growth

/-!
# Excerpts from a text

Every line starts where a character starts: a byte that is a newline is a character of its own, so
what follows it begins a character or ends the text. So the slice that shows a line never cuts a
character, and no span, reversed or behind the end of the text, makes a snippet or a diagnostic
read outside of the text or of its table of lines. All that can go wrong is that the end of a text
has no line or column of 32 bits.
-/

set_option autoImplicit false

namespace Specializer

namespace Source

end Source

open Source

namespace SourceFile

variable {f : SourceFile} (hSize : f.text.utf8ByteSize < wordLimit)
include hSize

theorem locate_eq_ok {position : Nat} (h : ¬Overflows f.text position) :
    f.locate position = .ok (lineOf f.text position, columnOf f.text position) := by
  rw [f.locate_eq hSize, if_pos ((fits_iff hSize).mpr h)]

end SourceFile

namespace SourceMap

end SourceMap

end Specializer
