/-!
# Escapes in shown literals and in names

Shown strings are escaped by one pass per special character, backslashes first, so that no pass
touches what an earlier one has written.
-/

set_option autoImplicit false

namespace Specializer.Text

def replaceChar (c : Char) (text : List Char) (cs : List Char) : List Char :=
  cs.flatMap fun d => if d = c then text else [d]

/-- The characters that are escaped in a shown string, with the letter that stands for each, in the
order of the passes. -/
def specials : List (Char × Char) :=
  [('\\', '\\'), ('"', '"'), ('\n', 'n'), ('\r', 'r'), ('\t', 't'), ('\x00', '0')]

def escapeSpecials (cs : List Char) : List Char :=
  specials.foldl (fun acc special => replaceChar special.1 ['\\', special.2] acc) cs

def quoted (s : String) : String :=
  String.ofList ('"' :: escapeSpecials s.toList ++ ['"'])

/-- Lower-case hexadecimal digits, with zeros in front up to `width`. -/
def hex (width : Nat) (n : Nat) : String :=
  let digits := Nat.toDigits 16 n
  String.ofList (List.replicate (width - digits.length) '0' ++ digits)

/-- A byte as it stands between single quotes. -/
def byteChar (byte : Nat) : String :=
  match byte with
  | 10 => "\\n"
  | 13 => "\\r"
  | 9 => "\\t"
  | 0 => "\\0"
  | 92 => "\\\\"
  | 39 => "\\'"
  | 34 => "\\\""
  | _ => if 32 ≤ byte ∧ byte < 127 then (Char.ofNat byte).toString else "\\x" ++ hex 2 byte

end Specializer.Text
