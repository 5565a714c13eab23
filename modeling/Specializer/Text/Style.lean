/-!
# Terminal styles

A styled text is opened by the codes of its style and closed by a reset. A reset inside the text
would end the style early, so the style is opened again behind it. Without colours a style changes
nothing.
-/

set_option autoImplicit false

namespace Specializer.Text

inductive Color where
  | red | yellow | blue | cyan | brightGreen | brightYellow

def Color.code : Color → String
  | .red => "31"
  | .yellow => "33"
  | .blue => "34"
  | .cyan => "36"
  | .brightGreen => "92"
  | .brightYellow => "93"

structure Style where
  bold : Bool
  color : Option Color

namespace Style

def boldOf (color : Color) : Style := ⟨true, some color⟩

def opening (s : Style) : List Char :=
  let codes := (if s.bold then ["1"] else []) ++ (s.color.map Color.code).toList
  ("\x1b[" ++ ";".intercalate codes ++ "m").toList

def reset : List Char := ['\x1b', '[', '0', 'm']

/-- Open the style again behind every reset. -/
def reopen (opening : List Char) : List Char → List Char
  | '\x1b' :: '[' :: '0' :: 'm' :: rest => reset ++ opening ++ reopen opening rest
  | c :: rest => c :: reopen opening rest
  | [] => []

def paint (s : Style) (colors : Bool) (text : String) : String :=
  if colors then String.ofList (s.opening ++ reopen s.opening text.toList ++ reset) else text

end Style

def padRight (width : Nat) (text : String) : String :=
  text ++ String.ofList (List.replicate (width - text.length) ' ')

end Specializer.Text
