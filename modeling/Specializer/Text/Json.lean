import Specializer.Text.Escape

/-!
# Indented JSON

Values are written with two spaces of indentation per level and object fields in the order given.
Only quotes, backslashes and control characters are escaped.
-/

set_option autoImplicit false

namespace Specializer.Text

inductive Json where
  | null
  | number (value : Nat)
  | string (value : String)
  | array (items : List Json)
  | object (fields : List (String × Json))

namespace Json

def escapeChar (c : Char) : List Char :=
  match c with
  | '"' => ['\\', '"']
  | '\\' => ['\\', '\\']
  | '\x08' => ['\\', 'b']
  | '\x0c' => ['\\', 'f']
  | '\n' => ['\\', 'n']
  | '\r' => ['\\', 'r']
  | '\t' => ['\\', 't']
  | c => if c.toNat < 32 then ('\\' :: 'u' :: (hex 4 c.toNat).toList) else [c]

def quote (s : String) : String := String.ofList ('"' :: s.toList.flatMap escapeChar ++ ['"'])

def newline (indent : Nat) : String := "\n" ++ String.ofList (List.replicate (2 * indent) ' ')

/-- Items on lines of their own between two brackets, which stand together if there is no item. -/
def bracketed (opening closing : String) (indent : Nat) (items : List String) : String :=
  if items.isEmpty then opening ++ closing
  else opening ++ newline (indent + 1) ++ ("," ++ newline (indent + 1)).intercalate items ++
    newline indent ++ closing

mutual

def render (indent : Nat) : Json → String
  | .null => "null"
  | .number value => toString value
  | .string value => quote value
  | .array items => bracketed "[" "]" indent (renderItems (indent + 1) items)
  | .object fields => bracketed "\x7b" "\x7d" indent (renderFields (indent + 1) fields)

def renderItems (indent : Nat) : List Json → List String
  | [] => []
  | item :: rest => render indent item :: renderItems indent rest

def renderFields (indent : Nat) : List (String × Json) → List String
  | [] => []
  | (key, value) :: rest => (quote key ++ ": " ++ render indent value) :: renderFields indent rest

end

end Json

end Specializer.Text
