import Specializer.Toml.Scalar

/-!
# Quoted strings and keys

Basic strings have escapes and literal strings have none; both come in a form of one line and in one
of several lines. In the longer forms a newline right behind the opening is dropped, and one or two
quotes may stand inside or right before the closing.
-/

set_option autoImplicit false

namespace Specializer.Toml

/-- Characters that may stand in a comment or, apart from quotes and backslashes, in a string. -/
def isTextChar (c : Char) : Bool := c == '\t' || (decide (32 ≤ c.toNat) && c.toNat != 127)

/-- A newline, which may have a carriage return in front, and what follows it. -/
def newline : List Char → Option (List Char)
  | '\n' :: rest => some rest
  | '\r' :: '\n' :: rest => some rest
  | _ => none

def isBlank (c : Char) : Bool := c == ' ' || c == '\t'

def skipBlanks (cs : List Char) : List Char := cs.dropWhile isBlank

def codePoint (count : Nat) (cs : List Char) : Option (Char × List Char) :=
  let digits := cs.take count
  let n := numeral 16 digits
  if digits.length = count ∧ digits.all isHexadecimal ∧ n.isValidChar then
    some (Char.ofNat n, cs.drop count)
  else none

def escaped : List Char → Option (Char × List Char)
  | [] => none
  | c :: rest =>
      match c with
      | 'b' => some ('\x08', rest)
      | 't' => some ('\t', rest)
      | 'n' => some ('\n', rest)
      | 'f' => some ('\x0c', rest)
      | 'r' => some ('\r', rest)
      | '"' => some ('"', rest)
      | '\\' => some ('\\', rest)
      | 'u' => codePoint 4 rest
      | 'U' => codePoint 8 rest
      | _ => none

/-- The body of a basic string of one line as it is written, and what follows its closing quote. -/
def basicBody : List Char → Option (List Char × List Char)
  | [] => none
  | '"' :: rest => some ([], rest)
  | '\\' :: c :: rest => (basicBody rest).map fun found => ('\\' :: c :: found.1, found.2)
  | c :: rest =>
      if isTextChar c then (basicBody rest).map fun found => (c :: found.1, found.2) else none

/-- The text that a body with escapes stands for. -/
def unescapeWithin : Nat → List Char → Option (List Char)
  | _, [] => some []
  | 0, _ :: _ => none
  | fuel + 1, c :: rest =>
      if c = '\\' then do
        let (d, rest) ← escaped rest
        return d :: (← unescapeWithin fuel rest)
      else do
        return c :: (← unescapeWithin fuel rest)

def basic (cs : List Char) : Option (List Char × List Char) := do
  let (body, rest) ← basicBody cs
  return (← unescapeWithin body.length body, rest)

def literal (cs : List Char) : Option (List Char × List Char) :=
  let text := cs.takeWhile fun c => isTextChar c && c != '\''
  match cs.dropWhile fun c => isTextChar c && c != '\'' with
  | '\'' :: rest => some (text, rest)
  | _ => none

/-- Blanks and newlines behind a backslash at the end of a line; there has to be a newline. -/
def lineContinuation (cs : List Char) : Option (List Char) := do
  let rest ← newline (skipBlanks cs)
  -- a carriage return belongs to the gap only in front of a newline
  skipGaps rest.length rest
where
  skipGaps : Nat → List Char → Option (List Char)
    | 0, cs => some cs
    | fuel + 1, cs =>
        match newline (skipBlanks cs) with
        | some rest => skipGaps fuel rest
        | none => some (skipBlanks cs)

/-- The rest of a string of several lines between triple quotes. -/
def multilineWithin (quote : Char) (escapes : Bool) :
    Nat → List Char → Option (List Char × List Char)
  | 0, _ => none
  | _ + 1, [] => none
  | fuel + 1, c :: rest =>
      if c = quote then
        let run := (c :: rest).takeWhile fun d => d == quote
        if run.length < 3 then do
          let (text, rest) ← multilineWithin quote escapes fuel ((c :: rest).drop run.length)
          return (run ++ text, rest)
        else
          let closing := min run.length 5
          some (List.replicate (closing - 3) quote, (c :: rest).drop closing)
      else if c = '\\' ∧ escapes then
        match lineContinuation rest with
        | some rest => multilineWithin quote escapes fuel rest
        | none => do
            let (d, rest) ← escaped rest
            let (text, rest) ← multilineWithin quote escapes fuel rest
            return (d :: text, rest)
      else match newline (c :: rest) with
        | some rest => do
            let (text, rest) ← multilineWithin quote escapes fuel rest
            return ('\n' :: text, rest)
        | none =>
            if isTextChar c then do
              let (text, rest) ← multilineWithin quote escapes fuel rest
              return (c :: text, rest)
            else none

def multiline (quote : Char) (escapes : Bool) (cs : List Char) : Option (List Char × List Char) :=
  let body := (newline cs).getD cs
  multilineWithin quote escapes (body.length + 1) body

def quotedString : List Char → Option (List Char × List Char)
  | '"' :: '"' :: '"' :: rest => multiline '"' true rest
  | '"' :: rest => basic rest
  | '\'' :: '\'' :: '\'' :: rest => multiline '\'' false rest
  | '\'' :: rest => literal rest
  | _ => none

def isBareChar (c : Char) : Bool := c.isAlphanum || c == '-' || c == '_'

def keyPart : List Char → Option (String × List Char)
  | '"' :: rest => (basic rest).map fun found => (String.ofList found.1, found.2)
  | '\'' :: rest => (literal rest).map fun found => (String.ofList found.1, found.2)
  | cs =>
      let part := cs.takeWhile isBareChar
      if part.isEmpty then none else some (String.ofList part, cs.dropWhile isBareChar)

/-- The greatest number of parts of a key, and of values inside one another, is one less. -/
def maxNesting : Nat := 80

/-- The parts of a key, with blanks around dots. -/
def keyWithin : Nat → List Char → Option (List String × List Char)
  | 0, _ => none
  | fuel + 1, cs => do
      let (part, rest) ← keyPart (skipBlanks cs)
      match skipBlanks rest with
      | '.' :: rest =>
          let (parts, rest) ← keyWithin fuel rest
          return (part :: parts, rest)
      | rest => return ([part], rest)

def key (cs : List Char) : Option (List String × List Char) := keyWithin (maxNesting - 1) cs

end Specializer.Toml
