/-!
# Solids.Json.Fault

**What is wrong with a text that is not JSON, and where.**

A fault is found while reading a text from left to right, and is recorded with the
number of bytes that are left after it. Its place is counted in bytes, too: the
line is one more than the number of line breaks before it, the column the number
of bytes since the last one.
-/

namespace Solids.Json

/-- What is wrong with a text that is not JSON. -/
inductive FaultKind where
  /-- The text ends where a value, or the rest of one, is needed. -/
  | endInValue
  /-- The text ends inside an array. -/
  | endInList
  /-- The text ends inside an object. -/
  | endInObject
  /-- The text ends inside a string. -/
  | endInString
  /-- No value begins like this. -/
  | expectedValue
  /-- A word other than `null`, `true` and `false`. -/
  | expectedIdent
  /-- A number that is not written as JSON writes numbers. -/
  | invalidNumber
  /-- A number too large for a double. -/
  | numberOutOfRange
  /-- A string with an unescaped control character. -/
  | controlCharacter
  /-- An escape that JSON does not have. -/
  | invalidEscape
  /-- Half of a surrogate pair without its other half. -/
  | loneSurrogate
  /-- A first half of a surrogate pair that no escape follows. -/
  | endOfHexEscape
  /-- More nested brackets than are read. -/
  | recursionLimit
  /-- Something other than a comma or the end after an item of an array. -/
  | expectedListComma
  /-- Something other than a comma or the end after a field of an object. -/
  | expectedObjectComma
  /-- Something other than a colon after a key. -/
  | expectedColon
  /-- A key that is not a string. -/
  | keyMustBeString
  /-- A comma with nothing after it. -/
  | trailingComma
  /-- Something after the value. -/
  | trailingCharacters
  deriving DecidableEq, Repr

/-- The text of a kind of fault. -/
def FaultKind.text : FaultKind → String
  | .endInValue => "EOF while parsing a value"
  | .endInList => "EOF while parsing a list"
  | .endInObject => "EOF while parsing an object"
  | .endInString => "EOF while parsing a string"
  | .expectedValue => "expected value"
  | .expectedIdent => "expected ident"
  | .invalidNumber => "invalid number"
  | .numberOutOfRange => "number out of range"
  | .controlCharacter => "control character (\\u0000-\\u001F) found while parsing a string"
  | .invalidEscape => "invalid escape"
  | .loneSurrogate => "lone leading surrogate in hex escape"
  | .endOfHexEscape => "unexpected end of hex escape"
  | .recursionLimit => "recursion limit exceeded"
  | .expectedListComma => "expected `,` or `]`"
  | .expectedObjectComma => "expected `,` or `\x7d`"
  | .expectedColon => "expected `:`"
  | .keyMustBeString => "key must be a string"
  | .trailingComma => "trailing comma"
  | .trailingCharacters => "trailing characters"

/-- The number of bytes of a text. -/
def byteLength (text : List Char) : Nat := text.foldl (fun n c => n + c.utf8Size) 0

/-- A fault, with the number of bytes of the text after it. -/
structure Fault where
  /-- What is wrong. -/
  kind : FaultKind
  /-- How many bytes are left. -/
  left : Nat
  deriving DecidableEq, Repr

/-- A place in a text. -/
structure Place where
  /-- The line, counted from one. -/
  line : Nat := 1
  /-- The number of bytes before it in the line. -/
  column : Nat := 0
  deriving DecidableEq, Repr

/-- The place `bytes` bytes further on in a text. -/
def Place.advance (p : Place) : List Char → Nat → Place
  | [], _ => p
  | c :: rest, bytes =>
    if bytes < c.utf8Size then { p with column := p.column + bytes }
    else
      let next : Place := if c = '\n' then ⟨p.line + 1, 0⟩
        else { p with column := p.column + c.utf8Size }
      next.advance rest (bytes - c.utf8Size)

/-- The text of a fault in a text. -/
def Fault.text (f : Fault) (text : List Char) : String :=
  let place := Place.advance {} text (byteLength text - f.left)
  f.kind.text ++ " at line " ++ toString place.line ++ " column " ++ toString place.column

end Solids.Json
