/-!
# Solids.Json.Nesting

**How deeply the brackets of a text are nested.** Brackets inside strings do not
count. The text need not be JSON: the depth is found before the text is read, in
one pass that knows strings and escapes and nothing else.
-/

namespace Solids.Json

/-- The pass over a text between two characters. -/
structure Nesting where
  /-- How many brackets are open. -/
  depth : Nat := 0
  /-- The most that were open at once. -/
  deepest : Nat := 0
  /-- Inside a string. -/
  inString : Bool := false
  /-- After a backslash in a string. -/
  escaped : Bool := false
  deriving DecidableEq, Repr

namespace Nesting

/-- The pass after one more character. -/
def step (n : Nesting) (c : Char) : Nesting :=
  if n.inString then
    if n.escaped then { n with escaped := false }
    else if c = '\\' then { n with escaped := true }
    else if c = '"' then { n with inString := false }
    else n
  else if c = '"' then { n with inString := true }
  else if c = '\x7b' ∨ c = '[' then
    { n with depth := n.depth + 1, deepest := max n.deepest (n.depth + 1) }
  else if c = '\x7d' ∨ c = ']' then { n with depth := n.depth - 1 }
  else n

/-- The pass after a text. -/
def ofText (text : List Char) : Nesting := text.foldl step {}

end Nesting

/-- The greatest depth of brackets in a text. -/
def bracketDepth (text : List Char) : Nat := (Nesting.ofText text).deepest

end Solids.Json
