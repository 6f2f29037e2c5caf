/-!
# Solids.CommandLine.Terminal

**Texts for a terminal.** Characters are set off by escape sequences. A text that does not
go to a terminal is freed of them, wherever in it they come from.

Main definitions:

* `Emphasis.apply` — a text that is set off;
* `Mode.step` — what one character does to the reader of a text, and whether it shows;
* `withoutSequences` — what of a text shows.

Design points:

* A sequence begins with the escape character. What follows decides its kind, and its kind
  where it ends. An escape character ends any sequence and begins the next one; the
  characters that cancel a sequence end it as well.
* Outside of sequences everything shows but control characters, of which only tabs, form
  feeds and the two line breaks do.
* These four show even inside of the short sequences. Plain text then follows, up to the
  next character that does not show, and there the sequence goes on.
-/

namespace Solids.Terminal

/-! ### Emphasis -/

/-- How a text is set off. -/
inductive Emphasis where
  /-- In bold face. -/
  | strong
  /-- In bold face and underlined. -/
  | heading
  deriving DecidableEq, Repr

namespace Emphasis

/-- The sequences that turn an emphasis on. -/
def opening : Emphasis → List Char
  | .strong => ['\x1b', '[', '1', 'm']
  | .heading => ['\x1b', '[', '1', 'm', '\x1b', '[', '4', 'm']

/-- The sequence that turns every emphasis off. -/
def closing : List Char := ['\x1b', '[', '0', 'm']

/-- A text that is set off. -/
def apply (e : Emphasis) (text : String) : String :=
  String.ofList (e.opening ++ text.toList ++ closing)

end Emphasis

/-! ### Characters -/

/-- A control character that shows: a tab, a form feed or a line break. -/
def isLayout (c : Char) : Bool := c = '\t' || c = '\n' || c = '\x0c' || c = '\r'

/-- A character that shows outside of sequences. -/
def shows (c : Char) : Bool := isLayout c || ('\x20' ≤ c && c != '\x7f')

/-- A character that ends every sequence and shows nothing. -/
def cancels (c : Char) : Bool := c = '\x18' || c = '\x1a'

/-- One of the bytes of a character is the one that ends a string. -/
def holdsTerminator (c : Char) : Bool := (String.singleton c).toUTF8.toList.contains 0x9C

/-! ### Sequences -/

/-- Where in an escape sequence a reader is. -/
inductive Sequence where
  /-- After the escape character. -/
  | escape
  /-- In an escape sequence that has marks. -/
  | marked
  /-- In a control sequence. -/
  | control
  /-- In a command of the operating system, such as a title. -/
  | system
  /-- At the beginning of a device control string. -/
  | device
  /-- In the numbers of a device control string. -/
  | deviceNumbers
  /-- In the marks of a device control string. -/
  | deviceMarks
  /-- In a string that never shows. -/
  | string
  deriving DecidableEq, Repr

namespace Sequence

/-- Characters for layout show inside of these sequences. -/
def isShort : Sequence → Bool
  | .escape | .marked | .control => true
  | _ => false

/-- Where a reader is after one more character. There is no answer if the character ends
the sequence. -/
def next (s : Sequence) (c : Char) : Option Sequence :=
  let isMark := '\x20' ≤ c && c ≤ '/'
  let isFinal := '@' ≤ c && c ≤ '~'
  match s with
  | .escape =>
    if c = '[' then some .control
    else if c = ']' then some .system
    else if c = 'P' then some .device
    else if c = 'X' || c = '^' || c = '_' then some .string
    else if isMark then some .marked
    else if '0' ≤ c && c ≤ '~' then none
    else some .escape
  | .marked => if '0' ≤ c && c ≤ '~' then none else some .marked
  | .control => if isFinal then none else some .control
  | .system => if c = '\x07' then none else some .system
  | .device =>
    if isMark then some .deviceMarks
    else if '0' ≤ c && c ≤ '?' then some .deviceNumbers
    else if isFinal then some .string
    else some .device
  | .deviceNumbers =>
    if isMark then some .deviceMarks
    else if '<' ≤ c && c ≤ '~' then some .string
    else some .deviceNumbers
  | .deviceMarks => if '0' ≤ c && c ≤ '~' then some .string else some .deviceMarks
  | .string => if holdsTerminator c then none else some .string

end Sequence

/-- What a reader takes the next character for. -/
inductive Mode where
  /-- For text. A sequence may have been left for it. -/
  | text (left : Option Sequence)
  /-- For a part of a sequence. -/
  | within (s : Sequence)
  deriving DecidableEq, Repr

/-- The mode after a character, and whether the character shows. -/
def Mode.step (mode : Mode) (c : Char) : Mode × Bool :=
  if c = '\x1b' then (.within .escape, false)
  else if cancels c then (.text none, false)
  else
    match mode with
    | .text left =>
      if shows c then (.text (if c ≤ '\x7f' then left else none), true)
      else (left.elim (.text none) .within, false)
    | .within s =>
      if s.isShort && isLayout c then (.text (some s), true)
      else ((s.next c).elim (.text none) .within, false)

/-- The characters that show. -/
def shown (mode : Mode) : List Char → List Char
  | [] => []
  | c :: rest =>
    let (next, visible) := mode.step c
    if visible then c :: shown next rest else shown next rest

/-- What of a text shows. -/
def withoutSequences (text : String) : String :=
  String.ofList (shown (.text none) text.toList)

/-- The number of characters of a text that show. -/
def width (text : String) : Nat := (withoutSequences text).length

end Solids.Terminal
