import Solids.Json.Fault
import Solids.Json.NumberReader
/-!
# Solids.Json.Reader

**Reading JSON text.** The reader is a machine that takes one character after the
other. Its state is what it is in the middle of (`Mode`) and the containers that
are open around that, the innermost one first (`Frame`).

Main definitions:

* `State.step` — what one character does to a state;
* `readValue` — reads one value from the start of a text and gives back what
  follows it;
* `read` — reads a text that is one value and nothing else but white space.

Design points:

* The text is consumed character by character, so the loop of `readValue` ends by
  the length of the text and needs no other bound. The number of open containers
  is the length of the state's stack.
* A fault is found at a character or at the end of the text. A character that is
  merely looked at counts as read in the place of the fault; it may be longer than
  the one byte that is counted.
* Where a key occurs twice in an object its last value counts.
-/

namespace Solids.Json

/-- A container that is open, with what has been read of it. -/
inductive Frame where
  /-- An array, its items in reverse. -/
  | array (items : List Json)
  /-- An object, and the last key read in it. -/
  | object (fields : List (String × Json)) (key : String)

/-- Where a value is needed. -/
inductive ValuePlace where
  /-- The text as a whole. -/
  | document
  /-- After the opening bracket of an array, which may also end. -/
  | firstItem
  /-- After a comma in an array. -/
  | nextItem
  /-- After a colon. -/
  | field

/-- What a string is for. -/
inductive StringRole where
  /-- A key of an object. -/
  | key
  /-- A value. -/
  | value

/-- What the reader is in the middle of. Characters of a string are in reverse. -/
inductive Mode where
  /-- Before a value. -/
  | value (place : ValuePlace)
  /-- After a value in a container. -/
  | ended
  /-- Before a key: the first one of its object, or a further one. -/
  | key (first : Bool)
  /-- After a key. -/
  | colon
  /-- Inside a word, with the rest of the word. -/
  | word (rest : List Char) (result : Json)
  /-- Inside a number. -/
  | number (state : NumberState)
  /-- Inside a string. -/
  | string (role : StringRole) (chars : List Char)
  /-- After a backslash. -/
  | escape (role : StringRole) (chars : List Char)
  /-- In the four bytes of an escaped code: how many are missing, and the code so
  far unless a byte was no digit. A first half of a pair may precede. -/
  | code (role : StringRole) (chars : List Char) (high : Option Nat) (missing : Nat)
    (code : Option Nat)
  /-- After the first half of a pair: the backslash of the second half is next. -/
  | pairBackslash (role : StringRole) (chars : List Char) (high : Nat)
  /-- After the first half of a pair and a backslash: the letter is next. -/
  | pairLetter (role : StringRole) (chars : List Char) (high : Nat)

/-- The reader between two characters. -/
structure State where
  /-- What it is in the middle of. -/
  mode : Mode
  /-- The open containers, the innermost one first. -/
  stack : List Frame

/-- What a character does to the reader. -/
inductive Outcome where
  /-- It is taken, and reading goes on. -/
  | next (state : State)
  /-- The whole value is complete. The character was its last one, or comes after
  it. -/
  | done (value : Json) (taken : Bool)
  /-- It is a fault, found when so many of the bytes from this character on are
  read. -/
  | fault (kind : FaultKind) (bytes : Nat)

/-- The white space of JSON. -/
def isBlank (c : Char) : Bool := c = ' ' ∨ c = '\n' ∨ c = '\t' ∨ c = '\r'

/-- The most containers that may be open at once. -/
def nestingLimit : Nat := 127

/-- The value of a hexadecimal digit. -/
def hexDigit? (c : Char) : Option Nat :=
  if '0' ≤ c ∧ c ≤ '9' then some (c.toNat - '0'.toNat)
  else if 'a' ≤ c ∧ c ≤ 'f' then some (c.toNat - 'a'.toNat + 10)
  else if 'A' ≤ c ∧ c ≤ 'F' then some (c.toNat - 'A'.toNat + 10)
  else none

/-- The character that a backslash and this letter stand for. -/
def unescape? (c : Char) : Option Char :=
  if c = '"' ∨ c = '\\' ∨ c = '/' then some c
  else if c = 'b' then some '\x08'
  else if c = 'f' then some '\x0c'
  else if c = 'n' then some '\n'
  else if c = 'r' then some '\r'
  else if c = 't' then some '\t'
  else none

/-- The character of a pair of surrogates. -/
def pairChar (high low : Nat) : Char :=
  Char.ofNat (0x10000 + (high - 0xD800) * 0x400 + (low - 0xDC00))

/-- A complete value inside the open containers: it becomes part of the innermost
one, or is the value of the text. -/
def deliver (value : Json) (taken : Bool) : List Frame → Outcome
  | [] => .done value taken
  | .array items :: rest => .next ⟨.ended, .array (value :: items) :: rest⟩
  | .object fields key :: rest => .next ⟨.ended, .object (insertField key value fields) key :: rest⟩

/-- The value of a container at its closing bracket. -/
def Frame.close : Frame → Json
  | .array items => .array items.reverse
  | .object fields _ => .object fields

/-- The end of a string. -/
def endString (role : StringRole) (chars : List Char) (stack : List Frame) : Outcome :=
  let text := String.ofList chars.reverse
  match role, stack with
  | .key, .object fields _ :: rest => .next ⟨.colon, .object fields text :: rest⟩
  | _, _ => deliver (.string text) true stack

/-- The four bytes of an escaped code are complete. -/
def endCode (role : StringRole) (chars : List Char) (high : Option Nat) (code : Nat)
    (bytes : Nat) (stack : List Frame) : Outcome :=
  let low := decide (0xDC00 ≤ code) && decide (code ≤ 0xDFFF)
  match high with
  | some high =>
    if low then .next ⟨.string role (pairChar high code :: chars), stack⟩
    else .fault .loneSurrogate bytes
  | none =>
    if low then .fault .loneSurrogate bytes
    else if 0xD800 ≤ code ∧ code ≤ 0xDBFF then .next ⟨.pairBackslash role chars code, stack⟩
    else .next ⟨.string role (Char.ofNat code :: chars), stack⟩

/-- Opens a container, unless too many are open. -/
def openContainer (mode : Mode) (frame : Frame) (stack : List Frame) : Outcome :=
  if stack.length < nestingLimit then .next ⟨mode, frame :: stack⟩ else .fault .recursionLimit 1

/-- The first character of a value. -/
def beginValue (c : Char) (stack : List Frame) : Outcome :=
  if c = '"' then .next ⟨.string .value [], stack⟩
  else if c = '[' then openContainer (.value .firstItem) (.array []) stack
  else if c = '\x7b' then openContainer (.key true) (.object [] "") stack
  else if c = 'n' then .next ⟨.word ['u', 'l', 'l'] .null, stack⟩
  else if c = 't' then .next ⟨.word ['r', 'u', 'e'] (.bool true), stack⟩
  else if c = 'f' then .next ⟨.word ['a', 'l', 's', 'e'] (.bool false), stack⟩
  else
    match NumberState.begin? c with
    | some state => .next ⟨.number state, stack⟩
    | none => .fault .expectedValue 1

/-- A closing bracket of the innermost container. -/
def closeContainer : List Frame → Outcome
  | frame :: rest => deliver frame.close true rest
  | [] => .fault .expectedValue 1

/-- A character after a value in a container. -/
def afterValue (c : Char) (stack : List Frame) : Outcome :=
  if isBlank c then .next ⟨.ended, stack⟩
  else
    match stack with
    | .array _ :: _ =>
      if c = ',' then .next ⟨.value .nextItem, stack⟩
      else if c = ']' then closeContainer stack
      else .fault .expectedListComma 1
    | _ =>
      if c = ',' then .next ⟨.key false, stack⟩
      else if c = '\x7d' then closeContainer stack
      else .fault .expectedObjectComma 1

/-- The character after a number that has ended: it follows the number in its
container, or the number is the value of the text. -/
def afterNumber (number : Number) (c : Char) (stack : List Frame) : Outcome :=
  match deliver (.number number) false stack with
  | .next state => afterValue c state.stack
  | outcome => outcome

/-- What one character does to a state. -/
def State.step (s : State) (c : Char) : Outcome :=
  let stack := s.stack
  match s.mode with
  | .value place =>
    if isBlank c then .next s
    else if c = ']' then
      match place with
      | .firstItem => closeContainer stack
      | .nextItem => .fault .trailingComma 1
      | _ => .fault .expectedValue 1
    else beginValue c stack
  | .ended => afterValue c stack
  | .key first =>
    if isBlank c then .next s
    else if c = '"' then .next ⟨.string .key [], stack⟩
    else if c = '\x7d' then
      if first then closeContainer stack else .fault .trailingComma 1
    else .fault .keyMustBeString 1
  | .colon =>
    if isBlank c then .next s
    else if c = ':' then .next ⟨.value .field, stack⟩
    else .fault .expectedColon 1
  | .word [] result => deliver result false stack
  | .word (letter :: rest) result =>
    if c ≠ letter then .fault .expectedIdent 1
    else if rest.isEmpty then deliver result true stack
    else .next ⟨.word rest result, stack⟩
  | .number state =>
    match state.step c with
    | .next state => .next ⟨.number state, stack⟩
    | .invalid => .fault .invalidNumber 1
    | .tooLarge => .fault .numberOutOfRange 1
    | .ends =>
      match state.value? with
      | some n => afterNumber n c stack
      | none => .fault .numberOutOfRange 0
  | .string role chars =>
    if c = '"' then endString role chars stack
    else if c = '\\' then .next ⟨.escape role chars, stack⟩
    else if c.toNat < 0x20 then .fault .controlCharacter 1
    else .next ⟨.string role (c :: chars), stack⟩
  | .escape role chars =>
    if c = 'u' then .next ⟨.code role chars none 4 (some 0), stack⟩
    else
      match unescape? c with
      | some u => .next ⟨.string role (u :: chars), stack⟩
      | none => .fault .invalidEscape 1
  | .code role chars high missing code =>
    let code := do return (← code) * 16 + (← hexDigit? c)
    if c.utf8Size < missing then
      .next ⟨.code role chars high (missing - c.utf8Size) code, stack⟩
    else
      match code with
      | some code => endCode role chars high code missing stack
      | none => .fault .invalidEscape missing
  | .pairBackslash role chars high =>
    if c = '\\' then .next ⟨.pairLetter role chars high, stack⟩ else .fault .endOfHexEscape 1
  | .pairLetter role chars high =>
    if c = 'u' then .next ⟨.code role chars (some high) 4 (some 0), stack⟩
    else .fault .endOfHexEscape 1

/-- The fault of a text that ends after a value in a container. -/
def endInContainer : List Frame → FaultKind
  | .array _ :: _ => .endInList
  | _ => .endInObject

/-- What the end of the text makes of a state. Only a number is complete without a
character that ends it. -/
def State.finish (s : State) : Except FaultKind Json :=
  match s.mode with
  | .value .firstItem => .error .endInList
  | .value _ => .error .endInValue
  | .ended => .error (endInContainer s.stack)
  | .key true => .error .endInObject
  | .key false => .error .endInValue
  | .colon => .error .endInObject
  | .word .. => .error .endInValue
  | .number state =>
    if !state.isComplete then .error .endInValue
    else
      match state.value?, s.stack with
      | some n, [] => .ok (.number n)
      | some _, stack => .error (endInContainer stack)
      | none, _ => .error .numberOutOfRange
  | _ => .error .endInString

/-- Reads on from a state. The answer is the value and the text after it. -/
def State.run : State → List Char → Except Fault (Json × List Char)
  | s, [] =>
    match s.finish with
    | .ok value => .ok (value, [])
    | .error kind => .error ⟨kind, 0⟩
  | s, c :: rest =>
    match s.step c with
    | .next state => state.run rest
    | .done value true => .ok (value, rest)
    | .done value false => .ok (value, c :: rest)
    | .fault kind bytes => .error ⟨kind, byteLength (c :: rest) - bytes⟩

/-- The reader before a text. -/
def State.initial : State := ⟨.value .document, []⟩

/-- Reads one value from the start of a text. -/
def readValue (text : List Char) : Except Fault (Json × List Char) := State.initial.run text

/-- There must be nothing but white space in the rest of a text. -/
def requireBlank : List Char → Except Fault Unit
  | [] => .ok ()
  | c :: rest =>
    if isBlank c then requireBlank rest
    else .error ⟨.trailingCharacters, byteLength (c :: rest) - 1⟩

/-- Reads a text that is one value. -/
def read (text : List Char) : Except Fault Json := do
  let (value, rest) ← readValue text
  requireBlank rest
  return value

end Solids.Json
