/-!
# Cursors

A place in a YAML text: what follows it, and where it is. Lines and columns count from zero.
-/

namespace CapabilityFlow.Yaml

/-- The characters that end a line. -/
def isBreak (c : Char) : Bool :=
  c = '\n' || c = '\r' || c.toNat = 0x85 || c.toNat = 0x2028 || c.toNat = 0x2029

/-- The characters that separate tokens within a line. -/
def isSpace (c : Char) : Bool :=
  c = ' ' || c = '\t'

/-- The characters of names: of anchors, directives and tag handles. -/
def isNameChar (c : Char) : Bool :=
  c.isAlphanum || c = '_' || c = '-'

/-- The characters that may stand in a YAML text. -/
def isAllowed (c : Char) : Bool :=
  let n := c.toNat
  n = 9 || n = 10 || n = 13 || (0x20 ≤ n && n ≤ 0x7E) || n = 0x85 || (0xA0 ≤ n && n ≤ 0xD7FF) ||
  (0xE000 ≤ n && n ≤ 0xFFFD) || 0x10000 ≤ n

/-- A place in a text. -/
structure Cursor where
  rest : List Char
  index : Nat
  line : Nat
  column : Nat

namespace Cursor

/-- The start of a text. -/
def ofChars (cs : List Char) : Cursor := ⟨cs, 0, 0, 0⟩

/-- The character at a distance. -/
def at? (c : Cursor) (n : Nat) : Option Char :=
  c.rest[n]?

/-- Whether a given character stands at a distance. -/
def has (c : Cursor) (n : Nat) (x : Char) : Bool :=
  c.at? n = some x

/-- Whether a line or the text ends at a distance. -/
def endsLine (c : Cursor) (n : Nat) : Bool :=
  match c.at? n with
  | none => true
  | some x => isBreak x

/-- Whether a token is separated at a distance: by a blank, or by the end of a line or the text. -/
def separates (c : Cursor) (n : Nat) : Bool :=
  match c.at? n with
  | none => true
  | some x => isSpace x || isBreak x

/-- Past one character of the line. -/
def next (c : Cursor) : Cursor :=
  match c.rest with
  | [] => c
  | _ :: r => ⟨r, c.index + 1, c.line, c.column + 1⟩

/-- Past `n` characters of the line. -/
def advance (c : Cursor) : Nat → Cursor
  | 0 => c
  | n + 1 => c.next.advance n

/-- Past the characters of the line that satisfy a test. -/
def skipWhile (c : Cursor) (p : Char → Bool) : Cursor :=
  c.advance (c.rest.takeWhile p).length

/-- Past a line break, with the break as it is kept in scalars; a carriage return before a line
feed is one break with it. -/
def nextLine (c : Cursor) : List Char × Cursor :=
  match c.rest with
  | '\r' :: '\n' :: r => (['\n'], ⟨r, c.index + 2, c.line + 1, 0⟩)
  | x :: r =>
    if isBreak x then
      let kept := if x.toNat = 0x2028 || x.toNat = 0x2029 then x else '\n'
      ([kept], ⟨r, c.index + 1, c.line + 1, 0⟩)
    else ([], c)
  | [] => ([], c)

/-- Past blanks and a comment in the rest of the line. -/
def skipComment (c : Cursor) : Cursor :=
  let c := c.skipWhile isSpace
  if c.has 0 '#' then c.skipWhile (!isBreak ·) else c

/-- Whether a mark of three equal characters, for the start or the end of a document, stands at the
start of a line. -/
def atDocumentMark (c : Cursor) : Bool :=
  c.column = 0 && c.separates 3 &&
    ((c.has 0 '-' && c.has 1 '-' && c.has 2 '-') || (c.has 0 '.' && c.has 1 '.' && c.has 2 '.'))

end Cursor

end CapabilityFlow.Yaml
