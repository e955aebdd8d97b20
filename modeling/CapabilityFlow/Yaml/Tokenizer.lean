import CapabilityFlow.Yaml.ScalarText
import CapabilityFlow.Yaml.Token

/-!
# Cutting YAML texts into tokens

`Token.ofChars?` reads all tokens of a text. A key of one line is recognised only at the colon
after it, so the place of each possible key is remembered for every open flow collection, and the
key token is put in there later.
-/

namespace CapabilityFlow.Yaml

/-- A place where a key of one line may have started. -/
structure PossibleKey where
  /-- Whether the block mapping cannot go on without it. -/
  required : Bool
  /-- How many tokens stand before it. -/
  place : Nat
  line : Nat
  index : Nat
  column : Nat

/-- The state between two tokens. -/
structure Lexing where
  cursor : Cursor
  tokens : Array Token
  /-- The indentation of the current block, and those of the blocks around it. -/
  indent : Int
  outer : List Int
  /-- The possible key of the block, below those of the open flow collections. -/
  keys : List (Option PossibleKey)
  /-- Whether a key may start here. -/
  keyAllowed : Bool

namespace Lexing

def start (cs : List Char) : Lexing :=
  ⟨.ofChars cs, #[], -1, [], [none], true⟩

/-- Whether a flow collection is open. -/
def inFlow (s : Lexing) : Bool :=
  s.keys.length > 1

def push (s : Lexing) (t : Token) : Lexing :=
  { s with tokens := s.tokens.push t }

/-- Puts a token in before others. -/
def insert (s : Lexing) (place : Nat) (t : Token) : Lexing :=
  { s with tokens := s.tokens.take place ++ #[t] ++ s.tokens.drop place }

def key? (s : Lexing) : Option PossibleKey :=
  s.keys.head?.join

def setKey (s : Lexing) (k : Option PossibleKey) : Lexing :=
  { s with keys := k :: s.keys.tail }

/-- Forgets the possible key; a required one must not be forgotten. -/
def dropKey (s : Lexing) : Option Lexing :=
  match s.key? with
  | some k => if k.required then none else some (s.setKey none)
  | none => some s

/-- Remembers the current place as that of a possible key. -/
def saveKey (s : Lexing) : Option Lexing :=
  if s.keyAllowed then do
    let s ← s.dropKey
    let c := s.cursor
    let required := !s.inFlow && s.indent = (c.column : Int)
    pure (s.setKey (some ⟨required, s.tokens.size, c.line, c.index, c.column⟩))
  else some s

/-- Forgets possible keys that cannot be keys any more: those of an earlier line, and those more
than 1024 characters back. -/
def dropStaleKeys (s : Lexing) : Option Lexing := do
  let keys ← s.keys.mapM fun
    | none => some none
    | some k =>
      if k.line < s.cursor.line || k.index + 1024 < s.cursor.index then
        (if k.required then none else some none)
      else some (some k)
  pure { s with keys }

/-- Opens a block at a column, if it is indented deeper; its token goes before others at `place`. -/
def openBlock (s : Lexing) (column place : Nat) (t : Token) : Lexing :=
  if !s.inFlow && s.indent < (column : Int) then
    { s.insert place t with indent := column, outer := s.indent :: s.outer }
  else s

/-- Closes the blocks that are indented deeper than a column. -/
def closeBlocks (s : Lexing) (column : Int) : Lexing :=
  if s.inFlow then s else go s.outer { s with outer := [] }
where
  go : List Int → Lexing → Lexing
    | [], s => s
    | i :: outer, s =>
      if s.indent > column then go outer { s.push .blockEnd with indent := i }
      else { s with outer := i :: outer }

/-- Skips blanks, comments and line breaks. A tab does not count as a blank where a key may
start. -/
def skipToToken (s : Lexing) : Nat → Lexing
  | 0 => s
  | fuel + 1 =>
    let c := s.cursor
    let c := if c.column = 0 && c.has 0 (Char.ofNat 0xFEFF) then c.next else c
    let tabs := s.inFlow || !s.keyAllowed
    let c := c.skipWhile fun x => x = ' ' || (tabs && x = '\t')
    let c := if c.has 0 '#' then c.skipWhile (!isBreak ·) else c
    match c.at? 0 with
    | some x =>
      if isBreak x then
        skipToToken { s with cursor := c.nextLine.2, keyAllowed := s.keyAllowed || !s.inFlow } fuel
      else { s with cursor := c }
    | none => { s with cursor := c }

/-! ## Tokens of one or more marks -/

/-- A mark of `n` characters as a token. -/
def mark (s : Lexing) (n : Nat) (t : Token) : Lexing :=
  { s.push t with cursor := s.cursor.advance n }

/-- The start or the end of a document. -/
def documentMark (s : Lexing) (t : Token) : Option Lexing := do
  let s ← (s.closeBlocks (-1)).dropKey
  pure { s.mark 3 t with keyAllowed := false }

def openFlow (s : Lexing) (t : Token) : Option Lexing := do
  let s ← s.saveKey
  pure { s.mark 1 t with keys := none :: s.keys, keyAllowed := true }

def closeFlow (s : Lexing) (t : Token) : Option Lexing := do
  let s ← s.dropKey
  let keys := if s.inFlow then s.keys.tail else s.keys
  pure { s.mark 1 t with keys, keyAllowed := false }

def flowEntry (s : Lexing) : Option Lexing := do
  let s ← s.dropKey
  pure { s.mark 1 .flowEntry with keyAllowed := true }

def blockEntry (s : Lexing) : Option Lexing := do
  if !s.inFlow && !s.keyAllowed then none
  let s ← (s.openBlock s.cursor.column s.tokens.size .blockSequenceStart).dropKey
  pure { s.mark 1 .blockEntry with keyAllowed := true }

def key (s : Lexing) : Option Lexing := do
  if !s.inFlow && !s.keyAllowed then none
  let s ← (s.openBlock s.cursor.column s.tokens.size .blockMappingStart).dropKey
  pure { s.mark 1 .key with keyAllowed := !s.inFlow }

/-- The colon after a key: after a key of one line, its token is put in now. -/
def value (s : Lexing) : Option Lexing :=
  match s.key? with
  | some k =>
    let s := (s.insert k.place .key).openBlock k.column k.place .blockMappingStart
    some { (s.setKey none).mark 1 .value with keyAllowed := false }
  | none =>
    if !s.inFlow && !s.keyAllowed then none
    else
      let s := s.openBlock s.cursor.column s.tokens.size .blockMappingStart
      some { s.mark 1 .value with keyAllowed := !s.inFlow }

/-! ## Names and tags -/

/-- An anchor or an alias. -/
def anchor (s : Lexing) (make : String → Token) : Option Lexing := do
  let s ← s.saveKey
  let c := s.cursor.next
  let name := c.rest.takeWhile isNameChar
  let c := c.advance name.length
  let ended := c.separates 0 ||
    match c.at? 0 with
    | some x => "?:,]\x7d%@`".toList.contains x
    | none => true
  if name.isEmpty || !ended then none
  else pure { s.push (make (String.ofList name)) with cursor := c, keyAllowed := false }

/-- The handle at the start of a tag, and whether it ends with an exclamation mark. -/
def tagHandle (c : Cursor) : Option (List Char × Cursor) :=
  if c.has 0 '!' then
    let name := c.next.rest.takeWhile isNameChar
    let c := c.advance (name.length + 1)
    if c.has 0 '!' then some ('!' :: name ++ ['!'], c.next) else some ('!' :: name, c)
  else none

/-- The characters of tags, apart from escapes. -/
def isTagChar (verbatim : Bool) (c : Char) : Bool :=
  isNameChar c || ";/?:@&=+$.!~*'()".toList.contains c || (verbatim && ",[]".toList.contains c)

/-- The byte that two hexadecimal digits after a percent sign write. -/
def escapedByte? (c : Cursor) : Option UInt8 := do
  if !c.has 0 '%' then none
  let high ← (c.at? 1).bind hexValue?
  let low ← (c.at? 2).bind hexValue?
  pure (UInt8.ofNat (16 * high + low))

/-- The length of a character in UTF-8, by its first byte. -/
def utf8Length (b : UInt8) : Nat :=
  if b < 0x80 then 1
  else if b &&& 0xE0 = 0xC0 then 2
  else if b &&& 0xF0 = 0xE0 then 3
  else if b &&& 0xF8 = 0xF0 then 4
  else 0

/-- The character that escaped bytes write, and how many there are. -/
def escapedChar? (c : Cursor) : Option (Char × Nat) := do
  let first ← escapedByte? c
  let n := utf8Length first
  if n = 0 then none
  let more ← (List.range (n - 1)).mapM fun i => escapedByte? (c.advance (3 * (i + 1)))
  if more.any fun b => b &&& 0xC0 ≠ 0x80 then none
  let s ← String.fromUTF8? ⟨(first :: more).toArray⟩
  s.toList.head?.map (·, n)

/-- The rest of a tag. -/
def tagText (verbatim : Bool) : Nat → Cursor → List Char → Option (List Char × Cursor)
  | 0, _, _ => none
  | fuel + 1, c, acc =>
    match c.at? 0 with
    | none => some (acc, c)
    | some x =>
      if x = '%' then
        match escapedChar? c with
        | none => none
        | some (e, n) => tagText verbatim fuel (c.advance (3 * n)) (acc ++ [e])
      else if isTagChar verbatim x then tagText verbatim fuel c.next (acc ++ [x])
      else some (acc, c)

/-- A tag: between angle brackets as it is, or after a handle. -/
def tag (s : Lexing) : Option Lexing := do
  let s ← s.saveKey
  let c := s.cursor
  let fuel := c.rest.length + 1
  let (t, c) ←
    if c.has 1 '<' then do
      let (rest, c) ← tagText true fuel (c.advance 2) []
      if rest.isEmpty || !c.has 0 '>' then none
      else pure (Token.tag "" (String.ofList rest), c.next)
    else do
      let (handle, c) ← tagHandle c
      if handle.length > 1 && handle.getLast? = some '!' then
        let (rest, c) ← tagText false fuel c []
        if rest.isEmpty then none
        else pure (Token.tag (String.ofList handle) (String.ofList rest), c)
      else
        let (rest, c) ← tagText false fuel c handle.tail
        if rest.isEmpty then pure (Token.tag "" "!", c)
        else pure (Token.tag "!" (String.ofList rest), c)
  if c.separates 0 || (s.inFlow && c.has 0 ',') then
    pure { s.push t with cursor := c, keyAllowed := false }
  else none

/-! ## Directives -/

/-- A number of at most nine digits. -/
def versionNumber (c : Cursor) : Option (Nat × Cursor) :=
  let digits := c.rest.takeWhile Char.isDigit
  if digits.isEmpty || digits.length > 9 then none
  else some (digits.foldl (fun n d => 10 * n + (d.toNat - '0'.toNat)) 0, c.advance digits.length)

def versionDirective (c : Cursor) : Option (Token × Cursor) := do
  let (major, c) ← versionNumber (c.skipWhile isSpace)
  if !c.has 0 '.' then none
  let (minor, c) ← versionNumber c.next
  pure (.versionDirective major minor, c)

def tagDirective (c : Cursor) : Option (Token × Cursor) := do
  let (handle, c) ← tagHandle (c.skipWhile isSpace)
  if handle.length > 1 && handle.getLast? ≠ some '!' then none
  match c.at? 0 with
  | some x => if !isSpace x then none
  | none => none
  let c := c.skipWhile isSpace
  let (lead, c) ← tagText true (c.rest.length + 1) c []
  if lead.isEmpty || !c.separates 0 then none
  else pure (.tagDirective (String.ofList handle) (String.ofList lead), c)

/-- A directive with its line. -/
def directive (s : Lexing) : Option Lexing := do
  let s ← (s.closeBlocks (-1)).dropKey
  let c := s.cursor.next
  let name := c.rest.takeWhile isNameChar
  let c := c.advance name.length
  if !c.separates 0 then none
  let (t, c) ←
    if name = "YAML".toList then versionDirective c
    else if name = "TAG".toList then tagDirective c
    else none
  let c := c.skipComment
  if c.endsLine 0 then pure { s.push t with cursor := c.nextLine.2, keyAllowed := false } else none

/-! ## Scalars -/

def blockScalar (s : Lexing) (style : Style) : Option Lexing := do
  let s ← s.dropKey
  let (text, c) ← blockText (style = .literal) s.indent s.cursor.next
  pure { s.push (.scalar style text) with cursor := c, keyAllowed := true }

def quotedScalar (s : Lexing) (style : Style) : Option Lexing := do
  let s ← s.saveKey
  let c := s.cursor.next
  let (text, c) ← quotedText (style = .singleQuoted) (c.rest.length + 1) c .empty []
  pure { s.push (.scalar style text) with cursor := c, keyAllowed := false }

def plainScalar (s : Lexing) : Option Lexing := do
  let s ← s.saveKey
  let c := s.cursor
  let (text, c, ended) ← plainText s.inFlow (s.indent + 1) (c.rest.length + 1) c .empty []
  pure { s.push (.scalar .plain text) with cursor := c, keyAllowed := ended }

/-- The characters that do not start plain scalars. -/
def isIndicator (c : Char) : Bool :=
  "-?:,[]\x7b\x7d#&*!|>'\"%@`".toList.contains c

/-- Whether a plain scalar starts here: a hyphen does before anything but a blank, and outside
flow collections a question mark or a colon before anything but a separation. -/
def startsPlain (inFlow : Bool) (c : Cursor) (x : Char) : Bool :=
  (!isIndicator x && !isSpace x && !isBreak x) ||
    (x = '-' && !(c.has 1 ' ' || c.has 1 '\t')) ||
    (!inFlow && (x = '?' || x = ':') && !c.separates 1)

/-! ## The text -/

/-- Reads one token that starts with a given character. -/
def token (s : Lexing) (x : Char) : Option Lexing :=
  let c := s.cursor
  if c.column = 0 && x = '%' then s.directive
  else if c.atDocumentMark then s.documentMark (if x = '-' then .documentStart else .documentEnd)
  else if x = '[' then s.openFlow .flowSequenceStart
  else if x = '\x7b' then s.openFlow .flowMappingStart
  else if x = ']' then s.closeFlow .flowSequenceEnd
  else if x = '\x7d' then s.closeFlow .flowMappingEnd
  else if x = ',' then s.flowEntry
  else if x = '-' && c.separates 1 then s.blockEntry
  else if x = '?' && (s.inFlow || c.separates 1) then s.key
  else if x = ':' && (s.inFlow || c.separates 1) then s.value
  else if x = '*' then s.anchor .aliasOf
  else if x = '&' then s.anchor .anchor
  else if x = '!' then s.tag
  else if x = '|' && !s.inFlow then s.blockScalar .literal
  else if x = '>' && !s.inFlow then s.blockScalar .folded
  else if x = '\'' then s.quotedScalar .singleQuoted
  else if x = '"' then s.quotedScalar .doubleQuoted
  else if startsPlain s.inFlow c x then s.plainScalar
  else none

/-- Reads the tokens up to the end of the text; each takes one character at least. -/
def run (s : Lexing) : Nat → Option Lexing
  | 0 => none
  | fuel + 1 => do
    let s ← (s.skipToToken (s.cursor.rest.length + 1)).dropStaleKeys
    let s := s.closeBlocks s.cursor.column
    match s.cursor.at? 0 with
    | none => (s.closeBlocks (-1)).dropKey
    | some x => (← s.token x).run fuel

end Lexing

/-- The tokens of a text; a byte order mark at its start is no part of it. -/
def Token.ofChars? (cs : List Char) : Option (List Token) :=
  let cs := match cs with
    | c :: r => if c.toNat = 0xFEFF then r else c :: r
    | [] => []
  if cs.all isAllowed then ((Lexing.start cs).run (cs.length + 1)).map (·.tokens.toList) else none

end CapabilityFlow.Yaml
