import CapabilityFlow.Yaml.Cursor

/-!
# The texts of scalars

Reading the text of a scalar from the place where it starts: `plainText`, `quotedText` and
`blockText`. A scalar over several lines is folded: one line break becomes a space, and of several
the first is dropped.
-/

namespace CapabilityFlow.Yaml

/-- What stands between two parts of a scalar: blanks in a line, or line breaks. -/
structure Gap where
  blanks : List Char
  /-- Whether a line has ended, be it by an escaped break. -/
  broken : Bool
  first : List Char
  more : List Char

namespace Gap

def empty : Gap := ⟨[], false, [], []⟩

/-- After an escaped line break. -/
def escaped : Gap := ⟨[], true, [], []⟩

def isEmpty (g : Gap) : Bool :=
  g.blanks.isEmpty && !g.broken

/-- Adds a blank; one at the start of a line is indentation. -/
def addBlank (g : Gap) (c : Char) : Gap :=
  if g.broken then g else { g with blanks := g.blanks ++ [c] }

/-- Adds a line break. -/
def addBreak (g : Gap) (b : List Char) : Gap :=
  if g.broken then { g with more := g.more ++ b } else ⟨[], true, b, []⟩

/-- The text that a gap stands for. -/
def fold (g : Gap) : List Char :=
  if !g.broken then g.blanks
  else if g.first = ['\n'] then (if g.more.isEmpty then [' '] else g.more)
  else g.first ++ g.more

end Gap

/-! ## Plain scalars -/

/-- The characters that end a plain scalar inside a flow collection. -/
def isFlowMark (c : Char) : Bool :=
  c = ',' || c = '[' || c = ']' || c = '\x7b' || c = '\x7d'

/-- Whether a colon here ends a plain scalar or a flow mark does. -/
def endsPlain (inFlow : Bool) (c : Cursor) : Bool :=
  (c.has 0 ':' && c.separates 1) ||
    (inFlow && match c.at? 0 with
      | some x => isFlowMark x
      | none => false)

/-- Whether a colon stands right before a flow mark, which is refused. -/
def strayColon (inFlow : Bool) (c : Cursor) : Bool :=
  inFlow && c.has 0 ':' &&
    match c.at? 1 with
    | some x => isFlowMark x || x = '?'
    | none => false

/-- Reads a plain scalar whose lines are indented by `indent`. The last component says whether a
line has ended after it. The text read so far is kept in reverse. -/
def plainText (inFlow : Bool) (indent : Int) :
    Nat → Cursor → Gap → List Char → Option (String × Cursor × Bool)
  | 0, _, _, _ => none
  | fuel + 1, c, gap, acc =>
    match c.at? 0 with
    | none => finish c gap acc
    | some x =>
      if isSpace x then
        if gap.broken && (c.column : Int) < indent && x = '\t' then none
        else plainText inFlow indent fuel c.next (gap.addBlank x) acc
      else if isBreak x then
        let (b, c) := c.nextLine
        plainText inFlow indent fuel c (gap.addBreak b) acc
      else if !gap.isEmpty &&
          ((!inFlow && (c.column : Int) < indent) || c.atDocumentMark || x = '#') then
        finish c gap acc
      else if strayColon inFlow c then none
      else if endsPlain inFlow c then finish c gap acc
      else plainText inFlow indent fuel c.next .empty (x :: (gap.fold.reverse ++ acc))
where
  finish (c : Cursor) (gap : Gap) (acc : List Char) : Option (String × Cursor × Bool) :=
    some (String.ofList acc.reverse, c, gap.broken)

/-! ## Quoted scalars -/

/-- The value of a hexadecimal digit. -/
def hexValue? (c : Char) : Option Nat :=
  if c.isDigit then some (c.toNat - '0'.toNat)
  else if 'a' ≤ c && c ≤ 'f' then some (c.toNat - 'a'.toNat + 10)
  else if 'A' ≤ c && c ≤ 'F' then some (c.toNat - 'A'.toNat + 10)
  else none

/-- The character of `n` hexadecimal digits. -/
def hexChar? (digits : List Char) (n : Nat) : Option Char := do
  if digits.length < n then none
  let value ← (digits.take n).foldlM (fun v d => (hexValue? d).map (16 * v + ·)) 0
  if (0xD800 ≤ value && value ≤ 0xDFFF) || value > 0x10FFFF then none else some (Char.ofNat value)

/-- The character of an escape, from what follows the backslash, and the length of that. -/
def escape? : List Char → Option (Char × Nat)
  | 'x' :: r => (hexChar? r 2).map (·, 3)
  | 'u' :: r => (hexChar? r 4).map (·, 5)
  | 'U' :: r => (hexChar? r 8).map (·, 9)
  | c :: _ => (simple? c).map (·, 1)
  | [] => none
where
  simple? : Char → Option Char
    | '0' => some (Char.ofNat 0)
    | 'a' => some (Char.ofNat 7)
    | 'b' => some (Char.ofNat 8)
    | 't' | '\t' => some '\t'
    | 'n' => some '\n'
    | 'v' => some (Char.ofNat 11)
    | 'f' => some (Char.ofNat 12)
    | 'r' => some '\r'
    | 'e' => some (Char.ofNat 27)
    | ' ' => some ' '
    | '"' => some '"'
    | '/' => some '/'
    | '\\' => some '\\'
    | 'N' => some (Char.ofNat 0x85)
    | '_' => some (Char.ofNat 0xA0)
    | 'L' => some (Char.ofNat 0x2028)
    | 'P' => some (Char.ofNat 0x2029)
    | _ => none

/-- Reads a quoted scalar after its opening quote. -/
def quotedText (single : Bool) : Nat → Cursor → Gap → List Char → Option (String × Cursor)
  | 0, _, _, _ => none
  | fuel + 1, c, gap, acc =>
    match c.at? 0 with
    | none => none
    | some x =>
      if isSpace x then quotedText single fuel c.next (gap.addBlank x) acc
      else if isBreak x then
        let (b, c) := c.nextLine
        quotedText single fuel c (gap.addBreak b) acc
      else if !gap.isEmpty && c.atDocumentMark then none
      else
        let acc := gap.fold.reverse ++ acc
        if single then
          if x = '\'' then
            if c.has 1 '\'' then quotedText single fuel (c.advance 2) .empty ('\'' :: acc)
            else some (String.ofList acc.reverse, c.next)
          else quotedText single fuel c.next .empty (x :: acc)
        else if x = '"' then some (String.ofList acc.reverse, c.next)
        else if x = '\\' then
          match c.at? 1 with
          | none => none
          | some y =>
            if isBreak y then quotedText single fuel c.next.nextLine.2 .escaped acc
            else
              match escape? (c.rest.drop 1) with
              | none => none
              | some (e, n) => quotedText single fuel (c.advance (n + 1)) .empty (e :: acc)
        else quotedText single fuel c.next .empty (x :: acc)

/-! ## Block scalars -/

/-- How the line breaks at the end of a block scalar are kept. -/
inductive Chomping where
  | strip
  | clip
  | keep
deriving DecidableEq

/-- Reads the header of a block scalar: the chomping and the indentation, in either order. -/
def blockHeader (c : Cursor) : Option (Chomping × Option Nat × Cursor) :=
  let chomping? (c : Cursor) : Option Chomping × Cursor :=
    if c.has 0 '+' then (some .keep, c.next) else if c.has 0 '-' then (some .strip, c.next)
    else (none, c)
  let indent? (c : Cursor) : Option (Option Nat × Cursor) :=
    match c.at? 0 with
    | some d =>
      if d = '0' then none
      else if d.isDigit then some (some (d.toNat - '0'.toNat), c.next)
      else some (none, c)
    | none => some (none, c)
  match chomping? c with
  | (some k, c) => (indent? c).map fun (n, c) => (k, n, c)
  | (none, c) => do
    let (n, c) ← indent? c
    match n with
    | none => pure (.clip, none, c)
    | some n =>
      let (k, c) := chomping? c
      pure (k.getD .clip, some n, c)

/-- Skips indentation and collects line breaks; the greatest column reached counts for an
indentation that is not known yet. -/
def blockBreaks (indent : Option Nat) :
    Nat → Cursor → Nat → List Char → Option (Cursor × Nat × List Char)
  | 0, _, _, _ => none
  | fuel + 1, c, widest, breaks =>
    let room := match indent with
      | none => c.rest.length
      | some n => n - c.column
    let c := c.advance (min room (c.rest.takeWhile (· = ' ')).length)
    let widest := max widest c.column
    let short := match indent with
      | none => true
      | some n => c.column < n
    match c.at? 0 with
    | some x =>
      if short && x = '\t' then none
      else if isBreak x then
        let (b, c) := c.nextLine
        blockBreaks indent fuel c widest (breaks ++ b)
      else some (c, widest, breaks)
    | none => some (c, widest, breaks)

/-- Reads the lines of a block scalar. `lead` is the break after the line before, if it is still
to be written, `more` the breaks after that, and `wasBlank` whether that line starts with a
blank. -/
def blockLines (literal : Bool) (indent : Nat) :
    Nat → Cursor → List Char → List Char → Bool → List Char →
      Option (List Char × List Char × List Char × Cursor)
  | 0, _, _, _, _, _ => none
  | fuel + 1, c, lead, more, wasBlank, acc =>
    match c.at? 0 with
    | none => some (acc, lead, more, c)
    | some x =>
      if c.column ≠ indent then some (acc, lead, more, c)
      else
        let isBlank := isSpace x
        let joined :=
          if !literal && lead = ['\n'] && !wasBlank && !isBlank then
            (if more.isEmpty then [' '] else [])
          else lead
        let line := c.rest.takeWhile (!isBreak ·)
        let acc := acc ++ joined ++ more ++ line
        let (b, c) := (c.advance line.length).nextLine
        match blockBreaks (some indent) (c.rest.length + 1) c 0 [] with
        | none => none
        | some (c, _, more) => blockLines literal indent fuel c b more isBlank acc

/-- Reads a block scalar after its indicator, inside a block of a given indentation. -/
def blockText (literal : Bool) (parent : Int) (c : Cursor) : Option (String × Cursor) := do
  let (chomping, given, c) ← blockHeader c
  let c := c.skipComment
  if !c.endsLine 0 then none
  let c := c.nextLine.2
  let given := given.map fun n => (max parent 0).toNat + n
  let (c, widest, breaks) ← blockBreaks given (c.rest.length + 1) c 0 []
  let indent := given.getD (max (max widest (parent + 1).toNat) 1)
  let (acc, lead, more, c) ← blockLines literal indent (c.rest.length + 1) c [] breaks false []
  let tail := match chomping with
    | .strip => []
    | .clip => lead
    | .keep => lead ++ more
  pure (String.ofList (acc ++ tail), c)

end CapabilityFlow.Yaml
