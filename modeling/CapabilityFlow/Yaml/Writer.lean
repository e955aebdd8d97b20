import CapabilityFlow.Decimal.Layout
import CapabilityFlow.Yaml.Resolution

/-!
# Writing documents

`Value.toYaml` writes a value as a block-style document. A text is written as it is where it reads
back as that text; otherwise it is written over several lines when it has several, in single quotes
when all of it can be shown, and in double quotes with escapes when not.
-/

namespace CapabilityFlow.Yaml

/-! ## Characters -/

/-- Whether a character can stand in a document unescaped. -/
def isShown (c : Char) : Bool :=
  let n := c.toNat
  n = 0x0A || (0x20 ≤ n && n ≤ 0x7E) || (0xA0 ≤ n && n != 0xFEFF && n != 0xFFFE && n != 0xFFFF)

/-- The characters that a line ends at. -/
def endsLine (c : Char) : Bool :=
  let n := c.toNat
  n = 0x0A || n = 0x0D || n = 0x85 || n = 0x2028 || n = 0x2029

/-- The characters that separate a mark from what follows it. -/
def separates (c : Char) : Bool :=
  c = ' ' || c = '\t' || c.toNat = 0 || endsLine c

/-- Upper-case hexadecimal digits of a number, the given count of them. -/
def hexDigits (count n : Nat) : List Char :=
  (List.range count).reverse.map fun k => (Nat.digitChar (n / Nat.pow 16 k % 16)).toUpper

/-- A character as it stands in double quotes. -/
def escaped (c : Char) : List Char :=
  if isShown c && !endsLine c && c != '"' && c != '\\' then [c]
  else
    let n := c.toNat
    let mark :=
      match n with
      | 0x00 => ['0']
      | 0x07 => ['a']
      | 0x08 => ['b']
      | 0x09 => ['t']
      | 0x0A => ['n']
      | 0x0B => ['v']
      | 0x0C => ['f']
      | 0x0D => ['r']
      | 0x1B => ['e']
      | 0x22 => ['"']
      | 0x5C => ['\\']
      | 0x85 => ['N']
      | 0x2028 => ['L']
      | 0x2029 => ['P']
      | _ =>
        if n ≤ 0xFF then 'x' :: hexDigits 2 n
        else if n ≤ 0xFFFF then 'u' :: hexDigits 4 n
        else 'U' :: hexDigits 8 n
    '\\' :: mark

/-! ## Which style a text takes -/

/-- Whether two characters that stand next to each other in a text satisfy a relation. -/
def hasAdjacent (r : Char → Char → Bool) (s : List Char) : Bool :=
  (s.zip s.tail).any fun p => r p.1 p.2

/-- Whether some blank stands before the end of a line. -/
def hasBlankBeforeBreak (s : List Char) : Bool :=
  hasAdjacent (fun a b => a = ' ' && endsLine b) s

/-- Whether some line starts with a blank. -/
def hasBlankAfterBreak (s : List Char) : Bool :=
  hasAdjacent (fun a b => endsLine a && b = ' ') s

/-- Whether some character cannot be shown. -/
def hasHidden (s : List Char) : Bool :=
  s.any (!isShown ·)

/-- The characters that mark something else at the start of a text. -/
def leadingMarks : List Char :=
  "#,[]\x7b\x7d&*!|>'\"%@`".toList

/-- Whether something in a text would be read as a mark. -/
def hasMarks (s : List Char) : Bool :=
  let startsWithMark :=
    match s with
    | [] => false
    | c :: r =>
      leadingMarks.contains c ||
        ((c = '?' || c = ':' || c = '-') && (r.head?.map separates).getD true)
  ['-', '-', '-'].isPrefixOf s || ['.', '.', '.'].isPrefixOf s || startsWithMark ||
    hasAdjacent (fun a b => a = ':' && separates b) s || s.getLast? = some ':' ||
    hasAdjacent (fun a b => separates a && b = '#') s

/-- Whether a text begins or ends with a blank or a line end. -/
def hasBlankEdge (s : List Char) : Bool :=
  let blank := fun c => c = ' ' || endsLine c
  (s.head?.map blank).getD false || (s.getLast?.map blank).getD false

/-- Whether a text can be read back where it stands without quotes. -/
def fitsPlain (s : List Char) : Bool :=
  !hasBlankEdge s && !hasHidden s && !s.any endsLine && !hasMarks s

/-- Whether a text can be written in single quotes. -/
def fitsQuotes (s : List Char) : Bool :=
  !hasBlankAfterBreak s && !hasBlankBeforeBreak s && !hasHidden s

/-- Whether a text can be written line by line. -/
def fitsLines (s : List Char) : Bool :=
  s.getLast? != some ' ' && !hasBlankBeforeBreak s && !hasHidden s

/-- Whether a text without quotes is read as that text, and not as another value. -/
def standsForItself (s : String) : Bool :=
  plain? s = some (.str s) && !hasLeadingZero s.toList

/-- The style in which a text is written. -/
def styleOf (s : String) : Style :=
  if s.toList.contains '\n' then if fitsLines s.toList then .literal else .doubleQuoted
  else if standsForItself s && fitsPlain s.toList then .plain
  else if fitsQuotes s.toList then .singleQuoted
  else .doubleQuoted

/-! ## Texts -/

def pad (indent : Nat) : String :=
  String.ofList (List.replicate indent ' ')

/-- The characters of a text on lines of their own; `fresh` tells that a line has just begun. -/
def onLines (indent : Nat) : Bool → List Char → List Char
  | _, [] => []
  | fresh, c :: r =>
    if endsLine c then c :: onLines indent true r
    else (if fresh then List.replicate indent ' ' else []) ++ c :: onLines indent false r

/-- What is said of the lines to come: that they start with blanks of their own, and whether the
line ends at their end belong to the text. -/
def linesHeader (s : List Char) : List Char :=
  let indented := (s.head?.map fun c => c = ' ' || endsLine c).getD false
  let kept :=
    match s.reverse with
    | c :: d :: _ => if !endsLine c then ['-'] else if endsLine d then ['+'] else []
    | [c] => if endsLine c then ['+'] else ['-']
    | [] => ['-']
  '|' :: (if indented then ['2'] else []) ++ kept

/-- The characters of a text inside single quotes. A line feed is written twice where lines end. -/
def inQuotes (indent : Nat) : Bool → List Char → List Char
  | fresh, [] => if fresh then List.replicate indent ' ' else []
  | fresh, c :: r =>
    if endsLine c then
      (if c = '\n' && !fresh then ['\n'] else []) ++ c :: inQuotes indent true r
    else
      (if fresh then List.replicate indent ' ' else []) ++ (if c = '\x27' then [c] else []) ++
        c :: inQuotes indent false r

/-- A text in the style it takes, with lines after the first at the indent. -/
def writeText (indent : Nat) (s : String) : String :=
  let cs := s.toList
  match styleOf s with
  | .plain => s
  | .literal => String.ofList (linesHeader cs ++ '\n' :: onLines indent true cs)
  | .singleQuoted => String.ofList ('\x27' :: inQuotes indent false cs ++ ['\x27'])
  | _ => String.ofList ('"' :: cs.flatMap escaped ++ ['"'])

/-! ## Values -/

/-- Floating-point numbers have no plus sign in an exponent. -/
def floats : Decimal.Layout := ⟨-5, 15, false⟩

/-- A value that takes no block of its own. -/
def writeInline (indent : Nat) : Value → String
  | .null => "null"
  | .bool b => if b then "true" else "false"
  | .int n => toString n
  | .float bits => floats.write bits
  | .str s => writeText indent s
  | .arr _ => "[]"
  | .obj _ => "\x7b\x7d"

/-- A text with the end of its last line, which a text over several lines may have already. -/
def closed (s : String) : String :=
  if (s.toList.getLast?.map endsLine).getD false then s else s.push '\n'

/-- Whether a name stands before its value on one line. -/
def isSimpleKey (name : String) : Bool :=
  !name.toList.any endsLine && name.utf8ByteSize ≤ 128

/-- What stands before the value of a member, and the column of the value. A list stands below its
name in the same column. -/
def memberLead (column : Nat) (name : String) (v : Value) : String × Nat :=
  if isSimpleKey name then
    let key := writeText (column + 2) name ++ ":"
    match v with
    | .arr (_ :: _) => (key ++ "\n" ++ pad column, column)
    | .obj (_ :: _) => (key ++ "\n" ++ pad (column + 2), column + 2)
    | _ => (key ++ " ", column + 2)
  else ("? " ++ closed (writeText (column + 2) name) ++ pad column ++ ": ", column + 2)

mutual

/-- A value from the given column on, where the lines after its first one start. -/
def write (column : Nat) : Value → String
  | .arr (v :: vs) => "- " ++ write (column + 2) v ++ writeItems column vs
  | .obj ((name, v) :: ms) =>
    let lead := memberLead column name v
    lead.1 ++ write lead.2 v ++ writeMembers column ms
  | v => closed (writeInline column v)

/-- Items on lines of their own. -/
def writeItems (column : Nat) : List Value → String
  | [] => ""
  | v :: vs => pad column ++ "- " ++ write (column + 2) v ++ writeItems column vs

/-- Members on lines of their own. -/
def writeMembers (column : Nat) : List (String × Value) → String
  | [] => ""
  | (name, v) :: ms =>
    let lead := memberLead column name v
    pad column ++ lead.1 ++ write lead.2 v ++ writeMembers column ms

end

end CapabilityFlow.Yaml

namespace CapabilityFlow

/-- The YAML document of a value. -/
def Value.toYaml : Value → String
  | .arr items => Yaml.write 0 (.arr items)
  | .obj ms => Yaml.write 0 (.obj ms)
  | v => Yaml.write 2 v

end CapabilityFlow
