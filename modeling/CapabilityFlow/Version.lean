import CapabilityFlow.Text.Blank
import CapabilityFlow.Text.Quoted

/-!
# Semantic versions

`Version.parse` reads a version as the rules of semantic versioning lay it down: three numbers below
`2 ^ 64` without leading zeros, then perhaps a pre-release after a hyphen and build metadata after
a plus sign, each a list of identifiers joined by points.
-/

namespace CapabilityFlow

/-- A semantic version. -/
structure Version where
  major : Nat
  minor : Nat
  patch : Nat
  /-- Empty for a release. -/
  pre : String
  /-- Empty when there is none. -/
  build : String
deriving DecidableEq, Repr, Inhabited

/-- A part of a version. -/
inductive VersionPart where
  | major
  | minor
  | patch
  | pre
  | build
deriving DecidableEq, Repr

def VersionPart.text : VersionPart → String
  | major => "major version number"
  | minor => "minor version number"
  | patch => "patch version number"
  | pre => "pre-release identifier"
  | build => "build metadata"

/-- Why a text is not a version. -/
inductive VersionError where
  | empty
  | unexpectedEnd (part : VersionPart)
  | unexpectedChar (part : VersionPart) (found : Char)
  | unexpectedCharAfter (part : VersionPart) (found : Char)
  | leadingZero (part : VersionPart)
  | overflow (part : VersionPart)
  | emptySegment (part : VersionPart)
deriving DecidableEq, Repr

def VersionError.message : VersionError → String
  | empty => "empty string, expected a semver version"
  | unexpectedEnd part => s!"unexpected end of input while parsing {part.text}"
  | unexpectedChar part c => s!"unexpected character {Text.quotedOne c} while parsing {part.text}"
  | unexpectedCharAfter part c => s!"unexpected character {Text.quotedOne c} after {part.text}"
  | leadingZero part => s!"invalid leading zero in {part.text}"
  | overflow part => s!"value of {part.text} exceeds u64::MAX"
  | emptySegment part => s!"empty identifier segment in {part.text}"

namespace Version

def text (v : Version) : String :=
  let pre := if v.pre.isEmpty then "" else "-" ++ v.pre
  let build := if v.build.isEmpty then "" else "+" ++ v.build
  s!"{v.major}.{v.minor}.{v.patch}" ++ pre ++ build

/-- Reads a number. -/
def number (part : VersionPart) (s : List Char) : Except VersionError (Nat × List Char) :=
  let digits := s.takeWhile Char.isDigit
  match digits, s with
  | [], [] => .error (.unexpectedEnd part)
  | [], c :: _ => .error (.unexpectedChar part c)
  | first :: more, _ =>
    if first = '0' && !more.isEmpty then .error (.leadingZero part)
    else
      let n := digits.foldl (fun n c => 10 * n + (c.toNat - '0'.toNat)) 0
      if n < Nat.pow 2 64 then .ok (n, s.dropWhile Char.isDigit) else .error (.overflow part)

/-- Reads the point after a number. -/
def point (part : VersionPart) : List Char → Except VersionError (List Char)
  | [] => .error (.unexpectedEnd part)
  | c :: r => if c = '.' then .ok r else .error (.unexpectedCharAfter part c)

/-- The characters of identifiers and the point between them. -/
def isIdentifierChar (c : Char) : Bool :=
  c.isAlphanum || c = '-' || c = '.'

/-- The pieces of a text between points. -/
def segments : List Char → List (List Char)
  | [] => [[]]
  | c :: r =>
    if c = '.' then [] :: segments r
    else
      match segments r with
      | [] => [[c]]
      | s :: ss => (c :: s) :: ss

/-- Checks one identifier. A number in a pre-release has no leading zero. -/
def checkSegment (part : VersionPart) (s : List Char) : Except VersionError Unit :=
  if s.isEmpty then .error (.emptySegment part)
  else if part = .pre && s.all Char.isDigit && s.length > 1 && s.head? = some '0' then
    .error (.leadingZero part)
  else .ok ()

/-- Reads identifiers joined by points. -/
def identifiers (part : VersionPart) (s : List Char) :
    Except VersionError (String × List Char) := do
  let body := s.takeWhile isIdentifierChar
  (segments body).forM (checkSegment part)
  pure (String.ofList body, s.dropWhile isIdentifierChar)

/-- Reads a part that a mark introduces, if it is there. The second component says that it is. -/
def marked (mark : Char) (part : VersionPart) (s : List Char) :
    Except VersionError (String × Bool × List Char) :=
  match s with
  | c :: r =>
    if c = mark then (identifiers part r).map fun (t, r) => (t, true, r)
    else .ok ("", false, c :: r)
  | [] => .ok ("", false, [])

/-- The version that a text writes. -/
def parse (text : String) : Except VersionError Version := do
  if text.isEmpty then throw .empty
  let (major, r) ← number .major text.toList
  let r ← point .major r
  let (minor, r) ← number .minor r
  let r ← point .minor r
  let (patch, r) ← number .patch r
  let (pre, hasPre, r) ← marked '-' .pre r
  let (build, hasBuild, r) ← marked '+' .build r
  match r with
  | [] => pure ⟨major, minor, patch, pre, build⟩
  | c :: _ =>
    throw (.unexpectedCharAfter (if hasBuild then .build else if hasPre then .pre else .patch) c)

/-- Completes a version of one or two numbers with zeros, and drops each `v` before it. -/
def complete (declared : String) : String :=
  let s := (Text.trim declared).toList.dropWhile (· = 'v')
  match s.count '.' with
  | 0 => String.ofList s ++ ".0.0"
  | 1 => String.ofList s ++ ".0"
  | _ => String.ofList s

/-- Whether a declared version has the major number of this one. -/
def agreesWith (v : Version) (declared : String) : Except VersionError Bool :=
  (parse (complete declared)).map (·.major = v.major)

end Version

end CapabilityFlow
