import CapabilityFlow.Schema.Basic
import CapabilityFlow.Text.Blank

/-!
# Type expressions

The textual form of schemas, with blanks ignored anywhere:

    type   := single ('|' single)*
    single := 'array' ('<' type '>')? | name
    name   := string | number | integer | boolean | null | object | any | unknown

A bare `array` is an array of unknown elements, and `object` an object of which nothing is
declared. `TypeText.parse` reads a type expression; `Schema.text` writes one.
-/

namespace CapabilityFlow

/-- Why a text is not a type expression. -/
inductive TypeTextError where
  | empty
  | unknownType (name : String)
  /-- The offset counts the characters before the found one that are not blank. -/
  | unexpectedChar (text : String) (offset : Nat) (found : Char)
  | unterminated (text : String)
deriving DecidableEq, Repr

def TypeTextError.message : TypeTextError → String
  | empty => "Empty type expression"
  | unknownType name => s!"Unknown type name '{name}'"
  | unexpectedChar text offset found =>
    s!"Unexpected character '{found}' at offset {offset} in '{text}'"
  | unterminated text => s!"Unterminated type parameter in '{text}'"

namespace TypeText

/-- Why reading stops short. -/
inductive Fault where
  | unknownType (name : String)
  /-- The text from the unexpected character on. -/
  | unexpected (found : Char) (rest : List Char)
  | unterminated
deriving DecidableEq, Repr

/-- What follows a part of `s` that is not empty. -/
abbrev Rest (s : List Char) := { r : List Char // r.length < s.length }

/-- The characters of names. -/
def isNameChar (c : Char) : Bool :=
  c.isAlphanum || c = '_'

/-- The schema of a name that stands for one by itself. -/
def named? (name : String) : Option Schema :=
  match name with
  | "object" => some Schema.anyObject
  | "any" => some .any
  | "unknown" => some .unknown
  | _ => (Scalar.ofName? name).map .scalar

theorem length_dropWhile_lt {p : Char → Bool} {c : Char} {r : List Char} (h : p c = true) :
    ((c :: r).dropWhile p).length < (c :: r).length := by
  simp only [List.dropWhile, h, List.length_cons]
  exact Nat.lt_succ_of_le (List.dropWhile_sublist p).length_le

theorem length_tail_lt {s : List Char} (r : Rest s) {c : Char} {r' : List Char}
    (h : r.1 = c :: r') : r'.length < s.length := by
  have hr := r.2
  rw [h, List.length_cons] at hr
  exact Nat.lt_of_succ_lt hr

mutual

/-- Reads the arms of a type, at least one. -/
def readArms (s : List Char) : Except Fault (List Schema × Rest s) := do
  let (first, r) ← readSingle s
  match h : r.1 with
  | '|' :: r' =>
    have hr : r'.length < s.length := length_tail_lt r h
    let (more, r'') ← readArms r'
    pure (first :: more, ⟨r''.1, Nat.lt_trans r''.2 hr⟩)
  | _ => pure ([first], r)
termination_by 2 * s.length + 1
decreasing_by all_goals omega

/-- Reads one arm of a type. -/
def readSingle (s : List Char) : Except Fault (Schema × Rest s) :=
  match s with
  | [] => .error .unterminated
  | c :: cs =>
    if hc : isNameChar c then
      let name := String.ofList ((c :: cs).takeWhile isNameChar)
      let r : Rest (c :: cs) := ⟨(c :: cs).dropWhile isNameChar, length_dropWhile_lt hc⟩
      if name = "array" then
        match h : r.1 with
        | '<' :: r' => do
          have hr : r'.length < (c :: cs).length := length_tail_lt r h
          let (arms, r'') ← readArms r'
          match h' : r''.1 with
          | '>' :: rest =>
            pure (.array (Schema.ofArms arms),
              ⟨rest, Nat.lt_trans (length_tail_lt r'' h') hr⟩)
          | _ => .error .unterminated
        | _ => .ok (.array .unknown, r)
      else
        match named? name with
        | some s => .ok (s, r)
        | none => .error (.unknownType name)
    else .error (.unexpected c (c :: cs))
termination_by 2 * s.length
decreasing_by omega

end

/-- The schema that a text without blanks writes. -/
def read (s : List Char) : Except Fault Schema := do
  let (arms, ⟨r, _⟩) ← readArms s
  match r with
  | [] => pure (Schema.ofArms arms)
  | c :: r => .error (.unexpected c (c :: r))

/-- The schema that a type expression writes. -/
def parse (text : String) : Except TypeTextError Schema :=
  let s := Text.stripBlanks text
  if s.isEmpty then .error .empty
  else
    match read s with
    | .ok schema => .ok schema
    | .error (.unknownType name) => .error (.unknownType name)
    | .error (.unexpected c rest) => .error (.unexpectedChar text (s.length - rest.length) c)
    | .error .unterminated => .error (.unterminated text)

end TypeText

end CapabilityFlow
