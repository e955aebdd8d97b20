import CapabilityFlow.Reference.Error

/-!
# Tokens of references

`Token.tokenize` cuts the body of a reference into tokens, with blanks between them skipped. The
first colon ends it: what follows is a type expression, which is handed on as it stands.
-/

namespace CapabilityFlow.Reference

/-- The kinds of tokens. -/
inductive TokenKind where
  | identifier
  | number
  | dot
  | openBracket
  | closeBracket
  | colon
  | finish
deriving DecidableEq, Repr

/-- A kind of token as messages name it. -/
def TokenKind.text : TokenKind → String
  | identifier => "identifier"
  | number => "number"
  | dot => "."
  | openBracket => "["
  | closeBracket => "]"
  | colon => ":"
  | finish => "end of reference"

/-- A token. Columns count characters from one. -/
structure Token where
  kind : TokenKind
  text : String
  column : Nat
deriving DecidableEq, Repr

namespace Token

/-- The characters that start identifiers. -/
def isIdentifierStart (c : Char) : Bool :=
  c.isAlpha || c = '_'

/-- The characters of identifiers. -/
def isIdentifierChar (c : Char) : Bool :=
  c.isAlphanum || c = '_' || c = '-'

/-- The token that starts with a character: its kind, and the characters after the first. Words are
as long as they can be. -/
def lead? (c : Char) (r : List Char) : Option (TokenKind × List Char) :=
  if c = '.' then some (.dot, [])
  else if c = '[' then some (.openBracket, [])
  else if c = ']' then some (.closeBracket, [])
  else if c.isDigit then some (.number, r.takeWhile Char.isDigit)
  else if isIdentifierStart c then some (.identifier, r.takeWhile isIdentifierChar)
  else none

/-- The tokens of a text whose first character stands at a column, and what follows the colon. -/
def tokenizeFrom (column : Nat) (s : List Char) :
    Except ReferenceError (List Token × Option String) :=
  match s with
  | [] => .ok ([⟨.finish, "", column⟩], none)
  | c :: r =>
    if Text.isBlank c then tokenizeFrom (column + 1) r
    else if c = ':' then
      .ok ([⟨.colon, ":", column⟩, ⟨.finish, "", column + 1 + r.length⟩], some (String.ofList r))
    else
      match lead? c r with
      | none => .error (.unexpectedChar column c)
      | some (kind, word) => do
        let (ts, tail) ← tokenizeFrom (column + 1 + word.length) (r.drop word.length)
        pure (⟨kind, String.ofList (c :: word), column⟩ :: ts, tail)
termination_by s.length
decreasing_by all_goals simp; try omega

/-- The tokens of a reference body up to its first colon, and what follows that. -/
def tokenize (body : String) : Except ReferenceError (List Token × Option String) :=
  tokenizeFrom 1 body.toList

end Token

end CapabilityFlow.Reference
