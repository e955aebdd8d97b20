/-!
# Lines

The lines of a text: cut at each line feed, without one carriage return before it, and with no
empty line after a final line feed.
-/

namespace CapabilityFlow.Text

/-- Cuts a list of characters at each line feed: the parts, one more than there are line feeds. -/
def splitLineFeeds : List Char → List (List Char)
  | [] => [[]]
  | c :: r =>
    if c = '\n' then [] :: splitLineFeeds r
    else
      match splitLineFeeds r with
      | [] => [[c]]
      | l :: ls => (c :: l) :: ls

/-- A line without a carriage return at its end. -/
def dropCarriageReturn (l : List Char) : List Char :=
  if l.getLast? = some '\r' then l.dropLast else l

/-- The lines of a list of characters. A carriage return is dropped only before a line feed. -/
def linesOf (cs : List Char) : List (List Char) :=
  let parts := splitLineFeeds cs
  let ended := parts.dropLast.map dropCarriageReturn
  match parts.getLast? with
  | none | some [] => ended
  | some last => ended ++ [last]

/-- The lines of a text. -/
def lines (s : String) : List String :=
  (linesOf s.toList).map String.ofList

end CapabilityFlow.Text
