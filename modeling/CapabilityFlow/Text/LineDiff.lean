import CapabilityFlow.Text.Lines

/-!
# Differences of texts by lines

`editScript` leads from a list of lines to another and keeps as many lines as any script can;
`hunks` are the parts of it around the changes, and `unifiedDiff` writes them.
-/

namespace CapabilityFlow.Text

/-- What a script does with a line. -/
inductive Edit where
  | keep
  | delete
  | insert
deriving DecidableEq, Repr

/-- A line, and what is done with it. -/
structure Change where
  edit : Edit
  line : String
deriving DecidableEq, Repr

/-! ## Common lines -/

/-- How many lines a list that starts with `line` has in common with each suffix of `new`, from
what the list behind it has in common with them. -/
def commonRow (line : String) : List String → List Nat → List Nat
  | [], _ => [0]
  | _ :: _, [] => []
  | b :: new, below :: rest =>
    let right := commonRow line new rest
    (if line = b then rest.headD 0 + 1 else max below (right.headD 0)) :: right

/-- How many lines each suffix of `old` has in common, in order, with each suffix of `new`. -/
def commonTable (old new : List String) : List (List Nat) :=
  match old with
  | [] => [List.replicate (new.length + 1) 0]
  | a :: old =>
    let below := commonTable old new
    commonRow a new (below.headD []) :: below

/-! ## Scripts -/

/-- The script from `old` to `new`, given the table of what they have in common and the place in
its rows where `new` starts. Of two lines that differ the old one goes first if that loses
nothing. -/
def scriptFrom (column : Nat) : List (List Nat) → List String → List String → List Change
  | _, [], new => new.map (⟨.insert, ·⟩)
  | _, old, [] => old.map (⟨.delete, ·⟩)
  | table, a :: old, b :: new =>
    if a = b then ⟨.keep, a⟩ :: scriptFrom (column + 1) table.tail old new
    else
      let here := table.headD []
      let below := table.tail.headD []
      if here.getD (column + 1) 0 ≤ below.getD column 0 then
        ⟨.delete, a⟩ :: scriptFrom column table.tail old (b :: new)
      else ⟨.insert, b⟩ :: scriptFrom (column + 1) table (a :: old) new
termination_by _ old new => old.length + new.length

/-- A script that keeps as many lines as possible. -/
def editScript (old new : List String) : List Change :=
  scriptFrom 0 (commonTable old new) old new

/-! ## Hunks -/

/-- How many kept lines are shown before and after a change. -/
def contextLines : Nat := 3

/-- A part of a list: from `start` on, before `stop`. -/
structure Range where
  start : Nat
  stop : Nat
deriving DecidableEq, Repr

/-- The surroundings of each changed line. -/
def windows (script : List Change) : List Range :=
  script.zipIdx.filterMap fun (c, i) =>
    if c.edit = .keep then none
    else some ⟨i - contextLines, min (i + 1 + contextLines) script.length⟩

/-- Adds a window behind ranges that are given last first: it extends the last one if it touches
it. -/
def addWindow (ranges : List Range) (w : Range) : List Range :=
  match ranges with
  | [] => [w]
  | last :: rest => if w.start ≤ last.stop then ⟨last.start, w.stop⟩ :: rest else w :: last :: rest

/-- The parts of a script that are shown. -/
def hunkRanges (script : List Change) : List Range :=
  ((windows script).foldl addWindow []).reverse

/-- How many lines of the old text a script takes. -/
def oldCount (script : List Change) : Nat :=
  script.countP (·.edit != .insert)

/-- How many lines of the new text a script yields. -/
def newCount (script : List Change) : Nat :=
  script.countP (·.edit != .delete)

/-- The number of the first line of a part, counted from one; a part without lines has the number
of the line before it. -/
def firstLine (before count : Nat) : Nat :=
  if count = 0 then before else before + 1

def Edit.mark : Edit → Char
  | keep => ' '
  | delete => '-'
  | insert => '+'

/-- A hunk with its header. -/
def hunkText (script : List Change) (r : Range) : String :=
  let before := script.take r.start
  let hunk := (script.take r.stop).drop r.start
  let part := fun count => s!"{firstLine (count before) (count hunk)},{count hunk}"
  s!"@@ -{part oldCount} +{part newCount} @@\n" ++
    String.join (hunk.map fun c => c.edit.mark.toString ++ c.line ++ "\n")

/-- How the lines of two texts differ; nothing if they do not. -/
def unifiedDiff (old new oldLabel newLabel : String) : String :=
  let script := editScript (lines old) (lines new)
  if script.all (·.edit = .keep) then ""
  else
    s!"--- {oldLabel}\n+++ {newLabel}\n" ++
      String.join ((hunkRanges script).map (hunkText script))

end CapabilityFlow.Text
