import CapabilityFlow.Proofs.Text.Hunks
import Mathlib.Data.List.Infix
import Mathlib.Data.List.TakeWhile

/-!
# Unified differences can be applied

`readHunks` reads the hunks that a text writes, by the marks of its lines and the numbers of its headers.
The hunks of `unifiedDiff` are read back from it, and applying them to the lines of the old text gives
those of the new one (`unifiedDiff_applies`).
-/

namespace CapabilityFlow.Text

/-! ## Reading -/

/-- The number that a text starts with, and what is behind it. -/
def readNumber (cs : List Char) : Option (Nat × List Char) :=
  let digits := cs.takeWhile Char.isDigit
  if digits.isEmpty then none
  else some (Nat.ofDigitChars 10 digits 0, cs.dropWhile Char.isDigit)

/-- One side of a header. -/
def readPart (cs : List Char) : Option (Part × List Char) := do
  let (first, cs) ← readNumber cs
  let (count, cs) ← readNumber (← cs.dropPrefix? ",".toList)
  some (⟨first, count⟩, cs)

def readHeader (line : List Char) : Option (Part × Part) := do
  let (old, cs) ← readPart (← line.dropPrefix? "@@ -".toList)
  let (new, cs) ← readPart (← cs.dropPrefix? " +".toList)
  if cs = " @@".toList then some (old, new) else none

/-- A line of a body. -/
def readChange : List Char → Option Change
  | ' ' :: line => some ⟨.keep, .ofList line⟩
  | '-' :: line => some ⟨.delete, .ofList line⟩
  | '+' :: line => some ⟨.insert, .ofList line⟩
  | _ => none

/-- The changes before the first header, and the hunks from there on. -/
def readLines : List (List Char) → Option (List Change × List Hunk)
  | [] => some ([], [])
  | line :: lines => do
    let (body, hunks) ← readLines lines
    match readChange line with
    | some c => some (c :: body, hunks)
    | none =>
      let (old, new) ← readHeader line
      some ([], ⟨old, new, body⟩ :: hunks)

/-- The hunks of a text of which each line has a line feed behind it. -/
def readHunks (text : String) : Option (List Hunk) :=
  match readLines (splitLineFeeds text.toList).dropLast with
  | some ([], hunks) => some hunks
  | _ => none

/-! ## Writing -/

def Part.text (p : Part) : String :=
  s!"{p.first},{p.count}"

def Hunk.header (h : Hunk) : String :=
  s!"@@ -{h.old.text} +{h.new.text} @@"

/-- The lines of a hunk, without line feeds. -/
def Hunk.lines (h : Hunk) : List (List Char) :=
  h.header.toList :: h.body.map fun c => c.edit.mark :: c.line.toList

theorem toList_text (p : Part) : p.text.toList =
    Nat.toDigits 10 p.first ++ (",".toList ++ Nat.toDigits 10 p.count) := by
  change (p.first.repr ++ "," ++ p.count.repr).toList = _
  simp only [String.toList_append, Nat.toList_repr, List.append_assoc]

theorem toList_header (h : Hunk) : h.header.toList = "@@ -".toList ++ (h.old.text.toList ++
    (" +".toList ++ (h.new.text.toList ++ " @@".toList))) := by
  change ("@@ -" ++ h.old.text ++ " +" ++ h.new.text ++ " @@").toList = _
  simp only [String.toList_append, List.append_assoc]

theorem toList_hunkText (script : List Change) (r : Range) :
    (hunkText script r).toList = (hunkOf script r).lines.flatMap (· ++ ['\n']) := by
  have hlines : ∀ body : List Change, (String.join (body.map fun c =>
      c.edit.mark.toString ++ c.line ++ "\n")).toList =
        (body.map fun c => c.edit.mark :: c.line.toList).flatMap (· ++ ['\n']) := by
    intro body
    simp [String.toList_join, List.flatMap_map]
  rw [hunkText, String.toList_append, hlines, Hunk.lines, List.flatMap_cons]
  have hend : (toString " @@\n").toList = (toString " @@").toList ++ ['\n'] := by decide
  simp only [Hunk.header, Part.text, hunkOf, segment, String.toList_append, List.append_assoc, hend]

theorem readNumber_toDigits (n : Nat) {rest : List Char}
    (hrest : ∀ c ∈ rest.head?, c.isDigit = false) :
    readNumber (Nat.toDigits 10 n ++ rest) = some (n, rest) := by
  have hdigits : ∀ d ∈ Nat.toDigits 10 n, d.isDigit = true := fun d hd =>
    Nat.isDigit_of_mem_toDigits (by decide) (by decide) hd
  obtain ⟨htake, hdrop⟩ : rest.takeWhile Char.isDigit = [] ∧ rest.dropWhile Char.isDigit = rest := by
    cases rest with
    | nil => exact ⟨rfl, rfl⟩
    | cons c rest => simp [hrest c rfl]
  have hne : Nat.toDigits 10 n ≠ [] := Nat.toDigits_ne_nil
  rw [readNumber, List.takeWhile_append_of_pos hdigits, List.dropWhile_append_of_pos hdigits, htake,
    hdrop, List.append_nil, Nat.ofDigitChars_ten_toDigits]
  simp [hne]

theorem dropPrefix?_append (start rest : List Char) :
    (start ++ rest).dropPrefix? start = some rest :=
  List.dropPrefix?_eq_some_iff.2 ⟨start, rfl, by simp⟩

theorem readPart_text (p : Part) {rest : List Char} (hrest : ∀ c ∈ rest.head?, c.isDigit = false) :
    readPart (p.text.toList ++ rest) = some (p, rest) := by
  rw [toList_text, List.append_assoc, List.append_assoc, readPart,
    readNumber_toDigits p.first (by simp), Option.bind_eq_bind, Option.bind_some]
  dsimp only
  rw [dropPrefix?_append, Option.bind_eq_bind, Option.bind_some, readNumber_toDigits p.count hrest]
  rfl

theorem readHeader_header (h : Hunk) : readHeader h.header.toList = some (h.old, h.new) := by
  rw [toList_header, readHeader, dropPrefix?_append, Option.bind_eq_bind, Option.bind_some,
    readPart_text h.old (by simp), Option.bind_eq_bind, Option.bind_some]
  dsimp only
  rw [dropPrefix?_append, Option.bind_some, readPart_text h.new (by simp)]
  rfl

theorem readChange_line (c : Change) : readChange (c.edit.mark :: c.line.toList) = some c := by
  obtain ⟨edit, line⟩ := c
  cases edit <;> simp [Edit.mark, readChange]

theorem readChange_header (h : Hunk) : readChange h.header.toList = none := by
  rw [toList_header]
  rfl

/-- A hunk in front of read lines is read with its body. -/
theorem readLines_lines (h : Hunk) {rest : List (List Char)} {hunks : List Hunk}
    (hrest : readLines rest = some ([], hunks)) :
    readLines (h.lines ++ rest) = some ([], h :: hunks) := by
  have hbody : ∀ body : List Change,
      readLines (body.map (fun c => c.edit.mark :: c.line.toList) ++ rest) = some (body, hunks) := by
    intro body
    induction body with
    | nil => exact hrest
    | cons c body ih =>
      rw [List.map_cons, List.cons_append, readLines, ih, Option.bind_eq_bind, Option.bind_some]
      dsimp only
      rw [readChange_line]
  rw [Hunk.lines, List.cons_append, readLines, hbody, Option.bind_eq_bind, Option.bind_some]
  dsimp only
  rw [readChange_header, readHeader_header]
  rfl

theorem readLines_flatMap_lines (hunks : List Hunk) :
    readLines (hunks.flatMap Hunk.lines) = some ([], hunks) := by
  induction hunks with
  | nil => rfl
  | cons h hunks ih => exact readLines_lines h ih

/-! ## Line feeds -/

theorem splitLineFeeds_append {l : List Char} (hl : '\n' ∉ l) (rest : List Char) :
    splitLineFeeds (l ++ '\n' :: rest) = l :: splitLineFeeds rest := by
  induction l with
  | nil => simp [splitLineFeeds]
  | cons c l ih =>
    rw [List.mem_cons, not_or] at hl
    rw [List.cons_append, splitLineFeeds, if_neg (Ne.symm hl.1), ih hl.2]

/-- Lines without line feeds are cut apart again. -/
theorem splitLineFeeds_flatMap {ls : List (List Char)} (hls : ∀ l ∈ ls, '\n' ∉ l) :
    splitLineFeeds (ls.flatMap (· ++ ['\n'])) = ls ++ [[]] := by
  induction ls with
  | nil => rfl
  | cons l ls ih =>
    obtain ⟨hl, hls⟩ := List.forall_mem_cons.1 hls
    rw [List.flatMap_cons, List.append_assoc, List.singleton_append, splitLineFeeds_append hl,
      ih hls, List.cons_append]

theorem lineFeed_notMem_splitLineFeeds (cs : List Char) : ∀ l ∈ splitLineFeeds cs, '\n' ∉ l := by
  induction cs with
  | nil => simp [splitLineFeeds]
  | cons c cs ih =>
    rw [splitLineFeeds]
    split
    · simpa using ih
    · rename_i hc
      split
      · simpa using Ne.symm hc
      · rename_i l ls hsplit
        rw [hsplit, List.forall_mem_cons] at ih
        refine List.forall_mem_cons.2 ⟨?_, ih.2⟩
        rw [List.mem_cons, not_or]
        exact ⟨Ne.symm hc, ih.1⟩

theorem lineFeed_notMem_of_mem_lines {s line : String} (h : line ∈ lines s) :
    '\n' ∉ line.toList := by
  obtain ⟨l, hl, rfl⟩ := List.mem_map.1 h
  rw [String.toList_ofList]
  have hparts := lineFeed_notMem_splitLineFeeds s.toList
  have hended : ∀ l ∈ (splitLineFeeds s.toList).dropLast.map dropCarriageReturn, '\n' ∉ l := by
    intro l hl
    obtain ⟨part, hpart, rfl⟩ := List.mem_map.1 hl
    rw [dropCarriageReturn]
    split
    · exact fun hmem => hparts part (List.mem_of_mem_dropLast hpart) (List.mem_of_mem_dropLast hmem)
    · exact hparts part (List.mem_of_mem_dropLast hpart)
  rw [linesOf] at hl
  split at hl
  · exact hended l hl
  · exact hended l hl
  · rename_i last hne hlast
    rcases List.mem_append.1 hl with hl | hl
    · exact hended l hl
    · rw [List.mem_singleton.1 hl]
      exact hparts last (List.mem_of_getLast? hlast)

theorem lineFeed_notMem_header (h : Hunk) : '\n' ∉ h.header.toList := by
  have hdigits : ∀ n, '\n' ∉ Nat.toDigits 10 n := fun n hmem => by
    simpa using Nat.isDigit_of_mem_toDigits (by decide) (by decide) hmem
  rw [toList_header, toList_text, toList_text]
  simp [hdigits]

theorem lineFeed_notMem_lines {h : Hunk} (hbody : ∀ c ∈ h.body, '\n' ∉ c.line.toList) :
    ∀ l ∈ h.lines, '\n' ∉ l := by
  refine List.forall_mem_cons.2 ⟨lineFeed_notMem_header h, fun l hl => ?_⟩
  obtain ⟨c, hc, rfl⟩ := List.mem_map.1 hl
  rw [List.mem_cons, not_or]
  exact ⟨by cases c.edit <;> decide, hbody c hc⟩

/-! ## Differences -/

/-- The hunks of a script are read back, when its lines have no line feeds. -/
theorem readHunks_hunkText {script : List Change} (hscript : ∀ c ∈ script, '\n' ∉ c.line.toList)
    (ranges : List Range) : readHunks (String.join (ranges.map (hunkText script))) =
      some (ranges.map (hunkOf script)) := by
  have hlines : ∀ l ∈ (ranges.map (hunkOf script)).flatMap Hunk.lines, '\n' ∉ l := by
    intro l hl
    obtain ⟨h, hh, hl⟩ := List.mem_flatMap.1 hl
    obtain ⟨r, -, rfl⟩ := List.mem_map.1 hh
    refine lineFeed_notMem_lines (fun c hc => hscript c ?_) l hl
    exact List.mem_of_mem_take (List.mem_of_mem_drop hc)
  have htext : (String.join (ranges.map (hunkText script))).toList =
      ((ranges.map (hunkOf script)).flatMap Hunk.lines).flatMap (· ++ ['\n']) := by
    rw [String.toList_join, List.flatMap_assoc, List.flatMap_map, List.flatMap_map]
    simp only [toList_hunkText]
  rw [readHunks, htext, splitLineFeeds_flatMap hlines, List.dropLast_concat, readLines_flatMap_lines]

theorem lineFeed_notMem_of_mem_editScript {old new : String} :
    ∀ c ∈ editScript (lines old) (lines new), '\n' ∉ c.line.toList := by
  intro c hc
  have hline := mem_side_or hc
  rw [side_insert_editScript, side_delete_editScript] at hline
  exact hline.elim lineFeed_notMem_of_mem_lines lineFeed_notMem_of_mem_lines

theorem unifiedDiff_of_keeps {old new : String} (oldLabel newLabel : String)
    (h : ∀ c ∈ editScript (lines old) (lines new), c.edit = .keep) :
    unifiedDiff old new oldLabel newLabel = "" := by
  rw [unifiedDiff, if_pos (by simpa using h)]

theorem unifiedDiff_of_not_keeps {old new : String} (oldLabel newLabel : String)
    (h : ¬∀ c ∈ editScript (lines old) (lines new), c.edit = .keep) :
    unifiedDiff old new oldLabel newLabel = s!"--- {oldLabel}\n+++ {newLabel}\n" ++
      String.join ((hunkRanges (editScript (lines old) (lines new))).map
        (hunkText (editScript (lines old) (lines new)))) := by
  rw [unifiedDiff, if_neg (by simpa using h)]

/-- A difference is empty exactly between texts of the same lines. Otherwise hunks can be read behind
its two labels, and applying them to the lines of the old text gives the lines of the new one. -/
theorem unifiedDiff_applies (old new oldLabel newLabel : String) :
    (unifiedDiff old new oldLabel newLabel = "" ↔ lines old = lines new) ∧
    (lines old ≠ lines new → ∃ body hunks,
      unifiedDiff old new oldLabel newLabel = s!"--- {oldLabel}\n+++ {newLabel}\n" ++ body ∧
        readHunks body = some hunks ∧ applyHunks hunks (lines old) = some (lines new)) := by
  have hkeeps : (∀ c ∈ editScript (lines old) (lines new), c.edit = .keep) ↔ lines old = lines new :=
    keeps_editScript_iff
  by_cases heq : lines old = lines new
  · refine ⟨iff_of_true (unifiedDiff_of_keeps oldLabel newLabel (hkeeps.2 heq)) heq, ?_⟩
    exact fun hne => absurd heq hne
  · have hdiff := unifiedDiff_of_not_keeps oldLabel newLabel (mt hkeeps.1 heq)
    have happly := applyHunks_hunkRanges (editScript (lines old) (lines new))
    rw [side_insert_editScript, side_delete_editScript] at happly
    refine ⟨iff_of_false (fun hempty => ?_) heq, fun _ => ⟨_, _, hdiff, ?_, happly⟩⟩
    · rw [hdiff] at hempty
      simp only [String.append_eq_empty_iff, and_assoc] at hempty
      exact absurd hempty.1 (by decide)
    · exact readHunks_hunkText lineFeed_notMem_of_mem_editScript _

namespace Sample

def nineLines : String := "1\n2\n3\n4\n5\n6\n7\n8\n9\n"

/-- The first and the last line are others, too far apart for one hunk. -/
def otherEnds : String := "one\n2\r\n3\n4\n5\n6\n7\n8\nnine"

end Sample

theorem unifiedDiff_applies_sample : lines Sample.nineLines ≠ lines Sample.otherEnds ∧
    ∃ body hunks,
      unifiedDiff Sample.nineLines Sample.otherEnds "a" "b" = "--- a\n+++ b\n" ++ body ∧
        readHunks body = some hunks ∧
          applyHunks hunks (lines Sample.nineLines) = some (lines Sample.otherEnds) :=
  have hne : lines Sample.nineLines ≠ lines Sample.otherEnds := by decide
  ⟨hne, (unifiedDiff_applies Sample.nineLines Sample.otherEnds "a" "b").2 hne⟩

end CapabilityFlow.Text
