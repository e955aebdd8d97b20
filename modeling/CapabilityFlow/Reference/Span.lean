import CapabilityFlow.Reference.Basic
import CapabilityFlow.Reference.Error

/-!
# Spans of references

`Span.scan` finds the references that are embedded in a text, from left to right. Each extends from
its opening mark to the nearest closing brace.
-/

namespace CapabilityFlow

/-- A reference in a text, placed by the byte offsets of its two ends in UTF-8. -/
structure Span where
  start : Nat
  stop : Nat
  /-- The text between the marks. -/
  body : String
deriving DecidableEq, Repr

namespace Span

/-- How many bytes characters take in UTF-8. -/
def byteCount (cs : List Char) : Nat :=
  (cs.map Char.utf8Size).foldl (· + ·) 0

/-- The characters before the first opening mark and those after it. -/
def cutOpening : List Char → Option (List Char × List Char)
  | [] => none
  | c :: r =>
    match c, r with
    | '$', '\x7b' :: r' => some ([], r')
    | c, r => (cutOpening r).map fun (before, after) => (c :: before, after)

theorem length_cutOpening_lt {s before after : List Char}
    (h : cutOpening s = some (before, after)) : after.length < s.length := by
  induction s generalizing before after with
  | nil => simp [cutOpening] at h
  | cons c r ih =>
    unfold cutOpening at h
    split at h
    · simp only [Option.some.injEq, Prod.mk.injEq] at h
      obtain ⟨-, rfl⟩ := h
      simp only [List.length_cons]; omega
    · simp only [Option.map_eq_some_iff, Prod.mk.injEq, Prod.exists] at h
      obtain ⟨b, a, hr, -, rfl⟩ := h
      have := ih hr
      simp; omega

/-- Whether a character does not close a reference. -/
def isBodyChar (c : Char) : Bool :=
  c != '\x7d'

/-- The spans of a text that starts at a byte offset and at a column. -/
def scanFrom (offset column : Nat) (s : List Char) : Except ReferenceError (List Span) :=
  match h : cutOpening s with
  | none => .ok []
  | some (before, after) =>
    let body := after.takeWhile isBodyChar
    match hr : after.dropWhile isBodyChar with
    | [] => .error (.unterminated (column + before.length))
    | _ :: rest => do
      let start := offset + byteCount before
      let stop := start + 2 + byteCount body + 1
      have : rest.length < s.length := by
        have h₁ := length_cutOpening_lt h
        have h₂ := (List.dropWhile_sublist isBodyChar (l := after)).length_le
        simp only [hr, List.length_cons] at h₂
        omega
      let spans ← scanFrom stop (column + before.length + 2 + body.length + 1) rest
      pure (⟨start, stop, String.ofList body⟩ :: spans)
termination_by s.length

/-- The spans of a text. -/
def scan (text : String) : Except ReferenceError (List Span) :=
  scanFrom 0 1 text.toList

end Span

end CapabilityFlow
