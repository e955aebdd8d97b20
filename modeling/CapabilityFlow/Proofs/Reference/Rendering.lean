import CapabilityFlow.Proofs.Reference.Reading

/-!
# References that are written

The canonical form of a reference that was read is read as that reference again
(`Reference.parse_render`): the same producer, the same path and the same ascribed type. Blanks, the
numbers of elements and the choice between a point and a bracket are lost, since they say nothing.
-/

namespace CapabilityFlow.Reference

/-! ## Targets -/

theorem toList_foldl_extend (path : Path) {before : String} (h : before.isEmpty = false) :
    (path.foldl Path.text.extend before).toList = before.toList ++ writtenPath path := by
  induction path generalizing before with
  | nil => simp [writtenPath]
  | cons segment p ih =>
    have hne : before ≠ "" := by simpa using h
    cases segment with
    | field name =>
      have hnext : (before ++ "." ++ name).isEmpty = false := by simp [hne]
      rw [List.foldl_cons, Path.text.extend, h]
      simp [ih hnext, writtenPath]
    | element =>
      have hnext : (before ++ "[]").isEmpty = false := by simp [hne]
      rw [List.foldl_cons, Path.text.extend, ih hnext]
      simp [writtenPath]

/-- A target is written as its producer and the path behind it. -/
theorem toList_target {r : Reference}
    (hpath : ∀ name, .field name ∈ r.path → isIdentifier name = true) :
    r.target.toList = r.producer.toList ++ writtenPath r.path := by
  obtain ⟨producer, path, ascribed, raw⟩ := r
  cases path with
  | nil => simp [target, writtenPath]
  | cons segment p =>
    cases segment with
    | field name =>
      obtain ⟨c, r, hname, hstart, -⟩ := isIdentifier_iff.1 (hpath name List.mem_cons_self)
      have hnonempty : name.isEmpty = false := by
        rw [← Bool.not_eq_true, String.isEmpty_iff, ← String.toList_eq_nil_iff, hname]
        exact List.cons_ne_nil c r
      have htext : (Path.text (.field name :: p)).toList = name.toList ++ writtenPath p :=
        toList_foldl_extend p hnonempty
      have hbracket : c ≠ '[' := by
        rintro rfl
        cases hstart
      simp [target, htext, hname, hbracket, writtenPath]
    | element =>
      have htext : (Path.text (.element :: p)).toList = '[' :: ']' :: writtenPath p :=
        toList_foldl_extend p rfl
      simp [target, htext, writtenPath]

/-! ## Canonical forms -/

/-- What is written between the marks. -/
def written (r : Reference) : String :=
  match r.ascribed with
  | some s => r.target ++ ":" ++ s.text
  | none => r.target

theorem render_eq (r : Reference) : r.render = spanText r.written := by
  cases h : r.ascribed <;> simp only [render, written, h]

/-- What names its producer and its fields by plain words, and ascribes what a type expression can
write, is read from what it writes. -/
theorem parse_written {r : Reference} (hp : isIdentifier r.producer = true)
    (hpath : ∀ name, .field name ∈ r.path → isIdentifier name = true)
    (htype : ∀ s, r.ascribed = some s → s.IsWritten) :
    parse r.written = .ok { r with raw := r.render } := by
  have htarget := toList_target hpath
  rw [render_eq]
  cases hs : r.ascribed with
  | none =>
    have hwritten : r.written = r.target := by simp only [written, hs]
    rw [hwritten, parse_target hp hpath htarget]
  | some s =>
    have hwritten : r.written = r.target ++ ":" ++ s.text := by simp only [written, hs]
    have hbody : r.written.toList =
        r.producer.toList ++ (writtenPath r.path ++ ':' :: s.text.toList) := by
      rw [hwritten]
      simp [htarget]
    rw [parse_target_typed hp hpath (TypeText.parse_text (htype s hs)) hbody]

/-- Nothing that is written between the marks ends the reference. -/
theorem ne_brace_of_mem_written {r : Reference} (hp : isIdentifier r.producer = true)
    (hpath : ∀ name, .field name ∈ r.path → isIdentifier name = true) :
    ∀ c ∈ r.written.toList, c ≠ '\x7d' := by
  have htarget : ∀ c ∈ r.target.toList, c ≠ '\x7d' := by
    rw [toList_target hpath, List.forall_mem_append]
    exact ⟨ne_brace_of_isIdentifier hp, ne_brace_of_mem_writtenPath hpath⟩
  unfold written
  cases r.ascribed with
  | none => exact htarget
  | some s =>
    simp only [String.toList_append, List.forall_mem_append]
    have hcolon : ∀ c ∈ ":".toList, c ≠ '\x7d' := by simp
    exact ⟨⟨htarget, hcolon⟩, ne_brace_of_mem_text s⟩

/-! ## References that were read -/

/-- The canonical form of a reference that was read is a binding by itself: the same reference,
written in that form. -/
theorem parse_render (body : String) (r : Reference) (h : parse body = .ok r) :
    Binding.parse (.str r.render) = .ok (.reference { r with raw := r.render }) := by
  obtain ⟨hp, hpath⟩ := isIdentifier_of_parse_eq_ok h
  have hwritten : ∀ s, r.ascribed = some s → s.IsWritten := by
    intro s hs
    obtain ⟨text, htext⟩ := exists_parse_of_ascribed h hs
    exact TypeText.isWritten_of_parse htext
  have hread := parse_written hp hpath hwritten
  rw [render_eq] at hread ⊢
  exact Binding.parse_spanText (ne_brace_of_mem_written hp hpath) hread

namespace Sample

/-- A body with elements in all ways of writing them, and with blanks. -/
def body : String :=
  " scan-1 . files [ 0 ] [].12 .size_2 : array< string|array<null> > | integer"

def read : Reference where
  producer := "scan-1"
  path := [.field "files", .element, .element, .element, .field "size_2"]
  ascribed := some (.union [
    .array (.union [.scalar .string, .array (.scalar .null)]), .scalar .integer])
  raw := spanText body

end Sample

open Sample in
theorem parse_render_sample : parse body = .ok read ∧
    Binding.parse (.str read.render) = .ok (.reference { read with raw := read.render }) ∧
    read.render = spanText "scan-1.files[][][].size_2:array<string|array<null>>|integer" :=
  have h : parse body = .ok read := Except.toOption_eq_some_iff.1 (by decide +kernel)
  ⟨h, parse_render body read h, by decide +kernel⟩

end CapabilityFlow.Reference
