import CapabilityFlow.Binding
import CapabilityFlow.Proofs.Reference.Grammar
import CapabilityFlow.Proofs.Reference.Spans
import CapabilityFlow.Proofs.Text.Blank

/-!
# References that are read back

A producer with a path behind it, and perhaps an ascribed type, is read as that reference when plain
words are written (`Reference.parse_target`, `Reference.parse_target_typed`). Between its marks it is
a binding by itself (`Binding.parse_spanText`). What is read at all names its producer and its fields
by plain words (`Reference.isIdentifier_of_parse_eq_ok`).
-/

namespace CapabilityFlow

namespace Reference

/-! ## Written paths -/

/-- How a path is written behind a producer. -/
def writtenPath : Path → List Char
  | [] => []
  | .field name :: p => '.' :: (name.toList ++ writtenPath p)
  | .element :: p => '[' :: ']' :: writtenPath p

theorem head_writtenPath (path : Path) :
    ∀ c ∈ (writtenPath path).head?, Token.isIdentifierChar c = false := by
  match path with
  | [] => nofun
  | .field name :: p | .element :: p =>
    intro c hc
    cases hc
    rfl

/-- How a segment is derived that is written so. -/
def WrittenSegment.ofSegment : Segment → WrittenSegment
  | .field name => .field name
  | .element => .item none

theorem spells_writtenPath {path : Path}
    (hpath : ∀ name, .field name ∈ path → isIdentifier name = true) :
    Spells ((path.map WrittenSegment.ofSegment).flatMap (·.lexemes)) (writtenPath path) := by
  induction path with
  | nil => exact .nil nofun
  | cons segment p ih =>
    have hp := ih fun name hname => hpath name (List.mem_cons_of_mem segment hname)
    cases segment with
    | field name =>
      have hname := Spells.of_lexeme (l := .identifier name) (hpath name List.mem_cons_self)
        (head_writtenPath p) hp
      exact Spells.of_lexeme (l := .dot) trivial (fun _ _ => rfl) hname
    | element =>
      have hclose := Spells.of_lexeme (l := .closeBracket) trivial (fun _ _ => rfl) hp
      exact Spells.of_lexeme (l := .openBracket) trivial (fun _ _ => rfl) hclose

/-- A producer with a path behind it is derived, and what follows is its type. -/
theorem derives_target {producer body : String} {path : Path} {type : Option String}
    (hp : isIdentifier producer = true)
    (hpath : ∀ name, .field name ∈ path → isIdentifier name = true)
    (hbody : body.toList = producer.toList ++ (writtenPath path ++ colonText type)) :
    Derivation.Derives ⟨producer, path.map .ofSegment, type⟩ body := by
  refine ⟨producer.toList ++ writtenPath path, ?_, by rw [hbody, List.append_assoc]⟩
  exact Spells.of_lexeme (l := .identifier producer) hp (head_writtenPath path)
    (spells_writtenPath hpath)

theorem map_segment_ofSegment (path : Path) :
    (path.map WrittenSegment.ofSegment).map (·.segment) = path := by
  rw [List.map_map]
  refine List.map_id'' (fun segment => ?_) path
  cases segment <;> rfl

/-- A producer with a path behind it is read as such. -/
theorem parse_target {producer : String} {path : Path} (hp : isIdentifier producer = true)
    (hpath : ∀ name, .field name ∈ path → isIdentifier name = true) {body : String}
    (hbody : body.toList = producer.toList ++ writtenPath path) :
    parse body = .ok ⟨producer, path, none, spanText body⟩ := by
  have hbody' : body.toList = producer.toList ++ (writtenPath path ++ colonText none) := by
    rw [hbody, colonText, List.append_nil]
  have hd := derives_target hp hpath hbody'
  rw [hd.parse_eq_ok .none, Derivation.path, map_segment_ofSegment]

/-- A producer with a path behind it and a type ascribed to it is read as such. -/
theorem parse_target_typed {producer text : String} {path : Path} {s : Schema}
    (hp : isIdentifier producer = true)
    (hpath : ∀ name, .field name ∈ path → isIdentifier name = true)
    (ht : TypeText.parse text = .ok s) {body : String}
    (hbody : body.toList = producer.toList ++ (writtenPath path ++ ':' :: text.toList)) :
    parse body = .ok ⟨producer, path, some s, spanText body⟩ := by
  have hbody' : body.toList = producer.toList ++ (writtenPath path ++ colonText (some text)) := hbody
  have hd := derives_target hp hpath hbody'
  rw [hd.parse_eq_ok (.some ht), Derivation.path, map_segment_ofSegment]

/-! ## Characters between the marks -/

theorem isIdentifierChar_of_mem {word : String} (h : isIdentifier word = true) {d : Char}
    (hd : d ∈ word.toList) : Token.isIdentifierChar d = true := by
  obtain ⟨c, r, hlist, hstart, hchars⟩ := isIdentifier_iff.1 h
  rw [hlist] at hd
  rcases List.mem_cons.1 hd with rfl | hd
  · exact Token.isIdentifierChar_of_isIdentifierStart hstart
  · exact hchars d hd

theorem ne_brace_of_isIdentifier {word : String} (h : isIdentifier word = true) :
    ∀ c ∈ word.toList, c ≠ '\x7d' := by
  rintro c hc rfl
  cases isIdentifierChar_of_mem h hc

theorem ne_brace_of_mem_writtenPath {path : Path}
    (hpath : ∀ name, .field name ∈ path → isIdentifier name = true) :
    ∀ c ∈ writtenPath path, c ≠ '\x7d' := by
  induction path with
  | nil => nofun
  | cons segment p ih =>
    have ih := ih fun name hname => hpath name (List.mem_cons_of_mem segment hname)
    cases segment with
    | field name =>
      rw [writtenPath, List.forall_mem_cons, List.forall_mem_append]
      exact ⟨by decide, ne_brace_of_isIdentifier (hpath name List.mem_cons_self), ih⟩
    | element =>
      rw [writtenPath, List.forall_mem_cons, List.forall_mem_cons]
      exact ⟨by decide, by decide, ih⟩

theorem ne_brace_of_mem_text (s : Schema) : ∀ c ∈ s.text.toList, c ≠ '\x7d' := by
  rintro c hc rfl
  cases TypeText.isTypeChar_text s _ hc

/-! ## Plain words -/

theorem Spells.isValid_of_mem {ls : List Lexeme} {front : List Char} (h : Spells ls front) :
    ∀ l ∈ ls, l.IsValid := by
  induction h with
  | nil => nofun
  | cons _ hl _ _ ih => exact List.forall_mem_cons.2 ⟨hl, ih⟩

/-- A reference names its producer and its fields by plain words. -/
theorem isIdentifier_of_parse_eq_ok {body : String} {r : Reference} (h : parse body = .ok r) :
    isIdentifier r.producer = true ∧ ∀ name, .field name ∈ r.path → isIdentifier name = true := by
  obtain ⟨d, ⟨front, hspells, -⟩, -, hproducer, hpath, -⟩ := exists_of_parse_eq_ok h
  obtain ⟨hword, hsegments⟩ := List.forall_mem_cons.1 hspells.isValid_of_mem
  rw [hproducer, hpath]
  refine ⟨hword, fun name hname => ?_⟩
  obtain ⟨w, hw, hsegment⟩ := List.mem_map.1 hname
  have hlexeme : .identifier name ∈ w.lexemes := by
    cases w with
    | field =>
      cases hsegment
      exact List.mem_cons_of_mem _ List.mem_cons_self
    | place | item => cases hsegment
  exact hsegments (.identifier name) (List.mem_flatMap_of_mem hw hlexeme)

/-- A type that is ascribed was read from a type expression. -/
theorem exists_parse_of_ascribed {body : String} {r : Reference} {s : Schema}
    (h : parse body = .ok r) (hs : r.ascribed = some s) : ∃ text, TypeText.parse text = .ok s := by
  obtain ⟨⟨_, _, type⟩, -, htype, -⟩ := exists_of_parse_eq_ok h
  rw [hs] at htype
  cases htype with
  | some htext => exact ⟨_, htext⟩

end Reference

/-! ## Bindings -/

theorem toList_spanText (body : String) :
    (spanText body).toList = '$' :: '\x7b' :: (body.toList ++ ['\x7d']) := by
  simp [spanText]

namespace Span

/-- A text between the marks of a reference is a piece with nothing before it. -/
theorem divides_spanText {body : String} (h : ∀ c ∈ body.toList, c ≠ '\x7d') :
    Divides (spanText body).toList [⟨[], body.toList⟩] [] := by
  refine divides_cons_iff.2 ⟨⟨by simp [opening], fun hmem => h _ hmem rfl⟩, [], ?_,
    divides_nil_iff.2 ⟨rfl, by simp [opening]⟩⟩
  rw [toList_spanText, Piece.chars_append]
  rfl

theorem byteCount_spanText (body : String) :
    byteCount (spanText body).toList = 2 + byteCount body.toList + 1 := by
  have hopening : byteCount ['$', '\x7b'] = 2 := rfl
  have hclose : byteCount ['\x7d'] = 1 := rfl
  rw [toList_spanText, show '$' :: '\x7b' :: (body.toList ++ ['\x7d']) =
    ['$', '\x7b'] ++ (body.toList ++ ['\x7d']) from rfl, byteCount_append, byteCount_append, hopening,
    hclose, Nat.add_assoc]

theorem scan_spanText {body : String} (h : ∀ c ∈ body.toList, c ≠ '\x7d') :
    scan (spanText body) = .ok [⟨0, byteCount (spanText body).toList, body⟩] := by
  rw [scan, (divides_spanText h).scanFrom_eq, byteCount_spanText]
  simp [cutOpening, place, byteCount]

end Span

/-- The marks of a reference are no blanks. -/
theorem trimChars_append_spanText (lead : List Char) (body : String) (trail : List Char) :
    Text.trimChars (lead ++ ((spanText body).toList ++ trail)) = lead.dropWhile Text.isBlank ++
      ((spanText body).toList ++ (trail.reverse.dropWhile Text.isBlank).reverse) := by
  have hlast : (spanText body).toList.getLast? = some '\x7d' := by
    rw [toList_spanText, ← List.cons_append, ← List.cons_append, List.getLast?_concat]
  exact Text.trimChars_append (by simp [toList_spanText])
    (by rw [toList_spanText]; rintro c ⟨⟩; rfl) (by rw [hlast]; rintro c ⟨⟩; rfl) lead trail

theorem trimChars_spanText (body : String) :
    Text.trimChars (spanText body).toList = (spanText body).toList := by
  simpa using trimChars_append_spanText [] body []

/-- A reference between its marks is a binding by itself. -/
theorem Binding.parse_spanText {body : String} {r : Reference} (h : ∀ c ∈ body.toList, c ≠ '\x7d')
    (hr : Reference.parse body = .ok r) : parse (.str (spanText body)) = .ok (.reference r) := by
  simp [parse, ofText, Span.scan_spanText h, hr, trimChars_spanText, bind, Except.bind, pure,
    Except.pure]

/-- A text that is one reference has the body of that reference. -/
theorem Binding.exists_parse_of_eq_reference {text : String} {r : Reference}
    (h : parse (.str text) = .ok (.reference r)) : ∃ body, Reference.parse body = .ok r := by
  obtain ⟨spans, -, h⟩ := Except.bind_eq_ok_iff.1 h
  split at h
  · cases h
  · rename_i span
    obtain ⟨r', hr, h⟩ := Except.bind_eq_ok_iff.1 h
    split at h
    · cases h
      exact ⟨span.body, hr⟩
    · cases h
  · obtain ⟨rs, -, h⟩ := Except.bind_eq_ok_iff.1 h
    cases h

end CapabilityFlow
