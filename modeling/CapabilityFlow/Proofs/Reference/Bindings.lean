import CapabilityFlow.Proofs.Reference.Reading

/-!
# What values are bound to

The strings in a value decide what it is bound to: it is refused when one of them leaves a mark open
or has a span that is no reference, and otherwise its form and the spans tell the kind of binding,
which reads the references of all spans in order (`Binding.parse_classifies`). That a string is one
span and nothing else is told by lengths alone (`Span.Divides.isWhole_iff`).
-/

namespace CapabilityFlow

namespace Span

/-- The spans of a text have these bodies, in order. -/
def HasBodies (text : String) (bodies : List String) : Prop :=
  ∃ pieces rest, Divides text.toList pieces rest ∧ bodies = pieces.map (String.ofList ·.body)

/-- A mark of a text is left open. -/
def IsOpen (text : String) : Prop :=
  ∃ pieces rest, Divides text.toList pieces rest ∧ opening <:+: rest

/-- A text has a span. -/
def HasSpan (text : String) : Prop :=
  ∃ bodies, HasBodies text bodies ∧ bodies ≠ []

/-- A text is one span, apart from the blanks around it. -/
def IsWhole (text : String) : Prop :=
  ∃ body : String, '\x7d' ∉ body.toList ∧ Text.trim text = spanText body

variable {text : String} {pieces : List Piece} {rest : List Char} {bodies : List String}

/-! ## The spans of a divided text -/

theorem Divides.hasBodies_iff (h : Divides text.toList pieces rest) :
    HasBodies text bodies ↔ bodies = pieces.map (String.ofList ·.body) := by
  constructor
  · rintro ⟨pieces', rest', h', rfl⟩
    rw [(h.unique h').1]
  · exact fun hbodies => ⟨pieces, rest, h, hbodies⟩

theorem HasBodies.hasSpan_iff (h : HasBodies text bodies) : HasSpan text ↔ bodies ≠ [] := by
  obtain ⟨pieces, rest, hdivides, rfl⟩ := h
  simp only [HasSpan, hdivides.hasBodies_iff, exists_eq_left]

/-- Texts have no bodies altogether when none of them has a span. -/
theorem flatten_eq_nil_iff {texts : List String} {bodies : List (List String)}
    (h : List.Forall₂ HasBodies texts bodies) :
    bodies.flatten = [] ↔ ∀ text ∈ texts, ¬HasSpan text := by
  induction h with
  | nil => simp
  | cons hfirst _ ih =>
    rw [List.flatten_cons, List.append_eq_nil_iff, ih, List.forall_mem_cons, hfirst.hasSpan_iff,
      not_ne_iff]

theorem Divides.isOpen_iff (h : Divides text.toList pieces rest) :
    IsOpen text ↔ opening <:+: rest := by
  constructor
  · rintro ⟨pieces', rest', h', hopen⟩
    rwa [(h.unique h').2]
  · exact fun hopen => ⟨pieces, rest, h, hopen⟩

theorem map_body_place (offset : Nat) (pieces : List Piece) :
    (place offset pieces).map (·.body) = pieces.map (String.ofList ·.body) := by
  induction pieces generalizing offset with
  | nil => rfl
  | cons p pieces ih => rw [place, List.map_cons, List.map_cons, ih]

theorem Divides.scan_of_closed (h : Divides text.toList pieces rest) (hclosed : ¬IsOpen text) :
    scan text = .ok (place 0 pieces) := by
  rw [h.isOpen_iff, ← cutOpening_eq_none_iff] at hclosed
  rw [scan, h.scanFrom_eq, hclosed]

theorem exists_scan_eq_error (h : IsOpen text) : ∃ e, scan text = .error e := by
  obtain ⟨pieces, rest, h, hopen⟩ := h
  rw [scan, h.scanFrom_eq]
  split
  · rename_i hnone
    exact absurd hopen (cutOpening_eq_none_iff.1 hnone)
  · exact ⟨_, rfl⟩

theorem mapM_parse_place (offset : Nat) (pieces : List Piece) :
    (place offset pieces).mapM (Reference.parse ·.body) =
      (pieces.map (String.ofList ·.body)).mapM Reference.parse := by
  rw [← map_body_place offset, List.mapM_map, Function.comp_def]

/-! ## Texts that are one span -/

theorem byteCount_eq_zero_iff {cs : List Char} : byteCount cs = 0 ↔ cs = [] := by
  cases cs with
  | nil => simp [byteCount]
  | cons c r =>
    have hc := c.utf8Size_pos
    rw [show c :: r = [c] ++ r from rfl, byteCount_append]
    simp [byteCount]
    omega

theorem not_opening_isInfix_of_blank {cs : List Char} (h : ∀ c ∈ cs, Text.isBlank c = true) :
    ¬opening <:+: cs := by
  rintro ⟨before, after, rfl⟩
  have hmark := h '$' (by simp [opening])
  exact absurd hmark (by decide)

theorem Piece.chars_append_eq_spanText (p : Piece) (more : List Char) :
    p.chars ++ more = p.before ++ ((spanText (String.ofList p.body)).toList ++ more) := by
  simp [Piece.chars, toList_spanText, opening]

/-- A text with a single span is that span, apart from blanks, as soon as it is as long. -/
theorem Divides.isWhole_iff (h : Divides text.toList pieces rest) : IsWhole text ↔
    ∃ p, pieces = [p] ∧ 2 + byteCount p.body + 1 = byteCount (Text.trimChars text.toList) := by
  constructor
  · rintro ⟨body, hbody, htrim⟩
    have htrim : Text.trimChars text.toList = (spanText body).toList := by
      rw [← htrim, Text.trim, String.toList_ofList]
    obtain ⟨lead, trail, htext, hlead, htrail⟩ := Text.exists_eq_append_trimChars text.toList
    have hone : Divides text.toList [⟨lead, body.toList⟩] trail := by
      refine divides_cons_iff.2 ⟨⟨not_opening_isInfix_of_blank hlead, hbody⟩, trail, ?_,
        divides_nil_iff.2 ⟨rfl, ?_⟩⟩
      · rw [htext, htrim, Piece.chars_append_eq_spanText, String.ofList_toList]
      · intro before after heq
        exact absurd ⟨before, after, by simp [heq]⟩ (not_opening_isInfix_of_blank htrail)
    refine ⟨⟨lead, body.toList⟩, (h.unique hone).1, ?_⟩
    rw [htrim, byteCount_spanText]
  · rintro ⟨p, rfl, hlength⟩
    obtain ⟨⟨-, hclosed⟩, more, htext, -⟩ := divides_cons_iff.1 h
    rw [Piece.chars_append_eq_spanText] at htext
    rw [htext, trimChars_append_spanText, byteCount_append, byteCount_append, byteCount_spanText,
      String.toList_ofList] at hlength
    -- Nothing of the text is left around the span.
    have hlead : p.before.dropWhile Text.isBlank = [] := byteCount_eq_zero_iff.1 (by omega)
    have htrail : (more.reverse.dropWhile Text.isBlank).reverse = [] :=
      byteCount_eq_zero_iff.1 (by omega)
    refine ⟨String.ofList p.body, by rwa [String.toList_ofList], ?_⟩
    rw [Text.trim, htext, trimChars_append_spanText, hlead, htrail, List.nil_append,
      List.append_nil, String.ofList_toList]

theorem IsWhole.hasSpan (h : IsWhole text) : HasSpan text := by
  obtain ⟨pieces, rest, hd⟩ := exists_divides text.toList
  obtain ⟨p, rfl, -⟩ := hd.isWhole_iff.1 h
  exact (hd.hasBodies_iff.2 rfl).hasSpan_iff.2 (List.cons_ne_nil _ _)

end Span

/-! ## The references of a text -/

namespace Reference

variable {text : String} {rs : List Reference}

theorem allIn_of_scan {spans : List Span} (h : Span.scan text = .ok spans) :
    allIn text = spans.mapM (parse ·.body) := by
  rw [allIn, h]
  rfl

theorem allIn_eq_ok_iff : allIn text = .ok rs ↔ ¬Span.IsOpen text ∧
    ∃ bodies, Span.HasBodies text bodies ∧ List.Forall₂ (parse · = .ok ·) bodies rs := by
  obtain ⟨pieces, rest, h⟩ := Span.exists_divides text.toList
  by_cases hopen : Span.IsOpen text
  · obtain ⟨e, he⟩ := Span.exists_scan_eq_error hopen
    simp [allIn, he, hopen, bind, Except.bind]
  · rw [allIn_of_scan (h.scan_of_closed hopen), Span.mapM_parse_place, Except.mapM_eq_ok_iff]
    simp only [hopen, h.hasBodies_iff, exists_eq_left, not_false_iff, true_and]

theorem exists_allIn_eq_error_iff : (∃ e, allIn text = .error e) ↔ Span.IsOpen text ∨
    ∃ bodies, Span.HasBodies text bodies ∧ ∃ body ∈ bodies, ∃ e, parse body = .error e := by
  obtain ⟨pieces, rest, h⟩ := Span.exists_divides text.toList
  by_cases hopen : Span.IsOpen text
  · obtain ⟨e, he⟩ := Span.exists_scan_eq_error hopen
    simp [allIn, he, hopen, bind, Except.bind]
  · rw [allIn_of_scan (h.scan_of_closed hopen), Span.mapM_parse_place,
      Except.exists_mapM_eq_error_iff]
    simp only [hopen, h.hasBodies_iff, exists_eq_left, false_or]

end Reference

/-! ## The strings in a value -/

/-- The strings in a value, in order. -/
def Value.strings : Value → List String
  | .str text => [text]
  | .arr items => items.flatMap Value.strings
  | .obj members => members.flatMap fun m => Value.strings m.2
  | _ => []
termination_by v => sizeOf v
decreasing_by
  · have := List.sizeOf_lt_of_mem ‹_ ∈ _›
    simp; omega
  · have := Table.sizeOf_lt_of_mem ‹_ ∈ _›
    simp; omega

namespace Value

/-- When the references of every item are those of its strings, so are the references of all. -/
theorem mapM_references {items : List Value}
    (h : ∀ v ∈ items, v.references = List.flatten <$> v.strings.mapM Reference.allIn) :
    List.flatten <$> items.mapM references =
      List.flatten <$> (items.flatMap strings).mapM Reference.allIn := by
  induction items with
  | nil => rfl
  | cons v items ih =>
    obtain ⟨hv, hitems⟩ := List.forall_mem_cons.1 h
    have hmore : ∀ rs : List Reference,
        (fun more => rs ++ more.flatten) <$> items.mapM references =
          (fun more => rs ++ more.flatten) <$> (items.flatMap strings).mapM Reference.allIn := by
      intro rs
      simpa using congrArg (Functor.map (rs ++ ·)) (ih hitems)
    rw [List.mapM_cons, List.flatMap_cons, List.mapM_append, hv]
    simp [hmore]

/-- The references of a value are those of its strings. -/
theorem references_eq (v : Value) :
    v.references = List.flatten <$> v.strings.mapM Reference.allIn := by
  fun_induction strings v with
  | case1 text => simp [references]
  | case2 items ih =>
    rw [references, ← mapM_references ih]
    simp
  | case3 members ih =>
    have hvalues : ∀ v ∈ members.map (·.2),
        v.references = List.flatten <$> v.strings.mapM Reference.allIn := by
      intro v hv
      obtain ⟨m, hm, rfl⟩ := List.mem_map.1 hv
      exact ih m hm
    have hmembers := mapM_references hvalues
    rw [List.mapM_map, List.flatMap_map] at hmembers
    rw [references, ← hmembers]
    simp
    rfl
  | case4 v hstr harr hobj =>
    cases v with
    | str text => exact absurd rfl (hstr text)
    | arr items => exact absurd rfl (harr items)
    | obj members => exact absurd rfl (hobj members)
    | _ =>
      simp only [references]
      rfl

variable {v : Value} {rs : List Reference}

theorem exists_references_eq_error_iff : (∃ e, v.references = .error e) ↔
    ∃ text ∈ v.strings, ∃ e, Reference.allIn text = .error e := by
  rw [← Except.exists_mapM_eq_error_iff, references_eq]
  exact exists_congr fun e => Except.map_eq_error_iff

/-- The references of a value are read from the spans of its strings, one by one. -/
theorem exists_bodies_of_references (h : v.references = .ok rs) : ∃ bodies,
    List.Forall₂ Span.HasBodies v.strings bodies ∧
      List.Forall₂ (Reference.parse · = .ok ·) bodies.flatten rs := by
  rw [references_eq] at h
  obtain ⟨rss, hrss, rfl⟩ := Except.map_eq_ok_iff.1 h
  clear h
  rw [Except.mapM_eq_ok_iff] at hrss
  generalize v.strings = texts at hrss
  induction hrss with
  | nil => exact ⟨[], .nil, .nil⟩
  | cons hfirst _ ih =>
    obtain ⟨-, bodies, hbodies, hread⟩ := Reference.allIn_eq_ok_iff.1 hfirst
    obtain ⟨more, hmore, hreadMore⟩ := ih
    exact ⟨bodies :: more, .cons hbodies hmore, List.rel_append hread hreadMore⟩

/-- A value has references when one of its strings has a span. -/
theorem ne_nil_of_references (h : v.references = .ok rs) :
    rs ≠ [] ↔ ∃ text ∈ v.strings, Span.HasSpan text := by
  obtain ⟨bodies, hbodies, hread⟩ := exists_bodies_of_references h
  have hnil : rs = [] ↔ bodies.flatten = [] := by
    rw [← List.length_eq_zero_iff, ← hread.length_eq, List.length_eq_zero_iff]
  rw [ne_eq, hnil, Span.flatten_eq_nil_iff hbodies]
  simp only [not_forall, not_not, exists_prop]

end Value

/-! ## Kinds of bindings -/

namespace Binding

open CapabilityFlow.Span

variable {text : String} {v : Value} {e : ReferenceError} {rs : List Reference}

theorem ofText_of_scan_singleton {span : Span} (h : scan text = .ok [span]) :
    ofText text = (Reference.parse span.body).map fun r =>
      if span.stop - span.start = byteCount (Text.trimChars text.toList) then .reference r
      else .template text [r] := by
  rw [ofText, h]
  cases hr : Reference.parse span.body with
  | error e => simp [hr, bind, Except.bind, Except.map]
  | ok r =>
    simp only [hr, bind, Except.bind, Except.map]
    split <;> rfl

theorem ofText_of_scan_many {spans : List Span} (h : scan text = .ok spans)
    (hmany : 1 < spans.length) :
    ofText text = (spans.mapM (Reference.parse ·.body)).map (.template text) := by
  rw [ofText, h]
  cases spans with
  | nil => exact absurd hmany (Nat.not_lt_zero 1)
  | cons span rest =>
    cases rest with
    | nil => exact absurd hmany (Nat.lt_irrefl 1)
    | cons span' more =>
      simp only [bind, Except.bind]
      cases List.mapM (Reference.parse ·.body) (span :: span' :: more) <;> rfl

/-- Where the references of a text cannot be read, there is no binding, for the same reason. -/
theorem ofText_eq_error (h : Reference.allIn text = .error e) : ofText text = .error e := by
  cases hscan : scan text with
  | error e' =>
    rw [Reference.allIn, hscan] at h
    rw [ofText, hscan, ← Except.error.inj h]
    rfl
  | ok spans =>
    rw [Reference.allIn_of_scan hscan] at h
    obtain ⟨span, hspan, e', he'⟩ := Except.exists_mapM_eq_error_iff.1 ⟨e, h⟩
    by_cases hone : spans.length = 1
    · obtain ⟨span', rfl⟩ := List.length_eq_one_iff.1 hone
      obtain rfl := List.mem_singleton.1 hspan
      rw [List.mapM_cons, he'] at h
      rw [ofText_of_scan_singleton hscan, he', ← Except.error.inj h]
      rfl
    · have hpos := List.length_pos_of_mem hspan
      rw [ofText_of_scan_many hscan (by omega), h]
      rfl

/-- A text without spans is a literal, one that is a single span is a reference, and any other is a
template. -/
theorem ofText_cases (h : Reference.allIn text = .ok rs) :
    (¬HasSpan text ∧ ofText text = .ok (.literal (.str text))) ∨
    (IsWhole text ∧ ∃ r, rs = [r] ∧ ofText text = .ok (.reference r)) ∨
    (HasSpan text ∧ ¬IsWhole text ∧ ofText text = .ok (.template text rs)) := by
  obtain ⟨hclosed, -⟩ := Reference.allIn_eq_ok_iff.1 h
  obtain ⟨pieces, rest, hd⟩ := Span.exists_divides text.toList
  have hscan := hd.scan_of_closed hclosed
  have hspan : HasSpan text ↔ pieces ≠ [] := by
    rw [(hd.hasBodies_iff.2 rfl).hasSpan_iff, ne_eq, List.map_eq_nil_iff]
  rw [Reference.allIn_of_scan hscan] at h
  rw [hd.isWhole_iff, hspan]
  obtain - | ⟨p, - | ⟨q, more⟩⟩ := pieces
  · refine .inl ⟨by simp, ?_⟩
    rw [ofText, hscan]
    rfl
  · rw [Except.mapM_eq_ok_iff] at h
    obtain ⟨r, _, hr, hnil, rfl⟩ := List.forall₂_cons_left_iff.1 h
    cases hnil
    have hstop : 0 + byteCount p.before + 2 + byteCount p.body + 1 - (0 + byteCount p.before) =
        2 + byteCount p.body + 1 := by
      omega
    rw [ofText_of_scan_singleton hscan, hr]
    simp only [Except.map, hstop]
    split
    · rename_i hlength
      exact .inr (.inl ⟨⟨p, rfl, hlength⟩, r, rfl, rfl⟩)
    · rename_i hlength
      refine .inr (.inr ⟨List.cons_ne_nil _ _, ?_, rfl⟩)
      rintro ⟨q, heq, hq⟩
      cases heq
      exact hlength hq
  · refine .inr (.inr ⟨List.cons_ne_nil _ _, by simp, ?_⟩)
    rw [ofText_of_scan_many hscan (by simp [place]), h]
    rfl

theorem parse_eq_error (h : v.references = .error e) : parse v = .error e := by
  cases v with
  | str text =>
    rw [Value.references] at h
    exact ofText_eq_error h
  | arr items | obj members =>
    rw [parse, h]
    rfl
  | null | bool | int | float => simp [Value.references] at h

/-- What a value is bound to. Whether strings of the value have spans decides over literals, and the
form of the value over the rest. The references are those of all spans in order. -/
structure Classifies (v : Value) (b : Binding) : Prop where
  reference : (∃ r, b = .reference r) ↔ ∃ text, v = .str text ∧ IsWhole text
  template : ∀ text, (∃ rs, b = .template text rs) ↔
    v = .str text ∧ HasSpan text ∧ ¬IsWhole text
  composite : ∀ w, (∃ rs, b = .composite w rs) ↔
    v = w ∧ ((∃ items, v = .arr items) ∨ ∃ members, v = .obj members) ∧
      ∃ text ∈ v.strings, HasSpan text
  literal : ∀ w, b = .literal w ↔ v = w ∧ ∀ text ∈ v.strings, ¬HasSpan text
  references : ∃ bodies, List.Forall₂ HasBodies v.strings bodies ∧
    List.Forall₂ (Reference.parse · = .ok ·) bodies.flatten b.references

/-- A text is bound to itself, to the one reference that it is, or as a template. -/
theorem exists_parse_text (h : (Value.str text).references = .ok rs) :
    ∃ b, parse (.str text) = .ok b ∧ Classifies (.str text) b := by
  have hbodies := Value.exists_bodies_of_references h
  have hspan := Value.ne_nil_of_references h
  have hstrings : (Value.str text).strings = [text] := by rw [Value.strings]
  rw [Value.references] at h
  obtain ⟨hno, hb⟩ | ⟨hwhole, r, rfl, hb⟩ | ⟨hyes, hnot, hb⟩ := ofText_cases h
  · have hnot : ¬IsWhole text := fun hwhole => hno hwhole.hasSpan
    obtain rfl : rs = [] := by
      rw [hstrings] at hspan
      simpa [hno] using hspan
    refine ⟨_, hb, ?_⟩
    constructor
    case references => exact hbodies
    all_goals simp [hstrings, hno, hnot]
  · have hyes := hwhole.hasSpan
    refine ⟨_, hb, ?_⟩
    constructor
    case references => exact hbodies
    all_goals simp [hstrings, hyes, hwhole]
  · refine ⟨_, hb, ?_⟩
    constructor
    case references => exact hbodies
    all_goals simp [hstrings, hyes, hnot]

/-- An array or an object is bound to itself, or with the references of its strings. -/
theorem parse_container (hform : (∃ items, v = .arr items) ∨ ∃ members, v = .obj members)
    (h : v.references = .ok rs) :
    parse v = .ok (if rs = [] then .literal v else .composite v rs) := by
  obtain ⟨items, rfl⟩ | ⟨members, rfl⟩ := hform
  all_goals
    rw [parse, h]
    cases rs <;> rfl

theorem exists_parse_container (hform : (∃ items, v = .arr items) ∨ ∃ members, v = .obj members)
    (h : v.references = .ok rs) : ∃ b, parse v = .ok b ∧ Classifies v b := by
  have hbodies := Value.exists_bodies_of_references h
  have hspan := Value.ne_nil_of_references h
  have htext : ∀ text, v ≠ .str text := by
    rintro text rfl
    simp at hform
  refine ⟨_, parse_container hform h, ?_⟩
  by_cases hnil : rs = []
  · have hno : ∀ text ∈ v.strings, ¬HasSpan text :=
      fun text htext hyes => hspan.2 ⟨text, htext, hyes⟩ hnil
    subst hnil
    rw [if_pos rfl]
    constructor
    case references => exact hbodies
    case literal => simpa using hno
    case composite => simpa using fun _ => hno
    all_goals simp [htext]
  · have hyes := hspan.1 hnil
    rw [if_neg hnil]
    constructor
    case references => exact hbodies
    all_goals simp [htext, hyes, hform]

/-- A value whose references can be read is bound to what its spans and its form make of it. -/
theorem exists_parse_of_references (h : v.references = .ok rs) :
    ∃ b, parse v = .ok b ∧ Classifies v b := by
  cases v with
  | str text => exact exists_parse_text h
  | arr items => exact exists_parse_container (.inl ⟨items, rfl⟩) h
  | obj members => exact exists_parse_container (.inr ⟨members, rfl⟩) h
  | null | bool | int | float =>
    refine ⟨_, rfl, ?_⟩
    constructor
    case references => exact ⟨[], by simp [Value.strings], .nil⟩
    all_goals simp [Value.strings]

/-- Parsing fails when a string in the value leaves a mark open or has a span that is no reference,
and only then. Otherwise the value is bound to what its spans and its form make of it. -/
theorem parse_classifies (v : Value) :
    ((∃ e, parse v = .error e) ↔ ∃ text ∈ v.strings, IsOpen text ∨
      ∃ bodies, HasBodies text bodies ∧ ∃ body ∈ bodies, ∃ e, Reference.parse body = .error e) ∧
    ∀ b, parse v = .ok b → Classifies v b := by
  simp only [← Reference.exists_allIn_eq_error_iff, ← Value.exists_references_eq_error_iff]
  cases h : v.references with
  | error e =>
    rw [parse_eq_error h]
    simp
  | ok rs =>
    obtain ⟨b, hb, hclassifies⟩ := exists_parse_of_references h
    rw [hb]
    simpa using hclassifies

namespace Sample

/-- A text with two spans before a list with a text that is one span. -/
def report : Value :=
  .obj [("title", .str "From ${a.name} to ${b}"), ("rows", .arr [.int 2, .str " ${c.rows[]}\n"])]

/-- What is found in the two texts, in order. -/
def sources : List Reference :=
  [⟨"a", [.field "name"], none, "${a.name}"⟩, ⟨"b", [], none, "${b}"⟩,
    ⟨"c", [.field "rows", .element], none, "${c.rows[]}"⟩]

end Sample

open Sample in
theorem parse_classifies_sample : parse report = .ok (.composite report sources) ∧
    Classifies report (.composite report sources) := by
  have hparse : parse report = .ok (.composite report sources) :=
    Except.toOption_eq_some_iff.1 (by decide +kernel)
  exact ⟨hparse, (parse_classifies report).2 _ hparse⟩

end Binding

end CapabilityFlow
