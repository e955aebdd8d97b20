import CapabilityFlow.Proofs.Reference.Spans

/-!
# Spans and the gaps between them

Read by their byte offsets, the spans that are found in a text and the gaps around them are the whole
text: a span is its body between the marks, and no gap has an opening mark (`Span.Partitions`). Nothing
is found where a mark is left open behind the last complete span, and the column that is reported then
is that of the first such mark (`Span.scan_partitions`).
-/

namespace CapabilityFlow

/-! ## Parts of texts -/

/-- The bytes of a text between two offsets are those of another text. -/
structure Text.HasPart (text : String) (start stop : Nat) (part : String) : Prop where
  start_le : start ≤ stop
  stop_le : stop ≤ text.utf8ByteSize
  bytes : text.toByteArray.extract start stop = part.toByteArray

theorem Text.hasPart_append (lead part trail : String) : HasPart (lead ++ (part ++ trail))
    lead.utf8ByteSize (lead.utf8ByteSize + part.utf8ByteSize) part where
  start_le := Nat.le_add_right _ _
  stop_le := by
    rw [String.utf8ByteSize_append, String.utf8ByteSize_append, ← Nat.add_assoc]
    exact Nat.le_add_right _ _
  bytes := by
    rw [String.toByteArray_append, String.toByteArray_append]
    exact (ByteArray.extract_append_size_add (i := 0)).trans (ByteArray.extract_append_eq_left rfl)

namespace Span

theorem byteCount_eq (cs : List Char) : byteCount cs = (String.ofList cs).utf8ByteSize := by
  induction cs with
  | nil => rfl
  | cons c cs ih =>
    have hc : byteCount [c] = (String.ofList [c]).utf8ByteSize := by
      rw [← String.singleton_eq_ofList, String.utf8ByteSize_singleton]
      exact Nat.zero_add _
    rw [← List.singleton_append, byteCount_append, String.ofList_append,
      String.utf8ByteSize_append, hc, ih]

theorem hasPart_ofList (lead part trail : List Char) :
    Text.HasPart (String.ofList (lead ++ (part ++ trail))) (byteCount lead)
      (byteCount lead + byteCount part) (String.ofList part) := by
  rw [byteCount_eq, byteCount_eq, String.ofList_append, String.ofList_append]
  exact Text.hasPart_append _ _ _

/-! ## Gaps -/

/-- Where the gaps around spans begin and end, from an offset up to the end of the text. -/
def gaps (start stop : Nat) : List Span → List (Nat × Nat)
  | [] => [(start, stop)]
  | s :: spans => (start, s.start) :: gaps s.stop stop spans

/-- A text consists of spans, each of which is its body between the marks, and of gaps without an opening
mark. -/
structure Partitions (text : String) (spans : List Span) : Prop where
  ordered : spans.Pairwise fun a b => a.stop ≤ b.start
  marked : ∀ s ∈ spans,
    Text.HasPart text s.start s.stop (spanText s.body) ∧ '\x7d' ∉ s.body.toList
  clear : ∀ g ∈ gaps 0 text.utf8ByteSize spans, ∃ gap,
    Text.HasPart text g.1 g.2 gap ∧ ¬opening <:+: gap.toList

variable {pieces : List Piece} {rest : List Char}

theorem ordered_place (offset : Nat) (pieces : List Piece) :
    (∀ s ∈ place offset pieces, offset ≤ s.start) ∧
      (place offset pieces).Pairwise fun a b => a.stop ≤ b.start := by
  induction pieces generalizing offset with
  | nil => exact ⟨nofun, .nil⟩
  | cons p pieces ih =>
    obtain ⟨hle, hpairwise⟩ := ih (offset + byteCount p.chars)
    have hchars := p.byteCount_chars
    refine ⟨List.forall_mem_cons.2 ⟨Nat.le_add_right _ _, fun s hs => ?_⟩,
      .cons (fun s hs => ?_) hpairwise⟩
    · have := hle s hs
      omega
    · have := hle s hs
      dsimp only
      omega

theorem ofList_marked (body : List Char) :
    String.ofList (opening ++ (body ++ ['\x7d'])) = spanText (String.ofList body) :=
  String.toList_injective (by simp [spanText, opening])

/-- Behind what stands before them, the spans of pieces have their places. -/
theorem marked_place (lead : List Char) (hclosed : ∀ p ∈ pieces, '\x7d' ∉ p.body) (rest : List Char) :
    ∀ s ∈ place (byteCount lead) pieces,
      Text.HasPart (String.ofList (lead ++ (pieces.flatMap Piece.chars ++ rest))) s.start s.stop
        (spanText s.body) ∧ '\x7d' ∉ s.body.toList := by
  induction pieces generalizing lead with
  | nil => exact nofun
  | cons p pieces ih =>
    rw [List.forall_mem_cons] at hclosed
    rw [place, List.forall_mem_cons]
    constructor
    · have hpart := hasPart_ofList (lead ++ p.before) (opening ++ (p.body ++ ['\x7d']))
        (pieces.flatMap Piece.chars ++ rest)
      have hopening : byteCount opening = 2 := rfl
      have hclose : byteCount ['\x7d'] = 1 := rfl
      simp only [byteCount_append, hopening, hclose, ofList_marked] at hpart
      refine ⟨?_, by simpa using hclosed.1⟩
      simpa [Piece.chars, Nat.add_assoc] using hpart
    · have hmore := ih (lead ++ p.chars) hclosed.2
      rw [byteCount_append] at hmore
      simpa using hmore

/-- Behind what stands before them, the gaps around pieces have no opening mark. -/
theorem clear_place (lead : List Char) (hclear : ∀ p ∈ pieces, ¬opening <:+: p.before)
    (hrest : ¬opening <:+: rest) :
    ∀ g ∈ gaps (byteCount lead) (byteCount (lead ++ (pieces.flatMap Piece.chars ++ rest)))
        (place (byteCount lead) pieces), ∃ gap,
      Text.HasPart (String.ofList (lead ++ (pieces.flatMap Piece.chars ++ rest))) g.1 g.2 gap ∧
        ¬opening <:+: gap.toList := by
  induction pieces generalizing lead with
  | nil =>
    have hpart := hasPart_ofList lead rest []
    simp only [List.append_nil] at hpart
    rintro _ (_ | ⟨_, ⟨⟩⟩)
    refine ⟨String.ofList rest, ?_, by simpa using hrest⟩
    simpa [byteCount_append] using hpart
  | cons p pieces ih =>
    rw [List.forall_mem_cons] at hclear
    rw [place, gaps, List.forall_mem_cons]
    constructor
    · have hpart := hasPart_ofList lead p.before
        (opening ++ (p.body ++ ['\x7d']) ++ (pieces.flatMap Piece.chars ++ rest))
      refine ⟨String.ofList p.before, ?_, by simpa using hclear.1⟩
      simpa [Piece.chars] using hpart
    · have hmore := ih (lead ++ p.chars) hclear.2
      have hstop : byteCount lead + byteCount p.before + 2 + byteCount p.body + 1 =
          byteCount (lead ++ p.chars) := by
        rw [byteCount_append, p.byteCount_chars]
        omega
      dsimp only
      rw [hstop, ← byteCount_append]
      simpa using hmore

/-! ## Scanning -/

theorem Divides.partitions {text : String} (h : Divides text.toList pieces rest)
    (hrest : ¬opening <:+: rest) : Partitions text (place 0 pieces) := by
  obtain rfl : text = String.ofList (pieces.flatMap Piece.chars ++ rest) := by
    rw [← h.text, String.ofList_toList]
  refine ⟨(ordered_place 0 pieces).2, marked_place [] h.closed rest, ?_⟩
  rw [← byteCount_eq]
  exact clear_place [] h.clear hrest

/-- A rest in which no span is complete has a mark exactly when it has one that is not closed. -/
theorem Divides.opening_isInfix_iff {s : List Char} (h : Divides s pieces rest) :
    opening <:+: rest ↔
      ∃ before after, rest = before ++ (opening ++ after) ∧ '\x7d' ∉ after := by
  constructor
  · rintro ⟨before, after, hmark⟩
    rw [List.append_assoc] at hmark
    exact ⟨before, after, hmark.symm, h.ended before after hmark.symm⟩
  · rintro ⟨before, after, rfl, -⟩
    exact ⟨before, after, List.append_assoc _ _ _⟩

/-- A text whose spans are found consists of them and of gaps without an opening mark. They are not found
exactly when the text behind the last complete span has a mark that is not closed anywhere, and the column
of the first one is reported, counted in characters from the start of the text. -/
theorem scan_partitions (text : String) :
    (∀ spans, scan text = .ok spans → Partitions text spans) ∧
    ∃ pieces rest, Divides text.toList pieces rest ∧
      ((∃ e, scan text = .error e) ↔
        ∃ before after, rest = before ++ (opening ++ after) ∧ '\x7d' ∉ after) ∧
      ∀ e, scan text = .error e → ∃ before after, rest = before ++ (opening ++ after) ∧
        ¬opening <:+: before ∧
        e = .unterminated (1 + (pieces.flatMap Piece.chars ++ before).length) := by
  obtain ⟨pieces, rest, h⟩ := exists_divides text.toList
  have hscan : scan text = _ := h.scanFrom_eq 0 1
  match hcut : cutOpening rest with
  | none =>
    have hrest : ¬opening <:+: rest := cutOpening_eq_none_iff.1 hcut
    rw [hcut] at hscan
    refine ⟨fun spans hspans => ?_, pieces, rest, h, ?_, fun e he => ?_⟩
    · cases hscan.symm.trans hspans
      exact h.partitions hrest
    · rw [← h.opening_isInfix_iff, iff_false_right hrest, hscan]
      rintro ⟨e, ⟨⟩⟩
    · cases hscan.symm.trans he
  | some (before, after) =>
    obtain ⟨hrest, hclear⟩ := eq_of_cutOpening hcut
    rw [hcut] at hscan
    refine ⟨fun spans hspans => ?_, pieces, rest, h, ?_, fun e he => ?_⟩
    · cases hscan.symm.trans hspans
    · exact iff_of_true ⟨_, hscan⟩ ⟨before, after, hrest, h.ended before after hrest⟩
    · cases hscan.symm.trans he
      refine ⟨before, after, hrest, hclear, ?_⟩
      rw [List.length_append, Nat.add_assoc]

-- Offsets count bytes, columns count characters, and a mark in a body opens nothing.
example : scan "é$\x7bé.a\x7d$\x7bb$\x7bc\x7d \x7d" =
    .ok [⟨2, 9, "é.a"⟩, ⟨9, 16, "b$\x7bc"⟩] := by
  decide +kernel

example : scan "é$\x7bé\x7d $\x7ba$\x7b" = .error (.unterminated 7) := by
  decide +kernel

end Span

end CapabilityFlow
