import CapabilityFlow.Reference.Span
import Mathlib.Data.List.Infix
import Mathlib.Data.List.TakeWhile

/-!
# How a text is divided into spans

A text consists of pieces that end with a span each, and of a rest in which no span is complete
(`Span.Divides`). Every text is divided so in exactly one way. What is found in a text are the spans
of its pieces at their places, unless a mark is left open in the rest (`Span.Divides.scanFrom_eq`).
-/

namespace CapabilityFlow.Span

/-- The mark before a reference. -/
def opening : List Char := ['$', '\x7b']

/-- A part of a text that ends with a span. -/
structure Piece where
  /-- What stands before the span. -/
  before : List Char
  body : List Char

/-- The characters of a piece, with the marks of its span. -/
def Piece.chars (p : Piece) : List Char :=
  p.before ++ (opening ++ (p.body ++ ['\x7d']))

/-- A text consists of pieces, each of which ends with the first span in it, and of a rest in which
no span is complete. -/
structure Divides (s : List Char) (pieces : List Piece) (rest : List Char) : Prop where
  text : s = pieces.flatMap Piece.chars ++ rest
  clear : ∀ p ∈ pieces, ¬opening <:+: p.before
  closed : ∀ p ∈ pieces, '\x7d' ∉ p.body
  ended : ∀ before after, rest = before ++ (opening ++ after) → '\x7d' ∉ after

variable {s before after body more rest rest' : List Char} {p : Piece} {pieces pieces' : List Piece}

/-! ## The first mark -/

theorem cutOpening_cons {c : Char} (h : ¬opening <+: c :: s) :
    cutOpening (c :: s) = (cutOpening s).map fun (before, after) => (c :: before, after) := by
  rw [cutOpening.eq_def]
  dsimp only
  split
  · exact absurd ⟨_, rfl⟩ h
  · rfl

/-- A mark does not begin at the end of a text that stands before a mark. -/
theorem opening_isPrefix_cons_append {c : Char}
    (h : opening <+: c :: (s ++ (opening ++ after))) : opening <+: c :: s := by
  cases s with
  | nil => simp [opening] at h
  | cons d r => simpa [opening] using h

/-- The first mark is where no mark stands before it. -/
theorem cutOpening_append (h : ¬opening <:+: before) (after : List Char) :
    cutOpening (before ++ (opening ++ after)) = some (before, after) := by
  induction before with
  | nil => rfl
  | cons c r ih =>
    rw [List.infix_cons_iff, not_or] at h
    rw [List.cons_append, cutOpening_cons fun hp => h.1 (opening_isPrefix_cons_append hp), ih h.2]
    rfl

theorem cutOpening_eq_none_iff : cutOpening s = none ↔ ¬opening <:+: s := by
  induction s with
  | nil => simp [cutOpening, opening]
  | cons c r ih =>
    rw [List.infix_cons_iff, not_or]
    by_cases hp : opening <+: c :: r
    · obtain ⟨r', hr⟩ := hp
      rw [← hr]
      simp [opening, cutOpening]
    · rw [cutOpening_cons hp, Option.map_eq_none_iff, ih]
      exact (and_iff_right hp).symm

theorem eq_of_cutOpening (h : cutOpening s = some (before, after)) :
    s = before ++ (opening ++ after) ∧ ¬opening <:+: before := by
  induction s generalizing before after with
  | nil => simp [cutOpening] at h
  | cons c r ih =>
    by_cases hp : opening <+: c :: r
    · obtain ⟨r', hr⟩ := hp
      rw [← hr] at h ⊢
      cases h
      exact ⟨rfl, by simp [opening]⟩
    · rw [cutOpening_cons hp, Option.map_eq_some_iff] at h
      obtain ⟨⟨before', after'⟩, hr, heq⟩ := h
      cases heq
      obtain ⟨rfl, hclear⟩ := ih hr
      refine ⟨rfl, ?_⟩
      rw [List.infix_cons_iff, not_or]
      exact ⟨fun hc => hp (hc.trans (List.prefix_append (c :: before') _)), hclear⟩

/-- What follows any mark follows the first one. -/
theorem exists_cutOpening_append (before after : List Char) : ∃ before' after',
    cutOpening (before ++ (opening ++ after)) = some (before', after') ∧ after <:+ after' := by
  induction before with
  | nil => exact ⟨[], after, rfl, List.suffix_rfl⟩
  | cons c r ih =>
    by_cases hp : opening <+: c :: (r ++ (opening ++ after))
    · obtain ⟨t, ht⟩ := opening_isPrefix_cons_append hp
      refine ⟨[], t ++ (opening ++ after), ?_, List.suffix_append_of_suffix (List.suffix_append _ _)⟩
      rw [← ht]
      rfl
    · obtain ⟨before', after', hcut, hsuffix⟩ := ih
      refine ⟨c :: before', after', ?_, hsuffix⟩
      rw [List.cons_append, cutOpening_cons hp, hcut]
      rfl

/-! ## Pieces -/

theorem isBodyChar_iff {c : Char} : isBodyChar c = true ↔ c ≠ '\x7d' := by
  simp [isBodyChar]

/-- A body ends with the first closing brace. -/
theorem takeWhile_body (h : '\x7d' ∉ body) (more : List Char) :
    (body ++ '\x7d' :: more).takeWhile isBodyChar = body ∧
      (body ++ '\x7d' :: more).dropWhile isBodyChar = '\x7d' :: more := by
  have hbody : ∀ c ∈ body, isBodyChar c = true :=
    fun c hc => isBodyChar_iff.2 fun heq => h (heq ▸ hc)
  rw [List.takeWhile_append_of_pos hbody, List.dropWhile_append_of_pos hbody]
  simp [isBodyChar]

theorem Piece.chars_append (p : Piece) (more : List Char) :
    p.chars ++ more = p.before ++ (opening ++ (p.body ++ '\x7d' :: more)) := by
  simp [Piece.chars]

theorem divides_nil_iff : Divides s [] rest ↔
    s = rest ∧ ∀ before after, rest = before ++ (opening ++ after) → '\x7d' ∉ after :=
  ⟨fun h => ⟨h.text, h.ended⟩, fun h => ⟨h.1, nofun, nofun, h.2⟩⟩

theorem divides_cons_iff : Divides s (p :: pieces) rest ↔
    (¬opening <:+: p.before ∧ '\x7d' ∉ p.body) ∧ ∃ more, s = p.chars ++ more ∧
      Divides more pieces rest := by
  constructor
  · rintro ⟨htext, hclear, hclosed, hended⟩
    rw [List.forall_mem_cons] at hclear hclosed
    refine ⟨⟨hclear.1, hclosed.1⟩, _, ?_, rfl, hclear.2, hclosed.2, hended⟩
    rw [htext, List.flatMap_cons, List.append_assoc]
  · rintro ⟨⟨hclear, hclosed⟩, more, rfl, hmore⟩
    refine ⟨?_, List.forall_mem_cons.2 ⟨hclear, hmore.clear⟩,
      List.forall_mem_cons.2 ⟨hclosed, hmore.closed⟩, hmore.ended⟩
    rw [hmore.text, List.flatMap_cons, List.append_assoc]

theorem exists_divides (s : List Char) : ∃ pieces rest, Divides s pieces rest := by
  match hcut : cutOpening s with
  | none =>
    refine ⟨[], s, divides_nil_iff.2 ⟨rfl, ?_⟩⟩
    rintro before after rfl
    obtain ⟨_, _, hsome, -⟩ := exists_cutOpening_append before after
    cases hcut.symm.trans hsome
  | some (before, after) =>
    obtain ⟨hs, hclear⟩ := eq_of_cutOpening hcut
    by_cases hclose : '\x7d' ∈ after
    · obtain ⟨body, more, rfl, hbody⟩ := List.eq_append_cons_of_mem hclose
      obtain ⟨pieces, rest, h⟩ := exists_divides more
      refine ⟨⟨before, body⟩ :: pieces, rest, divides_cons_iff.2 ⟨⟨hclear, hbody⟩, more, ?_, h⟩⟩
      rw [hs, Piece.chars_append]
    · refine ⟨[], s, divides_nil_iff.2 ⟨rfl, ?_⟩⟩
      rintro before' after' rfl
      obtain ⟨_, _, hsome, hsuffix⟩ := exists_cutOpening_append before' after'
      cases hcut.symm.trans hsome
      exact fun hmem => hclose (hsuffix.mem hmem)
termination_by s.length
decreasing_by
  rw [hs]
  simp
  omega

/-- The first mark and the first brace behind it are those of the first piece. -/
theorem Divides.exists_cutOpening (h : Divides s (p :: pieces) rest) : ∃ more,
    cutOpening s = some (p.before, p.body ++ '\x7d' :: more) ∧ Divides more pieces rest := by
  obtain ⟨⟨hclear, -⟩, more, rfl, hmore⟩ := divides_cons_iff.1 h
  refine ⟨more, ?_, hmore⟩
  rw [Piece.chars_append, cutOpening_append hclear]

theorem not_divides_nil (h : Divides s (p :: pieces) rest) : ¬Divides s [] rest' := by
  intro h'
  obtain ⟨rfl, hended⟩ := divides_nil_iff.1 h'
  obtain ⟨-, more, hs, -⟩ := divides_cons_iff.1 h
  exact hended _ _ (hs.trans (p.chars_append more)) (by simp)

/-- A text is divided in one way only. -/
theorem Divides.unique (h : Divides s pieces rest) (h' : Divides s pieces' rest') :
    pieces = pieces' ∧ rest = rest' := by
  induction pieces generalizing s pieces' with
  | nil =>
    cases pieces' with
    | nil => exact ⟨rfl, (divides_nil_iff.1 h).1.symm.trans (divides_nil_iff.1 h').1⟩
    | cons q more' => exact absurd h (not_divides_nil h')
  | cons p more ih =>
    cases pieces' with
    | nil => exact absurd h' (not_divides_nil h)
    | cons q more' =>
      obtain ⟨⟨-, hp⟩, -⟩ := divides_cons_iff.1 h
      obtain ⟨⟨-, hq⟩, -⟩ := divides_cons_iff.1 h'
      obtain ⟨l, hcut, h⟩ := h.exists_cutOpening
      obtain ⟨l', hcut', h'⟩ := h'.exists_cutOpening
      obtain ⟨hbefore, hafter⟩ := Prod.mk.inj (Option.some.inj (hcut.symm.trans hcut'))
      have hbody : p.body = q.body := by
        rw [← (takeWhile_body hp l).1, hafter, (takeWhile_body hq l').1]
      have hl : l = l' := by
        have hdrop := (takeWhile_body hp l).2
        rw [hafter, (takeWhile_body hq l').2] at hdrop
        exact (List.cons.inj hdrop).2.symm
      obtain ⟨rfl, rfl⟩ := ih h (hl ▸ h')
      refine ⟨?_, rfl⟩
      cases p
      cases q
      simp_all

/-! ## Scanning -/

theorem byteCount_append (cs ds : List Char) :
    byteCount (cs ++ ds) = byteCount cs + byteCount ds := by
  simp only [byteCount, List.map_append, ← List.sum_eq_foldl, List.sum_append]

theorem Piece.byteCount_chars (p : Piece) :
    byteCount p.chars = byteCount p.before + 2 + byteCount p.body + 1 := by
  have hopening : byteCount opening = 2 := rfl
  have hclose : byteCount ['\x7d'] = 1 := rfl
  simp only [Piece.chars, byteCount_append, hopening, hclose, Nat.add_assoc]

/-- The spans of pieces that stand one after the other from an offset on. -/
def place (offset : Nat) : List Piece → List Span
  | [] => []
  | p :: pieces =>
    let start := offset + byteCount p.before
    ⟨start, start + 2 + byteCount p.body + 1, String.ofList p.body⟩ ::
      place (offset + byteCount p.chars) pieces

theorem scanFrom_of_none (h : cutOpening s = none) (offset column : Nat) :
    scanFrom offset column s = .ok [] := by
  rw [scanFrom]
  split
  · rfl
  · rename_i hsome
    cases h.symm.trans hsome

theorem scanFrom_of_open (h : cutOpening s = some (before, after)) (hclose : '\x7d' ∉ after)
    (offset column : Nat) :
    scanFrom offset column s = .error (.unterminated (column + before.length)) := by
  have hdrop : after.dropWhile isBodyChar = [] :=
    List.dropWhile_eq_nil_iff.2 fun c hc => isBodyChar_iff.2 fun heq => hclose (heq ▸ hc)
  rw [scanFrom]
  split
  · rename_i hnone
    cases h.symm.trans hnone
  · rename_i hsome
    cases h.symm.trans hsome
    dsimp only
    split
    · rfl
    · rename_i hcons
      cases hdrop.symm.trans hcons

theorem scanFrom_of_closed (h : cutOpening s = some (before, body ++ '\x7d' :: more))
    (hbody : '\x7d' ∉ body) (offset column : Nat) :
    scanFrom offset column s =
      (scanFrom (offset + byteCount before + 2 + byteCount body + 1)
        (column + before.length + 2 + body.length + 1) more).map
        (⟨offset + byteCount before, offset + byteCount before + 2 + byteCount body + 1,
          String.ofList body⟩ :: ·) := by
  obtain ⟨htake, hdrop⟩ := takeWhile_body hbody more
  rw [scanFrom]
  split
  · rename_i hnone
    cases h.symm.trans hnone
  · rename_i hsome
    cases h.symm.trans hsome
    dsimp only
    split
    · rename_i hnil
      cases hdrop.symm.trans hnil
    · rename_i hcons
      cases hdrop.symm.trans hcons
      rw [htake]
      cases scanFrom (offset + byteCount before + 2 + byteCount body + 1)
        (column + before.length + 2 + body.length + 1) more <;> rfl

/-- What is found in a text are the spans of its pieces, unless there is a mark in the rest. -/
theorem Divides.scanFrom_eq (h : Divides s pieces rest) (offset column : Nat) :
    scanFrom offset column s =
      match cutOpening rest with
      | none => .ok (place offset pieces)
      | some (before, _) =>
        .error (.unterminated (column + (pieces.flatMap Piece.chars).length + before.length)) := by
  induction pieces generalizing s offset column with
  | nil =>
    obtain ⟨rfl, hended⟩ := divides_nil_iff.1 h
    match hcut : cutOpening s with
    | none => exact scanFrom_of_none hcut offset column
    | some (before, after) =>
      exact scanFrom_of_open hcut (hended before after (eq_of_cutOpening hcut).1) offset column
  | cons p more ih =>
    obtain ⟨⟨-, hp⟩, -⟩ := divides_cons_iff.1 h
    obtain ⟨l, hcut, hl⟩ := h.exists_cutOpening
    rw [scanFrom_of_closed hcut hp, ih hl]
    match cutOpening rest with
    | none =>
      have hnext : offset + byteCount p.before + 2 + byteCount p.body + 1 =
          offset + byteCount p.chars := by
        rw [p.byteCount_chars]
        omega
      simp only [Except.map, place, hnext]
    | some (before, after) =>
      have hlength : p.chars.length = p.before.length + 2 + p.body.length + 1 := by
        simp [Piece.chars, opening]
        omega
      simp only [Except.map, List.flatMap_cons, List.length_append, hlength, Except.error.injEq,
        ReferenceError.unterminated.injEq]
      omega

end CapabilityFlow.Span
