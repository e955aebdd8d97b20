import CapabilityFlow.Proofs.Schema.TypeText
import CapabilityFlow.Reference.Parser

/-!
# The grammar of references

The body of a reference is made of lexemes with blanks around them (`Reference.Spells`), each word as
long as it can be, and of the text of a type behind the first colon. A body is read exactly when the
grammar derives it, and as the reference that its derivation names
(`Reference.parse_eq_ok_iff_derives`).
-/

namespace CapabilityFlow.Reference

/-! ## Derivations -/

/-- Whether a word can name a producer or a field. -/
def isIdentifier (word : String) : Bool :=
  match word.toList with
  | [] => false
  | c :: r => Token.isIdentifierStart c && r.all Token.isIdentifierChar

theorem isIdentifier_iff {word : String} : isIdentifier word = true ↔ ∃ c r, word.toList = c :: r ∧
    Token.isIdentifierStart c = true ∧ ∀ d ∈ r, Token.isIdentifierChar d = true := by
  unfold isIdentifier
  cases word.toList with
  | nil => simp
  | cons c r =>
    rw [Bool.and_eq_true, List.all_eq_true]
    constructor
    · rintro ⟨hc, hr⟩
      exact ⟨c, r, rfl, hc, hr⟩
    · rintro ⟨c', r', heq, hc, hr⟩
      obtain ⟨rfl, rfl⟩ := List.cons.inj heq
      exact ⟨hc, hr⟩

/-- The parts that a reference is made of. -/
inductive Lexeme where
  | identifier (word : String)
  | number (digits : String)
  | dot
  | openBracket
  | closeBracket

namespace Lexeme

def kind : Lexeme → TokenKind
  | identifier _ => .identifier
  | number _ => .number
  | dot => .dot
  | openBracket => .openBracket
  | closeBracket => .closeBracket

def text : Lexeme → String
  | identifier word => word
  | number digits => digits
  | dot => "."
  | openBracket => "["
  | closeBracket => "]"

/-- Whether the word of a lexeme is an identifier, or consists of digits. -/
def IsValid : Lexeme → Prop
  | identifier word => isIdentifier word = true
  | number digits => digits.toList ≠ [] ∧ ∀ c ∈ digits.toList, c.isDigit = true
  | dot | openBracket | closeBracket => True

/-- Whether a word goes on with a character that stands behind it. -/
def continues : Lexeme → Char → Bool
  | identifier _ => Token.isIdentifierChar
  | number _ => Char.isDigit
  | dot | openBracket | closeBracket => fun _ => false

end Lexeme

/-- A text consists of lexemes, each as long as it can be, with blanks before, between and after
them. -/
inductive Spells : List Lexeme → List Char → Prop where
  | nil {blanks : List Char} (hblanks : ∀ c ∈ blanks, Text.isBlank c = true) : Spells [] blanks
  | cons {l : Lexeme} {ls : List Lexeme} {blanks rest : List Char}
      (hblanks : ∀ c ∈ blanks, Text.isBlank c = true) (hl : l.IsValid)
      (hgreedy : ∀ c ∈ rest.head?, l.continues c = false) (h : Spells ls rest) :
      Spells (l :: ls) (blanks ++ (l.text.toList ++ rest))

/-- A derivation of `segment := '.' identifier | '.' digits | '[' digits? ']'`. -/
inductive WrittenSegment where
  | field (name : String)
  | place (digits : String)
  | item (digits : Option String)

namespace WrittenSegment

def lexemes : WrittenSegment → List Lexeme
  | field name => [.dot, .identifier name]
  | place digits => [.dot, .number digits]
  | item none => [.openBracket, .closeBracket]
  | item (some digits) => [.openBracket, .number digits, .closeBracket]

def segment : WrittenSegment → Segment
  | field name => .field name
  | place _ | item _ => .element

end WrittenSegment

/-- A derivation of `reference := identifier segment* (':' type)?`, with the text of the type. -/
structure Derivation where
  producer : String
  segments : List WrittenSegment
  type : Option String

/-- A colon and the text behind it, if there are any. -/
def colonText : Option String → List Char
  | none => []
  | some text => ':' :: text.toList

namespace Derivation

def lexemes (d : Derivation) : List Lexeme :=
  .identifier d.producer :: d.segments.flatMap (·.lexemes)

/-- Whether a body is derived so. -/
def Derives (d : Derivation) (body : String) : Prop :=
  ∃ front, Spells d.lexemes front ∧ body.toList = front ++ colonText d.type

def path (d : Derivation) : Path :=
  d.segments.map (·.segment)

/-- Whether the text of the type is a type expression, and what it writes. -/
def Ascribes (d : Derivation) (ascribed : Option Schema) : Prop :=
  Option.Rel (fun text s => TypeText.parse text = .ok s) d.type ascribed

end Derivation

/-! ## Words -/

namespace Token

theorem isBlank_of_isIdentifierChar {c : Char} (h : isIdentifierChar c = true) :
    Text.isBlank c = false := by
  by_cases hc : c = '-'
  · rw [hc]
    rfl
  · refine TypeText.isBlank_of_isTypeChar ?_
    simp only [isIdentifierChar, hc, decide_false, Bool.or_false] at h
    simp only [TypeText.isTypeChar, TypeText.isNameChar, h, Bool.true_or]

theorem isIdentifierChar_of_isIdentifierStart {c : Char} (h : isIdentifierStart c = true) :
    isIdentifierChar c = true := by
  simp only [isIdentifierStart, Bool.or_eq_true] at h
  rcases h with h | h <;> simp [isIdentifierChar, Char.isAlphanum, h]

theorem lead?_of_isIdentifierStart {c : Char} (h : isIdentifierStart c = true) (r : List Char) :
    lead? c r = some (.identifier, r.takeWhile isIdentifierChar) := by
  have hne : ∀ d, isIdentifierStart d = false → c ≠ d := by
    rintro d hd rfl
    rw [hd] at h
    cases h
  have hdigit : c.isDigit = false := by
    unfold isIdentifierStart at h
    delta Char.isAlpha Char.isUpper Char.isLower at h
    simp only [Bool.or_eq_true, Bool.and_eq_true, decide_eq_true_eq, ge_iff_le,
      UInt32.le_iff_toNat_le] at h
    rw [Char.isDigit, Bool.and_eq_false_iff, decide_eq_false_iff_not, decide_eq_false_iff_not,
      UInt32.le_iff_toNat_le]
    rcases h with (⟨h, -⟩ | ⟨h, -⟩) | rfl
    · exact .inr fun hle => absurd (Nat.le_trans h hle) (by decide)
    · exact .inr fun hle => absurd (Nat.le_trans h hle) (by decide)
    · exact .inr (by decide)
  unfold lead?
  rw [if_neg (hne '.' rfl), if_neg (hne '[' rfl), if_neg (hne ']' rfl), hdigit, h]
  rfl

theorem lead?_of_isDigit {c : Char} (h : c.isDigit = true) (r : List Char) :
    lead? c r = some (.number, r.takeWhile Char.isDigit) := by
  have hne : ∀ d, d.isDigit = false → c ≠ d := by
    rintro d hd rfl
    rw [hd] at h
    cases h
  unfold lead?
  rw [if_neg (hne '.' rfl), if_neg (hne '[' rfl), if_neg (hne ']' rfl), if_pos h]

end Token

namespace Lexeme

variable {l : Lexeme} {rest : List Char}

theorem continues_colon (l : Lexeme) : l.continues ':' = false := by
  cases l <;> rfl

/-- A lexeme that cannot be longer is what its first character leads. -/
theorem IsValid.exists_lead? (h : l.IsValid) (hrest : ∀ c ∈ rest.head?, l.continues c = false) :
    ∃ c word, l.text.toList = c :: word ∧ Text.isBlank c = false ∧ c ≠ ':' ∧
      Token.lead? c (word ++ rest) = some (l.kind, word) := by
  cases l with
  | dot | openBracket | closeBracket => exact ⟨_, [], rfl, rfl, by decide, rfl⟩
  | identifier word =>
    obtain ⟨c, r, hlist, hstart, hchars⟩ := isIdentifier_iff.1 h
    refine ⟨c, r, hlist, ?_, ?_, ?_⟩
    · exact Token.isBlank_of_isIdentifierChar (Token.isIdentifierChar_of_isIdentifierStart hstart)
    · rintro rfl
      cases hstart
    · rw [Token.lead?_of_isIdentifierStart hstart, (TypeText.takeWhile_word hchars hrest).1]
      rfl
  | number digits =>
    obtain ⟨hne, hdigits⟩ := h
    obtain ⟨c, r, hlist⟩ := List.exists_cons_of_ne_nil hne
    rw [hlist] at hdigits
    obtain ⟨hc, hr⟩ := List.forall_mem_cons.1 hdigits
    refine ⟨c, r, hlist, ?_, ?_, ?_⟩
    · refine Token.isBlank_of_isIdentifierChar ?_
      simp [Token.isIdentifierChar, Char.isAlphanum, hc]
    · rintro rfl
      cases hc
    · rw [Token.lead?_of_isDigit hc, (TypeText.takeWhile_word hr hrest).1]
      rfl

theorem eq_takeWhile_append_drop (p : Char → Bool) (r : List Char) :
    r = r.takeWhile p ++ r.drop (r.takeWhile p).length ∧
      ∀ c ∈ (r.drop (r.takeWhile p).length).head?, p c = false := by
  have hdrop : r.drop (r.takeWhile p).length = r.dropWhile p := by
    conv_lhs => arg 2; rw [← List.takeWhile_append_dropWhile (p := p) (l := r)]
    exact List.drop_left
  rw [hdrop]
  refine ⟨List.takeWhile_append_dropWhile.symm, fun c hc => ?_⟩
  have hhead := List.head?_dropWhile_not p r
  rw [Option.mem_def.1 hc] at hhead
  exact hhead

/-- What a character leads is a lexeme that cannot be longer. -/
theorem exists_of_lead? {c : Char} {r word : List Char} {kind : TokenKind}
    (h : Token.lead? c r = some (kind, word)) :
    ∃ l : Lexeme, l.IsValid ∧ l.kind = kind ∧ l.text.toList = c :: word ∧
      r = word ++ r.drop word.length ∧ ∀ d ∈ (r.drop word.length).head?, l.continues d = false := by
  unfold Token.lead? at h
  split at h
  · rename_i hc
    cases h
    exact ⟨dot, trivial, rfl, hc ▸ rfl, rfl, fun _ _ => rfl⟩
  split at h
  · rename_i hc
    cases h
    exact ⟨openBracket, trivial, rfl, hc ▸ rfl, rfl, fun _ _ => rfl⟩
  split at h
  · rename_i hc
    cases h
    exact ⟨closeBracket, trivial, rfl, hc ▸ rfl, rfl, fun _ _ => rfl⟩
  split at h
  · rename_i hdigit
    cases h
    refine ⟨number (String.ofList (c :: r.takeWhile Char.isDigit)), ?_, rfl, String.toList_ofList,
      eq_takeWhile_append_drop Char.isDigit r⟩
    rw [IsValid, String.toList_ofList, List.forall_mem_cons]
    exact ⟨List.cons_ne_nil _ _, hdigit, fun d hd => List.mem_takeWhile_imp hd⟩
  split at h
  · rename_i hstart
    cases h
    refine ⟨identifier (String.ofList (c :: r.takeWhile Token.isIdentifierChar)), ?_, rfl,
      String.toList_ofList, eq_takeWhile_append_drop Token.isIdentifierChar r⟩
    exact isIdentifier_iff.2 ⟨c, _, String.toList_ofList, hstart,
      fun d hd => List.mem_takeWhile_imp hd⟩
  · cases h

end Lexeme

/-! ## Tokens -/

/-- The lexeme of a token, unless it is the colon or the end. -/
def Token.lexeme? : Token → Option Lexeme
  | ⟨.identifier, word, _⟩ => some (.identifier word)
  | ⟨.number, digits, _⟩ => some (.number digits)
  | ⟨.dot, _, _⟩ => some .dot
  | ⟨.openBracket, _, _⟩ => some .openBracket
  | ⟨.closeBracket, _, _⟩ => some .closeBracket
  | ⟨.colon, _, _⟩ | ⟨.finish, _, _⟩ => none

/-- Tokens stand for lexemes, with the end behind them, or a colon and the end. -/
inductive Cuts : List Lexeme → Option String → List Token → Prop where
  | finish (text : String) (column : Nat) : Cuts [] none [⟨.finish, text, column⟩]
  | colon (tail text text' : String) (column column' : Nat) :
      Cuts [] (some tail) [⟨.colon, text, column⟩, ⟨.finish, text', column'⟩]
  | cons {l : Lexeme} {ls : List Lexeme} {t : Token} {ts : List Token} {tail : Option String}
      (hl : t.lexeme? = some l) (h : Cuts ls tail ts) : Cuts (l :: ls) tail (t :: ts)

theorem Lexeme.lexeme?_mk (l : Lexeme) (column : Nat) :
    Token.lexeme? ⟨l.kind, l.text, column⟩ = some l := by
  cases l <;> rfl

variable {column : Nat} {ls : List Lexeme} {front s : List Char} {ts rest : List Token}
  {tail : Option String} {path : Path}

namespace Token

theorem tokenizeFrom_of_lead? {c : Char} {r word : List Char} {kind : TokenKind}
    (hblank : Text.isBlank c = false) (hcolon : c ≠ ':') (hlead : lead? c r = some (kind, word))
    (h : tokenizeFrom (column + 1 + word.length) (r.drop word.length) = .ok (ts, tail)) :
    tokenizeFrom column (c :: r) = .ok (⟨kind, String.ofList (c :: word), column⟩ :: ts, tail) := by
  unfold tokenizeFrom
  simp only [hblank, hcolon, hlead, h, bind, Except.bind, pure, Except.pure, if_false,
    Bool.false_eq_true]

theorem tokenizeFrom_blanks {blanks : List Char} (hblanks : ∀ c ∈ blanks, Text.isBlank c = true)
    (column : Nat) (s : List Char) :
    tokenizeFrom column (blanks ++ s) = tokenizeFrom (column + blanks.length) s := by
  induction blanks generalizing column with
  | nil => rfl
  | cons c blanks ih =>
    obtain ⟨hc, hblanks⟩ := List.forall_mem_cons.1 hblanks
    have hskip : tokenizeFrom column (c :: (blanks ++ s)) =
        tokenizeFrom (column + 1) (blanks ++ s) := by
      conv_lhs => unfold tokenizeFrom
      exact if_pos hc
    rw [List.cons_append, hskip, ih hblanks, List.length_cons, Nat.add_assoc, Nat.add_comm 1]

end Token

namespace Spells

theorem of_lexeme {l : Lexeme} (hl : l.IsValid) (hgreedy : ∀ c ∈ front.head?, l.continues c = false)
    (h : Spells ls front) : Spells (l :: ls) (l.text.toList ++ front) := by
  have hnone : ∀ c ∈ ([] : List Char), Text.isBlank c = true := nofun
  exact .cons hnone hl hgreedy h

theorem of_blank {c : Char} (hc : Text.isBlank c = true) (h : Spells ls front) :
    Spells ls (c :: front) := by
  cases h with
  | nil hblanks => exact .nil (List.forall_mem_cons.2 ⟨hc, hblanks⟩)
  | cons hblanks hl hgreedy h => exact .cons (List.forall_mem_cons.2 ⟨hc, hblanks⟩) hl hgreedy h

end Spells

/-- What is cut into tokens is spelled by their lexemes. -/
theorem exists_of_tokenizeFrom_eq_ok (h : Token.tokenizeFrom column s = .ok (ts, tail)) :
    ∃ ls front, Spells ls front ∧ s = front ++ colonText tail ∧ Cuts ls tail ts := by
  fun_induction Token.tokenizeFrom column s generalizing ts tail with
  | case1 =>
    cases h
    exact ⟨[], [], .nil nofun, rfl, .finish _ _⟩
  | case2 column c r hc ih =>
    obtain ⟨ls, front, hspells, rfl, hcuts⟩ := ih h
    exact ⟨ls, c :: front, hspells.of_blank hc, rfl, hcuts⟩
  | case3 =>
    cases h
    exact ⟨[], [], .nil nofun, by simp [colonText], .colon _ _ _ _ _⟩
  | case4 => cases h
  | case5 column c r _ _ kind word hlead ih =>
    obtain ⟨⟨ts', tail'⟩, htokens, h⟩ := Except.bind_eq_ok_iff.1 h
    cases h
    obtain ⟨ls, front, hspells, hdrop, hcuts⟩ := ih htokens
    obtain ⟨l, hl, rfl, htext, hr, hgreedy⟩ := Lexeme.exists_of_lead? hlead
    have hname : String.ofList (c :: word) = l.text := by
      rw [← htext, String.ofList_toList]
    have hspells' : Spells (l :: ls) (c :: word ++ front) := by
      have hfront : ∀ d ∈ front.head?, l.continues d = false := by
        intro d hd
        refine hgreedy d ?_
        rw [hdrop, List.head?_append, Option.mem_def.1 hd]
        rfl
      rw [← htext]
      exact .of_lexeme hl hfront hspells
    refine ⟨l :: ls, _, hspells', ?_, .cons ?_ hcuts⟩
    · rw [List.append_assoc, ← hdrop, List.cons_append, ← hr]
    · rw [hname, l.lexeme?_mk]

/-- What lexemes spell is cut into their tokens. -/
theorem Spells.exists_tokenizeFrom (h : Spells ls front) (column : Nat) (tail : Option String) :
    ∃ ts, Token.tokenizeFrom column (front ++ colonText tail) = .ok (ts, tail) ∧ Cuts ls tail ts := by
  induction h generalizing column with
  | @nil blanks hblanks =>
    rw [Token.tokenizeFrom_blanks hblanks]
    cases tail with
    | none =>
      refine ⟨_, ?_, .finish "" (column + blanks.length)⟩
      unfold Token.tokenizeFrom
      rfl
    | some text =>
      refine ⟨_, ?_, .colon text ":" "" (column + blanks.length)
        (column + blanks.length + 1 + text.toList.length)⟩
      unfold colonText Token.tokenizeFrom
      rw [String.ofList_toList]
      rfl
  | @cons l ls blanks rest hblanks hl hgreedy _ ih =>
    have hgreedy' : ∀ c ∈ (rest ++ colonText tail).head?, l.continues c = false := by
      cases rest with
      | nil =>
        cases tail with
        | none => nofun
        | some text =>
          intro c hc
          cases hc
          exact l.continues_colon
      | cons => exact hgreedy
    obtain ⟨c, word, htext, hblank, hcolon, hlead⟩ := hl.exists_lead? hgreedy'
    have hname : String.ofList (c :: word) = l.text := by
      rw [← htext, String.ofList_toList]
    obtain ⟨ts, htokens, hcuts⟩ := ih (column + blanks.length + 1 + word.length)
    refine ⟨⟨l.kind, l.text, column + blanks.length⟩ :: ts, ?_, .cons (l.lexeme?_mk _) hcuts⟩
    rw [List.append_assoc, List.append_assoc, Token.tokenizeFrom_blanks hblanks, htext,
      List.cons_append, ← hname]
    refine Token.tokenizeFrom_of_lead? hblank hcolon hlead ?_
    rw [List.drop_left]
    exact htokens

namespace Cuts

theorem exists_of_lexeme? {l : Lexeme} {t : Token} (ht : t.lexeme? = some l)
    (h : Cuts ls tail (t :: ts)) : ∃ ls', ls = l :: ls' ∧ Cuts ls' tail ts := by
  cases h with
  | finish | colon => cases ht
  | cons hl h =>
    cases Option.some.inj (ht.symm.trans hl)
    exact ⟨_, rfl, h⟩

theorem exists_of_cons {l : Lexeme} (h : Cuts (l :: ls) tail ts) :
    ∃ text column ts', ts = ⟨l.kind, text, column⟩ :: ts' ∧
      Token.lexeme? ⟨l.kind, text, column⟩ = some l ∧ Cuts ls tail ts' := by
  obtain - | - | @⟨_, _, ⟨kind, text, column⟩, ts', _, hl, h⟩ := h
  obtain rfl : l.kind = kind := by
    cases kind with
    | colon | finish => cases hl
    | identifier | number | dot | openBracket | closeBracket =>
      cases hl
      rfl
  exact ⟨text, column, ts', rfl, hl, h⟩

end Cuts

/-! ## Paths -/

theorem of_take_eq_ok {expected : TokenKind} {t : Token} (h : take expected ts = .ok (t, rest)) :
    ts = t :: rest ∧ t.kind = expected := by
  unfold take at h
  split at h
  · split at h
    · rename_i hkind
      cases h
      exact ⟨rfl, hkind⟩
    · cases h
  · cases h

theorem segments_more_eq_ok_iff {s : Segment} {r : Except ReferenceError (Path × List Token)}
    {path : Path} : segments.more s r = .ok (path, rest) ↔
      ∃ path', r = .ok (path', rest) ∧ path = s :: path' := by
  unfold segments.more
  rw [Except.map_eq_ok_iff]
  constructor
  · rintro ⟨⟨path', rest'⟩, hr, h⟩
    cases h
    exact ⟨path', hr, rfl⟩
  · rintro ⟨path', hr, rfl⟩
    exact ⟨(path', rest), hr, rfl⟩

/-- What is read as a path stands for its segments. -/
theorem exists_of_segments_eq_ok (h : segments ts = .ok (path, rest)) (hcuts : Cuts ls tail ts) :
    ∃ (ws : List WrittenSegment) (ls' : List Lexeme), ls = ws.flatMap (·.lexemes) ++ ls' ∧
      path = ws.map (·.segment) ∧ Cuts ls' tail rest := by
  fun_induction segments ts generalizing path ls with
  | case1 _ _ digits _ r ih =>
    obtain ⟨path', hr, rfl⟩ := segments_more_eq_ok_iff.1 h
    obtain ⟨_, rfl, h₁⟩ := hcuts.exists_of_lexeme? rfl
    obtain ⟨_, rfl, h₂⟩ := h₁.exists_of_lexeme? rfl
    obtain ⟨ws, ls', rfl, rfl, hrest⟩ := ih hr h₂
    exact ⟨.place digits :: ws, ls', rfl, rfl, hrest⟩
  | case2 _ _ name _ r ih =>
    obtain ⟨path', hr, rfl⟩ := segments_more_eq_ok_iff.1 h
    obtain ⟨_, rfl, h₁⟩ := hcuts.exists_of_lexeme? rfl
    obtain ⟨_, rfl, h₂⟩ := h₁.exists_of_lexeme? rfl
    obtain ⟨ws, ls', rfl, rfl, hrest⟩ := ih hr h₂
    exact ⟨.field name :: ws, ls', rfl, rfl, hrest⟩
  | case4 _ _ digits _ _ _ r ih =>
    obtain ⟨path', hr, rfl⟩ := segments_more_eq_ok_iff.1 h
    obtain ⟨_, rfl, h₁⟩ := hcuts.exists_of_lexeme? rfl
    obtain ⟨_, rfl, h₂⟩ := h₁.exists_of_lexeme? rfl
    obtain ⟨_, rfl, h₃⟩ := h₂.exists_of_lexeme? rfl
    obtain ⟨ws, ls', rfl, rfl, hrest⟩ := ih hr h₃
    exact ⟨.item (some digits) :: ws, ls', rfl, rfl, hrest⟩
  | case6 _ _ _ _ r ih =>
    obtain ⟨path', hr, rfl⟩ := segments_more_eq_ok_iff.1 h
    obtain ⟨_, rfl, h₁⟩ := hcuts.exists_of_lexeme? rfl
    obtain ⟨_, rfl, h₂⟩ := h₁.exists_of_lexeme? rfl
    obtain ⟨ws, ls', rfl, rfl, hrest⟩ := ih hr h₂
    exact ⟨.item none :: ws, ls', rfl, rfl, hrest⟩
  | case3 | case5 | case7 => cases h
  | case8 =>
    cases h
    exact ⟨[], ls, rfl, rfl, hcuts⟩

/-- What stands for a segment is read as that segment, and reading goes on behind it. -/
theorem Cuts.exists_segments_more {w : WrittenSegment} (h : Cuts (w.lexemes ++ ls) tail ts) :
    ∃ r, segments ts = segments.more w.segment (segments r) ∧ Cuts ls tail r := by
  cases w with
  | field name =>
    obtain ⟨_, _, _, rfl, ⟨⟩, h₁⟩ := h.exists_of_cons
    obtain ⟨_, _, r, rfl, ⟨⟩, h₂⟩ := h₁.exists_of_cons
    exact ⟨r, rfl, h₂⟩
  | place digits =>
    obtain ⟨_, _, _, rfl, ⟨⟩, h₁⟩ := h.exists_of_cons
    obtain ⟨_, _, r, rfl, ⟨⟩, h₂⟩ := h₁.exists_of_cons
    exact ⟨r, rfl, h₂⟩
  | item digits =>
    cases digits with
    | none =>
      obtain ⟨_, _, _, rfl, ⟨⟩, h₁⟩ := h.exists_of_cons
      obtain ⟨_, _, r, rfl, ⟨⟩, h₂⟩ := h₁.exists_of_cons
      exact ⟨r, rfl, h₂⟩
    | some digits =>
      obtain ⟨_, _, _, rfl, ⟨⟩, h₁⟩ := h.exists_of_cons
      obtain ⟨_, _, _, rfl, ⟨⟩, h₂⟩ := h₁.exists_of_cons
      obtain ⟨_, _, r, rfl, ⟨⟩, h₃⟩ := h₂.exists_of_cons
      exact ⟨r, rfl, h₃⟩

/-- What stands for segments and nothing else is read as their path, up to the end. -/
theorem Cuts.exists_segments {ws : List WrittenSegment} (h : Cuts (ws.flatMap (·.lexemes)) tail ts) :
    ∃ rest, segments ts = .ok (ws.map (·.segment), rest) ∧ Cuts [] tail rest := by
  induction ws generalizing ts with
  | nil =>
    refine ⟨ts, ?_, h⟩
    cases h <;> rfl
  | cons w ws ih =>
    rw [List.flatMap_cons] at h
    obtain ⟨r, hsegments, hr⟩ := h.exists_segments_more
    obtain ⟨rest, hrest, hend⟩ := ih hr
    exact ⟨rest, hsegments.trans (segments_more_eq_ok_iff.2 ⟨_, hrest, rfl⟩), hend⟩

/-! ## References -/

variable {body : String} {r : Reference}

theorem trim_isEmpty_of_mem {c : Char} (hc : Text.isBlank c = false) (hmem : c ∈ body.toList) :
    (Text.trim body).isEmpty = false := by
  rw [← Bool.not_eq_true, String.isEmpty_iff, ← String.toList_eq_nil_iff, Text.trim,
    String.toList_ofList, Text.trimChars, List.reverse_eq_nil_iff, List.dropWhile_eq_nil_iff]
  intro h
  rw [← List.takeWhile_append_dropWhile (p := Text.isBlank) (l := body.toList)] at hmem
  have hblank : Text.isBlank c = true := by
    rcases List.mem_append.1 hmem with hmem | hmem
    · exact List.mem_takeWhile_imp hmem
    · exact h c (List.mem_reverse.2 hmem)
  rw [hc] at hblank
  cases hblank

theorem Derivation.Derives.trim_isEmpty {d : Derivation} (h : d.Derives body) :
    (Text.trim body).isEmpty = false := by
  obtain ⟨front, hspells, hbody⟩ := h
  obtain - | @⟨_, _, blanks, rest, -, hl, -, -⟩ := hspells
  obtain ⟨c, word, hlist, hstart, -⟩ := isIdentifier_iff.1 hl
  refine trim_isEmpty_of_mem
    (Token.isBlank_of_isIdentifierChar (Token.isIdentifierChar_of_isIdentifierStart hstart)) ?_
  rw [hbody, Lexeme.text, hlist]
  simp

/-- A colon and the end stand behind all lexemes. -/
theorem Cuts.eq_nil_of_take {expected : TokenKind} {t : Token} (hcuts : Cuts ls tail ts)
    (h : take expected ts = .ok (t, rest)) (hexpected : expected = .colon ∨ expected = .finish) :
    ls = [] := by
  obtain ⟨rfl, rfl⟩ := of_take_eq_ok h
  obtain - | - | @⟨l, _, ⟨kind, text, column⟩, _, _, hl, -⟩ := hcuts
  · rfl
  · rfl
  · obtain rfl | rfl := hexpected
    all_goals cases hl

/-- What is read is derived. -/
theorem exists_of_parse_eq_ok (h : parse body = .ok r) :
    ∃ d : Derivation, d.Derives body ∧ d.Ascribes r.ascribed ∧ r.producer = d.producer ∧
      r.path = d.path ∧ r.raw = spanText body := by
  unfold parse at h
  split at h
  · cases h
  obtain ⟨⟨ts, tail⟩, htokens, h⟩ := Except.bind_eq_ok_iff.1 h
  obtain ⟨⟨producer, rest⟩, hproducer, h⟩ := Except.bind_eq_ok_iff.1 h
  obtain ⟨⟨path, rest'⟩, hpath, h⟩ := Except.bind_eq_ok_iff.1 h
  obtain ⟨ls, front, hspells, hbody, hcuts⟩ := exists_of_tokenizeFrom_eq_ok htokens
  obtain ⟨rfl, hkind⟩ := of_take_eq_ok hproducer
  obtain ⟨kind, name, column⟩ := producer
  obtain rfl : kind = .identifier := hkind
  obtain ⟨_, rfl, hcuts'⟩ := hcuts.exists_of_lexeme? rfl
  obtain ⟨ws, ls, rfl, rfl, hend⟩ := exists_of_segments_eq_ok hpath hcuts'
  cases tail with
  | none =>
    obtain ⟨_, ⟨⟩, h⟩ := Except.bind_eq_ok_iff.1 h
    obtain ⟨_, hfinish, h⟩ := Except.bind_eq_ok_iff.1 h
    obtain rfl := hend.eq_nil_of_take hfinish (.inr rfl)
    cases h
    rw [List.append_nil] at hspells
    exact ⟨⟨name, ws, none⟩, ⟨front, hspells, hbody⟩, .none, rfl, rfl, rfl⟩
  | some text =>
    obtain ⟨_, hts', h⟩ := Except.bind_eq_ok_iff.1 h
    obtain ⟨_, -, h⟩ := Except.bind_eq_ok_iff.1 h
    obtain ⟨_, hcolon, -⟩ := Except.map_eq_ok_iff.1 hts'
    obtain rfl := hend.eq_nil_of_take hcolon (.inl rfl)
    dsimp only at h
    split at h
    · rename_i s hs
      cases h
      rw [List.append_nil] at hspells
      exact ⟨⟨name, ws, some text⟩, ⟨front, hspells, hbody⟩, .some hs, rfl, rfl, rfl⟩
    · cases h

/-- What is derived is read as its derivation names it. -/
theorem Derivation.Derives.parse_eq_ok {d : Derivation} {ascribed : Option Schema} (h : d.Derives body)
    (ht : d.Ascribes ascribed) : parse body = .ok ⟨d.producer, d.path, ascribed, spanText body⟩ := by
  have htrim := h.trim_isEmpty
  obtain ⟨front, hspells, hbody⟩ := h
  obtain ⟨ts, htokens, hcuts⟩ := hspells.exists_tokenizeFrom 1 d.type
  obtain ⟨_, _, _, rfl, hproducer, hcuts'⟩ := hcuts.exists_of_cons
  cases hproducer
  obtain ⟨rest, hsegments, hend⟩ := hcuts'.exists_segments
  obtain ⟨producer, ws, type⟩ := d
  unfold parse Token.tokenize
  rw [htrim, hbody, htokens]
  cases ht with
  | none =>
    cases hend
    simp [take, Lexeme.kind, hsegments, path, bind, Except.bind, pure, Except.pure]
  | some hs =>
    cases hend
    simp [take, Lexeme.kind, hsegments, path, hs, bind, Except.bind, pure, Except.pure, Except.map]

/-- A body is read exactly when it is derived and its type is a type expression, as the reference
that the derivation names. -/
theorem parse_eq_ok_iff_derives (body : String) (r : Reference) :
    parse body = .ok r ↔ ∃ d : Derivation, d.Derives body ∧ d.Ascribes r.ascribed ∧
      r.producer = d.producer ∧ r.path = d.path ∧ r.raw = spanText body := by
  refine ⟨exists_of_parse_eq_ok, ?_⟩
  rintro ⟨d, hd, ht, hproducer, hpath, hraw⟩
  rw [hd.parse_eq_ok ht, ← hproducer, ← hpath, ← hraw]

end CapabilityFlow.Reference
