import CapabilityFlow.Proofs.Reference.Grammar

/-!
# Columns of tokens

Tokens are laid out in the text that they are cut from, each at its column and with blanks between them
(`Laid`). So nothing but blanks is lost before the first colon, and a character that starts no token is
reported at its own column (`Token.tokenize_covers`).
-/

namespace CapabilityFlow.Reference

namespace Token

/-- Whether the text of a token is one of its kind. The end is not written. -/
def IsWritten (t : Token) : Prop :=
  (t.kind = .colon ∧ t.text = ":") ∨ ∃ l : Lexeme, l.IsValid ∧ t.kind = l.kind ∧ t.text = l.text

/-- Whether a token takes the character at a column. -/
def Spans (t : Token) (column : Nat) : Prop :=
  t.column ≤ column ∧ column < t.column + t.text.length

/-- Tokens that stand in a text, in order, each where its column says, and with nothing but blanks between
them as far as the first `stop` characters. -/
structure Covers (s : List Char) (stop : Nat) (ts : List Token) : Prop where
  ascending : ts.Pairwise fun t u => t.column < u.column
  apart : ts.Pairwise fun t u => t.column + t.text.length ≤ u.column
  written : ∀ t ∈ ts, t.IsWritten
  placed : ∀ t ∈ ts, ∃ before behind,
    s = before ++ (t.text.toList ++ behind) ∧ t.column = before.length + 1
  blank : ∀ i c, i < stop → s[i]? = some c → (∀ t ∈ ts, ¬ t.Spans (i + 1)) → Text.isBlank c = true

end Token

/-- Tokens laid out in a text whose first character stands at a column. -/
inductive Laid : Nat → List Token → List Char → Prop where
  | nil {column : Nat} {blanks : List Char} (hblanks : ∀ c ∈ blanks, Text.isBlank c = true) :
      Laid column [] blanks
  | cons {column : Nat} {t : Token} {ts : List Token} {blanks rest : List Char}
      (hblanks : ∀ c ∈ blanks, Text.isBlank c = true) (ht : t.IsWritten)
      (hcolumn : t.column = column + blanks.length)
      (h : Laid (t.column + t.text.length) ts rest) :
      Laid column (t :: ts) (blanks ++ (t.text.toList ++ rest))

variable {column : Nat} {s r : List Char} {t : Token} {ts : List Token} {tail : Option String} {c : Char}

/-! ## Lexemes -/

theorem Lexeme.IsValid.text_ne_nil {l : Lexeme} (h : l.IsValid) : l.text.toList ≠ [] := by
  have hnone : ∀ c ∈ ([] : List Char).head?, l.continues c = false := nofun
  obtain ⟨c, word, htext, -⟩ := h.exists_lead? hnone
  rw [htext]
  exact List.cons_ne_nil c word

theorem Lexeme.IsValid.colon_notMem {l : Lexeme} (h : l.IsValid) : ':' ∉ l.text.toList := by
  cases l with
  | dot | openBracket | closeBracket => decide
  | identifier word =>
    obtain ⟨c, r, hlist, hstart, hchars⟩ := isIdentifier_iff.1 h
    rw [text, hlist, List.mem_cons]
    rintro (rfl | hmem)
    · cases hstart
    · cases hchars ':' hmem
  | number digits => exact fun hmem => by cases h.2 ':' hmem

namespace Token

theorem IsWritten.length_pos (h : t.IsWritten) : 0 < t.text.length := by
  rw [← String.length_toList, List.length_pos_iff]
  rcases h with ⟨-, htext⟩ | ⟨l, hl, -, htext⟩
  · rw [htext]
    decide
  · rw [htext]
    exact hl.text_ne_nil

/-- Whether a character leads a token does not depend on what follows it. -/
theorem isSome_lead? (c : Char) (r r' : List Char) : (lead? c r).isSome = (lead? c r').isSome := by
  simp only [lead?, apply_ite Option.isSome, Option.isSome_some]

theorem IsWritten.head?_ne (h : t.IsWritten) (hcolon : c ≠ ':') (hlead : lead? c r = none) :
    t.text.toList.head? ≠ some c := by
  intro hhead
  rcases h with ⟨-, htext⟩ | ⟨l, hl, -, htext⟩
  · rw [htext] at hhead
    exact hcolon (Option.some.inj hhead).symm
  · have hnone : ∀ c ∈ ([] : List Char).head?, l.continues c = false := nofun
    obtain ⟨d, word, hlist, -, -, hsome⟩ := hl.exists_lead? hnone
    rw [htext, hlist] at hhead
    obtain rfl : d = c := Option.some.inj hhead
    have hsame := isSome_lead? d r (word ++ [])
    rw [hlead, hsome] at hsame
    cases hsame

end Token

/-! ## Laid out tokens -/

namespace Laid

theorem of_blank (hc : Text.isBlank c = true) (h : Laid (column + 1) ts r) : Laid column ts (c :: r) := by
  cases h with
  | nil hblanks => exact .nil (List.forall_mem_cons.2 ⟨hc, hblanks⟩)
  | @cons _ t ts blanks rest hblanks ht hcolumn h =>
    refine @Laid.cons column t ts (c :: blanks) rest (List.forall_mem_cons.2 ⟨hc, hblanks⟩) ht ?_ h
    rw [hcolumn, List.length_cons]
    omega

theorem empty (column : Nat) : Laid column [] [] :=
  .nil nofun

theorem of_token (ht : t.IsWritten) (h : Laid (t.column + t.text.length) ts r) :
    Laid t.column (t :: ts) (t.text.toList ++ r) :=
  have hnone : ∀ c ∈ ([] : List Char), Text.isBlank c = true := nofun
  .cons hnone ht rfl h

theorem of_lexeme {l : Lexeme} {word : List Char} (hl : l.IsValid) (htext : l.text.toList = c :: word)
    (h : Laid (column + 1 + word.length) ts r) :
    Laid column (⟨l.kind, String.ofList (c :: word), column⟩ :: ts) (c :: word ++ r) := by
  have hname : String.ofList (c :: word) = l.text := by
    rw [← htext, String.ofList_toList]
  have hlength : l.text.length = 1 + word.length := by
    rw [← String.length_toList, htext, List.length_cons, Nat.add_comm]
  rw [hname, ← htext]
  rw [Nat.add_assoc, ← hlength] at h
  exact of_token (t := ⟨l.kind, l.text, column⟩) (.inr ⟨l, hl, rfl, rfl⟩) h

theorem le_column (h : Laid column ts s) : ∀ t ∈ ts, column ≤ t.column := by
  induction h with
  | nil => nofun
  | cons _ _ hcolumn _ ih =>
    refine List.forall_mem_cons.2 ⟨by omega, fun u hu => ?_⟩
    have hle := ih u hu
    omega

theorem apart (h : Laid column ts s) : ts.Pairwise fun t u => t.column + t.text.length ≤ u.column := by
  induction h with
  | nil => exact .nil
  | cons _ _ _ h ih => exact .cons h.le_column ih

theorem written (h : Laid column ts s) : ∀ t ∈ ts, t.IsWritten := by
  induction h with
  | nil => nofun
  | cons _ ht _ _ ih => exact List.forall_mem_cons.2 ⟨ht, ih⟩

theorem placed (h : Laid column ts s) : ∀ t ∈ ts, ∃ before behind,
    s = before ++ (t.text.toList ++ behind) ∧ t.column = column + before.length := by
  induction h with
  | nil => nofun
  | @cons column t ts blanks rest _ _ hcolumn _ ih =>
    refine List.forall_mem_cons.2 ⟨⟨blanks, rest, rfl, hcolumn⟩, fun u hu => ?_⟩
    obtain ⟨before, behind, hrest, hu⟩ := ih u hu
    refine ⟨blanks ++ (t.text.toList ++ before), behind, by simp [hrest], ?_⟩
    rw [List.length_append, List.length_append, String.length_toList]
    omega

theorem blank (h : Laid column ts s) {i : Nat} (hc : s[i]? = some c)
    (hspans : ∀ t ∈ ts, ¬ t.Spans (column + i)) : Text.isBlank c = true := by
  induction h generalizing i with
  | nil hblanks => exact hblanks c (List.mem_of_getElem? hc)
  | @cons column t ts blanks rest hblanks _ hcolumn _ ih =>
    obtain ⟨ht, hspans⟩ := List.forall_mem_cons.1 hspans
    rw [List.getElem?_append] at hc
    split at hc
    · exact hblanks c (List.mem_of_getElem? hc)
    rw [List.getElem?_append, String.length_toList] at hc
    split at hc
    · -- The character is in the first token.
      refine absurd ?_ ht
      constructor <;> omega
    · refine ih hc ?_
      have hplace : t.column + t.text.length + (i - blanks.length - t.text.length) = column + i := by
        omega
      rwa [hplace]

theorem covers (h : Laid 1 ts s) (behind : List Char) {stop : Nat} (hstop : stop ≤ s.length) :
    Token.Covers (s ++ behind) stop ts where
  ascending := by
    refine h.apart.imp_of_mem fun {t u} ht _ hle => ?_
    have hpos := (h.written t ht).length_pos
    omega
  apart := h.apart
  written := h.written
  placed t ht := by
    obtain ⟨before, rest, rfl, hcolumn⟩ := h.placed t ht
    exact ⟨before, rest ++ behind, by simp, by omega⟩
  blank i c hi hc hspans := by
    rw [List.getElem?_append_left (Nat.lt_of_lt_of_le hi hstop)] at hc
    refine h.blank hc ?_
    rwa [Nat.add_comm 1]

end Laid

/-! ## Cutting a text -/

theorem colon_notMem_cons {front : List Char} (hc : Text.isBlank c = true) (h : ':' ∉ front) :
    ':' ∉ c :: front := by
  refine List.not_mem_cons_of_ne_of_not_mem ?_ h
  rintro rfl
  cases hc

namespace Token

/-- What is cut is laid out up to its first colon, with the colon. -/
theorem laid_of_tokenizeFrom_eq_ok (h : tokenizeFrom column s = .ok (ts, tail)) :
    ∃ front words, s = front ++ colonText tail ∧ ':' ∉ front ∧
      ts = words ++ [⟨.finish, "", column + s.length⟩] ∧
      Laid column words (front ++ (colonText tail).take 1) := by
  fun_induction tokenizeFrom column s generalizing ts tail with
  | case1 column =>
    cases h
    exact ⟨[], [], rfl, List.not_mem_nil, rfl, .empty column⟩
  | case2 column c r hc ih =>
    obtain ⟨front, words, rfl, hcolon, rfl, hlaid⟩ := ih h
    refine ⟨c :: front, words, rfl, colon_notMem_cons hc hcolon, ?_, hlaid.of_blank hc⟩
    rw [List.length_cons, Nat.add_right_comm, Nat.add_assoc]
  | case3 column r =>
    cases h
    refine ⟨[], [⟨.colon, ":", column⟩], by simp [colonText], List.not_mem_nil, ?_, ?_⟩
    · rw [List.length_cons, Nat.add_right_comm, Nat.add_assoc]
      rfl
    · have hcolon : IsWritten ⟨.colon, ":", column⟩ := .inl ⟨rfl, rfl⟩
      simpa [colonText] using Laid.of_token hcolon (.empty _)
  | case4 => cases h
  | case5 column c r _ _ kind word hlead ih =>
    obtain ⟨⟨ts', tail'⟩, htokens, h⟩ := Except.bind_eq_ok_iff.1 h
    cases h
    obtain ⟨front, words, hdrop, hcolon, rfl, hlaid⟩ := ih htokens
    obtain ⟨l, hl, rfl, htext, hr, -⟩ := Lexeme.exists_of_lead? hlead
    have hword : ':' ∉ c :: word := htext ▸ hl.colon_notMem
    have hlength : r.length = word.length + (r.drop word.length).length := by
      rw [← List.length_append, ← hr]
    refine ⟨c :: word ++ front, ⟨l.kind, String.ofList (c :: word), column⟩ :: words, ?_, ?_, ?_, ?_⟩
    · rw [List.append_assoc, ← hdrop, List.cons_append, ← hr]
    · exact List.not_mem_append hword hcolon
    · rw [List.length_cons, hlength, List.cons_append]
      congr 4
      omega
    · rw [List.append_assoc]
      exact .of_lexeme hl htext hlaid

/-- A text is refused at a character that leads no token, and what is before that can be cut. -/
theorem exists_of_tokenizeFrom_eq_error {fault : ReferenceError}
    (h : tokenizeFrom column s = .error fault) :
    ∃ front c behind ts, s = front ++ c :: behind ∧
      fault = .unexpectedChar (column + front.length) c ∧ Text.isBlank c = false ∧ c ≠ ':' ∧
      lead? c behind = none ∧ tokenizeFrom column front = .ok (ts, none) := by
  fun_induction tokenizeFrom column s with
  | case1 | case3 => cases h
  | case2 column c r hc ih =>
    obtain ⟨front, d, behind, ts, rfl, rfl, hblank, hcolon, hlead, hfront⟩ := ih h
    refine ⟨c :: front, d, behind, ts, rfl, ?_, hblank, hcolon, hlead, ?_⟩
    · rw [List.length_cons, Nat.add_right_comm, Nat.add_assoc]
    · exact (tokenizeFrom_blanks (List.forall_mem_singleton.2 hc) column front).trans hfront
  | case4 column c r hblank hcolon hlead =>
    cases h
    refine ⟨[], c, r, [⟨.finish, "", column⟩], rfl, rfl, by simpa using hblank, hcolon, hlead, ?_⟩
    unfold tokenizeFrom
    rfl
  | case5 column c r hblank hcolon kind word hlead ih =>
    obtain h | ⟨_, _, h⟩ := Except.bind_eq_error_iff.1 h
    · obtain ⟨front, d, behind, ts, hdrop, rfl, hblank', hcolon', hlead', hfront⟩ := ih h
      obtain ⟨l, hl, rfl, htext, hr, hgreedy⟩ := Lexeme.exists_of_lead? hlead
      -- The word ends where it ended, with less behind it.
      have hgreedy' : ∀ e ∈ front.head?, l.continues e = false := by
        intro e he
        refine hgreedy e ?_
        rw [hdrop, List.head?_append, Option.mem_def.1 he]
        rfl
      obtain ⟨c', word', htext', -, -, hshort⟩ := hl.exists_lead? hgreedy'
      obtain ⟨rfl, rfl⟩ := List.cons.inj (htext.symm.trans htext')
      have hcut := tokenizeFrom_of_lead? (by simpa using hblank) hcolon hshort
        (by rwa [List.drop_left])
      refine ⟨c :: word ++ front, d, behind, _, ?_, ?_, hblank', hcolon', hlead', hcut⟩
      · rw [List.append_assoc, ← hdrop, List.cons_append, ← hr]
      · rw [List.length_append, List.length_cons]
        congr 1
        omega
    · cases h

/-- Before the first colon nothing but blanks is lost. A body is cut into tokens that stand where their
columns say, and what is behind the colon is handed on; or it is refused at a character that starts no
token, and what is before that character is cut so. -/
theorem tokenize_covers (body : String) :
    (∃ front words tail, tokenize body = .ok (words ++ [⟨.finish, "", body.length + 1⟩], tail) ∧
        body.toList = front ++ colonText tail ∧ ':' ∉ front ∧
        (tail.isSome = true ↔ ':' ∈ body.toList) ∧ Covers body.toList front.length words) ∨
      ∃ front c behind words, tokenize body = .error (.unexpectedChar (front.length + 1) c) ∧
        body.toList = front ++ c :: behind ∧ ':' ∉ front ++ [c] ∧ Text.isBlank c = false ∧
        (∀ t : Token, t.IsWritten → t.text.toList.head? ≠ some c) ∧
        tokenize (String.ofList front) = .ok (words ++ [⟨.finish, "", front.length + 1⟩], none) ∧
        Covers front front.length words := by
  cases h : tokenize body with
  | ok result =>
    obtain ⟨ts, tail⟩ := result
    obtain ⟨front, words, hbody, hcolon, rfl, hlaid⟩ := laid_of_tokenizeFrom_eq_ok h
    refine .inl ⟨front, words, tail, ?_, hbody, hcolon, ?_, ?_⟩
    · rw [String.length_toList, Nat.add_comm 1]
    · rw [hbody]
      cases tail with
      | none => simpa [colonText] using hcolon
      | some text => simp [colonText]
    · have hstop : front.length ≤ (front ++ (colonText tail).take 1).length := by simp
      have hcovers := hlaid.covers ((colonText tail).drop 1) hstop
      rwa [List.append_assoc, List.take_append_drop, ← hbody] at hcovers
  | error fault =>
    obtain ⟨before, c, behind, ts, hbody, rfl, hblank, hcolon, hlead, hbefore⟩ :=
      exists_of_tokenizeFrom_eq_error h
    obtain ⟨front, words, hfront, hnone, rfl, hlaid⟩ := laid_of_tokenizeFrom_eq_ok hbefore
    obtain rfl : before = front := hfront.trans (List.append_nil front)
    refine .inr ⟨before, c, behind, words, ?_, hbody, ?_, hblank,
      fun t ht => ht.head?_ne hcolon hlead, ?_, ?_⟩
    · rw [Nat.add_comm 1]
    · exact List.not_mem_append hnone (by simpa using hcolon.symm)
    · rw [tokenize, String.toList_ofList, hbefore, Nat.add_comm 1]
    · have hstop : before.length ≤ (before ++ (colonText none).take 1).length := by simp
      simpa [colonText] using hlaid.covers [] hstop

end Token

end CapabilityFlow.Reference
