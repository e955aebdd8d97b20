import CapabilityFlow.Value.Pointer
import Mathlib.Algebra.Group.Nat.Defs
import Mathlib.Data.List.TakeWhile

/-!
# What pointers select

`Pointer.Selects` says which part of a value a pointer selects, token by token, and `Value.pointed?`
finds exactly that part. An index is the decimal text of a natural number, so it has no leading
zeros.
-/

namespace CapabilityFlow

namespace Pointer

/-! ## Tokens -/

/-- A token writes a name: `~0` is a tilde and `~1` a slash. A tilde before anything else stands for
itself. -/
inductive Writes : List Char → List Char → Prop where
  | nil : Writes [] []
  | tilde {token name : List Char} (h : Writes token name) :
      Writes ('~' :: '0' :: token) ('~' :: name)
  | slash {token name : List Char} (h : Writes token name) :
      Writes ('~' :: '1' :: token) ('/' :: name)
  | char {token name : List Char} {c : Char} (hc : c ≠ '/')
      (hlone : c = '~' → token.head? ≠ some '0' ∧ token.head? ≠ some '1') (h : Writes token name) :
      Writes (c :: token) (c :: name)

theorem replaceTilde_cons_of_ne {digit by' c : Char} {t : List Char} (h : c ≠ '~') :
    replaceTilde digit by' (c :: t) = c :: replaceTilde digit by' t := by
  cases t with
  | nil => simp [replaceTilde]
  | cons d r => simp [replaceTilde, h]

theorem replaceTilde_tilde_of_head?_ne {digit by' : Char} {t : List Char}
    (h : t.head? ≠ some digit) :
    replaceTilde digit by' ('~' :: t) = '~' :: replaceTilde digit by' t := by
  cases t with
  | nil => simp [replaceTilde]
  | cons d r =>
    have hd : d ≠ digit := fun e => h (by simp [e])
    simp [replaceTilde, hd]

/-- Replacing makes no other digit come first. -/
theorem head?_replaceTilde_ne {t : List Char} (h : t.head? ≠ some '0') :
    (replaceTilde '1' '/' t).head? ≠ some '0' := by
  cases t with
  | nil => simp [replaceTilde]
  | cons c r =>
    by_cases hc : c = '~'
    · subst hc
      cases r with
      | nil => simp [replaceTilde]
      | cons d r =>
        by_cases hd : d = '1' <;> simp [replaceTilde, hd]
    · rw [replaceTilde_cons_of_ne hc]
      exact h

theorem toList_unescape (token : List Char) :
    (unescape token).toList = replaceTilde '0' '~' (replaceTilde '1' '/' token) :=
  String.toList_ofList

theorem toList_unescape_tilde (t : List Char) :
    (unescape ('~' :: '0' :: t)).toList = '~' :: (unescape t).toList := by
  have h : replaceTilde '1' '/' ('~' :: '0' :: t) = '~' :: '0' :: replaceTilde '1' '/' t := by
    rw [replaceTilde_tilde_of_head?_ne (by simp), replaceTilde_cons_of_ne (by decide)]
  rw [toList_unescape, toList_unescape, h]
  simp [replaceTilde]

theorem toList_unescape_slash (t : List Char) :
    (unescape ('~' :: '1' :: t)).toList = '/' :: (unescape t).toList := by
  have h : replaceTilde '1' '/' ('~' :: '1' :: t) = '/' :: replaceTilde '1' '/' t := by
    simp [replaceTilde]
  rw [toList_unescape, toList_unescape, h, replaceTilde_cons_of_ne (by decide)]

theorem toList_unescape_char {c : Char} {t : List Char}
    (hlone : c = '~' → t.head? ≠ some '0' ∧ t.head? ≠ some '1') :
    (unescape (c :: t)).toList = c :: (unescape t).toList := by
  rw [toList_unescape, toList_unescape]
  by_cases hc : c = '~'
  · subst hc
    obtain ⟨h₀, h₁⟩ := hlone rfl
    rw [replaceTilde_tilde_of_head?_ne h₁,
      replaceTilde_tilde_of_head?_ne (head?_replaceTilde_ne h₀)]
  · rw [replaceTilde_cons_of_ne hc, replaceTilde_cons_of_ne hc]

theorem Writes.toList_unescape {token name : List Char} (h : Writes token name) :
    (unescape token).toList = name := by
  induction h with
  | nil => simp [unescape, replaceTilde]
  | tilde _ ih => rw [toList_unescape_tilde, ih]
  | slash _ ih => rw [toList_unescape_slash, ih]
  | char _ hlone _ ih => rw [toList_unescape_char hlone, ih]

theorem writes_unescape : (token : List Char) → '/' ∉ token →
    Writes token (unescape token).toList
  | [], _ => by
    simpa [unescape, replaceTilde] using Writes.nil
  | [c], h => by
    rw [toList_unescape_char (by simp)]
    exact .char (by simpa [eq_comm] using h) (by simp) (writes_unescape [] (by simp))
  | c :: d :: t, h => by
    simp only [List.mem_cons, not_or] at h
    obtain ⟨hc, hd, ht⟩ := h
    by_cases h₀ : c = '~' ∧ d = '0'
    · obtain ⟨rfl, rfl⟩ := h₀
      rw [toList_unescape_tilde]
      exact .tilde (writes_unescape t ht)
    by_cases h₁ : c = '~' ∧ d = '1'
    · obtain ⟨rfl, rfl⟩ := h₁
      rw [toList_unescape_slash]
      exact .slash (writes_unescape t ht)
    have hlone : c = '~' → (d :: t).head? ≠ some '0' ∧ (d :: t).head? ≠ some '1' := by
      intro e
      simpa [e] using And.intro h₀ h₁
    rw [toList_unescape_char hlone]
    exact .char (Ne.symm hc) hlone (writes_unescape (d :: t) (by simp [hd, ht]))

theorem Writes.slash_not_mem {token name : List Char} (h : Writes token name) : '/' ∉ token := by
  induction h with
  | nil => simp
  | tilde _ ih => simpa using ih
  | slash _ ih => simpa using ih
  | char hc _ _ ih => simpa [ih] using hc.symm

/-! ## Indices -/

theorem digitChar_toNat_sub {c : Char} (hc : c.isDigit = true) :
    c.toNat - '0'.toNat < 10 ∧ Nat.digitChar (c.toNat - '0'.toNat) = c := by
  obtain ⟨h₁, h₂⟩ := Char.isDigit_iff_toNat.1 hc
  rw [show '0'.toNat = 48 from rfl] at h₁ ⊢
  rw [show '9'.toNat = 57 from rfl] at h₂
  have hlt : c.toNat - 48 < 10 := by omega
  refine ⟨hlt, Char.toNat_inj.1 ?_⟩
  rw [Nat.toNat_digitChar_of_lt_ten hlt]
  omega

/-- Digits after a positive number are the digits of what they make together. -/
theorem toDigits_ofDigitChars {cs : List Char} (hcs : ∀ c ∈ cs, c.isDigit = true) {n : Nat}
    (hn : 0 < n) : Nat.toDigits 10 (Nat.ofDigitChars 10 cs n) = Nat.toDigits 10 n ++ cs := by
  induction cs generalizing n with
  | nil => simp
  | cons c r ih =>
    obtain ⟨hlt, hchar⟩ := digitChar_toNat_sub (hcs c List.mem_cons_self)
    rw [Nat.ofDigitChars_cons, ih (fun d hd => hcs d (List.mem_cons_of_mem c hd)) (by omega),
      ← Nat.toDigits_append_toDigits (by decide) hn hlt, Nat.toDigits_of_lt_base hlt, hchar]
    simp

/-- Digits without a leading zero are the digits of what they make. -/
theorem toDigits_ofDigitChars_zero {c : Char} {r : List Char}
    (hcs : ∀ d ∈ c :: r, d.isDigit = true) (hlead : c = '0' → r = []) :
    Nat.toDigits 10 (Nat.ofDigitChars 10 (c :: r) 0) = c :: r := by
  obtain ⟨hlt, hchar⟩ := digitChar_toNat_sub (hcs c List.mem_cons_self)
  rw [Nat.ofDigitChars_cons, Nat.mul_zero, Nat.zero_add]
  by_cases hc : c = '0'
  · rw [hlead hc, hc]
    rfl
  · have hpos : 0 < c.toNat - '0'.toNat := by
      refine Nat.pos_of_ne_zero fun h => hc ?_
      rw [h] at hchar
      exact hchar.symm
    rw [toDigits_ofDigitChars (fun d hd => hcs d (List.mem_cons_of_mem c hd)) hpos,
      Nat.toDigits_of_lt_base hlt, hchar]
    rfl

theorem eq_zero_of_head?_toDigits {n : Nat} (h : (Nat.toDigits 10 n).head? = some '0') : n = 0 := by
  induction n using Nat.strongRecOn with
  | ind n ih =>
    by_cases hn : n < 10
    · rw [Nat.toDigits_of_lt_base hn] at h
      simpa using h
    · rw [Nat.toDigits_of_base_le (by decide) (by omega), List.head?_append,
        Option.or_eq_some_iff] at h
      rcases h with h | ⟨hnone, -⟩
      · have := ih (n / 10) (by omega) h
        omega
      · exact absurd (List.head?_eq_none_iff.1 hnone) Nat.toDigits_ne_nil

/-- An index is the decimal text of a number below `2 ^ 64`. -/
theorem index?_eq_some_iff {token : String} {n : Nat} :
    index? token = some n ↔ token = toString n ∧ n < 2 ^ 64 := by
  have hfold : ∀ cs : List Char,
      cs.foldl (fun n c => 10 * n + (c.toNat - '0'.toNat)) 0 = Nat.ofDigitChars 10 cs 0 :=
    fun cs => rfl
  rw [Nat.toString_eq_ofList_toDigits, ← String.toList_inj, String.toList_ofList]
  simp only [index?, hfold]
  cases hcs : token.toList with
  | nil => simp [Nat.toDigits_ne_nil.symm]
  | cons c r =>
    have hcond : ((c :: r).isEmpty || !(c :: r).all Char.isDigit ||
        ((c :: r).length > 1 && (c :: r).head? = some '0')) = false ↔
        (∀ d ∈ c :: r, d.isDigit = true) ∧ (c = '0' → r = []) := by
      cases r <;> simp
    constructor
    · intro h
      split at h
      · cases h
      · rename_i hc
        obtain ⟨hdigits, hlead⟩ := hcond.1 (Bool.eq_false_iff.2 hc)
        split at h
        · rename_i hlt
          cases h
          exact ⟨(toDigits_ofDigitChars_zero hdigits hlead).symm, hlt⟩
        · cases h
    · rintro ⟨ht, hlt⟩
      have hdigits : ∀ d ∈ c :: r, d.isDigit = true := by
        rw [ht]
        exact fun d hd => Nat.isDigit_of_mem_toDigits (by decide) (by decide) hd
      have hlead : c = '0' → r = [] := by
        rintro rfl
        have hz : n = 0 := eq_zero_of_head?_toDigits (by rw [← ht]; rfl)
        rw [hz] at ht
        exact (List.cons.inj ht).2
      rw [if_neg (Bool.eq_false_iff.1 (hcond.2 ⟨hdigits, hlead⟩)), ht,
        Nat.ofDigitChars_ten_toDigits]
      exact if_pos hlt

/-! ## Selection -/

/-- A token leads from a value to the member that it writes the name of, or to the item that it
writes the place of. -/
inductive Enters : Value → List Char → Value → Prop where
  | member {ms : Members} {name : String} {token : List Char} {v : Value}
      (hname : Writes token name.toList) (hv : Table.get? ms name = some v) :
      Enters (.obj ms) token v
  | item {items : List Value} {n : Nat} {token : List Char} {v : Value}
      (hindex : Writes token (toString n).toList) (hn : n < 2 ^ 64) (hv : items[n]? = some v) :
      Enters (.arr items) token v

/-- A pointer selects a part of a value: nothing selects the whole, and a slash and a token lead
one step down. -/
inductive Selects : Value → List Char → Value → Prop where
  | whole (v : Value) : Selects v [] v
  | step {v w part : Value} {token rest : List Char} (h : Enters v token w)
      (hrest : Selects w rest part) : Selects v ('/' :: (token ++ rest)) part

theorem step?_unescape_eq_some_iff {v w : Value} {token : List Char} (h : '/' ∉ token) :
    step? v (unescape token) = some w ↔ Enters v token w := by
  constructor
  · intro hs
    unfold step? at hs
    split at hs
    · exact .member (writes_unescape token h) hs
    · obtain ⟨n, hn, hw⟩ := Option.bind_eq_some_iff.1 hs
      obtain ⟨ht, hlt⟩ := index?_eq_some_iff.1 hn
      exact .item (ht ▸ writes_unescape token h) hlt hw
    · cases hs
  · rintro (⟨hname, hw⟩ | ⟨hindex, hlt, hw⟩)
    · rw [step?, ← hw, String.toList_inj.1 hname.toList_unescape]
    · rw [step?, index?_eq_some_iff.2 ⟨String.toList_inj.1 hindex.toList_unescape, hlt⟩]
      exact hw

/-- The first token of a text ends at its first slash, or with the text. -/
theorem splitSlashes_append {token : List Char} (h : '/' ∉ token) :
    splitSlashes token = [token] ∧
      ∀ r, splitSlashes (token ++ '/' :: r) = token :: splitSlashes r := by
  induction token with
  | nil => exact ⟨rfl, fun r => by simp [splitSlashes]⟩
  | cons c t ih =>
    obtain ⟨hc, ht⟩ := not_or.1 (List.mem_cons.not.1 h)
    obtain ⟨h₁, h₂⟩ := ih ht
    refine ⟨?_, fun r => ?_⟩
    · simp [splitSlashes, Ne.symm hc, h₁]
    · simp [splitSlashes, Ne.symm hc, h₂]

/-- Nothing follows a token, or another slash. -/
def IsRest (rest : List Char) : Prop :=
  rest = [] ∨ ∃ r, rest = '/' :: r

theorem exists_token (cs : List Char) :
    ∃ token rest, '/' ∉ token ∧ cs = token ++ rest ∧ IsRest rest := by
  refine ⟨cs.takeWhile (· != '/'), cs.dropWhile (· != '/'), ?_, ?_, ?_⟩
  · intro h
    simpa using List.mem_takeWhile_imp h
  · exact List.takeWhile_append_dropWhile.symm
  · cases h : cs.dropWhile (· != '/') with
    | nil => exact .inl rfl
    | cons c r =>
      have hc := List.head_dropWhile_not (· != '/') (l := cs) (by simp [h])
      simp only [h, List.head_cons, bne_eq_false_iff_eq] at hc
      exact .inr ⟨r, by rw [hc]⟩

theorem takeWhile_token {token rest : List Char} (h : '/' ∉ token) (hrest : IsRest rest) :
    (token ++ rest).takeWhile (· != '/') = token := by
  have hall : ∀ c ∈ token, (c != '/') = true := by
    intro c hc
    have hne : c ≠ '/' := fun e => h (e ▸ hc)
    simpa using hne
  rw [List.takeWhile_append_of_pos hall]
  rcases hrest with rfl | ⟨r, rfl⟩ <;> simp

theorem Enters.slash_not_mem {v w : Value} {token : List Char} (h : Enters v token w) :
    '/' ∉ token := by
  cases h with
  | member hname _ => exact hname.slash_not_mem
  | item hindex _ _ => exact hindex.slash_not_mem

theorem Selects.isRest {v w : Value} {rest : List Char} (h : Selects v rest w) : IsRest rest := by
  cases h with
  | whole => exact .inl rfl
  | step _ _ => exact .inr ⟨_, rfl⟩

theorem selects_slash_iff {v w : Value} {token rest : List Char} (h : '/' ∉ token)
    (hrest : IsRest rest) :
    Selects v ('/' :: (token ++ rest)) w ↔ ∃ u, Enters v token u ∧ Selects u rest w := by
  constructor
  · intro hs
    generalize hcs : '/' :: (token ++ rest) = cs at hs
    cases hs with
    | whole => cases hcs
    | step henters hs =>
      have happ := (List.cons.inj hcs).2
      obtain rfl : token = _ := by
        rw [← takeWhile_token h hrest, happ, takeWhile_token henters.slash_not_mem hs.isRest]
      rw [List.append_cancel_left happ]
      exact ⟨_, henters, hs⟩
  · rintro ⟨u, henters, hs⟩
    exact .step henters hs

/-- The tokens after the first slash are followed in turn. -/
theorem foldlM_splitSlashes_eq_some_iff (cs : List Char) (v w : Value) :
    ((splitSlashes cs).map unescape).foldlM step? v = some w ↔ Selects v ('/' :: cs) w := by
  obtain ⟨token, rest, h, hcs, hrest⟩ := exists_token cs
  rw [hcs, selects_slash_iff h hrest]
  rcases hrest with rfl | ⟨r, rfl⟩
  · rw [List.append_nil, (splitSlashes_append h).1]
    simp only [List.map_cons, List.map_nil, List.foldlM_cons, List.foldlM_nil, bind_pure,
      step?_unescape_eq_some_iff h]
    constructor
    · exact fun henters => ⟨w, henters, .whole w⟩
    · rintro ⟨u, henters, ⟨⟩⟩
      exact henters
  · rw [(splitSlashes_append h).2 r]
    simp only [List.map_cons, List.foldlM_cons, Option.bind_eq_bind, Option.bind_eq_some_iff,
      step?_unescape_eq_some_iff h]
    exact exists_congr fun u => and_congr_right fun _ => foldlM_splitSlashes_eq_some_iff r u w
termination_by cs.length
decreasing_by simp [hcs]; omega

end Pointer

/-- A pointer is looked up as RFC 6901 lays down. -/
theorem Value.pointed?_eq_some_iff {v w : Value} {pointer : String} :
    v.pointed? pointer = some w ↔ Pointer.Selects v pointer.toList w := by
  unfold pointed? Pointer.tokens?
  split
  · rename_i h
    rw [h]
    constructor
    · rintro ⟨⟩
      exact .whole v
    · rintro ⟨⟩
      rfl
  · rename_i cs h
    rw [h, ← Pointer.foldlM_splitSlashes_eq_some_iff]
    rfl
  · rename_i hnil hslash
    simp only [Option.bind_none, reduceCtorEq, false_iff]
    intro hs
    rcases hs.isRest with h | ⟨r, h⟩
    · exact hnil h
    · exact hslash r h

end CapabilityFlow
