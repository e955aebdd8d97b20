import CapabilityFlow.Proofs.Except
import CapabilityFlow.Schema.TypeText
import Mathlib.Data.List.TakeWhile

/-!
# The grammar of type expressions

A derivation of the grammar (`TypeText.Derivation`) has a text without blanks, and it writes a schema.
A type expression is read exactly when it is the text of a derivation once its blanks are left out,
and it is read as what that derivation writes (`TypeText.parse_eq_ok_iff_derived`). A text has one
derivation at most.
-/

namespace CapabilityFlow.TypeText

open Schema

/-- The names that write a type by themselves. -/
inductive TypeName where
  | scalar (type : Scalar)
  | object
  | any
  | unknown

namespace TypeName

def text : TypeName → String
  | scalar type => type.name
  | object => "object"
  | any => "any"
  | unknown => "unknown"

def schema : TypeName → Schema
  | scalar type => .scalar type
  | object => anyObject
  | any => .any
  | unknown => .unknown

theorem named?_text (name : TypeName) : named? name.text = some name.schema := by
  cases name with
  | scalar type => cases type <;> rfl
  | object | any | unknown => rfl

theorem exists_of_named? {text : String} {s : Schema} (h : named? text = some s) :
    ∃ name : TypeName, name.text = text ∧ name.schema = s := by
  unfold named? at h
  split at h
  · exact ⟨object, rfl, Option.some.inj h⟩
  · exact ⟨any, rfl, Option.some.inj h⟩
  · exact ⟨unknown, rfl, Option.some.inj h⟩
  · obtain ⟨type, htype, rfl⟩ := Option.map_eq_some_iff.1 h
    unfold Scalar.ofName? at htype
    split at htype
    case h_6 => cases htype
    all_goals
      cases htype
      exact ⟨scalar _, rfl, rfl⟩

theorem schema_injective {name name' : TypeName} (h : name.schema = name'.schema) :
    name = name' := by
  cases name <;> cases name' <;> cases h <;> rfl

theorem text_injective {name name' : TypeName} (h : name.text = name'.text) : name = name' := by
  have hschema : some name.schema = some name'.schema := by
    rw [← named?_text, ← named?_text, h]
  exact schema_injective (Option.some.inj hschema)

theorem text_ne_array (name : TypeName) : name.text ≠ "array" := by
  intro h
  have hnone : some name.schema = none := by
    rw [← named?_text, h]
    rfl
  cases hnone

theorem isNameChar_text (name : TypeName) :
    name.text.toList ≠ [] ∧ ∀ c ∈ name.text.toList, isNameChar c = true := by
  rw [← List.all_eq_true]
  cases name with
  | scalar type => cases type <;> decide
  | object | any | unknown => decide

end TypeName

/-- The name of arrays. -/
def arrayName : List Char := ['a', 'r', 'r', 'a', 'y']

theorem ofList_arrayName : String.ofList arrayName = "array" := rfl

theorem TypeName.toList_text_ne (name : TypeName) : name.text.toList ≠ arrayName := by
  intro h
  refine name.text_ne_array ?_
  rw [← ofList_arrayName, ← h, String.ofList_toList]

theorem isNameChar_arrayName : ∀ c ∈ arrayName, isNameChar c = true :=
  List.all_eq_true.1 (by decide)

mutual

/-- A derivation of `type := single ('|' single)*`. -/
inductive Derivation where
  | last (single : Single)
  | more (single : Single) (rest : Derivation)

/-- A derivation of `single := 'array' '<' type '>' | 'array' | name`. -/
inductive Single where
  | name (name : TypeName)
  | bareArray
  | array (element : Derivation)

end

mutual

/-- The text that is derived. -/
def Derivation.text : Derivation → List Char
  | .last single => single.text
  | .more single rest => single.text ++ '|' :: rest.text

def Single.text : Single → List Char
  | .name name => name.text.toList
  | .bareArray => arrayName
  | .array element => arrayName ++ '<' :: (element.text ++ ['>'])

end

mutual

/-- The arms that are written, in order. -/
def Derivation.arms : Derivation → List Schema
  | .last single => [single.schema]
  | .more single rest => single.schema :: rest.arms

/-- The schema that is written. A bare array is one of unknown elements. -/
def Single.schema : Single → Schema
  | .name name => name.schema
  | .bareArray => .array .unknown
  | .array element => .array (ofArms element.arms)

end

/-- The schema that is written: the arm if there is one, and the union of them if there are more. -/
def Derivation.schema (d : Derivation) : Schema :=
  ofArms d.arms

theorem Single.text_array_append (element : Derivation) (rest : List Char) :
    (Single.array element).text ++ rest = arrayName ++ '<' :: (element.text ++ '>' :: rest) := by
  simp [Single.text]

/-! ## What is read is derived -/

mutual

theorem exists_of_readArms_eq_ok {s : List Char} {arms : List Schema} {r : Rest s}
    (h : readArms s = .ok (arms, r)) : ∃ d : Derivation, s = d.text ++ r.1 ∧ d.arms = arms := by
  unfold readArms at h
  obtain ⟨⟨first, r₁⟩, hfirst, h⟩ := Except.bind_eq_ok_iff.1 h
  obtain ⟨single, hsingle, rfl⟩ := exists_of_readSingle_eq_ok hfirst
  dsimp only at h
  split at h
  · rename_i r' hr
    have hlt : r'.length < s.length := length_tail_lt r₁ hr
    obtain ⟨⟨more, r₂⟩, hmore, h⟩ := Except.bind_eq_ok_iff.1 h
    cases h
    obtain ⟨rest, hrest, rfl⟩ := exists_of_readArms_eq_ok hmore
    have hr₁ : r₁.1 = '|' :: (rest.text ++ r₂.1) := hr.trans (congrArg ('|' :: ·) hrest)
    exact ⟨.more single rest, hsingle.trans (by simp [hr₁, Derivation.text]), rfl⟩
  · cases h
    exact ⟨.last single, hsingle, rfl⟩
termination_by 2 * s.length + 1
decreasing_by all_goals omega

theorem exists_of_readSingle_eq_ok {s : List Char} {m : Schema} {r : Rest s}
    (h : readSingle s = .ok (m, r)) : ∃ d : Single, s = d.text ++ r.1 ∧ d.schema = m := by
  match s with
  | [] => simp [readSingle] at h
  | c :: cs =>
    unfold readSingle at h
    split at h
    · rename_i hc
      have hword : c :: cs = (c :: cs).takeWhile isNameChar ++ (c :: cs).dropWhile isNameChar :=
        List.takeWhile_append_dropWhile.symm
      dsimp only at h
      split at h
      · rename_i hname
        have htake : (c :: cs).takeWhile isNameChar = arrayName :=
          String.ofList_injective (hname.trans ofList_arrayName.symm)
        split at h
        · rename_i r' hr
          obtain ⟨⟨arms, r₂⟩, harms, h⟩ := Except.bind_eq_ok_iff.1 h
          have hlt : r'.length < (c :: cs).length :=
            length_tail_lt ⟨_, length_dropWhile_lt hc⟩ hr
          obtain ⟨element, helement, rfl⟩ := exists_of_readArms_eq_ok harms
          dsimp only at h
          split at h
          · rename_i rest hrest
            cases h
            have hdrop : (c :: cs).dropWhile isNameChar = '<' :: (element.text ++ '>' :: rest) :=
              hr.trans (congrArg ('<' :: ·) (helement.trans (by rw [hrest])))
            have htext := hword.trans (congrArg₂ (· ++ ·) htake hdrop)
            exact ⟨.array element, htext.trans (Single.text_array_append element rest).symm, rfl⟩
          · cases h
        · cases h
          refine ⟨.bareArray, ?_, rfl⟩
          rw [Single.text, ← htake]
          exact hword
      · split at h
        · rename_i hnamed
          cases h
          obtain ⟨name, hname, rfl⟩ := TypeName.exists_of_named? hnamed
          refine ⟨.name name, ?_, rfl⟩
          rw [Single.text, hname, String.toList_ofList]
          exact hword
        · cases h
    · cases h
termination_by 2 * s.length
decreasing_by all_goals omega

end

/-! ## What is derived is read -/

theorem takeWhile_word {p : Char → Bool} {word rest : List Char} (hword : ∀ c ∈ word, p c = true)
    (hrest : ∀ c ∈ rest.head?, p c = false) :
    (word ++ rest).takeWhile p = word ∧ (word ++ rest).dropWhile p = rest := by
  rw [List.takeWhile_append_of_pos hword, List.dropWhile_append_of_pos hword]
  cases rest with
  | nil => simp
  | cons c r => simp [hrest c rfl]

theorem readArms_of_last {s : List Char} {m : Schema} {r : Rest s} (h : readSingle s = .ok (m, r))
    (hr : ∀ r', r.1 ≠ '|' :: r') : readArms s = .ok ([m], r) := by
  unfold readArms
  rw [h]
  dsimp only [bind, Except.bind]
  split
  · rename_i r' hr'
    exact absurd hr' (hr r')
  · rfl

theorem readArms_of_more {s r' : List Char} {m : Schema} {more : List Schema} {r : Rest s}
    {r'' : Rest r'} (h : readSingle s = .ok (m, r)) (hr : r.1 = '|' :: r')
    (hmore : readArms r' = .ok (more, r'')) :
    ∃ hlt, readArms s = .ok (m :: more, ⟨r''.1, hlt⟩) := by
  refine ⟨Nat.lt_trans r''.2 (length_tail_lt r hr), ?_⟩
  unfold readArms
  rw [h]
  simp only [bind, Except.bind]
  split
  · rename_i t ht
    obtain rfl : t = r' := (List.cons.inj (ht.symm.trans hr)).2
    rw [hmore]
    rfl
  · rename_i hno
    exact absurd hr (hno r')

/-- The name at the start of a text decides how it is read. -/
theorem readSingle_of_name {name : TypeName} {rest : List Char}
    (hrest : ∀ c ∈ rest.head?, isNameChar c = false) :
    ∃ h, readSingle (name.text.toList ++ rest) = .ok (name.schema, ⟨rest, h⟩) := by
  obtain ⟨hne, hword⟩ := name.isNameChar_text
  obtain ⟨htake, hdrop⟩ := takeWhile_word hword hrest
  obtain ⟨c, cs, hcs⟩ := List.exists_cons_of_ne_nil hne
  have hlist : String.ofList (c :: cs) = name.text := by
    rw [← hcs, String.ofList_toList]
  rw [hcs] at hword htake hdrop ⊢
  rw [List.cons_append] at htake hdrop ⊢
  have hlt : rest.length < (c :: (cs ++ rest)).length := by
    rw [List.length_cons, List.length_append]
    omega
  refine ⟨hlt, ?_⟩
  unfold readSingle
  simp only [htake, hdrop, hlist, name.text_ne_array, name.named?_text, hword c List.mem_cons_self]
  rfl

theorem arrayName_append (rest : List Char) :
    arrayName ++ rest = 'a' :: (['r', 'r', 'a', 'y'] ++ rest) := rfl

theorem takeWhile_arrayName {rest : List Char} (hrest : ∀ c ∈ rest.head?, isNameChar c = false) :
    (arrayName ++ rest).takeWhile isNameChar = arrayName ∧
      (arrayName ++ rest).dropWhile isNameChar = rest :=
  takeWhile_word isNameChar_arrayName hrest

theorem readSingle_of_bareArray {rest : List Char}
    (hrest : ∀ c ∈ rest.head?, isNameChar c = false ∧ c ≠ '<') :
    ∃ h, readSingle (arrayName ++ rest) = .ok (.array .unknown, ⟨rest, h⟩) := by
  obtain ⟨htake, hdrop⟩ := takeWhile_arrayName fun c hc => (hrest c hc).1
  have hlt : rest.length < (arrayName ++ rest).length := by
    rw [List.length_append]
    exact Nat.lt_add_of_pos_left (by decide)
  refine ⟨hlt, ?_⟩
  simp only [arrayName_append] at htake hdrop ⊢
  unfold readSingle
  rw [dif_pos (by decide)]
  simp only [htake, ofList_arrayName, if_true]
  split
  · rename_i r' hr'
    rw [hdrop] at hr'
    exact absurd rfl (hrest '<' (by simp [hr'])).2
  · simp only [hdrop]

theorem readSingle_of_array {r' rest : List Char} {arms : List Schema}
    {hlt : ('>' :: rest).length < r'.length}
    (h : readArms r' = .ok (arms, ⟨'>' :: rest, hlt⟩)) :
    ∃ hlt, readSingle (arrayName ++ '<' :: r') = .ok (.array (ofArms arms), ⟨rest, hlt⟩) := by
  have hopen : ∀ c ∈ ('<' :: r').head?, isNameChar c = false := by
    intro c hc
    cases hc
    rfl
  obtain ⟨htake, hdrop⟩ := takeWhile_arrayName hopen
  have hrest : rest.length < (arrayName ++ '<' :: r').length := by
    simp only [List.length_cons, List.length_append] at hlt ⊢
    omega
  refine ⟨hrest, ?_⟩
  simp only [arrayName_append] at htake hdrop ⊢
  unfold readSingle
  rw [dif_pos (by decide)]
  simp only [htake, ofList_arrayName, if_true]
  split
  · rename_i t ht
    obtain rfl : t = r' := (List.cons.inj (ht.symm.trans hdrop)).2
    rw [h]
    rfl
  · rename_i hno
    exact absurd hdrop (hno r')

mutual

/-- A derivation is read, up to what continues neither a name nor a list of arms. -/
theorem Derivation.readArms_append (d : Derivation) {rest : List Char}
    (hrest : ∀ c ∈ rest.head?, isNameChar c = false ∧ c ≠ '<' ∧ c ≠ '|') :
    ∃ h, readArms (d.text ++ rest) = .ok (d.arms, ⟨rest, h⟩) := by
  match d with
  | .last single =>
    have hfollow : ∀ c ∈ rest.head?, isNameChar c = false ∧ (single = .bareArray → c ≠ '<') :=
      fun c hc => ⟨(hrest c hc).1, fun _ => (hrest c hc).2.1⟩
    obtain ⟨hlt, hread⟩ := single.readSingle_append hfollow
    refine ⟨hlt, readArms_of_last hread fun r' hr' => ?_⟩
    exact (hrest '|' (by simp [show rest = '|' :: r' from hr'])).2.2 rfl
  | .more single d' =>
    have hbar : ∀ c ∈ ('|' :: (d'.text ++ rest)).head?,
        isNameChar c = false ∧ (single = .bareArray → c ≠ '<') := by
      intro c hc
      cases hc
      exact ⟨rfl, fun _ => by decide⟩
    obtain ⟨hlt, hmore⟩ := d'.readArms_append hrest
    obtain ⟨hlt', hread⟩ := single.readSingle_append hbar
    rw [Derivation.text, List.append_assoc, List.cons_append]
    exact readArms_of_more hread rfl hmore

theorem Single.readSingle_append (d : Single) {rest : List Char}
    (hrest : ∀ c ∈ rest.head?, isNameChar c = false ∧ (d = .bareArray → c ≠ '<')) :
    ∃ h, readSingle (d.text ++ rest) = .ok (d.schema, ⟨rest, h⟩) := by
  match d with
  | .name name => exact readSingle_of_name fun c hc => (hrest c hc).1
  | .bareArray => exact readSingle_of_bareArray fun c hc => ⟨(hrest c hc).1, (hrest c hc).2 rfl⟩
  | .array element =>
    have hclose : ∀ c ∈ ('>' :: rest).head?, isNameChar c = false ∧ c ≠ '<' ∧ c ≠ '|' := by
      intro c hc
      cases hc
      decide
    obtain ⟨hlt, hread⟩ := element.readArms_append hclose
    rw [Single.text_array_append]
    exact readSingle_of_array hread

end

/-! ## Derivations of one text -/

/-- Words are told from what follows them. -/
theorem word_append_inj {word word' rest rest' : List Char} (hword : ∀ c ∈ word, isNameChar c = true)
    (hword' : ∀ c ∈ word', isNameChar c = true) (hrest : ∀ c ∈ rest.head?, isNameChar c = false)
    (hrest' : ∀ c ∈ rest'.head?, isNameChar c = false) (h : word ++ rest = word' ++ rest') :
    word = word' ∧ rest = rest' := by
  obtain ⟨htake, hdrop⟩ := takeWhile_word hword hrest
  obtain ⟨htake', hdrop'⟩ := takeWhile_word hword' hrest'
  rw [h] at htake hdrop
  exact ⟨htake.symm.trans htake', hdrop.symm.trans hdrop'⟩

namespace Single

/-- The name with which a text starts. -/
def word : Single → List Char
  | name n => n.text.toList
  | bareArray | array _ => arrayName

/-- What stands behind that name. -/
def tail (d : Single) (rest : List Char) : List Char :=
  match d with
  | name _ | bareArray => rest
  | array element => '<' :: (element.text ++ '>' :: rest)

variable {rest : List Char}

theorem text_append (d : Single) (rest : List Char) :
    d.text ++ rest = d.word ++ d.tail rest := by
  cases d with
  | name _ | bareArray => rfl
  | array element => exact text_array_append element rest

theorem isNameChar_word (d : Single) : ∀ c ∈ d.word, isNameChar c = true := by
  cases d with
  | name n => exact n.isNameChar_text.2
  | bareArray | array _ => exact isNameChar_arrayName

theorem isNameChar_tail (d : Single) (hrest : ∀ c ∈ rest.head?, c = '|' ∨ c = '>') :
    ∀ c ∈ (d.tail rest).head?, isNameChar c = false := by
  intro c hc
  cases d with
  | name _ | bareArray => rcases hrest c hc with rfl | rfl <;> rfl
  | array element =>
    cases hc
    rfl

end Single

mutual

/-- What a text starts with, up to where a type may end, is derived in one way only. -/
theorem Derivation.eq_of_text_append (d d' : Derivation) {rest rest' : List Char}
    (hrest : ∀ c ∈ rest.head?, c = '>') (hrest' : ∀ c ∈ rest'.head?, c = '>')
    (h : d.text ++ rest = d'.text ++ rest') : d = d' ∧ rest = rest' := by
  have hbar : ∀ l : List Char, ∀ c ∈ ('|' :: l).head?, c = '|' ∨ c = '>' := by
    intro l c hc
    cases hc
    exact .inl rfl
  have hno : ∀ {l l' : List Char}, (∀ c ∈ l.head?, c = '>') → l ≠ '|' :: l' := by
    rintro l l' hl rfl
    cases hl '|' rfl
  match d, d' with
  | .last single, .last single' =>
    obtain ⟨rfl, rfl⟩ := single.eq_of_text_append single' (fun c hc => .inr (hrest c hc))
      (fun c hc => .inr (hrest' c hc)) h
    exact ⟨rfl, rfl⟩
  | .last single, .more single' d' =>
    rw [Derivation.text, Derivation.text, List.append_assoc] at h
    exact absurd (single.eq_of_text_append single' (fun c hc => .inr (hrest c hc)) (hbar _) h).2
      (hno hrest)
  | .more single d, .last single' =>
    rw [Derivation.text, Derivation.text, List.append_assoc] at h
    exact absurd (single.eq_of_text_append single' (hbar _) (fun c hc => .inr (hrest' c hc)) h).2.symm
      (hno hrest')
  | .more single d, .more single' d' =>
    rw [Derivation.text, Derivation.text, List.append_assoc, List.append_assoc] at h
    obtain ⟨rfl, htail⟩ := single.eq_of_text_append single' (hbar _) (hbar _) h
    obtain ⟨rfl, rfl⟩ := d.eq_of_text_append d' hrest hrest' (List.cons.inj htail).2
    exact ⟨rfl, rfl⟩

theorem Single.eq_of_text_append (d d' : Single) {rest rest' : List Char}
    (hrest : ∀ c ∈ rest.head?, c = '|' ∨ c = '>') (hrest' : ∀ c ∈ rest'.head?, c = '|' ∨ c = '>')
    (h : d.text ++ rest = d'.text ++ rest') : d = d' ∧ rest = rest' := by
  rw [d.text_append, d'.text_append] at h
  obtain ⟨hword, htail⟩ := word_append_inj d.isNameChar_word d'.isNameChar_word
    (d.isNameChar_tail hrest) (d'.isNameChar_tail hrest') h
  have hbracket : ∀ {l l' : List Char}, (∀ c ∈ l.head?, c = '|' ∨ c = '>') → l ≠ '<' :: l' := by
    rintro l l' hl rfl
    rcases hl '<' rfl with h | h <;> cases h
  have hclose : ∀ l : List Char, ∀ c ∈ ('>' :: l).head?, c = '>' := by
    intro l c hc
    cases hc
    rfl
  match d, d' with
  | .name name, .name name' =>
    obtain rfl := TypeName.text_injective (String.toList_inj.1 hword)
    exact ⟨rfl, htail⟩
  | .name name, .bareArray | .name name, .array _ => exact absurd hword name.toList_text_ne
  | .bareArray, .name name | .array _, .name name => exact absurd hword.symm name.toList_text_ne
  | .bareArray, .bareArray => exact ⟨rfl, htail⟩
  | .bareArray, .array _ => exact absurd htail (hbracket hrest)
  | .array _, .bareArray => exact absurd htail.symm (hbracket hrest')
  | .array element, .array element' =>
    obtain ⟨rfl, hclosed⟩ :=
      element.eq_of_text_append element' (hclose rest) (hclose rest') (List.cons.inj htail).2
    exact ⟨rfl, (List.cons.inj hclosed).2⟩

end

theorem Derivation.text_injective {d d' : Derivation} (h : d.text = d'.text) : d = d' := by
  have hnil : ∀ c ∈ ([] : List Char).head?, c = '>' := nofun
  exact (d.eq_of_text_append d' hnil hnil (by rw [h])).1

/-! ## Type expressions -/

theorem exists_of_parse_eq_ok {text : String} {s : Schema} (h : parse text = .ok s) :
    ∃ d : Derivation, d.text = Text.stripBlanks text ∧ d.schema = s := by
  unfold parse at h
  dsimp only at h
  split at h
  · cases h
  split at h
  · rename_i t ht
    cases h
    obtain ⟨⟨arms, r, hr⟩, harms, h⟩ := Except.bind_eq_ok_iff.1 ht
    obtain ⟨d, htext, rfl⟩ := exists_of_readArms_eq_ok harms
    cases r with
    | nil =>
      cases h
      exact ⟨d, by simpa using htext.symm, rfl⟩
    | cons c r => cases h
  all_goals cases h

theorem Derivation.parse_eq_ok (d : Derivation) {text : String}
    (h : d.text = Text.stripBlanks text) : parse text = .ok d.schema := by
  have hnil : ∀ c ∈ ([] : List Char).head?, isNameChar c = false ∧ c ≠ '<' ∧ c ≠ '|' := nofun
  obtain ⟨hlt, hread⟩ := d.readArms_append hnil
  have hnonempty : (d.text ++ []).isEmpty = false := by
    rw [List.isEmpty_eq_false_iff, ← List.length_pos_iff]
    exact hlt
  have hschema : read (d.text ++ []) = .ok d.schema := by
    unfold read
    rw [hread]
    rfl
  unfold parse
  rw [← h, ← List.append_nil d.text]
  simp only [hnonempty, hschema, Bool.false_eq_true, if_false]

/-- A text is a type expression exactly when the grammar derives it once its blanks are left out, and
it is read as what its derivation writes, which is the only one that it has. -/
theorem parse_eq_ok_iff_derived :
    (∀ (text : String) (s : Schema),
      parse text = .ok s ↔ ∃ d : Derivation, d.text = Text.stripBlanks text ∧ d.schema = s) ∧
    ∀ d d' : Derivation, d.text = d'.text → d = d' := by
  refine ⟨fun text s => ⟨exists_of_parse_eq_ok, ?_⟩, fun _ _ => Derivation.text_injective⟩
  rintro ⟨d, htext, rfl⟩
  exact d.parse_eq_ok htext

namespace Sample

/-- A union with blanks around its parts, and with a bare array inside another one. -/
def expression : String := " array< array |string|array<null> > | object "

def derivation : Derivation :=
  .more (.array (.more .bareArray (.more (.name (.scalar .string))
    (.last (.array (.last (.name (.scalar .null)))))))) (.last (.name .object))

end Sample

open Sample in
theorem parse_eq_ok_iff_derived_sample : parse expression = .ok (.union [
      .array (.union [.array .unknown, .scalar .string, .array (.scalar .null)]), anyObject]) ∧
    ∃ d : Derivation, d.text = derivation.text ∧ d = derivation := by
  obtain ⟨hparse, hunique⟩ := parse_eq_ok_iff_derived
  have htext : derivation.text = Text.stripBlanks expression := by decide
  have h := (hparse expression derivation.schema).2 ⟨derivation, htext, rfl⟩
  obtain ⟨d, hd, -⟩ := (hparse _ _).1 h
  have hd := hd.trans htext.symm
  exact ⟨h, d, hd, hunique d derivation hd⟩

end CapabilityFlow.TypeText
