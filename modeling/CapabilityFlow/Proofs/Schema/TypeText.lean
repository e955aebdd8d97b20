import CapabilityFlow.Proofs.Schema.Grammar

/-!
# Schemas that type expressions write

A type expression writes a list of arms (`Schema.IsArm`), and the text of a schema that some type
expression writes is read as that schema again (`TypeText.parse_text`).
-/

namespace CapabilityFlow

/-- What one arm of a type expression can write. -/
inductive Schema.IsArm : Schema → Prop where
  | any : IsArm .any
  | unknown : IsArm .unknown
  | scalar (t : Scalar) : IsArm (.scalar t)
  | object : IsArm .anyObject
  | array {arms : List Schema} (hne : arms ≠ []) (h : ∀ arm ∈ arms, IsArm arm) :
      IsArm (.array (.ofArms arms))

/-- What a type expression can write. -/
def Schema.IsWritten (s : Schema) : Prop :=
  ∃ arms, arms ≠ [] ∧ (∀ arm ∈ arms, Schema.IsArm arm) ∧ s = .ofArms arms

namespace TypeText

open Schema

theorem TypeName.isArm_schema (name : TypeName) : name.schema.IsArm := by
  cases name with
  | scalar type => exact .scalar type
  | object => exact .object
  | any => exact .any
  | unknown => exact .unknown

theorem Derivation.arms_ne_nil (d : Derivation) : d.arms ≠ [] := by
  cases d <;> simp [Derivation.arms]

mutual

theorem Derivation.isArm_of_mem_arms (d : Derivation) : ∀ arm ∈ d.arms, arm.IsArm := by
  intro arm hmem
  match d with
  | .last single =>
    rw [List.mem_singleton.1 hmem]
    exact single.isArm_schema
  | .more single rest =>
    rcases List.mem_cons.1 hmem with rfl | hmem
    · exact single.isArm_schema
    · exact rest.isArm_of_mem_arms arm hmem

theorem Single.isArm_schema (d : Single) : d.schema.IsArm := by
  match d with
  | .name name => exact name.isArm_schema
  | .bareArray =>
    exact show IsArm (.array (.ofArms [.unknown])) from
      .array (List.cons_ne_nil _ _) (by simpa using IsArm.unknown)
  | .array element => exact .array element.arms_ne_nil element.isArm_of_mem_arms

end

theorem isWritten_of_parse {text : String} {s : Schema} (h : parse text = .ok s) :
    s.IsWritten := by
  obtain ⟨d, -, rfl⟩ := exists_of_parse_eq_ok h
  exact ⟨d.arms, d.arms_ne_nil, d.isArm_of_mem_arms, rfl⟩

/-! ## Texts -/

theorem text_ofArms (arms : List Schema) :
    (ofArms arms).text = "|".intercalate (arms.map Schema.text) := by
  match arms with
  | [] => simp [ofArms, Schema.text]
  | [s] => simp [ofArms]
  | s :: t :: rest => simp [ofArms, Schema.text]

/-- A bar stands between the text of the first arm and those of the others. -/
theorem toList_intercalate_append (m m' : Schema) (more : List Schema) (rest : List Char) :
    ("|".intercalate ((m :: m' :: more).map Schema.text)).toList ++ rest = m.text.toList ++
      '|' :: (("|".intercalate ((m' :: more).map Schema.text)).toList ++ rest) := by
  simp [String.intercalate_cons_cons]

theorem text_any : Schema.any.text = "any" := by simp [Schema.text]

theorem text_unknown : Schema.unknown.text = "unknown" := by simp [Schema.text]

theorem text_scalar (t : Scalar) : (Schema.scalar t).text = t.name := by simp [Schema.text]

theorem text_anyObject : anyObject.text = "object" := by simp [anyObject, Schema.text]

/-- A derivation of the text of an arm, other than that of a bare array, which would be read on at a
bracket. -/
def DerivesArm (d : Single) (m : Schema) : Prop :=
  d ≠ .bareArray ∧ d.text = m.text.toList ∧ d.schema = m

theorem exists_derivation_of_arms {arms : List Schema} (hne : arms ≠ [])
    (harms : ∀ arm ∈ arms, ∃ d, DerivesArm d arm) :
    ∃ d : Derivation, d.text = (ofArms arms).text.toList ∧ d.arms = arms := by
  rw [text_ofArms]
  induction arms with
  | nil => exact absurd rfl hne
  | cons m more ih =>
    obtain ⟨single, -, htext, rfl⟩ := harms m List.mem_cons_self
    cases more with
    | nil => exact ⟨.last single, by simpa [Derivation.text] using htext, rfl⟩
    | cons m' more =>
      obtain ⟨rest, hrest, hmore⟩ := ih (List.cons_ne_nil _ _)
        fun arm harm => harms arm (List.mem_cons_of_mem _ harm)
      have happend := toList_intercalate_append single.schema m' more []
      rw [List.append_nil, List.append_nil, ← hrest, ← htext] at happend
      exact ⟨.more single rest, happend.symm, congrArg (single.schema :: ·) hmore⟩

theorem exists_derivesArm {m : Schema} (h : IsArm m) : ∃ d, DerivesArm d m := by
  induction h with
  | any => exact ⟨.name .any, nofun, by rw [text_any]; rfl, rfl⟩
  | unknown => exact ⟨.name .unknown, nofun, by rw [text_unknown]; rfl, rfl⟩
  | scalar type => exact ⟨.name (.scalar type), nofun, by rw [text_scalar]; rfl, rfl⟩
  | object => exact ⟨.name .object, nofun, by rw [text_anyObject]; rfl, rfl⟩
  | array hne _ ih =>
    obtain ⟨element, htext, rfl⟩ := exists_derivation_of_arms hne ih
    refine ⟨.array element, nofun, ?_, rfl⟩
    simp [Single.text, arrayName, htext, Schema.text]

/-- A text is read as an arm, whatever follows that is not part of a name. -/
def Reads (m : Schema) : Prop :=
  ∀ rest : List Char, (∀ c ∈ rest.head?, isNameChar c = false) →
    ∃ h, readSingle (m.text.toList ++ rest) = .ok (m, ⟨rest, h⟩)

/-- Every arm is read from its text. -/
theorem reads_of_isArm {m : Schema} (h : IsArm m) : Reads m := by
  obtain ⟨d, hbare, htext, rfl⟩ := exists_derivesArm h
  intro rest hrest
  rw [← htext]
  exact d.readSingle_append fun c hc => ⟨hrest c hc, fun h => absurd h hbare⟩

/-! ## The characters of texts -/

/-- The characters of the texts of schemas. -/
def isTypeChar (c : Char) : Bool :=
  isNameChar c || c = '<' || c = '>' || c = '|'

theorem isTypeChar_intercalate {texts : List String}
    (h : ∀ t ∈ texts, ∀ c ∈ t.toList, isTypeChar c = true) :
    ∀ c ∈ ("|".intercalate texts).toList, isTypeChar c = true := by
  induction texts with
  | nil => simp
  | cons t more ih =>
    cases more with
    | nil => simpa using h
    | cons u more =>
      intro c hc
      simp only [String.intercalate_cons_cons, String.toList_append, List.mem_append] at hc
      rcases hc with (hc | hc) | hc
      · exact h t List.mem_cons_self c hc
      · obtain rfl : c = '|' := by simpa using hc
        rfl
      · exact ih (fun v hv => h v (List.mem_cons_of_mem t hv)) c hc

theorem isTypeChar_text (s : Schema) : ∀ c ∈ s.text.toList, isTypeChar c = true := by
  fun_induction Schema.text s with
  | case1 => exact List.all_eq_true.1 (by decide)
  | case2 => exact List.all_eq_true.1 (by decide)
  | case3 t => cases t <;> exact List.all_eq_true.1 (by decide)
  | case4 => exact List.all_eq_true.1 (by decide)
  | case5 element ih =>
    intro c hc
    simp only [String.toList_append, List.mem_append] at hc
    have hopen : ∀ c ∈ "array<".toList, isTypeChar c = true := List.all_eq_true.1 (by decide)
    have hclose : ∀ c ∈ ">".toList, isTypeChar c = true := List.all_eq_true.1 (by decide)
    rcases hc with (hc | hc) | hc
    · exact hopen c hc
    · exact ih c hc
    · exact hclose c hc
  | case6 arms ih =>
    refine isTypeChar_intercalate fun t ht => ?_
    obtain ⟨arm, harm, rfl⟩ := List.mem_map.1 ht
    exact ih arm harm

theorem isBlank_of_isTypeChar {c : Char} (h : isTypeChar c = true) : Text.isBlank c = false := by
  unfold isTypeChar isNameChar Char.isAlphanum at h
  delta Char.isAlpha Char.isUpper Char.isLower at h
  simp only [Char.isDigit, Bool.or_eq_true, Bool.and_eq_true, decide_eq_true_eq, ge_iff_le,
    UInt32.le_iff_toNat_le] at h
  rcases h with (((((h | h) | h) | rfl) | rfl) | rfl) | rfl
  · exact Text.isBlank_of_visible (Nat.le_trans (by decide) h.1) (Nat.le_trans h.2 (by decide))
  · exact Text.isBlank_of_visible (Nat.le_trans (by decide) h.1) (Nat.le_trans h.2 (by decide))
  · exact Text.isBlank_of_visible (Nat.le_trans (by decide) h.1) (Nat.le_trans h.2 (by decide))
  all_goals decide

theorem stripBlanks_text (s : Schema) : Text.stripBlanks s.text = s.text.toList := by
  refine List.filter_eq_self.2 fun c hc => ?_
  simp [isBlank_of_isTypeChar (isTypeChar_text s c hc)]

/-- What a type expression writes is read from its text again. -/
theorem parse_text {s : Schema} (h : s.IsWritten) : parse s.text = .ok s := by
  obtain ⟨arms, hne, harms, rfl⟩ := h
  obtain ⟨d, htext, rfl⟩ :=
    exists_derivation_of_arms hne fun arm harm => exists_derivesArm (harms arm harm)
  exact d.parse_eq_ok (by rw [stripBlanks_text, htext])

end TypeText

end CapabilityFlow
