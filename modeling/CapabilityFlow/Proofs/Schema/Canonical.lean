import CapabilityFlow.Proofs.Schema.TypeText

/-!
# Canonical forms of schemas

The text of a schema tells of an object only that it is one, and it sets the arms of a union between
those around it. What is left is the canonical form of the schema (`Schema.canonical`), and the text
is read as that form (`TypeText.parse_text_eq_ok_iff`): two schemas have one text exactly when they
have one canonical form. Only a union without arms has a text that cannot be read
(`Schema.HasArms`).
-/

namespace CapabilityFlow

namespace Schema

/-- The arms of a union; any other schema is its only arm. -/
def arms : Schema → List Schema
  | .union arms => arms
  | s => [s]

/-- A schema with the generic object for every object, with the arms of a union in a union among the
arms of the latter, and with the only arm of a union for that union. -/
def canonical : Schema → Schema
  | .any => .any
  | .unknown => .unknown
  | .scalar type => .scalar type
  | .object _ _ _ => anyObject
  | .array element => .array element.canonical
  | .union arms => ofArms (arms.flatMap fun arm => arm.canonical.arms)
termination_by s => sizeOf s

/-- Every union has an arm. What an object declares does not count. -/
inductive HasArms : Schema → Prop where
  | any : HasArms .any
  | unknown : HasArms .unknown
  | scalar (type : Scalar) : HasArms (.scalar type)
  | object (fields : List (String × Schema)) (required : List String) (isOpen : Bool) :
      HasArms (.object fields required isOpen)
  | array {element : Schema} (h : HasArms element) : HasArms (.array element)
  | union {arms : List Schema} (hne : arms ≠ []) (h : ∀ arm ∈ arms, HasArms arm) :
      HasArms (.union arms)

theorem canonical_object (fields : List (String × Schema)) (required : List String)
    (isOpen : Bool) : (object fields required isOpen).canonical = anyObject := by
  simp [canonical]

theorem canonical_array (element : Schema) :
    (array element).canonical = .array element.canonical := by
  simp [canonical]

theorem canonical_union (arms : List Schema) :
    (union arms).canonical = ofArms (arms.flatMap fun arm => arm.canonical.arms) := by
  simp [canonical]

/-! ## Arms -/

variable {s : Schema} {l : List Schema}

theorem IsArm.arms_eq (h : s.IsArm) : s.arms = [s] := by
  cases h <;> rfl

theorem IsArm.isWritten (h : s.IsArm) : s.IsWritten :=
  ⟨[s], List.cons_ne_nil _ _, by simpa using h, rfl⟩

/-- Arms are told from the schema that they make, since none of them is a union. -/
theorem arms_ofArms (h : ∀ arm ∈ l, arm.IsArm) : (ofArms l).arms = l := by
  match l with
  | [] => rfl
  | [s] => exact (h s List.mem_cons_self).arms_eq
  | s :: t :: rest => rfl

theorem IsWritten.ofArms_arms (h : s.IsWritten) : ofArms s.arms = s := by
  obtain ⟨l, -, hl, rfl⟩ := h
  rw [arms_ofArms hl]

theorem IsWritten.arms_ne_nil (h : s.IsWritten) : s.arms ≠ [] := by
  obtain ⟨l, hne, hl, rfl⟩ := h
  rwa [arms_ofArms hl]

theorem IsWritten.isArm_of_mem_arms (h : s.IsWritten) {arm : Schema} (harm : arm ∈ s.arms) :
    arm.IsArm := by
  obtain ⟨l, -, hl, rfl⟩ := h
  rw [arms_ofArms hl] at harm
  exact hl arm harm

/-! ## Canonical forms are written -/

theorem isWritten_ofArms_flatMap (hne : l ≠ []) (h : ∀ arm ∈ l, arm.canonical.IsWritten) :
    (ofArms (l.flatMap fun arm => arm.canonical.arms)).IsWritten := by
  refine ⟨_, ?_, fun arm harm => ?_, rfl⟩
  · obtain ⟨arm, harm⟩ := List.exists_mem_of_ne_nil l hne
    rw [ne_eq, List.flatMap_eq_nil_iff]
    exact fun hnil => (h arm harm).arms_ne_nil (hnil arm harm)
  · obtain ⟨t, ht, harm⟩ := List.mem_flatMap.1 harm
    exact (h t ht).isArm_of_mem_arms harm

theorem HasArms.isWritten_canonical (h : s.HasArms) : s.canonical.IsWritten := by
  induction h with
  | any =>
    rw [canonical]
    exact IsArm.any.isWritten
  | unknown =>
    rw [canonical]
    exact IsArm.unknown.isWritten
  | scalar type =>
    rw [canonical]
    exact (IsArm.scalar type).isWritten
  | object fields required isOpen =>
    rw [canonical_object]
    exact IsArm.object.isWritten
  | array _ ih =>
    obtain ⟨arms, hne, harms, heq⟩ := ih
    rw [canonical_array, heq]
    exact (IsArm.array hne harms).isWritten
  | union hne _ ih =>
    rw [canonical_union]
    exact isWritten_ofArms_flatMap hne ih

theorem canonical_ofArms (harm : ∀ arm ∈ l, arm.IsArm) (h : ∀ arm ∈ l, arm.canonical = arm) :
    (ofArms l).canonical = ofArms l := by
  match l with
  | [] => simp [ofArms, canonical_union]
  | [s] => exact h s List.mem_cons_self
  | s :: t :: rest =>
    have harms : ((s :: t :: rest).flatMap fun arm => arm.canonical.arms) = s :: t :: rest := by
      rw [List.flatMap_congr fun arm hmem => by rw [h arm hmem, (harm arm hmem).arms_eq],
        List.flatMap_singleton']
    rw [show ofArms (s :: t :: rest) = .union (s :: t :: rest) from rfl, canonical_union, harms]
    rfl

theorem IsArm.canonical_eq (h : s.IsArm) : s.canonical = s := by
  induction h with
  | any => rw [canonical]
  | unknown => rw [canonical]
  | scalar type => rw [canonical]
  | object => exact canonical_object _ _ _
  | array _ harms ih => rw [canonical_array, canonical_ofArms harms ih]

/-- What a type expression writes is its own canonical form. -/
theorem IsWritten.canonical_eq (h : s.IsWritten) : s.canonical = s := by
  obtain ⟨l, -, hl, rfl⟩ := h
  exact canonical_ofArms hl fun arm harm => (hl arm harm).canonical_eq

end Schema

namespace TypeText

open Schema

variable {s t : Schema}

/-! ## Texts of canonical forms -/

/-- Joining joined texts joins them all, as long as there is one in each place. -/
theorem intercalate_flatMap {α : Type} (sep : String) {l : List α} {f : α → List String}
    (h : ∀ a ∈ l, f a ≠ []) :
    sep.intercalate (l.flatMap f) = sep.intercalate (l.map fun a => sep.intercalate (f a)) := by
  induction l with
  | nil => rfl
  | cons a rest ih =>
    have ih := ih fun b hb => h b (List.mem_cons_of_mem a hb)
    cases rest with
    | nil => simp
    | cons b rest =>
      have hmore : (b :: rest).flatMap f ≠ [] := by
        simp [h b (List.mem_cons_of_mem a List.mem_cons_self)]
      rw [List.flatMap_cons, String.intercalate_append_of_ne_nil (h a List.mem_cons_self) hmore, ih]
      simp only [List.map_cons, String.intercalate_cons_cons]

theorem text_canonical (h : s.HasArms) : s.canonical.text = s.text := by
  induction h with
  | any => rw [canonical]
  | unknown => rw [canonical]
  | scalar type => rw [canonical]
  | object fields required isOpen =>
    rw [canonical_object, text_anyObject]
    simp [Schema.text]
  | array _ ih =>
    rw [canonical_array]
    simp [Schema.text, ih]
  | @union arms hne harms ih =>
    have hwritten : ∀ arm ∈ arms, arm.canonical.IsWritten :=
      fun arm harm => (harms arm harm).isWritten_canonical
    have hne' : ∀ arm ∈ arms, arm.canonical.arms.map Schema.text ≠ [] :=
      fun arm harm => by simpa using (hwritten arm harm).arms_ne_nil
    have htext : ∀ arm ∈ arms, "|".intercalate (arm.canonical.arms.map Schema.text) = arm.text := by
      intro arm harm
      rw [← text_ofArms, (hwritten arm harm).ofArms_arms, ih arm harm]
    calc (Schema.union arms).canonical.text
        = "|".intercalate (arms.flatMap fun arm => arm.canonical.arms.map Schema.text) := by
          rw [canonical_union, text_ofArms, List.map_flatMap]
      _ = "|".intercalate (arms.map Schema.text) := by
          rw [intercalate_flatMap "|" hne', List.map_congr_left htext]
      _ = (Schema.union arms).text := by simp [Schema.text]

/-! ## Texts that can be read -/

/-- Arms can be read at the start of a text. -/
def StartsWithArms (s : List Char) : Prop :=
  ∃ res, readArms s = .ok res

/-- Reading goes on behind an arm and a bar. -/
theorem StartsWithArms.more {s r' : List Char} {m : Schema} {r : Rest s} (h : StartsWithArms s)
    (hread : readSingle s = .ok (m, r)) (hr : r.1 = '|' :: r') : StartsWithArms r' := by
  obtain ⟨res, h⟩ := h
  unfold readArms at h
  obtain ⟨first, hfirst, h⟩ := Except.bind_eq_ok_iff.1 h
  obtain rfl := Except.ok.inj (hread.symm.trans hfirst)
  dsimp only at h
  split at h
  · rename_i t ht
    obtain rfl : t = r' := (List.cons.inj (ht.symm.trans hr)).2
    obtain ⟨more, hmore, -⟩ := Except.bind_eq_ok_iff.1 h
    exact ⟨more, hmore⟩
  · rename_i hno
    exact absurd hr (hno r')

/-- Nothing is read where no name starts. -/
theorem not_startsWithArms {rest : List Char} (hrest : ∀ c ∈ rest.head?, isNameChar c = false) :
    ¬StartsWithArms rest := by
  rintro ⟨res, h⟩
  unfold readArms at h
  obtain ⟨first, hfirst, -⟩ := Except.bind_eq_ok_iff.1 h
  cases rest with
  | nil => simp [readSingle] at hfirst
  | cons c r => simp [readSingle, hrest c rfl] at hfirst

/-- Behind the opening bracket of an array, arms are read. -/
theorem StartsWithArms.element {c : Char} {cs l : List Char} (h : StartsWithArms (c :: cs))
    (hc : isNameChar c = true) (hname : String.ofList ((c :: cs).takeWhile isNameChar) = "array")
    (hdrop : (c :: cs).dropWhile isNameChar = '<' :: l) : StartsWithArms l := by
  obtain ⟨res, h⟩ := h
  unfold readArms at h
  obtain ⟨first, h, -⟩ := Except.bind_eq_ok_iff.1 h
  unfold readSingle at h
  rw [dif_pos hc] at h
  simp only [hname, if_true] at h
  split at h
  · rename_i t ht
    obtain rfl : t = l := (List.cons.inj (ht.symm.trans hdrop)).2
    obtain ⟨arms, harms, -⟩ := Except.bind_eq_ok_iff.1 h
    exact ⟨arms, harms⟩
  · rename_i hno
    exact absurd hdrop (hno l)

theorem isNameChar_eq_false_of_head? {c : Char} (hc : isNameChar c = false) (l : List Char) :
    ∀ d ∈ (c :: l).head?, isNameChar d = false := by
  intro d hd
  cases hd
  exact hc

/-- Reading goes on behind arms and a bar. -/
theorem StartsWithArms.of_text {arms : List Schema} (hne : arms ≠ [])
    (harms : ∀ arm ∈ arms, Reads arm) {l : List Char}
    (h : StartsWithArms ((ofArms arms).text.toList ++ '|' :: l)) : StartsWithArms l := by
  have hbar := isNameChar_eq_false_of_head? (c := '|') (by decide)
  rw [text_ofArms] at h
  induction arms with
  | nil => exact absurd rfl hne
  | cons m more ih =>
    have hm := harms m List.mem_cons_self
    cases more with
    | nil =>
      rw [List.map_singleton, String.intercalate_singleton] at h
      obtain ⟨hlt, hread⟩ := hm _ (hbar l)
      exact h.more hread rfl
    | cons m' more =>
      rw [toList_intercalate_append] at h
      obtain ⟨hlt, hread⟩ := hm _ (hbar _)
      exact ih (List.cons_ne_nil _ _) (fun arm harm => harms arm (List.mem_cons_of_mem m harm))
        (h.more hread rfl)

/-- A list of arms is read arm by arm, and there is one at least. -/
theorem StartsWithArms.of_intercalate {arms : List Schema}
    (harms : ∀ arm ∈ arms, ∀ rest : List Char, (∀ c ∈ rest.head?, isNameChar c = false) →
      StartsWithArms (arm.text.toList ++ rest) → arm.HasArms)
    {rest : List Char} (hrest : ∀ c ∈ rest.head?, isNameChar c = false)
    (h : StartsWithArms (("|".intercalate (arms.map Schema.text)).toList ++ rest)) :
    arms ≠ [] ∧ ∀ arm ∈ arms, arm.HasArms := by
  induction arms with
  | nil => exact absurd (by simpa using h) (not_startsWithArms hrest)
  | cons m more ih =>
    have hm := harms m List.mem_cons_self
    refine ⟨List.cons_ne_nil _ _, ?_⟩
    cases more with
    | nil =>
      rw [List.map_singleton, String.intercalate_singleton] at h
      simpa using hm rest hrest h
    | cons m' more =>
      rw [toList_intercalate_append] at h
      have hfirst := hm _ (isNameChar_eq_false_of_head? (by decide) _) h
      -- The first arm may be a union itself, whose arms are read before the bar.
      have hwritten := hfirst.isWritten_canonical
      rw [← text_canonical hfirst, ← hwritten.ofArms_arms] at h
      have hmore := h.of_text hwritten.arms_ne_nil
        fun arm harm => reads_of_isArm (hwritten.isArm_of_mem_arms harm)
      rw [List.forall_mem_cons]
      exact ⟨hfirst, (ih (fun arm harm => harms arm (List.mem_cons_of_mem m harm)) hmore).2⟩

/-- Where the text of a schema is read, with nothing behind it that is part of a name, every union
has an arm. -/
theorem hasArms_of_startsWithArms (s : Schema) {rest : List Char}
    (hrest : ∀ c ∈ rest.head?, isNameChar c = false)
    (h : StartsWithArms (s.text.toList ++ rest)) : s.HasArms := by
  fun_induction Schema.text s generalizing rest with
  | case1 => exact .any
  | case2 => exact .unknown
  | case3 type => exact .scalar type
  | case4 fields required isOpen => exact .object fields required isOpen
  | case5 element ih =>
    have hopen := isNameChar_eq_false_of_head? (c := '<') (by decide)
      (element.text.toList ++ '>' :: rest)
    obtain ⟨htake, hdrop⟩ := takeWhile_word
      (List.all_eq_true.1 (show ['a', 'r', 'r', 'a', 'y'].all isNameChar = true by decide)) hopen
    have htext : ("array<" ++ element.text ++ ">").toList ++ rest =
        'a' :: 'r' :: 'r' :: 'a' :: 'y' :: '<' :: (element.text.toList ++ '>' :: rest) := by
      simp
    rw [htext] at h
    exact .array (ih (isNameChar_eq_false_of_head? (by decide) rest)
      (h.element (by decide) (congrArg String.ofList htake) hdrop))
  | case6 arms ih =>
    obtain ⟨hne, harms⟩ := StartsWithArms.of_intercalate (fun arm harm rest => ih arm harm) hrest h
    exact .union hne harms

/-! ## Reading texts -/

theorem hasArms_of_parse_text (h : parse s.text = .ok t) : s.HasArms := by
  unfold parse at h
  rw [stripBlanks_text] at h
  dsimp only at h
  split at h
  · cases h
  split at h
  · rename_i hread
    obtain ⟨res, harms, -⟩ := Except.bind_eq_ok_iff.1 hread
    have hstarts : StartsWithArms s.text.toList := ⟨res, harms⟩
    rw [← List.append_nil s.text.toList] at hstarts
    exact hasArms_of_startsWithArms s (by simp) hstarts
  all_goals cases h

/-- The text of a schema can be read exactly when every union in it has an arm, and it is read as
the canonical form. -/
theorem parse_text_eq_ok_iff :
    parse s.text = .ok t ↔ s.HasArms ∧ t = s.canonical := by
  have hcanonical : s.HasArms → parse s.text = .ok s.canonical := fun h => by
    rw [← text_canonical h]
    exact parse_text h.isWritten_canonical
  constructor
  · intro h
    have harms := hasArms_of_parse_text h
    exact ⟨harms, Except.ok.inj (h.symm.trans (hcanonical harms))⟩
  · rintro ⟨h, rfl⟩
    exact hcanonical h

theorem text_of_parse_text (h : parse s.text = .ok t) : t.text = s.text := by
  obtain ⟨harms, rfl⟩ := parse_text_eq_ok_iff.1 h
  exact text_canonical harms

theorem text_eq_iff_canonical_eq (hs : s.HasArms) (ht : t.HasArms) :
    s.text = t.text ↔ s.canonical = t.canonical := by
  constructor
  · intro h
    have hs := parse_text_eq_ok_iff.2 ⟨hs, rfl⟩
    rw [h] at hs
    exact (parse_text_eq_ok_iff.1 hs).2
  · intro h
    rw [← text_canonical hs, ← text_canonical ht, h]

/-- Texts of schemas are canonical. The text of a schema whose unions all have arms is read as the
canonical form, which has the same text, so the text tells which canonical form a schema has; and
whatever is read from a text at all is its own canonical form. -/
theorem text_determines_canonical :
    (∀ s t : Schema, parse s.text = .ok t ↔ s.HasArms ∧ t = s.canonical) ∧
    (∀ s : Schema, s.HasArms → s.canonical.text = s.text) ∧
    (∀ s t : Schema, s.HasArms → t.HasArms → (s.text = t.text ↔ s.canonical = t.canonical)) ∧
    ∀ (text : String) (s : Schema), parse text = .ok s →
      s.canonical = s ∧ parse s.text = .ok s := by
  refine ⟨fun _ _ => parse_text_eq_ok_iff, fun _ => text_canonical,
    fun _ _ => text_eq_iff_canonical_eq, fun text s h => ?_⟩
  have hwritten := isWritten_of_parse h
  exact ⟨hwritten.canonical_eq, parse_text hwritten⟩

namespace Sample

/-- A union in a union, and a union of one arm in an array. -/
def nested : Schema :=
  .union [.union [.scalar .string, .scalar .null],
    .array (.union [.object [("n", .scalar .integer)] ["n"] false])]

/-- Another schema with the text of the nested one. -/
def regrouped : Schema :=
  .union [.scalar .string, .union [.scalar .null, .array .anyObject]]

theorem hasArms_nested : nested.HasArms := by
  refine .union (List.cons_ne_nil _ _) ?_
  simp only [List.forall_mem_cons, List.not_mem_nil, false_implies, implies_true, and_true]
  refine ⟨.union (List.cons_ne_nil _ _) ?_, .array (.union (List.cons_ne_nil _ _) ?_)⟩
  · simpa using ⟨HasArms.scalar .string, HasArms.scalar .null⟩
  · simpa using HasArms.object _ _ _

theorem hasArms_regrouped : regrouped.HasArms := by
  refine .union (List.cons_ne_nil _ _) ?_
  simp only [List.forall_mem_cons, List.not_mem_nil, false_implies, implies_true, and_true]
  refine ⟨.scalar _, .union (List.cons_ne_nil _ _) ?_⟩
  simpa using ⟨HasArms.scalar .null, .array (HasArms.object _ _ _)⟩

end Sample

open Sample in
/-- Two schemas have one text, which is read as the canonical form that they share. -/
theorem text_determines_canonical_nested : nested.HasArms ∧ regrouped.HasArms ∧
    nested ≠ regrouped ∧ nested.text = regrouped.text ∧
    parse nested.text = .ok nested.canonical ∧ nested.canonical.text = nested.text ∧
    parse "array" = .ok (.array .unknown) ∧
      parse (Schema.array .unknown).text = .ok (.array .unknown) := by
  obtain ⟨hparse, htext, hiff, hread⟩ := text_determines_canonical
  have hcanonical : nested.canonical = regrouped.canonical := by
    simp [nested, regrouped, canonical, Schema.arms, ofArms, anyObject]
  have harray : parse "array" = .ok (.array .unknown) :=
    Except.toOption_eq_some_iff.1 (by decide +kernel)
  exact ⟨hasArms_nested, hasArms_regrouped, by decide,
    (hiff _ _ hasArms_nested hasArms_regrouped).2 hcanonical,
    (hparse _ _).2 ⟨hasArms_nested, rfl⟩, htext _ hasArms_nested, harray, (hread _ _ harray).2⟩

end TypeText

end CapabilityFlow
