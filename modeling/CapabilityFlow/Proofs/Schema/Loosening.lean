import CapabilityFlow.Proofs.Schema.Agreement

/-!
# Acceptance of what texts tell

The canonical form of a type forgets what its objects declare and how its unions are nested. Neither
can turn an accepted type into one that is not: what accepts a type accepts its canonical form
(`Schema.accepts_canonical`), and so does the canonical form of what accepts it
(`Schema.canonical_accepts`). So a type may be replaced by the one that its text writes, on either
side or on both (`Schema.accepts_of_parse_text`).
-/

namespace CapabilityFlow.Schema

variable {expected found : Schema}

theorem any_canonical : any.canonical = .any := by
  simp [canonical]

theorem unknown_canonical : unknown.canonical = .unknown := by
  simp [canonical]

theorem scalar_canonical (type : Scalar) : (scalar type).canonical = .scalar type := by
  simp [canonical]

/-- An object of which nothing is declared fits every object, and every object fits it. -/
theorem accepts_anyObject (fields : Table Schema) (required : List String) (isOpen : Bool) :
    (object fields required isOpen).accepts anyObject = true ∧
      anyObject.accepts (object fields required isOpen) = true :=
  ⟨accepts_object_iff.2 (.inr (.inl ⟨rfl, rfl⟩)), accepts_object_iff.2 (.inl ⟨rfl, rfl⟩)⟩

/-- A single type stays one, with the same kind. -/
theorem canonical_single (hany : found ≠ .any) (hunknown : found ≠ .unknown)
    (hunion : ∀ arms, found ≠ union arms) : found.canonical ≠ .any ∧ found.canonical ≠ .unknown ∧
      ∀ arms, found.canonical ≠ union arms := by
  cases found with
  | any => exact absurd rfl hany
  | unknown => exact absurd rfl hunknown
  | union arms => exact absurd rfl (hunion arms)
  | _ => simp [canonical, anyObject]

theorem mem_members_canonical_union_iff {m : Schema} {arms : List Schema} :
    m ∈ (union arms).canonical.members ↔ ∃ arm ∈ arms, m ∈ arm.canonical.members := by
  simp only [members_canonical, members_union, List.map_flatMap, List.mem_flatMap]

/-- What accepts a type accepts its canonical form. -/
theorem accepts_canonical (h : expected.accepts found = true) :
    expected.accepts found.canonical = true := by
  induction expected, found using accepts.induct with
  | case1 found => exact any_accepts _
  | case2 expected => rwa [any_canonical]
  | case3 found => exact unknown_accepts _
  | case4 expected => rwa [unknown_canonical]
  | case5 expected arms _ _ ih =>
    -- The arms of the canonical form are not those of the union, but the members are kept.
    refine accepts_iff_forall_members.2 fun m hm => ?_
    obtain ⟨arm, harm, hm⟩ := mem_members_canonical_union_iff.1 hm
    exact accepts_iff_forall_members.1 (ih arm harm (accepts_union_iff.1 h arm harm)) m hm
  | case6 arms found hany hunknown hunion ih =>
    obtain ⟨arm, harm, h⟩ := (union_accepts_iff hany hunknown hunion).1 h
    obtain ⟨hany, hunknown, hunion⟩ := canonical_single hany hunknown hunion
    exact (union_accepts_iff hany hunknown hunion).2 ⟨arm, harm, ih arm harm h⟩
  | case7 expected found => rwa [scalar_canonical]
  | case8 expected found ih =>
    rw [accepts] at h
    rw [canonical_array, accepts]
    exact ih h
  | case9 fields required isOpen fields' required' isOpen' =>
    rw [canonical_object]
    exact (accepts_anyObject fields required isOpen).1
  | case10 expected found => simp_all [accepts]

/-- The canonical form of what accepts a type accepts it. -/
theorem canonical_accepts (h : expected.accepts found = true) :
    expected.canonical.accepts found = true := by
  induction expected, found using accepts.induct with
  | case1 found =>
    rw [any_canonical]
    exact any_accepts found
  | case2 expected => exact accepts_any _
  | case3 found =>
    rw [unknown_canonical]
    exact unknown_accepts found
  | case4 expected => simp_all [accepts]
  | case5 expected arms _ _ ih =>
    exact accepts_union_iff.2 fun arm harm => ih arm harm (accepts_union_iff.1 h arm harm)
  | case6 arms found hany hunknown hunion ih =>
    obtain ⟨arm, harm, h⟩ := (union_accepts_iff hany hunknown hunion).1 h
    obtain ⟨e, he, h⟩ := (accepts_iff_exists_members hany hunknown hunion).1 (ih arm harm h)
    have hmem := mem_members_canonical_union_iff.2 ⟨arm, harm, he⟩
    exact (accepts_iff_exists_members hany hunknown hunion).2 ⟨e, hmem, h⟩
  | case7 expected found => rwa [scalar_canonical]
  | case8 expected found ih =>
    rw [accepts] at h
    rw [canonical_array, accepts]
    exact ih h
  | case9 fields required isOpen fields' required' isOpen' =>
    rw [canonical_object]
    exact (accepts_anyObject fields' required' isOpen').2
  | case10 expected found => simp_all [accepts]

/-- The type that a text writes may stand for the type whose text it is: where a type is accepted,
it is accepted by the type that the text of the expected one writes, the expected one accepts the
type that the text of the found one writes, and the two types that the texts write accept each other
in the same direction. -/
theorem accepts_of_parse_text (expected found e f : Schema) (h : expected.accepts found = true)
    (he : TypeText.parse expected.text = .ok e) (hf : TypeText.parse found.text = .ok f) :
    e.accepts f = true ∧ expected.accepts f = true ∧ e.accepts found = true := by
  obtain ⟨-, rfl⟩ := TypeText.parse_text_eq_ok_iff.1 he
  obtain ⟨-, rfl⟩ := TypeText.parse_text_eq_ok_iff.1 hf
  exact ⟨canonical_accepts (accepts_canonical h), accepts_canonical h, canonical_accepts h⟩

namespace Sample

/-- A list of numbers and nulls, as a union in a union, or a record. -/
def tally : Schema :=
  .union [.union [.array (.union [.scalar .number, .scalar .null])],
    .object [("total", .scalar .number)] ["total"] false]

/-- A list of integers, or a record or a list of nulls. -/
def counts : Schema :=
  .union [.array (.union [.scalar .integer]),
    .union [.object [("total", .scalar .integer)] ["total"] false, .array (.scalar .null)]]

end Sample

open Sample in
theorem accepts_of_parse_text_sample : tally.accepts counts = true ∧
    TypeText.parse tally.text = .ok tally.canonical ∧
    TypeText.parse counts.text = .ok counts.canonical ∧
    tally.canonical ≠ tally ∧ counts.canonical ≠ counts ∧
    tally.canonical.accepts counts.canonical = true ∧ tally.accepts counts.canonical = true ∧
    tally.canonical.accepts counts = true := by
  have h : tally.accepts counts = true := by decide +kernel
  have he : TypeText.parse tally.text = .ok tally.canonical :=
    Except.toOption_eq_some_iff.1 (by decide +kernel)
  have hf : TypeText.parse counts.text = .ok counts.canonical :=
    Except.toOption_eq_some_iff.1 (by decide +kernel)
  exact ⟨h, he, hf, by decide +kernel, by decide +kernel, accepts_of_parse_text _ _ _ _ h he hf⟩

/-- The types that texts write may accept more: here one closed object is set against another. -/
example : (object [("total", .scalar .number)] [] false).accepts (.object [("n", .any)] [] false) =
      false ∧
    anyObject.accepts (.object [("n", .any)] [] false) = true := by
  decide +kernel

end CapabilityFlow.Schema
