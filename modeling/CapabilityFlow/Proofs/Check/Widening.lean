import CapabilityFlow.Proofs.Check.Ascription
import CapabilityFlow.Proofs.Schema.Members

/-!
# Inputs that take more

A declared type may be widened to a union of which it is an arm. The union accepts what the arm
accepts, unless that has `unknown` as a member, and a binding has such a type only if it is a
reference to which the type is ascribed (`Scope.exists_ascribed_of_bindingType`). So widening leads
to a mismatch at such references alone (`Scope.mismatch_widened_iff`).
-/

namespace CapabilityFlow

namespace Schema

theorem unknown_notMem_members_of_isAmbiguous {t : Schema} (h : t.isAmbiguous = false) :
    unknown ∉ t.members := by
  cases t <;> simp_all [isAmbiguous, members]

theorem unknown_notMem_members_ofValue (v : Value) : unknown ∉ (ofValue v).members := by
  cases v <;> simp [ofValue, anyObject, members]

end Schema

namespace Scope

variable {s : Scope} {consumer : Step} {r : Reference} {t : Schema}

/-- The type of a reference is a unique one that is reached, or the ascribed one. -/
theorem unambiguous_or_ascribed_of_valueType (h : s.valueType consumer r = .ok t) :
    t.isAmbiguous = false ∨ r.ascribed = some t := by
  unfold valueType at h
  obtain ⟨reached, -, h⟩ := Except.bind_eq_ok_iff.1 h
  split at h
  · split at h
    · cases h
    · rename_i hambiguous
      cases h
      exact .inl (by simpa using hambiguous)
  · rename_i ascribed hascribed
    split at h
    · cases h
    · split at h
      · cases h
        exact .inr hascribed
      · rename_i hopen
        cases h
        rw [Bool.or_eq_true, not_or] at hopen
        exact .inl (by simpa using hopen.1)

/-- A binding is a reference, or its type is that of a value. -/
theorem eq_reference_or_of_bindingType {b : Binding} (h : s.bindingType consumer b = .ok t) :
    (∃ r, b = .reference r ∧ s.valueType consumer r = .ok t) ∨ ∃ v, t = .ofValue v := by
  cases b with
  | reference r => exact .inl ⟨r, rfl, Except.mapError_eq_ok_iff.1 h⟩
  | template text rs =>
    dsimp only [bindingType] at h
    split at h <;> cases h
    exact .inr ⟨.str text, rfl⟩
  | composite v rs =>
    dsimp only [bindingType] at h
    split at h <;> cases h
    exact .inr ⟨v, rfl⟩
  | literal v => exact .inr ⟨v, (Except.ok.inj h).symm⟩

/-- Only a reference to which it is ascribed has a type with `unknown` as a member. -/
theorem exists_ascribed_of_bindingType {b : Binding} (h : s.bindingType consumer b = .ok t)
    (ht : .unknown ∈ t.members) :
    ∃ r, b = .reference r ∧ r.ascribed = some t ∧ s.valueType consumer r = .ok t := by
  rcases eq_reference_or_of_bindingType h with ⟨r, hb, hr⟩ | ⟨v, rfl⟩
  · rcases unambiguous_or_ascribed_of_valueType hr with hambiguous | hascribed
    · exact absurd ht (Schema.unknown_notMem_members_of_isAmbiguous hambiguous)
    · exact ⟨r, hb, hascribed, hr⟩
  · exact absurd ht (Schema.unknown_notMem_members_ofValue v)

theorem exists_mismatch_iff {cap : Capability} {l : Location} {b : String × Binding} :
    (∃ f ∈ s.bindingFindings consumer cap l b, f.code = .typeMismatch) ↔
      ¬s.Fits consumer cap b := by
  rw [not_fits_iff]
  constructor
  · rintro ⟨f, hf⟩
    obtain ⟨found, expected, hfound, hexpected, h, -⟩ := mem_bindingFindings_mismatch_iff.1 hf
    exact ⟨found, expected, hfound, hexpected, h⟩
  · rintro ⟨found, expected, hfound, hexpected, h⟩
    exact ⟨_, mem_bindingFindings_mismatch_iff.2 ⟨found, expected, hfound, hexpected, h, rfl⟩⟩

/-- Where an input is widened from one arm to a union, a binding that fitted does not fit any more
exactly when its type may be unknown. -/
theorem not_fits_widened_iff {cap wide : Capability} {b : String × Binding} {arms : List Schema}
    {e : Schema} (he : e ∈ arms) (hcap : cap.inputField? b.1 = some e)
    (hwide : wide.inputField? b.1 = some (.union arms)) (hfits : s.Fits consumer cap b) :
    ¬s.Fits consumer wide b ↔ ∃ found, s.bindingType consumer b.2 = .ok found ∧
      .unknown ∈ found.members := by
  rw [not_fits_iff]
  refine exists_congr fun found => ?_
  constructor
  · rintro ⟨expected, hfound, hexpected, hnot⟩
    obtain rfl := Option.some.inj (hwide.symm.trans hexpected)
    have hiff := Schema.union_accepts_iff_notMem he (hfits found e hfound hcap)
    exact ⟨hfound, by simpa [hnot] using hiff⟩
  · rintro ⟨hfound, hmem⟩
    have hiff := Schema.union_accepts_iff_notMem he (hfits found e hfound hcap)
    exact ⟨_, hfound, hwide, by simpa [hmem] using hiff⟩

/-- A union accepts what one of its arms accepts, unless that has `unknown` as a member. So where
an input of a capability is widened to a union, a binding that fitted before is a mismatch exactly
if it is a reference that has an ascribed type with `unknown` as a member. -/
theorem mismatch_widened_iff (arms : List Schema) (e : Schema) (he : e ∈ arms) :
    (∀ found, e.accepts found = true →
      ((Schema.union arms).accepts found = true ↔ .unknown ∉ found.members)) ∧
    ∀ (s : Scope) (consumer : Step) (cap wide : Capability) (l : Location) (b : String × Binding),
      cap.inputField? b.1 = some e → wide.inputField? b.1 = some (.union arms) →
      (∀ f ∈ s.bindingFindings consumer cap l b, f.code ≠ .typeMismatch) →
      ((∃ f ∈ s.bindingFindings consumer wide l b, f.code = .typeMismatch) ↔
        ∃ r ascribed, b.2 = .reference r ∧ r.ascribed = some ascribed ∧
          .unknown ∈ ascribed.members ∧ s.valueType consumer r = .ok ascribed) := by
  refine ⟨fun found h => Schema.union_accepts_iff_notMem he h, ?_⟩
  intro s consumer cap wide l b hcap hwide hnone
  have hfits : s.Fits consumer cap b := by
    by_contra h
    obtain ⟨f, hf, hcode⟩ := exists_mismatch_iff.2 h
    exact hnone f hf hcode
  rw [exists_mismatch_iff, not_fits_widened_iff he hcap hwide hfits]
  constructor
  · rintro ⟨found, hfound, hmem⟩
    obtain ⟨r, hb, hascribed, hr⟩ := exists_ascribed_of_bindingType hfound hmem
    exact ⟨r, found, hb, hascribed, hmem, hr⟩
  · rintro ⟨r, ascribed, hb, -, hmem, hr⟩
    refine ⟨ascribed, ?_, hmem⟩
    rw [hb]
    exact Except.mapError_eq_ok_iff.2 hr

namespace Sample

/-- Takes a total of a type. -/
def taking (total : Schema) : Capability :=
  Checker.Sample.capability "report" (.object [("total", total)] [] false) .anyObject

def place : Location :=
  .atStep "w" 1 "r"

/-- A total that is gathered in a field, as a type that is ascribed to it. -/
def bound (field : String) (ascribed : Schema) : String × Binding :=
  ("total", .reference (reference field ascribed))

end Sample

open Sample in
/-- An integer fits where a number is given, and also where this may be nothing. -/
theorem mismatch_widened_iff_sample :
    (Schema.union [.scalar .number, .scalar .null]).accepts (.scalar .integer) = true ∧
    (∀ f ∈ scope.bindingFindings report (taking (.scalar .number)) place
      (bound "rate" (.scalar .integer)), f.code ≠ .typeMismatch) ∧
    ∀ f ∈ scope.bindingFindings report (taking (.union [.scalar .number, .scalar .null])) place
      (bound "rate" (.scalar .integer)), f.code ≠ .typeMismatch := by
  obtain ⟨haccepts, hmismatch⟩ := mismatch_widened_iff [.scalar .number, .scalar .null]
    (.scalar .number) List.mem_cons_self
  have hmem : Schema.unknown ∉ (Schema.scalar .integer).members := by simp [Schema.members]
  have hfits : ∀ f ∈ scope.bindingFindings report (taking (.scalar .number)) place
      (bound "rate" (.scalar .integer)), f.code ≠ .typeMismatch := by
    decide +kernel
  refine ⟨(haccepts _ (by decide +kernel)).2 hmem, hfits, fun f hf hcode => ?_⟩
  obtain ⟨r, ascribed, hb, hascribed, hunknown, -⟩ := (hmismatch scope report
    (taking (.scalar .number)) (taking (.union [.scalar .number, .scalar .null])) place
    (bound "rate" (.scalar .integer)) rfl rfl hfits).1 ⟨f, hf, hcode⟩
  cases hb
  cases hascribed
  exact hmem hunknown

open Sample in
/-- What is not known fits where anything may be given, but not where this may also be nothing. -/
theorem not_forall_fits_widened :
    Schema.any.accepts .unknown = true ∧
    (Schema.union [.any, .scalar .null]).accepts .unknown = false ∧
    scope.bindingFindings report (taking .any) place (bound "summary" .unknown) = [] ∧
    ∃ f ∈ scope.bindingFindings report (taking (.union [.any, .scalar .null])) place
      (bound "summary" .unknown), f.code = .typeMismatch := by
  decide +kernel

end Scope

end CapabilityFlow
