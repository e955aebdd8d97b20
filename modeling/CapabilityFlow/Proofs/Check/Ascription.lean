import CapabilityFlow.Proofs.Check.Mismatch
import CapabilityFlow.Proofs.Schema.Meeting

/-!
# What ascribed types hide

Where a reference reaches one of several types, the type that is ascribed to it counts. If nothing is
found at its input, then the ascribed type lies between one of these types and the declared one, so
that the two meet unless the ascribed type leaves open what it is (`Scope.exists_arm_meets`).
A type that leaves it open can hide that no type fits (`Scope.hides_sample`).
-/

namespace CapabilityFlow.Scope

variable {s : Scope} {consumer : Step} {cap : Capability}

theorem field_of_mem_bindingFindings {l : Location} {b : String × Binding} {f : Finding}
    (hf : f ∈ s.bindingFindings consumer cap l b) : f.location.field = some b.1 := by
  unfold bindingFindings undeclaredFindings at hf
  rcases List.mem_append.1 hf with hf | hf
  · split at hf
    · cases hf
    · obtain rfl := List.mem_singleton.1 hf
      rfl
  · split at hf
    · obtain ⟨fault, -, rfl⟩ := List.mem_map.1 hf
      rfl
    · split at hf
      · cases hf
      · obtain rfl := List.mem_singleton.1 hf
        rfl
    · cases hf

/-- A binding at whose field nothing is found has a type, which its input accepts. -/
theorem exists_bindingType_of_not_mem (hcap : s.ontology.get? consumer.capability = some cap)
    {b : String × Binding} (hb : b ∈ consumer.bindings)
    (hnone : ∀ f ∈ s.stepFindings consumer, f.location.field ≠ some b.1) :
    ∃ t, s.bindingType consumer b.2 = .ok t ∧
      ∀ expected, cap.inputField? b.1 = some expected → expected.accepts t = true := by
  have hnil : ∀ f ∈ s.bindingFindings consumer cap
      (Location.atStep s.workflow.name consumer.index consumer.label) b, f.isError = false := by
    intro f hf
    have hfield := field_of_mem_bindingFindings hf
    exact absurd hfield (hnone f (mem_stepFindings_of_mem_bindingFindings hcap hb hf))
  exact bindingFindings_no_error_iff.1 hnil

/-- Where one of several types is reached, the type of a reference is the ascribed one. -/
theorem ascribed_of_valueType {r : Reference} {arms : List Schema} {t : Schema}
    (hreached : s.reached consumer r = .ok (.union arms)) (h : s.valueType consumer r = .ok t) :
    r.ascribed = some t ∧ (Schema.union arms).admits t = true := by
  unfold valueType at h
  rw [hreached] at h
  cases hr : r.ascribed with
  | none =>
    rw [hr] at h
    cases h
  | some a =>
    rw [hr] at h
    cases hadmits : (Schema.union arms).admits a with
    | true =>
      simp [hadmits, Schema.isAmbiguous, bind, Except.bind, pure, Except.pure] at h
      exact ⟨by rw [h], by rw [← h, hadmits]⟩
    | false => simp [hadmits, bind, Except.bind, throw, throwThe, MonadExceptOf.throw] at h

/-- If nothing is found where a declared input is bound to one of several types, then one of these
admits the ascribed type, and the input accepts it. A definite ascribed type makes the two meet:
they are compatible once an arm is chosen of each union in them. -/
theorem exists_arm_meets (s : Scope) (consumer : Step) (cap : Capability) (field : String)
    (r : Reference) (expected : Schema) (arms : List Schema)
    (hcap : s.ontology.get? consumer.capability = some cap)
    (hb : (field, .reference r) ∈ consumer.bindings) (he : cap.inputField? field = some expected)
    (hreached : s.reached consumer r = .ok (.union arms))
    (hnone : ∀ f ∈ s.stepFindings consumer, f.location.field ≠ some field) :
    ∃ ascribed, r.ascribed = some ascribed ∧ expected.accepts ascribed = true ∧
      ∃ arm ∈ arms, arm.admits ascribed = true ∧
        (∀ objects, ascribed.IsDefinite objects → arm.Meets objects expected) ∧
        (ascribed.IsDefinite false → arm.hasUnion = false → expected.hasUnion = false →
          arm.Compatible expected) := by
  obtain ⟨t, ht, haccepts⟩ := exists_bindingType_of_not_mem hcap hb hnone
  have hvalue : s.valueType consumer r = .ok t := Except.mapError_eq_ok_iff.1 ht
  obtain ⟨hascribed, hadmits⟩ := ascribed_of_valueType hreached hvalue
  have ht := haccepts expected he
  obtain ⟨arm, harm, hadmits⟩ := Schema.union_admits_iff.1 hadmits
  refine ⟨t, hascribed, ht, arm, harm, hadmits, fun _ hdefinite => ?_, fun hdefinite => ?_⟩
  · exact hdefinite.meets_of_admits hadmits ht
  · exact (hdefinite.meets_of_admits hadmits ht).compatible_of_hasUnion

namespace Sample

/-- `gather` may yield nothing for each of its fields. -/
def gathered : Schema :=
  .object [("summary", .union [.scalar .string, .scalar .null]),
    ("item", .union [.object [("name", .scalar .string)] ["name"] false, .scalar .null]),
    ("rate", .union [.scalar .number, .scalar .null]),
    ("code", .union [.union [.scalar .integer, .scalar .string], .scalar .null])] [] false

def reported : Schema :=
  .object [("count", .scalar .integer), ("box", .object [("size", .scalar .integer)] ["size"] false),
    ("level", .union [.scalar .integer, .scalar .string]), ("total", .scalar .number)] [] false

/-- Nothing of what is gathered fits where it is reported. -/
def workflow : AuthoredWorkflow where
  steps := [
    { capability := some "gather", label := some "g" },
    { capability := some "report", label := some "r"
      bindings := [("count", .str (spanText "g.summary:any")),
        ("box", .str (spanText "g.item:object")), ("level", .str (spanText "g.rate:integer")),
        ("total", .str (spanText "g.code:integer"))] }]

def scope : Scope where
  ontology := {
    version := ⟨1, 0, 0, "", ""⟩
    capabilities := [Checker.Sample.capability "gather" .anyObject gathered,
      Checker.Sample.capability "report" reported .anyObject]
    edges := [] }
  workflow := workflow.graph "w"
  inputNamespace := "input"
  inputs := .any

def reference (field : String) (ascribed : Schema) : Reference where
  producer := "g"
  path := [.field field]
  ascribed := some ascribed
  raw := spanText ("g." ++ field ++ ":" ++ ascribed.text)

/-- The second step of the workflow. -/
def report : Step where
  index := 1
  capability := "report"
  label := "r"
  bindings := [("count", .reference (reference "summary" .any)),
    ("box", .reference (reference "item" .anyObject)),
    ("level", .reference (reference "rate" (.scalar .integer))),
    ("total", .reference (reference "code" (.scalar .integer)))]
  condition := none
  group := none
  gates := []
  failures := []

example : scope.workflow.step? "r" = some report := by decide +kernel

theorem stepFindings_report : scope.stepFindings report = [] := by decide +kernel

end Sample

open Sample in
/-- A number that may be gathered meets an integer that may be reported. -/
theorem exists_arm_meets_sample :
    scope.stepFindings report = [] ∧ ∃ arm ∈ [Schema.scalar .number, .scalar .null],
      arm.Meets false (.union [.scalar .integer, .scalar .string]) := by
  have h := exists_arm_meets scope report (Checker.Sample.capability "report" reported .anyObject)
    "level" (reference "rate" (.scalar .integer)) (.union [.scalar .integer, .scalar .string])
    [.scalar .number, .scalar .null] (by decide +kernel) (by decide +kernel) (by decide +kernel)
    (by decide +kernel) (by simp [stepFindings_report])
  obtain ⟨ascribed, hascribed, -, arm, harm, -, hmeets, -⟩ := h
  cases hascribed
  exact ⟨stepFindings_report, arm, harm, hmeets false (.scalar .integer)⟩

/-- A declared input is bound to one of several types, none of which is compatible with it, and
nothing is found there. -/
def Hides (s : Scope) (consumer : Step) (field : String) : Prop :=
  ∃ cap r expected arms, s.ontology.get? consumer.capability = some cap ∧
    (field, .reference r) ∈ consumer.bindings ∧ cap.inputField? field = some expected ∧
    s.reached consumer r = .ok (.union arms) ∧
    (∀ f ∈ s.stepFindings consumer, f.location.field ≠ some field) ∧
    ∀ arm ∈ arms, ¬arm.Compatible expected

open Sample in
/-- An ascribed type hides that no type is compatible: `any`, an object of which nothing is declared,
and a type that is narrower than what is reached and fits one arm of what is declared, or the other
way round. -/
theorem hides_sample : scope.Hides report "count" ∧ scope.Hides report "box" ∧
    scope.Hides report "level" ∧ scope.Hides report "total" := by
  have hnone : ∀ field, ∀ f ∈ scope.stepFindings report, f.location.field ≠ some field := by
    simp [stepFindings_report]
  have hcap : scope.ontology.get? report.capability =
      some (Checker.Sample.capability "report" reported .anyObject) := by
    decide +kernel
  refine ⟨?_, ?_, ?_, ?_⟩
  · exact ⟨_, reference "summary" .any, .scalar .integer, [.scalar .string, .scalar .null], hcap,
      by decide +kernel, by decide +kernel, by decide +kernel, hnone _, by decide +kernel⟩
  · exact ⟨_, reference "item" .anyObject, .object [("size", .scalar .integer)] ["size"] false,
      [.object [("name", .scalar .string)] ["name"] false, .scalar .null], hcap,
      by decide +kernel, by decide +kernel, by decide +kernel, hnone _, by decide +kernel⟩
  · exact ⟨_, reference "rate" (.scalar .integer), .union [.scalar .integer, .scalar .string],
      [.scalar .number, .scalar .null], hcap,
      by decide +kernel, by decide +kernel, by decide +kernel, hnone _, by decide +kernel⟩
  · exact ⟨_, reference "code" (.scalar .integer), .scalar .number,
      [.union [.scalar .integer, .scalar .string], .scalar .null], hcap,
      by decide +kernel, by decide +kernel, by decide +kernel, hnone _, by decide +kernel⟩

end CapabilityFlow.Scope
