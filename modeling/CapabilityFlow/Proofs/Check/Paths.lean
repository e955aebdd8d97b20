import CapabilityFlow.Proofs.Check.Contracts
import CapabilityFlow.Proofs.Schema.Walking

/-!
# Paths that are blamed

A finding that a reference names no field is about a path that leads nowhere in the output that the
reference names (`Scope.Blames`). Walking is sound for values, so no value that conforms to the
output has anything at that path (`Checker.walk_of_reaches`).
-/

namespace CapabilityFlow

namespace Scope

variable {s : Scope} {consumer : Step} {r : Reference}

/-! ## Faults of paths -/

theorem mem_faults_iff {rs : List Reference} {fault : Reference × ReferenceFault} :
    fault ∈ s.faults consumer rs ↔
      fault.1 ∈ rs ∧ s.reached consumer fault.1 = .error fault.2 := by
  obtain ⟨r, cause⟩ := fault
  simp only [faults, List.mem_filterMap]
  constructor
  · rintro ⟨r', hr, h⟩
    split at h
    · cases h
    · rename_i hreached
      cases h
      exact ⟨hr, hreached⟩
  · rintro ⟨hr, h⟩
    exact ⟨r, hr, by rw [h]⟩

/-- Only a path that leads nowhere is reported as such: a producer that cannot be read is reported
in another way. -/
theorem reached_eq_noPath_iff {cause : PathError} :
    s.reached consumer r = .error (.noPath cause) ↔
      ∃ out, s.producerOutput consumer r = .ok out ∧ out.walk r.path = .error cause := by
  unfold reached
  cases hout : s.producerOutput consumer r with
  | error fault =>
    simp only [reduceCtorEq, false_and, exists_false, iff_false]
    rintro ⟨⟩
    unfold producerOutput at hout
    split at hout
    · cases hout
    · cases hp : s.producer consumer r with
      | error fault =>
        rw [hp] at hout
        cases hout
        rcases code_of_producer_eq_error hp with hcode | hcode <;> cases hcode
      | ok p =>
        rw [hp] at hout
        cases hcap : s.ontology.get? p.capability <;>
          simp [hcap, bind, Except.bind, pure, Except.pure] at hout
  | ok out =>
    have hbind : (Except.ok out >>= fun t : Schema =>
        (t.walk r.path).mapError ReferenceFault.noPath) =
          (out.walk r.path).mapError ReferenceFault.noPath := rfl
    rw [hbind, Except.mapError_eq_error_iff]
    simp

theorem reached_of_valueType_eq_noPath {cause : PathError}
    (h : s.valueType consumer r = .error (.noPath cause)) :
    s.reached consumer r = .error (.noPath cause) := by
  unfold valueType at h
  cases hr : s.reached consumer r with
  | error fault =>
    rw [hr] at h
    cases h
    rfl
  | ok t =>
    rw [hr] at h
    dsimp only [bind, Except.bind] at h
    split at h
    · split at h <;> cases h
    · split at h
      · cases h
      · split at h <;> cases h

/-- A path that is at fault in a binding is that of a reference inside it. -/
theorem of_mem_bindingType_error {b : Binding} {faults : List (Reference × ReferenceFault)}
    (h : s.bindingType consumer b = .error faults) {cause : PathError}
    (hmem : (r, .noPath cause) ∈ faults) :
    r ∈ b.references ∧ s.reached consumer r = .error (.noPath cause) := by
  cases b
  case literal => cases h
  case reference r' =>
    obtain ⟨fault, hfault, rfl⟩ := Except.mapError_eq_error_iff.1 h
    cases List.mem_singleton.1 hmem
    exact ⟨List.mem_singleton_self r, reached_of_valueType_eq_noPath hfault⟩
  -- A template or a composite is at fault where some reference inside it is.
  all_goals
    dsimp only [bindingType] at h
    split at h
    · cases h
    · cases h
      exact mem_faults_iff.1 hmem

/-! ## What findings blame -/

theorem eq_noPath_of_code_ofFault {l : Location} {fault : Reference × ReferenceFault}
    (h : (Finding.ofFault l fault).code = .unknownReferenceField) :
    ∃ cause, fault.2 = .noPath cause := by
  obtain ⟨r, _ | _ | _ | _ | cause | _ | _⟩ := fault
  case noPath => exact ⟨cause, rfl⟩
  all_goals cases h

/-- A finding says that the path of a reference of a step leads nowhere. -/
def TellsNoPath (s : Scope) (consumer : Step) (f : Finding) (r : Reference) : Prop :=
  ∃ cause, s.reached consumer r = .error (.noPath cause) ∧
    f.message = ReferenceFault.message r (.noPath cause)

theorem exists_tellsNoPath_of_mem_bindingFindings {cap : Capability} {l : Location}
    {b : String × Binding} {f : Finding} (hf : f ∈ s.bindingFindings consumer cap l b)
    (hcode : f.code = .unknownReferenceField) :
    ∃ r ∈ b.2.references, s.TellsNoPath consumer f r := by
  rcases List.mem_append.1 hf with h | h
  · unfold undeclaredFindings at h
    split at h
    · cases h
    · obtain rfl := List.mem_singleton.1 h
      cases hcode
  · split at h
    · rename_i hb
      obtain ⟨fault, hfault, rfl⟩ := List.mem_map.1 h
      obtain ⟨cause, hcause⟩ := eq_noPath_of_code_ofFault hcode
      obtain ⟨r, _⟩ := fault
      obtain rfl := hcause
      obtain ⟨hr, hreached⟩ := of_mem_bindingType_error hb hfault
      exact ⟨r, hr, cause, hreached, rfl⟩
    · split at h
      · cases h
      · obtain rfl := List.mem_singleton.1 h
        cases hcode
    · cases h

theorem exists_tellsNoPath_of_mem_expressionFindings {l : Location} {e : Expression} {f : Finding}
    (hf : f ∈ s.expressionFindings consumer l e) (hcode : f.code = .unknownReferenceField) :
    ∃ r ∈ e.references, s.TellsNoPath consumer f r := by
  obtain ⟨fault, hfault, rfl⟩ := List.mem_map.1 hf
  obtain ⟨cause, hcause⟩ := eq_noPath_of_code_ofFault hcode
  obtain ⟨r, _⟩ := fault
  obtain rfl := hcause
  obtain ⟨hr, hreached⟩ := mem_faults_iff.1 hfault
  exact ⟨r, hr, cause, hreached, rfl⟩

theorem exists_tellsNoPath_of_mem_stepFindings {f : Finding} (hf : f ∈ s.stepFindings consumer)
    (hcode : f.code = .unknownReferenceField) :
    ∃ r ∈ consumer.references, s.TellsNoPath consumer f r := by
  unfold stepFindings at hf
  split at hf
  · cases hf
  simp only [List.mem_append] at hf
  simp only [Step.references, List.mem_append, List.mem_flatMap]
  rcases hf with ((h | h) | h) | h
  · obtain ⟨b, hb, h⟩ := List.mem_flatMap.1 h
    obtain ⟨r, hr, htells⟩ := exists_tellsNoPath_of_mem_bindingFindings h hcode
    exact ⟨r, .inl ⟨b, hb, hr⟩, htells⟩
  · obtain ⟨field, -, rfl⟩ := List.mem_map.1 h
    cases hcode
  · split at h
    · rename_i e he
      obtain ⟨r, hr, htells⟩ := exists_tellsNoPath_of_mem_expressionFindings h hcode
      exact ⟨r, .inr (.inl ⟨e, by simp [he], hr⟩), htells⟩
    · cases h
  · obtain ⟨⟨g, i⟩, hg, h⟩ := List.mem_flatMap.1 h
    obtain ⟨r, hr, htells⟩ := exists_tellsNoPath_of_mem_expressionFindings h hcode
    have hmem : g ∈ consumer.gates := List.mem_of_getElem? (List.mem_zipIdx_iff_getElem?.1 hg)
    exact ⟨r, .inr (.inr ⟨g, hmem, hr⟩), htells⟩

/-- A finding at a step blames a reference of the step: its path leads nowhere in the output that
the reference names. -/
structure Blames (s : Scope) (f : Finding) (consumer : Step) (r : Reference) (out : Schema) :
    Prop where
  step : consumer ∈ s.workflow.steps
  place : f.location.index = some consumer.index
  reference : r ∈ consumer.references
  names : s.Names consumer r.producer out
  noPath : ∃ cause, out.walk r.path = .error cause ∧
    f.message = ReferenceFault.message r (.noPath cause)

theorem WellFormed.exists_blames (hs : s.WellFormed) (hstep : consumer ∈ s.workflow.steps)
    {f : Finding} (hf : f ∈ s.stepFindings consumer) (hcode : f.code = .unknownReferenceField) :
    ∃ r out, s.Blames f consumer r out := by
  obtain ⟨r, hr, cause, hreached, hmessage⟩ := exists_tellsNoPath_of_mem_stepFindings hf hcode
  obtain ⟨out, hout, hwalk⟩ := reached_eq_noPath_iff.1 hreached
  exact ⟨r, out, hstep, (s.of_mem_stepFindings consumer hf).2, hr,
    hs.producerOutput_eq_ok_iff.1 hout, cause, hwalk, hmessage⟩

end Scope

namespace Checker

variable {c : Checker} {e : CatalogEntry} {f : Finding}

/-- Every finding that a reference names no field blames a path. -/
theorem exists_blames_of_mem_findings (he : e.Loaded) (hf : f ∈ (c.check e).findings)
    (hcode : f.code = .unknownReferenceField) : ∃ w consumer r out, e.graph = some w ∧
      (c.scope w (c.inputsType w)).Blames f consumer r out := by
  have hlevel : f.level = .contracts := by rw [Finding.level, hcode]; rfl
  obtain hstructural | ⟨h, w, hg, g, hmem, rfl⟩ := level_eq_structural_or_exists he hf
  · cases hstructural.symm.trans hlevel
  · rw [Finding.code_suggesting] at hcode
    rw [hlevel] at hmem
    rw [c.patchOf_eq_none_of_code_ne _ (by rw [hcode]; decide)]
    rcases List.mem_append.1 hmem with hmem | hmem
    · cases hi : c.inputsType w with
      | ok t =>
        rw [hi] at hmem
        cases hmem
      | error cause =>
        rw [hi] at hmem
        obtain rfl := List.mem_singleton.1 hmem
        cases hcode
    · obtain ⟨consumer, hconsumer, hmem⟩ := List.mem_flatMap.1 hmem
      obtain ⟨r, out, hblames⟩ := (wellFormed_scope he h hg _).exists_blames
        (mem_stepsExcept_iff.1 hconsumer).1 hmem hcode
      exact ⟨_, consumer, r, out, hg, hblames⟩

/-- Walking is sound for values: a path that leads to a part of a value of a schema leads into the
schema, to one that describes the part. So no finding blames a path that some value of the output
has. -/
theorem walk_of_reaches (n : Schema) (hn : n.DeclaresOnce) (v : Value) (hv : v.Satisfies n)
    (p : Path) (w : Value) (hw : v.Reaches p w) :
    (∃ m, n.walk p = .ok m ∧ w.Satisfies m) ∧
      ∀ (c : Checker) (e : CatalogEntry), e.Loaded → ∀ f ∈ (c.check e).findings,
        f.code = .unknownReferenceField → ∃ g consumer r out, e.graph = some g ∧
          (c.scope g (c.inputsType g)).Blames f consumer r out ∧ ¬(out = n ∧ r.path = p) := by
  obtain ⟨m, hwalk, hsat⟩ := Schema.exists_walk_of_reaches hn hv hw
  refine ⟨⟨m, hwalk, hsat⟩, fun c e he f hf hcode => ?_⟩
  obtain ⟨g, consumer, r, out, hg, hblames⟩ := exists_blames_of_mem_findings he hf hcode
  refine ⟨g, consumer, r, out, hg, hblames, ?_⟩
  rintro ⟨rfl, rfl⟩
  obtain ⟨cause, hcause, -⟩ := hblames.noPath
  cases hwalk.symm.trans hcause

namespace Sample

/-- A page of items, each with a size and perhaps a name, written in two ways, or nothing. -/
def pages : Schema :=
  .union [
    .object [("items", .array (.object [("size", .scalar .integer), ("name", .scalar .string)]
      ["size"] false))] ["items"] false,
    .object [("items", .array (.object [("name", .scalar .string), ("size", .scalar .integer)]
      ["size"] false))] [] true,
    .scalar .null]

def items : List Value :=
  [.obj [("size", .int 1)], .obj [("name", .str "new"), ("size", .int 2)]]

def page : Value :=
  .obj [("items", .arr items)]

/-- `list` yields pages, and `show` takes a text. -/
def pagesChecker : Checker where
  ontology := {
    version := ⟨1, 0, 0, "", ""⟩
    capabilities := [
      capability "list" .anyObject pages,
      capability "show" (.object [("text", .scalar .string)] ["text"] false) .anyObject]
    edges := [] }

/-- Shows a color of the items that are listed. -/
def pagesWorkflow : AuthoredWorkflow where
  steps := [
    { capability := some "list", label := some "l" },
    { capability := some "show", label := some "v"
      bindings := [("text", .str (spanText "l.items[].color"))] }]

theorem declaresOnce_pages : pages.DeclaresOnce := by
  simp [pages, Schema.DeclaresOnce, Table.names]

theorem satisfies_page : page.Satisfies pages := by
  have hitems : ∀ u ∈ items, u.Satisfies
      (.object [("size", .scalar .integer), ("name", .scalar .string)] ["size"] false) := by
    intro u hu
    rcases List.mem_pair.1 hu with rfl | rfl
    all_goals
      refine .object (by decide) (fun name s v hs hv => ?_) fun _ => by decide
      rcases List.mem_pair.1 (Table.mem_of_get? hs) with hmem | hmem
      all_goals
        cases hmem
        exact .scalar (by cases hv <;> rfl)
  refine .union List.mem_cons_self ?_
  refine .object (by decide) (fun name s v hs hv => ?_) fun _ => by decide
  cases List.mem_singleton.1 (Table.mem_of_get? hs)
  cases hv
  exact .array hitems

theorem reaches_page : page.Reaches [.field "items", .element, .field "size"] (.int 2) :=
  .field rfl (.element (List.mem_cons_of_mem _ List.mem_cons_self) (.field rfl (.here _)))

end Sample

open Sample in
theorem walk_of_reaches_sample : pages.DeclaresOnce ∧ page.Satisfies pages ∧
    page.Reaches [.field "items", .element, .field "size"] (.int 2) ∧
    (∃ m, pages.walk [.field "items", .element, .field "size"] = .ok m ∧
      (Value.int 2).Satisfies m) ∧
    ∃ f ∈ (pagesChecker.check (.ofAuthored 10 "w" pagesWorkflow)).findings,
      f.code = .unknownReferenceField ∧ ∃ g consumer r out,
        (CatalogEntry.ofAuthored 10 "w" pagesWorkflow).graph = some g ∧
          (pagesChecker.scope g (pagesChecker.inputsType g)).Blames f consumer r out ∧
          ¬(out = pages ∧ r.path = [.field "items", .element, .field "size"]) := by
  have h := walk_of_reaches pages declaresOnce_pages page satisfies_page _ _ reaches_page
  have hfound : ∃ f ∈ (pagesChecker.check (.ofAuthored 10 "w" pagesWorkflow)).findings,
      f.code = .unknownReferenceField := by
    decide +kernel
  obtain ⟨f, hf, hcode⟩ := hfound
  exact ⟨declaresOnce_pages, satisfies_page, reaches_page, h.1, f, hf, hcode,
    h.2 pagesChecker _ (.authored 10 "w" pagesWorkflow) f hf hcode⟩

end Checker

end CapabilityFlow
