import CapabilityFlow.Proofs.Check.Contracts

/-!
# Where types do not fit

A type mismatch is found at a field of a step exactly when the field is bound to something of a type
that the input does not accept (`Scope.Fits`), and the step has no error of the edges.
-/

namespace CapabilityFlow

/-- The type mismatches that a report has at the step of a label. -/
def WorkflowReport.mismatchesAt (r : WorkflowReport) (label : String) : List Finding :=
  r.findings.filter fun f => f.code = .typeMismatch && f.location.step = some label

namespace Scope

variable {s : Scope} {consumer : Step} {cap : Capability}

/-- Where a binding has a type, the input that it is for accepts the type. -/
def Fits (s : Scope) (consumer : Step) (cap : Capability) (b : String × Binding) : Prop :=
  ∀ found expected, s.bindingType consumer b.2 = .ok found → cap.inputField? b.1 = some expected →
    expected.accepts found = true

theorem not_fits_iff {b : String × Binding} : ¬s.Fits consumer cap b ↔ ∃ found expected,
    s.bindingType consumer b.2 = .ok found ∧ cap.inputField? b.1 = some expected ∧
      expected.accepts found = false := by
  simp [Fits]

theorem code_ofFault_ne (l : Location) (fault : Reference × ReferenceFault) :
    (Finding.ofFault l fault).code ≠ .typeMismatch := by
  obtain ⟨r, f⟩ := fault
  cases f <;> exact nofun

theorem code_ne_of_mem_undeclaredFindings {field : String} {l : Location} {f : Finding}
    (hf : f ∈ undeclaredFindings cap field l) : f.code ≠ .typeMismatch := by
  unfold undeclaredFindings at hf
  split at hf
  · cases hf
  · obtain rfl := List.mem_singleton.1 hf
    exact nofun

theorem code_ne_of_mem_expressionFindings {l : Location} {e : Expression} {f : Finding}
    (hf : f ∈ s.expressionFindings consumer l e) : f.code ≠ .typeMismatch := by
  obtain ⟨fault, -, rfl⟩ := List.mem_map.1 hf
  exact code_ofFault_ne _ _

theorem mem_bindingFindings_mismatch_iff {l : Location} {b : String × Binding} {f : Finding} :
    f ∈ s.bindingFindings consumer cap l b ∧ f.code = .typeMismatch ↔ ∃ found expected,
      s.bindingType consumer b.2 = .ok found ∧ cap.inputField? b.1 = some expected ∧
        expected.accepts found = false ∧ f = mismatch cap b.1 found expected (l.inField b.1) := by
  unfold bindingFindings
  constructor
  · rintro ⟨hf, hcode⟩
    rcases List.mem_append.1 hf with hf | hf
    · exact absurd hcode (code_ne_of_mem_undeclaredFindings hf)
    · split at hf
      · obtain ⟨fault, -, rfl⟩ := List.mem_map.1 hf
        exact absurd hcode (code_ofFault_ne _ _)
      · rename_i found expected hfound hexpected
        split at hf
        · cases hf
        · rename_i haccepts
          exact ⟨found, expected, hfound, hexpected, by simpa using haccepts, List.mem_singleton.1 hf⟩
      · cases hf
  · rintro ⟨found, expected, hfound, hexpected, haccepts, rfl⟩
    refine ⟨List.mem_append_right _ ?_, rfl⟩
    rw [hfound, hexpected]
    simp [haccepts]

theorem mem_stepFindings_of_mem_bindingFindings
    (hcap : s.ontology.get? consumer.capability = some cap) {b : String × Binding}
    (hb : b ∈ consumer.bindings) {f : Finding}
    (hf : f ∈ s.bindingFindings consumer cap
      (Location.atStep s.workflow.name consumer.index consumer.label) b) :
    f ∈ s.stepFindings consumer := by
  unfold stepFindings
  rw [hcap]
  simp only [List.mem_append]
  exact .inl (.inl (.inl (List.mem_flatMap.2 ⟨b, hb, hf⟩)))

/-- The mismatches of a step are those of its bindings. -/
theorem mem_stepFindings_mismatch_iff (hcap : s.ontology.get? consumer.capability = some cap)
    {f : Finding} : f ∈ s.stepFindings consumer ∧ f.code = .typeMismatch ↔
      ∃ b ∈ consumer.bindings, ∃ found expected, s.bindingType consumer b.2 = .ok found ∧
        cap.inputField? b.1 = some expected ∧ expected.accepts found = false ∧
          f = mismatch cap b.1 found expected
            ((Location.atStep s.workflow.name consumer.index consumer.label).inField b.1) := by
  constructor
  · rintro ⟨hf, hcode⟩
    unfold stepFindings at hf
    rw [hcap] at hf
    simp only [List.mem_append] at hf
    rcases hf with ((hf | hf) | hf) | hf
    · obtain ⟨b, hb, hf⟩ := List.mem_flatMap.1 hf
      exact ⟨b, hb, mem_bindingFindings_mismatch_iff.1 ⟨hf, hcode⟩⟩
    · obtain ⟨field, -, rfl⟩ := List.mem_map.1 hf
      cases hcode
    · split at hf
      · exact absurd hcode (code_ne_of_mem_expressionFindings hf)
      · cases hf
    · obtain ⟨g, -, hf⟩ := List.mem_flatMap.1 hf
      exact absurd hcode (code_ne_of_mem_expressionFindings hf)
  · rintro ⟨b, hb, h⟩
    obtain ⟨hf, hcode⟩ := mem_bindingFindings_mismatch_iff.2 h
    exact ⟨mem_stepFindings_of_mem_bindingFindings hcap hb hf, hcode⟩

end Scope

namespace Checker

variable {c : Checker} {w : Workflow} {e : CatalogEntry}

theorem mem_levelFindings_mismatch_iff (he : e.Loaded)
    (h : isHalting (c.structureFindings e) = false) (hw : e.graph = some w) {f : Finding} :
    f ∈ c.levelFindings w e .contracts ∧ f.code = .typeMismatch ↔
      ∃ s ∈ w.steps, (c.check e).hasErrorAt .edges s.index = false ∧
        f ∈ (c.scope w (c.inputsType w)).stepFindings s ∧ f.code = .typeMismatch := by
  have hsteps : ∀ s, s ∈ c.contractSteps w ↔
      s ∈ w.steps ∧ (c.check e).hasErrorAt .edges s.index = false := by
    intro s
    rw [contractSteps_eq he h hw, List.mem_filter, Bool.not_eq_true']
  constructor
  · rintro ⟨hf, hcode⟩
    rcases List.mem_append.1 hf with hf | hf
    · cases hinputs : c.inputsType w with
      | ok t =>
        rw [hinputs] at hf
        cases hf
      | error cause =>
        rw [hinputs] at hf
        obtain rfl := List.mem_singleton.1 hf
        cases hcode
    · obtain ⟨s, hs, hf⟩ := List.mem_flatMap.1 hf
      obtain ⟨hs, hedges⟩ := (hsteps s).1 hs
      exact ⟨s, hs, hedges, hf, hcode⟩
  · rintro ⟨s, hs, hedges, hf, hcode⟩
    have hmem := List.mem_flatMap.2 ⟨s, (hsteps s).2 ⟨hs, hedges⟩, hf⟩
    exact ⟨List.mem_append_right _ hmem, hcode⟩

/-- A mismatch that is found is that of a binding of some step. -/
theorem exists_eq_mismatch (he : e.Loaded) (h : isHalting (c.structureFindings e) = false)
    (hw : e.graph = some w) {f : Finding} (hf : f ∈ c.structureFindings e ++ c.graphFindings w)
    (hcode : f.code = .typeMismatch) :
    ∃ s ∈ w.steps, ∃ cap, c.ontology.get? s.capability = some cap ∧
      ∃ b ∈ s.bindings, ∃ found expected,
        (c.scope w (c.inputsType w)).bindingType s b.2 = .ok found ∧
          cap.inputField? b.1 = some expected ∧ expected.accepts found = false ∧
          f = Scope.mismatch cap b.1 found expected
            ((Location.atStep w.name s.index s.label).inField b.1) := by
  have hlevel : f ∈ c.levelFindings w e .contracts := by
    rw [← filter_level_findings he]
    exact List.mem_filter.2 ⟨hf, by simp [Finding.level, hcode, Code.level]⟩
  obtain ⟨s, hs, -, hg⟩ := (mem_levelFindings_mismatch_iff he h hw).1 ⟨hlevel, hcode⟩
  obtain ⟨cap, hcap⟩ := (wellFormed_scope he h hw (c.inputsType w)).known s hs
  exact ⟨s, hs, cap, hcap, (Scope.mem_stepFindings_mismatch_iff hcap).1 hg⟩

/-- The mismatches of a report, before anything is suggested for them. -/
theorem mem_findings_check_mismatch_iff (he : e.Loaded)
    (h : isHalting (c.structureFindings e) = false) (hw : e.graph = some w) {f : Finding} :
    f ∈ (c.check e).findings ∧ f.code = .typeMismatch ↔
      ∃ s ∈ w.steps, (c.check e).hasErrorAt .edges s.index = false ∧
        ∃ g, (g ∈ (c.scope w (c.inputsType w)).stepFindings s ∧ g.code = .typeMismatch) ∧
          f = g.suggesting (c.patchOf w e g) := by
  constructor
  · rintro ⟨hf, hcode⟩
    have hlevel : f.level = .contracts := by
      rw [Finding.level, hcode]
      rfl
    obtain ⟨g, hg, rfl⟩ := exists_of_mem_findings_check he h hw hf
    rw [hlevel] at hg
    rw [Finding.code_suggesting] at hcode
    obtain ⟨s, hs, hedges, hg⟩ := (mem_levelFindings_mismatch_iff he h hw).1 ⟨hg, hcode⟩
    exact ⟨s, hs, hedges, g, hg, rfl⟩
  · rintro ⟨s, hs, hedges, g, hg, rfl⟩
    obtain ⟨hmem, hcode⟩ := (mem_levelFindings_mismatch_iff he h hw).2 ⟨s, hs, hedges, hg⟩
    have hreport := (perm_atLevel_check he h hw .contracts).mem_iff.2
      (List.mem_map.2 ⟨g, hmem, rfl⟩)
    refine ⟨(List.mem_filter.1 hreport).1, ?_⟩
    rw [Finding.code_suggesting, hcode]

/-- A report has a mismatch at a step where a binding does not fit, unless the edges are violated
there. -/
theorem exists_mismatchesAt_check_iff (he : e.Loaded)
    (h : isHalting (c.structureFindings e) = false) (hw : e.graph = some w) {label : String}
    {P : Option String → Prop} : (∃ f ∈ (c.check e).mismatchesAt label, P f.location.field) ↔
      ∃ s ∈ w.steps, s.label = label ∧ (c.check e).hasErrorAt .edges s.index = false ∧
        ∃ cap, c.ontology.get? s.capability = some cap ∧
          ∃ b ∈ s.bindings, P (some b.1) ∧ ¬(c.scope w (c.inputsType w)).Fits s cap b := by
  have hscope := wellFormed_scope he h hw (c.inputsType w)
  simp only [WorkflowReport.mismatchesAt, List.mem_filter, Bool.and_eq_true, decide_eq_true_eq]
  constructor
  · rintro ⟨f, ⟨hf, hcode, hlabel⟩, hP⟩
    obtain ⟨s, hs, hedges, g, hg, rfl⟩ := (mem_findings_check_mismatch_iff he h hw).1 ⟨hf, hcode⟩
    obtain ⟨cap, hcap⟩ := hscope.known s hs
    obtain ⟨b, hb, found, expected, hfound, hexpected, haccepts, rfl⟩ :=
      (Scope.mem_stepFindings_mismatch_iff hcap).1 hg
    rw [Finding.location_suggesting] at hlabel hP
    exact ⟨s, hs, Option.some.inj hlabel, hedges, cap, hcap, b, hb, hP,
      Scope.not_fits_iff.2 ⟨found, expected, hfound, hexpected, haccepts⟩⟩
  · rintro ⟨s, hs, hlabel, hedges, cap, hcap, b, hb, hP, hfits⟩
    obtain ⟨found, expected, hfound, hexpected, haccepts⟩ := Scope.not_fits_iff.1 hfits
    have hg := (Scope.mem_stepFindings_mismatch_iff hcap).2
      ⟨b, hb, found, expected, hfound, hexpected, haccepts, rfl⟩
    obtain ⟨hf, hcode⟩ := (mem_findings_check_mismatch_iff he h hw).2 ⟨s, hs, hedges, _, hg, rfl⟩
    refine ⟨_, ⟨hf, hcode, ?_⟩, ?_⟩
    · rw [Finding.location_suggesting, ← hlabel]
      rfl
    · rw [Finding.location_suggesting]
      exact hP

/-- A report has no mismatch at a step exactly when its bindings fit, or when the edges are violated
there. -/
theorem forall_mismatchesAt_check_iff (he : e.Loaded)
    (h : isHalting (c.structureFindings e) = false) (hw : e.graph = some w) {s : Step}
    (hs : s ∈ w.steps) {cap : Capability} (hcap : c.ontology.get? s.capability = some cap)
    {P : Option String → Prop} :
    (∀ f ∈ (c.check e).mismatchesAt s.label, ¬P f.location.field) ↔
      (c.check e).hasErrorAt .edges s.index = true ∨
        ∀ b ∈ s.bindings, P (some b.1) → (c.scope w (c.inputsType w)).Fits s cap b := by
  have hwf := (wellFormed_scope he h hw (c.inputsType w)).workflow
  have hiff : (∃ f ∈ (c.check e).mismatchesAt s.label, P f.location.field) ↔ _ :=
    exists_mismatchesAt_check_iff he h hw
  constructor
  · intro hnone
    by_contra hno
    obtain ⟨hedges, hfits⟩ := not_or.1 hno
    simp only [not_forall] at hfits
    obtain ⟨b, hb, hP, hbfits⟩ := hfits
    obtain ⟨f, hf, hfP⟩ :=
      hiff.2 ⟨s, hs, rfl, by simpa using hedges, cap, hcap, b, hb, hP, hbfits⟩
    exact hnone f hf hfP
  · intro hor f hf hfP
    obtain ⟨t, ht, hlabel, hedges, cap', hcap', b, hb, hP, hbfits⟩ := hiff.1 ⟨f, hf, hfP⟩
    obtain rfl := Option.some.inj ((hwf.step?_eq_some_iff.2 ⟨ht, hlabel⟩).symm.trans
      (hwf.step?_eq_some_iff.2 ⟨hs, rfl⟩))
    obtain rfl := Option.some.inj (hcap'.symm.trans hcap)
    rcases hor with herr | hfits
    · rw [hedges] at herr
      cases herr
    · exact hbfits (hfits b hb hP)

end Checker

end CapabilityFlow
