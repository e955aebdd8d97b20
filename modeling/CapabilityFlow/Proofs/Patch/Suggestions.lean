import CapabilityFlow.Proofs.Patch.RoundTrip
import CapabilityFlow.Proofs.Report

/-!
# What a registry adds to a report

A registry gives patches to the mismatches that it can repair (`Finding.Repairable`), and suggests
them. It changes nothing else: findings are sorted by what a suggestion is no part of, and making
a patch for a finding of a check never fails, so that the reports with and without a registry differ
in the patches and in what is suggested for them (`WorkflowReport.Extends`).
-/

namespace CapabilityFlow

/-! ## Suggestions and the order of findings -/

namespace Finding

theorem order_suggesting (f g : Finding) (p q : Option Patch) :
    (f.suggesting p).order (g.suggesting q) = f.order g := by
  cases p <;> cases q <;> rfl

/-- Findings are in the same order before and after patches are suggested for them. -/
theorem sort_map_suggesting (patch? : Finding → Option Patch) (fs : List Finding) :
    sort (fs.map fun f => f.suggesting (patch? f)) =
      (sort fs).map fun f => f.suggesting (patch? f) :=
  (List.map_mergeSort fun f _ g _ => by rw [order_suggesting]).symm

end Finding

/-! ## What can be repaired -/

/-- What is bound at a location is one reference and nothing else. -/
def Workflow.BindsReferenceAt (w : Workflow) (l : Location) : Prop :=
  ∃ s ∈ w.steps, ∃ field reference, l.index = some s.index ∧ l.field = some field ∧
    s.bindings.get? field = some (.reference reference)

/-- A mismatch that a registry can repair: it has a rule for the types, and what is bound there can
be replaced by another reference. -/
structure Finding.Repairable (f : Finding) (r : CoercionRegistry) (e : CatalogEntry) : Prop where
  code : f.code = .typeMismatch
  rule : ∃ types, f.types = some types ∧ r.Converts types
  reference : ∃ w, e.graph = some w ∧ w.BindsReferenceAt f.location

/-- A patch is for a finding: it is about the same field of the same step, and the same types. -/
structure Patch.IsFor (p : Patch) (f : Finding) : Prop where
  step : f.location.step = some p.step
  field : f.location.field = some p.field
  types : f.types = some ⟨p.found, p.expected⟩

theorem Workflow.WellFormed.bindsReference_iff {w : Workflow} (hw : w.WellFormed) {s : Step}
    (hs : s ∈ w.steps) {field : String} : w.bindsReference s.label field = true ↔
      ∃ reference, s.bindings.get? field = some (.reference reference) := by
  unfold bindsReference
  rw [hw.step?_eq_some_iff.2 ⟨hs, rfl⟩, Option.bind_some]
  constructor
  · intro h
    split at h
    · rename_i reference hreference
      exact ⟨reference, hreference⟩
    · cases h
  · rintro ⟨reference, hreference⟩
    rw [hreference]

/-- The edits of a patch can be made: the step and the binding that they name are there, and the new
step takes no label away. -/
theorem Coercion.exists_patch_eq_ok (c : Coercion) {a : AuthoredWorkflow} {cap : Nat}
    {name label field : String} {types : TypePair} (hload : a.findings cap name = [])
    (hbinds : (a.graph name).bindsReference label field = true) :
    ∃ p, c.patch a name label field types = .ok p := by
  obtain ⟨s, reference, hstep, hget⟩ := Checker.of_bindsReference hbinds
  obtain ⟨hs, hslabel⟩ := (AuthoredWorkflow.wellFormed_graph hload).step?_eq_some_iff.1 hstep
  obtain ⟨i, t, ht, rfl⟩ := AuthoredWorkflow.mem_steps_graph_iff.1 hs
  have htmem : t ∈ a.steps := List.mem_of_getElem? ht
  have hlabel : t.label = some label := by
    obtain ⟨label', hlabel'⟩ := (AuthoredWorkflow.readable_of_findings_eq_nil hload htmem).label
    simpa [AuthoredStep.toStep, hlabel'] using hslabel
  have hnames : field ∈ t.bindings.names :=
    AuthoredStep.names_bindings_toStep_sublist.subset (Table.mem_names_of_get? hget)
  obtain ⟨old, hold⟩ := Table.exists_get?_of_mem_names hnames
  have hplace := AuthoredWorkflow.stepPlace_eq_ok hload ht hlabel
  have hbound : a.boundValue label field = .ok old :=
    AuthoredWorkflow.boundValue_eq_ok_iff.2 ⟨i, t, hplace, ht, hold⟩
  set inserted := freshLabel a.labels s!"{label}_{field}_coerced" with hinserted
  have hfresh : (c.step inserted types old).label ≠ some label := by
    intro heq
    refine a.freshLabel_notMem_map s!"{label}_{field}_coerced" ?_
    rw [← hinserted]
    exact List.mem_map.2 ⟨t, htmem, hlabel.trans heq.symm⟩
  have happly : PatchEdit.applyAll [.insert label (c.step inserted types old),
      .rebind label field old (c.outputReference inserted types.expected)] a =
        (a.mended i (c.step inserted types old) field
          (c.outputReference inserted types.expected), none) :=
    AuthoredWorkflow.applyAll_eq_mended hplace hfresh hbound
  simp only [patch, hbound, bind, Except.bind, Patch.apply, ← hinserted, happly]
  exact ⟨_, rfl⟩

namespace Checker

variable {c : Checker} {w : Workflow} {e : CatalogEntry} {r : CoercionRegistry}

theorem isFor_of_patchOf_eq_some {f : Finding} {p : Patch} (h : c.patchOf w e f = some p) :
    p.IsFor f := by
  obtain ⟨r, a, -, -, hpatch⟩ := of_patchOf_eq_some h
  obtain ⟨types, label, field, k, htypes, hlabel, hfield, -, -, hmake⟩ := of_patchFor_eq_ok hpatch
  obtain ⟨-, -, hstep', hfield', htypes', -⟩ := of_patch_eq_ok hmake
  exact ⟨by rw [hlabel, hstep'], by rw [hfield, hfield'], by rw [htypes, htypes']⟩

theorem patchOf_eq_some_iff {f : Finding} {p : Patch} : c.patchOf w e f = some p ↔
    ∃ r a, c.registry = some r ∧ e.authored = some a ∧ r.patchFor a w f = .ok (some p) := by
  refine ⟨of_patchOf_eq_some, ?_⟩
  rintro ⟨r, a, hr, ha, hpatch⟩
  unfold patchOf
  rw [hr, ha]
  simp only [repaired, hpatch]

/-- A finding has a patch exactly when it can be repaired: no error is in the way. -/
theorem exists_patchOf_iff (hr : r.WellKeyed) (hregistry : c.registry = some r) (he : e.Loaded)
    (h : isHalting (c.structureFindings e) = false) (hw : e.graph = some w) {f : Finding}
    (hf : f ∈ c.structureFindings e ++ c.graphFindings w) :
    (∃ p, c.patchOf w e f = some p) ↔ f.Repairable r e := by
  obtain ⟨cap, a, ha, hload, rfl⟩ := exists_authored he h hw
  have hwf := AuthoredWorkflow.wellFormed_graph hload
  by_cases hcode : f.code = .typeMismatch
  · obtain ⟨s, hs, performer, -, b, hb, found, expected, -, -, -, rfl⟩ :=
      exists_eq_mismatch he h hw hf hcode
    constructor
    · rintro ⟨p, hp⟩
      obtain ⟨r', a', hr', -, hpatch⟩ := of_patchOf_eq_some hp
      obtain rfl : r = r' := Option.some.inj (hregistry.symm.trans hr')
      obtain ⟨types, label, field, k, htypes, hlabel, hfield, hlookup, hbinds, -⟩ :=
        of_patchFor_eq_ok hpatch
      obtain rfl : ⟨found.text, expected.text⟩ = types := Option.some.inj htypes
      obtain rfl : s.label = label := Option.some.inj hlabel
      obtain rfl : b.1 = field := Option.some.inj hfield
      obtain ⟨reference, hreference⟩ := (hwf.bindsReference_iff hs).1 hbinds
      exact ⟨hcode, ⟨_, rfl, hr.converts_iff.2 ⟨k, hlookup⟩⟩,
        _, hw, s, hs, b.1, reference, rfl, rfl, hreference⟩
    · rintro ⟨-, ⟨types, htypes, hrule⟩, w, hw', t, ht, field, reference, hindex, hfield, hget⟩
      obtain rfl : ⟨found.text, expected.text⟩ = types := Option.some.inj htypes
      obtain rfl : a.graph e.name = w := Option.some.inj (hw.symm.trans hw')
      obtain rfl : s = t := hwf.eq_of_index_eq hs ht (Option.some.inj hindex)
      obtain rfl : b.1 = field := Option.some.inj hfield
      obtain ⟨k, hlookup⟩ := hr.converts_iff.1 hrule
      have hbinds := (hwf.bindsReference_iff hs).2 ⟨reference, hget⟩
      obtain ⟨p, hp⟩ : ∃ p, k.patch a e.name s.label b.1 ⟨found.text, expected.text⟩ = .ok p :=
        k.exists_patch_eq_ok hload hbinds
      refine ⟨p, patchOf_eq_some_iff.2 ⟨r, a, hregistry, ha, ?_⟩⟩
      unfold CoercionRegistry.patchFor
      rw [if_neg (not_not.2 hcode)]
      simp only [Scope.mismatch, Finding.of, Location.inField, Location.atStep, hlookup, hbinds,
        if_true]
      exact Except.map_eq_ok_iff.2 ⟨p, hp, rfl⟩
  · rw [patchOf_eq_none_of_code_ne c _ hcode]
    refine ⟨?_, fun hrepairable => absurd hrepairable.code hcode⟩
    rintro ⟨p, hp⟩
    cases hp

/-- A patch is for one finding only. -/
theorem eq_of_isFor (he : e.Loaded) (h : isHalting (c.structureFindings e) = false)
    (hw : e.graph = some w) {f g : Finding} (hf : f ∈ c.structureFindings e ++ c.graphFindings w)
    (hg : g ∈ c.structureFindings e ++ c.graphFindings w) (hfcode : f.code = .typeMismatch)
    (hgcode : g.code = .typeMismatch) {p : Patch} (hpf : p.IsFor f) (hpg : p.IsFor g) : f = g := by
  have hwf := (wellFormed_scope he h hw (c.inputsType w)).workflow
  obtain ⟨s, hs, performer, hperformer, b, -, found, expected, -, -, -, rfl⟩ :=
    exists_eq_mismatch he h hw hf hfcode
  obtain ⟨t, ht, performer', hperformer', b', -, found', expected', -, -, -, rfl⟩ :=
    exists_eq_mismatch he h hw hg hgcode
  have hlabel : s.label = t.label := Option.some.inj (hpf.step.trans hpg.step.symm)
  obtain rfl : s = t := Option.some.inj ((hwf.step?_eq_some_iff.2 ⟨hs, rfl⟩).symm.trans
    (hwf.step?_eq_some_iff.2 ⟨ht, hlabel.symm⟩))
  obtain rfl : performer = performer' := Option.some.inj (hperformer.symm.trans hperformer')
  have hfield : b.1 = b'.1 := Option.some.inj (hpf.field.trans hpg.field.symm)
  obtain ⟨hfound, hexpected⟩ : found.text = found'.text ∧ expected.text = expected'.text :=
    TypePair.mk.inj (Option.some.inj (hpf.types.trans hpg.types.symm))
  simp only [Scope.mismatch, hfield, hfound, hexpected]

end Checker

/-! ## Reports with a registry and without -/

/-- One report has the findings of another, with patches for those that a registry can repair. It
suggests these patches, and differs in nothing else. -/
structure WorkflowReport.Extends (full plain : WorkflowReport) (r : CoercionRegistry)
    (e : CatalogEntry) (patch? : Finding → Option Patch) : Prop where
  verdict : full.verdict = plain.verdict
  findings : full.findings = plain.findings.map fun f => f.suggesting (patch? f)
  patches : full.patches.Perm (plain.findings.filterMap patch?)
  repaired : ∀ f ∈ plain.findings, (∃ p, patch? f = some p) ↔ f.Repairable r e
  isFor : ∀ f ∈ plain.findings, ∀ p, patch? f = some p → p.IsFor f
  unique : ∀ f ∈ plain.findings, ∀ g ∈ plain.findings, ∀ p,
    patch? f = some p → patch? g = some p → f = g

namespace Checker

variable {c : Checker} {w : Workflow} {e : CatalogEntry} {r : CoercionRegistry}

/-- A checker with another registry, or with none. -/
def withRegistry (c : Checker) (registry : Option CoercionRegistry) : Checker :=
  { c with registry := registry }

theorem structureFindings_withRegistry (c : Checker) (registry : Option CoercionRegistry)
    (e : CatalogEntry) : (c.withRegistry registry).structureFindings e = c.structureFindings e :=
  have hontology : (c.withRegistry registry).ontology = c.ontology := rfl
  structureFindings_congr hontology rfl

theorem graphFindings_withRegistry (c : Checker) (registry : Option CoercionRegistry)
    (w : Workflow) : (c.withRegistry registry).graphFindings w = c.graphFindings w :=
  rfl

/-- A report depends on the registry only by the patches. -/
theorem check_withRegistry (registry : Option CoercionRegistry)
    (h : isHalting (c.structureFindings e) = false) (hw : e.graph = some w) :
    (c.withRegistry registry).check e = .ofFindings e.name
      ((c.structureFindings e ++ c.graphFindings w).map fun f =>
        f.suggesting ((c.withRegistry registry).patchOf w e f))
      ((c.structureFindings e ++ c.graphFindings w).filterMap
        ((c.withRegistry registry).patchOf w e)) := by
  rw [← structureFindings_withRegistry c registry] at h
  rw [check_of_not_isHalting h hw, structureFindings_withRegistry, graphFindings_withRegistry]

/-- Without a registry, nothing is suggested in place of what the rules suggest. -/
theorem check_withRegistry_none (h : isHalting (c.structureFindings e) = false)
    (hw : e.graph = some w) : (c.withRegistry none).check e =
      .ofFindings e.name (c.structureFindings e ++ c.graphFindings w) [] := by
  have hnone : (c.withRegistry none).patchOf w e = fun _ => none := rfl
  rw [check_withRegistry none h hw, hnone, List.filterMap_none]
  simp only [Finding.suggesting, List.map_id']

/-- Where a structural error ends the check, there is nothing to repair. -/
theorem extends_check_of_isHalting (he : e.Loaded) (h : isHalting (c.structureFindings e) = true) :
    ((c.withRegistry (some r)).check e).Extends ((c.withRegistry none).check e) r e
      fun _ => none := by
  have hcheck : ∀ registry, (c.withRegistry registry).check e =
      .ofFindings e.name (c.structureFindings e) [] := by
    intro registry
    rw [← structureFindings_withRegistry c registry] at h
    rw [check_of_isHalting h, structureFindings_withRegistry]
  rw [hcheck, hcheck]
  have hcode : ∀ f ∈ Finding.sort (c.structureFindings e), f.code ≠ .typeMismatch := by
    intro f hf hcode
    have hlevel := c.level_of_mem_structureFindings he (Finding.mem_sort.1 hf)
    rw [Finding.level, hcode] at hlevel
    cases hlevel
  exact {
    verdict := rfl
    findings := (List.map_id _).symm
    patches := by
      rw [List.filterMap_none]
      exact .nil
    repaired := fun f hf => by
      refine ⟨?_, fun hrepairable => absurd hrepairable.code (hcode f hf)⟩
      rintro ⟨p, hp⟩
      cases hp
    isFor := fun _ _ _ hp => by cases hp
    unique := fun _ _ _ _ _ hp => by cases hp }

/-- Where nothing ends the check, the patches are those of the findings. -/
theorem extends_check_of_not_isHalting (hr : r.WellKeyed) (he : e.Loaded)
    (h : isHalting (c.structureFindings e) = false) (hw : e.graph = some w) :
    ((c.withRegistry (some r)).check e).Extends ((c.withRegistry none).check e) r e
      ((c.withRegistry (some r)).patchOf w e) := by
  set c' := c.withRegistry (some r) with hc'
  have h' : isHalting (c'.structureFindings e) = false := by
    rw [hc', structureFindings_withRegistry, h]
  have hplain : (c.withRegistry none).check e =
      .ofFindings e.name (c'.structureFindings e ++ c'.graphFindings w) [] := by
    rw [check_withRegistry_none h hw, hc', structureFindings_withRegistry,
      graphFindings_withRegistry]
  have hfindings : (c'.check e).findings =
      (Finding.sort (c'.structureFindings e ++ c'.graphFindings w)).map
        fun f => f.suggesting (c'.patchOf w e f) := by
    rw [check_of_not_isHalting h' hw]
    exact Finding.sort_map_suggesting _ _
  rw [hplain]
  exact {
    verdict := by
      refine Verdict.ofFindings_eq_of_map_isError ?_
      rw [hfindings, List.map_map]
      exact List.map_congr_left fun f _ => Finding.isError_suggesting f _
    findings := hfindings
    patches := by
      rw [check_of_not_isHalting h' hw]
      exact (Finding.sort_perm _).symm.filterMap _
    repaired := fun f hf => exists_patchOf_iff hr rfl he h' hw (Finding.mem_sort.1 hf)
    isFor := fun f _ p hp => isFor_of_patchOf_eq_some hp
    unique := fun f hf g hg p hpf hpg =>
      eq_of_isFor he h' hw (Finding.mem_sort.1 hf) (Finding.mem_sort.1 hg)
        (code_of_patchOf_eq_some _ w hpf) (code_of_patchOf_eq_some _ w hpg)
        (isFor_of_patchOf_eq_some hpf) (isFor_of_patchOf_eq_some hpg) }

/-- Patches are an addition to a report: with a registry, a check has the verdict and the findings
that it has without one, and patches for just those mismatches that the registry can repair. -/
theorem extends_check (c : Checker) (ds : List CoercionDeclaration) (r : CoercionRegistry)
    (hr : CoercionRegistry.ofDeclarations ds = .ok r) (e : CatalogEntry) (he : e.Loaded) :
    ∃ patch?, ((c.withRegistry (some r)).check e).Extends ((c.withRegistry none).check e) r e
      patch? := by
  cases h : isHalting (c.structureFindings e) with
  | true => exact ⟨_, extends_check_of_isHalting he h⟩
  | false =>
    obtain ⟨w, hw⟩ := exists_graph he h
    have hkeyed := CoercionRegistry.wellKeyed_ofDeclarations hr
    exact ⟨_, extends_check_of_not_isHalting hkeyed he h hw⟩

/-- The sample has a mismatch that its registry repairs. -/
theorem extends_check_sample :
    CoercionRegistry.ofDeclarations Sample.declarations = .ok Sample.registry ∧
      Sample.entry.Loaded ∧
      ((Sample.checker.withRegistry (some Sample.registry)).check Sample.entry).patches ≠ [] ∧
      ∃ patch?, ((Sample.checker.withRegistry (some Sample.registry)).check Sample.entry).Extends
        ((Sample.checker.withRegistry none).check Sample.entry) Sample.registry Sample.entry
        patch? :=
  have hr : CoercionRegistry.ofDeclarations Sample.declarations = .ok Sample.registry :=
    Except.toOption_eq_some_iff.1 (by decide +kernel)
  have he : Sample.entry.Loaded := .authored 10 "w" Sample.workflow
  ⟨hr, he, by decide +kernel,
    extends_check Sample.checker Sample.declarations Sample.registry hr Sample.entry he⟩

end Checker

end CapabilityFlow
