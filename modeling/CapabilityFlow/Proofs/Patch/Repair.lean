import CapabilityFlow.Proofs.Check.Mismatch
import CapabilityFlow.Proofs.Patch.Application
import CapabilityFlow.Proofs.Table

/-!
# What patches repair

A `Repair` holds what a patch is made from: a mismatch at a binding that is one reference, and a
coercion between the types. Every patch of a report is the patch of a repair that the checker offers
(`Checker.exists_offers_of_mem_patches`), and applying it gives `Repair.apply`.
-/

namespace CapabilityFlow

/-! ## Bindings of a step of the graph -/

namespace AuthoredStep

variable {s : AuthoredStep} {i : Nat} {field : String}

theorem mem_bindings_toStep_iff {b : String × Binding} : b ∈ (s.toStep i).bindings ↔
    ∃ v, (b.1, v) ∈ s.bindings ∧ Binding.parse v = .ok b.2 := by
  simp only [toStep, List.mem_filterMap, Option.map_eq_some_iff, Except.toOption_eq_some_iff,
    Prod.exists]
  constructor
  · rintro ⟨field, v, hmem, x, hx, rfl⟩
    exact ⟨v, hmem, hx⟩
  · rintro ⟨v, hmem, hx⟩
    exact ⟨b.1, v, hmem, b.2, hx, rfl⟩

theorem names_bindings_toStep_sublist : (s.toStep i).bindings.names.Sublist s.bindings.names := by
  have hread : ∀ bindings : Table Value,
      (Table.names (bindings.filterMap fun b =>
        (Binding.parse b.2).toOption.map (b.1, ·))).Sublist bindings.names := by
    intro bindings
    induction bindings with
    | nil => exact List.Sublist.refl _
    | cons b rest ih =>
      rw [List.filterMap_cons]
      cases (Binding.parse b.2).toOption with
      | none => exact ih.cons b.1
      | some x => exact ih.cons_cons b.1
  exact hread s.bindings

end AuthoredStep

namespace AuthoredWorkflow

variable {w : AuthoredWorkflow} {cap : Nat} {name : String}

/-- Without a finding, a label stands at one place only. -/
theorem place_unique (h : w.findings cap name = []) {i j : Nat} {s t : AuthoredStep}
    (hs : w.steps[i]? = some s) (ht : w.steps[j]? = some t) (hl : s.label = t.label) : i = j := by
  rcases Nat.lt_trichotomy i j with hij | hij | hij
  · exact absurd hl (label_ne_of_findings_eq_nil h hs ht hij)
  · exact hij
  · exact absurd hl.symm (label_ne_of_findings_eq_nil h ht hs hij)

theorem stepPlace_eq_ok (h : w.findings cap name = []) {i : Nat} {s : AuthoredStep}
    {label : String} (hs : w.steps[i]? = some s) (hl : s.label = some label) :
    w.stepPlace label = .ok i := by
  have hany : (w.steps.findIdx? (·.label = some label)).isSome = true := by
    rw [List.findIdx?_isSome, List.any_eq_true]
    exact ⟨s, List.mem_of_getElem? hs, by simp [hl]⟩
  obtain ⟨j, hj⟩ := Option.isSome_iff_exists.1 hany
  have hplace := stepPlace_eq_ok_iff.2 hj
  obtain ⟨t, ht, hlabel⟩ := exists_of_stepPlace_eq_ok hplace
  rw [hplace, place_unique h ht hs (hlabel.trans hl.symm)]

/-- Each step binds a field at most once, since bindings are read into a map. -/
def BindsOnce (w : AuthoredWorkflow) : Prop :=
  ∀ s ∈ w.steps, s.bindings.names.Nodup

end AuthoredWorkflow

/-! ## Repairs -/

/-- A mismatch with a coercion that may repair it. -/
structure Repair where
  /-- The place of the consumer in the document. -/
  place : Nat
  consumer : AuthoredStep
  label : String
  field : String
  /-- What is bound to the field. -/
  value : Value
  reference : Reference
  found : Schema
  expected : Schema
  coercion : Coercion
  /-- The label of the step that runs the coercion. -/
  inserted : String

namespace Repair

variable (m : Repair)

def types : TypePair :=
  ⟨m.found.text, m.expected.text⟩

/-- The step that runs the coercion. -/
def step : AuthoredStep :=
  m.coercion.step m.inserted m.types m.value

/-- What the field is bound to afterwards. -/
def output : Value :=
  m.coercion.outputReference m.inserted m.types.expected

def edits : List PatchEdit :=
  [.insert m.label m.step, .rebind m.label m.field m.value m.output]

/-- The repaired document. -/
def apply (w : AuthoredWorkflow) : AuthoredWorkflow :=
  w.mended m.place m.step m.field m.output

end Repair

/-- A patch makes the edits of a repair. -/
structure Patch.Makes (p : Patch) (m : Repair) : Prop where
  step : p.step = m.label
  field : p.field = m.field
  edits : p.edits = m.edits

/-- A repair of a document fits what a checker finds there. -/
structure Checker.Offers (c : Checker) (a : AuthoredWorkflow) (w : Workflow) (m : Repair) :
    Prop where
  consumer : a.steps[m.place]? = some m.consumer
  label : m.consumer.label = some m.label
  value : m.consumer.bindings.get? m.field = some m.value
  reference : Binding.parse m.value = .ok (.reference m.reference)
  found : (c.scope w (c.inputsType w)).valueType (m.consumer.toStep m.place) m.reference =
    .ok m.found
  expected : ∃ cap, c.ontology.get? (m.consumer.toStep m.place).capability = some cap ∧
    cap.inputField? m.field = some m.expected
  misfit : m.expected.accepts m.found = false
  coercion : ∃ r, c.registry = some r ∧ r.lookupTypes? m.types = some m.coercion
  inserted : m.inserted = freshLabel a.labels s!"{m.label}_{m.field}_coerced"

namespace Checker

variable {c : Checker} {a : AuthoredWorkflow} {cap : Nat} {name : String} {p : Patch}

theorem of_patchFor_eq_ok {r : CoercionRegistry} {w : Workflow} {f : Finding}
    (h : r.patchFor a w f = .ok (some p)) : ∃ types label field coercion,
      f.types = some types ∧ f.location.step = some label ∧ f.location.field = some field ∧
        r.lookupTypes? types = some coercion ∧ w.bindsReference label field = true ∧
          coercion.patch a w.name label field types = .ok p := by
  unfold CoercionRegistry.patchFor at h
  split at h
  · cases h
  split at h
  · rename_i types label field htypes hlabel hfield
    split at h
    · cases h
    · rename_i coercion hlookup
      split at h
      · rename_i hbinds
        obtain ⟨p', hp, hsome⟩ := Except.map_eq_ok_iff.1 h
        obtain rfl := Option.some.inj hsome
        exact ⟨types, label, field, coercion, htypes, hlabel, hfield, hlookup, hbinds, hp⟩
      · cases h
  · cases h

theorem of_patch_eq_ok {coercion : Coercion} {label field : String} {types : TypePair}
    (h : coercion.patch a name label field types = .ok p) : ∃ old,
      a.boundValue label field = .ok old ∧ p.step = label ∧ p.field = field ∧
        (⟨p.found, p.expected⟩ : TypePair) = types ∧
        p.edits = [.insert label (coercion.step (freshLabel a.labels s!"{label}_{field}_coerced") types old),
          .rebind label field old (coercion.outputReference
            (freshLabel a.labels s!"{label}_{field}_coerced") types.expected)] := by
  obtain ⟨old, hold, h⟩ := Except.bind_eq_ok_iff.1 h
  refine ⟨old, hold, ?_⟩
  dsimp only at h
  split at h
  · cases h
  · cases h
    exact ⟨rfl, rfl, rfl, rfl⟩

theorem of_patchOf_eq_some {w : Workflow} {e : CatalogEntry} {f : Finding}
    (h : c.patchOf w e f = some p) : ∃ r a, c.registry = some r ∧ e.authored = some a ∧
      r.patchFor a w f = .ok (some p) := by
  unfold patchOf at h
  split at h
  · rename_i r a hr ha
    unfold repaired at h
    split at h
    · rename_i p' hp
      obtain rfl := Option.some.inj h
      exact ⟨r, a, hr, ha, hp⟩
    · cases h
  · cases h

theorem of_bindsReference {w : Workflow} {label field : String}
    (h : w.bindsReference label field = true) :
    ∃ s r, w.step? label = some s ∧ s.bindings.get? field = some (.reference r) := by
  unfold Workflow.bindsReference at h
  split at h
  · rename_i r hr
    obtain ⟨s, hs, hget⟩ := Option.bind_eq_some_iff.1 hr
    exact ⟨s, r, hs, hget⟩
  · cases h

theorem not_isHalting_of_mem_patches {e : CatalogEntry} (hp : p ∈ (c.check e).patches) :
    isHalting (c.structureFindings e) = false := by
  by_contra hhalt
  rw [check_of_isHalting (by simpa using hhalt)] at hp
  cases hp

theorem exists_finding_of_mem_patches (hload : a.findings cap name = [])
    (hp : p ∈ (c.check (.ofAuthored cap name a)).patches) :
    ∃ f ∈ c.structureFindings (.ofAuthored cap name a) ++ c.graphFindings (a.graph name),
      c.patchOf (a.graph name) (.ofAuthored cap name a) f = some p := by
  rw [check_of_not_isHalting (not_isHalting_of_mem_patches hp)
    (CatalogEntry.graph_ofAuthored hload)] at hp
  exact List.mem_filterMap.1 hp

/-- Every patch of a report makes a repair that is offered. -/
theorem exists_offers_of_mem_patches (hload : a.findings cap name = []) (honce : a.BindsOnce)
    (hp : p ∈ (c.check (.ofAuthored cap name a)).patches) :
    ∃ m, c.Offers a (a.graph name) m ∧ p.Makes m := by
  have he : (CatalogEntry.ofAuthored cap name a).Loaded := .authored cap name a
  have hw := CatalogEntry.graph_ofAuthored hload
  have h := not_isHalting_of_mem_patches hp
  have hscope := wellFormed_scope he h hw (c.inputsType (a.graph name))
  obtain ⟨f, hf, hfp⟩ := exists_finding_of_mem_patches hload hp
  -- Only a mismatch has a patch, so the finding is about a binding of some step.
  have hcode := code_of_patchOf_eq_some c _ hfp
  obtain ⟨s, hs, performer, hperformer, b, hb, found, expected, hfound, hexpected, hmisfit, rfl⟩ :=
    exists_eq_mismatch he h hw hf hcode
  obtain ⟨i, t, ht, rfl⟩ := AuthoredWorkflow.mem_steps_graph_iff.1 hs
  have htmem : t ∈ a.steps := List.mem_of_getElem? ht
  obtain ⟨label, hlabel⟩ := (AuthoredWorkflow.readable_of_findings_eq_nil hload htmem).label
  have hslabel : (t.toStep i).label = label := by simp [AuthoredStep.toStep, hlabel]
  -- The patch is for that step and that binding.
  obtain ⟨r, a', hr, ha', hpatch⟩ := of_patchOf_eq_some hfp
  obtain rfl : a = a' := Option.some.inj ha'
  obtain ⟨types, label', field, coercion, htypes, hlabel', hfield, hlookup, hbinds, hmake⟩ :=
    of_patchFor_eq_ok hpatch
  obtain rfl : ⟨found.text, expected.text⟩ = types := Option.some.inj htypes
  obtain rfl : (t.toStep i).label = label' := Option.some.inj hlabel'
  obtain rfl : b.1 = field := Option.some.inj hfield
  -- The binding is the one that the step has for the field, which is a reference.
  obtain ⟨s', reference, hs', hget⟩ := of_bindsReference hbinds
  obtain rfl : t.toStep i = s' :=
    Option.some.inj ((hscope.workflow.step?_eq_some_iff.2 ⟨hs, rfl⟩).symm.trans hs')
  have honce' : (t.toStep i).bindings.names.Nodup :=
    (honce t htmem).sublist AuthoredStep.names_bindings_toStep_sublist
  have hreference : b.2 = .reference reference :=
    Option.some.inj (((Table.get?_eq_some_iff_mem honce').2 hb).symm.trans hget)
  -- The value that the edits move is what is written there.
  obtain ⟨old, hold, hstep, hfield', -, hedits⟩ := of_patch_eq_ok hmake
  obtain ⟨j, t', hj, ht', hvalue⟩ := AuthoredWorkflow.boundValue_eq_ok_iff.1 hold
  rw [hslabel] at hj hstep hedits
  obtain rfl : j = i :=
    Except.ok.inj (hj.symm.trans (AuthoredWorkflow.stepPlace_eq_ok hload ht hlabel))
  obtain rfl : t' = t := Option.some.inj (ht'.symm.trans ht)
  have hparse : Binding.parse old = .ok (.reference reference) := by
    obtain ⟨v, hv, hvb⟩ := AuthoredStep.mem_bindings_toStep_iff.1 hb
    have hget := (Table.get?_eq_some_iff_mem (honce t' htmem)).2 hv
    rw [Option.some.inj (hvalue.symm.trans hget), hvb, hreference]
  refine ⟨⟨j, t', label, b.1, old, reference, found, expected, coercion,
    freshLabel a.labels s!"{label}_{b.1}_coerced"⟩, ⟨ht', hlabel, hvalue, hparse, ?_, ?_, hmisfit,
    ⟨r, hr, hlookup⟩, rfl⟩, ⟨hstep, hfield', ?_⟩⟩
  · rw [hreference] at hfound
    exact Except.mapError_eq_ok_iff.1 hfound
  · exact ⟨performer, hperformer, hexpected⟩
  · exact hedits

/-- No step of the document has the label of the inserted one. -/
theorem Offers.label_step_notMem {w : Workflow} {m : Repair} (hm : c.Offers a w m) :
    m.step.label ∉ a.steps.map (·.label) := by
  have hfresh := a.freshLabel_notMem_map s!"{m.label}_{m.field}_coerced"
  rw [← hm.inserted] at hfresh
  exact hfresh

/-- Applying the patch gives the repaired document. -/
theorem Offers.apply_eq {m : Repair} (hm : c.Offers a (a.graph name) m)
    (hload : a.findings cap name = []) (hp : p.Makes m) : p.apply a = (m.apply a, none) := by
  have hplace := AuthoredWorkflow.stepPlace_eq_ok hload hm.consumer hm.label
  have hfresh : m.step.label ≠ some m.label := by
    intro heq
    refine hm.label_step_notMem (heq ▸ ?_)
    exact List.mem_map.2 ⟨m.consumer, List.mem_of_getElem? hm.consumer, hm.label⟩
  rw [Patch.apply, hp.edits]
  exact AuthoredWorkflow.applyAll_eq_mended hplace hfresh
    (AuthoredWorkflow.boundValue_eq_ok_iff.2 ⟨_, _, hplace, hm.consumer, hm.value⟩)

end Checker

end CapabilityFlow
