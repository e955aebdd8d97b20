import CapabilityFlow.Workflow.Catalog
import Mathlib.Data.List.Nodup

/-!
# Loaded workflows

Every finding of reading a workflow is a structural error, so a workflow that may be checked further
has no finding at all. Then its graph is `AuthoredWorkflow.graph`: a step for each written one, in
their order, with distinct labels, and every part of a step read (`AuthoredStep.Readable`).
-/

namespace CapabilityFlow

/-! ## Structural errors -/

/-- An error of the first level. -/
def Finding.IsStructuralError (f : Finding) : Prop :=
  f.level = .structural ∧ f.isError = true

/-- The codes of reading a document, except for that of a label that is used before. -/
def Code.ofParts : List Code :=
  [.missingField, .malformedId, .bindingSyntax, .groupWithoutJoin, .unknownGotoTarget, .unboundedLoop]

/-- An error of reading a part of what is at a place. It is not about a label that is used before. -/
structure Finding.IsLocalError (l : Location) (f : Finding) : Prop where
  code_mem : f.code ∈ Code.ofParts
  eq_of : f = .of f.code f.location f.message
  location : ∃ field, f.location = { l with field := field }

namespace Finding

theorem sort_perm (fs : List Finding) : (sort fs).Perm fs :=
  List.mergeSort_perm _ _

theorem mem_sort {fs : List Finding} {f : Finding} : f ∈ sort fs ↔ f ∈ fs :=
  (sort_perm fs).mem_iff

theorem sort_eq_nil_iff {fs : List Finding} : sort fs = [] ↔ fs = [] := by
  constructor
  · intro h
    have hp := (sort_perm fs).symm
    rw [h] at hp
    exact hp.eq_nil
  · rintro rfl
    exact List.mergeSort_nil

end Finding

namespace Finding.IsLocalError

variable {l : Location} {f : Finding}

theorem of {code : Code} {message : String} (field : Option String) (h : code ∈ Code.ofParts) :
    (Finding.of code { l with field := field } message).IsLocalError l :=
  ⟨h, rfl, field, rfl⟩

theorem isStructuralError (h : f.IsLocalError l) : f.IsStructuralError := by
  have hcodes : ∀ code ∈ Code.ofParts, code.level = .structural ∧ code.defaultSeverity = .error := by
    decide
  obtain ⟨hlevel, hseverity⟩ := hcodes f.code h.code_mem
  rw [h.eq_of]
  exact ⟨hlevel, decide_eq_true hseverity⟩

theorem code_ne (h : f.IsLocalError l) : f.code ≠ .duplicateStoreAs := by
  intro hcode
  have hmem := h.code_mem
  rw [hcode] at hmem
  revert hmem
  decide

end Finding.IsLocalError

open Finding

namespace AuthoredStep

variable (s : AuthoredStep) (l : Location)

theorem isLocalError_capabilityFindings : ∀ f ∈ s.capabilityFindings l, f.IsLocalError l := by
  intro f hf
  unfold capabilityFindings at hf
  split at hf
  · obtain rfl := List.mem_singleton.1 hf
    exact .of (some _) (by decide)
  · split at hf
    · cases hf
    · obtain rfl := List.mem_singleton.1 hf
      exact .of (some _) (by decide)

theorem isLocalError_missingLabelFindings :
    ∀ f ∈ s.missingLabelFindings l, f.IsLocalError l := by
  intro f hf
  unfold missingLabelFindings at hf
  split at hf
  · obtain rfl := List.mem_singleton.1 hf
    exact .of (some _) (by decide)
  · cases hf

theorem isLocalError_of_syntaxFinding {α : Type} {field what : String}
    {r : Except ReferenceError α} {f : Finding} (h : syntaxFinding l field what r = some f) :
    f.IsLocalError l := by
  cases r with
  | ok a => cases h
  | error e =>
    cases h
    exact .of (some _) (by decide)

theorem isLocalError_bindingFindings : ∀ f ∈ s.bindingFindings l, f.IsLocalError l := by
  intro f hf
  obtain ⟨b, -, hb⟩ := List.mem_filterMap.1 hf
  exact isLocalError_of_syntaxFinding l hb

theorem isLocalError_conditionFindings : ∀ f ∈ s.conditionFindings l, f.IsLocalError l := by
  intro f hf
  unfold conditionFindings at hf
  split at hf
  · cases hf
  · exact isLocalError_of_syntaxFinding l (Option.mem_toList.1 hf)

theorem isLocalError_gateFindings : ∀ f ∈ s.gateFindings l, f.IsLocalError l := by
  intro f hf
  obtain ⟨g, -, hg⟩ := List.mem_filterMap.1 hf
  exact isLocalError_of_syntaxFinding l hg

theorem isLocalError_groupFindings (groups : Table Join) :
    ∀ f ∈ s.groupFindings groups l, f.IsLocalError l := by
  intro f hf
  unfold groupFindings at hf
  split at hf
  · cases hf
  · split at hf
    · cases hf
    · obtain rfl := List.mem_singleton.1 hf
      exact .of (some _) (by decide)

theorem isLocalError_failureFindings (w : AuthoredWorkflow) (cap : Nat) :
    ∀ f ∈ s.failureFindings w cap l, f.IsLocalError l := by
  intro f hf
  obtain ⟨⟨mode, i⟩, -, hf⟩ := List.mem_flatMap.1 hf
  dsimp only at hf
  split at hf
  · cases hf
  · rcases List.mem_append.1 hf with h | h
    · split at h
      · cases h
      · obtain rfl := List.mem_singleton.1 h
        exact .of (some _) (by decide)
    · obtain ⟨m, -, rfl⟩ := Option.map_eq_some_iff.1 (Option.mem_toList.1 h)
      exact .of (some _) (by decide)

theorem isLocalError_findings (w : AuthoredWorkflow) (cap : Nat) (name : String) (i : Nat) :
    ∀ f ∈ s.findings w cap name i, f.IsLocalError (s.location name i) := by
  intro f hf
  simp only [findings, List.mem_append] at hf
  rcases hf with (((((h | h) | h) | h) | h) | h) | h
  · exact isLocalError_capabilityFindings _ _ _ h
  · exact isLocalError_missingLabelFindings _ _ _ h
  · exact isLocalError_bindingFindings _ _ _ h
  · exact isLocalError_conditionFindings _ _ _ h
  · exact isLocalError_gateFindings _ _ _ h
  · exact isLocalError_groupFindings _ _ _ _ h
  · exact isLocalError_failureFindings _ _ _ _ _ h

end AuthoredStep

namespace AuthoredWorkflow

variable (w : AuthoredWorkflow)

/-- A place in a document: the document as a whole, or one of its steps. -/
inductive HasPlace (w : AuthoredWorkflow) (name : String) : Location → Prop where
  | whole : HasPlace w name { workflow := name }
  | step {i : Nat} {s : AuthoredStep} (hs : w.steps[i]? = some s) :
      HasPlace w name (s.location name i)

theorem isLocalError_groupFindings (name : String) :
    ∀ f ∈ w.groupFindings name, f.IsLocalError { workflow := name } := by
  intro f hf
  obtain ⟨⟨group, g⟩, -, hg⟩ := List.mem_filterMap.1 hf
  dsimp only at hg
  split at hg
  · cases hg
    exact .of none (by decide)
  · split at hg
    · cases hg
    · cases hg
      exact .of none (by decide)

theorem isLocalError_emptyFindings (name : String) :
    ∀ f ∈ w.emptyFindings name, f.IsLocalError { workflow := name } := by
  intro f hf
  unfold emptyFindings at hf
  split at hf
  · obtain rfl := List.mem_singleton.1 hf
    exact .of none (by decide)
  · cases hf

theorem mem_labelFindings_iff {name : String} {f : Finding} :
    f ∈ w.labelFindings name ↔ ∃ i s label first, w.steps[i]? = some s ∧ s.label = some label ∧
      w.labelIndex? label = some first ∧ first < i ∧
      f = .of .duplicateStoreAs (.atStep name i label)
        s!"store_as '{label}' is already used by step {first}" := by
  simp only [labelFindings, indexed, List.mem_filterMap, List.mem_map, Prod.exists,
    List.mem_zipIdx_iff_getElem?]
  constructor
  · rintro ⟨i, s, ⟨s', i', hs, he⟩, hf⟩
    obtain ⟨rfl, rfl⟩ := Prod.mk.inj he
    obtain ⟨label, hl, hf⟩ := Option.bind_eq_some_iff.1 hf
    obtain ⟨first, hfirst, hf⟩ := Option.bind_eq_some_iff.1 hf
    split at hf
    · rename_i hlt
      exact ⟨_, _, label, first, hs, hl, hfirst, hlt, (Option.some.inj hf).symm⟩
    · cases hf
  · rintro ⟨i, s, label, first, hs, hl, hfirst, hlt, rfl⟩
    exact ⟨i, s, ⟨s, i, hs, rfl⟩, by simp [hl, hfirst, hlt]⟩

/-- What is found is local to a place, or about a label that is used before. -/
theorem isLocalError_or_mem_labelFindings {cap : Nat} {name : String} {f : Finding}
    (hf : f ∈ w.findings cap name) :
    (∃ l, w.HasPlace name l ∧ f.IsLocalError l) ∨ f ∈ w.labelFindings name := by
  simp only [findings, mem_sort, List.mem_append] at hf
  rcases hf with ((h | h) | h) | h
  · exact .inl ⟨_, .whole, isLocalError_groupFindings _ _ _ h⟩
  · exact .inl ⟨_, .whole, isLocalError_emptyFindings _ _ _ h⟩
  · exact .inr h
  · obtain ⟨_, hp, h⟩ := List.mem_flatMap.1 h
    obtain ⟨⟨s, i⟩, hs, rfl⟩ := List.mem_map.1 hp
    exact .inl ⟨_, .step (List.mem_zipIdx_iff_getElem?.1 hs),
      s.isLocalError_findings w cap name i f h⟩

theorem isStructuralError_findings (cap : Nat) (name : String) :
    ∀ f ∈ w.findings cap name, f.IsStructuralError := by
  intro f hf
  rcases w.isLocalError_or_mem_labelFindings hf with ⟨l, -, h⟩ | h
  · exact h.isStructuralError
  · obtain ⟨i, s, label, first, -, -, -, -, rfl⟩ := (mem_labelFindings_iff w).1 h
    exact ⟨rfl, rfl⟩

/-- The findings of the code for repeated labels are those about labels that are used before. -/
theorem mem_findings_duplicateStoreAs_iff {cap : Nat} {name : String} {f : Finding} :
    f ∈ w.findings cap name ∧ f.code = .duplicateStoreAs ↔ f ∈ w.labelFindings name := by
  constructor
  · rintro ⟨hf, hcode⟩
    refine (w.isLocalError_or_mem_labelFindings hf).resolve_left ?_
    rintro ⟨l, -, h⟩
    exact h.code_ne hcode
  · intro hf
    obtain ⟨i, s, label, first, -, -, -, -, rfl⟩ := (mem_labelFindings_iff w).1 hf
    refine ⟨?_, rfl⟩
    simp only [findings, mem_sort, List.mem_append]
    exact .inl (.inr hf)

end AuthoredWorkflow

/-! ## Readable steps -/

/-- The parts of a step are there where they have to be, and can be read. -/
structure AuthoredStep.Readable (s : AuthoredStep) : Prop where
  capability : ∃ id, s.capability = some id ∧ isWellFormedId id = true
  label : ∃ label, s.label = some label
  bindings : ∀ b ∈ s.bindings, ∃ p, Binding.parse b.2 = .ok p
  condition : ∀ text, s.condition = some text → ∃ e, Expression.parse text = .ok e
  gates : ∀ g ∈ s.gates, ∃ e, Expression.parse g.condition = .ok e

namespace AuthoredStep

theorem syntaxFinding_eq_none_iff {α : Type} {l : Location} {field what : String}
    {r : Except ReferenceError α} : syntaxFinding l field what r = none ↔ ∃ a, r = .ok a := by
  cases r <;> simp [syntaxFinding]

variable {s : AuthoredStep} {l : Location}

theorem capabilityFindings_eq_nil_iff :
    s.capabilityFindings l = [] ↔ ∃ id, s.capability = some id ∧ isWellFormedId id = true := by
  unfold capabilityFindings
  cases s.capability with
  | none => simp
  | some id => simp

theorem missingLabelFindings_eq_nil_iff :
    s.missingLabelFindings l = [] ↔ ∃ label, s.label = some label := by
  unfold missingLabelFindings
  cases s.label <;> simp

theorem bindingFindings_eq_nil_iff :
    s.bindingFindings l = [] ↔ ∀ b ∈ s.bindings, ∃ p, Binding.parse b.2 = .ok p := by
  simp only [bindingFindings, List.filterMap_eq_nil_iff, syntaxFinding_eq_none_iff]

theorem conditionFindings_eq_nil_iff : s.conditionFindings l = [] ↔
    ∀ text, s.condition = some text → ∃ e, Expression.parse text = .ok e := by
  unfold conditionFindings
  cases s.condition with
  | none => simp
  | some text => simp [Option.toList_eq_nil_iff, syntaxFinding_eq_none_iff]

theorem gateFindings_eq_nil_iff :
    s.gateFindings l = [] ↔ ∀ g ∈ s.gates, ∃ e, Expression.parse g.condition = .ok e := by
  simp only [gateFindings, List.filterMap_eq_nil_iff, syntaxFinding_eq_none_iff, Prod.forall,
    List.mem_zipIdx_iff_getElem?]
  constructor
  · intro h g hg
    obtain ⟨i, hi⟩ := List.getElem?_of_mem hg
    exact h g i hi
  · exact fun h g i hi => h g (List.mem_of_getElem? hi)

theorem findings_eq_nil_iff {w : AuthoredWorkflow} {cap i : Nat} {name : String} :
    s.findings w cap name i = [] ↔ s.Readable ∧
      s.groupFindings w.usableGroups (s.location name i) = [] ∧
      s.failureFindings w cap (s.location name i) = [] := by
  simp only [findings, List.append_eq_nil_iff, capabilityFindings_eq_nil_iff,
    missingLabelFindings_eq_nil_iff, bindingFindings_eq_nil_iff, conditionFindings_eq_nil_iff,
    gateFindings_eq_nil_iff]
  constructor
  · rintro ⟨⟨⟨⟨⟨⟨hc, hl⟩, hb⟩, he⟩, hg⟩, hgroup⟩, hfail⟩
    exact ⟨⟨hc, hl, hb, he, hg⟩, hgroup, hfail⟩
  · rintro ⟨⟨hc, hl, hb, he, hg⟩, hgroup, hfail⟩
    exact ⟨⟨⟨⟨⟨⟨hc, hl⟩, hb⟩, he⟩, hg⟩, hgroup⟩, hfail⟩

theorem readable_of_findings_eq_nil {w : AuthoredWorkflow} {cap i : Nat} {name : String}
    (h : s.findings w cap name i = []) : s.Readable :=
  (findings_eq_nil_iff.1 h).1

end AuthoredStep

/-! ## Graphs -/

namespace Workflow

/-- Each step stands at its index, and no two steps share a label. -/
structure WellFormed (w : Workflow) : Prop where
  index_eq : ∀ i (s : Step), w.steps[i]? = some s → s.index = i
  labels_nodup : (w.steps.map (·.label)).Nodup

variable {w : Workflow}

theorem WellFormed.getElem?_index (hw : w.WellFormed) {s : Step} (hs : s ∈ w.steps) :
    w.steps[s.index]? = some s := by
  obtain ⟨i, hi⟩ := List.getElem?_of_mem hs
  rw [hw.index_eq i s hi]
  exact hi

theorem WellFormed.eq_of_index_eq (hw : w.WellFormed) {s t : Step} (hs : s ∈ w.steps)
    (ht : t ∈ w.steps) (h : s.index = t.index) : s = t := by
  have hi := hw.getElem?_index hs
  rw [h, hw.getElem?_index ht] at hi
  exact (Option.some.inj hi).symm

theorem WellFormed.index_lt_length (hw : w.WellFormed) {s : Step} (hs : s ∈ w.steps) :
    s.index < w.steps.length :=
  (List.getElem?_eq_some_iff.1 (hw.getElem?_index hs)).1

theorem WellFormed.mem_take_iff (hw : w.WellFormed) {n : Nat} {t : Step} :
    t ∈ w.steps.take n ↔ t ∈ w.steps ∧ t.index < n := by
  rw [List.mem_take_iff_getElem]
  constructor
  · rintro ⟨i, hi, rfl⟩
    have hlt : i < w.steps.length := by omega
    have hindex := hw.index_eq i _ (List.getElem?_eq_getElem hlt)
    exact ⟨List.getElem_mem hlt, by omega⟩
  · rintro ⟨ht, hlt⟩
    obtain ⟨hbound, hget⟩ := List.getElem?_eq_some_iff.1 (hw.getElem?_index ht)
    exact ⟨t.index, by omega, hget⟩

theorem WellFormed.zipIdx_steps (hw : w.WellFormed) :
    w.steps.zipIdx = w.steps.map fun s => (s, s.index) := by
  refine List.ext_getElem? fun i => ?_
  rw [List.getElem?_zipIdx, List.getElem?_map]
  cases h : w.steps[i]? with
  | none => rfl
  | some s => simp [hw.index_eq i s h]

theorem WellFormed.nodup_steps (hw : w.WellFormed) : w.steps.Nodup :=
  hw.labels_nodup.of_map _

theorem step?_eq_none_iff {label : String} :
    w.step? label = none ↔ ∀ s ∈ w.steps, s.label ≠ label := by
  simp [step?]

theorem WellFormed.step?_eq_some_iff (hw : w.WellFormed) {label : String} {s : Step} :
    w.step? label = some s ↔ s ∈ w.steps ∧ s.label = label := by
  constructor
  · intro h
    exact ⟨List.mem_of_find?_eq_some h, by simpa using List.find?_some h⟩
  · rintro ⟨hs, rfl⟩
    cases h : w.step? s.label with
    | none => exact absurd rfl (step?_eq_none_iff.1 h s hs)
    | some t =>
      have ht := List.mem_of_find?_eq_some h
      have hl : t.label = s.label := by simpa using List.find?_some h
      rw [(List.inj_on_of_nodup_map hw.labels_nodup ht hs hl)]

theorem repeatedLabel?_eq_none_iff {seen : List String} {steps : List Step} :
    repeatedLabel? seen steps = none ↔
      (steps.map (·.label)).Nodup ∧ ∀ s ∈ steps, s.label ∉ seen := by
  induction steps generalizing seen with
  | nil => simp [repeatedLabel?]
  | cons s rest ih =>
    unfold repeatedLabel?
    split
    · rename_i h
      simp only [reduceCtorEq, false_iff, not_and]
      intro _ hall
      exact hall s List.mem_cons_self (by simpa using h)
    · rename_i h
      have hs : s.label ∉ seen := by simpa using h
      rw [ih]
      simp only [List.map_cons, List.nodup_cons, List.mem_map, List.mem_cons, not_or, forall_eq_or_imp]
      constructor
      · rintro ⟨hn, hr⟩
        exact ⟨⟨fun ⟨t, ht, e⟩ => (hr t ht).1 e, hn⟩, hs, fun t ht => (hr t ht).2⟩
      · rintro ⟨⟨hd, hn⟩, -, hr⟩
        exact ⟨hn, fun t ht => ⟨fun e => hd ⟨t, ht, e⟩, hr t ht⟩⟩

end Workflow

namespace AuthoredWorkflow

/-- The graph of a workflow, for what can be read of it. -/
def graph (w : AuthoredWorkflow) (name : String) : Workflow where
  name := name
  version := w.version
  ontologyVersion := w.ontologyVersion
  risk := w.risk
  inputs := w.inputs
  groups := w.usableGroups
  steps := w.indexed.map fun (i, s) => s.toStep i

variable {w : AuthoredWorkflow} {cap : Nat} {name : String}

theorem getElem?_steps_graph (i : Nat) :
    (w.graph name).steps[i]? = (w.steps[i]?).map (·.toStep i) := by
  simp [graph, indexed, List.getElem?_zipIdx, Option.map_map, Function.comp_def]

theorem mem_steps_graph_iff {p : Step} :
    p ∈ (w.graph name).steps ↔ ∃ i, ∃ t : AuthoredStep, w.steps[i]? = some t ∧ t.toStep i = p := by
  simp only [List.mem_iff_getElem?, getElem?_steps_graph, Option.map_eq_some_iff]

theorem findings_eq_nil_iff : w.findings cap name = [] ↔ w.groupFindings name = [] ∧
    w.emptyFindings name = [] ∧ w.labelFindings name = [] ∧
    ∀ i (s : AuthoredStep), w.steps[i]? = some s → s.findings w cap name i = [] := by
  simp only [findings, sort_eq_nil_iff, List.append_eq_nil_iff, List.flatMap_eq_nil_iff, indexed,
    List.mem_map, Prod.exists, List.mem_zipIdx_iff_getElem?, and_assoc]
  refine and_congr_right fun _ => and_congr_right fun _ => and_congr_right fun _ => ?_
  constructor
  · intro h i s hs
    exact h (i, s) ⟨s, i, hs, rfl⟩
  · rintro h - ⟨s, i, hs, rfl⟩
    exact h i s hs

theorem readable_of_findings_eq_nil (h : w.findings cap name = []) {s : AuthoredStep}
    (hs : s ∈ w.steps) : s.Readable := by
  obtain ⟨i, hi⟩ := List.getElem?_of_mem hs
  exact AuthoredStep.readable_of_findings_eq_nil ((findings_eq_nil_iff.1 h).2.2.2 i s hi)

/-- A label that no finding is about is not that of an earlier step. -/
theorem label_ne_of_labelFindings_eq_nil (h : w.labelFindings name = []) {i j : Nat}
    {s t : AuthoredStep} (hs : w.steps[i]? = some s) (ht : w.steps[j]? = some t) (hij : i < j)
    {label : String} (hl : t.label = some label) : s.label ≠ t.label := by
  intro he
  obtain ⟨hi, rfl⟩ := List.getElem?_eq_some_iff.1 hs
  have hlt : w.steps.findIdx (·.label = some label) < j := by
    refine Nat.lt_of_le_of_lt (Nat.le_of_not_lt fun hi => ?_) hij
    exact of_decide_eq_false (List.not_of_lt_findIdx hi) (he.trans hl)
  have hfirst : w.labelIndex? label = some (w.steps.findIdx (·.label = some label)) :=
    List.findIdx?_eq_some_iff_findIdx_eq.2
      ⟨Nat.lt_trans hlt (List.getElem?_eq_some_iff.1 ht).1, rfl⟩
  exact List.ne_nil_of_mem
    ((mem_labelFindings_iff w).2 ⟨j, t, label, _, ht, hl, hfirst, hlt, rfl⟩) h

/-- Without a finding, an earlier step has another label than a later one. -/
theorem label_ne_of_findings_eq_nil (h : w.findings cap name = []) {i j : Nat}
    {s t : AuthoredStep} (hs : w.steps[i]? = some s) (ht : w.steps[j]? = some t) (hij : i < j) :
    s.label ≠ t.label := by
  obtain ⟨label, hl⟩ := (readable_of_findings_eq_nil h (List.mem_of_getElem? ht)).label
  exact label_ne_of_labelFindings_eq_nil (findings_eq_nil_iff.1 h).2.2.1 hs ht hij hl

theorem wellFormed_graph (h : w.findings cap name = []) : (w.graph name).WellFormed := by
  constructor
  · intro i s hs
    rw [getElem?_steps_graph] at hs
    obtain ⟨a, -, rfl⟩ := Option.map_eq_some_iff.1 hs
    rfl
  · rw [List.Nodup, List.pairwise_map, List.pairwise_iff_getElem]
    intro i j hi hj hij he
    obtain ⟨s, hs, hsi⟩ := Option.map_eq_some_iff.1
      ((getElem?_steps_graph i).symm.trans (List.getElem?_eq_getElem hi))
    obtain ⟨t, ht, htj⟩ := Option.map_eq_some_iff.1
      ((getElem?_steps_graph j).symm.trans (List.getElem?_eq_getElem hj))
    obtain ⟨a, ha⟩ := (readable_of_findings_eq_nil h (List.mem_of_getElem? hs)).label
    obtain ⟨b, hb⟩ := (readable_of_findings_eq_nil h (List.mem_of_getElem? ht)).label
    refine label_ne_of_findings_eq_nil h hs ht hij ?_
    rw [← hsi, ← htj] at he
    simpa [AuthoredStep.toStep, ha, hb] using he

theorem toGraph?_eq (h : w.findings cap name = []) : w.toGraph? name = some (w.graph name) := by
  have hn : Workflow.repeatedLabel? [] (w.graph name).steps = none :=
    Workflow.repeatedLabel?_eq_none_iff.2 ⟨(wellFormed_graph h).labels_nodup, by simp⟩
  unfold toGraph? Workflow.ofSteps
  rw [show (w.indexed.map fun (i, s) => s.toStep i) = (w.graph name).steps from rfl, hn]
  rfl

end AuthoredWorkflow

/-! ## Entries of catalogs -/

namespace CatalogEntry

theorem graph_ofAuthored {w : AuthoredWorkflow} {cap : Nat} {name : String}
    (h : w.findings cap name = []) : (ofAuthored cap name w).graph = some (w.graph name) := by
  simp [ofAuthored, h, AuthoredWorkflow.toGraph?_eq h]

/-- What reading a workflow gives, from a document or from the value that writes one. -/
inductive Loaded : CatalogEntry → Prop where
  | authored (cap : Nat) (name : String) (w : AuthoredWorkflow) : Loaded (ofAuthored cap name w)
  | value (cap : Nat) (name : String) (body : Value) : Loaded (ofValue cap name body)

/-- An entry is that of a document, or it is the refusal of a body that is none. -/
theorem Loaded.cases_authored {e : CatalogEntry} (he : e.Loaded) :
    (∃ cap w, e = ofAuthored cap e.name w) ∨
      e.graph = none ∧ e.authored = none ∧ ∃ m, e.findings = [.of .malformedWorkflow { workflow := e.name } m] := by
  cases he with
  | authored cap name w => exact .inl ⟨cap, w, rfl⟩
  | value cap name body =>
    unfold ofValue
    split
    · rename_i w _
      exact .inl ⟨cap, w, rfl⟩
    · exact .inr ⟨rfl, rfl, _, rfl⟩

theorem Loaded.isStructuralError {e : CatalogEntry} (he : e.Loaded) :
    ∀ f ∈ e.findings, f.IsStructuralError := by
  rcases he.cases_authored with ⟨cap, w, h⟩ | ⟨-, -, m, h⟩
  · rw [h]
    exact w.isStructuralError_findings cap e.name
  · rw [h]
    intro f hf
    obtain rfl := List.mem_singleton.1 hf
    exact ⟨rfl, rfl⟩

/-- An entry without findings holds a document and its graph. -/
theorem Loaded.of_findings_eq_nil {e : CatalogEntry} (he : e.Loaded) (h : e.findings = []) :
    ∃ cap w, e = ofAuthored cap e.name w ∧ w.findings cap e.name = [] ∧
      e.authored = some w ∧ e.graph = some (w.graph e.name) := by
  rcases he.cases_authored with ⟨cap, w, hw⟩ | ⟨-, -, m, hm⟩
  · have hf : w.findings cap e.name = [] := by
      rw [hw] at h
      exact h
    refine ⟨cap, w, hw, hf, ?_, ?_⟩
    · rw [hw]
      rfl
    · rw [hw]
      exact graph_ofAuthored hf
  · rw [hm] at h
    cases h

end CatalogEntry

end CapabilityFlow
