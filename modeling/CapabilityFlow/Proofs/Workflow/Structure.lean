import CapabilityFlow.Proofs.Table
import CapabilityFlow.Proofs.Workflow.Loading

/-!
# Which documents have a graph

`AuthoredWorkflow.IsStructured` says what a document has to respect, without its findings. Loading
accepts exactly these documents, and the graph has a step for each written one, with what is written
there (`CatalogEntry.graph_isSome_iff_isStructured`).
-/

namespace CapabilityFlow

/-! ## Structured documents -/

/-- If a failure leads to a step, then that step is there, and the number of passes is bounded. -/
structure AuthoredFailure.IsBounded (f : AuthoredFailure) (w : AuthoredWorkflow) (cap : Nat) :
    Prop where
  target : ∀ label, f.goto = some label → ∃ s ∈ w.steps, s.label = some label
  passes : f.goto.isSome = true → ∃ n, f.maxLoops = some n ∧ 1 ≤ n ∧ n ≤ cap

/-- What a document has to respect. -/
structure AuthoredWorkflow.IsStructured (w : AuthoredWorkflow) (cap : Nat) : Prop where
  steps : w.steps ≠ []
  /-- Each declared group has one of the joins. -/
  joins : ∀ g ∈ w.groups, ∃ join : Join, g.2.join = some join.name
  /-- Capabilities are well formed, labels are there, and all that is an expression can be read. -/
  readable : ∀ s ∈ w.steps, s.Readable
  labels : (w.steps.map (·.label)).Nodup
  groups : ∀ s ∈ w.steps, ∀ group, s.group = some group → group ∈ w.groups.names
  failures : ∀ s ∈ w.steps, ∀ f ∈ s.failures, f.IsBounded w cap

theorem Join.isSome_ofName?_iff {text : String} :
    (ofName? text).isSome = true ↔ ∃ join : Join, text = join.name := by
  simp only [ofName?, List.find?_isSome, decide_eq_true_eq]
  constructor
  · rintro ⟨join, -, h⟩
    exact ⟨join, h⟩
  · rintro ⟨join, h⟩
    exact ⟨join, by cases join <;> decide, h⟩

namespace AuthoredWorkflow

variable {w : AuthoredWorkflow} {cap : Nat} {name : String}

theorem groupFindings_eq_nil_iff :
    w.groupFindings name = [] ↔ ∀ g ∈ w.groups, ∃ join : Join, g.2.join = some join.name := by
  simp only [groupFindings, List.filterMap_eq_nil_iff]
  refine forall₂_congr fun g _ => ?_
  cases hjoin : g.2.join with
  | none => simp
  | some text => simp [← Join.isSome_ofName?_iff, Option.isSome_iff_ne_none]

theorem emptyFindings_eq_nil_iff : w.emptyFindings name = [] ↔ w.steps ≠ [] := by
  unfold emptyFindings
  cases w.steps <;> simp

/-- The first step of a label is not after any other of that label. -/
theorem labelFindings_eq_nil_of_nodup (h : (w.steps.map (·.label)).Nodup) :
    w.labelFindings name = [] := by
  refine List.eq_nil_iff_forall_not_mem.2 fun f hf => ?_
  obtain ⟨i, s, label, first, hs, hl, hfirst, hlt, -⟩ := (mem_labelFindings_iff w).1 hf
  obtain ⟨hbound, hlabel, -⟩ := List.findIdx?_eq_some_iff_getElem.1 hfirst
  obtain ⟨hi, rfl⟩ := List.getElem?_eq_some_iff.1 hs
  rw [List.Nodup, List.pairwise_map, List.pairwise_iff_getElem] at h
  exact h first i hbound hi hlt ((of_decide_eq_true hlabel).trans hl.symm)

/-- Where every step has a label, no finding is about labels exactly when they are distinct. -/
theorem labelFindings_eq_nil_iff (hl : ∀ s ∈ w.steps, ∃ label, s.label = some label) :
    w.labelFindings name = [] ↔ (w.steps.map (·.label)).Nodup := by
  refine ⟨fun h => ?_, labelFindings_eq_nil_of_nodup⟩
  rw [List.Nodup, List.pairwise_map, List.pairwise_iff_getElem]
  intro i j hi hj hij
  obtain ⟨label, hlabel⟩ := hl _ (List.getElem_mem hj)
  exact label_ne_of_labelFindings_eq_nil h (List.getElem?_eq_getElem hi)
    (List.getElem?_eq_getElem hj) hij hlabel

/-- Where every step has a label, the code for repeated labels does not occur exactly when the labels
are distinct. -/
theorem forall_code_ne_duplicateStoreAs_iff (hl : ∀ s ∈ w.steps, ∃ label, s.label = some label) :
    (∀ f ∈ w.findings cap name, f.code ≠ .duplicateStoreAs) ↔ (w.steps.map (·.label)).Nodup := by
  have hnil : w.labelFindings name = [] ↔ (w.steps.map (·.label)).Nodup :=
    labelFindings_eq_nil_iff hl
  rw [← hnil, List.eq_nil_iff_forall_not_mem]
  refine forall_congr' fun f => ?_
  have hmem : f ∈ w.findings cap name ∧ f.code = .duplicateStoreAs ↔ f ∈ w.labelFindings name :=
    w.mem_findings_duplicateStoreAs_iff
  rw [← hmem, not_and]

theorem nodup_labels_of_findings_eq_nil (h : w.findings cap name = []) :
    (w.steps.map (·.label)).Nodup :=
  (labelFindings_eq_nil_iff fun _ hs => (readable_of_findings_eq_nil h hs).label).1
    (findings_eq_nil_iff.1 h).2.2.1

/-- Where every declared group has a join, the groups that can be used are those declared. -/
theorem has_usableGroups_iff (h : ∀ g ∈ w.groups, ∃ join : Join, g.2.join = some join.name)
    {group : String} : w.usableGroups.has group = true ↔ group ∈ w.groups.names := by
  simp only [Table.has, Table.names, List.contains_iff_mem, usableGroups, List.mem_map,
    List.mem_filterMap]
  constructor
  · rintro ⟨used, ⟨g, hg, hjoin⟩, rfl⟩
    obtain ⟨join, -, rfl⟩ := Option.map_eq_some_iff.1 hjoin
    exact ⟨g, hg, rfl⟩
  · rintro ⟨g, hg, rfl⟩
    obtain ⟨join, hjoin⟩ := h g hg
    obtain ⟨join', hname⟩ := Option.isSome_iff_exists.1 (Join.isSome_ofName?_iff.2 ⟨join, rfl⟩)
    exact ⟨(g.1, join'), ⟨g, hg, by simp [hjoin, hname]⟩, rfl⟩

end AuthoredWorkflow

namespace AuthoredStep

variable {s : AuthoredStep} {w : AuthoredWorkflow} {cap : Nat} {l : Location}

theorem groupFindings_eq_nil_iff {groups : Table Join} :
    s.groupFindings groups l = [] ↔ ∀ group, s.group = some group → groups.has group = true := by
  unfold groupFindings
  cases s.group with
  | none => simp
  | some group => simp

theorem loopFinding?_eq_none_iff {target : String} {passes : Option Nat} :
    loopFinding? target passes cap = none ↔ ∃ n, passes = some n ∧ 1 ≤ n ∧ n ≤ cap := by
  unfold loopFinding?
  cases passes with
  | none => simp
  | some n => grind

theorem failureFindings_eq_nil_iff :
    s.failureFindings w cap l = [] ↔ ∀ f ∈ s.failures, f.IsBounded w cap := by
  have htarget : ∀ target, (w.labelIndex? target).isSome = true ↔
      ∃ s ∈ w.steps, s.label = some target := by
    simp [AuthoredWorkflow.labelIndex?, List.findIdx?_isSome, List.any_eq_true]
  unfold failureFindings
  rw [List.flatMap_eq_nil_iff]
  constructor
  · intro h f hf
    obtain ⟨i, hi⟩ := List.getElem?_of_mem hf
    have hnil := h (f, i) (List.mem_zipIdx_iff_getElem?.2 hi)
    dsimp only at hnil
    split at hnil
    · rename_i hgoto
      exact ⟨by simp [hgoto], by simp [hgoto]⟩
    · rename_i target hgoto
      simp only [List.append_eq_nil_iff, Option.toList_eq_nil_iff, Option.map_eq_none_iff,
        loopFinding?_eq_none_iff, ite_eq_left_iff, List.cons_ne_nil, imp_false, not_not,
        htarget] at hnil
      exact ⟨fun label hl => by rw [← Option.some.inj (hgoto.symm.trans hl)]; exact hnil.1,
        fun _ => hnil.2⟩
  · rintro h ⟨f, i⟩ hf
    obtain ⟨hstep, hpasses⟩ := h f (List.mem_of_getElem? (List.mem_zipIdx_iff_getElem?.1 hf))
    dsimp only
    split
    · rfl
    · rename_i target hgoto
      simp only [List.append_eq_nil_iff, Option.toList_eq_nil_iff, Option.map_eq_none_iff,
        loopFinding?_eq_none_iff, ite_eq_left_iff, List.cons_ne_nil, imp_false, not_not, htarget]
      exact ⟨hstep target hgoto, hpasses (by simp [hgoto])⟩

end AuthoredStep

namespace AuthoredWorkflow

variable {w : AuthoredWorkflow} {cap : Nat} {name : String}

/-- A document has no finding exactly when it is structured. -/
theorem findings_eq_nil_iff_isStructured : w.findings cap name = [] ↔ w.IsStructured cap := by
  constructor
  · intro h
    obtain ⟨hjoins, hempty, -, hsteps⟩ := findings_eq_nil_iff.1 h
    rw [groupFindings_eq_nil_iff] at hjoins
    have hstep : ∀ s ∈ w.steps, s.Readable ∧ (∀ group, s.group = some group →
        w.usableGroups.has group = true) ∧ ∀ f ∈ s.failures, f.IsBounded w cap := by
      intro s hs
      obtain ⟨i, hi⟩ := List.getElem?_of_mem hs
      simpa only [AuthoredStep.findings_eq_nil_iff, AuthoredStep.groupFindings_eq_nil_iff,
        AuthoredStep.failureFindings_eq_nil_iff] using hsteps i s hi
    exact {
      steps := emptyFindings_eq_nil_iff.1 hempty
      joins := hjoins
      readable := fun s hs => (hstep s hs).1
      labels := nodup_labels_of_findings_eq_nil h
      groups := fun s hs group hg =>
        (has_usableGroups_iff hjoins).1 ((hstep s hs).2.1 group hg)
      failures := fun s hs => (hstep s hs).2.2 }
  · intro h
    refine findings_eq_nil_iff.2 ⟨groupFindings_eq_nil_iff.2 h.joins,
      emptyFindings_eq_nil_iff.2 h.steps, labelFindings_eq_nil_of_nodup h.labels, fun i s hs => ?_⟩
    have hmem := List.mem_of_getElem? hs
    refine AuthoredStep.findings_eq_nil_iff.2 ⟨h.readable s hmem, ?_,
      AuthoredStep.failureFindings_eq_nil_iff.2 (h.failures s hmem)⟩
    exact AuthoredStep.groupFindings_eq_nil_iff.2 fun group hg =>
      (has_usableGroups_iff h.joins).2 (h.groups s hmem group hg)

end AuthoredWorkflow

/-! ## Their graphs -/

/-- A step of a graph holds what is written at a place of the document. -/
structure Step.Holds (p : Step) (i : Nat) (s : AuthoredStep) : Prop where
  index : p.index = i
  label : s.label = some p.label
  capability : s.capability = some p.capability
  group : p.group = s.group
  /-- The same fields are bound, to what the written values are read as. -/
  fields : p.bindings.names = s.bindings.names
  bindings : List.Forall₂ (fun v b => Binding.parse v.2 = .ok b.2) s.bindings p.bindings
  condition : Option.Rel (fun text e => Expression.parse text = .ok e) s.condition p.condition
  gates : List.Forall₂ (fun g q => Expression.parse g.condition = .ok q.condition ∧
    q.action = g.action ∧ q.message = g.message) s.gates p.gates
  failures : p.failures =
    s.failures.map fun f => ⟨f.condition, f.action, f.recovery, f.goto, f.maxLoops⟩

/-- Where each item has an image, the images of a list stand in its order. -/
theorem forall₂_filterMap {α β : Type} {R : α → β → Prop} {f : α → Option β} {l : List α}
    (h : ∀ a ∈ l, ∃ b, f a = some b ∧ R a b) : List.Forall₂ R l (l.filterMap f) := by
  induction l with
  | nil => exact .nil
  | cons a l ih =>
    obtain ⟨b, hb, hr⟩ := h a List.mem_cons_self
    rw [List.filterMap_cons_some hb]
    exact .cons hr (ih fun a' ha' => h a' (List.mem_cons_of_mem a ha'))

namespace AuthoredStep

theorem Readable.holds_toStep {s : AuthoredStep} (h : s.Readable) (i : Nat) :
    (s.toStep i).Holds i s := by
  obtain ⟨id, hid, -⟩ := h.capability
  obtain ⟨label, hlabel⟩ := h.label
  have hbindings : List.Forall₂ (fun v b => v.1 = b.1 ∧ Binding.parse v.2 = .ok b.2) s.bindings
      (s.toStep i).bindings := by
    refine forall₂_filterMap fun v hv => ?_
    obtain ⟨b, hb⟩ := h.bindings v hv
    exact ⟨(v.1, b), by simp [hb, Except.toOption], rfl, hb⟩
  refine ⟨rfl, by simp [toStep, hlabel], by simp [toStep, hid], rfl, ?_,
    hbindings.imp fun _ _ hvb => hvb.2, ?_, ?_, rfl⟩
  · refine List.ext_getElem (by simp [Table.names, hbindings.length_eq]) fun k h₁ h₂ => ?_
    simp only [Table.names, List.getElem_map]
    exact ((List.forall₂_iff_get.1 hbindings).2 k _ _).1.symm
  · cases htext : s.condition with
    | none =>
      rw [toStep, htext]
      exact .none
    | some text =>
      obtain ⟨e, he⟩ := h.condition text htext
      rw [toStep, htext, Option.bind_some, he]
      exact .some he
  · refine forall₂_filterMap fun g hg => ?_
    obtain ⟨e, he⟩ := h.gates g hg
    exact ⟨⟨e, g.action, g.message⟩, by simp [he, Except.toOption], he, rfl, rfl⟩

end AuthoredStep

namespace CatalogEntry

/-- Loading accepts exactly the structured documents. An accepted one has a graph with a step for
each written one, in their order; every finding about any other is an error of the first level. -/
theorem graph_isSome_iff_isStructured (cap : Nat) (name : String) (w : AuthoredWorkflow) :
    ((ofAuthored cap name w).graph.isSome = true ↔ (ofAuthored cap name w).findings = []) ∧
    ((ofAuthored cap name w).findings = [] ↔ w.IsStructured cap) ∧
    (∀ g, (ofAuthored cap name w).graph = some g → g.steps.length = w.steps.length ∧
      ∀ (i : Nat) (s : AuthoredStep), w.steps[i]? = some s →
        ∃ p : Step, g.steps[i]? = some p ∧ p.Holds i s) ∧
    (∀ f ∈ (ofAuthored cap name w).findings, f.IsStructuralError) := by
  have hgraph : ∀ g, (ofAuthored cap name w).graph = some g →
      (ofAuthored cap name w).findings = [] := by
    intro g hg
    unfold ofAuthored at hg ⊢
    dsimp only at hg ⊢
    split at hg
    · rename_i hempty
      exact List.isEmpty_iff.1 hempty
    · cases hg
  refine ⟨⟨fun h => ?_, fun h => ?_⟩, AuthoredWorkflow.findings_eq_nil_iff_isStructured,
    fun g hg => ?_, w.isStructuralError_findings cap name⟩
  · obtain ⟨g, hg⟩ := Option.isSome_iff_exists.1 h
    exact hgraph g hg
  · rw [graph_ofAuthored h]
    rfl
  · have hload : w.findings cap name = [] := hgraph g hg
    obtain rfl : w.graph name = g := Option.some.inj ((graph_ofAuthored hload).symm.trans hg)
    refine ⟨by simp [AuthoredWorkflow.graph, AuthoredWorkflow.indexed], fun i s hs => ?_⟩
    have hreadable :=
      AuthoredWorkflow.readable_of_findings_eq_nil hload (List.mem_of_getElem? hs)
    exact ⟨s.toStep i, by rw [AuthoredWorkflow.getElem?_steps_graph, hs]; rfl,
      hreadable.holds_toStep i⟩

end CatalogEntry

end CapabilityFlow
