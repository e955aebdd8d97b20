import CapabilityFlow.Proofs.Check.Predecessors
import CapabilityFlow.Proofs.Ontology.Validation
import CapabilityFlow.Proofs.Workflow.Structure
import Mathlib.Data.Fintype.EquivFin
import Mathlib.Data.Fintype.Sets
import Mathlib.Order.WellFounded

/-!
# An order for what is required

Requirements that an ontology accepts can be met: capabilities that are closed under requirements have an
order in which each comes after all that it requires (`Ontology.Acyclic.exists_isArranged`). A
workflow that runs them one after another in this order leaves no requirement unmet
(`Checker.exists_order_meeting_requirements`).
-/

namespace CapabilityFlow

namespace Ontology

variable {edges : List Edge} {ids : List String}

/-! ## Orders along requirements -/

/-- Each identifier comes after all that it requires. -/
inductive IsArranged (edges : List Edge) : List String → Prop where
  | nil : IsArranged edges []
  | concat {ids : List String} {id : String} (h : IsArranged edges ids)
      (hid : ∀ target, Requires edges id target → target ∈ ids) : IsArranged edges (ids ++ [id])

theorem IsArranged.mem_take (h : IsArranged edges ids) {i : Nat} {id target : String}
    (hi : ids[i]? = some id) (ht : Requires edges id target) : target ∈ ids.take i := by
  induction h with
  | nil => cases hi
  | @concat ids last _ hlast ih =>
    rcases Nat.lt_or_ge i ids.length with hlt | hge
    · rw [List.getElem?_append_left hlt] at hi
      rw [List.take_append_of_le_length (Nat.le_of_lt hlt)]
      exact ih hi
    · rw [List.getElem?_append_right hge] at hi
      obtain ⟨hzero, rfl⟩ : i - ids.length = 0 ∧ last = id := by
        simpa [List.getElem?_singleton] using hi
      obtain rfl : i = ids.length := by omega
      rw [List.take_left]
      exact hlast target ht

/-- Some identifier of a set is required by none of them. -/
theorem Acyclic.exists_last (h : Acyclic edges) {S : Finset String} (hS : S.Nonempty) :
    ∃ last ∈ S, ∀ id ∈ S, ¬Requires edges id last := by
  let before : S → S → Prop := fun a b => Relation.TransGen (Requires edges) a b
  have : IsTrans S before := ⟨fun _ _ _ => Relation.TransGen.trans⟩
  have : Std.Irrefl before := ⟨fun a => h a⟩
  obtain ⟨id, hid⟩ := hS
  obtain ⟨last, -, hlast⟩ := (Finite.wellFounded_of_trans_of_irrefl before).has_min Set.univ
    ⟨⟨id, hid⟩, trivial⟩
  exact ⟨last, last.2, fun id hid hr => hlast ⟨id, hid⟩ trivial (.single hr)⟩

/-- Identifiers that are closed under requirements can be arranged: one that is required by none of them
comes last, and the others are closed without it. -/
theorem Acyclic.exists_isArranged (h : Acyclic edges) {S : Finset String}
    (hS : ∀ id ∈ S, ∀ target, Requires edges id target → target ∈ S) :
    ∃ ids, IsArranged edges ids ∧ ids.Nodup ∧ ∀ id, id ∈ ids ↔ id ∈ S := by
  induction S using Finset.eraseInduction with
  | H S ih =>
    rcases S.eq_empty_or_nonempty with rfl | hne
    · exact ⟨[], .nil, List.nodup_nil, by simp⟩
    obtain ⟨last, hlast, hnone⟩ := h.exists_last hne
    obtain ⟨ids, harranged, hnodup, hmem⟩ := ih last hlast fun id hid target ht => by
      have hidS : id ∈ S := Finset.mem_of_mem_erase hid
      refine Finset.mem_erase.2 ⟨?_, hS id hidS target ht⟩
      rintro rfl
      exact hnone id hidS ht
    have hnew : last ∉ ids := fun hl => Finset.notMem_erase last S ((hmem last).1 hl)
    refine ⟨ids ++ [last], harranged.concat fun target ht => ?_, ?_, fun id => ?_⟩
    · refine (hmem target).2 (Finset.mem_erase.2 ⟨?_, hS last hlast target ht⟩)
      rintro rfl
      exact hnone _ hlast ht
    · exact List.nodup_append.2 ⟨hnodup, List.nodup_singleton last, fun a ha b hb => by
        rintro rfl
        exact hnew (List.mem_singleton.1 hb ▸ ha)⟩
    · rw [List.mem_append, List.mem_singleton, hmem, Finset.mem_erase]
      by_cases hid : id = last
      · simp [hid, hlast]
      · simp [hid]

end Ontology

/-! ## Running one after another -/

/-- A workflow runs capabilities one after another, and none of them side by side. -/
structure Workflow.RunsInTurn (w : Workflow) (ids : List String) : Prop where
  capabilities : w.steps.map (·.capability) = ids
  index_eq : ∀ i (s : Step), w.steps[i]? = some s → s.index = i
  alone : ∀ s ∈ w.steps, s.group = none

/-- The document of a workflow that runs capabilities one after another, each labelled by its name. -/
def AuthoredWorkflow.inTurn (ids : List String) : AuthoredWorkflow where
  steps := ids.map fun id => { capability := some id, label := some id }

namespace Checker

open Ontology

variable {c : Checker} {w : Workflow} {ids : List String}

/-- In an arrangement, all that a step requires runs before it. -/
theorem unmet_requires_eq_nil (hw : w.RunsInTurn ids) (h : IsArranged c.ontology.edges ids) {s : Step}
    (hs : s ∈ w.steps) : c.unmet w s .requires = [] := by
  obtain ⟨i, hi⟩ := List.getElem?_of_mem hs
  obtain rfl := hw.index_eq i s hi
  rw [unmet, List.filter_eq_nil_iff]
  intro target ht
  have hid : ids[s.index]? = some s.capability := by
    rw [← hw.capabilities, List.getElem?_map, hi]
    rfl
  have htake : target ∈ (w.steps.take s.index).map (·.capability) := by
    rw [List.map_take, hw.capabilities]
    exact h.mem_take hid (mem_neighbors_iff.1 ht)
  obtain ⟨t, htmem, rfl⟩ := List.mem_map.1 htake
  have halone : s.isSibling t = false := by simp [Step.isSibling, hw.alone s hs]
  have hsatisfied : c.isSatisfiedBefore w s t.capability = true :=
    List.any_eq_true.2 ⟨t, htmem, by simp [halone]⟩
  simp [hsatisfied]

theorem code_ne_requirementUnmet (hw : w.RunsInTurn ids) (h : IsArranged c.ontology.edges ids)
    {f : Finding} (hf : f ∈ c.relationFindings w) : f.code ≠ .requirementUnmet := by
  intro hcode
  simp only [relationFindings, List.mem_append] at hf
  rcases hf with (hf | hf) | hf
  · obtain ⟨s, hs, hf⟩ := List.mem_flatMap.1 hf
    unfold predecessorFindings at hf
    split at hf
    · cases hf
    · simp only [List.mem_append] at hf
      rcases hf with (hf | hf) | hf
      · rw [requirementFindings, unmet_requires_eq_nil hw h hs] at hf
        cases hf
      · cases hcode.symm.trans (of_mem_softRequirementFindings hf).1
      · cases hcode.symm.trans (of_mem_checkpointFindings hf).1
  · cases hcode.symm.trans (code_of_mem_conflictFindings hf)
  · cases hcode.symm.trans (code_of_mem_orderingFindings hf)

end Checker

namespace AuthoredWorkflow

variable {ids : List String} {cap : Nat} {name : String}

theorem isStructured_inTurn (hne : ids ≠ []) (hnodup : ids.Nodup)
    (hids : ∀ id ∈ ids, isWellFormedId id = true) : (inTurn ids).IsStructured cap where
  steps := by simpa [inTurn] using hne
  joins := by simp [inTurn]
  readable := by
    intro s hs
    obtain ⟨id, hid, rfl⟩ := List.mem_map.1 hs
    exact ⟨⟨id, rfl, hids id hid⟩, ⟨id, rfl⟩, by simp, by simp, by simp⟩
  labels := by
    rw [inTurn, List.map_map]
    exact hnodup.map fun a b h => Option.some.inj h
  groups := by
    intro s hs group hg
    obtain ⟨id, hid, rfl⟩ := List.mem_map.1 hs
    cases hg
  failures := by
    intro s hs f hf
    obtain ⟨id, hid, rfl⟩ := List.mem_map.1 hs
    cases hf

/-- The document is loaded, and its graph runs the capabilities in turn. -/
theorem exists_graph_inTurn (hne : ids ≠ []) (hnodup : ids.Nodup)
    (hids : ∀ id ∈ ids, isWellFormedId id = true) :
    ∃ w, (CatalogEntry.ofAuthored cap name (inTurn ids)).graph = some w ∧ w.RunsInTurn ids := by
  have hload : (inTurn ids).findings cap name = [] :=
    findings_eq_nil_iff_isStructured.2 (isStructured_inTurn hne hnodup hids)
  refine ⟨_, CatalogEntry.graph_ofAuthored hload, ?_, (wellFormed_graph hload).index_eq, ?_⟩
  · refine List.ext_getElem? fun i => ?_
    rw [List.getElem?_map, getElem?_steps_graph]
    cases h : ids[i]? <;> simp [inTurn, h, AuthoredStep.toStep]
  · intro s hs
    obtain ⟨i, t, ht, rfl⟩ := mem_steps_graph_iff.1 hs
    obtain ⟨id, -, rfl⟩ := List.mem_map.1 (List.mem_of_getElem? ht)
    rfl

end AuthoredWorkflow

namespace Checker

/-- Requirements that are accepted can be met: capabilities that are closed under requirements have an
order in which a workflow that runs each of them once, and none of them side by side, leaves no
requirement unmet. There is such a workflow, unless there is nothing to run. -/
theorem exists_order_meeting_requirements (version : Version) (capabilities : List Capability)
    (edges : List Edge) (o : Ontology) (ho : Ontology.build version capabilities edges = .ok o)
    (S : Finset String) (hS : ∀ id ∈ S, o.contains id = true)
    (hclosed : ∀ id ∈ S, ∀ target ∈ o.neighbors id .requires, target ∈ S) :
    ∃ ids : List String, ids.Nodup ∧ (∀ id, id ∈ ids ↔ id ∈ S) ∧
      (∀ c : Checker, c.ontology = o → ∀ w : Workflow, w.RunsInTurn ids →
        ∀ f ∈ c.relationFindings w, f.code ≠ .requirementUnmet) ∧
      (ids ≠ [] → ∀ cap name, ∃ w,
        (CatalogEntry.ofAuthored cap name (.inTurn ids)).graph = some w ∧ w.RunsInTurn ids) := by
  have hacyclic : Ontology.Acyclic o.edges := by
    rw [Ontology.eq_of_build ho]
    exact Ontology.acyclic_of_build ho
  obtain ⟨ids, harranged, hnodup, hmem⟩ := hacyclic.exists_isArranged fun id hid target ht =>
    hclosed id hid target (Ontology.mem_neighbors_iff.2 ht)
  refine ⟨ids, hnodup, hmem, ?_, fun hne cap name => ?_⟩
  · rintro c rfl w hw f hf
    exact code_ne_requirementUnmet hw harranged hf
  · refine AuthoredWorkflow.exists_graph_inTurn hne hnodup fun id hid => ?_
    obtain ⟨cap, hcap⟩ := Ontology.contains_iff.1 (hS id ((hmem id).1 hid))
    exact Ontology.isWellFormedId_of_build ho hcap

namespace Drafting

/-- `audit` requires `plan`, which requires `draft`. -/
def ontology : Ontology where
  version := default
  capabilities := Ontology.Loop.stages
  edges := [⟨"audit", "plan", .requires⟩, ⟨"plan", "draft", .requires⟩]

theorem build_ontology :
    Ontology.build ontology.version ontology.capabilities ontology.edges = .ok ontology :=
  Ontology.build_eq_ok ⟨by decide +kernel, by decide, by decide, by decide⟩
    (Ontology.acyclic_of_rank ["draft", "plan", "audit"].idxOf (by decide))

end Drafting

theorem exists_order_meeting_requirements_drafting :
    Ontology.build Drafting.ontology.version Drafting.ontology.capabilities
        Drafting.ontology.edges = .ok Drafting.ontology ∧
      (∀ id ∈ ({"audit", "plan", "draft"} : Finset String),
        Drafting.ontology.contains id = true) ∧
      (∀ id ∈ ({"audit", "plan", "draft"} : Finset String),
        ∀ target ∈ Drafting.ontology.neighbors id .requires,
          target ∈ ({"audit", "plan", "draft"} : Finset String)) ∧
      ∃ ids : List String, ids.Nodup ∧
        (∀ id, id ∈ ids ↔ id ∈ ({"audit", "plan", "draft"} : Finset String)) ∧
        (∀ c : Checker, c.ontology = Drafting.ontology → ∀ w : Workflow, w.RunsInTurn ids →
          ∀ f ∈ c.relationFindings w, f.code ≠ .requirementUnmet) ∧
        (ids ≠ [] → ∀ cap name, ∃ w,
          (CatalogEntry.ofAuthored cap name (.inTurn ids)).graph = some w ∧ w.RunsInTurn ids) :=
  have hS : ∀ id ∈ ({"audit", "plan", "draft"} : Finset String),
      Drafting.ontology.contains id = true := by decide
  have hclosed : ∀ id ∈ ({"audit", "plan", "draft"} : Finset String),
      ∀ target ∈ Drafting.ontology.neighbors id .requires,
        target ∈ ({"audit", "plan", "draft"} : Finset String) := by decide
  ⟨Drafting.build_ontology, hS, hclosed, exists_order_meeting_requirements _ _ _ _
    Drafting.build_ontology {"audit", "plan", "draft"} hS hclosed⟩

end Checker

end CapabilityFlow
