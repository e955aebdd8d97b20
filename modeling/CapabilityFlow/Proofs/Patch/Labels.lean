import CapabilityFlow.Proofs.Patch.Order
import Mathlib.Data.List.Flatten

/-!
# Labels of inserted steps

The patches of a report are for different bindings (`Checker.nodup_places_patches`), so all of them
can be applied in turn. The label of an inserted step is made of the label of the consumer and the
field, joined by a low line, and it is fresh in the document that the patches are made for. It need
not be fresh among the other patches: two patches insert the same label exactly when the joined
texts are the same (`freshLabel_coerced_inj`), and then the document with all patches has it twice
(`Checker.labelledByJoined_patchesFor`).
-/

namespace CapabilityFlow

/-! ## Labels that are made -/

/-- An alternative ends in a digit. -/
theorem numbered_ne_coerced (base text : String) (n : Nat) :
    numbered base n ≠ text ++ "_coerced" := by
  intro h
  obtain ⟨front, c, hdigits⟩ :=
    (List.eq_nil_or_concat (Nat.toDigits 10 n)).resolve_left Nat.toDigits_ne_nil
  have hlist : (base.toList ++ '_' :: front) ++ [c] =
      (text.toList ++ ['_', 'c', 'o', 'e', 'r', 'c', 'e']) ++ ['d'] := by
    have htext := congrArg String.toList h
    rw [toList_numbered, hdigits, String.toList_append] at htext
    simpa using htext
  obtain rfl := List.singleton_inj.1 (List.append_inj_right' hlist rfl)
  have hd : 'd' ∈ Nat.toDigits 10 n := by simp [hdigits]
  cases Nat.isDigit_of_mem_toDigits (by decide) (by decide) hd

/-- Fresh labels are the same exactly when they are made of the same text: the alternatives to one
text are no alternatives to another. -/
theorem freshLabel_coerced_inj {taken : List String} {text text' : String} :
    freshLabel taken (text ++ "_coerced") = freshLabel taken (text' ++ "_coerced") ↔
      text = text' := by
  constructor
  · intro h
    rcases freshLabel_eq taken (text ++ "_coerced") with hbase | ⟨m, hm⟩
    · rcases freshLabel_eq taken (text' ++ "_coerced") with hbase' | ⟨n, hn⟩
      · rw [hbase, hbase'] at h
        exact (String.append_left_inj _).1 h
      · rw [hbase, hn] at h
        exact absurd h.symm (numbered_ne_coerced _ _ _)
    · rcases freshLabel_eq taken (text' ++ "_coerced") with hbase' | ⟨n, hn⟩
      · rw [hm, hbase'] at h
        exact absurd h (numbered_ne_coerced _ _ _)
      · rw [hm, hn] at h
        exact (String.append_left_inj _).1 (numbered_inj.1 h).1
  · rintro rfl
    rfl

/-! ## Labels of edited documents -/

namespace PatchEdit

/-- The label of the step that an edit puts in, if it puts one in. -/
def newLabels : PatchEdit → List (Option String)
  | insert _ step => [step.label]
  | rebind .. => []

/-- An edit adds the label of the step that it puts in, and keeps all others. -/
theorem perm_labels_of_apply {e : PatchEdit} {w w' : AuthoredWorkflow} (h : e.apply w = .ok w') :
    (w'.steps.map (·.label)).Perm (e.newLabels ++ w.steps.map (·.label)) := by
  cases e with
  | insert before step =>
    obtain ⟨i, hi, h⟩ := Except.bind_eq_ok_iff.1 h
    cases h
    obtain ⟨s, hs, -⟩ := AuthoredWorkflow.exists_of_stepPlace_eq_ok hi
    have hle : i ≤ w.steps.length := Nat.le_of_lt (List.getElem?_eq_some_iff.1 hs).1
    exact (List.perm_insertIdx step w.steps hle).map (·.label)
  | rebind label field old v =>
    obtain ⟨i, -, h⟩ := Except.bind_eq_ok_iff.1 h
    obtain ⟨_, -, h⟩ := Except.bind_eq_ok_iff.1 h
    cases h
    refine List.Perm.of_eq (List.ext_getElem? fun k => ?_)
    rw [newLabels, List.nil_append, List.getElem?_map, List.getElem?_map, List.getElem?_modify]
    cases w.steps[k]? with
    | none => rfl
    | some s => by_cases hk : i = k <;> simp [hk]

/-- Edits add the labels of the steps that they put in, and keep all others. -/
theorem perm_labels_of_applyAll {es : List PatchEdit} {w w' : AuthoredWorkflow}
    (h : applyAll es w = (w', none)) :
    (w'.steps.map (·.label)).Perm (es.flatMap newLabels ++ w.steps.map (·.label)) := by
  induction es generalizing w with
  | nil =>
    cases h
    exact List.Perm.refl _
  | cons e rest ih =>
    rw [applyAll] at h
    cases he : e.apply w with
    | error cause =>
      rw [he] at h
      cases h
    | ok w₁ =>
      rw [he] at h
      have hrest := (ih h).trans ((perm_labels_of_apply he).append_left _)
      rw [List.flatMap_cons, List.append_assoc]
      exact hrest.trans (List.perm_append_comm_assoc _ _ _)

end PatchEdit

namespace Patch

variable {a : AuthoredWorkflow} {p : Patch} {consumer new : AuthoredStep} {old v : Value}

theorem Mends.newLabels_edits (h : p.Mends a consumer new old v) :
    p.edits.flatMap PatchEdit.newLabels = [p.insertedLabel?] := by
  rw [insertedLabel?, h.edits]
  cases hl : new.label <;> simp [PatchEdit.newLabels, hl]

theorem Mends.insertedLabel?_notMem (h : p.Mends a consumer new old v) :
    p.insertedLabel? ∉ a.steps.map (·.label) := by
  have hl : p.insertedLabel? = new.label := by
    rw [insertedLabel?, h.edits]
    cases hl : new.label <;> simp [hl]
  rw [hl]
  exact h.fresh

theorem flatMap_newLabels_allEdits {ps : List Patch}
    (h : ∀ p ∈ ps, ∃ consumer new old v, p.Mends a consumer new old v) :
    (allEdits ps).flatMap PatchEdit.newLabels = ps.map (·.insertedLabel?) := by
  rw [allEdits, List.flatMap_assoc, List.map_eq_flatMap]
  refine List.flatMap_congr fun p hp => ?_
  obtain ⟨consumer, new, old, v, hmends⟩ := h p hp
  exact hmends.newLabels_edits

/-- Patches of different bindings can all be applied, and then the document has the labels that it
had and those of the inserted steps. -/
theorem exists_applyAll_eq {cap : Nat} {name : String} (honce : a.BindsOnce)
    (hload : a.findings cap name = []) {ps : List Patch}
    (h : ∀ p ∈ ps, ∃ consumer new old v, p.Mends a consumer new old v)
    (hdistinct : (ps.map fun p => (p.step, p.field)).Nodup) :
    ∃ b, applyAll ps a = (b, none) ∧
      (b.steps.map (·.label)).Perm (ps.map (·.insertedLabel?) ++ a.steps.map (·.label)) := by
  have hlabels := AuthoredWorkflow.nodup_labels_of_findings_eq_nil hload
  have hrun : PatchEdit.applyAll (allEdits ps) (a.edited []) = (a.edited ([] ++ allEdits ps), none) :=
    AuthoredWorkflow.applyAll_edited (suits_allEdits h hdistinct) hlabels honce
  rw [a.edited_nil, List.nil_append] at hrun
  have hperm := PatchEdit.perm_labels_of_applyAll hrun
  rw [flatMap_newLabels_allEdits h] at hperm
  exact ⟨a.edited (allEdits ps), by rw [applyAll_eq, hrun], hperm⟩

/-- The text by which the inserted step is labelled. -/
def joined (p : Patch) : String :=
  p.step ++ "_" ++ p.field

/-- Patches of a document are for different bindings and put in steps of fresh labels, and they can
all be applied. Whether labels are distinct, among the new steps and in the document afterwards,
depends on the texts by which the new steps are labelled. -/
structure LabelledByJoined (ps : List Patch) (a : AuthoredWorkflow) (name : String) : Prop where
  places : (ps.map fun p => (p.step, p.field)).Nodup
  fresh : ∀ p ∈ ps, ∃ label, p.insertedLabel? = some label ∧ label ∉ a.labels
  inserted : (ps.map (·.insertedLabel?)).Nodup ↔ (ps.map joined).Nodup
  applied : ∃ b, applyAll ps a = (b, none) ∧
    ((b.steps.map (·.label)).Nodup ↔ (ps.map joined).Nodup) ∧
    ∀ cap, (∀ f ∈ b.findings cap name, f.code ≠ .duplicateStoreAs) ↔ (ps.map joined).Nodup

end Patch

/-! ## Places of mismatches -/

/-- The labels and the fields at which mismatches are found. -/
def Finding.mismatchPlaces (fs : List Finding) : List (Option String × Option String) :=
  (fs.filter (·.code = .typeMismatch)).map fun f => (f.location.step, f.location.field)

namespace Finding

theorem mismatchPlaces_append (fs gs : List Finding) :
    mismatchPlaces (fs ++ gs) = mismatchPlaces fs ++ mismatchPlaces gs := by
  rw [mismatchPlaces, List.filter_append, List.map_append]
  rfl

theorem mismatchPlaces_flatMap {α : Type} (l : List α) (g : α → List Finding) :
    mismatchPlaces (l.flatMap g) = l.flatMap fun x => mismatchPlaces (g x) := by
  rw [mismatchPlaces, List.filter_flatMap, List.map_flatMap]
  rfl

theorem mismatchPlaces_eq_nil {fs : List Finding} (h : ∀ f ∈ fs, f.code ≠ .typeMismatch) :
    mismatchPlaces fs = [] := by
  rw [mismatchPlaces, List.map_eq_nil_iff, List.filter_eq_nil_iff]
  intro f hf
  simpa using h f hf

theorem mismatchPlaces_eq_nil_of_level {fs : List Finding} {l : Level} (hl : l ≠ .contracts)
    (h : ∀ f ∈ fs, f.level = l) : mismatchPlaces fs = [] := by
  refine mismatchPlaces_eq_nil fun f hf hcode => hl ?_
  rw [← h f hf, Finding.level, hcode]
  rfl

end Finding

open Finding

namespace Scope

variable {s : Scope} {consumer : Step}

/-- A binding has at most one mismatch. -/
theorem mismatchPlaces_bindingFindings_sublist (cap : Capability) (l : Location)
    (b : String × Binding) :
    (mismatchPlaces (s.bindingFindings consumer cap l b)).Sublist [(l.step, some b.1)] := by
  unfold bindingFindings
  dsimp only
  rw [mismatchPlaces_append, mismatchPlaces_eq_nil fun f hf => code_ne_of_mem_undeclaredFindings hf,
    List.nil_append]
  split
  · rw [mismatchPlaces_eq_nil]
    · exact List.nil_sublist _
    · intro f hf
      obtain ⟨fault, -, rfl⟩ := List.mem_map.1 hf
      exact code_ofFault_ne _ _
  · split
    · exact List.nil_sublist _
    · exact List.Sublist.refl _
  · exact List.nil_sublist _

/-- The mismatches of a step are at different bindings, in their order. -/
theorem mismatchPlaces_stepFindings_sublist (s : Scope) (consumer : Step) :
    (mismatchPlaces (s.stepFindings consumer)).Sublist
      (consumer.bindings.map fun b => (some consumer.label, some b.1)) := by
  unfold stepFindings
  split
  · exact List.nil_sublist _
  rename_i cap _
  dsimp only
  rw [List.append_assoc, List.append_assoc, mismatchPlaces_append, mismatchPlaces_flatMap,
    List.map_eq_flatMap]
  -- Missing inputs, the condition and the gates have findings of other kinds.
  rw [mismatchPlaces_eq_nil, List.append_nil]
  · exact List.Sublist.flatMap_right _ fun b _ => mismatchPlaces_bindingFindings_sublist cap _ b
  · intro f hf
    simp only [List.mem_append] at hf
    rcases hf with hf | hf | hf
    · obtain ⟨field, -, rfl⟩ := List.mem_map.1 hf
      exact nofun
    · split at hf
      · exact code_ne_of_mem_expressionFindings hf
      · cases hf
    · obtain ⟨g, -, hf⟩ := List.mem_flatMap.1 hf
      exact code_ne_of_mem_expressionFindings hf

end Scope

namespace Checker

variable {c : Checker} {w : Workflow} {e : CatalogEntry}

/-- All mismatches of a check are at different bindings. -/
theorem nodup_mismatchPlaces (he : e.Loaded) (hw : w.WellFormed)
    (honce : ∀ s ∈ w.steps, s.bindings.names.Nodup) :
    (mismatchPlaces (c.structureFindings e ++ c.graphFindings w)).Nodup := by
  have hstructure : mismatchPlaces (c.structureFindings e) = [] :=
    mismatchPlaces_eq_nil_of_level (by decide) fun f hf => c.level_of_mem_structureFindings he hf
  have hrelations : mismatchPlaces (c.relationFindings w) = [] :=
    mismatchPlaces_eq_nil_of_level (by decide) fun f hf => c.level_of_mem_relationFindings w hf
  have hpolicy : mismatchPlaces (c.policyFindings w (c.policySteps w)) = [] :=
    mismatchPlaces_eq_nil_of_level (by decide) fun f hf => (c.of_mem_policyFindings w hf).1
  have hinputs : mismatchPlaces (inputsFindings w (c.inputsType w)) = [] := by
    cases c.inputsType w <;> rfl
  rw [graphFindings_eq, mismatchPlaces_append, mismatchPlaces_append, mismatchPlaces_append,
    hstructure, hrelations, hpolicy, contractFindings, mismatchPlaces_append, hinputs,
    mismatchPlaces_flatMap, List.nil_append, List.nil_append, List.nil_append, List.append_nil]
  have hsteps : (c.contractSteps w).Sublist w.steps := List.filter_sublist
  refine List.nodup_flatMap.2 ⟨fun s hs => ?_, ?_⟩
  · refine List.Nodup.sublist (Scope.mismatchPlaces_stepFindings_sublist _ s) ?_
    have hnames := (honce s (hsteps.subset hs)).map (f := fun name => (some s.label, some name))
      fun _ _ h => Option.some.inj (Prod.mk.inj h).2
    rwa [Table.names, List.map_map] at hnames
  · have hlabels := (hw.labels_nodup.sublist (hsteps.map _))
    rw [List.Nodup, List.pairwise_map] at hlabels
    refine hlabels.imp fun {s t} hne place hs ht => hne ?_
    have hs := (Scope.mismatchPlaces_stepFindings_sublist _ s).subset hs
    have ht := (Scope.mismatchPlaces_stepFindings_sublist _ t).subset ht
    obtain ⟨b, -, rfl⟩ := List.mem_map.1 hs
    obtain ⟨b', -, h⟩ := List.mem_map.1 ht
    exact (Option.some.inj (Prod.mk.inj h).1).symm

/-- A patch is for the binding at which its mismatch is found. -/
theorem map_place_filterMap_patchOf_sublist (c : Checker) (w : Workflow) (e : CatalogEntry)
    (fs : List Finding) :
    ((fs.filterMap (c.patchOf w e)).map fun p => (some p.step, some p.field)).Sublist
      (mismatchPlaces fs) := by
  induction fs with
  | nil => exact List.nil_sublist _
  | cons f rest ih =>
    rw [← List.singleton_append, mismatchPlaces_append]
    cases hp : c.patchOf w e f with
    | none =>
      rw [List.singleton_append, List.filterMap_cons_none hp]
      exact ih.trans (List.sublist_append_right _ _)
    | some p =>
      obtain ⟨r, a, -, -, hpatch⟩ := of_patchOf_eq_some hp
      obtain ⟨types, label, field, coercion, -, hlabel, hfield, -, -, hmake⟩ :=
        of_patchFor_eq_ok hpatch
      obtain ⟨old, -, rfl, rfl, -, -⟩ := of_patch_eq_ok hmake
      have hcode := c.code_of_patchOf_eq_some w hp
      have hplace : mismatchPlaces [f] = [(some p.step, some p.field)] := by
        simp [mismatchPlaces, hcode, hlabel, hfield]
      rw [List.singleton_append, List.filterMap_cons_some hp, hplace]
      exact ih.cons_cons _

/-! ## The patches of a report -/

/-- The patches that a check of a document offers. -/
def patchesFor (c : Checker) (cap : Nat) (name : String) (a : AuthoredWorkflow) : List Patch :=
  (c.check (.ofAuthored cap name a)).patches

variable {a : AuthoredWorkflow} {cap : Nat} {name : String}

/-- The patches of a report are for different bindings. -/
theorem nodup_places_patches (honce : a.BindsOnce) (hload : a.findings cap name = []) :
    ((c.patchesFor cap name a).map fun p => (p.step, p.field)).Nodup := by
  by_cases hnil : c.patchesFor cap name a = []
  · rw [hnil]
    exact List.nodup_nil
  obtain ⟨p, hp⟩ := List.exists_mem_of_ne_nil _ hnil
  have hw := CatalogEntry.graph_ofAuthored hload
  have hpatches : c.patchesFor cap name a =
      (c.structureFindings (.ofAuthored cap name a) ++ c.graphFindings (a.graph name)).filterMap
        (c.patchOf (a.graph name) (.ofAuthored cap name a)) := by
    rw [patchesFor, check_of_not_isHalting (not_isHalting_of_mem_patches hp) hw]
    rfl
  have honce' : ∀ s ∈ (a.graph name).steps, s.bindings.names.Nodup := by
    intro s hs
    obtain ⟨i, t, ht, rfl⟩ := AuthoredWorkflow.mem_steps_graph_iff.1 hs
    exact (honce t (List.mem_of_getElem? ht)).sublist AuthoredStep.names_bindings_toStep_sublist
  have hplaces := (c.nodup_mismatchPlaces (.authored cap name a)
    (AuthoredWorkflow.wellFormed_graph hload) honce').sublist
      (c.map_place_filterMap_patchOf_sublist (a.graph name) (.ofAuthored cap name a) _)
  rw [← hpatches] at hplaces
  refine List.Nodup.of_map (fun place => (some place.1, some place.2)) ?_
  rwa [List.map_map]

theorem insertedLabel?_of_mem_patches (honce : a.BindsOnce) (hload : a.findings cap name = [])
    {p : Patch} (hp : p ∈ c.patchesFor cap name a) :
    p.insertedLabel? = some (freshLabel a.labels (p.joined ++ "_coerced")) := by
  obtain ⟨m, hm, hmakes⟩ := exists_offers_of_mem_patches hload honce hp
  have hinserted : p.insertedLabel? = some m.inserted := by
    rw [Patch.insertedLabel?, hmakes.edits]
    rfl
  rw [hinserted, hm.inserted, Patch.joined, hmakes.step, hmakes.field]
  rfl

theorem exists_mends_of_mem_patches (hload : a.findings cap name = []) {p : Patch}
    (hp : p ∈ c.patchesFor cap name a) : ∃ consumer new old v, p.Mends a consumer new old v := by
  obtain ⟨f, -, hf⟩ := exists_finding_of_mem_patches hload hp
  obtain ⟨r, a', -, ha', hpatch⟩ := of_patchOf_eq_some hf
  obtain rfl := Option.some.inj ha'
  exact Patch.exists_mends_of_patchFor hpatch

/-- All patches of a report can be applied, and each puts in a step whose label is not taken in the
document. The labels are distinct afterwards exactly when no two patches are labelled by the same
text. -/
theorem labelledByJoined_patchesFor (c : Checker) (cap : Nat) (name : String) (a : AuthoredWorkflow)
    (honce : a.BindsOnce) (hload : a.findings cap name = []) :
    Patch.LabelledByJoined (c.patchesFor cap name a) a name := by
  have hplaces := c.nodup_places_patches honce hload
  have hinserted : ∀ p ∈ c.patchesFor cap name a, p.insertedLabel? =
      some (freshLabel a.labels (p.joined ++ "_coerced")) :=
    fun p hp => insertedLabel?_of_mem_patches honce hload hp
  have hiff : ((c.patchesFor cap name a).map (·.insertedLabel?)).Nodup ↔
      ((c.patchesFor cap name a).map Patch.joined).Nodup := by
    have hmap : (c.patchesFor cap name a).map (·.insertedLabel?) =
        ((c.patchesFor cap name a).map Patch.joined).map fun text =>
          some (freshLabel a.labels (text ++ "_coerced")) := by
      rw [List.map_map]
      exact List.map_congr_left hinserted
    rw [hmap]
    exact List.nodup_map_iff fun _ _ h => freshLabel_coerced_inj.1 (Option.some.inj h)
  obtain ⟨b, hb, hperm⟩ := Patch.exists_applyAll_eq honce hload
    (fun p hp => exists_mends_of_mem_patches hload hp) hplaces
  have hlabels : (b.steps.map (·.label)).Nodup ↔
      ((c.patchesFor cap name a).map Patch.joined).Nodup := by
    rw [hperm.nodup_iff, List.nodup_append, ← hiff]
    refine ⟨fun h => h.1, fun h => ⟨h, AuthoredWorkflow.nodup_labels_of_findings_eq_nil hload, ?_⟩⟩
    rintro label hlabel _ hmem rfl
    obtain ⟨p, hp, rfl⟩ := List.mem_map.1 hlabel
    obtain ⟨consumer, new, old, v, hmends⟩ := exists_mends_of_mem_patches hload hp
    exact hmends.insertedLabel?_notMem hmem
  have hlabelled : ∀ s ∈ b.steps, ∃ label, s.label = some label := by
    intro s hs
    rcases List.mem_append.1 (hperm.mem_iff.1 (List.mem_map_of_mem hs)) with hmem | hmem
    · obtain ⟨p, hp, hl⟩ := List.mem_map.1 hmem
      exact ⟨_, hl.symm.trans (hinserted p hp)⟩
    · obtain ⟨t, ht, hl⟩ := List.mem_map.1 hmem
      obtain ⟨label, hlabel⟩ := (AuthoredWorkflow.readable_of_findings_eq_nil hload ht).label
      exact ⟨label, hl.symm.trans hlabel⟩
  refine ⟨hplaces, fun p hp => ⟨_, hinserted p hp, freshLabel_notMem _ _⟩, hiff, b, hb, hlabels, ?_⟩
  intro cap'
  rw [AuthoredWorkflow.forall_code_ne_duplicateStoreAs_iff hlabelled, hlabels]

namespace Sample

/-- Shows what is counted, twice, and has a step whose label a patch would give to its own. -/
def takenWorkflow : AuthoredWorkflow where
  steps := [
    { capability := some "count", label := some "c" },
    { capability := some "count", label := some "v_text_coerced" },
    { capability := some "show", label := some "v"
      bindings := [("text", .str (spanText "c.n")), ("title", .str (spanText "c.n"))] }]

end Sample

open Sample in
theorem labelledByJoined_patchesFor_sample : takenWorkflow.BindsOnce ∧
    takenWorkflow.findings 10 "w" = [] ∧
    (pairChecker.patchesFor 10 "w" takenWorkflow).map (fun p => (p.joined, p.insertedLabel?)) =
      [("v_text", some "v_text_coerced_2"), ("v_title", some "v_title_coerced")] ∧
    Patch.LabelledByJoined (pairChecker.patchesFor 10 "w" takenWorkflow) takenWorkflow "w" := by
  have honce : takenWorkflow.BindsOnce := by
    unfold AuthoredWorkflow.BindsOnce
    decide +kernel
  have hload : takenWorkflow.findings 10 "w" = [] := by decide +kernel
  exact ⟨honce, hload, by decide +kernel,
    labelledByJoined_patchesFor pairChecker 10 "w" takenWorkflow honce hload⟩

namespace Sample

/-- `count` yields an integer, and `show` takes texts. -/
def joinOntology : Ontology where
  version := ⟨1, 0, 0, "", ""⟩
  capabilities := [
    capability "count" .anyObject (.object [("n", .scalar .integer)] [] false),
    capability "print" .anyObject (.object [("text", .scalar .string)] [] false),
    capability "show" (.object [("c", .scalar .string), ("b_c", .scalar .string)] [] false)
      .anyObject]
  edges := []

/-- The field `c` at the step `a_b`, and the field `b_c` at the step `a`. -/
def joinWorkflow : AuthoredWorkflow where
  steps := [
    { capability := some "count", label := some "c" },
    { capability := some "show", label := some "a_b", bindings := [("c", .str (spanText "c.n"))] },
    { capability := some "show", label := some "a", bindings := [("b_c", .str (spanText "c.n"))] }]

def joinChecker : Checker := { ontology := joinOntology, registry := some registry }

end Sample

/-- Two patches of one report may insert steps of one label. -/
theorem not_forall_nodup_insertedLabels : ¬ ∀ (c : Checker) (cap : Nat) (name : String)
    (a : AuthoredWorkflow), a.BindsOnce → a.findings cap name = [] →
      ((c.patchesFor cap name a).map (·.insertedLabel?)).Nodup ∧
        (∀ p ∈ c.patchesFor cap name a,
          ∃ label, p.insertedLabel? = some label ∧ label ∉ a.labels) ∧
        ∀ f ∈ (Patch.applyAll (c.patchesFor cap name a) a).1.findings cap name,
          f.code ≠ .duplicateStoreAs := by
  intro h
  have honce : Sample.joinWorkflow.BindsOnce := by
    unfold AuthoredWorkflow.BindsOnce
    decide +kernel
  obtain ⟨-, -, hfree⟩ := h Sample.joinChecker 10 "w" Sample.joinWorkflow honce (by decide +kernel)
  have hfound : ∃ f ∈ (Patch.applyAll (Sample.joinChecker.patchesFor 10 "w" Sample.joinWorkflow)
      Sample.joinWorkflow).1.findings 10 "w", f.code = .duplicateStoreAs := by
    decide +kernel
  obtain ⟨f, hf, hcode⟩ := hfound
  exact hfree f hf hcode

end Checker

end CapabilityFlow
