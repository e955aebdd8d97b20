import CapabilityFlow.Proofs.Patch.Labels

/-!
# Patches that fail

An edit is made as a whole or not at all, and it fails exactly when the document misses what the edit
names (`PatchEdit.apply_eq_error_iff`). A patch is no such whole: the edits before the one that fails
stay made (`Patch.fails_iff_stopsAt`), so the document is as before when the first edit fails, and
never after a step was put in.
-/

namespace CapabilityFlow

/-! ## What an edit misses -/

/-- A document misses what an edit names: there is no step of the label, or the first one does not bind
the field. -/
inductive PatchEdit.Misses (w : AuthoredWorkflow) : PatchEdit → PatchError → Prop
  | anchor {before : String} {step : AuthoredStep}
      (h : ∀ s ∈ w.steps, s.label ≠ some before) :
      Misses w (.insert before step) (.stepNotFound before)
  | step {label field : String} {old new : Value}
      (h : ∀ s ∈ w.steps, s.label ≠ some label) :
      Misses w (.rebind label field old new) (.stepNotFound label)
  | binding {label field : String} {old new : Value} {before after : List AuthoredStep}
      {s : AuthoredStep} (hsteps : w.steps = before ++ s :: after)
      (hfirst : ∀ t ∈ before, t.label ≠ some label) (hlabel : s.label = some label)
      (hfield : field ∉ s.bindings.names) :
      Misses w (.rebind label field old new) (.bindingNotFound label field)

namespace AuthoredWorkflow

variable {w : AuthoredWorkflow} {label field : String} {cause : PatchError} {i : Nat}

theorem stepPlace_eq_error_iff : w.stepPlace label = .error cause ↔
    (∀ s ∈ w.steps, s.label ≠ some label) ∧ cause = .stepNotFound label := by
  unfold stepPlace
  cases h : w.steps.findIdx? (·.label = some label) with
  | none =>
    have hnone : ∀ s ∈ w.steps, s.label ≠ some label := by simpa using h
    simpa [eq_comm] using fun _ => hnone
  | some i =>
    obtain ⟨hi, hp, -⟩ := List.findIdx?_eq_some_iff_getElem.1 h
    simp only [reduceCtorEq, false_iff, not_and]
    exact fun hnone => absurd (of_decide_eq_true hp) (hnone _ (List.getElem_mem hi))

/-- The place of a label is that of the first step that has it. -/
theorem stepPlace_eq_ok_iff_append : w.stepPlace label = .ok i ↔
    ∃ before s after, w.steps = before ++ s :: after ∧ before.length = i ∧
      (∀ t ∈ before, t.label ≠ some label) ∧ s.label = some label := by
  rw [stepPlace_eq_ok_iff, List.findIdx?_eq_some_iff_getElem]
  constructor
  · rintro ⟨hi, hp, hfirst⟩
    refine ⟨w.steps.take i, w.steps[i], w.steps.drop (i + 1), ?_,
      List.length_take_of_le (Nat.le_of_lt hi), fun t ht => ?_, of_decide_eq_true hp⟩
    · rw [List.getElem_cons_drop, List.take_append_drop]
    · obtain ⟨k, hk, rfl⟩ := List.mem_take_iff_getElem.1 ht
      simpa using hfirst k (by omega)
  · rintro ⟨before, s, after, hsteps, rfl, hfirst, hlabel⟩
    refine ⟨by simp [hsteps], by simpa [hsteps] using hlabel, fun k hk => ?_⟩
    simpa [hsteps, hk] using hfirst _ (List.getElem_mem hk)

/-- A binding is not found when there is no step of the label, or when the first one does not bind the
field. -/
theorem boundValue_eq_error_iff : w.boundValue label field = .error cause ↔
    w.stepPlace label = .error cause ∨ ∃ i s, w.stepPlace label = .ok i ∧ w.steps[i]? = some s ∧
      field ∉ s.bindings.names ∧ cause = .bindingNotFound label field := by
  unfold boundValue
  rw [Except.bind_eq_error_iff]
  refine or_congr_right (exists_congr fun i => ?_)
  by_cases hi : w.stepPlace label = .ok i
  · obtain ⟨s, hs, -⟩ := exists_of_stepPlace_eq_ok hi
    cases hv : s.bindings.get? field with
    | none =>
      have hfield : field ∉ s.bindings.names := fun hmem => by
        obtain ⟨v, hv'⟩ := Table.exists_get?_of_mem_names hmem
        cases hv.symm.trans hv'
      simp [hi, hs, hv, hfield, eq_comm]
    | some v => simp [hi, hs, hv, Table.mem_names_of_get? hv]
  · simp [hi]

end AuthoredWorkflow

namespace PatchEdit

variable {e : PatchEdit} {es : List PatchEdit} {w w' : AuthoredWorkflow} {label field : String}
  {old new : Value} {cause : PatchError}

/-! ## One edit -/

/-- Whether a value can be bound anew is decided by looking for the binding. -/
theorem apply_rebind_eq_error_iff :
    (rebind label field old new).apply w = .error cause ↔ w.boundValue label field = .error cause := by
  rw [AuthoredWorkflow.boundValue_eq_error_iff, apply, Except.bind_eq_error_iff]
  refine or_congr_right (exists_congr fun i => ?_)
  rw [Except.bind_eq_error_iff]
  constructor
  · rintro ⟨hi, hv | ⟨_, -, ⟨⟩⟩⟩
    rcases AuthoredWorkflow.boundValue_eq_error_iff.1 hv with hnone | ⟨i', s, hi', hs⟩
    · cases hi.symm.trans hnone
    · cases hi.symm.trans hi'
      exact ⟨s, hi, hs⟩
  · rintro ⟨s, hi, hs⟩
    exact ⟨hi, .inl (AuthoredWorkflow.boundValue_eq_error_iff.2 (.inr ⟨i, s, hi, hs⟩))⟩

/-- An edit fails exactly when the document misses what it names. -/
theorem apply_eq_error_iff : e.apply w = .error cause ↔ e.Misses w cause := by
  constructor
  · intro h
    cases e with
    | insert before step =>
      rcases Except.bind_eq_error_iff.1 h with hplace | ⟨_, -, ⟨⟩⟩
      obtain ⟨hnone, rfl⟩ := AuthoredWorkflow.stepPlace_eq_error_iff.1 hplace
      exact .anchor hnone
    | rebind label field old new =>
      rcases AuthoredWorkflow.boundValue_eq_error_iff.1 (apply_rebind_eq_error_iff.1 h) with
        hplace | ⟨i, s, hi, hs, hfield, rfl⟩
      · obtain ⟨hnone, rfl⟩ := AuthoredWorkflow.stepPlace_eq_error_iff.1 hplace
        exact .step hnone
      · obtain ⟨before, t, after, hsteps, rfl, hfirst, hlabel⟩ :=
          AuthoredWorkflow.stepPlace_eq_ok_iff_append.1 hi
        obtain rfl : t = s := by simpa [hsteps] using hs
        exact .binding hsteps hfirst hlabel hfield
  · intro h
    cases h with
    | anchor hnone =>
      exact Except.bind_eq_error_iff.2
        (.inl (AuthoredWorkflow.stepPlace_eq_error_iff.2 ⟨hnone, rfl⟩))
    | step hnone =>
      rw [apply_rebind_eq_error_iff, AuthoredWorkflow.boundValue_eq_error_iff]
      exact .inl (AuthoredWorkflow.stepPlace_eq_error_iff.2 ⟨hnone, rfl⟩)
    | @binding _ _ _ _ before after s hsteps hfirst hlabel hfield =>
      rw [apply_rebind_eq_error_iff, AuthoredWorkflow.boundValue_eq_error_iff]
      refine .inr ⟨before.length, s, ?_, by simp [hsteps], hfield, rfl⟩
      exact AuthoredWorkflow.stepPlace_eq_ok_iff_append.2
        ⟨before, s, after, hsteps, rfl, hfirst, hlabel⟩

/-- Only the steps of a document are edited. -/
theorem with_steps_of_apply (h : e.apply w = .ok w') : { w' with steps := w.steps } = w := by
  cases e with
  | insert before step =>
    obtain ⟨i, -, h⟩ := Except.bind_eq_ok_iff.1 h
    cases h
    rfl
  | rebind label field old new =>
    obtain ⟨i, -, h⟩ := Except.bind_eq_ok_iff.1 h
    obtain ⟨_, -, h⟩ := Except.bind_eq_ok_iff.1 h
    cases h
    rfl

/-! ## Edits in turn -/

theorem with_steps_of_applyAll (h : applyAll es w = (w', none)) :
    { w' with steps := w.steps } = w := by
  induction es generalizing w with
  | nil =>
    cases h
    rfl
  | cons e rest ih =>
    rw [applyAll] at h
    cases he : e.apply w with
    | error cause =>
      rw [he] at h
      cases h
    | ok w₁ =>
      rw [he] at h
      calc { w' with steps := w.steps }
          = { { w' with steps := w₁.steps } with steps := w.steps } := rfl
        _ = { w₁ with steps := w.steps } := by rw [ih h]
        _ = w := with_steps_of_apply he

/-- There are more steps than before once a step was put in. -/
theorem ne_of_applyAll_insert {before : String} {step : AuthoredStep}
    (hmem : .insert before step ∈ es) (h : applyAll es w = (w', none)) : w' ≠ w := by
  rintro rfl
  have hlength := (perm_labels_of_applyAll h).length_eq
  have hlabel : step.label ∈ es.flatMap newLabels :=
    List.mem_flatMap.2 ⟨_, hmem, List.mem_singleton_self _⟩
  have hpos := List.length_pos_of_mem hlabel
  simp only [List.length_append, List.length_map] at hlength
  omega

/-- Edits fail at the first one that fails. -/
theorem applyAll_eq_error_iff : applyAll es w = (w', some cause) ↔
    ∃ done e rest, es = done ++ e :: rest ∧ applyAll done w = (w', none) ∧
      e.apply w' = .error cause := by
  constructor
  · intro h
    induction es generalizing w with
    | nil => cases h
    | cons e rest ih =>
      rw [applyAll] at h
      cases he : e.apply w with
      | error cause' =>
        rw [he] at h
        cases h
        exact ⟨[], e, rest, rfl, rfl, he⟩
      | ok w₁ =>
        rw [he] at h
        obtain ⟨done, e', rest', rfl, hdone, herror⟩ := ih h
        refine ⟨e :: done, e', rest', rfl, ?_, herror⟩
        rw [applyAll, he]
        exact hdone
  · rintro ⟨done, e, rest, rfl, hdone, herror⟩
    rw [applyAll_append, hdone]
    dsimp only
    rw [applyAll, herror]

end PatchEdit

/-! ## Patches -/

namespace Patch

/-- A patch stops at an edit: those before it are made, and the document that they make misses what this
one names. -/
structure StopsAt (p : Patch) (w w' : AuthoredWorkflow) (done : List PatchEdit) (e : PatchEdit)
    (cause : PatchError) : Prop where
  edits : ∃ rest, p.edits = done ++ e :: rest
  made : PatchEdit.applyAll done w = (w', none)
  misses : e.Misses w' cause

/-- A patch fails exactly when it stops at one of its edits, and then the document is what the edits
before that one have made: as before if there are none, and never as before if one of them puts in a
step. What is not a step stays as it was. -/
theorem fails_iff_stopsAt (p : Patch) (w w' : AuthoredWorkflow) (cause : PatchError) :
    (p.apply w = (w', some cause) ↔ ∃ done e, p.StopsAt w w' done e cause) ∧
    ∀ done e, p.StopsAt w w' done e cause → (done = [] → w' = w) ∧
      (∀ before step, .insert before step ∈ done → w' ≠ w) ∧ { w' with steps := w.steps } = w := by
  constructor
  · rw [apply, PatchEdit.applyAll_eq_error_iff]
    constructor
    · rintro ⟨done, e, rest, hedits, hmade, herror⟩
      exact ⟨done, e, ⟨rest, hedits⟩, hmade, PatchEdit.apply_eq_error_iff.1 herror⟩
    · rintro ⟨done, e, ⟨rest, hedits⟩, hmade, hmisses⟩
      exact ⟨done, e, rest, hedits, hmade, PatchEdit.apply_eq_error_iff.2 hmisses⟩
  · intro done e h
    refine ⟨?_, fun before step hmem => PatchEdit.ne_of_applyAll_insert hmem h.made,
      PatchEdit.with_steps_of_applyAll h.made⟩
    rintro rfl
    cases h.made
    rfl

namespace Sample

def document : AuthoredWorkflow where
  steps := [
    { capability := some "search", label := some "s" },
    { capability := some "detect", label := some "d", bindings := [("source", .str "x")] }]

/-- Puts in a step, and then names a field that is not bound. -/
def misnamed : Patch where
  workflow := "w"
  step := "d"
  field := "size"
  found := "string"
  expected := "integer"
  capability := "convert"
  edits := [
    .insert "d" { capability := some "convert", label := some "c" },
    .rebind "d" "size" .null (.int 1)]
  diff := ""

end Sample

/-- A patch that fails may leave a step behind. -/
theorem not_forall_unchanged : ¬ ∀ (p : Patch) (w : AuthoredWorkflow),
    (p.apply w).2 ≠ none → (p.apply w).1 = w := by
  intro h
  have hfails : (Sample.misnamed.apply Sample.document).2 = some (.bindingNotFound "d" "size") := by
    decide +kernel
  have hlength : (Sample.misnamed.apply Sample.document).1.steps.length = 3 := by decide +kernel
  rw [h Sample.misnamed Sample.document (by rw [hfails]; nofun)] at hlength
  cases hlength

end Patch

end CapabilityFlow
