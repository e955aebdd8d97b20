import CapabilityFlow.Proofs.Patch.FreshLabels

/-!
# Documents with a patch

A patch of a coercion puts a step before the consumer and binds a field of the consumer to it.
`AuthoredWorkflow.mended` is the document then, and applying the two edits gives it
(`AuthoredWorkflow.applyAll_eq_mended`). No other step has the label of the new one
(`freshLabel_notMem`).
-/

namespace CapabilityFlow

/-! ## Places of steps -/

namespace AuthoredWorkflow

variable {w : AuthoredWorkflow} {label field : String} {i : Nat}

theorem stepPlace_eq_ok_iff :
    w.stepPlace label = .ok i ↔ w.steps.findIdx? (·.label = some label) = some i := by
  unfold stepPlace
  cases w.steps.findIdx? (·.label = some label) <;> simp

theorem exists_of_stepPlace_eq_ok (h : w.stepPlace label = .ok i) :
    ∃ s, w.steps[i]? = some s ∧ s.label = some label := by
  obtain ⟨hi, hp, -⟩ := List.findIdx?_eq_some_iff_getElem.1 (stepPlace_eq_ok_iff.1 h)
  exact ⟨w.steps[i], List.getElem?_eq_getElem hi, of_decide_eq_true hp⟩

theorem boundValue_eq_ok_iff {v : Value} : w.boundValue label field = .ok v ↔
    ∃ i s, w.stepPlace label = .ok i ∧ w.steps[i]? = some s ∧ s.bindings.get? field = some v := by
  unfold boundValue
  rw [Except.bind_eq_ok_iff]
  refine exists_congr fun i => ?_
  cases hs : w.steps[i]? with
  | none => simp
  | some s => cases hv : s.bindings.get? field <;> simp [hv]

end AuthoredWorkflow

theorem findIdx?_insertIdx {α : Type} {p : α → Bool} {x : α} (hx : p x = false) {l : List α}
    {i : Nat} (h : l.findIdx? p = some i) : (l.insertIdx i x).findIdx? p = some (i + 1) := by
  induction l generalizing i with
  | nil => simp at h
  | cons y l ih =>
    cases i with
    | zero => simpa [List.findIdx?_cons, hx] using h
    | succ i =>
      cases hy : p y with
      | true => simp [List.findIdx?_cons, hy] at h
      | false =>
        have hl : l.findIdx? p = some i := by simpa [List.findIdx?_cons, hy] using h
        simp [List.findIdx?_cons, hy, ih hl]

/-! ## Mended documents -/

theorem insertIdx_append_length {α : Type} (before after : List α) (x : α) :
    (before ++ after).insertIdx before.length x = before ++ x :: after := by
  induction before with
  | nil => rfl
  | cons y before ih => simp [ih]

theorem modify_append_length {α : Type} (before after : List α) (x : α) (f : α → α) :
    (before ++ x :: after).modify before.length f = before ++ f x :: after := by
  induction before with
  | nil => rfl
  | cons y before ih => simp [ih]

/-- A step with another value of one binding. -/
def AuthoredStep.rebound (s : AuthoredStep) (field : String) (v : Value) : AuthoredStep :=
  { s with bindings := s.bindings.set field v }

namespace AuthoredWorkflow

/-- A document with a new step at a place, and another value of a binding of the step that stood
there. -/
def mended (w : AuthoredWorkflow) (i : Nat) (new : AuthoredStep) (field : String) (v : Value) :
    AuthoredWorkflow :=
  { w with steps := (w.steps.insertIdx i new).modify (i + 1) (·.rebound field v) }

variable {w : AuthoredWorkflow} {i : Nat} {new s : AuthoredStep} {field : String} {v : Value}

/-- A mended document has the new step right before the step that stood at its place. -/
theorem exists_append_mended (hs : w.steps[i]? = some s) (new : AuthoredStep) (field : String)
    (v : Value) : ∃ before after, w.steps = before ++ s :: after ∧ before.length = i ∧
      (w.mended i new field v).steps = before ++ new :: s.rebound field v :: after := by
  obtain ⟨before, after, hsteps, rfl⟩ : ∃ before after, w.steps = before ++ s :: after ∧
      before.length = i := by
    obtain ⟨hi, rfl⟩ := List.getElem?_eq_some_iff.1 hs
    refine ⟨w.steps.take i, w.steps.drop (i + 1), ?_, List.length_take_of_le (Nat.le_of_lt hi)⟩
    rw [List.getElem_cons_drop, List.take_append_drop]
  refine ⟨before, after, hsteps, rfl, ?_⟩
  have hmodify := modify_append_length (before ++ [new]) after s (·.rebound field v)
  rw [List.length_append, List.append_assoc, List.append_assoc] at hmodify
  rw [mended, hsteps, insertIdx_append_length]
  exact hmodify

theorem getElem?_mended_of_lt {k : Nat} (hk : k < i) :
    (w.mended i new field v).steps[k]? = w.steps[k]? := by
  rw [mended, List.getElem?_modify_ne _ _ (by omega), List.getElem?_insertIdx_of_lt hk]

theorem getElem?_mended_of_gt {k : Nat} (hk : i < k) :
    (w.mended i new field v).steps[k + 1]? = w.steps[k]? := by
  rw [mended, List.getElem?_modify_ne _ _ (by omega), List.getElem?_insertIdx_of_gt (by omega),
    Nat.add_sub_cancel]

theorem getElem?_mended_self (hs : w.steps[i]? = some s) :
    (w.mended i new field v).steps[i]? = some new := by
  obtain ⟨before, after, -, rfl, hsteps⟩ := exists_append_mended hs new field v
  simp [hsteps]

theorem getElem?_mended_succ (hs : w.steps[i]? = some s) :
    (w.mended i new field v).steps[i + 1]? = some (s.rebound field v) := by
  obtain ⟨before, after, -, rfl, hsteps⟩ := exists_append_mended hs new field v
  simp [hsteps]

/-- Apart from the new step, each step of a mended document was there before, but for a binding. -/
theorem of_mem_mended (hs : w.steps[i]? = some s) {t : AuthoredStep}
    (ht : t ∈ (w.mended i new field v).steps) :
    t = new ∨ t = s.rebound field v ∨ t ∈ w.steps := by
  obtain ⟨before, after, hbefore, -, hsteps⟩ := exists_append_mended hs new field v
  rw [hsteps] at ht
  rw [hbefore]
  simp only [List.mem_append, List.mem_cons] at ht ⊢
  tauto

/-- Putting a step before the step of a label and then binding a field of the latter makes the
mended document. -/
theorem applyAll_eq_mended {label : String} {old old' : Value} (hi : w.stepPlace label = .ok i)
    (hnew : new.label ≠ some label) (hv : w.boundValue label field = .ok old) :
    PatchEdit.applyAll [.insert label new, .rebind label field old' v] w =
      (w.mended i new field v, none) := by
  obtain ⟨i', s, hi', hs, hold⟩ := boundValue_eq_ok_iff.1 hv
  obtain rfl : i = i' := Except.ok.inj (hi.symm.trans hi')
  let w₁ : AuthoredWorkflow := { w with steps := w.steps.insertIdx i new }
  have hplace : w₁.stepPlace label = .ok (i + 1) := by
    refine stepPlace_eq_ok_iff.2 (findIdx?_insertIdx ?_ (stepPlace_eq_ok_iff.1 hi))
    simpa using hnew
  have hstep : w₁.steps[i + 1]? = some s := by
    rw [List.getElem?_insertIdx_of_gt (by omega), Nat.add_sub_cancel, hs]
  have hbound : w₁.boundValue label field = .ok old :=
    boundValue_eq_ok_iff.2 ⟨i + 1, s, hplace, hstep, hold⟩
  have hinsert : (PatchEdit.insert label new).apply w = .ok w₁ := by
    simp only [PatchEdit.apply, hi]
    rfl
  have hrebind : (PatchEdit.rebind label field old' v).apply w₁ = .ok (w.mended i new field v) := by
    simp only [PatchEdit.apply, hplace, hbound]
    rfl
  simp only [PatchEdit.applyAll, hinsert, hrebind]

end AuthoredWorkflow

end CapabilityFlow
