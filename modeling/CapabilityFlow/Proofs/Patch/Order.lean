import CapabilityFlow.Proofs.Patch.Repair
import CapabilityFlow.Proofs.Workflow.Structure

/-!
# Several patches of one document

What edits do to a document is read off the document and the edits (`AuthoredWorkflow.edited`):
each step stands after the new steps that are put before it, and its bindings hold the new values in
their places. Edits that suit a document make exactly that, one after another
(`AuthoredWorkflow.applyAll_edited`), so that patches of one document can be applied in any order
(`Patch.applyAll_of_perm`).
-/

namespace CapabilityFlow

/-! ## What edits make of a document -/

namespace PatchEdit

/-- The step that an edit puts before the step of a label. -/
def stepBefore? (label : Option String) : PatchEdit → Option AuthoredStep
  | insert before step => if some before = label then some step else none
  | rebind .. => none

/-- The value that an edit gives to a field of the step of a label. -/
def valueAt? (label : Option String) (field : String) : PatchEdit → Option Value
  | insert .. => none
  | rebind l f _ new => if some l = label ∧ f = field then some new else none

/-- The label of the step that an edit is about. -/
def anchor : PatchEdit → String
  | insert before _ => before
  | rebind label .. => label

/-- The label and the field of the binding that an edit changes. -/
def binding? : PatchEdit → Option (String × String)
  | insert .. => none
  | rebind label field _ _ => some (label, field)

end PatchEdit

namespace AuthoredStep

/-- The steps that edits put before a step, in the order of the edits. -/
def newBefore (s : AuthoredStep) (es : List PatchEdit) : List AuthoredStep :=
  es.filterMap (·.stepBefore? s.label)

/-- A step whose bindings hold, in their places, the values that edits give to them. -/
def edited (s : AuthoredStep) (es : List PatchEdit) : AuthoredStep :=
  { s with bindings := s.bindings.map fun (field, v) =>
      (field, (es.findSome? (·.valueAt? s.label field)).getD v) }

/-- What edits make of a step: the new steps before it, and the step itself. -/
def block (s : AuthoredStep) (es : List PatchEdit) : List AuthoredStep :=
  s.newBefore es ++ [s.edited es]

end AuthoredStep

namespace AuthoredWorkflow

/-- The document that edits make: its steps in their order, each after those that are put before
it. -/
def edited (w : AuthoredWorkflow) (es : List PatchEdit) : AuthoredWorkflow :=
  { w with steps := w.steps.flatMap (·.block es) }

/-- Edits suit a document: they name what is there, new steps have labels of their own, and no
binding is changed twice. -/
structure Suits (w : AuthoredWorkflow) (es : List PatchEdit) : Prop where
  insert : ∀ before new, .insert before new ∈ es →
    some before ∈ w.steps.map (·.label) ∧ new.label ∉ w.steps.map (·.label)
  rebind : ∀ label field old v, .rebind label field old v ∈ es →
    ∃ s ∈ w.steps, s.label = some label ∧ field ∈ s.bindings.names
  once : (es.filterMap PatchEdit.binding?).Nodup

theorem Suits.of_append {w : AuthoredWorkflow} {es es' : List PatchEdit} (h : w.Suits (es ++ es')) :
    w.Suits es where
  insert := fun before new hmem => h.insert before new (List.mem_append_left es' hmem)
  rebind := fun label field old v hmem => h.rebind label field old v (List.mem_append_left es' hmem)
  once := by
    have hnodup := h.once
    rw [List.filterMap_append] at hnodup
    exact (List.nodup_append.1 hnodup).1

theorem Suits.perm {w : AuthoredWorkflow} {es es' : List PatchEdit} (h : w.Suits es)
    (hp : es'.Perm es) : w.Suits es' where
  insert := fun before new hmem => h.insert before new (hp.mem_iff.1 hmem)
  rebind := fun label field old v hmem => h.rebind label field old v (hp.mem_iff.1 hmem)
  once := (hp.filterMap _).nodup_iff.2 h.once

end AuthoredWorkflow

/-- The last edit, if it changes a binding, is the first to change it. -/
theorem AuthoredWorkflow.Suits.findSome?_eq_none {w : AuthoredWorkflow} {es : List PatchEdit}
    {label field : String} {old v : Value} (h : w.Suits (es ++ [.rebind label field old v]))
    {l : Option String} (hl : l = some label) : es.findSome? (·.valueAt? l field) = none := by
  have hnodup := h.once
  rw [List.filterMap_append, List.nodup_append] at hnodup
  refine List.findSome?_eq_none_iff.2 fun e he => ?_
  cases e with
  | insert => rfl
  | rebind label' field' old' v' =>
    refine if_neg ?_
    rintro ⟨hlabel, rfl⟩
    obtain rfl := Option.some.inj (hlabel.trans hl)
    have hmem : (label', field') ∈ es.filterMap PatchEdit.binding? :=
      List.mem_filterMap.2 ⟨_, he, rfl⟩
    exact hnodup.2.2 _ hmem _ (by simp [PatchEdit.binding?]) rfl

/-! ## One edit after others -/

namespace AuthoredStep

variable {s new : AuthoredStep} {es : List PatchEdit} {label field : String} {old v : Value}

theorem newBefore_append_insert (h : s.label = some label) :
    s.newBefore (es ++ [.insert label new]) = s.newBefore es ++ [new] := by
  simp [newBefore, PatchEdit.stepBefore?, h]

theorem newBefore_append_rebind :
    s.newBefore (es ++ [.rebind label field old v]) = s.newBefore es := by
  simp [newBefore, PatchEdit.stepBefore?]

theorem edited_append_insert : s.edited (es ++ [.insert label new]) = s.edited es := by
  simp [edited, PatchEdit.valueAt?]

/-- An edit leaves all steps as they are but the one that it is about. -/
theorem block_append_of_ne {e : PatchEdit} (h : s.label ≠ some e.anchor) :
    s.block (es ++ [e]) = s.block es := by
  cases e with
  | insert label new =>
    have hne : some label ≠ s.label := Ne.symm h
    simp [block, newBefore, edited, PatchEdit.stepBefore?, PatchEdit.valueAt?, hne]
  | rebind label field old new =>
    have hne : some label ≠ s.label := Ne.symm h
    simp [block, newBefore, edited, PatchEdit.stepBefore?, PatchEdit.valueAt?, hne]

theorem names_edited : (s.edited es).bindings.names = s.bindings.names := by
  simp [edited, Table.names, Function.comp_def]

/-- A field that is not bound anew before is bound anew in its place. -/
theorem edited_append_rebind (h : s.label = some label) (honce : s.bindings.names.Nodup)
    (hfield : field ∈ s.bindings.names) (hnew : es.findSome? (·.valueAt? s.label field) = none) :
    s.edited (es ++ [.rebind label field old v]) = (s.edited es).rebound field v := by
  have hset : (s.edited es).bindings.set field v = (s.edited es).bindings.map fun b =>
      (b.1, if b.1 = field then v else b.2) :=
    Table.set_eq_map (by rwa [names_edited]) (by rwa [names_edited]) v
  have hvalue : ∀ (name : String) (u : Value),
      ((es ++ [PatchEdit.rebind label field old v]).findSome? (·.valueAt? s.label name)).getD u =
        if name = field then v else (es.findSome? (·.valueAt? s.label name)).getD u := by
    intro name u
    rw [List.findSome?_append]
    by_cases hname : name = field
    · subst hname
      rw [hnew]
      simp [PatchEdit.valueAt?, h]
    · have hne : field ≠ name := Ne.symm hname
      simp [PatchEdit.valueAt?, hname, hne]
  rw [rebound, hset]
  simp only [edited, List.map_map, Function.comp_def, hvalue]

end AuthoredStep

namespace AuthoredWorkflow

variable {w : AuthoredWorkflow} {es : List PatchEdit} {before after : List AuthoredStep}
  {s : AuthoredStep} {label : String}

theorem stepPlace_of_append (hsteps : w.steps = before ++ s :: after)
    (hbefore : ∀ t ∈ before, t.label ≠ some label) (hs : s.label = some label) :
    w.stepPlace label = .ok before.length := by
  have hnone : before.findIdx? (·.label = some label) = none := by
    simpa [List.findIdx?_eq_none_iff] using hbefore
  rw [stepPlace_eq_ok_iff, hsteps, List.findIdx?_append, hnone]
  simp [List.findIdx?_cons, hs]

theorem apply_insert_of_append {new : AuthoredStep} (hsteps : w.steps = before ++ s :: after)
    (hbefore : ∀ t ∈ before, t.label ≠ some label) (hs : s.label = some label) :
    (PatchEdit.insert label new).apply w = .ok { w with steps := before ++ new :: s :: after } := by
  have hinsert := insertIdx_append_length before (s :: after) new
  simp only [PatchEdit.apply, stepPlace_of_append hsteps hbefore hs, hsteps]
  exact congrArg (fun steps => Except.ok { w with steps := steps }) hinsert

theorem apply_rebind_of_append {field : String} {old v : Value}
    (hsteps : w.steps = before ++ s :: after) (hbefore : ∀ t ∈ before, t.label ≠ some label)
    (hs : s.label = some label) (hfield : field ∈ s.bindings.names) :
    (PatchEdit.rebind label field old v).apply w =
      .ok { w with steps := before ++ s.rebound field v :: after } := by
  have hplace := stepPlace_of_append hsteps hbefore hs
  obtain ⟨u, hu⟩ := Table.exists_get?_of_mem_names hfield
  have hbound : w.boundValue label field = .ok u :=
    boundValue_eq_ok_iff.2 ⟨before.length, s, hplace, by simp [hsteps], hu⟩
  have hmodify := modify_append_length before after s (·.rebound field v)
  simp only [PatchEdit.apply, hplace, hbound]
  rw [hsteps]
  exact congrArg (fun steps => Except.ok { w with steps := steps }) hmodify

/-- Whatever edits put before the steps of a document has other labels than the document. -/
theorem Suits.label_newBefore (h : w.Suits es) {t : AuthoredStep} (ht : t ∈ s.newBefore es) :
    t.label ∉ w.steps.map (·.label) := by
  obtain ⟨e, he, hstep⟩ := List.mem_filterMap.1 ht
  cases e with
  | insert anchor new =>
    simp only [PatchEdit.stepBefore?] at hstep
    split at hstep
    · cases hstep
      exact (h.insert anchor t he).2
    · cases hstep
  | rebind => cases hstep

/-- The step of a label in a document: what edits make of the steps before it has other labels, and
so do the new steps before it. -/
theorem Suits.exists_append (h : w.Suits es) (hlabels : (w.steps.map (·.label)).Nodup)
    (hs : s ∈ w.steps) (hl : s.label = some label) : ∃ before after : List AuthoredStep,
      w.steps = before ++ s :: after ∧
      (∀ t ∈ before ++ after, t.label ≠ some label) ∧
      ∀ t ∈ before.flatMap (·.block es) ++ s.newBefore es, t.label ≠ some label := by
  obtain ⟨before, after, hsteps⟩ := List.append_of_mem hs
  have hmem : some label ∈ w.steps.map (·.label) := hl ▸ List.mem_map_of_mem hs
  have hne : ∀ t ∈ before ++ after, t.label ≠ some label := by
    rw [hsteps, List.map_append, List.map_cons, List.nodup_middle, ← List.map_append,
      List.nodup_cons] at hlabels
    exact fun t ht heq => hlabels.1 (List.mem_map.2 ⟨t, ht, heq.trans hl.symm⟩)
  have hnew : ∀ s' t, t ∈ AuthoredStep.newBefore s' es → t.label ≠ some label :=
    fun s' t ht heq => h.label_newBefore ht (heq ▸ hmem)
  refine ⟨before, after, hsteps, hne, fun t ht => ?_⟩
  rcases List.mem_append.1 ht with ht | ht
  · obtain ⟨a, ha, ht⟩ := List.mem_flatMap.1 ht
    rcases List.mem_append.1 ht with ht | ht
    · exact hnew a t ht
    · obtain rfl := List.mem_singleton.1 ht
      exact hne a (List.mem_append_left after ha)
  · exact hnew s t ht

theorem steps_edited_of_append (hsteps : w.steps = before ++ s :: after) :
    (w.edited es).steps = (before.flatMap (·.block es) ++ s.newBefore es) ++
      s.edited es :: after.flatMap (·.block es) := by
  simp [edited, hsteps, AuthoredStep.block]

theorem steps_edited_append {e : PatchEdit} (hsteps : w.steps = before ++ s :: after)
    (hne : ∀ t ∈ before ++ after, t.label ≠ some e.anchor) :
    (w.edited (es ++ [e])).steps =
      (before.flatMap (·.block es) ++ s.newBefore (es ++ [e])) ++
        s.edited (es ++ [e]) :: after.flatMap (·.block es) := by
  have hbefore : before.flatMap (·.block (es ++ [e])) = before.flatMap (·.block es) :=
    List.flatMap_congr fun t ht =>
      AuthoredStep.block_append_of_ne (hne t (List.mem_append_left after ht))
  have hafter : after.flatMap (·.block (es ++ [e])) = after.flatMap (·.block es) :=
    List.flatMap_congr fun t ht =>
      AuthoredStep.block_append_of_ne (hne t (List.mem_append_right before ht))
  rw [← hbefore, ← hafter, steps_edited_of_append hsteps]

/-- One edit more: made in the document that the edits before it make, it gives what all of them
make. -/
theorem apply_edited {e : PatchEdit} (h : w.Suits (es ++ [e]))
    (hlabels : (w.steps.map (·.label)).Nodup) (honce : w.BindsOnce) :
    e.apply (w.edited es) = .ok (w.edited (es ++ [e])) := by
  have hes := h.of_append
  cases e with
  | insert label new =>
    obtain ⟨hlabel, -⟩ := h.insert label new (by simp)
    obtain ⟨s, hs, hl⟩ := List.mem_map.1 hlabel
    obtain ⟨before, after, hsteps, hne, hbefore⟩ := hes.exists_append hlabels hs hl
    have hsteps' : (w.edited (es ++ [.insert label new])).steps = _ :=
      steps_edited_append hsteps hne
    rw [AuthoredStep.newBefore_append_insert hl, AuthoredStep.edited_append_insert] at hsteps'
    rw [apply_insert_of_append (steps_edited_of_append hsteps) hbefore hl]
    refine congrArg (fun steps => Except.ok { w with steps := steps }) (Eq.trans ?_ hsteps'.symm)
    simp
  | rebind label field old v =>
    obtain ⟨s, hs, hl, hfield⟩ := h.rebind label field old v (by simp)
    obtain ⟨before, after, hsteps, hne, hbefore⟩ := hes.exists_append hlabels hs hl
    have hsteps' : (w.edited (es ++ [.rebind label field old v])).steps = _ :=
      steps_edited_append hsteps hne
    rw [AuthoredStep.newBefore_append_rebind,
      AuthoredStep.edited_append_rebind hl (honce s hs) hfield (h.findSome?_eq_none hl)] at hsteps'
    have hfield' : field ∈ (s.edited es).bindings.names := by rwa [AuthoredStep.names_edited]
    rw [apply_rebind_of_append (steps_edited_of_append hsteps) hbefore hl hfield']
    exact congrArg (fun steps => Except.ok { w with steps := steps }) hsteps'.symm

/-- Edits that suit a document can all be made, and what they make is read off the document. -/
theorem applyAll_edited {rest : List PatchEdit} (h : w.Suits (es ++ rest))
    (hlabels : (w.steps.map (·.label)).Nodup) (honce : w.BindsOnce) :
    PatchEdit.applyAll rest (w.edited es) = (w.edited (es ++ rest), none) := by
  induction rest generalizing es with
  | nil => rw [List.append_nil, PatchEdit.applyAll]
  | cons e rest ih =>
    rw [List.append_cons] at h ⊢
    simp only [PatchEdit.applyAll, apply_edited h.of_append hlabels honce]
    exact ih h

theorem edited_nil : w.edited [] = w := by
  have hstep : ∀ s : AuthoredStep, s.block [] = [s] := by
    intro s
    simp [AuthoredStep.block, AuthoredStep.newBefore, AuthoredStep.edited]
  simp [edited, hstep]

end AuthoredWorkflow

/-! ## The order of edits -/

theorem PatchEdit.valueAt?_eq_some_iff {e : PatchEdit} {label : Option String} {field : String}
    {v : Value} : e.valueAt? label field = some v ↔
      ∃ l old, label = some l ∧ e = .rebind l field old v := by
  cases e with
  | insert => simp [valueAt?]
  | rebind l f old new => grind [valueAt?]

namespace AuthoredWorkflow.Suits

variable {w : AuthoredWorkflow} {es es' : List PatchEdit}

theorem findSome?_eq_some_iff (h : w.Suits es) {label : Option String} {field : String} {v : Value} :
    es.findSome? (·.valueAt? label field) = some v ↔ ∃ e ∈ es, e.valueAt? label field = some v := by
  constructor
  · exact List.exists_of_findSome?_eq_some
  · rintro ⟨e, he, hv⟩
    obtain ⟨l, old, rfl, rfl⟩ := PatchEdit.valueAt?_eq_some_iff.1 hv
    obtain ⟨before, after, rfl⟩ := List.append_of_mem he
    rw [List.append_cons] at h
    have hnone : before.findSome? (·.valueAt? (some l) field) = none :=
      h.of_append.findSome?_eq_none rfl
    rw [List.findSome?_append, hnone, Option.none_or, List.findSome?_cons, hv]

/-- The order of edits does not show in what is bound. -/
theorem edited_eq_of_perm (h : w.Suits es) (hp : es'.Perm es) (s : AuthoredStep) :
    s.edited es' = s.edited es := by
  have hvalue : ∀ field, es'.findSome? (·.valueAt? s.label field) =
      es.findSome? (·.valueAt? s.label field) := by
    intro field
    refine Option.ext fun v => ?_
    rw [(h.perm hp).findSome?_eq_some_iff, h.findSome?_eq_some_iff]
    exact exists_congr fun e => and_congr_left fun _ => hp.mem_iff
  simp only [AuthoredStep.edited, hvalue]

end AuthoredWorkflow.Suits

/-! ## Patches -/

namespace Patch

/-- Applies patches in turn, up to the first that fails. -/
def applyAll : List Patch → AuthoredWorkflow → AuthoredWorkflow × Option PatchError
  | [], w => (w, none)
  | p :: rest, w =>
    match p.apply w with
    | (w, none) => applyAll rest w
    | (w, some cause) => (w, some cause)

/-- All edits of patches, in turn. -/
def allEdits (ps : List Patch) : List PatchEdit :=
  ps.flatMap (·.edits)

/-- A patch puts one step of a new label before its consumer, and binds one field of the consumer
anew. -/
structure Mends (p : Patch) (w : AuthoredWorkflow) (consumer new : AuthoredStep) (old v : Value) :
    Prop where
  mem : consumer ∈ w.steps
  label : consumer.label = some p.step
  bound : consumer.bindings.get? p.field = some old
  fresh : new.label ∉ w.steps.map (·.label)
  edits : p.edits = [.insert p.step new, .rebind p.step p.field old v]

end Patch

theorem PatchEdit.applyAll_append (es es' : List PatchEdit) (w : AuthoredWorkflow) :
    applyAll (es ++ es') w = match applyAll es w with
      | (w, none) => applyAll es' w
      | (w, some cause) => (w, some cause) := by
  induction es generalizing w with
  | nil => rfl
  | cons e es ih =>
    rw [List.cons_append, applyAll, applyAll]
    cases e.apply w with
    | ok w' => exact ih w'
    | error cause => rfl

namespace Patch

theorem applyAll_eq (ps : List Patch) (w : AuthoredWorkflow) :
    applyAll ps w = PatchEdit.applyAll (allEdits ps) w := by
  induction ps generalizing w with
  | nil => rfl
  | cons p rest ih =>
    rw [allEdits, List.flatMap_cons, PatchEdit.applyAll_append, applyAll, apply]
    split <;> simp_all [allEdits]

variable {a : AuthoredWorkflow} {w : Workflow} {p : Patch} {ps : List Patch}

/-- A patch for a finding is made for a step of the document and a field that it binds. -/
theorem exists_mends_of_patchFor {r : CoercionRegistry} {f : Finding}
    (h : r.patchFor a w f = .ok (some p)) : ∃ consumer new old v, p.Mends a consumer new old v := by
  obtain ⟨types, label, field, coercion, -, -, -, -, -, hpatch⟩ := Checker.of_patchFor_eq_ok h
  obtain ⟨old, hold, hstep, hfield, -, hedits⟩ := Checker.of_patch_eq_ok hpatch
  obtain ⟨i, consumer, hi, hconsumer, hget⟩ := AuthoredWorkflow.boundValue_eq_ok_iff.1 hold
  obtain ⟨s, hs, hl⟩ := AuthoredWorkflow.exists_of_stepPlace_eq_ok hi
  obtain rfl : consumer = s := Option.some.inj (hconsumer.symm.trans hs)
  refine ⟨consumer, _, old, _, List.mem_of_getElem? hconsumer, by rw [hl, hstep],
    by rw [hfield, hget], a.freshLabel_notMem_map _, by rw [hedits, hstep, hfield]⟩

theorem mem_allEdits_iff {e : PatchEdit} : e ∈ allEdits ps ↔ ∃ p ∈ ps, e ∈ p.edits :=
  List.mem_flatMap

/-- Patches of different bindings suit the document that they are made for. -/
theorem suits_allEdits (h : ∀ p ∈ ps, ∃ consumer new old v, p.Mends a consumer new old v)
    (hdistinct : (ps.map fun p => (p.step, p.field)).Nodup) : a.Suits (allEdits ps) where
  insert := by
    intro before new hmem
    obtain ⟨p, hp, he⟩ := mem_allEdits_iff.1 hmem
    obtain ⟨consumer, new', old, v, hmends⟩ := h p hp
    rw [hmends.edits] at he
    obtain ⟨rfl, rfl⟩ : before = p.step ∧ new = new' := by simpa using he
    exact ⟨hmends.label ▸ List.mem_map_of_mem hmends.mem, hmends.fresh⟩
  rebind := by
    intro label field old v hmem
    obtain ⟨p, hp, he⟩ := mem_allEdits_iff.1 hmem
    obtain ⟨consumer, new, old', v', hmends⟩ := h p hp
    rw [hmends.edits] at he
    obtain ⟨rfl, rfl, -, -⟩ : label = p.step ∧ field = p.field ∧ old = old' ∧ v = v' := by
      simpa using he
    exact ⟨consumer, hmends.mem, hmends.label,
      List.mem_map_of_mem (Table.mem_of_get? hmends.bound)⟩
  once := by
    have hbindings : (allEdits ps).filterMap PatchEdit.binding? =
        ps.map fun p => (p.step, p.field) := by
      clear hdistinct
      induction ps with
      | nil => rfl
      | cons p rest ih =>
        obtain ⟨consumer, new, old, v, hmends⟩ := h p List.mem_cons_self
        have hrest := ih fun q hq => h q (List.mem_cons_of_mem p hq)
        rw [allEdits] at hrest ⊢
        rw [List.flatMap_cons, List.filterMap_append, hrest, hmends.edits]
        rfl
    rw [hbindings]
    exact hdistinct

/-- Patches made for one document, each for another binding, can be applied in any order. Each puts
its step somewhere between its consumer and the step before, and binds its field anew; the order
shows only among the new steps before one consumer. -/
theorem applyAll_of_perm (cap : Nat) (name : String) (a : AuthoredWorkflow) (honce : a.BindsOnce)
    (hload : a.findings cap name = []) (ps : List Patch)
    (hps : ∀ p ∈ ps, ∃ (r : CoercionRegistry) (f : Finding),
      r.patchFor a (a.graph name) f = .ok (some p))
    (hdistinct : (ps.map fun p => (p.step, p.field)).Nodup) :
    (∀ p ∈ ps, ∃ consumer new old v, p.Mends a consumer new old v) ∧
      ∀ qs : List Patch, qs.Perm ps → applyAll qs a = (a.edited (allEdits qs), none) ∧
        ∀ s : AuthoredStep, (s.newBefore (allEdits qs)).Perm (s.newBefore (allEdits ps)) ∧
          s.edited (allEdits qs) = s.edited (allEdits ps) := by
  have hmends : ∀ p ∈ ps, ∃ consumer new old v, p.Mends a consumer new old v := by
    intro p hp
    obtain ⟨r, f, hpatch⟩ := hps p hp
    exact exists_mends_of_patchFor hpatch
  refine ⟨hmends, fun qs hqs => ?_⟩
  have hsuits := suits_allEdits hmends hdistinct
  have hp : (allEdits qs).Perm (allEdits ps) := hqs.flatMap_right _
  have hlabels := AuthoredWorkflow.nodup_labels_of_findings_eq_nil hload
  refine ⟨?_, fun s => ⟨hp.filterMap _, hsuits.edited_eq_of_perm hp s⟩⟩
  have hrun : PatchEdit.applyAll (allEdits qs) (a.edited []) = (a.edited ([] ++ allEdits qs), none) :=
    AuthoredWorkflow.applyAll_edited (hsuits.perm hp) hlabels honce
  rw [a.edited_nil, List.nil_append] at hrun
  rw [applyAll_eq, hrun]

end Patch

namespace Checker.Sample

/-- `count` yields an integer, and `show` takes two texts. -/
def pairOntology : Ontology where
  version := ⟨1, 0, 0, "", ""⟩
  capabilities := [
    capability "count" .anyObject (.object [("n", .scalar .integer)] [] false),
    capability "print" .anyObject (.object [("text", .scalar .string)] [] false),
    capability "show" (.object [("text", .scalar .string), ("title", .scalar .string)] [] false)
      .anyObject]
  edges := []

/-- Shows what is counted, twice. -/
def pairWorkflow : AuthoredWorkflow where
  steps := [
    { capability := some "count", label := some "c" },
    { capability := some "show", label := some "v"
      bindings := [("text", .str (spanText "c.n")), ("title", .str (spanText "c.n"))] }]

def pairChecker : Checker := { ontology := pairOntology, registry := some registry }

/-- Both patches are for the step that shows. -/
def pairPatches : List Patch :=
  (pairChecker.check (.ofAuthored 10 "w" pairWorkflow)).patches

end Checker.Sample

open Checker.Sample in
theorem Patch.applyAll_of_perm_sample : pairWorkflow.BindsOnce ∧
    pairWorkflow.findings 10 "w" = [] ∧
    (∀ p ∈ pairPatches, ∃ (r : CoercionRegistry) (f : Finding),
      r.patchFor pairWorkflow (pairWorkflow.graph "w") f = .ok (some p)) ∧
    (pairPatches.map fun p => (p.step, p.field)) = [("v", "text"), ("v", "title")] ∧
    (∀ p ∈ pairPatches, ∃ consumer new old v, p.Mends pairWorkflow consumer new old v) ∧
    ∀ qs : List Patch, qs.Perm pairPatches →
      applyAll qs pairWorkflow = (pairWorkflow.edited (allEdits qs), none) ∧
        ∀ s : AuthoredStep,
          (s.newBefore (allEdits qs)).Perm (s.newBefore (allEdits pairPatches)) ∧
            s.edited (allEdits qs) = s.edited (allEdits pairPatches) := by
  have honce : pairWorkflow.BindsOnce := by
    unfold AuthoredWorkflow.BindsOnce
    decide +kernel
  have hload : pairWorkflow.findings 10 "w" = [] := by decide +kernel
  have hps : ∀ p ∈ pairPatches, ∃ (r : CoercionRegistry) (f : Finding),
      r.patchFor pairWorkflow (pairWorkflow.graph "w") f = .ok (some p) := by
    intro p hp
    obtain ⟨f, -, hf⟩ := Checker.exists_finding_of_mem_patches hload hp
    obtain ⟨r, a, -, ha, hpatch⟩ := Checker.of_patchOf_eq_some hf
    obtain rfl := Option.some.inj ha
    exact ⟨r, f, hpatch⟩
  have hfields : (pairPatches.map fun p => (p.step, p.field)) = [("v", "text"), ("v", "title")] := by
    decide +kernel
  exact ⟨honce, hload, hps, hfields,
    applyAll_of_perm 10 "w" pairWorkflow honce hload pairPatches hps (by rw [hfields]; decide)⟩

end CapabilityFlow
