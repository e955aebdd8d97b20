import CapabilityFlow.Proofs.Patch.RoundTrip
import CapabilityFlow.Proofs.Workflow.Structure

/-!
# What steps can read after a repair

A repair puts a step before the consumer and moves all steps from there on by one place. A reference
has an origin: the inputs of the workflow, or the place of the step that it names and can read. Steps
that were there before keep their origins, moved along (`Scope.Inserts.origin_iff`). The new step
runs outside of a loop that goes back to the consumer itself, so it can read what the consumer reads
unless only such loops make that visible (`Checker.resolved_apply_iff`).
-/

namespace CapabilityFlow

/-! ## Origins -/

/-- Where a reference reads. -/
inductive Origin where
  | inputs
  | step (place : Nat)
deriving DecidableEq, Repr

namespace Scope

variable (s : Scope) (consumer : Step) (r : Reference)

/-- The origin of a reference, if the consumer can read it. -/
def origin : Except ReferenceFault Origin :=
  if r.producer = s.inputNamespace then .ok .inputs
  else (s.producer consumer r).map fun p => .step p.index

/-- Nothing is found about the producer of a reference. -/
def Resolved : Prop :=
  ∀ fault, s.reached consumer r = .error fault →
    fault.code ≠ .unknownProducer ∧ fault.code ≠ .siblingReference

variable {s consumer r}

theorem producerOutput_eq_error_iff {fault : ReferenceFault} :
    s.producerOutput consumer r = .error fault ↔ s.origin consumer r = .error fault := by
  unfold producerOutput origin
  split
  · simp
  · rw [Except.map_eq_error_iff]
    cases s.producer consumer r with
    | error fault' => simp [bind, Except.bind]
    | ok p => cases hcap : s.ontology.get? p.capability <;>
        simp [hcap, bind, Except.bind, pure, Except.pure]

/-- Nothing is found about a producer exactly when there is an origin. -/
theorem resolved_iff : s.Resolved consumer r ↔ ∃ o, s.origin consumer r = .ok o := by
  unfold Resolved reached
  cases ho : s.origin consumer r with
  | error fault =>
    have hcode : fault.code = .unknownProducer ∨ fault.code = .siblingReference := by
      unfold origin at ho
      split at ho
      · cases ho
      · exact code_of_producer_eq_error (Except.map_eq_error_iff.1 ho)
    rw [producerOutput_eq_error_iff.2 ho]
    simp only [reduceCtorEq, exists_false, iff_false]
    intro h
    rcases hcode with hcode | hcode
    · exact (h fault rfl).1 hcode
    · exact (h fault rfl).2 hcode
  | ok o =>
    refine ⟨fun _ => ⟨o, rfl⟩, fun _ fault h => ?_⟩
    cases hout : s.producerOutput consumer r with
    | error fault' =>
      rw [producerOutput_eq_error_iff, ho] at hout
      cases hout
    | ok out =>
      rw [hout] at h
      obtain ⟨cause, -, rfl⟩ := Except.mapError_eq_error_iff.1 h
      exact ⟨nofun, nofun⟩

theorem origin_eq_ok_iff (hw : s.workflow.WellFormed) {o : Origin} : s.origin consumer r = .ok o ↔
    r.producer = s.inputNamespace ∧ o = .inputs ∨
      r.producer ≠ s.inputNamespace ∧ ∃ p ∈ s.workflow.steps, p.label = r.producer ∧
        s.workflow.Reads consumer p ∧ o = .step p.index := by
  unfold origin
  split
  · rename_i hns
    simp [hns, eq_comm]
  · rename_i hns
    rw [Except.map_eq_ok_iff]
    simp only [producer_eq_ok_iff hw, hns, false_and, not_false_eq_true, true_and, false_or, ne_eq,
      and_assoc, @eq_comm _ o]

end Scope

/-! ## One step more -/

/-- The place of a step after another was put in at a place. -/
def shifted (i k : Nat) : Nat :=
  if k < i then k else k + 1

theorem shifted_lt_shifted_iff {i j k : Nat} : shifted i j < shifted i k ↔ j < k := by
  unfold shifted
  grind

theorem shifted_le_shifted_iff {i j k : Nat} : shifted i j ≤ shifted i k ↔ j ≤ k := by
  unfold shifted
  grind

theorem shifted_lt_iff {i k : Nat} : shifted i k < i ↔ k < i := by
  unfold shifted
  grind

theorem shifted_le_iff {i k : Nat} : shifted i k ≤ i ↔ k < i := by
  unfold shifted
  grind

theorem shifted_ne (i k : Nat) : shifted i k ≠ i := by
  unfold shifted
  grind

theorem shifted_injective (i : Nat) : Function.Injective (shifted i) := by
  intro j k h
  unfold shifted at h
  grind

/-- An origin after a step was put in at a place. -/
def Origin.shifted (i : Nat) : Origin → Origin
  | inputs => inputs
  | step place => step (CapabilityFlow.shifted i place)

/-- A step moved by another that was put in at a place, and perhaps bound anew. -/
structure Step.MovesTo (s : Step) (i : Nat) (s' : Step) : Prop where
  index : s'.index = shifted i s.index
  label : s'.label = s.label
  group : s'.group = s.group
  failures : s'.failures = s.failures

namespace Workflow

/-- A loop leads from a place or later to a step before another place. -/
def LoopsBefore (w : Workflow) (i j : Nat) : Prop :=
  ∃ last ∈ w.steps, ∃ f ∈ last.failures, ∃ target ∈ w.steps,
    f.goto = some target.label ∧ j ≤ last.index ∧ target.index < i

/-- What a new step in front of a place can read. -/
def OpenBefore (w : Workflow) (i : Nat) : Origin → Prop
  | .inputs => True
  | .step j => j < i ∨ w.LoopsBefore i j

/-- A workflow with a new step at a place: it is in no group, it has no failures, and no failure of
another step leads to it. -/
structure Inserts (w : Workflow) (i : Nat) (new : Step) (w' : Workflow) : Prop where
  mem : new ∈ w'.steps
  index : new.index = i
  group : new.group = none
  failures : new.failures = []
  fresh : ∀ s ∈ w.steps, s.label ≠ new.label
  moves : ∀ s ∈ w.steps, ∃ s' ∈ w'.steps, s.MovesTo i s'
  of_mem : ∀ s' ∈ w'.steps, s' = new ∨ ∃ s ∈ w.steps, s.MovesTo i s'
  targets : ∀ s ∈ w.steps, ∀ f ∈ s.failures, ∀ label, f.goto = some label →
    ∃ t ∈ w.steps, t.label = label

theorem reads_iff {w : Workflow} {reader p : Step} : w.Reads reader p ↔
    p.index < reader.index ∧ (∀ group, reader.group = some group → p.group ≠ some group) ∨
      reader.index ≤ p.index ∧ ∃ last ∈ w.steps, ∃ f ∈ last.failures, ∃ target ∈ w.steps,
        f.goto = some target.label ∧ p.index ≤ last.index ∧ target.index ≤ reader.index := by
  constructor
  · rintro (⟨hlt, hg⟩ | ⟨hle, hlast, hp, hf, ht, hgoto, hback⟩)
    · exact .inl ⟨hlt, hg⟩
    · exact .inr ⟨hle, _, hlast, _, hf, _, ht, hgoto, hp, hback⟩
  · rintro (⟨hlt, hg⟩ | ⟨hle, last, hlast, f, hf, target, ht, hgoto, hp, hback⟩)
    · exact .earlier hlt hg
    · exact .loop hle hlast hp hf ht hgoto hback

namespace Inserts

variable {w w' : Workflow} {i : Nat} {new : Step}

/-- The loops of the workflow are those that it had, moved along. -/
theorem exists_loop_iff (h : w.Inserts i new w') {P : Nat → Nat → Prop} :
    (∃ last ∈ w'.steps, ∃ f ∈ last.failures, ∃ target ∈ w'.steps, f.goto = some target.label ∧
        P last.index target.index) ↔
      ∃ last ∈ w.steps, ∃ f ∈ last.failures, ∃ target ∈ w.steps, f.goto = some target.label ∧
        P (shifted i last.index) (shifted i target.index) := by
  constructor
  · rintro ⟨last', hlast', f, hf, target', htarget', hgoto, hP⟩
    rcases h.of_mem last' hlast' with rfl | ⟨last, hlast, hm⟩
    · rw [h.failures] at hf
      cases hf
    rw [hm.failures] at hf
    rcases h.of_mem target' htarget' with rfl | ⟨target, htarget, ht⟩
    · obtain ⟨t, htmem, hl⟩ := h.targets last hlast f hf _ hgoto
      exact absurd hl (h.fresh t htmem)
    · rw [hm.index, ht.index] at hP
      exact ⟨last, hlast, f, hf, target, htarget, by rw [hgoto, ht.label], hP⟩
  · rintro ⟨last, hlast, f, hf, target, htarget, hgoto, hP⟩
    obtain ⟨last', hlast', hm⟩ := h.moves last hlast
    obtain ⟨target', htarget', ht⟩ := h.moves target htarget
    refine ⟨last', hlast', f, hm.failures ▸ hf, target', htarget', by rw [hgoto, ht.label], ?_⟩
    rw [hm.index, ht.index]
    exact hP

/-- Steps that were there read each other as before. -/
theorem reads_iff (h : w.Inserts i new w') {reader reader' p p' : Step} (hr : reader.MovesTo i reader')
    (hp : p.MovesTo i p') : w'.Reads reader' p' ↔ w.Reads reader p := by
  rw [Workflow.reads_iff, Workflow.reads_iff, hr.index, hr.group, hp.index, hp.group,
    h.exists_loop_iff (P := fun last target =>
      shifted i p.index ≤ last ∧ target ≤ shifted i reader.index)]
  simp only [shifted_lt_shifted_iff, shifted_le_shifted_iff]

/-- The new step reads what runs earlier, and what a loop around its place leads back from. -/
theorem reads_new_iff (h : w.Inserts i new w') {p p' : Step} (hp : p.MovesTo i p') :
    w'.Reads new p' ↔ w.OpenBefore i (.step p.index) := by
  rw [Workflow.reads_iff, h.index, h.group, hp.index,
    h.exists_loop_iff (P := fun last target => shifted i p.index ≤ last ∧ target ≤ i)]
  simp only [shifted_lt_iff, shifted_le_shifted_iff, shifted_le_iff]
  constructor
  · rintro (⟨hlt, -⟩ | ⟨-, hloop⟩)
    · exact .inl hlt
    · exact .inr hloop
  · intro hopen
    by_cases hlt : p.index < i
    · exact .inl ⟨hlt, nofun⟩
    · exact .inr ⟨Nat.le_of_not_lt (shifted_lt_iff.not.2 hlt), hopen.resolve_left hlt⟩

end Inserts

end Workflow

/-! ## Origins with one step more -/

section

variable {s s' : Scope} {i : Nat} {new : Step} {r : Reference} {o o' : Origin}

theorem Origin.shifted_ne (i : Nat) (o : Origin) : o.shifted i ≠ .step i := by
  cases o with
  | inputs => nofun
  | step j => exact fun h => CapabilityFlow.shifted_ne i j (Origin.step.inj h)

theorem Origin.shifted_injective (i : Nat) : Function.Injective (Origin.shifted i) := by
  intro o o' h
  cases o <;> cases o' <;> simp_all [Origin.shifted, (CapabilityFlow.shifted_injective i).eq_iff]

/-- The references of a workflow are followed with a new step at a place. -/
structure Scope.Inserts (s : Scope) (i : Nat) (new : Step) (s' : Scope) : Prop where
  workflow : s.workflow.Inserts i new s'.workflow
  before : s.workflow.WellFormed
  after : s'.workflow.WellFormed
  inputNamespace : s'.inputNamespace = s.inputNamespace

namespace Scope.Inserts

variable {k k' : Step}

/-- What a reference reads in both workflows is the same. -/
theorem origin_unique (h : s.Inserts i new s') (ho : s.origin k r = .ok o)
    (ho' : s'.origin k' r = .ok o') : o' = o.shifted i := by
  rw [origin_eq_ok_iff h.before] at ho
  rw [origin_eq_ok_iff h.after, h.inputNamespace] at ho'
  rcases ho with ⟨hr, rfl⟩ | ⟨hr, p, hp, hl, -, rfl⟩
  · rcases ho' with ⟨-, rfl⟩ | ⟨hr', -⟩
    · rfl
    · exact absurd hr hr'
  · rcases ho' with ⟨hr', -⟩ | ⟨-, p', hp', hl', -, rfl⟩
    · exact absurd hr' hr
    · obtain ⟨q, hq, hm⟩ := h.workflow.moves p hp
      obtain rfl : p' = q := List.inj_on_of_nodup_map h.after.labels_nodup hp' hq
        (by rw [hl', hm.label, hl])
      rw [Origin.shifted, hm.index]

/-- A step that was there finds the origins that it found, moved along. -/
theorem origin_iff (h : s.Inserts i new s') (hk : k.MovesTo i k') :
    s'.origin k' r = .ok (o.shifted i) ↔ s.origin k r = .ok o := by
  rw [origin_eq_ok_iff h.before, origin_eq_ok_iff h.after, h.inputNamespace]
  constructor
  · rintro (⟨hr, ho⟩ | ⟨hr, p', hp', hl, hread, ho⟩)
    · exact .inl ⟨hr, Origin.shifted_injective i ho⟩
    · rcases h.workflow.of_mem p' hp' with rfl | ⟨p, hp, hm⟩
      · rw [h.workflow.index] at ho
        exact absurd ho (Origin.shifted_ne i o)
      · refine .inr ⟨hr, p, hp, hm.label ▸ hl, (h.workflow.reads_iff hk hm).1 hread, ?_⟩
        refine Origin.shifted_injective i (ho.trans ?_)
        rw [Origin.shifted, hm.index]
  · rintro (⟨hr, rfl⟩ | ⟨hr, p, hp, hl, hread, rfl⟩)
    · exact .inl ⟨hr, rfl⟩
    · obtain ⟨p', hp', hm⟩ := h.workflow.moves p hp
      refine .inr ⟨hr, p', hp', hm.label.trans hl, (h.workflow.reads_iff hk hm).2 hread, ?_⟩
      rw [Origin.shifted, hm.index]

/-- The new step finds an origin that another finds when it is open before its place. -/
theorem origin_new_iff (h : s.Inserts i new s') (ho : s.origin k r = .ok o) :
    s'.origin new r = .ok (o.shifted i) ↔ s.workflow.OpenBefore i o := by
  rw [origin_eq_ok_iff h.before] at ho
  rw [origin_eq_ok_iff h.after, h.inputNamespace]
  rcases ho with ⟨hr, rfl⟩ | ⟨hr, p, hp, hl, -, rfl⟩
  · simp [hr, Origin.shifted, Workflow.OpenBefore]
  · obtain ⟨p', hp', hm⟩ := h.workflow.moves p hp
    rw [← h.workflow.reads_new_iff hm]
    constructor
    · rintro (⟨hr', -⟩ | ⟨-, q, hq, hql, hread, -⟩)
      · exact absurd hr' hr
      · obtain rfl : q = p' := List.inj_on_of_nodup_map h.after.labels_nodup hq hp'
          (by rw [hql, hm.label, hl])
        exact hread
    · intro hread
      refine .inr ⟨hr, p', hp', hm.label.trans hl, hread, ?_⟩
      rw [Origin.shifted, hm.index]

/-- The new step reads the same as another, or nothing. -/
theorem resolved_new_iff (h : s.Inserts i new s') (ho : s.origin k r = .ok o) :
    s'.Resolved new r ↔ s.workflow.OpenBefore i o := by
  rw [resolved_iff, ← h.origin_new_iff ho]
  constructor
  · rintro ⟨o', ho'⟩
    rw [← h.origin_unique ho ho']
    exact ho'
  · intro hnew
    exact ⟨_, hnew⟩

end Scope.Inserts

end

/-! ## Repaired workflows -/

namespace Repair

variable (m : Repair)

/-- The step of a place after the repair: only the consumer is bound anew. -/
def moved (k : Nat) (t : AuthoredStep) : AuthoredStep :=
  if k = m.place then t.rebound m.field m.output else t

theorem movesTo_moved (k : Nat) (t : AuthoredStep) :
    (t.toStep k).MovesTo m.place ((m.moved k t).toStep (shifted m.place k)) := by
  unfold moved
  split <;> exact ⟨rfl, rfl, rfl, rfl⟩

variable {m} {a : AuthoredWorkflow} {k : Nat} {t : AuthoredStep}

theorem getElem?_apply_shifted (hm : a.steps[m.place]? = some m.consumer)
    (ht : a.steps[k]? = some t) :
    (m.apply a).steps[shifted m.place k]? = some (m.moved k t) := by
  unfold apply shifted moved
  rcases Nat.lt_trichotomy k m.place with hk | rfl | hk
  · rw [if_pos hk, if_neg hk.ne, AuthoredWorkflow.getElem?_mended_of_lt hk, ht]
  · obtain rfl : t = m.consumer := Option.some.inj (ht.symm.trans hm)
    rw [if_neg (Nat.lt_irrefl _), if_pos rfl, AuthoredWorkflow.getElem?_mended_succ hm]
  · rw [if_neg (Nat.lt_asymm hk), if_neg hk.ne', AuthoredWorkflow.getElem?_mended_of_gt hk, ht]

/-- Each step after the repair is the inserted one, or it stood there before. -/
theorem of_getElem?_apply (hm : a.steps[m.place]? = some m.consumer)
    (ht : (m.apply a).steps[k]? = some t) : k = m.place ∧ t = m.step ∨
      ∃ j u, a.steps[j]? = some u ∧ k = shifted m.place j ∧ t = m.moved j u := by
  have hstep : ∀ j u, a.steps[j]? = some u → k = shifted m.place j → t = m.moved j u := by
    rintro j u hu rfl
    exact Option.some.inj (ht.symm.trans (getElem?_apply_shifted hm hu))
  rcases Nat.lt_trichotomy k m.place with hk | rfl | hk
  · have hu : a.steps[k]? = some t := (AuthoredWorkflow.getElem?_mended_of_lt hk).symm.trans ht
    have hshift : k = shifted m.place k := by rw [shifted, if_pos hk]
    exact .inr ⟨k, t, hu, hshift, hstep k t hu hshift⟩
  · exact .inl ⟨rfl, Option.some.inj (ht.symm.trans (AuthoredWorkflow.getElem?_mended_self hm))⟩
  · obtain ⟨j, rfl⟩ : ∃ j, k = j + 1 := ⟨k - 1, by omega⟩
    have hshift : j + 1 = shifted m.place j := by rw [shifted, if_neg (by omega)]
    obtain ⟨u, hu⟩ : ∃ u, a.steps[j]? = some u := by
      rcases Nat.eq_or_lt_of_le (Nat.le_of_lt_succ hk) with rfl | hj
      · exact ⟨_, hm⟩
      · exact ⟨t, (AuthoredWorkflow.getElem?_mended_of_gt hj).symm.trans ht⟩
    exact .inr ⟨j, u, hu, hshift, hstep j u hu hshift⟩

end Repair

namespace Checker

variable {c : Checker} {a : AuthoredWorkflow} {m : Repair} {cap cap' : Nat} {name : String}

/-- The graph of the repaired document is that of the document with one step more. -/
theorem Offers.inserts (hm : c.Offers a (a.graph name) m) (hload : a.findings cap name = []) :
    (a.graph name).Inserts m.place m.insertedStep ((m.apply a).graph name) where
  mem := hm.mem_steps_insertedStep
  index := rfl
  group := rfl
  failures := rfl
  fresh := by
    intro s hs hl
    obtain ⟨k, t, ht, rfl⟩ := AuthoredWorkflow.mem_steps_graph_iff.1 hs
    have htmem := List.mem_of_getElem? ht
    obtain ⟨label, hlabel⟩ := (AuthoredWorkflow.readable_of_findings_eq_nil hload htmem).label
    have heq : label = m.insertedStep.label := by simpa [AuthoredStep.toStep, hlabel] using hl
    have hlabel' : t.label = m.step.label := hlabel.trans (congrArg some heq)
    exact hm.label_step_notMem (hlabel' ▸ List.mem_map_of_mem htmem)
  moves := by
    intro s hs
    obtain ⟨k, t, ht, rfl⟩ := AuthoredWorkflow.mem_steps_graph_iff.1 hs
    exact ⟨_, AuthoredWorkflow.mem_steps_graph_iff.2
      ⟨_, _, Repair.getElem?_apply_shifted hm.consumer ht, rfl⟩, m.movesTo_moved k t⟩
  of_mem := by
    intro s' hs'
    obtain ⟨k, t, ht, rfl⟩ := AuthoredWorkflow.mem_steps_graph_iff.1 hs'
    rcases Repair.of_getElem?_apply hm.consumer ht with ⟨rfl, rfl⟩ | ⟨j, u, hu, rfl, rfl⟩
    · exact .inl rfl
    · exact .inr ⟨_, AuthoredWorkflow.mem_steps_graph_iff.2 ⟨j, u, hu, rfl⟩, m.movesTo_moved j u⟩
  targets := by
    intro s hs f hf label hgoto
    obtain ⟨k, t, ht, rfl⟩ := AuthoredWorkflow.mem_steps_graph_iff.1 hs
    obtain ⟨mode, hmode, rfl⟩ := List.mem_map.1 hf
    have hstructured := AuthoredWorkflow.findings_eq_nil_iff_isStructured.1 hload
    obtain ⟨u, hu, hl⟩ :=
      (hstructured.failures t (List.mem_of_getElem? ht) mode hmode).target label hgoto
    obtain ⟨j, hj⟩ := List.getElem?_of_mem hu
    exact ⟨_, AuthoredWorkflow.mem_steps_graph_iff.2 ⟨j, u, hj, rfl⟩, by simp [AuthoredStep.toStep, hl]⟩

/-- What references of a document are followed in. -/
def scopeOf (c : Checker) (name : String) (a : AuthoredWorkflow) : Scope :=
  c.scope (a.graph name) (c.inputsType (a.graph name))

/-- References of all steps that were there have the origins that they had. -/
def KeepsOrigins (c : Checker) (name : String) (a : AuthoredWorkflow) (m : Repair) : Prop :=
  ∀ k t, a.steps[k]? = some t → (m.apply a).steps[shifted m.place k]? = some (m.moved k t) ∧
    ∀ r, (c.scopeOf name a).Resolved (t.toStep k) r →
      ∃ o, (c.scopeOf name a).origin (t.toStep k) r = .ok o ∧
        (c.scopeOf name (m.apply a)).origin ((m.moved k t).toStep (shifted m.place k)) r =
          .ok (o.shifted m.place)

namespace Offers

theorem inserts_scopeOf (hm : c.Offers a (a.graph name) m) (hload : a.findings cap name = [])
    (hreload : (m.apply a).findings cap' name = []) :
    (c.scopeOf name a).Inserts m.place m.insertedStep (c.scopeOf name (m.apply a)) where
  workflow := hm.inserts hload
  before := AuthoredWorkflow.wellFormed_graph hload
  after := AuthoredWorkflow.wellFormed_graph hreload
  inputNamespace := rfl

theorem keepsOrigins (hm : c.Offers a (a.graph name) m) (hload : a.findings cap name = [])
    (hreload : (m.apply a).findings cap' name = []) : c.KeepsOrigins name a m := by
  refine fun k t ht => ⟨Repair.getElem?_apply_shifted hm.consumer ht, fun r hr => ?_⟩
  obtain ⟨o, ho⟩ := Scope.resolved_iff.1 hr
  exact ⟨o, ho, ((hm.inserts_scopeOf hload hreload).origin_iff (m.movesTo_moved k t)).2 ho⟩

theorem exists_origin (hm : c.Offers a (a.graph name) m) :
    ∃ o, (c.scopeOf name a).origin (m.consumer.toStep m.place) m.reference = .ok o := by
  refine Scope.resolved_iff.1 fun fault hfault => ?_
  obtain ⟨u, hu, -⟩ := Except.bind_eq_ok_iff.1 hm.found
  cases hu.symm.trans hfault

end Offers

/-- A patch leaves the origins of all references of the steps of a document as they are. The
inserted step finds the origin of the reference that it takes over exactly when a step in front of
the consumer can. -/
theorem resolved_apply_iff (c : Checker) (cap cap' : Nat) (name : String) (a : AuthoredWorkflow)
    (honce : a.BindsOnce) (hload : a.findings cap name = []) (p : Patch)
    (hp : p ∈ (c.check (.ofAuthored cap name a)).patches)
    (hreload : (p.apply a).1.findings cap' name = []) :
    ∃ m, c.Offers a (a.graph name) m ∧ p.Makes m ∧ (p.apply a).1 = m.apply a ∧
      c.KeepsOrigins name a m ∧
      ∃ o, (c.scopeOf name a).origin (m.consumer.toStep m.place) m.reference = .ok o ∧
        ((c.scopeOf name (m.apply a)).origin m.insertedStep m.reference =
            .ok (o.shifted m.place) ↔ (a.graph name).OpenBefore m.place o) ∧
        ((c.scopeOf name (m.apply a)).Resolved m.insertedStep m.reference ↔
          (a.graph name).OpenBefore m.place o) := by
  obtain ⟨m, hm, hmakes⟩ := exists_offers_of_mem_patches hload honce hp
  have happly : (p.apply a).1 = m.apply a := by rw [hm.apply_eq hload hmakes]
  rw [happly] at hreload
  obtain ⟨o, ho⟩ := hm.exists_origin
  have hinserts := hm.inserts_scopeOf hload hreload
  exact ⟨m, hm, hmakes, happly, hm.keepsOrigins hload hreload, o, ho, hinserts.origin_new_iff ho,
    hinserts.resolved_new_iff ho⟩

namespace Sample

/-- Shows what was counted in the pass before. -/
def loopWorkflow : AuthoredWorkflow where
  steps := [
    { capability := some "show", label := some "v"
      bindings := [("text", .str (spanText "c.n"))] },
    { capability := some "count", label := some "c"
      failures := [⟨"bad", "retry", none, some "v", some 2, []⟩] }]

theorem bindsOnce_loopWorkflow : loopWorkflow.BindsOnce := by
  unfold AuthoredWorkflow.BindsOnce
  decide +kernel

theorem findings_loopWorkflow : loopWorkflow.findings 10 "w" = [] := by
  decide +kernel

theorem exists_patch_loopWorkflow : ∃ p ∈ (checker.check (.ofAuthored 10 "w" loopWorkflow)).patches,
    (p.apply loopWorkflow).1.findings 10 "w" = [] := by
  decide +kernel

end Sample

theorem resolved_apply_iff_sample : Sample.loopWorkflow.BindsOnce ∧
    Sample.loopWorkflow.findings 10 "w" = [] ∧
    ∃ p ∈ (Sample.checker.check (.ofAuthored 10 "w" Sample.loopWorkflow)).patches,
      (p.apply Sample.loopWorkflow).1.findings 10 "w" = [] ∧
      ∃ m, Sample.checker.Offers Sample.loopWorkflow (Sample.loopWorkflow.graph "w") m ∧
        p.Makes m ∧ (p.apply Sample.loopWorkflow).1 = m.apply Sample.loopWorkflow ∧
        Sample.checker.KeepsOrigins "w" Sample.loopWorkflow m ∧
        ∃ o, (Sample.checker.scopeOf "w" Sample.loopWorkflow).origin
            (m.consumer.toStep m.place) m.reference = .ok o ∧
          ((Sample.checker.scopeOf "w" (m.apply Sample.loopWorkflow)).origin m.insertedStep
              m.reference = .ok (o.shifted m.place) ↔
            (Sample.loopWorkflow.graph "w").OpenBefore m.place o) ∧
          ((Sample.checker.scopeOf "w" (m.apply Sample.loopWorkflow)).Resolved m.insertedStep
              m.reference ↔ (Sample.loopWorkflow.graph "w").OpenBefore m.place o) := by
  obtain ⟨p, hp, hreload⟩ := Sample.exists_patch_loopWorkflow
  exact ⟨Sample.bindsOnce_loopWorkflow, Sample.findings_loopWorkflow, p, hp, hreload,
    resolved_apply_iff Sample.checker 10 10 "w" Sample.loopWorkflow Sample.bindsOnce_loopWorkflow
      Sample.findings_loopWorkflow p hp hreload⟩

/-- The inserted step loses what the consumer reads through a loop back to the consumer itself. -/
theorem not_forall_resolved : ¬ ∀ (c : Checker) (cap : Nat) (name : String) (a : AuthoredWorkflow),
    a.BindsOnce → a.findings cap name = [] →
      ∀ p ∈ (c.check (.ofAuthored cap name a)).patches, (p.apply a).1.findings cap name = [] →
        ∃ m, c.Offers a (a.graph name) m ∧ p.Makes m ∧ c.KeepsOrigins name a m ∧
          ∃ o, (c.scopeOf name a).origin (m.consumer.toStep m.place) m.reference = .ok o ∧
            (c.scopeOf name (m.apply a)).origin m.insertedStep m.reference =
              .ok (o.shifted m.place) ∧
            (c.scopeOf name (m.apply a)).Resolved m.insertedStep m.reference := by
  intro h
  have hload := Sample.findings_loopWorkflow
  obtain ⟨p, hp, hreload⟩ := Sample.exists_patch_loopWorkflow
  obtain ⟨m, hm, hmakes, -, o, ho, horigin, -⟩ :=
    h Sample.checker 10 "w" Sample.loopWorkflow Sample.bindsOnce_loopWorkflow hload p hp hreload
  rw [hm.apply_eq hload hmakes] at hreload
  have hinserts := hm.inserts_scopeOf hload hreload
  have hopen := (hinserts.origin_new_iff ho).1 horigin
  -- The consumer is the first step, since the other binds nothing, and it reads the other.
  obtain ⟨hplace, hvalue⟩ : m.place = 0 ∧ m.value = .str (spanText "c.n") := by
    have hconsumer := hm.consumer
    have hvalue := Table.mem_of_get? hm.value
    generalize m.place = place at hconsumer ⊢
    rcases place with - | - | place
    · rw [← Option.some.inj hconsumer] at hvalue
      exact ⟨rfl, (Prod.mk.inj (List.mem_singleton.1 hvalue)).2⟩
    · rw [← Option.some.inj hconsumer] at hvalue
      cases hvalue
    · cases hconsumer
  have hparse : Binding.parse (.str (spanText "c.n")) =
      .ok (.reference ⟨"c", [.field "n"], none, spanText "c.n"⟩) :=
    Except.toOption_eq_some_iff.1 (by decide +kernel)
  have hreference := hm.reference
  rw [hvalue, hparse] at hreference
  have hother : m.reference.producer ≠ Sample.checker.settings.inputNamespace := by
    rw [← Binding.reference.inj (Except.ok.inj hreference)]
    decide
  rcases (Scope.origin_eq_ok_iff hinserts.before).1 ho with ⟨hns, -⟩ | ⟨-, q, -, -, -, rfl⟩
  · exact hother hns
  · rw [hplace] at hopen
    rcases hopen with hlt | ⟨_, _, _, _, _, _, _, _, hlt⟩
    · exact Nat.not_lt_zero _ hlt
    · exact Nat.not_lt_zero _ hlt

end Checker

end CapabilityFlow
