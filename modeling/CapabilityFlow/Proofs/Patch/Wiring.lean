import CapabilityFlow.Proofs.Coercion
import CapabilityFlow.Proofs.Ontology.Validation
import CapabilityFlow.Proofs.Patch.Repair
import CapabilityFlow.Proofs.Workflow.Structure

/-!
# What a patch wires

A patch writes the label of its step and the reference to its output by joining texts, and the
parameters of a coercion may set any field. So the value of the consumer goes through the inserted
step when these texts are plain words and the parameters leave the input field alone
(`Checker.wiring_iff_isPlain`).
-/

namespace CapabilityFlow

/-! ## Joined words -/

namespace Reference

theorem isIdentifier_join_iff {label rest : String} :
    isIdentifier (label ++ "_" ++ rest) = true ↔
      (label = "" ∨ isIdentifier label = true) ∧
        ∀ d ∈ rest.toList, Token.isIdentifierChar d = true := by
  have hlist : (label ++ "_" ++ rest).toList = label.toList ++ '_' :: rest.toList := by simp
  have hempty : label = "" ↔ label.toList = [] := by simp
  have hstart : Token.isIdentifierStart '_' = true := rfl
  have hchar : Token.isIdentifierChar '_' = true := rfl
  unfold isIdentifier
  rw [hlist, hempty]
  cases label.toList with
  | nil => simp [hstart]
  | cons c r => simp [hchar, and_assoc]

theorem isIdentifierChar_of_mem_repr {n : Nat} {d : Char} (hd : d ∈ n.repr.toList) :
    Token.isIdentifierChar d = true := by
  rw [Nat.toList_repr] at hd
  have hdigit : d.isDigit = true := Nat.isDigit_of_mem_toDigits (by decide) (by decide) hd
  simp [Token.isIdentifierChar, Char.isAlphanum, hdigit]

/-- The label of an inserted step is a plain word when the label of the consumer is one or is empty,
and the field has no other characters. -/
theorem isIdentifier_freshLabel_iff {taken : List String} {label field : String} :
    isIdentifier (freshLabel taken s!"{label}_{field}_coerced") = true ↔
      (label = "" ∨ isIdentifier label = true) ∧
        ∀ d ∈ field.toList, Token.isIdentifierChar d = true := by
  have hsuffix : ∀ suffix : String, (∀ d ∈ suffix.toList, Token.isIdentifierChar d = true) →
      (isIdentifier (label ++ "_" ++ field ++ suffix) = true ↔
        (label = "" ∨ isIdentifier label = true) ∧
          ∀ d ∈ field.toList, Token.isIdentifierChar d = true) := by
    intro suffix h
    rw [String.append_assoc, isIdentifier_join_iff, String.toList_append]
    refine and_congr_right fun _ => ⟨fun hall d hd => hall d (List.mem_append_left _ hd), ?_⟩
    intro hall d hd
    rcases List.mem_append.1 hd with hd | hd
    · exact hall d hd
    · exact h d hd
  have hword : isIdentifier "_coerced" = true := by decide +kernel
  have hcoerced : ∀ d ∈ "_coerced".toList, Token.isIdentifierChar d = true :=
    fun d hd => isIdentifierChar_of_mem hword hd
  rcases freshLabel_eq taken s!"{label}_{field}_coerced" with h | ⟨n, h⟩
  · rw [h]
    exact hsuffix "_coerced" hcoerced
  · have hnumbered : numbered s!"{label}_{field}_coerced" n =
        label ++ "_" ++ field ++ ("_coerced" ++ "_" ++ n.repr) := by
      rw [← String.append_assoc, ← String.append_assoc]
      rfl
    rw [h, hnumbered]
    refine hsuffix _ fun d hd => ?_
    rw [String.toList_append, String.toList_append] at hd
    rcases List.mem_append.1 hd with hd | hd
    · rcases List.mem_append.1 hd with hd | hd
      · exact hcoerced d hd
      · rw [List.mem_singleton.1 hd]
        rfl
    · exact isIdentifierChar_of_mem_repr hd

end Reference

/-! ## Structure -/

theorem AuthoredStep.readable_rebound_iff {s : AuthoredStep} {field : String} {v : Value}
    (hs : s.Readable) : (s.rebound field v).Readable ↔ ∃ b, Binding.parse v = .ok b := by
  constructor
  · intro h
    exact h.bindings (field, v) (Table.mem_of_get? (Table.get?_set_self _ _ _))
  · intro hv
    refine ⟨hs.capability, hs.label, fun b hb => ?_, hs.condition, hs.gates⟩
    rcases Table.of_mem_set hb with hb | rfl
    · exact hs.bindings b hb
    · exact hv

/-- A new step that uses no group and has no failures keeps a document structured if it can be read,
and so can the binding that is changed. -/
theorem AuthoredWorkflow.isStructured_mended_iff {w : AuthoredWorkflow} {cap i : Nat}
    {new s : AuthoredStep} {field : String} {v : Value} (h : w.IsStructured cap)
    (hs : w.steps[i]? = some s) (hlabel : new.label ∉ w.steps.map (·.label))
    (hgroup : new.group = none) (hfailures : new.failures = []) :
    (w.mended i new field v).IsStructured cap ↔
      new.Readable ∧ ∃ b, Binding.parse v = .ok b := by
  have hread : (s.rebound field v).Readable ↔ ∃ b, Binding.parse v = .ok b :=
    AuthoredStep.readable_rebound_iff (h.readable s (List.mem_of_getElem? hs))
  rw [← hread]
  obtain ⟨before, after, hsteps, -, hmended⟩ := exists_append_mended hs new field v
  constructor
  · intro h'
    exact ⟨h'.readable new (by simp [hmended]), h'.readable _ (by simp [hmended])⟩
  · rintro ⟨hnew, hrebound⟩
    have hsmem : s ∈ w.steps := List.mem_of_getElem? hs
    -- A step to which a failure leads is still there, perhaps with another binding.
    have hstays : ∀ t ∈ w.steps, ∃ t' ∈ (w.mended i new field v).steps, t'.label = t.label := by
      intro t ht
      rw [hsteps] at ht
      rw [hmended]
      simp only [List.mem_append, List.mem_cons] at ht ⊢
      rcases ht with ht | rfl | ht
      · exact ⟨t, .inl ht, rfl⟩
      · exact ⟨_, .inr (.inr (.inl rfl)), rfl⟩
      · exact ⟨t, .inr (.inr (.inr ht)), rfl⟩
    have hlabels : ((w.mended i new field v).steps.map (·.label)).Nodup := by
      have hold := h.labels
      rw [hsteps] at hold hlabel
      rw [hmended, List.map_append, List.map_cons, List.map_cons, List.nodup_middle]
      exact List.nodup_cons.2 ⟨by simpa [AuthoredStep.rebound] using hlabel,
        by simpa [AuthoredStep.rebound] using hold⟩
    have hbounded : ∀ t ∈ w.steps, ∀ f ∈ t.failures, f.IsBounded (w.mended i new field v) cap := by
      intro t ht f hf
      refine ⟨fun label hl => ?_, (h.failures t ht f hf).passes⟩
      obtain ⟨u, hu, hul⟩ := (h.failures t ht f hf).target label hl
      obtain ⟨u', hu', hlabel'⟩ := hstays u hu
      exact ⟨u', hu', hlabel'.trans hul⟩
    exact {
      steps := by simp [hmended]
      joins := h.joins
      readable := fun t ht => by
        rcases of_mem_mended hs ht with rfl | rfl | ht
        exacts [hnew, hrebound, h.readable t ht]
      labels := hlabels
      groups := fun t ht group hg => by
        rcases of_mem_mended hs ht with rfl | rfl | ht
        · rw [hgroup] at hg
          cases hg
        · exact h.groups s hsmem group hg
        · exact h.groups t ht group hg
      failures := fun t ht f hf => by
        rcases of_mem_mended hs ht with rfl | rfl | ht
        · rw [hfailures] at hf
          cases hf
        · exact hbounded s hsmem f hf
        · exact hbounded t ht f hf }

/-! ## Repairs -/

/-- Each coercion sets a parameter at most once, since parameters are read into a map. -/
def CoercionRegistry.SetsOnce (r : CoercionRegistry) : Prop :=
  ∀ p ∈ r.rules, p.2.params.names.Nodup

namespace Repair

variable {m : Repair}

/-- The field is bound to the output of the inserted step, with the expected type ascribed. -/
def ReadsOutput (m : Repair) : Prop :=
  ∃ r t, Binding.parse m.output = .ok (.reference r) ∧ r.producer = m.inserted ∧
    r.path = [.field m.coercion.outputField] ∧ TypeText.parse m.types.expected = .ok t ∧
      r.ascribed = some t

theorem get?_step_inputField_iff (hparams : m.coercion.params.names.Nodup) :
    m.step.bindings.get? m.coercion.inputField = some m.value ↔
      ∀ v, m.coercion.params.get? m.coercion.inputField = some v → v = m.value := by
  have hget : m.step.bindings.get? m.coercion.inputField =
      (m.coercion.params.get? m.coercion.inputField).or (some m.value) := by
    rw [step, Coercion.step, Table.get?_foldl_set hparams]
    simp [Table.get?]
  rw [hget]
  cases m.coercion.params.get? m.coercion.inputField <;> simp

theorem readable_step_iff (hid : isWellFormedId m.coercion.capability = true)
    (hparams : m.coercion.params.names.Nodup) (hvalue : ∃ b, Binding.parse m.value = .ok b) :
    m.step.Readable ↔ ∀ p ∈ m.coercion.params, ∃ b, Binding.parse p.2 = .ok b := by
  constructor
  · intro h p hp
    have hget : m.step.bindings.get? p.1 = some p.2 := by
      rw [step, Coercion.step, Table.get?_foldl_set hparams,
        (Table.get?_eq_some_iff_mem hparams).2 hp, Option.some_or]
    exact h.bindings p (Table.mem_of_get? hget)
  · intro h
    refine ⟨⟨_, rfl, hid⟩, ⟨_, rfl⟩, fun b hb => ?_, nofun, nofun⟩
    rcases Table.of_mem_foldl_set hb with hb | hb
    · rw [List.mem_singleton.1 hb]
      exact hvalue
    · exact h b hb

/-- Plain words are what it takes to read the output. -/
theorem readsOutput_iff {t : Schema} (ht : TypeText.parse m.expected.text = .ok t) :
    m.ReadsOutput ↔ Reference.isIdentifier m.inserted = true ∧
      Reference.isIdentifier m.coercion.outputField = true := by
  constructor
  · rintro ⟨r, -, hr, hproducer, hpath, -, -⟩
    obtain ⟨body, hbody⟩ := Binding.exists_parse_of_eq_reference hr
    obtain ⟨hword, hfields⟩ := Reference.isIdentifier_of_parse_eq_ok hbody
    rw [hproducer] at hword
    exact ⟨hword, hfields _ (by simp [hpath])⟩
  · rintro ⟨hinserted, hfield⟩
    obtain ⟨raw, hread⟩ := m.coercion.parse_outputReference hinserted hfield ht
    exact ⟨_, t, hread, rfl, rfl, ht, rfl⟩

end Repair

/-! ## Patches of a report -/

namespace Checker

/-- When a patch from a valid registry is applied, the document can be loaded as far as all that is
bound anew can be read. The inserted step has the value of the consumer unless a parameter sets that
field, and the consumer reads its output exactly when the texts that are joined are plain words. -/
theorem wiring_iff_isPlain (c : Checker) (version : Version) (capabilities : List Capability)
    (edges : List Edge) (hbuild : Ontology.build version capabilities edges = .ok c.ontology)
    (r : CoercionRegistry) (hregistry : c.registry = some r) (hr : r.SetsOnce)
    (hvalid : r.validate c.ontology = .ok ()) (cap : Nat) (name : String) (a : AuthoredWorkflow)
    (honce : a.BindsOnce) (hload : a.findings cap name = []) (p : Patch)
    (hp : p ∈ (c.check (.ofAuthored cap name a)).patches) :
    ∃ m, c.Offers a (a.graph name) m ∧ p.Makes m ∧ p.apply a = (m.apply a, none) ∧
      ((m.apply a).findings cap name = [] ↔
        (∀ q ∈ m.coercion.params, ∃ b, Binding.parse q.2 = .ok b) ∧
          ∃ b, Binding.parse m.output = .ok b) ∧
      (m.step.bindings.get? m.coercion.inputField = some m.value ↔
        ∀ v, m.coercion.params.get? m.coercion.inputField = some v → v = m.value) ∧
      (m.ReadsOutput ↔
        ((m.label = "" ∨ Reference.isIdentifier m.label = true) ∧
          ∀ d ∈ m.field.toList, Reference.Token.isIdentifierChar d = true) ∧
        Reference.isIdentifier m.coercion.outputField = true) := by
  obtain ⟨m, hm, hmakes⟩ := exists_offers_of_mem_patches hload honce hp
  obtain ⟨r', hr', hlookup⟩ := hm.coercion
  obtain rfl : r = r' := Option.some.inj (hregistry.symm.trans hr')
  obtain ⟨_, target, -, htarget, hrule⟩ := CoercionRegistry.exists_mem_of_lookupTypes?_eq_some hlookup
  obtain ⟨performer, _, hperforms⟩ := CoercionRegistry.validate_eq_ok_iff.1 hvalid _ hrule
  have hid : isWellFormedId m.coercion.capability = true :=
    Ontology.isWellFormedId_of_build hbuild hperforms.known
  refine ⟨m, hm, hmakes, hm.apply_eq hload hmakes, ?_,
    Repair.get?_step_inputField_iff (hr _ hrule), ?_⟩
  · rw [AuthoredWorkflow.findings_eq_nil_iff_isStructured, Repair.apply,
      AuthoredWorkflow.isStructured_mended_iff
        (AuthoredWorkflow.findings_eq_nil_iff_isStructured.1 hload) hm.consumer
        hm.label_step_notMem rfl rfl,
      Repair.readable_step_iff hid (hr _ hrule) ⟨_, hm.reference⟩]
  · rw [Repair.readsOutput_iff htarget, hm.inserted, Reference.isIdentifier_freshLabel_iff]

theorem wiring_iff_isPlain_sample :
    Ontology.build Sample.ontology.version Sample.ontology.capabilities [] =
        .ok Sample.checker.ontology ∧
      Sample.checker.registry = some Sample.registry ∧ Sample.registry.SetsOnce ∧
      Sample.registry.validate Sample.checker.ontology = .ok () ∧ Sample.workflow.BindsOnce ∧
      Sample.workflow.findings 10 "w" = [] ∧ ∃ p ∈ (Sample.checker.check Sample.entry).patches,
        ∃ m, Sample.checker.Offers Sample.workflow (Sample.workflow.graph "w") m ∧ p.Makes m ∧
          p.apply Sample.workflow = (m.apply Sample.workflow, none) ∧
          ((m.apply Sample.workflow).findings 10 "w" = [] ↔
            (∀ q ∈ m.coercion.params, ∃ b, Binding.parse q.2 = .ok b) ∧
              ∃ b, Binding.parse m.output = .ok b) ∧
          (m.step.bindings.get? m.coercion.inputField = some m.value ↔
            ∀ v, m.coercion.params.get? m.coercion.inputField = some v → v = m.value) ∧
          (m.ReadsOutput ↔
            ((m.label = "" ∨ Reference.isIdentifier m.label = true) ∧
              ∀ d ∈ m.field.toList, Reference.Token.isIdentifierChar d = true) ∧
            Reference.isIdentifier m.coercion.outputField = true) := by
  have hbuild : Ontology.build Sample.ontology.version Sample.ontology.capabilities [] =
      .ok Sample.checker.ontology :=
    Ontology.build_eq_ok_of_checkIds (Except.toOption_eq_some_iff.1 (by decide +kernel))
  have hr : Sample.registry.SetsOnce := by
    unfold CoercionRegistry.SetsOnce
    decide +kernel
  have hvalid : Sample.registry.validate Sample.checker.ontology = .ok () :=
    Except.toOption_eq_some_iff.1 (by decide +kernel)
  have honce : Sample.workflow.BindsOnce := by
    unfold AuthoredWorkflow.BindsOnce
    decide +kernel
  have hload : Sample.workflow.findings 10 "w" = [] := by decide +kernel
  have hne : (Sample.checker.check Sample.entry).patches ≠ [] := by decide +kernel
  obtain ⟨p, hp⟩ := List.exists_mem_of_ne_nil _ hne
  exact ⟨hbuild, rfl, hr, hvalid, honce, hload, p, hp,
    wiring_iff_isPlain Sample.checker _ _ [] hbuild Sample.registry rfl hr hvalid 10 "w"
      Sample.workflow honce hload p hp⟩

namespace Sample

/-- Like `ontology`, but the field of the consumer has a blank in its name. -/
def spacedOntology : Ontology where
  version := ⟨1, 0, 0, "", ""⟩
  capabilities := [
    capability "count" .anyObject (.object [("n", .scalar .integer)] [] false),
    capability "print" .anyObject (.object [("text", .scalar .string)] [] false),
    capability "show" (.object [("long text", .scalar .string)] [] false) .anyObject]
  edges := []

/-- Shows what is counted. -/
def spacedWorkflow : AuthoredWorkflow where
  steps := [
    { capability := some "count", label := some "c" },
    { capability := some "show", label := some "v"
      bindings := [("long text", .str (spanText "c.n"))] }]

def spacedChecker : Checker := { ontology := spacedOntology, registry := some registry }

end Sample

/-- The name of a field is part of the reference to the inserted step, and may make it unreadable. -/
theorem not_forall_wired : ¬ ∀ (c : Checker) (version : Version) (capabilities : List Capability)
    (edges : List Edge), Ontology.build version capabilities edges = .ok c.ontology →
      ∀ r : CoercionRegistry, c.registry = some r → r.SetsOnce → r.validate c.ontology = .ok () →
        ∀ (cap : Nat) (name : String) (a : AuthoredWorkflow), a.BindsOnce →
          a.findings cap name = [] → ∀ p ∈ (c.check (.ofAuthored cap name a)).patches,
            ∃ m, c.Offers a (a.graph name) m ∧ p.Makes m ∧ (m.apply a).findings cap name = [] ∧
              m.step.bindings.get? m.coercion.inputField = some m.value ∧ m.ReadsOutput := by
  intro h
  have hbuild : Ontology.build Sample.spacedOntology.version Sample.spacedOntology.capabilities [] =
      .ok Sample.spacedChecker.ontology :=
    Ontology.build_eq_ok_of_checkIds (Except.toOption_eq_some_iff.1 (by decide +kernel))
  have hvalid : Sample.registry.validate Sample.spacedChecker.ontology = .ok () :=
    Except.toOption_eq_some_iff.1 (by decide +kernel)
  have honce : Sample.spacedWorkflow.BindsOnce := by
    unfold AuthoredWorkflow.BindsOnce
    decide +kernel
  have hload : Sample.spacedWorkflow.findings 10 "w" = [] := by decide +kernel
  have hr : Sample.registry.SetsOnce := by
    unfold CoercionRegistry.SetsOnce
    decide +kernel
  have hfindings : ∀ p ∈ (Sample.spacedChecker.check (.ofAuthored 10 "w" Sample.spacedWorkflow)).patches,
      (p.apply Sample.spacedWorkflow).1.findings 10 "w" ≠ [] := by decide +kernel
  have hne : (Sample.spacedChecker.check (.ofAuthored 10 "w" Sample.spacedWorkflow)).patches ≠ [] := by
    decide +kernel
  obtain ⟨p, hp⟩ := List.exists_mem_of_ne_nil _ hne
  obtain ⟨m, hm, hmakes, hreload, -⟩ := h Sample.spacedChecker _ _ [] hbuild Sample.registry rfl
    hr hvalid 10 "w" Sample.spacedWorkflow honce hload p hp
  refine hfindings p hp ?_
  rw [hm.apply_eq hload hmakes]
  exact hreload

end Checker

end CapabilityFlow
