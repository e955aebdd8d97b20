import CapabilityFlow.Proofs.Check.Exclusion
import CapabilityFlow.Proofs.Except

/-!
# What makes a contract

`Scope.Conforms` says when a step respects the contract of its capability, in terms of what its
references reach (`Scope.Reaches`) and what its bindings provide (`Scope.Provides`). A step without
an error of the edges has no error of the contracts exactly when it conforms.
-/

namespace CapabilityFlow

theorem Ontology.contains_iff {o : Ontology} {id : String} :
    o.contains id = true ↔ ∃ cap, o.get? id = some cap := by
  rw [← Option.isSome_iff_exists, contains, get?, List.find?_isSome, List.any_eq_true]

/-! ## Which steps can be read -/

/-- A step can read a step that runs earlier and not in its own parallel group, and a step that does
not run earlier when a loop leads from there or later back to the reader or before it. -/
inductive Workflow.Reads (w : Workflow) (reader p : Step) : Prop where
  | earlier (hlt : p.index < reader.index)
      (hg : ∀ group, reader.group = some group → p.group ≠ some group)
  | loop {last target : Step} {f : FailureMode} (hle : reader.index ≤ p.index)
      (hlast : last ∈ w.steps) (hp : p.index ≤ last.index) (hf : f ∈ last.failures)
      (ht : target ∈ w.steps) (hgoto : f.goto = some target.label)
      (hback : target.index ≤ reader.index)

/-- Two steps run side by side unless the second is outside of the parallel group of the first. -/
theorem Step.isSibling_eq_false_iff {a b : Step} (hne : a.index ≠ b.index) :
    a.isSibling b = false ↔ ∀ group, a.group = some group → b.group ≠ some group := by
  cases hg : a.group with
  | none => simp [isSibling, hg]
  | some group => simp [isSibling, hg, hne, eq_comm]

namespace Workflow

variable {w : Workflow}

theorem WellFormed.loopVisible_iff (hw : w.WellFormed) {i j : Nat} :
    w.loopVisible i j = true ↔ i ≤ j ∧ ∃ last ∈ w.steps, j ≤ last.index ∧
      ∃ f ∈ last.failures, ∃ target ∈ w.steps, f.goto = some target.label ∧ target.index ≤ i := by
  simp only [loopVisible, recoveryLoops, List.any_flatMap, List.any_eq_true, loopsFrom,
    List.mem_filterMap, Bool.and_eq_true, decide_eq_true_eq]
  constructor
  · rintro ⟨last, hlast, l, ⟨f, hf, hl⟩, ⟨hti, hij⟩, hjl⟩
    obtain ⟨label, hgoto, hstep⟩ := Option.bind_eq_some_iff.1 hl
    obtain ⟨target, htarget, hloop⟩ := Option.bind_eq_some_iff.1 hstep
    obtain ⟨ht, rfl⟩ := hw.step?_eq_some_iff.1 htarget
    split at hloop
    · cases hloop
      exact ⟨hij, last, hlast, hjl, f, hf, target, ht, hgoto, hti⟩
    · cases hloop
  · rintro ⟨hij, last, hlast, hjl, f, hf, target, ht, hgoto, hti⟩
    refine ⟨last, hlast, ⟨target.index, last.index, f.maxLoops.getD 0⟩, ⟨f, hf, ?_⟩, ⟨hti, hij⟩, hjl⟩
    have hle : target.index ≤ last.index := by omega
    simp [hgoto, hw.step?_eq_some_iff.2 ⟨ht, rfl⟩, hle]

theorem WellFormed.reads_of_le_iff (hw : w.WellFormed) {reader p : Step}
    (h : ¬p.index < reader.index) : w.Reads reader p ↔ w.loopVisible reader.index p.index = true := by
  rw [hw.loopVisible_iff]
  constructor
  · rintro (⟨hlt, -⟩ | ⟨hle, hlast, hp, hf, ht, hgoto, hback⟩)
    · exact absurd hlt h
    · exact ⟨hle, _, hlast, hp, _, hf, _, ht, hgoto, hback⟩
  · rintro ⟨hle, last, hlast, hp, f, hf, target, ht, hgoto, hback⟩
    exact .loop hle hlast hp hf ht hgoto hback

theorem reads_of_lt_iff {reader p : Step} (h : p.index < reader.index) :
    w.Reads reader p ↔ reader.isSibling p = false := by
  rw [Step.isSibling_eq_false_iff (Nat.ne_of_gt h)]
  constructor
  · rintro (⟨-, hg⟩ | ⟨hle, -, -, -, -, -, -⟩)
    · exact hg
    · omega
  · exact .earlier h

end Workflow

namespace Scope

variable {s : Scope} {consumer : Step}

theorem producer_eq_ok_iff (hw : s.workflow.WellFormed) {r : Reference} {p : Step} :
    s.producer consumer r = .ok p ↔
      p ∈ s.workflow.steps ∧ p.label = r.producer ∧ s.workflow.Reads consumer p := by
  unfold producer
  split
  · rename_i hnone
    have h := Workflow.step?_eq_none_iff.1 hnone
    simp only [reduceCtorEq, false_iff, not_and]
    exact fun hp hl => absurd hl (h p hp)
  · rename_i q hq
    obtain ⟨hmem, hlabel⟩ := hw.step?_eq_some_iff.1 hq
    have hread : (p ∈ s.workflow.steps ∧ p.label = r.producer ∧ s.workflow.Reads consumer p) ↔
        s.workflow.Reads consumer q ∧ q = p := by
      constructor
      · rintro ⟨hp, hl, hr⟩
        obtain rfl := Option.some.inj (hq.symm.trans (hw.step?_eq_some_iff.2 ⟨hp, hl⟩))
        exact ⟨hr, rfl⟩
      · rintro ⟨hr, rfl⟩
        exact ⟨hmem, hlabel, hr⟩
    rw [hread]
    split
    · rename_i hlt
      rw [Workflow.reads_of_lt_iff hlt]
      cases consumer.isSibling q <;> simp
    · rename_i hlt
      rw [hw.reads_of_le_iff hlt]
      cases s.workflow.loopVisible consumer.index q.index with
      | true => simp
      | false =>
        simp only [Bool.false_eq_true, if_false, false_and, iff_false]
        split <;> exact nofun

theorem code_of_producer_eq_error {r : Reference} {fault : ReferenceFault}
    (h : s.producer consumer r = .error fault) :
    fault.code = .unknownProducer ∨ fault.code = .siblingReference := by
  unfold producer at h
  split at h
  · cases h
    exact .inl rfl
  split at h
  · split at h
    · cases h
      exact .inr rfl
    · cases h
  split at h
  · cases h
  split at h
  all_goals
    cases h
    exact .inl rfl

/-! ## What references reach -/

/-- What a name stands for at a step: the inputs of the workflow, or the output of a step that can
be read. A step that is labelled like the inputs cannot be named. -/
inductive Names (s : Scope) (consumer : Step) : String → Schema → Prop where
  | inputs : s.Names consumer s.inputNamespace s.inputs
  | step {p : Step} {cap : Capability} (hp : p ∈ s.workflow.steps)
      (hne : p.label ≠ s.inputNamespace) (hread : s.workflow.Reads consumer p)
      (hcap : s.ontology.get? p.capability = some cap) : s.Names consumer p.label cap.output

/-- A reference reaches a type: its path leads there from what its producer stands for. -/
def Reaches (s : Scope) (consumer : Step) (r : Reference) (t : Schema) : Prop :=
  ∃ out, s.Names consumer r.producer out ∧ out.walk r.path = .ok t

/-- The labels of a workflow are distinct, and the capabilities of its steps are known. -/
structure WellFormed (s : Scope) : Prop where
  workflow : s.workflow.WellFormed
  known : ∀ p ∈ s.workflow.steps, ∃ cap, s.ontology.get? p.capability = some cap

theorem WellFormed.producerOutput_eq_ok_iff (hs : s.WellFormed) {r : Reference} {out : Schema} :
    s.producerOutput consumer r = .ok out ↔ s.Names consumer r.producer out := by
  unfold producerOutput
  split
  · rename_i hns
    rw [Except.ok.injEq]
    constructor
    · rintro rfl
      rw [hns]
      exact .inputs
    · intro h
      rw [hns] at h
      generalize hname : s.inputNamespace = name at h
      cases h with
      | inputs => rfl
      | step _ hne => exact absurd hname.symm hne
  · rename_i hns
    constructor
    · intro h
      obtain ⟨p, hp, hout⟩ := Except.bind_eq_ok_iff.1 h
      obtain ⟨hmem, hlabel, hread⟩ := (producer_eq_ok_iff hs.workflow).1 hp
      obtain ⟨cap, hcap⟩ := hs.known p hmem
      rw [hcap] at hout
      cases hout
      rw [← hlabel] at hns ⊢
      exact .step hmem hns hread hcap
    · intro h
      generalize hname : r.producer = name at h
      cases h with
      | inputs => exact absurd hname hns
      | step hp hne hread hcap =>
        have hok := (producer_eq_ok_iff hs.workflow).2 ⟨hp, hname.symm, hread⟩
        simp [hok, hcap, bind, Except.bind, pure, Except.pure]

theorem WellFormed.reached_eq_ok_iff (hs : s.WellFormed) {r : Reference} {t : Schema} :
    s.reached consumer r = .ok t ↔ s.Reaches consumer r t := by
  unfold reached Reaches
  constructor
  · intro h
    obtain ⟨out, hout, hwalk⟩ := Except.bind_eq_ok_iff.1 h
    exact ⟨out, hs.producerOutput_eq_ok_iff.1 hout, Except.mapError_eq_ok_iff.1 hwalk⟩
  · rintro ⟨out, hname, hwalk⟩
    refine Except.bind_eq_ok_iff.2 ⟨out, hs.producerOutput_eq_ok_iff.2 hname, ?_⟩
    exact Except.mapError_eq_ok_iff.2 hwalk

theorem WellFormed.faults_eq_nil_iff (hs : s.WellFormed) {rs : List Reference} :
    s.faults consumer rs = [] ↔ ∀ r ∈ rs, ∃ t, s.Reaches consumer r t := by
  simp only [faults, List.filterMap_eq_nil_iff]
  refine forall₂_congr fun r _ => ?_
  simp only [← hs.reached_eq_ok_iff]
  cases s.reached consumer r <;> simp

theorem WellFormed.reaches_unique (hs : s.WellFormed) {r : Reference} {t t' : Schema}
    (h : s.Reaches consumer r t) (h' : s.Reaches consumer r t') : t = t' := by
  rw [← hs.reached_eq_ok_iff] at h h'
  exact Except.ok.inj (h.symm.trans h')

end Scope

/-! ## What bindings provide -/

namespace Reference

/-- The type of a reference that reaches a type: the ascribed one, where what is reached leaves it
open. -/
def typeAt (r : Reference) (reached : Schema) : Schema :=
  match r.ascribed with
  | none => reached
  | some ascribed => if reached.isAmbiguous || reached = .any then ascribed else reached

/-- What is reached has a unique type, or the ascribed type agrees with it. -/
def IsSettledAt (r : Reference) (reached : Schema) : Prop :=
  match r.ascribed with
  | none => reached.isAmbiguous = false
  | some ascribed => reached.admits ascribed = true

end Reference

/-- Every reference of a step: those of its bindings, of its condition and of its gates. -/
def Step.references (s : Step) : List Reference :=
  s.bindings.flatMap (·.2.references) ++ (s.condition.toList.flatMap (·.references) ++
    s.gates.flatMap (·.condition.references))

namespace Scope

variable {s : Scope} {consumer : Step}

/-- The type that a binding provides. -/
inductive Provides (s : Scope) (consumer : Step) : Binding → Schema → Prop where
  | reference {r : Reference} {t : Schema} (h : s.Reaches consumer r t) :
      s.Provides consumer (.reference r) (r.typeAt t)
  | template (text : String) (rs : List Reference) :
      s.Provides consumer (.template text rs) (.scalar .string)
  | composite (v : Value) (rs : List Reference) :
      s.Provides consumer (.composite v rs) (.ofValue v)
  | literal (v : Value) : s.Provides consumer (.literal v) (.ofValue v)

/-- If a binding is one reference, then its type is settled where it reaches. -/
def IsSettled (s : Scope) (consumer : Step) (b : Binding) : Prop :=
  ∀ r, b = .reference r → ∃ t, s.Reaches consumer r t ∧ r.IsSettledAt t

/-- A step respects the contract of its capability. -/
structure Conforms (s : Scope) (consumer : Step) (cap : Capability) : Prop where
  reaches : ∀ r ∈ consumer.references, ∃ t, s.Reaches consumer r t
  settled : ∀ b ∈ consumer.bindings, s.IsSettled consumer b.2
  accepted : ∀ b ∈ consumer.bindings, ∀ expected, cap.inputField? b.1 = some expected →
    ∃ t, s.Provides consumer b.2 t ∧ expected.accepts t = true
  bound : ∀ field ∈ cap.requiredInputs, consumer.bindings.has field = true

theorem WellFormed.valueType_eq_ok_iff (hs : s.WellFormed) {r : Reference} {t : Schema} :
    s.valueType consumer r = .ok t ↔
      ∃ u, s.Reaches consumer r u ∧ r.IsSettledAt u ∧ r.typeAt u = t := by
  unfold valueType
  rw [Except.bind_eq_ok_iff]
  simp only [hs.reached_eq_ok_iff, Reference.IsSettledAt, Reference.typeAt]
  refine exists_congr fun u => and_congr_right fun _ => ?_
  cases r.ascribed with
  | none => cases u.isAmbiguous <;> simp [pure, Except.pure, throw, throwThe, MonadExceptOf.throw]
  | some ascribed =>
    by_cases ha : u.admits ascribed = true
    · by_cases ho : u.isAmbiguous = true ∨ u = .any <;> simp [ha, ho, pure, Except.pure]
    · simp [ha, throw, throwThe, MonadExceptOf.throw]

/-- References inside a text or a structure only have to reach something. -/
theorem WellFormed.whole_eq_ok_iff (hs : s.WellFormed) {rs : List Reference} {t u : Schema} :
    (match s.faults consumer rs with
      | [] => Except.ok u
      | faults => .error faults) = .ok t ↔
      (∀ r ∈ rs, ∃ u, s.Reaches consumer r u) ∧ u = t := by
  rw [← hs.faults_eq_nil_iff]
  cases s.faults consumer rs <;> simp

theorem WellFormed.bindingType_eq_ok_iff (hs : s.WellFormed) {b : Binding} {t : Schema} :
    s.bindingType consumer b = .ok t ↔ (∀ r ∈ b.references, ∃ u, s.Reaches consumer r u) ∧
      s.IsSettled consumer b ∧ s.Provides consumer b t := by
  cases b with
  | reference r =>
    simp only [bindingType, Except.mapError_eq_ok_iff, hs.valueType_eq_ok_iff, Binding.references,
      List.mem_singleton, forall_eq, IsSettled, Binding.reference.injEq, forall_eq']
    constructor
    · rintro ⟨u, hu, hsettled, rfl⟩
      exact ⟨⟨u, hu⟩, ⟨u, hu, hsettled⟩, .reference hu⟩
    · rintro ⟨-, ⟨u, hu, hsettled⟩, hp⟩
      cases hp with
      | reference hv =>
        obtain rfl := hs.reaches_unique hu hv
        exact ⟨u, hu, hsettled, rfl⟩
  | template text rs =>
    refine hs.whole_eq_ok_iff.trans (and_congr_right fun _ => ?_)
    constructor
    · rintro rfl
      exact ⟨fun _ h => (by cases h), .template text rs⟩
    · rintro ⟨-, ⟨⟩⟩
      rfl
  | composite v rs =>
    refine hs.whole_eq_ok_iff.trans (and_congr_right fun _ => ?_)
    constructor
    · rintro rfl
      exact ⟨fun _ h => (by cases h), .composite v rs⟩
    · rintro ⟨-, ⟨⟩⟩
      rfl
  | literal v =>
    simp only [bindingType, Except.ok.injEq, Binding.references, List.not_mem_nil, false_implies,
      implies_true, true_and]
    constructor
    · rintro rfl
      exact ⟨fun _ h => (by cases h), .literal v⟩
    · rintro ⟨-, ⟨⟩⟩
      rfl

theorem Provides.unique (hs : s.WellFormed) {b : Binding} {t t' : Schema}
    (h : s.Provides consumer b t) (h' : s.Provides consumer b t') : t = t' := by
  cases h with
  | reference hr =>
    cases h' with
    | reference hr' => rw [hs.reaches_unique hr hr']
  | template text rs =>
    cases h'
    rfl
  | composite v rs =>
    cases h'
    rfl
  | literal v =>
    cases h'
    rfl

theorem exists_provides {b : Binding} (h : ∀ r ∈ b.references, ∃ t, s.Reaches consumer r t) :
    ∃ t, s.Provides consumer b t := by
  cases b with
  | reference r =>
    obtain ⟨t, ht⟩ := h r (List.mem_singleton_self r)
    exact ⟨_, .reference ht⟩
  | template text rs => exact ⟨_, .template text rs⟩
  | composite v rs => exact ⟨_, .composite v rs⟩
  | literal v => exact ⟨_, .literal v⟩

/-! ## Steps without errors -/

theorem isError_ofFault (l : Location) (fault : Reference × ReferenceFault) :
    (Finding.ofFault l fault).isError = true := by
  obtain ⟨r, f⟩ := fault
  cases f <;> rfl

theorem isError_undeclaredFindings {cap : Capability} {field : String} {l : Location} :
    ∀ f ∈ undeclaredFindings cap field l, f.isError = false := by
  intro f hf
  unfold undeclaredFindings at hf
  split at hf
  · cases hf
  · obtain rfl := List.mem_singleton.1 hf
    rfl

/-- Faults of a binding are never without a finding. -/
theorem ne_nil_of_bindingType_eq_error {b : Binding} {faults : List (Reference × ReferenceFault)}
    (h : s.bindingType consumer b = .error faults) : faults ≠ [] := by
  rintro rfl
  cases b with
  | reference r =>
    simp only [bindingType] at h
    cases hv : s.valueType consumer r with
    | ok t =>
      rw [hv] at h
      cases h
    | error fault =>
      rw [hv] at h
      cases h
  | template text rs =>
    simp only [bindingType] at h
    split at h
    · cases h
    · rename_i hne
      exact hne (Except.error.inj h)
  | composite v rs =>
    simp only [bindingType] at h
    split at h
    · cases h
    · rename_i hne
      exact hne (Except.error.inj h)
  | literal v => cases h

theorem bindingFindings_no_error_iff {cap : Capability} {l : Location} {b : String × Binding} :
    (∀ f ∈ s.bindingFindings consumer cap l b, f.isError = false) ↔
      ∃ t, s.bindingType consumer b.2 = .ok t ∧
        ∀ expected, cap.inputField? b.1 = some expected → expected.accepts t = true := by
  simp only [bindingFindings, List.forall_mem_append]
  rw [and_iff_right isError_undeclaredFindings]
  cases hb : s.bindingType consumer b.2 with
  | error faults =>
    obtain ⟨fault, hmem⟩ := List.exists_mem_of_ne_nil faults (ne_nil_of_bindingType_eq_error hb)
    simp only [reduceCtorEq, false_and, exists_false, iff_false, List.forall_mem_map, not_forall]
    exact ⟨fault, hmem, by simp [isError_ofFault]⟩
  | ok t =>
    simp only [Except.ok.injEq, exists_eq_left']
    cases hc : cap.inputField? b.1 with
    | none => simp
    | some expected =>
      cases ha : expected.accepts t with
      | true => simp [ha]
      | false => simp [ha, mismatch, Finding.isError, Finding.of, Code.defaultSeverity]

theorem missingFindings_no_error_iff {cap : Capability} {l : Location} :
    (∀ f ∈ missingFindings consumer cap l, f.isError = false) ↔
      ∀ field ∈ cap.requiredInputs, consumer.bindings.has field = true := by
  have herr : ∀ field m, (Finding.of .missingInput (l.inField field) m).isError = true :=
    fun _ _ => rfl
  simp only [missingFindings, List.forall_mem_map, herr, List.mem_filter]
  simp

theorem WellFormed.expressionFindings_no_error_iff (hs : s.WellFormed) {l : Location}
    {e : Expression} : (∀ f ∈ s.expressionFindings consumer l e, f.isError = false) ↔
      ∀ r ∈ e.references, ∃ t, s.Reaches consumer r t := by
  rw [← hs.faults_eq_nil_iff, List.eq_nil_iff_forall_not_mem]
  simp only [expressionFindings, List.forall_mem_map, isError_ofFault]
  simp

theorem WellFormed.exists_bindingType_iff (hs : s.WellFormed) {cap : Capability}
    {b : String × Binding} :
    (∃ t, s.bindingType consumer b.2 = .ok t ∧
        ∀ expected, cap.inputField? b.1 = some expected → expected.accepts t = true) ↔
      (∀ r ∈ b.2.references, ∃ t, s.Reaches consumer r t) ∧ s.IsSettled consumer b.2 ∧
        ∀ expected, cap.inputField? b.1 = some expected →
          ∃ t, s.Provides consumer b.2 t ∧ expected.accepts t = true := by
  constructor
  · rintro ⟨t, hb, ha⟩
    obtain ⟨hreach, hsettled, hp⟩ := hs.bindingType_eq_ok_iff.1 hb
    exact ⟨hreach, hsettled, fun expected he => ⟨t, hp, ha expected he⟩⟩
  · rintro ⟨hreach, hsettled, ha⟩
    obtain ⟨t, ht⟩ := exists_provides hreach
    refine ⟨t, hs.bindingType_eq_ok_iff.2 ⟨hreach, hsettled, ht⟩, fun expected he => ?_⟩
    obtain ⟨u, hu, hau⟩ := ha expected he
    rwa [ht.unique hs hu]

theorem conditionFindings_no_error_iff (hs : s.WellFormed) (l : Location) :
    (∀ f ∈ (match consumer.condition with
        | some e => s.expressionFindings consumer l e
        | none => []), f.isError = false) ↔
      ∀ e ∈ consumer.condition.toList, ∀ r ∈ e.references, ∃ t, s.Reaches consumer r t := by
  cases consumer.condition with
  | none => simp
  | some e => simpa using hs.expressionFindings_no_error_iff

theorem gateFindings_no_error_iff (hs : s.WellFormed) (place : Nat → Location) :
    (∀ f ∈ consumer.gates.zipIdx.flatMap fun p =>
        s.expressionFindings consumer (place p.2) p.1.condition, f.isError = false) ↔
      ∀ g ∈ consumer.gates, ∀ r ∈ g.condition.references, ∃ t, s.Reaches consumer r t := by
  simp only [List.forall_mem_flatMap, hs.expressionFindings_no_error_iff, Prod.forall,
    List.mem_zipIdx_iff_getElem?]
  constructor
  · intro h g hg
    obtain ⟨i, hi⟩ := List.getElem?_of_mem hg
    exact h g i hi
  · exact fun h g i hi => h g (List.mem_of_getElem? hi)

/-- A step has no error of its contract exactly when it conforms. -/
theorem WellFormed.stepFindings_no_error_iff (hs : s.WellFormed) {cap : Capability}
    (hcap : s.ontology.get? consumer.capability = some cap) :
    (∀ f ∈ s.stepFindings consumer, f.isError = false) ↔ s.Conforms consumer cap := by
  have hbind : ∀ l : Location,
      (∀ f ∈ consumer.bindings.flatMap (s.bindingFindings consumer cap l), f.isError = false) ↔
        ∀ b ∈ consumer.bindings, (∀ r ∈ b.2.references, ∃ t, s.Reaches consumer r t) ∧
          s.IsSettled consumer b.2 ∧ ∀ expected, cap.inputField? b.1 = some expected →
            ∃ t, s.Provides consumer b.2 t ∧ expected.accepts t = true := by
    intro l
    simp only [List.forall_mem_flatMap, bindingFindings_no_error_iff, hs.exists_bindingType_iff]
  let l := Location.atStep s.workflow.name consumer.index consumer.label
  simp only [stepFindings, hcap, List.forall_mem_append]
  refine (and_congr (and_congr (and_congr (hbind l) missingFindings_no_error_iff)
    (conditionFindings_no_error_iff hs (l.inField "condition")))
    (gateFindings_no_error_iff hs fun i => l.inField s!"gates[{i}]")).trans ?_
  constructor
  · rintro ⟨⟨⟨hb, hm⟩, hc⟩, hg⟩
    refine ⟨?_, fun b hmem => (hb b hmem).2.1, fun b hmem => (hb b hmem).2.2, hm⟩
    simp only [Step.references, List.forall_mem_append, List.forall_mem_flatMap]
    exact ⟨fun b hmem => (hb b hmem).1, hc, hg⟩
  · rintro ⟨hr, hsettled, ha, hm⟩
    simp only [Step.references, List.forall_mem_append, List.forall_mem_flatMap] at hr
    obtain ⟨hb, hc, hg⟩ := hr
    exact ⟨⟨⟨fun b hmem => ⟨hb b hmem, hsettled b hmem, ha b hmem⟩, hm⟩, hc⟩, hg⟩

end Scope

/-! ## Checked steps -/

namespace Checker

variable {c : Checker} {w : Workflow} {e : CatalogEntry}

theorem isHalting_findings_check (he : e.Loaded) :
    isHalting (c.check e).findings = isHalting (c.structureFindings e) := by
  cases h : isHalting (c.structureFindings e) with
  | true =>
    rw [check_of_isHalting h, ← h]
    exact (Finding.sort_perm _).any_eq
  | false =>
    obtain ⟨w, hw⟩ := exists_graph he h
    refine List.any_eq_false.2 fun f hf => ?_
    obtain ⟨g, hmem, rfl⟩ := exists_of_mem_findings_check he h hw hf
    rw [Finding.level_suggesting] at hmem ⊢
    rw [Finding.isError_suggesting]
    intro herr
    simp only [Bool.and_eq_true, decide_eq_true_eq] at herr
    rw [herr.1] at hmem
    exact List.any_eq_false.1 h g hmem (by simp [herr])

theorem capabilityFindings_eq_nil_iff {a : AuthoredWorkflow} (ha : e.authored = some a) :
    c.capabilityFindings e = [] ↔ ∀ s ∈ a.steps, ∀ id, s.capability = some id →
      isWellFormedId id = true → c.ontology.contains id = true := by
  have hstep : ∀ (s : AuthoredStep) (i : Nat), ((do
        let id ← s.capability
        if isWellFormedId id && !c.ontology.contains id then
          some (Finding.of .unknownCapability ((authoredLocation e.name i s).inField "capability")
            s!"Capability '{id}' is not in the ontology")
        else none) : Option Finding) = none ↔
      ∀ id, s.capability = some id → isWellFormedId id = true → c.ontology.contains id = true := by
    intro s i
    cases s.capability <;> simp
  simp only [capabilityFindings, ha, Option.map_some, Option.getD_some, List.filterMap_eq_nil_iff,
    Prod.forall, hstep, List.mem_zipIdx_iff_getElem?]
  constructor
  · intro h s hs
    obtain ⟨i, hi⟩ := List.getElem?_of_mem hs
    exact h s i hi
  · exact fun h s i hi => h s (List.mem_of_getElem? hi)

theorem capabilityFindings_eq_nil_of_not_isHalting (h : isHalting (c.structureFindings e) = false) :
    c.capabilityFindings e = [] := by
  refine List.eq_nil_iff_forall_not_mem.2 fun f hf => ?_
  obtain ⟨⟨s, i⟩, -, hs⟩ := List.mem_filterMap.1 hf
  obtain ⟨id, -, hs⟩ := Option.bind_eq_some_iff.1 hs
  have hmem : f ∈ c.structureFindings e :=
    List.mem_append_left _ (List.mem_append_right _ hf)
  split at hs
  · cases hs
    exact List.any_eq_false.1 h _ hmem rfl
  · cases hs

/-- Beyond structural errors, the ontology knows the capability of every step. -/
theorem contains_of_not_isHalting (h : isHalting (c.structureFindings e) = false)
    {a : AuthoredWorkflow} (ha : e.authored = some a) {s : AuthoredStep} (hs : s ∈ a.steps)
    {id : String} (hid : s.capability = some id) (hwf : isWellFormedId id = true) :
    c.ontology.contains id = true :=
  (capabilityFindings_eq_nil_iff ha).1 (capabilityFindings_eq_nil_of_not_isHalting h) s hs id hid hwf

theorem wellFormed_scope (he : e.Loaded) (h : isHalting (c.structureFindings e) = false)
    (hw : e.graph = some w) (inputs : Except SchemaError Schema) :
    (c.scope w inputs).WellFormed := by
  obtain ⟨cap, a, ha, hf, rfl⟩ := exists_authored he h hw
  refine ⟨AuthoredWorkflow.wellFormed_graph hf, fun p hp => ?_⟩
  obtain ⟨i, s, hs, rfl⟩ := AuthoredWorkflow.mem_steps_graph_iff.1 hp
  have hmem := List.mem_of_getElem? hs
  obtain ⟨id, hid, hwf⟩ := (AuthoredWorkflow.readable_of_findings_eq_nil hf hmem).capability
  have hcap : (s.toStep i).capability = id := by simp [AuthoredStep.toStep, hid]
  have hknown := contains_of_not_isHalting h ha hmem hid hwf
  rw [hcap]
  exact Ontology.contains_iff.1 hknown

/-- A step has an error of its contract in a report exactly when one of its findings is an error. -/
theorem hasErrorAt_contracts_iff (he : e.Loaded) (h : isHalting (c.structureFindings e) = false)
    (hw : e.graph = some w) {s : Step} (hs : s ∈ w.steps)
    (hedges : (c.check e).hasErrorAt .edges s.index = false) :
    (c.check e).hasErrorAt .contracts s.index = true ↔
      ∃ f ∈ (c.scope w (c.inputsType w)).stepFindings s, f.isError = true := by
  have hwf := (wellFormed_scope he h hw (c.inputsType w)).workflow
  have hmem : s ∈ c.contractSteps w := by
    rw [contractSteps_eq he h hw]
    exact List.mem_filter.2 ⟨hs, by simp [hedges]⟩
  rw [hasErrorAt_check_iff he h hw, Finding.mem_failedSteps_iff]
  constructor
  · rintro ⟨f, hf, herr, hi⟩
    rcases List.mem_append.1 hf with hf | hf
    · simp [(level_of_mem_inputsFindings w hf).2] at hi
    · obtain ⟨t, ht, hf⟩ := List.mem_flatMap.1 hf
      have hti := (Scope.of_mem_stepFindings _ t hf).2
      obtain rfl := hwf.eq_of_index_eq (mem_stepsExcept_iff.1 ht).1 hs
        (Option.some.inj (hti.symm.trans hi))
      exact ⟨f, hf, herr⟩
  · rintro ⟨f, hf, herr⟩
    refine ⟨f, List.mem_append_right _ (List.mem_flatMap.2 ⟨s, hmem, hf⟩), herr, ?_⟩
    exact (Scope.of_mem_stepFindings _ s hf).2

/-- Contracts are decided exactly: a step without an error of the edges has no error of the
contracts exactly when it conforms to its capability. -/
theorem not_hasErrorAt_contracts_iff (c : Checker) (e : CatalogEntry) (he : e.Loaded)
    (h : isHalting (c.check e).findings = false) :
    ∃ w, e.graph = some w ∧ ∀ s ∈ w.steps, (c.check e).hasErrorAt .edges s.index = false →
      ∃ cap, c.ontology.get? s.capability = some cap ∧
        ((c.check e).hasErrorAt .contracts s.index = false ↔
          (c.scope w (c.inputsType w)).Conforms s cap) := by
  rw [isHalting_findings_check he] at h
  obtain ⟨_, a, -, -, -, hg⟩ := he.of_findings_eq_nil (findings_eq_nil_of_not_isHalting he h)
  have hscope := wellFormed_scope he h hg (c.inputsType (a.graph e.name))
  refine ⟨a.graph e.name, hg, fun s hs hedges => ?_⟩
  obtain ⟨cap, hcap⟩ := hscope.known s hs
  refine ⟨cap, hcap, ?_⟩
  rw [← hscope.stepFindings_no_error_iff hcap, ← Bool.not_eq_true,
    hasErrorAt_contracts_iff he h hg hs hedges]
  simp

theorem not_hasErrorAt_contracts_iff_sample :
    isHalting (Sample.checker.check Sample.entry).findings = false ∧
      ∃ w, Sample.entry.graph = some w ∧ ∀ s ∈ w.steps,
        (Sample.checker.check Sample.entry).hasErrorAt .edges s.index = false →
          ∃ cap, Sample.checker.ontology.get? s.capability = some cap ∧
            ((Sample.checker.check Sample.entry).hasErrorAt .contracts s.index = false ↔
              (Sample.checker.scope w (Sample.checker.inputsType w)).Conforms s cap) :=
  have h : isHalting (Sample.checker.check Sample.entry).findings = false := by decide +kernel
  ⟨h, not_hasErrorAt_contracts_iff Sample.checker Sample.entry (.authored 10 "w" Sample.workflow) h⟩

end Checker

end CapabilityFlow
