import CapabilityFlow.Proofs.Coercion
import CapabilityFlow.Proofs.Patch.Repair

/-!
# Checking a repaired workflow again

A repair changes what no other step reads: a name stands for the same output before and after it
(`Repair.names_unique`). So the mismatch that a patch repairs is gone exactly when the input of the
consumer accepts what it then reads from the inserted step, and the inputs of the inserted step
accept what they are bound to (`Checker.roundTrips_iff_fits`).
-/

namespace CapabilityFlow

/-! ## Names -/

namespace Scope

variable {s : Scope} {consumer : Step}

theorem names_iff {x : String} {out : Schema} : s.Names consumer x out ↔
    x = s.inputNamespace ∧ out = s.inputs ∨
      x ≠ s.inputNamespace ∧ ∃ p ∈ s.workflow.steps, p.label = x ∧ s.workflow.Reads consumer p ∧
        ∃ cap, s.ontology.get? p.capability = some cap ∧ out = cap.output := by
  constructor
  · intro h
    cases h with
    | inputs => exact .inl ⟨rfl, rfl⟩
    | step hp hne hread hcap => exact .inr ⟨hne, _, hp, rfl, hread, _, hcap, rfl⟩
  · rintro (⟨rfl, rfl⟩ | ⟨hne, p, hp, rfl, hread, cap, hcap, rfl⟩)
    · exact .inputs
    · exact .step hp hne hread hcap

end Scope

/-! ## The repaired document -/

namespace Checker.Offers

variable {c : Checker} {a : AuthoredWorkflow} {m : Repair} {cap cap' : Nat} {name : String}

theorem inserted_notMem {w : Workflow} (hm : c.Offers a w m) : m.inserted ∉ a.labels := by
  rw [hm.inserted]
  exact freshLabel_notMem _ _

/-- Steps of one label run one capability, before and after the repair. -/
theorem capability_eq {w : Workflow} (hm : c.Offers a w m) (hload : a.findings cap name = [])
    (hreload : (m.apply a).findings cap' name = []) {p p' : Step} (hp : p ∈ (a.graph name).steps)
    (hp' : p' ∈ ((m.apply a).graph name).steps) (hl : p.label = p'.label) :
    p.capability = p'.capability := by
  obtain ⟨i, t, ht, rfl⟩ := AuthoredWorkflow.mem_steps_graph_iff.1 hp
  obtain ⟨j, t', ht', rfl⟩ := AuthoredWorkflow.mem_steps_graph_iff.1 hp'
  have htmem := List.mem_of_getElem? ht
  have htmem' := List.mem_of_getElem? ht'
  obtain ⟨label, hlabel⟩ := (AuthoredWorkflow.readable_of_findings_eq_nil hload htmem).label
  obtain ⟨label', hlabel'⟩ := (AuthoredWorkflow.readable_of_findings_eq_nil hreload htmem').label
  obtain rfl : label = label' := by simpa [AuthoredStep.toStep, hlabel, hlabel'] using hl
  have hcap : ∀ u ∈ a.steps, u.label = some label → u.capability = t.capability := by
    intro u hu hul
    obtain ⟨k, hk⟩ := List.getElem?_of_mem hu
    obtain rfl := AuthoredWorkflow.place_unique hload hk ht (hul.trans hlabel.symm)
    rw [Option.some.inj (hk.symm.trans ht)]
  have heq : t'.capability = t.capability := by
    rcases AuthoredWorkflow.of_mem_mended hm.consumer htmem' with rfl | rfl | hmem
    · obtain rfl : m.inserted = label := Option.some.inj hlabel'
      exact absurd (List.mem_filterMap.2 ⟨t, htmem, hlabel⟩) hm.inserted_notMem
    · exact hcap m.consumer (List.mem_of_getElem? hm.consumer) hlabel'
    · exact hcap t' hmem hlabel'
  simp [AuthoredStep.toStep, heq]

/-- A name that stands for something before and after the repair stands for the same output. -/
theorem names_unique (hm : c.Offers a (a.graph name) m) (hload : a.findings cap name = [])
    (hreload : (m.apply a).findings cap' name = []) {k k' : Step} {x : String} {out out' : Schema}
    (h : (c.scope (a.graph name) (c.inputsType (a.graph name))).Names k x out)
    (h' : (c.scope ((m.apply a).graph name) (c.inputsType ((m.apply a).graph name))).Names k' x out') :
    out = out' := by
  rcases Scope.names_iff.1 h with ⟨hns, rfl⟩ | ⟨hns, p, hp, hl, -, performer, hperformer, rfl⟩
  · rcases Scope.names_iff.1 h' with ⟨-, rfl⟩ | ⟨hns', -⟩
    · rfl
    · exact absurd hns hns'
  · rcases Scope.names_iff.1 h' with ⟨hns', -⟩ | ⟨-, p', hp', hl', -, performer', hperformer', rfl⟩
    · exact absurd hns' hns
    · have hcap := hm.capability_eq hload hreload hp hp' (hl.trans hl'.symm)
      rw [hcap] at hperformer
      rw [Option.some.inj (hperformer.symm.trans hperformer')]

/-- The check of the repaired document goes on beyond its structure. -/
theorem isHalting_eq_false (hm : c.Offers a (a.graph name) m)
    (h : isHalting (c.structureFindings (.ofAuthored cap name a)) = false)
    (hknown : c.ontology.contains m.coercion.capability = true)
    (hreload : (m.apply a).findings cap' name = []) :
    isHalting (c.structureFindings (.ofAuthored cap' name (m.apply a))) = false := by
  have hversion : ∀ f ∈ (c.versionFinding? (.ofAuthored cap name a)).toList, f.isError = false := by
    intro f hf
    have hmem : f ∈ c.structureFindings (.ofAuthored cap name a) := List.mem_append_right _ hf
    have hlevel := c.level_of_mem_structureFindings (.authored cap name a) hmem
    simpa [hlevel] using List.any_eq_false.1 h f hmem
  have hcapability : c.capabilityFindings (.ofAuthored cap' name (m.apply a)) = [] := by
    refine (capabilityFindings_eq_nil_iff rfl).2 fun t ht id hid hwf => ?_
    rcases AuthoredWorkflow.of_mem_mended hm.consumer ht with rfl | rfl | hmem
    · rwa [← Option.some.inj hid]
    · exact contains_of_not_isHalting h rfl (List.mem_of_getElem? hm.consumer) hid hwf
    · exact contains_of_not_isHalting h rfl hmem hid hwf
  have hfindings : c.structureFindings (.ofAuthored cap' name (m.apply a)) =
      (c.versionFinding? (.ofAuthored cap name a)).toList := by
    have hnil : (CatalogEntry.ofAuthored cap' name (m.apply a)).findings = [] := hreload
    rw [structureFindings, hnil, hcapability]
    rfl
  rw [hfindings]
  refine List.any_eq_false.2 fun f hf => ?_
  rw [hversion f hf]
  simp

end Checker.Offers

/-! ## Mismatches at the two steps -/

/-- A report has no mismatch where a patch mends one, neither at the field that it binds anew nor at
the step that it inserts. -/
structure Patch.RoundTrips (p : Patch) (r : WorkflowReport) : Prop where
  rebound : ∀ f ∈ r.mismatchesAt p.step, f.location.field ≠ some p.field
  inserted : ∀ label, p.insertedLabel? = some label → r.mismatchesAt label = []

namespace Repair

variable (m : Repair)

/-- What references are followed in after a repair. -/
def scope (c : Checker) (name : String) (a : AuthoredWorkflow) : Scope :=
  c.scope ((m.apply a).graph name) (c.inputsType ((m.apply a).graph name))

/-- The inserted step in the graph. -/
def insertedStep : Step :=
  m.step.toStep m.place

/-- The consumer in the graph after the repair. -/
def reboundStep : Step :=
  (m.consumer.rebound m.field m.output).toStep (m.place + 1)

theorem scope_eq (c : Checker) (name : String) (a : AuthoredWorkflow) : m.scope c name a =
    c.scope ((m.apply a).graph name) (c.inputsType ((m.apply a).graph name)) := rfl

theorem index_insertedStep : m.insertedStep.index = m.place := rfl

theorem index_reboundStep : m.reboundStep.index = m.place + 1 := rfl

/-- What the field of the consumer is bound to fits. -/
def ReboundFits (s : Scope) (taker : Capability) : Prop :=
  ∀ b, Binding.parse m.output = .ok b → s.Fits m.reboundStep taker (m.field, b)

/-- All that the inserted step is bound to fits. -/
def InsertedFits (s : Scope) (performer : Capability) : Prop :=
  ∀ b ∈ m.insertedStep.bindings, s.Fits m.insertedStep performer b

/-- The type that the consumer finds at the output of the coercion: the declared one, or the target
of the coercion where that is left open. -/
def delivered (out : Schema) : Schema :=
  if out.isAmbiguous || out = .any then m.coercion.target else out

/-- The reference to the output of the inserted step is written with plain words, and the inputs of
the workflow have another name. -/
structure IsPlain (inputNamespace : String) : Prop where
  label : Reference.isIdentifier m.inserted = true
  field : Reference.isIdentifier m.coercion.outputField = true
  other : m.inserted ≠ inputNamespace

end Repair

namespace Checker.Offers

variable {c : Checker} {a : AuthoredWorkflow} {m : Repair} {cap cap' : Nat} {name : String}

/-- The field of the consumer is bound to what the output is read as, and to nothing else. -/
theorem mem_bindings_reboundStep_iff {w : Workflow} (hm : c.Offers a w m) (honce : a.BindsOnce)
    {b : String × Binding} (hb : b.1 = m.field) :
    b ∈ m.reboundStep.bindings ↔ Binding.parse m.output = .ok b.2 := by
  have hnodup := Table.nodup_names_set (honce _ (List.mem_of_getElem? hm.consumer)) m.field m.output
  have hmem : ∀ v, (m.field, v) ∈ m.consumer.bindings.set m.field m.output ↔ m.output = v := by
    intro v
    rw [← Table.get?_eq_some_iff_mem hnodup, Table.get?_set_self, Option.some.injEq]
  rw [Repair.reboundStep, AuthoredStep.mem_bindings_toStep_iff, hb]
  simp only [AuthoredStep.rebound, hmem, exists_eq_left']

theorem mem_steps_insertedStep {w : Workflow} (hm : c.Offers a w m) :
    m.insertedStep ∈ ((m.apply a).graph name).steps :=
  AuthoredWorkflow.mem_steps_graph_iff.2
    ⟨m.place, m.step, AuthoredWorkflow.getElem?_mended_self hm.consumer, rfl⟩

theorem mem_steps_reboundStep {w : Workflow} (hm : c.Offers a w m) :
    m.reboundStep ∈ ((m.apply a).graph name).steps :=
  AuthoredWorkflow.mem_steps_graph_iff.2
    ⟨m.place + 1, _, AuthoredWorkflow.getElem?_mended_succ hm.consumer, rfl⟩

/-- Unless a parameter has its field, the inserted step is bound to what did not fit. -/
theorem source_mem_insertedStep {w : Workflow} (hm : c.Offers a w m)
    (hparam : m.coercion.params.has m.coercion.inputField = false) :
    (m.coercion.inputField, .reference m.reference) ∈ m.insertedStep.bindings := by
  have hnot : m.coercion.inputField ∉ m.coercion.params.names := by
    rw [← List.contains_iff_mem, ← Table.has, hparam]
    exact Bool.false_ne_true
  exact AuthoredStep.mem_bindings_toStep_iff.2
    ⟨m.value, Table.mem_foldl_set_of_notMem List.mem_cons_self hnot, hm.reference⟩

/-- All else that the inserted step is bound to are parameters. -/
theorem of_mem_insertedStep {w : Workflow} (hm : c.Offers a w m) {b : String × Binding}
    (hb : b ∈ m.insertedStep.bindings) : b = (m.coercion.inputField, .reference m.reference) ∨
      ∃ v, (b.1, v) ∈ m.coercion.params ∧ Binding.parse v = .ok b.2 := by
  obtain ⟨v, hv, hparse⟩ := AuthoredStep.mem_bindings_toStep_iff.1 hb
  rcases Table.of_mem_foldl_set hv with hsource | hparam
  · obtain ⟨hfield, rfl⟩ := Prod.mk.inj (List.mem_singleton.1 hsource)
    have hreference : b.2 = .reference m.reference := Except.ok.inj (hparse.symm.trans hm.reference)
    exact .inl (Prod.ext hfield hreference)
  · exact .inr ⟨v, hparam, hparse⟩

/-- A reference of the consumer to the output field of the inserted step reaches what the performer
declares there. -/
theorem reaches_output (hm : c.Offers a (a.graph name) m) {performer : Capability} {out : Schema}
    (hperforms : CoercionRegistry.Performs c.ontology m.coercion performer out)
    (hns : m.inserted ≠ c.settings.inputNamespace) (ascribed : Option Schema) (raw : String) :
    (m.scope c name a).Reaches m.reboundStep
      ⟨m.inserted, [.field m.coercion.outputField], ascribed, raw⟩ out := by
  have hreads : ((m.apply a).graph name).Reads m.reboundStep m.insertedStep :=
    .earlier (Nat.lt_succ_self m.place) fun _ _ => nofun
  have hname : (m.scope c name a).Names m.reboundStep m.insertedStep.label performer.output :=
    .step hm.mem_steps_insertedStep hns hreads hperforms.known
  exact ⟨performer.output, hname, hperforms.yields⟩

/-- A patch leaves no mismatch exactly when everything fits at the two steps, as far as they are
looked at. -/
theorem roundTrips_check_iff (hm : c.Offers a (a.graph name) m) (honce : a.BindsOnce) {p : Patch}
    (hp : p.Makes m)
    (h : isHalting (c.structureFindings (.ofAuthored cap' name (m.apply a))) = false)
    (hreload : (m.apply a).findings cap' name = []) {taker performer : Capability}
    (htaker : c.ontology.get? m.reboundStep.capability = some taker)
    (hperformer : c.ontology.get? m.insertedStep.capability = some performer) :
    p.RoundTrips (c.check (.ofAuthored cap' name (m.apply a))) ↔
      ((c.check (.ofAuthored cap' name (m.apply a))).hasErrorAt .edges (m.place + 1) = true ∨
        m.ReboundFits (m.scope c name a) taker) ∧
      ((c.check (.ofAuthored cap' name (m.apply a))).hasErrorAt .edges m.place = true ∨
        m.InsertedFits (m.scope c name a) performer) := by
  have he := CatalogEntry.Loaded.authored cap' name (m.apply a)
  have hw := CatalogEntry.graph_ofAuthored hreload
  have hlabel : m.reboundStep.label = p.step := by
    rw [hp.step]
    exact congrArg (Option.getD · "") hm.label
  have hinserted : p.insertedLabel? = some m.insertedStep.label := by
    rw [Patch.insertedLabel?, hp.edits]
    rfl
  -- At the consumer only the field counts that is bound anew.
  have hconsumer := forall_mismatchesAt_check_iff (P := (· = some p.field)) he h hw
    hm.mem_steps_reboundStep htaker
  rw [hlabel, m.index_reboundStep, ← m.scope_eq] at hconsumer
  have hfield : (∀ b ∈ m.reboundStep.bindings, some b.1 = some p.field →
      (m.scope c name a).Fits m.reboundStep taker b) ↔ m.ReboundFits (m.scope c name a) taker := by
    rw [hp.field]
    constructor
    · intro hall x hx
      exact hall (m.field, x) ((hm.mem_bindings_reboundStep_iff honce rfl).2 hx) rfl
    · rintro hfits ⟨field, x⟩ hb hfield
      obtain rfl : field = m.field := Option.some.inj hfield
      exact hfits x ((hm.mem_bindings_reboundStep_iff honce rfl).1 hb)
  -- At the inserted step every field counts.
  have hstep := forall_mismatchesAt_check_iff (P := fun _ => True) he h hw
    hm.mem_steps_insertedStep hperformer
  rw [m.index_insertedStep, ← m.scope_eq] at hstep
  generalize c.check (.ofAuthored cap' name (m.apply a)) = report at hconsumer hstep ⊢
  constructor
  · rintro ⟨hrebound, hnone⟩
    refine ⟨(hconsumer.1 hrebound).imp_right hfield.1, (hstep.1 ?_).imp_right ?_⟩
    · rw [hnone _ hinserted]
      exact fun f hf => absurd hf List.not_mem_nil
    · exact fun hall b hb => hall b hb trivial
  · rintro ⟨hrebound, hfits⟩
    refine ⟨hconsumer.2 (hrebound.imp_right hfield.2), fun label hlabel => ?_⟩
    obtain rfl := Option.some.inj (hinserted.symm.trans hlabel)
    refine List.eq_nil_iff_forall_not_mem.2 fun f hf => ?_
    exact hstep.2 (hfits.imp_right fun hall b hb _ => hall b hb) f hf trivial

/-- With plain words, the consumer is bound to what the coercion delivers. -/
theorem reboundFits_iff (hm : c.Offers a (a.graph name) m) {performer taker : Capability}
    {out : Schema} (hperforms : CoercionRegistry.Performs c.ontology m.coercion performer out)
    (hs : (m.scope c name a).WellFormed) (hplain : m.IsPlain c.settings.inputNamespace)
    (htarget : TypeText.parse m.expected.text = .ok m.coercion.target)
    (htaker : taker.inputField? m.field = some m.expected) :
    m.ReboundFits (m.scope c name a) taker ↔ m.expected.accepts (m.delivered out) = true := by
  obtain ⟨raw, hread⟩ := m.coercion.parse_outputReference hplain.label hplain.field htarget
  have htype : (m.scope c name a).bindingType m.reboundStep
      (.reference ⟨m.inserted, [.field m.coercion.outputField], some m.coercion.target, raw⟩) =
      .ok (m.delivered out) :=
    Except.mapError_eq_ok_iff.2 (hs.valueType_eq_ok_iff.2
      ⟨out, hm.reaches_output hperforms hplain.other _ _, hperforms.admits, rfl⟩)
  constructor
  · intro h
    exact h _ hread _ _ htype htaker
  · intro haccepts b hb found expected hfound hexpected
    obtain rfl := Except.ok.inj (hread.symm.trans hb)
    obtain rfl := Except.ok.inj (htype.symm.trans hfound)
    obtain rfl := Option.some.inj (htaker.symm.trans hexpected)
    exact haccepts

/-- The inserted step finds the type that the consumer found before, unless the reference is lost to
it. -/
theorem fits_source_iff (hm : c.Offers a (a.graph name) m) (hload : a.findings cap name = [])
    (hreload : (m.apply a).findings cap' name = []) {performer : Capability}
    (hs : (c.scope (a.graph name) (c.inputsType (a.graph name))).WellFormed)
    (hs' : (m.scope c name a).WellFormed) :
    (m.scope c name a).Fits m.insertedStep performer
        (m.coercion.inputField, .reference m.reference) ↔
      ∀ t expected, (m.scope c name a).Reaches m.insertedStep m.reference t →
        performer.inputField? m.coercion.inputField = some expected →
          expected.accepts m.found = true := by
  obtain ⟨u, ⟨out, hname, hwalk⟩, hsettled, hfound⟩ := hs.valueType_eq_ok_iff.1 hm.found
  have hreached : ∀ t, (m.scope c name a).Reaches m.insertedStep m.reference t → t = u := by
    rintro t ⟨out', hname', hwalk'⟩
    obtain rfl := hm.names_unique hload hreload hname hname'
    exact Except.ok.inj (hwalk'.symm.trans hwalk)
  constructor
  · intro h t expected ht hexpected
    obtain rfl := hreached t ht
    have htype := hs'.valueType_eq_ok_iff.2 ⟨t, ht, hsettled, hfound⟩
    exact h _ _ (Except.mapError_eq_ok_iff.2 htype) hexpected
  · intro h found expected htype hexpected
    obtain ⟨t, ht, -, rfl⟩ := hs'.valueType_eq_ok_iff.1 (Except.mapError_eq_ok_iff.1 htype)
    obtain rfl := hreached t ht
    rw [hfound]
    exact h t expected ht hexpected

end Checker.Offers

/-! ## Round trips -/

namespace Checker

/-- What a patch does to a document: a repair, and how the types at its two steps compare. `taker` is
the capability of the consumer, `performer` that of the coercion, with `out` at its output field. -/
structure Outcome (c : Checker) (name : String) (a : AuthoredWorkflow) (p : Patch) (m : Repair)
    (taker performer : Capability) (out : Schema) : Prop where
  offers : c.Offers a (a.graph name) m
  makes : p.Makes m
  apply_eq : (p.apply a).1 = m.apply a
  takes : c.ontology.get? m.reboundStep.capability = some taker
  expected : taker.inputField? m.field = some m.expected
  performs : CoercionRegistry.Performs c.ontology m.coercion performer out
  /-- With plain words, the consumer has to accept what the coercion delivers. -/
  reboundFits_iff : m.IsPlain c.settings.inputNamespace →
    (m.ReboundFits (m.scope c name a) taker ↔ m.expected.accepts (m.delivered out) = true)
  /-- The inserted step is bound to the source, unless a parameter has its field. -/
  source_mem : m.coercion.params.has m.coercion.inputField = false →
    (m.coercion.inputField, .reference m.reference) ∈ m.insertedStep.bindings
  /-- All else that it is bound to are parameters. -/
  of_mem_bindings : ∀ b ∈ m.insertedStep.bindings,
    b = (m.coercion.inputField, .reference m.reference) ∨
      ∃ v, (b.1, v) ∈ m.coercion.params ∧ Binding.parse v = .ok b.2
  /-- The source fits when the field accepts what did not fit the consumer, or when the inserted
  step cannot read it. -/
  source_fits_iff : (m.scope c name a).Fits m.insertedStep performer
      (m.coercion.inputField, .reference m.reference) ↔
    ∀ t expected, (m.scope c name a).Reaches m.insertedStep m.reference t →
      performer.inputField? m.coercion.inputField = some expected →
        expected.accepts m.found = true

/-- When a patch from a valid registry is applied, and the document can still be loaded, then no
mismatch is left at the rebound field and at the inserted step exactly when all fits that the two
steps are bound to. A step that violates an edge is not looked at. -/
theorem roundTrips_iff_fits (c : Checker) (ds : List CoercionDeclaration) (r : CoercionRegistry)
    (hr : CoercionRegistry.ofDeclarations ds = .ok r) (hregistry : c.registry = some r)
    (hvalid : r.validate c.ontology = .ok ()) (cap cap' : Nat) (name : String)
    (a : AuthoredWorkflow) (honce : a.BindsOnce) (hload : a.findings cap name = []) (p : Patch)
    (hp : p ∈ (c.check (.ofAuthored cap name a)).patches)
    (hreload : (p.apply a).1.findings cap' name = []) :
    ∃ m taker performer out, c.Outcome name a p m taker performer out ∧
      (p.RoundTrips (c.check (.ofAuthored cap' name (p.apply a).1)) ↔
        ((c.check (.ofAuthored cap' name (p.apply a).1)).hasErrorAt .edges (m.place + 1) = true ∨
          m.ReboundFits (m.scope c name a) taker) ∧
        ((c.check (.ofAuthored cap' name (p.apply a).1)).hasErrorAt .edges m.place = true ∨
          m.InsertedFits (m.scope c name a) performer)) := by
  obtain ⟨m, hm, hmakes⟩ := exists_offers_of_mem_patches hload honce hp
  have happly : (p.apply a).1 = m.apply a := by rw [hm.apply_eq hload hmakes]
  rw [happly] at hreload ⊢
  have h := not_isHalting_of_mem_patches hp
  -- The registry is valid, so the ontology performs the coercion.
  obtain ⟨r', hr', hlookup⟩ := hm.coercion
  obtain rfl : r = r' := Option.some.inj (hregistry.symm.trans hr')
  obtain ⟨⟨key, hrule⟩, -, htarget⟩ :=
    (CoercionRegistry.wellKeyed_ofDeclarations hr).of_lookupTypes?_eq_some hlookup
  obtain ⟨performer, out, hperforms⟩ := CoercionRegistry.validate_eq_ok_iff.1 hvalid _ hrule
  have hknown : c.ontology.contains m.coercion.capability = true :=
    Ontology.contains_iff.2 ⟨performer, hperforms.known⟩
  obtain ⟨taker, htaker, hexpected⟩ := hm.expected
  -- Both checks go on beyond the structure.
  have hs := wellFormed_scope (.authored cap name a) h (CatalogEntry.graph_ofAuthored hload)
    (c.inputsType (a.graph name))
  have h' := hm.isHalting_eq_false h hknown hreload
  have hs' : (m.scope c name a).WellFormed :=
    wellFormed_scope (.authored cap' name (m.apply a)) h' (CatalogEntry.graph_ofAuthored hreload) _
  refine ⟨m, taker, performer, out, ?_,
    hm.roundTrips_check_iff honce hmakes h' hreload htaker hperforms.known⟩
  exact {
    offers := hm
    makes := hmakes
    apply_eq := happly
    takes := htaker
    expected := hexpected
    performs := hperforms
    reboundFits_iff := fun hplain => hm.reboundFits_iff hperforms hs' hplain htarget hexpected
    source_mem := hm.source_mem_insertedStep
    of_mem_bindings := fun _ => hm.of_mem_insertedStep
    source_fits_iff := hm.fits_source_iff hload hreload hs hs' }

namespace Sample

/-- The declaration of what the registry holds. -/
def declarations : List CoercionDeclaration :=
  [⟨"integer", "string", "print", "source", "text", [], ""⟩]

/-- `parse` is declared to make numbers, and is registered to make integers. -/
def looseOntology : Ontology where
  version := ⟨1, 0, 0, "", ""⟩
  capabilities := [
    capability "read" .anyObject (.object [("text", .scalar .string)] [] false),
    capability "parse" (.object [("source", .scalar .string)] ["source"] false)
      (.object [("result", .scalar .number)] [] false),
    capability "pick" (.object [("place", .scalar .integer)] ["place"] false) .anyObject]
  edges := []

def looseDeclarations : List CoercionDeclaration :=
  [⟨"string", "integer", "parse", "source", "result", [], ""⟩]

def looseRegistry : CoercionRegistry :=
  ⟨[(("string", "integer"),
    ⟨.scalar .string, .scalar .integer, "parse", "source", "result", [], ""⟩)]⟩

/-- Picks what is read. -/
def looseWorkflow : AuthoredWorkflow where
  steps := [
    { capability := some "read", label := some "r" },
    { capability := some "pick", label := some "p"
      bindings := [("place", .str (spanText "r.text"))] }]

def looseChecker : Checker := { ontology := looseOntology, registry := some looseRegistry }

end Sample

theorem roundTrips_iff_fits_sample : CoercionRegistry.ofDeclarations Sample.declarations =
      .ok Sample.registry ∧ Sample.checker.registry = some Sample.registry ∧
    Sample.registry.validate Sample.checker.ontology = .ok () ∧ Sample.workflow.BindsOnce ∧
    Sample.workflow.findings 10 "w" = [] ∧ ∃ p ∈ (Sample.checker.check Sample.entry).patches,
      (p.apply Sample.workflow).1.findings 10 "w" = [] ∧ ∃ m taker performer out,
        Sample.checker.Outcome "w" Sample.workflow p m taker performer out ∧
        (p.RoundTrips (Sample.checker.check (.ofAuthored 10 "w" (p.apply Sample.workflow).1)) ↔
          ((Sample.checker.check (.ofAuthored 10 "w" (p.apply Sample.workflow).1)).hasErrorAt .edges
              (m.place + 1) = true ∨
            m.ReboundFits (m.scope Sample.checker "w" Sample.workflow) taker) ∧
          ((Sample.checker.check (.ofAuthored 10 "w" (p.apply Sample.workflow).1)).hasErrorAt .edges
              m.place = true ∨
            m.InsertedFits (m.scope Sample.checker "w" Sample.workflow) performer)) := by
  have hregistry : CoercionRegistry.ofDeclarations Sample.declarations = .ok Sample.registry :=
    Except.toOption_eq_some_iff.1 (by decide +kernel)
  have hvalid : Sample.registry.validate Sample.checker.ontology = .ok () :=
    Except.toOption_eq_some_iff.1 (by decide +kernel)
  have honce : Sample.workflow.BindsOnce := by
    unfold AuthoredWorkflow.BindsOnce
    decide +kernel
  have hload : Sample.workflow.findings 10 "w" = [] := by decide +kernel
  have hreload : ∀ p ∈ (Sample.checker.check Sample.entry).patches,
      (p.apply Sample.workflow).1.findings 10 "w" = [] := by decide +kernel
  have hne : (Sample.checker.check Sample.entry).patches ≠ [] := by decide +kernel
  obtain ⟨p, hp⟩ := List.exists_mem_of_ne_nil _ hne
  exact ⟨hregistry, rfl, hvalid, honce, hload, p, hp, hreload p hp,
    roundTrips_iff_fits Sample.checker Sample.declarations Sample.registry hregistry rfl hvalid 10 10 "w"
      Sample.workflow honce hload p hp (hreload p hp)⟩

/-- A coercion may be valid for the other direction only: its output admits the target, but the
consumer does not accept the output. -/
theorem not_forall_roundTrips : ¬ ∀ (c : Checker) (ds : List CoercionDeclaration)
    (r : CoercionRegistry), CoercionRegistry.ofDeclarations ds = .ok r → c.registry = some r →
      r.validate c.ontology = .ok () → ∀ (cap : Nat) (name : String) (a : AuthoredWorkflow),
        a.BindsOnce → a.findings cap name = [] →
          ∀ p ∈ (c.check (.ofAuthored cap name a)).patches,
            (p.apply a).1.findings cap name = [] →
              p.RoundTrips (c.check (.ofAuthored cap name (p.apply a).1)) := by
  intro h
  have hregistry : CoercionRegistry.ofDeclarations Sample.looseDeclarations =
      .ok Sample.looseRegistry := Except.toOption_eq_some_iff.1 (by decide +kernel)
  have hvalid : Sample.looseRegistry.validate Sample.looseChecker.ontology = .ok () :=
    Except.toOption_eq_some_iff.1 (by decide +kernel)
  have honce : Sample.looseWorkflow.BindsOnce := by
    unfold AuthoredWorkflow.BindsOnce
    decide +kernel
  have hreload : ∀ p ∈ (Sample.looseChecker.check (.ofAuthored 10 "w" Sample.looseWorkflow)).patches,
      (p.apply Sample.looseWorkflow).1.findings 10 "w" = [] ∧
        ∃ f ∈ (Sample.looseChecker.check
            (.ofAuthored 10 "w" (p.apply Sample.looseWorkflow).1)).mismatchesAt p.step,
          f.location.field = some p.field := by decide +kernel
  have hne : (Sample.looseChecker.check (.ofAuthored 10 "w" Sample.looseWorkflow)).patches ≠ [] := by
    decide +kernel
  obtain ⟨p, hp⟩ := List.exists_mem_of_ne_nil _ hne
  obtain ⟨hfindings, f, hf, hfield⟩ := hreload p hp
  exact (h Sample.looseChecker Sample.looseDeclarations Sample.looseRegistry hregistry rfl hvalid 10
    "w" Sample.looseWorkflow honce (by decide +kernel) p hp hfindings).rebound f hf hfield

end Checker

end CapabilityFlow
