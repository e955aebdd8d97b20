import CapabilityFlow.Proofs.Check.Pairs

/-!
# One more step at the end

A step at the end of a workflow changes nothing of what is reported about the steps before it
(`Checker.outlinesBefore_check_followedBy`): rules about pairs report at the later step, and no step
reads a later one unless a loop leads back to it, so a step without loops is read by none before it.
What is said may change, as a name that is unknown becomes that of a later step; the outlines of the
findings (`Finding.outline`) do not.
-/

namespace CapabilityFlow

/-! ## Outlines of findings -/

namespace Finding

/-- What a finding is and where it applies, whatever it says. -/
def outline (f : Finding) : Code × Severity × Location :=
  (f.code, f.severity, f.location)

/-- A finding applies to the workflow as a whole or to a step before a place. -/
def isBefore (n : Nat) (f : Finding) : Bool :=
  f.location.index.all (· < n)

/-- The outlines of the findings that do not apply to a step from a place on. -/
def outlinesBefore (n : Nat) (fs : List Finding) : List (Code × Severity × Location) :=
  (fs.filter (isBefore n)).map outline

variable {n : Nat} {fs gs : List Finding}

theorem outlinesBefore_append :
    outlinesBefore n (fs ++ gs) = outlinesBefore n fs ++ outlinesBefore n gs := by
  simp [outlinesBefore]

theorem outlinesBefore_flatMap {α : Type} {l : List α} {f : α → List Finding} :
    outlinesBefore n (l.flatMap f) = l.flatMap fun a => outlinesBefore n (f a) := by
  simp [outlinesBefore, List.filter_flatMap, List.map_flatMap]

theorem outlinesBefore_eq_nil (h : ∀ f ∈ fs, f.location.index = some n) :
    outlinesBefore n fs = [] := by
  rw [outlinesBefore, List.map_eq_nil_iff, List.filter_eq_nil_iff]
  intro f hf
  simp [isBefore, h f hf]

theorem outlinesBefore_eq_filter : outlinesBefore n fs =
    (fs.map outline).filter fun x => x.2.2.index.all (· < n) := by
  rw [List.filter_map]
  rfl

theorem outlinesBefore_of_map_outline (h : fs.map outline = gs.map outline) :
    outlinesBefore n fs = outlinesBefore n gs := by
  rw [outlinesBefore_eq_filter, outlinesBefore_eq_filter, h]

/-- Which steps have an error can be told from the outlines. -/
theorem mem_failedSteps_iff_outline {i : Nat} : i ∈ failedSteps fs ↔
    ∃ x ∈ fs.map outline, x.2.1 = .error ∧ x.2.2.index = some i := by
  simp only [mem_failedSteps_iff, List.mem_map, exists_exists_and_eq_and, outline, isError,
    decide_eq_true_eq]

/-- Which steps before a place have an error can be told from the outlines. -/
theorem mem_failedSteps_iff_of_outlinesBefore (h : outlinesBefore n fs = outlinesBefore n gs) {i : Nat}
    (hi : i < n) : i ∈ failedSteps fs ↔ i ∈ failedSteps gs := by
  have houtline : ∀ hs : List Finding, i ∈ failedSteps hs ↔
      ∃ o ∈ outlinesBefore n hs, o.2.1 = .error ∧ o.2.2.index = some i := by
    intro hs
    simp only [mem_failedSteps_iff_outline, outlinesBefore_eq_filter, List.mem_filter]
    refine exists_congr fun x => ⟨?_, ?_⟩
    · rintro ⟨hx, herr, hindex⟩
      exact ⟨⟨hx, by simp [hindex, hi]⟩, herr, hindex⟩
    · rintro ⟨⟨hx, -⟩, herr, hindex⟩
      exact ⟨hx, herr, hindex⟩
  rw [houtline, houtline, h]

end Finding

/-! ## A workflow and one more step -/

namespace Workflow

/-- A workflow with one more step at the end. -/
def followedBy (w : Workflow) (p : Step) : Workflow :=
  { w with steps := w.steps ++ [p] }

variable {w : Workflow} {p s : Step}

theorem WellFormed.of_followedBy (hw : (w.followedBy p).WellFormed) : w.WellFormed := by
  constructor
  · intro i s hs
    refine hw.index_eq i s ?_
    obtain ⟨hi, -⟩ := List.getElem?_eq_some_iff.1 hs
    rw [followedBy, List.getElem?_append_left hi, hs]
  · have h := hw.labels_nodup
    rw [followedBy, List.map_append] at h
    exact h.of_append_left

theorem WellFormed.index_last (hw : (w.followedBy p).WellFormed) : p.index = w.steps.length :=
  hw.index_eq _ p (by simp [followedBy])

theorem runsBefore_followedBy (hs : s.index < w.steps.length) (q : String → Bool) :
    (w.followedBy p).runsBefore s q = w.runsBefore s q := by
  rw [runsBefore, followedBy, List.take_append_of_le_length (Nat.le_of_lt hs)]
  rfl

theorem step?_followedBy (label : String) : (w.followedBy p).step? label =
    (w.step? label).or (if p.label = label then some p else none) := by
  rw [step?, followedBy, List.find?_append]
  congr 1
  split <;> simp [*]

/-- A loop from a step before the last one goes back to a step before it. -/
theorem loopsFrom_followedBy (hs : s.index < p.index) :
    (w.followedBy p).loopsFrom s = w.loopsFrom s := by
  refine List.filterMap_congr fun f _ => ?_
  cases f.goto with
  | none => rfl
  | some label =>
    simp only [Option.bind_eq_bind, Option.bind_some, step?_followedBy]
    cases w.step? label with
    | some t => rfl
    | none =>
      have hlast : ¬p.index ≤ s.index := Nat.not_le_of_lt hs
      split <;> simp [hlast]

theorem recoveryLoops_followedBy (hw : (w.followedBy p).WellFormed)
    (hp : ∀ f ∈ p.failures, f.goto = none) :
    (w.followedBy p).recoveryLoops = w.recoveryLoops := by
  have hlast : (w.followedBy p).loopsFrom p = [] := by
    refine List.filterMap_eq_nil_iff.2 fun f hf => ?_
    rw [hp f hf]
    rfl
  have hsteps : ∀ s ∈ w.steps, (w.followedBy p).loopsFrom s = w.loopsFrom s := fun s hs =>
    loopsFrom_followedBy (hw.index_last ▸ hw.of_followedBy.index_lt_length hs)
  rw [recoveryLoops, recoveryLoops, show (w.followedBy p).steps = w.steps ++ [p] from rfl,
    List.flatMap_append, List.flatMap_cons, hlast, List.flatMap_nil, List.append_nil, List.append_nil]
  exact List.flatMap_congr hsteps

/-- The same steps are left out, and the last one perhaps. -/
theorem exists_stepsExcept_followedBy (hw : (w.followedBy p).WellFormed) {places places' : List Nat}
    (h : ∀ i < p.index, i ∈ places' ↔ i ∈ places) : ∃ rest, (∀ s ∈ rest, s = p) ∧
      (w.followedBy p).stepsExcept places' = w.stepsExcept places ++ rest := by
  refine ⟨[p].filter fun s => !places'.contains s.index,
    fun s hs => List.mem_singleton.1 (List.mem_filter.1 hs).1, ?_⟩
  rw [stepsExcept, followedBy, List.filter_append]
  congr 1
  refine List.filter_congr fun s hs => ?_
  rw [Bool.not_inj_iff, Bool.eq_iff_iff, List.contains_iff_mem, List.contains_iff_mem]
  exact h s.index (hw.index_last ▸ hw.of_followedBy.index_lt_length hs)

end Workflow

/-! ## Outcomes of references -/

/-- Two outcomes are the same, or are faults with the same code. -/
inductive Alike {ε γ α : Type} (code : ε → γ) : Except ε α → Except ε α → Prop
  | same (x : Except ε α) : Alike code x x
  | faults {e e' : ε} (h : code e = code e') : Alike code (.error e) (.error e')

theorem Alike.bind {ε γ α β : Type} {code : ε → γ} {x y : Except ε α} (h : Alike code x y)
    (f : α → Except ε β) : Alike code (x >>= f) (y >>= f) := by
  cases h with
  | same => exact .same _
  | faults h => exact .faults h

namespace Scope

/-- The codes of the faults of references. -/
def codes (faults : List (Reference × ReferenceFault)) : List Code :=
  faults.map (·.2.code)

/-- A step reads alike in two scopes: producers are the same there, up to what is said of one that
cannot be read. -/
structure AgreesAt (s s' : Scope) (consumer : Step) : Prop where
  get? : ∀ id, s.ontology.get? id = s'.ontology.get? id
  name : s.workflow.name = s'.workflow.name
  inputNamespace : s.inputNamespace = s'.inputNamespace
  inputs : s.inputs = s'.inputs
  producer : ∀ r, Alike ReferenceFault.code (s.producer consumer r) (s'.producer consumer r)

variable {s s' : Scope} {consumer : Step}

namespace AgreesAt

theorem reached (h : s.AgreesAt s' consumer) (r : Reference) :
    Alike ReferenceFault.code (s.reached consumer r) (s'.reached consumer r) := by
  refine Alike.bind ?_ _
  simp only [producerOutput, h.inputNamespace, h.inputs, h.get?]
  split
  · exact .same _
  · exact (h.producer r).bind _

theorem valueType (h : s.AgreesAt s' consumer) (r : Reference) :
    Alike ReferenceFault.code (s.valueType consumer r) (s'.valueType consumer r) :=
  (h.reached r).bind _

theorem codes_faults (h : s.AgreesAt s' consumer) (rs : List Reference) :
    codes (s.faults consumer rs) = codes (s'.faults consumer rs) := by
  simp only [codes, faults, List.map_filterMap]
  refine List.filterMap_congr fun r _ => ?_
  have hr := h.reached r
  generalize s.reached consumer r = x, s'.reached consumer r = y at hr ⊢
  cases hr with
  | same => rfl
  | faults he => exact congrArg some he

theorem whole (h : s.AgreesAt s' consumer) (rs : List Reference) (t : Schema) :
    Alike codes
      (match s.faults consumer rs with
        | [] => .ok t
        | faults => .error faults)
      (match s'.faults consumer rs with
        | [] => .ok t
        | faults => .error faults) := by
  have hcodes := h.codes_faults rs
  generalize s.faults consumer rs = fs, s'.faults consumer rs = fs' at hcodes ⊢
  cases fs <;> cases fs'
  · exact .same _
  · cases hcodes
  · cases hcodes
  · exact .faults hcodes

theorem bindingType (h : s.AgreesAt s' consumer) (b : Binding) :
    Alike codes (s.bindingType consumer b) (s'.bindingType consumer b) := by
  cases b with
  | reference r =>
    have hr := h.valueType r
    simp only [Scope.bindingType]
    generalize s.valueType consumer r = x, s'.valueType consumer r = y at hr ⊢
    cases hr with
    | same => exact .same _
    | faults he => exact .faults (congrArg ([·]) he)
  | template text rs => exact h.whole rs _
  | composite v rs => exact h.whole rs _
  | literal v => exact .same _

end AgreesAt

/-- The outline of a finding about a reference shows the code of its fault. -/
theorem map_outline_ofFault (l : Location) (faults : List (Reference × ReferenceFault)) :
    (faults.map (Finding.ofFault l)).map Finding.outline =
      (codes faults).map fun code => (code, code.defaultSeverity, l) := by
  simp [codes, Function.comp_def, Finding.ofFault, Finding.outline, Finding.of]

namespace AgreesAt

theorem bindingFindings (h : s.AgreesAt s' consumer) (c : Capability) (l : Location)
    (b : String × Binding) : (s.bindingFindings consumer c l b).map Finding.outline =
      (s'.bindingFindings consumer c l b).map Finding.outline := by
  have hb := h.bindingType b.2
  simp only [Scope.bindingFindings, List.map_append]
  generalize s.bindingType consumer b.2 = x, s'.bindingType consumer b.2 = y at hb ⊢
  cases hb with
  | same => rfl
  | faults hcodes => simp only [map_outline_ofFault, hcodes]

theorem expressionFindings (h : s.AgreesAt s' consumer) (l : Location) (e : Expression) :
    (s.expressionFindings consumer l e).map Finding.outline =
      (s'.expressionFindings consumer l e).map Finding.outline := by
  simp only [Scope.expressionFindings, map_outline_ofFault, h.codes_faults]

/-- What is found at a step is the same in both scopes, up to its words. -/
theorem stepFindings (h : s.AgreesAt s' consumer) :
    (s.stepFindings consumer).map Finding.outline = (s'.stepFindings consumer).map Finding.outline := by
  unfold Scope.stepFindings
  rw [h.get?, h.name]
  cases s'.ontology.get? consumer.capability with
  | none => rfl
  | some c =>
    simp only [List.map_append, List.map_flatMap, h.bindingFindings, h.expressionFindings]
    congr 2
    cases consumer.condition with
    | none => rfl
    | some e => exact h.expressionFindings _ e

end AgreesAt

end Scope

/-! ## What one more step leaves alone -/

section

variable {w : Workflow} {p s : Step}

theorem Workflow.source_lt_of_mem_recoveryLoops (hw : w.WellFormed) {l : RecoveryLoop}
    (hl : l ∈ w.recoveryLoops) : l.source < w.steps.length := by
  obtain ⟨s, hs, hl⟩ := List.mem_flatMap.1 hl
  obtain ⟨f, -, hl⟩ := List.mem_filterMap.1 hl
  obtain ⟨label, -, hl⟩ := Option.bind_eq_some_iff.1 hl
  obtain ⟨target, -, hl⟩ := Option.bind_eq_some_iff.1 hl
  split at hl
  · cases hl
    exact hw.index_lt_length hs
  · cases hl

/-- No step before the last one can read it. Its label is then unknown, or that of a later step. -/
theorem Scope.agreesAt_followedBy (hw : (w.followedBy p).WellFormed)
    (hp : ∀ f ∈ p.failures, f.goto = none) (o : Ontology) (inputNamespace : String) (inputs : Schema)
    {consumer : Step} (hs : consumer ∈ w.steps) : AgreesAt
      ⟨o, w.followedBy p, inputNamespace, inputs⟩ ⟨o, w, inputNamespace, inputs⟩ consumer where
  get? _ := rfl
  name := rfl
  inputNamespace := rfl
  inputs := rfl
  producer r := by
    have hloops := Workflow.recoveryLoops_followedBy hw hp
    have hlt : consumer.index < p.index :=
      hw.index_last ▸ hw.of_followedBy.index_lt_length hs
    have hvisible : (w.followedBy p).loopVisible consumer.index p.index = false := by
      rw [Workflow.loopVisible, hloops, List.any_eq_false]
      intro l hl
      have hsource := Workflow.source_lt_of_mem_recoveryLoops hw.of_followedBy hl
      rw [← hw.index_last] at hsource
      simp [Nat.not_le_of_lt hsource]
    simp only [producer, Workflow.step?_followedBy]
    cases w.step? r.producer with
    | some q =>
      simp only [Option.some_or, Workflow.loopVisible, hloops]
      exact .same _
    | none =>
      rw [Option.none_or]
      by_cases hlabel : p.label = r.producer
      · simp only [hlabel, if_true, Nat.not_lt_of_lt hlt, hvisible, Nat.ne_of_gt hlt, if_false,
          Bool.false_eq_true]
        exact .faults rfl
      · simp only [hlabel, if_false]
        exact .faults rfl

end

namespace Checker

variable {c : Checker} {w : Workflow} {p s : Step}

open Finding (outlinesBefore outlinesBefore_append outlinesBefore_flatMap outlinesBefore_eq_nil)

theorem predecessorFindings_followedBy (hw : w.WellFormed) (hs : s ∈ w.steps) :
    c.predecessorFindings (w.followedBy p) s = c.predecessorFindings w s := by
  simp only [predecessorFindings, requirementFindings, softRequirementFindings, checkpointFindings,
    unmet, isSatisfiedBefore, Workflow.runsBefore_followedBy (hw.index_lt_length hs)]
  rfl

theorem safetyFindings_followedBy (hw : w.WellFormed) (hs : s ∈ w.steps) :
    c.safetyFindings (w.followedBy p) s = c.safetyFindings w s := by
  simp only [safetyFindings, sendFindings, Workflow.runsBefore_followedBy (hw.index_lt_length hs)]
  rfl

/-- A conflict with the last step is found there. -/
theorem conflictFindings_followedBy (hw : (w.followedBy p).WellFormed) :
    ∃ rest, c.conflictFindings (w.followedBy p) = c.conflictFindings w ++ rest ∧
      ∀ f ∈ rest, f.location.index = some p.index := by
  have hpairs : c.conflictPairs (w.followedBy p) = c.conflictPairs w ++
      ((w.steps.filter fun s => c.ontology.conflicts s.capability p.capability).map (·, p)) := by
    rw [conflictPairs, show (w.followedBy p).steps = w.steps ++ [p] from rfl, List.flatMap_append,
      List.flatMap_singleton, hw.index_last, List.take_left]
    congr 1
    refine List.flatMap_congr fun later hlater => ?_
    have hle := Nat.le_of_lt (hw.of_followedBy.index_lt_length hlater)
    rw [List.take_append_of_le_length hle]
  rw [conflictFindings_eq hw, conflictFindings_eq hw.of_followedBy, hpairs, List.map_append]
  refine ⟨_, rfl, ?_⟩
  simp only [List.mem_map]
  rintro _ ⟨_, ⟨earlier, -, rfl⟩, rfl⟩
  rfl

/-- A finding about the order of two steps is at the later one. -/
theorem index_of_orderFinding?_eq_some {a b : Step} {f : Finding} (h : orderFinding? w a b = some f) :
    f.location.index = some (max a.index b.index) := by
  rw [orderFinding?_eq] at h
  split at h
  · cases h
    by_cases hlt : b.index < a.index
    · rw [Nat.max_eq_left (Nat.le_of_lt hlt)]
      simp [orderFinding, hlt, Finding.of, Workflow.location, Location.atStep]
    · rw [Nat.max_eq_right (Nat.le_of_not_lt hlt)]
      simp [orderFinding, hlt, Finding.of, Workflow.location, Location.atStep]
  · cases h

theorem outlinesBefore_filterMap_orderFinding? {n : Nat} {a : Step} {l : List Step}
    (h : ∀ b ∈ l, max a.index b.index = n) :
    outlinesBefore n (l.filterMap (orderFinding? w a)) = [] := by
  refine outlinesBefore_eq_nil fun f hf => ?_
  obtain ⟨b, hb, hf⟩ := List.mem_filterMap.1 hf
  rw [index_of_orderFinding?_eq_some hf, h b hb]

theorem outlinesBefore_orderingFindings_followedBy (hw : (w.followedBy p).WellFormed) :
    outlinesBefore p.index (c.orderingFindings (w.followedBy p)) =
      outlinesBefore p.index (c.orderingFindings w) := by
  have hle : ∀ s ∈ w.steps, s.index ≤ p.index :=
    fun s hs => Nat.le_of_lt (hw.index_last ▸ hw.of_followedBy.index_lt_length hs)
  have hlast : ∀ id : String, ∀ s ∈ [p].filter (·.capability = id), s = p :=
    fun id s hs => List.mem_singleton.1 (List.mem_filter.1 hs).1
  have hfinding : orderFinding? (w.followedBy p) = orderFinding? w := rfl
  simp only [orderingFindings, outlinesBefore_flatMap, hfinding,
    show (w.followedBy p).steps = w.steps ++ [p] from rfl, List.filter_append, List.flatMap_append]
  refine List.flatMap_congr fun o _ => ?_
  have hfirst : (([p].filter (·.capability = o.1)).flatMap fun a => outlinesBefore p.index
      ((w.steps.filter (·.capability = o.2) ++ [p].filter (·.capability = o.2)).filterMap
        (orderFinding? w a))) = [] := by
    refine List.flatMap_eq_nil_iff.2 fun a ha => ?_
    obtain rfl := hlast _ a ha
    refine outlinesBefore_filterMap_orderFinding? fun b hb => Nat.max_eq_left ?_
    rcases List.mem_append.1 hb with hb | hb
    · exact hle b (List.mem_filter.1 hb).1
    · exact Nat.le_of_eq (congrArg Step.index (hlast _ b hb))
  rw [outlinesBefore_append, outlinesBefore_flatMap, outlinesBefore_flatMap, hfirst, List.append_nil]
  refine List.flatMap_congr fun a ha => ?_
  have hsecond : outlinesBefore p.index
      (([p].filter (·.capability = o.2)).filterMap (orderFinding? w a)) = [] := by
    refine outlinesBefore_filterMap_orderFinding? fun b hb => ?_
    rw [hlast _ b hb]
    exact Nat.max_eq_right (hle a (List.mem_filter.1 ha).1)
  rw [List.filterMap_append, outlinesBefore_append, hsecond, List.append_nil]

/-- What is found about relations before the last step is the same without it. -/
theorem outlinesBefore_relationFindings_followedBy (hw : (w.followedBy p).WellFormed) :
    outlinesBefore p.index (c.relationFindings (w.followedBy p)) =
      outlinesBefore p.index (c.relationFindings w) := by
  have hlast : outlinesBefore p.index (c.predecessorFindings (w.followedBy p) p) = [] := by
    refine outlinesBefore_eq_nil fun f hf => ?_
    rw [(of_mem_predecessorFindings hf).2]
    rfl
  have hsteps : (w.followedBy p).steps.flatMap (c.predecessorFindings (w.followedBy p)) =
      w.steps.flatMap (c.predecessorFindings w) ++
        c.predecessorFindings (w.followedBy p) p := by
    rw [show (w.followedBy p).steps = w.steps ++ [p] from rfl, List.flatMap_append,
      List.flatMap_singleton]
    congr 1
    exact List.flatMap_congr fun s hs => predecessorFindings_followedBy hw.of_followedBy hs
  obtain ⟨rest, hconflicts, hrest⟩ := conflictFindings_followedBy (c := c) hw
  simp only [relationFindings, hsteps, hconflicts, outlinesBefore_append, hlast, List.append_nil,
    outlinesBefore_eq_nil hrest, outlinesBefore_orderingFindings_followedBy hw]

/-! ## Contracts and policies -/

variable {steps rest : List Step}

theorem outlinesBefore_contractFindings_followedBy (hw : (w.followedBy p).WellFormed)
    (hp : ∀ f ∈ p.failures, f.goto = none) (hsteps : ∀ s ∈ steps, s ∈ w.steps)
    (hrest : ∀ s ∈ rest, s = p) :
    outlinesBefore p.index (c.contractFindings (w.followedBy p) (steps ++ rest)) =
      outlinesBefore p.index (c.contractFindings w steps) := by
  have hinputs : c.inputsType (w.followedBy p) = c.inputsType w := rfl
  have hlast : outlinesBefore p.index
      (rest.flatMap (c.scope (w.followedBy p) (c.inputsType w)).stepFindings) = [] := by
    refine outlinesBefore_eq_nil fun f hf => ?_
    obtain ⟨s, hs, hf⟩ := List.mem_flatMap.1 hf
    rw [(Scope.of_mem_stepFindings _ s hf).2, hrest s hs]
  simp only [contractFindings, hinputs, List.flatMap_append, outlinesBefore_append, hlast,
    List.append_nil, outlinesBefore_flatMap]
  refine congrArg₂ _ rfl (List.flatMap_congr fun s hs => ?_)
  exact Finding.outlinesBefore_of_map_outline
    (Scope.agreesAt_followedBy hw hp _ _ _ (hsteps s hs)).stepFindings

theorem outlinesBefore_riskFinding?_followedBy (hrest : ∀ s ∈ rest, s = p) :
    outlinesBefore p.index (c.riskFinding? (w.followedBy p) (steps ++ rest)).toList =
      outlinesBefore p.index (c.riskFinding? w steps).toList := by
  simp only [riskFinding?, show (w.followedBy p).risk = w.risk from rfl]
  cases w.risk with
  | none => rfl
  | some declared =>
    simp only [Option.bind_eq_bind, Option.bind_some, List.filterMap_append, List.find?_append]
    cases hfind : (steps.filterMap fun s => (c.stepRisk? s).map (s, ·)).find?
        fun p => declared.rank < p.2.rank with
    | some found => exact Finding.outlinesBefore_of_map_outline rfl
    | none =>
      rw [Option.none_or]
      refine outlinesBefore_eq_nil fun f hf => ?_
      obtain ⟨⟨s, risk⟩, hlast, hf⟩ := Option.bind_eq_some_iff.1 (Option.mem_toList.1 hf)
      obtain ⟨t, ht, hr⟩ := List.mem_filterMap.1 (List.mem_of_find?_eq_some hlast)
      obtain ⟨_, -, hr⟩ := Option.map_eq_some_iff.1 hr
      obtain ⟨rfl, -⟩ := Prod.mk.inj hr
      cases hf
      rw [hrest t ht]
      rfl

theorem outlinesBefore_policyFindings_followedBy (hw : (w.followedBy p).WellFormed)
    (hsteps : ∀ s ∈ steps, s ∈ w.steps) (hrest : ∀ s ∈ rest, s = p) :
    outlinesBefore p.index (c.policyFindings (w.followedBy p) (steps ++ rest)) =
      outlinesBefore p.index (c.policyFindings w steps) := by
  have hlast : outlinesBefore p.index (rest.flatMap (c.safetyFindings (w.followedBy p))) = [] := by
    refine outlinesBefore_eq_nil fun f hf => ?_
    obtain ⟨s, hs, hf⟩ := List.mem_flatMap.1 hf
    rw [(of_mem_safetyFindings hf).2, hrest s hs]
    rfl
  have hsafety : steps.flatMap (c.safetyFindings (w.followedBy p)) =
      steps.flatMap (c.safetyFindings w) :=
    List.flatMap_congr fun s hs => safetyFindings_followedBy hw.of_followedBy (hsteps s hs)
  simp only [policyFindings, List.flatMap_append, outlinesBefore_append, hlast, List.append_nil,
    hsafety, outlinesBefore_riskFinding?_followedBy hrest]

/-- The steps before the last one are looked at alike, and the last one perhaps. -/
theorem outlinesBefore_graphFindings_followedBy (hw : (w.followedBy p).WellFormed)
    (hp : ∀ f ∈ p.failures, f.goto = none) :
    outlinesBefore p.index (c.graphFindings (w.followedBy p)) =
      outlinesBefore p.index (c.graphFindings w) := by
  have hmem : ∀ places : List Nat, ∀ s ∈ w.stepsExcept places, s ∈ w.steps :=
    fun _ _ hs => (mem_stepsExcept_iff.1 hs).1
  have hrelations := outlinesBefore_relationFindings_followedBy (c := c) hw
  have hfailed : ∀ i < p.index, i ∈ Finding.failedSteps (c.relationFindings (w.followedBy p)) ↔
      i ∈ Finding.failedSteps (c.relationFindings w) :=
    fun i hi => Finding.mem_failedSteps_iff_of_outlinesBefore hrelations hi
  obtain ⟨rest, hrest, hsteps⟩ := Workflow.exists_stepsExcept_followedBy hw hfailed
  have hcontracts : outlinesBefore p.index
        (c.contractFindings (w.followedBy p) (c.contractSteps (w.followedBy p))) =
      outlinesBefore p.index (c.contractFindings w (c.contractSteps w)) := by
    rw [contractSteps, hsteps]
    exact outlinesBefore_contractFindings_followedBy hw hp (hmem _) hrest
  have hexcluded : ∀ i < p.index,
      i ∈ Finding.failedSteps (c.relationFindings (w.followedBy p)) ++ Finding.failedSteps
          (c.contractFindings (w.followedBy p) (c.contractSteps (w.followedBy p))) ↔
        i ∈ Finding.failedSteps (c.relationFindings w) ++
          Finding.failedSteps (c.contractFindings w (c.contractSteps w)) := by
    intro i hi
    rw [List.mem_append, List.mem_append, hfailed i hi,
      Finding.mem_failedSteps_iff_of_outlinesBefore hcontracts hi]
  obtain ⟨rest', hrest', hsteps'⟩ := Workflow.exists_stepsExcept_followedBy hw hexcluded
  have hpolicies : outlinesBefore p.index
        (c.policyFindings (w.followedBy p) (c.policySteps (w.followedBy p))) =
      outlinesBefore p.index (c.policyFindings w (c.policySteps w)) := by
    rw [policySteps, hsteps']
    exact outlinesBefore_policyFindings_followedBy hw (hmem _) hrest'
  simp only [graphFindings_eq, outlinesBefore_append, hrelations, hcontracts, hpolicies]

/-! ## Reports -/

@[simp] theorem outline_suggesting (f : Finding) (patch : Option Patch) :
    (f.suggesting patch).outline = f.outline := by
  cases patch <;> rfl

variable {e : CatalogEntry}

theorem perm_outlines_check (h : isHalting (c.structureFindings e) = false) (hg : e.graph = some w) :
    ((c.check e).findings.map Finding.outline).Perm
      ((c.structureFindings e ++ c.graphFindings w).map Finding.outline) := by
  rw [check_of_not_isHalting h hg]
  refine ((Finding.sort_perm _).map _).trans (List.Perm.of_eq ?_)
  rw [List.map_map]
  exact List.map_congr_left fun f _ => outline_suggesting f _

theorem perm_outlinesBefore_check (h : isHalting (c.structureFindings e) = false)
    (hg : e.graph = some w) (n : Nat) : (outlinesBefore n (c.check e).findings).Perm
      (outlinesBefore n (c.structureFindings e ++ c.graphFindings w)) := by
  rw [Finding.outlinesBefore_eq_filter, Finding.outlinesBefore_eq_filter]
  exact (perm_outlines_check h hg).filter _

/-- Beyond structural errors, the structure is only warned of for the version of the ontology. -/
theorem structureFindings_eq_of_not_isHalting (he : e.Loaded)
    (h : isHalting (c.structureFindings e) = false) :
    c.structureFindings e = (c.versionFinding? e).toList := by
  rw [structureFindings, findings_eq_nil_of_not_isHalting he h,
    capabilityFindings_eq_nil_of_not_isHalting h]
  rfl

end Checker

/-- A workflow with one more step at the end. -/
def AuthoredWorkflow.followedBy (a : AuthoredWorkflow) (s : AuthoredStep) : AuthoredWorkflow :=
  { a with steps := a.steps ++ [s] }

theorem AuthoredWorkflow.graph_followedBy (a : AuthoredWorkflow) (s : AuthoredStep) (name : String) :
    (a.followedBy s).graph name = (a.graph name).followedBy (s.toStep a.steps.length) := by
  simp [graph, followedBy, Workflow.followedBy, indexed, usableGroups, List.zipIdx_append]

namespace Checker

/-- One more step without a way back changes nothing of what is reported before it: without structural
errors, the findings about the workflow as a whole and about the steps before have the same codes, the
same severities and the same places. -/
theorem outlinesBefore_check_followedBy (c : Checker) (cap : Nat) (name : String)
    (a : AuthoredWorkflow) (s : AuthoredStep) (hs : ∀ f ∈ s.failures, f.goto = none)
    (h : isHalting (c.check (.ofAuthored cap name a)).findings = false)
    (h' : isHalting (c.check (.ofAuthored cap name (a.followedBy s))).findings = false) :
    (Finding.outlinesBefore a.steps.length
        (c.check (.ofAuthored cap name (a.followedBy s))).findings).Perm
      (Finding.outlinesBefore a.steps.length (c.check (.ofAuthored cap name a)).findings) := by
  have he : (CatalogEntry.ofAuthored cap name a).Loaded := .authored cap name a
  have he' : (CatalogEntry.ofAuthored cap name (a.followedBy s)).Loaded := .authored cap name _
  rw [isHalting_findings_check he] at h
  rw [isHalting_findings_check he'] at h'
  have hfindings : a.findings cap name = [] := findings_eq_nil_of_not_isHalting he h
  have hfindings' : (a.followedBy s).findings cap name = [] := findings_eq_nil_of_not_isHalting he' h'
  have hg := CatalogEntry.graph_ofAuthored hfindings
  have hg' := CatalogEntry.graph_ofAuthored hfindings'
  have hw := AuthoredWorkflow.wellFormed_graph hfindings'
  rw [AuthoredWorkflow.graph_followedBy] at hg' hw
  have hgoto : ∀ f ∈ (s.toStep a.steps.length).failures, f.goto = none := by
    intro f hf
    obtain ⟨g, hg, rfl⟩ := List.mem_map.1 hf
    exact hs g hg
  have hgraph : Finding.outlinesBefore a.steps.length
        (c.graphFindings ((a.graph name).followedBy (s.toStep a.steps.length))) =
      Finding.outlinesBefore a.steps.length (c.graphFindings (a.graph name)) :=
    outlinesBefore_graphFindings_followedBy hw hgoto
  have hstructure : c.structureFindings (.ofAuthored cap name (a.followedBy s)) =
      c.structureFindings (.ofAuthored cap name a) := by
    rw [structureFindings_eq_of_not_isHalting he h, structureFindings_eq_of_not_isHalting he' h']
    rfl
  refine (perm_outlinesBefore_check h' hg' _).trans
    (.trans (List.Perm.of_eq ?_) (perm_outlinesBefore_check h hg _).symm)
  rw [Finding.outlinesBefore_append, Finding.outlinesBefore_append, hstructure, hgraph]

namespace Trailing

/-- The only step reads one that is not there. -/
def workflow : AuthoredWorkflow where
  steps := [
    { capability := some "show", label := some "v"
      bindings := [("text", .str (spanText "late.n"))] }]

/-- The step that is read, but too late. -/
def step : AuthoredStep := { capability := some "count", label := some "late" }

end Trailing

theorem outlinesBefore_check_trailing :
    (∀ f ∈ Trailing.step.failures, f.goto = none) ∧
      isHalting (Sample.checker.check (.ofAuthored 10 "w" Trailing.workflow)).findings = false ∧
      isHalting (Sample.checker.check
        (.ofAuthored 10 "w" (Trailing.workflow.followedBy Trailing.step))).findings = false ∧
      (Finding.outlinesBefore Trailing.workflow.steps.length (Sample.checker.check
          (.ofAuthored 10 "w" (Trailing.workflow.followedBy Trailing.step))).findings).Perm
        (Finding.outlinesBefore Trailing.workflow.steps.length
          (Sample.checker.check (.ofAuthored 10 "w" Trailing.workflow)).findings) :=
  have hs : ∀ f ∈ Trailing.step.failures, f.goto = none := by decide
  have h : isHalting (Sample.checker.check (.ofAuthored 10 "w" Trailing.workflow)).findings = false :=
    (isHalting_findings_check (.authored 10 "w" _)).trans (by decide +kernel)
  have h' : isHalting (Sample.checker.check
      (.ofAuthored 10 "w" (Trailing.workflow.followedBy Trailing.step))).findings = false :=
    (isHalting_findings_check (.authored 10 "w" _)).trans (by decide +kernel)
  ⟨hs, h, h', outlinesBefore_check_followedBy Sample.checker 10 "w" Trailing.workflow Trailing.step
    hs h h'⟩

end Checker

end CapabilityFlow
