import CapabilityFlow.Proofs.Check.Appending

/-!
# Edges that are declared again

Whether an ontology is accepted depends on its edges as a set, and so does what is found: reports with the
edges in another order, or declared more often, hold the same outlines of findings
(`Ontology.reports_redeclared`). They differ at most in how often an unmet requirement or an unmet wish
is reported at a step, which is as often as it is declared (`Checker.not_forall_perm_outlines`).
-/

namespace CapabilityFlow

/-- The outlines of the findings of a report. -/
def WorkflowReport.outlines (r : WorkflowReport) : List (Code × Severity × Location) :=
  r.findings.map Finding.outline

/-! ## Lists that are counted -/

theorem filter_perm_of_count {α : Type} [BEq α] [LawfulBEq α] {l l' : List α} {p : α → Bool}
    (h : ∀ a, p a = true → l.count a = l'.count a) : (l.filter p).Perm (l'.filter p) := by
  refine List.perm_iff_count.2 fun a => ?_
  by_cases hp : p a = true
  · rw [List.count_filter hp, List.count_filter hp, h a hp]
  · have hnot : ∀ l : List α, (l.filter p).count a = 0 :=
      fun l => List.count_eq_zero.2 fun ha => hp (List.mem_filter.1 ha).2
    rw [hnot, hnot]

/-- Where only one item contributes to what is kept of a list, all of it comes from there. -/
theorem filter_flatMap_of_unique {α β : Type} {l : List α} {f : α → List β} {p : β → Bool} {a : α}
    (hl : l.Nodup) (ha : a ∈ l) (h : ∀ b ∈ l, b ≠ a → (f b).filter p = []) :
    (l.flatMap f).filter p = (f a).filter p := by
  obtain ⟨before, after, rfl⟩ := List.append_of_mem ha
  have hnot := (List.nodup_append.1 hl).2.2
  have hafter := (List.nodup_cons.1 (List.nodup_append.1 hl).2.1).1
  have hnil : ∀ m : List α, (∀ b ∈ m, b ∈ before ++ a :: after ∧ b ≠ a) →
      (m.flatMap f).filter p = [] := by
    intro m hm
    rw [List.filter_flatMap, List.flatMap_eq_nil_iff]
    exact fun b hb => h b (hm b hb).1 (hm b hb).2
  rw [List.flatMap_append, List.flatMap_cons, List.filter_append, List.filter_append,
    hnil before fun b hb => ⟨by simp [hb], hnot b hb a List.mem_cons_self⟩,
    hnil after fun b hb => ⟨by simp [hb], fun heq => hafter (heq ▸ hb)⟩,
    List.nil_append, List.append_nil]

/-! ## Edges as a set -/

namespace Ontology

variable {version : Version} {capabilities : List Capability} {edges edges' : List Edge} {o : Ontology}

theorem WellDeclared.of_mem_iff (h : ∀ e, e ∈ edges ↔ e ∈ edges')
    (hdeclared : WellDeclared capabilities edges) : WellDeclared capabilities edges' where
  ids := hdeclared.ids
  distinct := hdeclared.distinct
  endpoints := fun e he => hdeclared.endpoints e ((h e).2 he)
  reversed := fun e he hkind => (h _).1 (hdeclared.reversed e ((h e).2 he) hkind)

theorem Acyclic.of_mem_iff (h : ∀ e, e ∈ edges ↔ e ∈ edges') (hacyclic : Acyclic edges) :
    Acyclic edges' := by
  have hrequires : Requires edges' = Requires edges := by
    funext id target
    exact propext (h _).symm
  intro id
  rw [hrequires]
  exact hacyclic id

theorem exists_build_of_mem_iff (h : ∀ e, e ∈ edges ↔ e ∈ edges')
    (hbuild : ∃ o, build version capabilities edges = .ok o) :
    ∃ o, build version capabilities edges' = .ok o := by
  obtain ⟨o, ho⟩ := hbuild
  exact ⟨_, build_eq_ok ((wellDeclared_of_build ho).of_mem_iff h) ((acyclic_of_build ho).of_mem_iff h)⟩

/-- An ontology with other edges. -/
def withEdges (o : Ontology) (edges : List Edge) : Ontology :=
  { o with edges := edges }

theorem mem_neighbors_withEdges_iff (h : ∀ e, e ∈ edges ↔ e ∈ o.edges) {id target : String}
    {kind : EdgeKind} : target ∈ (o.withEdges edges).neighbors id kind ↔ target ∈ o.neighbors id kind := by
  rw [mem_neighbors_iff, mem_neighbors_iff]
  exact h _

theorem contains_neighbors_withEdges (h : ∀ e, e ∈ edges ↔ e ∈ o.edges) (id target : String)
    (kind : EdgeKind) :
    ((o.withEdges edges).neighbors id kind).contains target = (o.neighbors id kind).contains target := by
  rw [Bool.eq_iff_iff, List.contains_iff_mem, List.contains_iff_mem]
  exact mem_neighbors_withEdges_iff h

theorem orderings_withEdges_perm (h : ∀ e, e ∈ edges ↔ e ∈ o.edges) :
    (o.withEdges edges).orderings.Perm o.orderings := by
  refine (List.perm_ext_iff_of_nodup nodup_orderings nodup_orderings).2 fun p => ?_
  rw [mem_orderings_iff, mem_orderings_iff]
  exact or_congr (h _) (h _)

/-- Neighbors by edges that are declared equally often are the same, up to their order. -/
theorem neighbors_withEdges_perm {kind : EdgeKind}
    (h : ∀ e, e.kind = kind → edges.count e = o.edges.count e) (id : String) :
    ((o.withEdges edges).neighbors id kind).Perm (o.neighbors id kind) := by
  refine List.Perm.map _ (filter_perm_of_count fun e he => ?_)
  rw [Bool.and_eq_true, decide_eq_true_eq, decide_eq_true_eq] at he
  exact h e he.2

end Ontology

namespace Checker

/-! ## Relations between steps -/

/-- A checker with other edges. -/
def withEdges (c : Checker) (edges : List Edge) : Checker :=
  { c with ontology := c.ontology.withEdges edges }

variable {c : Checker} {w : Workflow} {s : Step} {edges : List Edge} {e : CatalogEntry}

section

variable (h : ∀ e, e ∈ edges ↔ e ∈ c.ontology.edges)
include h

theorem isSatisfiedBefore_withEdges (w : Workflow) (s : Step) (wanted : String) :
    (c.withEdges edges).isSatisfiedBefore w s wanted = c.isSatisfiedBefore w s wanted := by
  have halternatives : ∀ id : String, ((c.withEdges edges).ontology.alternatives wanted).contains id =
      (c.ontology.alternatives wanted).contains id :=
    fun id => Ontology.contains_neighbors_withEdges h wanted id .alternativeTo
  simp only [isSatisfiedBefore, halternatives]

theorem mem_unmet_withEdges_iff {kind : EdgeKind} {id : String} :
    id ∈ (c.withEdges edges).unmet w s kind ↔ id ∈ c.unmet w s kind := by
  simp only [unmet, List.mem_filter, isSatisfiedBefore_withEdges h]
  exact and_congr_left fun _ => Ontology.mem_neighbors_withEdges_iff h

theorem conflictFindings_withEdges : (c.withEdges edges).conflictFindings w = c.conflictFindings w := by
  have hconflicts : ∀ a b, (c.withEdges edges).ontology.conflicts a b = c.ontology.conflicts a b :=
    fun a b => Ontology.contains_neighbors_withEdges h a b .conflictsWith
  simp only [conflictFindings, hconflicts]

theorem orderingFindings_withEdges_perm :
    ((c.withEdges edges).orderingFindings w).Perm (c.orderingFindings w) :=
  (Ontology.orderings_withEdges_perm h).flatMap_right _

end

/-- What is wanted before a step is reported as often as it is declared and not met. -/
theorem map_outline_predecessorFindings {cap : Capability}
    (hcap : c.ontology.get? s.capability = some cap) :
    (c.predecessorFindings w s).map Finding.outline =
      List.replicate (c.unmet w s .requires).length (.requirementUnmet, .error, w.location s) ++
        List.replicate (c.unmet w s .softRequires).length
          (.softRequirementUnmet, .warning, w.location s) ++
        (c.checkpointFindings w s cap).map Finding.outline := by
  have hconst : ∀ (code : Code) (message : String → String) (ids : List String),
      (ids.map fun id => Finding.of code (w.location s) (message id)).map Finding.outline =
        List.replicate ids.length (code, code.defaultSeverity, w.location s) := by
    intro code message ids
    rw [List.map_map, ← List.map_const]
    rfl
  simp only [predecessorFindings, hcap, List.map_append, requirementFindings, softRequirementFindings,
    hconst]
  rfl

/-- What is found about the predecessors of each step. -/
def predecessorOutlines (c : Checker) (w : Workflow) : List (Code × Severity × Location) :=
  w.steps.flatMap fun s => (c.predecessorFindings w s).map Finding.outline

section

variable (h : ∀ e, e ∈ edges ↔ e ∈ c.ontology.edges)
include h

theorem length_unmet_withEdges_eq_zero_iff {kind : EdgeKind} :
    ((c.withEdges edges).unmet w s kind).length = 0 ↔ (c.unmet w s kind).length = 0 := by
  simp only [List.length_eq_zero_iff, List.eq_nil_iff_forall_not_mem, mem_unmet_withEdges_iff h]

theorem relationFindings_withEdges_perm :
    (((c.withEdges edges).relationFindings w).map Finding.outline).Perm
      ((c.withEdges edges).predecessorOutlines w ++
        (c.conflictFindings w ++ c.orderingFindings w).map Finding.outline) := by
  rw [relationFindings, conflictFindings_withEdges h, List.append_assoc, List.map_append,
    List.map_flatMap]
  exact ((orderingFindings_withEdges_perm h).append_left _).map _ |>.append_left _

variable (hknown : ∀ s ∈ w.steps, ∃ cap, c.ontology.get? s.capability = some cap)
include hknown

/-- Which outlines are found does not depend on how often edges are declared. -/
theorem mem_predecessorOutlines_withEdges_iff {x : Code × Severity × Location} :
    x ∈ (c.withEdges edges).predecessorOutlines w ↔ x ∈ c.predecessorOutlines w := by
  simp only [predecessorOutlines, List.mem_flatMap]
  refine exists_congr fun s => and_congr_right fun hs => ?_
  obtain ⟨cap, hcap⟩ := hknown s hs
  have hcap' : (c.withEdges edges).ontology.get? s.capability = some cap := hcap
  rw [map_outline_predecessorFindings hcap, map_outline_predecessorFindings hcap']
  simp only [List.mem_append, List.mem_replicate, ne_eq, length_unmet_withEdges_eq_zero_iff h]
  rfl

omit h in
/-- How often an outline is found depends on the edges only where something unmet is wanted. -/
theorem count_predecessorOutlines_withEdges {x : Code × Severity × Location}
    (hrequirement : x.1 ≠ .requirementUnmet) (hwish : x.1 ≠ .softRequirementUnmet) :
    ((c.withEdges edges).predecessorOutlines w).count x = (c.predecessorOutlines w).count x := by
  rw [predecessorOutlines, predecessorOutlines, List.count_flatMap, List.count_flatMap]
  refine congrArg List.sum (List.map_congr_left fun s hs => ?_)
  obtain ⟨cap, hcap⟩ := hknown s hs
  have hcap' : (c.withEdges edges).ontology.get? s.capability = some cap := hcap
  have hnone : ∀ (n : Nat) (code : Code) (rest : Severity × Location), x.1 ≠ code →
      (List.replicate n (code, rest)).count x = 0 := by
    rintro n code rest hcode
    refine List.count_eq_zero.2 fun hx => hcode ?_
    rw [(List.mem_replicate.1 hx).2]
  simp only [Function.comp_apply, map_outline_predecessorFindings hcap,
    map_outline_predecessorFindings hcap', List.count_append, hnone _ _ _ hrequirement,
    hnone _ _ _ hwish]
  rfl

end

/-- The outlines of a code and a step are those of that step. -/
theorem filter_predecessorOutlines (hw : w.WellFormed) (hs : s ∈ w.steps) (code : Code) :
    ((c.predecessorOutlines w).filter fun x => x.1 = code && x.2.2.index = some s.index) =
      ((c.predecessorFindings w s).map Finding.outline).filter (·.1 = code) := by
  have hindex : ∀ t, ∀ x ∈ (c.predecessorFindings w t).map Finding.outline,
      x.2.2.index = some t.index := by
    intro t x hx
    obtain ⟨f, hf, rfl⟩ := List.mem_map.1 hx
    rw [Finding.outline, (of_mem_predecessorFindings hf).2]
    rfl
  rw [predecessorOutlines, filter_flatMap_of_unique hw.nodup_steps hs fun t ht hne => ?_]
  · exact List.filter_congr fun x hx => by simp [hindex s x hx]
  · refine List.filter_eq_nil_iff.2 fun x hx => ?_
    have hne : t.index ≠ s.index := fun hi => hne (hw.eq_of_index_eq ht hs hi)
    simp [hindex t x hx, hne]

/-- The findings of a step tell how often something is wanted there and not met. -/
theorem length_filter_predecessorFindings {cap : Capability}
    (hcap : c.ontology.get? s.capability = some cap) :
    (((c.predecessorFindings w s).map Finding.outline).filter (·.1 = .requirementUnmet)).length =
        (c.unmet w s .requires).length ∧
      (((c.predecessorFindings w s).map Finding.outline).filter
          (·.1 = .softRequirementUnmet)).length = (c.unmet w s .softRequires).length := by
  have hcheckpoint : ∀ code : Code, code ≠ .mutationWithoutCheckpoint →
      ((c.checkpointFindings w s cap).map Finding.outline).filter (·.1 = code) = [] := by
    intro code hne
    refine List.filter_eq_nil_iff.2 fun x hx => ?_
    obtain ⟨f, hf, rfl⟩ := List.mem_map.1 hx
    simpa [Finding.outline, (of_mem_checkpointFindings hf).1] using hne.symm
  simp [map_outline_predecessorFindings hcap, hcheckpoint]

/-- The outlines of predecessors are the same, up to their order, exactly when at each step the same number
of requirements and of wishes is declared and not met. -/
theorem predecessorOutlines_withEdges_perm_iff (hw : w.WellFormed)
    (hknown : ∀ s ∈ w.steps, ∃ cap, c.ontology.get? s.capability = some cap) :
    ((c.withEdges edges).predecessorOutlines w).Perm (c.predecessorOutlines w) ↔
      ∀ s ∈ w.steps,
        ((c.withEdges edges).unmet w s .requires).length = (c.unmet w s .requires).length ∧
        ((c.withEdges edges).unmet w s .softRequires).length = (c.unmet w s .softRequires).length := by
  constructor
  · intro hperm s hs
    obtain ⟨cap, hcap⟩ := hknown s hs
    have hcap' : (c.withEdges edges).ontology.get? s.capability = some cap := hcap
    have hlength : ∀ code : Code,
        ((((c.withEdges edges).predecessorFindings w s).map Finding.outline).filter
          (·.1 = code)).length =
        (((c.predecessorFindings w s).map Finding.outline).filter (·.1 = code)).length := by
      intro code
      rw [← filter_predecessorOutlines hw hs, ← filter_predecessorOutlines hw hs]
      exact (hperm.filter _).length_eq
    obtain ⟨hrequires, hwishes⟩ := length_filter_predecessorFindings (w := w) hcap
    obtain ⟨hrequires', hwishes'⟩ := length_filter_predecessorFindings (w := w) hcap'
    exact ⟨by rw [← hrequires, ← hrequires', hlength], by rw [← hwishes, ← hwishes', hlength]⟩
  · intro hlengths
    refine List.Perm.of_eq (List.flatMap_congr fun s hs => ?_)
    obtain ⟨cap, hcap⟩ := hknown s hs
    have hcap' : (c.withEdges edges).ontology.get? s.capability = some cap := hcap
    obtain ⟨hrequires, hwishes⟩ := hlengths s hs
    rw [map_outline_predecessorFindings hcap, map_outline_predecessorFindings hcap', hrequires,
      hwishes]
    rfl

/-! ## The other levels -/

/-- References are followed in what capabilities yield, whatever the edges are. -/
theorem map_outline_contractFindings_withEdges (steps : List Step) :
    ((c.withEdges edges).contractFindings w steps).map Finding.outline =
      (c.contractFindings w steps).map Finding.outline := by
  have hsteps : ∀ s, (((c.withEdges edges).scope w (c.inputsType w)).stepFindings s).map
      Finding.outline = ((c.scope w (c.inputsType w)).stepFindings s).map Finding.outline := by
    intro s
    refine Scope.AgreesAt.stepFindings ⟨fun _ => rfl, rfl, rfl, rfl, fun r => ?_⟩
    exact .same _
  have hinputs : (c.withEdges edges).inputsType w = c.inputsType w := rfl
  simp only [contractFindings, hinputs, List.map_append, List.map_flatMap, hsteps]

theorem policyFindings_withEdges (steps : List Step) :
    (c.withEdges edges).policyFindings w steps = c.policyFindings w steps := by
  have hget : (c.withEdges edges).ontology.get? = c.ontology.get? := rfl
  have hsend : (c.withEdges edges).sendFindings w = c.sendFindings w := rfl
  have hrisk : (c.withEdges edges).stepRisk? = c.stepRisk? := rfl
  have hsafety : (c.withEdges edges).safetyFindings w = c.safetyFindings w := by
    funext s
    simp only [safetyFindings, hget, hsend]
  simp only [policyFindings, hsafety, riskFinding?, hrisk]

theorem structureFindings_withEdges :
    (c.withEdges edges).structureFindings e = c.structureFindings e := by
  have hcontains : (c.withEdges edges).ontology.contains = c.ontology.contains := rfl
  have hversion : (c.withEdges edges).ontology.version = c.ontology.version := rfl
  have hseverity : (c.withEdges edges).versionSeverity = c.versionSeverity := rfl
  have hfault : (c.withEdges edges).versionFault? = c.versionFault? := by
    funext declared
    unfold versionFault?
    rw [hversion]
  have hcapability : (c.withEdges edges).capabilityFindings e = c.capabilityFindings e := by
    unfold capabilityFindings
    rw [hcontains]
  have hfinding : (c.withEdges edges).versionFinding? e = c.versionFinding? e := by
    unfold versionFinding?
    rw [hfault, hseverity]
  rw [structureFindings, hcapability, hfinding, structureFindings]

theorem stepsExcept_congr {places places' : List Nat} (h : ∀ i, i ∈ places ↔ i ∈ places') :
    w.stepsExcept places = w.stepsExcept places' := by
  refine List.filter_congr fun s _ => ?_
  rw [Bool.not_inj_iff, Bool.eq_iff_iff, List.contains_iff_mem, List.contains_iff_mem]
  exact h s.index

/-- What is found beside the predecessors of the steps. -/
def commonOutlines (c : Checker) (w : Workflow) : List (Code × Severity × Location) :=
  (c.conflictFindings w ++ c.orderingFindings w).map Finding.outline ++
    ((c.contractFindings w (c.contractSteps w)).map Finding.outline ++
      (c.policyFindings w (c.policySteps w)).map Finding.outline)

section

variable (h : ∀ e, e ∈ edges ↔ e ∈ c.ontology.edges)
  (hknown : ∀ s ∈ w.steps, ∃ cap, c.ontology.get? s.capability = some cap)
include h hknown

theorem mem_failedSteps_relationFindings_withEdges_iff {i : Nat} :
    i ∈ Finding.failedSteps ((c.withEdges edges).relationFindings w) ↔
      i ∈ Finding.failedSteps (c.relationFindings w) := by
  have hrelations := relationFindings_withEdges_perm (w := w) h
  have hself := relationFindings_withEdges_perm (c := c) (w := w) fun _ => Iff.rfl
  rw [Finding.mem_failedSteps_iff_outline, Finding.mem_failedSteps_iff_outline]
  refine exists_congr fun x => and_congr_left fun _ => ?_
  rw [hrelations.mem_iff, List.mem_append, mem_predecessorOutlines_withEdges_iff h hknown,
    ← List.mem_append]
  exact hself.mem_iff.symm

theorem contractSteps_withEdges : (c.withEdges edges).contractSteps w = c.contractSteps w :=
  stepsExcept_congr fun _ => mem_failedSteps_relationFindings_withEdges_iff h hknown

theorem policySteps_withEdges : (c.withEdges edges).policySteps w = c.policySteps w := by
  refine stepsExcept_congr fun i => ?_
  rw [List.mem_append, List.mem_append]
  refine or_congr (mem_failedSteps_relationFindings_withEdges_iff h hknown) ?_
  rw [Finding.mem_failedSteps_iff_outline, Finding.mem_failedSteps_iff_outline,
    contractSteps_withEdges h hknown, map_outline_contractFindings_withEdges]

/-- Beside the predecessors of the steps, the edges count as a set. -/
theorem graphFindings_withEdges_perm :
    (((c.withEdges edges).graphFindings w).map Finding.outline).Perm
      ((c.withEdges edges).predecessorOutlines w ++ c.commonOutlines w) := by
  rw [graphFindings_eq, contractSteps_withEdges h hknown, policySteps_withEdges h hknown,
    policyFindings_withEdges, List.append_assoc, List.map_append, List.map_append,
    map_outline_contractFindings_withEdges]
  exact ((relationFindings_withEdges_perm h).append_right _).trans
    (List.Perm.of_eq (List.append_assoc ..))

end

/-! ## Reports -/

theorem outlines_check_withEdges_perm (h : ∀ e, e ∈ edges ↔ e ∈ c.ontology.edges)
    (hknown : ∀ s ∈ w.steps, ∃ cap, c.ontology.get? s.capability = some cap)
    (hstructure : isHalting (c.structureFindings e) = false) (hg : e.graph = some w) :
    ((c.withEdges edges).check e).outlines.Perm ((c.withEdges edges).predecessorOutlines w ++
      (c.commonOutlines w ++ (c.structureFindings e).map Finding.outline)) := by
  have hstructure' : isHalting ((c.withEdges edges).structureFindings e) = false := by
    rw [structureFindings_withEdges, hstructure]
  refine (perm_outlines_check hstructure' hg).trans ?_
  rw [structureFindings_withEdges, List.map_append, ← List.append_assoc]
  exact ((graphFindings_withEdges_perm h hknown).append_left _).trans List.perm_append_comm

/-- Two checkers report the same of an entry, except for how often they report that something is wanted at
a step and not met. -/
structure ReportsAlike (c c' : Checker) (e : CatalogEntry) : Prop where
  mem_iff : ∀ x, x ∈ (c.check e).outlines ↔ x ∈ (c'.check e).outlines
  count_eq : ∀ x : Code × Severity × Location, x.1 ≠ .requirementUnmet →
    x.1 ≠ .softRequirementUnmet → (c.check e).outlines.count x = (c'.check e).outlines.count x
  perm_iff : (c.check e).outlines.Perm (c'.check e).outlines ↔
    (isHalting (c.check e).findings = false → ∀ w, e.graph = some w → ∀ s ∈ w.steps,
      (c.unmet w s .requires).length = (c'.unmet w s .requires).length ∧
      (c.unmet w s .softRequires).length = (c'.unmet w s .softRequires).length)

theorem reportsAlike_withEdges (h : ∀ e, e ∈ edges ↔ e ∈ c.ontology.edges) (he : e.Loaded) :
    (c.withEdges edges).ReportsAlike c e := by
  have hhalting : isHalting ((c.withEdges edges).check e).findings =
      isHalting (c.structureFindings e) := by
    rw [isHalting_findings_check he, structureFindings_withEdges]
  cases hstructure : isHalting (c.structureFindings e) with
  | true =>
    have hcheck : (c.withEdges edges).check e = c.check e := by
      rw [check_of_isHalting hstructure, check_of_isHalting, structureFindings_withEdges]
      rw [structureFindings_withEdges, hstructure]
    rw [hstructure] at hhalting
    exact {
      mem_iff := fun x => by rw [hcheck]
      count_eq := fun x _ _ => by rw [hcheck]
      perm_iff := iff_of_true (by rw [hcheck]) fun hfalse => by
        rw [hhalting] at hfalse
        cases hfalse }
  | false =>
    obtain ⟨w, hg⟩ := exists_graph he hstructure
    have hscope := wellFormed_scope he hstructure hg (c.inputsType w)
    have hw : w.WellFormed := hscope.workflow
    have hknown : ∀ s ∈ w.steps, ∃ cap, c.ontology.get? s.capability = some cap := hscope.known
    have hedges := outlines_check_withEdges_perm h hknown hstructure hg
    have hself := outlines_check_withEdges_perm (fun _ => Iff.rfl) hknown hstructure hg
    refine ⟨fun x => ?_, fun x hrequirement hwish => ?_, ?_⟩
    · rw [hedges.mem_iff, List.mem_append, mem_predecessorOutlines_withEdges_iff h hknown,
        ← List.mem_append]
      exact hself.mem_iff.symm
    · rw [hedges.count_eq, List.count_append,
        count_predecessorOutlines_withEdges hknown hrequirement hwish, ← List.count_append]
      exact (hself.count_eq x).symm
    · have hperm : ((c.withEdges edges).check e).outlines.Perm (c.check e).outlines ↔
          ((c.withEdges edges).predecessorOutlines w).Perm (c.predecessorOutlines w) :=
        (hedges.congr_left _).trans ((hself.congr_right _).trans (List.perm_append_right_iff _))
      rw [hperm, predecessorOutlines_withEdges_perm_iff hw hknown]
      constructor
      · intro hlengths _ w' hg'
        obtain rfl := Option.some.inj (hg.symm.trans hg')
        exact hlengths
      · intro hlengths
        exact hlengths (hhalting.trans hstructure) w hg

/-- Wants that are declared equally often are unmet equally often. -/
theorem length_unmet_withEdges (h : ∀ e, e ∈ edges ↔ e ∈ c.ontology.edges) {kind : EdgeKind}
    (hcount : ∀ edge, edge.kind = kind → edges.count edge = c.ontology.edges.count edge) :
    ((c.withEdges edges).unmet w s kind).length = (c.unmet w s kind).length := by
  simp only [unmet, isSatisfiedBefore_withEdges h]
  exact ((Ontology.neighbors_withEdges_perm hcount s.capability).filter _).length_eq

end Checker

/-- Edges that are declared in another order, or again, change nothing of whether an ontology is accepted,
and nothing of which findings there are. A requirement or a wish that is not met is reported as
often as it is declared; how often any other finding is reported does not change either. -/
theorem Ontology.reports_redeclared (version : Version) (capabilities : List Capability)
    (edges edges' : List Edge) (h : ∀ edge, edge ∈ edges ↔ edge ∈ edges') :
    ((∃ o, build version capabilities edges = .ok o) ↔
      ∃ o, build version capabilities edges' = .ok o) ∧
    ∀ o o', build version capabilities edges = .ok o → build version capabilities edges' = .ok o' →
      ∀ (settings : Settings) (registry : Option CoercionRegistry) (e : CatalogEntry), e.Loaded →
        Checker.ReportsAlike ⟨o, settings, registry⟩ ⟨o', settings, registry⟩ e ∧
        ((∀ edge, edge.kind = .requires ∨ edge.kind = .softRequires →
            edges.count edge = edges'.count edge) →
          (Checker.check ⟨o, settings, registry⟩ e).outlines.Perm
            (Checker.check ⟨o', settings, registry⟩ e).outlines) := by
  refine ⟨⟨exists_build_of_mem_iff h, exists_build_of_mem_iff fun edge => (h edge).symm⟩, ?_⟩
  intro o o' ho ho' settings registry e he
  obtain rfl := eq_of_build ho
  obtain rfl := eq_of_build ho'
  have halike := Checker.reportsAlike_withEdges
    (c := ⟨⟨version, capabilities, edges'⟩, settings, registry⟩) h he
  refine ⟨halike, fun hcount => halike.perm_iff.2 fun _ w _ s _ => ⟨?_, ?_⟩⟩
  · exact Checker.length_unmet_withEdges h fun edge hkind => hcount edge (.inl hkind)
  · exact Checker.length_unmet_withEdges h fun edge hkind => hcount edge (.inr hkind)

namespace Twice

/-- `audit` requires `plan`. -/
def requirement : Edge := ⟨"audit", "plan", .requires⟩

/-- The ontology with the requirement declared once or more. -/
def ontology (edges : List Edge) : Ontology := ⟨default, Ontology.Loop.stages, edges⟩

/-- `plan` does not run. -/
def workflow : AuthoredWorkflow where
  steps := [{ capability := some "audit", label := some "a" }]

def entry : CatalogEntry := .ofAuthored 10 "w" workflow

theorem loaded_entry : entry.Loaded :=
  .authored 10 "w" workflow

theorem mem_iff (edge : Edge) : edge ∈ [requirement, requirement] ↔ edge ∈ [requirement] := by
  simp

theorem build_ontology {edges : List Edge} (h : ∀ edge ∈ edges, edge = requirement) :
    Ontology.build default Ontology.Loop.stages edges = .ok (ontology edges) := by
  refine Ontology.build_eq_ok ⟨by decide +kernel, by decide, ?_, ?_⟩
    (Ontology.acyclic_of_rank ["plan", "audit"].idxOf ?_)
  all_goals
    intro edge hedge
    rw [h edge hedge]
  · decide
  · exact fun hkind => absurd hkind (by decide)
  · decide

end Twice

theorem Ontology.reports_redeclared_twice :
    (∀ edge, edge ∈ [Twice.requirement, Twice.requirement] ↔ edge ∈ [Twice.requirement]) ∧
    build default Loop.stages [Twice.requirement, Twice.requirement] =
      .ok (Twice.ontology [Twice.requirement, Twice.requirement]) ∧
    build default Loop.stages [Twice.requirement] = .ok (Twice.ontology [Twice.requirement]) ∧
    Twice.entry.Loaded ∧
    Checker.ReportsAlike ⟨Twice.ontology [Twice.requirement, Twice.requirement], {}, none⟩
      ⟨Twice.ontology [Twice.requirement], {}, none⟩ Twice.entry :=
  have htwice : build default Loop.stages [Twice.requirement, Twice.requirement] =
      .ok (Twice.ontology [Twice.requirement, Twice.requirement]) := Twice.build_ontology (by simp)
  have honce : build default Loop.stages [Twice.requirement] =
      .ok (Twice.ontology [Twice.requirement]) := Twice.build_ontology (by simp)
  ⟨Twice.mem_iff, htwice, honce, Twice.loaded_entry,
    ((reports_redeclared default Loop.stages [Twice.requirement, Twice.requirement]
      [Twice.requirement] Twice.mem_iff).2 _ _ htwice honce {} none Twice.entry
        Twice.loaded_entry).1⟩

/-- A requirement that is declared twice is reported twice. -/
theorem Checker.not_forall_perm_outlines : ¬ ∀ (version : Version) (capabilities : List Capability)
    (edges edges' : List Edge), (∀ edge, edge ∈ edges ↔ edge ∈ edges') →
      ((∃ o, Ontology.build version capabilities edges = .ok o) ↔
        ∃ o, Ontology.build version capabilities edges' = .ok o) ∧
      ∀ o o', Ontology.build version capabilities edges = .ok o →
        Ontology.build version capabilities edges' = .ok o' →
        ∀ (settings : Settings) (registry : Option CoercionRegistry) (e : CatalogEntry), e.Loaded →
          (check ⟨o, settings, registry⟩ e).outlines.Perm
            (check ⟨o', settings, registry⟩ e).outlines := by
  intro h
  have hperm := (h default Ontology.Loop.stages [Twice.requirement, Twice.requirement]
    [Twice.requirement] Twice.mem_iff).2 _ _ (Twice.build_ontology (by simp))
      (Twice.build_ontology (by simp)) {} none Twice.entry Twice.loaded_entry
  have hgraph : Twice.entry.graph = some (Twice.workflow.graph "w") := by decide +kernel
  have hlength := ((perm_outlines_check (by decide +kernel) hgraph).symm.trans
    (hperm.trans (perm_outlines_check (by decide +kernel) hgraph))).length_eq
  revert hlength
  decide +kernel

end CapabilityFlow
