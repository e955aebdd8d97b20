import CapabilityFlow.Proofs.Check.Predecessors
import CapabilityFlow.Proofs.Ontology.Validation

/-!
# Rules about pairs of steps

Two rules compare all steps of a workflow with each other: conflicting capabilities are not to run in
one workflow, and ordered ones run in their order and not side by side. Their findings correspond one
to one to the pairs that break them (`Checker.pairs_check`): every pair is found, at its later step,
and none twice, however often and in whatever direction the edges are declared.
-/

namespace CapabilityFlow

/-! ## Lists without doubles -/

/-- Lists without doubles have none together if each item tells to which of them it belongs. -/
theorem nodup_flatMap_of_owner {α β : Type} {l : List α} {f : α → List β} (owner : β → α)
    (hl : l.Nodup) (hf : ∀ a ∈ l, (f a).Nodup) (howner : ∀ a, ∀ b ∈ f a, owner b = a) :
    (l.flatMap f).Nodup := by
  refine List.nodup_flatMap.2 ⟨hf, hl.imp fun {a a'} hne b hb hb' => hne ?_⟩
  rw [← howner a b hb, ← howner a' b hb']

theorem nodup_eraseDups {α : Type} [BEq α] [LawfulBEq α] (l : List α) : l.eraseDups.Nodup := by
  induction h : l.length using Nat.strongRecOn generalizing l with
  | ind n ih =>
    cases l with
    | nil => exact List.nodup_nil
    | cons a l =>
      rw [List.eraseDups_cons, List.nodup_cons, List.mem_eraseDups]
      have hlt : (l.filter fun b => !b == a).length < n := by
        have hle := List.length_filter_le (fun b => !b == a) l
        rw [List.length_cons] at h
        omega
      exact ⟨by simp, ih _ hlt _ rfl⟩

/-! ## Relations between capabilities -/

namespace Ontology

/-- Where both run, the first capability has to run before the second. -/
def Orders (o : Ontology) (first second : String) : Prop :=
  ⟨first, second, .precedes⟩ ∈ o.edges ∨ ⟨second, first, .follows⟩ ∈ o.edges

/-- Two capabilities are declared to conflict, in one direction or the other. -/
def Opposes (o : Ontology) (a b : String) : Prop :=
  ⟨a, b, .conflictsWith⟩ ∈ o.edges ∨ ⟨b, a, .conflictsWith⟩ ∈ o.edges

variable {o : Ontology}

theorem mem_orderings_iff {first second : String} :
    (first, second) ∈ o.orderings ↔ o.Orders first second := by
  simp only [orderings, List.mem_eraseDups, List.mem_mergeSort, List.mem_filterMap, Orders]
  constructor
  · rintro ⟨⟨source, target, kind⟩, he, h⟩
    cases kind <;> simp only [Edge.ordering?, Option.some.injEq, reduceCtorEq, Prod.mk.injEq] at h
    all_goals obtain ⟨rfl, rfl⟩ := h
    · exact .inl he
    · exact .inr he
  · rintro (he | he)
    · exact ⟨_, he, rfl⟩
    · exact ⟨_, he, rfl⟩

theorem nodup_orderings : o.orderings.Nodup :=
  nodup_eraseDups _

/-- Conflicts of an accepted ontology are found in either direction. -/
theorem conflicts_iff_of_build {version : Version} {capabilities : List Capability}
    {edges : List Edge} (h : build version capabilities edges = .ok o) {a b : String} :
    o.conflicts a b = true ↔ o.Opposes a b := by
  rw [conflicts, List.contains_iff_mem, mem_neighbors_iff, Opposes, iff_self_or]
  exact fun he => reversed_mem_of_build h he rfl

end Ontology

namespace Checker

/-! ## Pairs that break a rule -/

/-- The finding about two steps with conflicting capabilities. -/
def conflictFinding (w : Workflow) (earlier later : Step) : Finding :=
  .of .conflictingCapabilities (w.location later)
    (s!"Capability '{later.capability}' conflicts with '{earlier.capability}' " ++
      s!"used by step '{earlier.label}'")

/-- The finding about two steps of which the first had to run before the second. -/
def orderFinding (w : Workflow) (a b : Step) : Finding :=
  let relation := if a.isSibling b then "runs concurrently with" else "runs after"
  .of .orderingViolation (w.location (if b.index < a.index then a else b))
    (s!"'{a.capability}' must precede '{b.capability}', " ++
      s!"but step '{a.label}' {relation} step '{b.label}'")

/-- A step does not run before another one: it runs after it, or side by side with it. -/
def isMisplaced (a b : Step) : Bool :=
  b.index < a.index || a.isSibling b

theorem orderFinding?_eq (w : Workflow) (a b : Step) :
    orderFinding? w a b = if isMisplaced a b then some (orderFinding w a b) else none := by
  have hiff : (a.index = b.index || (a.index < b.index && !a.isSibling b)) = !isMisplaced a b := by
    have hne : a.isSibling b = true → a.index ≠ b.index := by
      simp [Step.isSibling]
      tauto
    cases hs : a.isSibling b with
    | true => simp [isMisplaced, hs, hne hs]
    | false =>
      rw [Bool.eq_iff_iff]
      simp [isMisplaced, hs]
      omega
  unfold orderFinding?
  dsimp only
  rw [hiff]
  cases isMisplaced a b <;> rfl

/-- The pairs of steps with conflicting capabilities, the earlier step first. -/
def conflictPairs (c : Checker) (w : Workflow) : List (Step × Step) :=
  w.steps.flatMap fun later =>
    ((w.steps.take later.index).filter fun s =>
      c.ontology.conflicts s.capability later.capability).map (·, later)

/-- The pairs of steps that do not run in an order that is declared for their capabilities. -/
def misplacedPairs (c : Checker) (w : Workflow) : List ((String × String) × Step × Step) :=
  c.ontology.orderings.flatMap fun o =>
    (w.steps.filter (·.capability = o.1)).flatMap fun a =>
      ((w.steps.filter (·.capability = o.2)).filter (isMisplaced a)).map fun b => (o, a, b)

variable {c : Checker} {w : Workflow}

theorem conflictFindings_eq (hw : w.WellFormed) :
    c.conflictFindings w = (c.conflictPairs w).map fun p => conflictFinding w p.1 p.2 := by
  simp only [conflictFindings, conflictPairs, hw.zipIdx_steps, List.flatMap_map, List.map_flatMap,
    List.map_map]
  rfl

theorem filterMap_orderFinding? (a : Step) (l : List Step) : l.filterMap (orderFinding? w a) =
    (l.filter (isMisplaced a)).map (orderFinding w a) := by
  rw [← List.filterMap_eq_filter, List.map_filterMap]
  refine List.filterMap_congr fun b _ => ?_
  rw [orderFinding?_eq]
  cases h : isMisplaced a b <;> simp [Option.guard, h]

theorem orderingFindings_eq : c.orderingFindings w =
    (c.misplacedPairs w).map fun p => orderFinding w p.2.1 p.2.2 := by
  simp only [orderingFindings, misplacedPairs, filterMap_orderFinding?, List.map_flatMap,
    List.map_map]
  rfl

/-- Two steps of a workflow have conflicting capabilities. -/
structure Conflict (c : Checker) (w : Workflow) (earlier later : Step) : Prop where
  earlier_mem : earlier ∈ w.steps
  later_mem : later ∈ w.steps
  lt : earlier.index < later.index
  opposed : c.ontology.Opposes earlier.capability later.capability

/-- Two different steps of a workflow run capabilities of which the first has to run before the
second, and they do not run so. -/
structure Disorder (c : Checker) (w : Workflow) (first second : String) (a b : Step) : Prop where
  ordered : c.ontology.Orders first second
  a_mem : a ∈ w.steps
  a_runs : a.capability = first
  b_mem : b ∈ w.steps
  b_runs : b.capability = second
  ne : a ≠ b
  misplaced : b.index < a.index ∨ ∃ group, a.group = some group ∧ b.group = some group

theorem mem_conflictPairs_iff (hw : w.WellFormed)
    (hopposed : ∀ a b, c.ontology.conflicts a b = true ↔ c.ontology.Opposes a b) {a b : Step} :
    (a, b) ∈ c.conflictPairs w ↔ c.Conflict w a b := by
  simp only [conflictPairs, List.mem_flatMap, List.mem_map, List.mem_filter, hw.mem_take_iff, hopposed,
    Prod.mk.injEq]
  constructor
  · rintro ⟨later, hlater, earlier, ⟨⟨hearlier, hlt⟩, h⟩, rfl, rfl⟩
    exact ⟨hearlier, hlater, hlt, h⟩
  · rintro ⟨ha, hb, hlt, h⟩
    exact ⟨b, hb, a, ⟨⟨ha, hlt⟩, h⟩, rfl, rfl⟩

theorem nodup_conflictPairs (hw : w.WellFormed) : (c.conflictPairs w).Nodup := by
  refine nodup_flatMap_of_owner Prod.snd hw.nodup_steps (fun later _ => ?_) fun later p hp => ?_
  · refine List.Nodup.map (fun a b h => (Prod.mk.inj h).1) ?_
    exact (hw.nodup_steps.sublist (List.take_sublist _ _)).filter _
  · obtain ⟨earlier, -, rfl⟩ := List.mem_map.1 hp
    rfl

theorem isMisplaced_iff (hw : w.WellFormed) {a b : Step} (ha : a ∈ w.steps) (hb : b ∈ w.steps) :
    isMisplaced a b = true ↔
      a ≠ b ∧ (b.index < a.index ∨ ∃ group, a.group = some group ∧ b.group = some group) := by
  by_cases hab : a = b
  · subst hab
    simp [isMisplaced, Step.isSibling]
  · have hne : a.index ≠ b.index := fun h => hab (hw.eq_of_index_eq ha hb h)
    have hsibling : a.isSibling b = true ↔
        ∃ group, a.group = some group ∧ b.group = some group := by
      rw [← Bool.not_eq_false, Step.isSibling_eq_false_iff hne]
      simp
    simp only [isMisplaced, Bool.or_eq_true, decide_eq_true_eq, hsibling, ne_eq, hab, not_false_eq_true,
      true_and]

theorem mem_misplacedPairs_iff (hw : w.WellFormed) {first second : String} {a b : Step} :
    ((first, second), a, b) ∈ c.misplacedPairs w ↔ c.Disorder w first second a b := by
  simp only [misplacedPairs, List.mem_flatMap, List.mem_map, List.mem_filter, decide_eq_true_eq,
    Prod.mk.injEq]
  constructor
  · rintro ⟨o, ho, a, ⟨ha, hfirst⟩, b, ⟨⟨hb, hsecond⟩, hmis⟩, rfl, rfl, rfl⟩
    obtain ⟨hne, hmis⟩ := (isMisplaced_iff hw ha hb).1 hmis
    exact ⟨Ontology.mem_orderings_iff.1 ho, ha, hfirst, hb, hsecond, hne, hmis⟩
  · rintro ⟨ho, ha, hfirst, hb, hsecond, hne, hmis⟩
    exact ⟨_, Ontology.mem_orderings_iff.2 ho, a, ⟨ha, hfirst⟩, b,
      ⟨⟨hb, hsecond⟩, (isMisplaced_iff hw ha hb).2 ⟨hne, hmis⟩⟩, rfl, rfl, rfl⟩

theorem nodup_misplacedPairs (hw : w.WellFormed) : (c.misplacedPairs w).Nodup := by
  have hsteps : ∀ id : String, (w.steps.filter (·.capability = id)).Nodup :=
    fun id => hw.nodup_steps.filter _
  refine nodup_flatMap_of_owner Prod.fst Ontology.nodup_orderings (fun o _ => ?_) fun o p hp => ?_
  · refine nodup_flatMap_of_owner (·.2.1) (hsteps o.1) (fun a _ => ?_) fun a p hp => ?_
    · exact ((hsteps o.2).filter _).map fun b b' h => (Prod.mk.inj (Prod.mk.inj h).2).2
    · obtain ⟨b, -, rfl⟩ := List.mem_map.1 hp
      rfl
  · obtain ⟨a, -, hp⟩ := List.mem_flatMap.1 hp
    obtain ⟨b, -, rfl⟩ := List.mem_map.1 hp
    rfl

/-! ## One finding for each pair -/

/-- Findings correspond one to one to what has a property. -/
def OneToOne {α : Type} (fs : List Finding) (P : α → Prop) (finding : α → Finding) : Prop :=
  ∃ items : List α, items.Nodup ∧ (∀ a, a ∈ items ↔ P a) ∧ fs.Perm (items.map finding)

variable {e : CatalogEntry}

/-- The findings of a code, at a level without patches, are those that the level makes. -/
theorem perm_filter_code_check (he : e.Loaded) (h : isHalting (c.structureFindings e) = false)
    (hw : e.graph = some w) (code : Code) (hl : code.level ≠ .contracts) :
    ((c.check e).findings.filter (·.code = code)).Perm
      ((c.levelFindings w e code.level).filter (·.code = code)) := by
  refine List.Perm.trans (List.Perm.of_eq ?_) ((perm_levelFindings he h hw hl).filter _)
  rw [WorkflowReport.atLevel, List.filter_filter]
  refine List.filter_congr fun f _ => ?_
  rw [Bool.eq_iff_iff]
  simp only [decide_eq_true_eq, Bool.and_eq_true]
  exact ⟨fun hf => ⟨hf, congrArg Code.level hf⟩, And.left⟩

/-- The codes of pairs are not those of single steps. -/
theorem filter_code_relationFindings {code : Code}
    (hcode : code = .conflictingCapabilities ∨ code = .orderingViolation) :
    (c.relationFindings w).filter (·.code = code) =
      (if .conflictingCapabilities = code then c.conflictFindings w else []) ++
        if .orderingViolation = code then c.orderingFindings w else [] := by
  have hconflicts : ∀ f ∈ c.conflictFindings w, f.code = .conflictingCapabilities :=
    fun _ => code_of_mem_conflictFindings
  have horderings : ∀ f ∈ c.orderingFindings w, f.code = .orderingViolation :=
    fun _ => code_of_mem_orderingFindings
  have hsteps : (w.steps.flatMap (c.predecessorFindings w)).filter (·.code = code) = [] := by
    simp only [List.filter_eq_nil_iff, List.mem_flatMap, decide_eq_true_eq]
    rintro f ⟨s, -, hf⟩
    rcases hcode with rfl | rfl
    all_goals rcases (of_mem_predecessorFindings hf).1 with h | h | h <;> simp [h]
  rw [relationFindings, List.filter_append, List.filter_append, hsteps, List.nil_append,
    filter_key_of_forall hconflicts, filter_key_of_forall horderings]

/-- Pair rules are decided exactly: without structural errors, there is one finding for each pair of
steps with conflicting capabilities, and one for each ordered pair of capabilities and each pair of
steps that run them out of order or side by side, always at the later step. -/
theorem pairs_check (c : Checker) {version : Version} {capabilities : List Capability}
    {edges : List Edge} (hbuild : Ontology.build version capabilities edges = .ok c.ontology)
    (e : CatalogEntry) (he : e.Loaded) (h : isHalting (c.check e).findings = false) :
    ∃ w, e.graph = some w ∧
      OneToOne ((c.check e).findings.filter (·.code = .conflictingCapabilities))
        (fun p : Step × Step => c.Conflict w p.1 p.2) (fun p => conflictFinding w p.1 p.2) ∧
      OneToOne ((c.check e).findings.filter (·.code = .orderingViolation))
        (fun p : (String × String) × Step × Step => c.Disorder w p.1.1 p.1.2 p.2.1 p.2.2)
        (fun p => orderFinding w p.2.1 p.2.2) := by
  obtain ⟨h, w, hg, hscope⟩ := exists_graph_of_not_isHalting he h
  have hw : w.WellFormed := (hscope (c.inputsType w)).workflow
  have hopposed := fun a b : String => Ontology.conflicts_iff_of_build hbuild (a := a) (b := b)
  refine ⟨w, hg, ?_, ?_⟩
  · refine ⟨c.conflictPairs w, nodup_conflictPairs hw, fun p => mem_conflictPairs_iff hw hopposed, ?_⟩
    have hperm := perm_filter_code_check he h hg .conflictingCapabilities (by decide)
    have hcode : (c.relationFindings w).filter (·.code = .conflictingCapabilities) =
        c.conflictFindings w := by
      simp [filter_code_relationFindings]
    rw [← conflictFindings_eq hw, ← hcode]
    exact hperm
  · refine ⟨c.misplacedPairs w, nodup_misplacedPairs hw, fun p => mem_misplacedPairs_iff hw, ?_⟩
    have hperm := perm_filter_code_check he h hg .orderingViolation (by decide)
    have hcode : (c.relationFindings w).filter (·.code = .orderingViolation) =
        c.orderingFindings w := by
      simp [filter_code_relationFindings]
    rw [← orderingFindings_eq, ← hcode]
    exact hperm

namespace Formatting

/-- `lint` and `format` conflict, and `search` has to run before `detect`, which is declared twice. -/
def ontology : Ontology where
  version := ⟨1, 0, 0, "", ""⟩
  capabilities := [
    Sample.capability "lint" .any .any,
    Sample.capability "format" .any .any,
    Sample.capability "search" .any .any,
    Sample.capability "detect" .any .any]
  edges := [
    ⟨"lint", "format", .conflictsWith⟩,
    ⟨"format", "lint", .conflictsWith⟩,
    ⟨"search", "detect", .precedes⟩,
    ⟨"detect", "search", .follows⟩]

/-- `search` runs beside one `detect` and after another. -/
def workflow : AuthoredWorkflow where
  groups := [("fan", ⟨some "all", []⟩)]
  steps := [
    { capability := some "format", label := some "f" },
    { capability := some "lint", label := some "l" },
    { capability := some "detect", label := some "d" },
    { capability := some "search", label := some "s", group := some "fan" },
    { capability := some "detect", label := some "e", group := some "fan" }]

def checker : Checker := { ontology := ontology }

def entry : CatalogEntry := .ofAuthored 10 "format" workflow

end Formatting

theorem pairs_check_formatting :
    Ontology.build Formatting.ontology.version Formatting.ontology.capabilities
        Formatting.ontology.edges = .ok Formatting.checker.ontology ∧
      Formatting.entry.Loaded ∧ isHalting (Formatting.checker.check Formatting.entry).findings = false ∧
      ∃ w, Formatting.entry.graph = some w ∧
        OneToOne ((Formatting.checker.check Formatting.entry).findings.filter
            (·.code = .conflictingCapabilities))
          (fun p : Step × Step => Formatting.checker.Conflict w p.1 p.2)
          (fun p => conflictFinding w p.1 p.2) ∧
        OneToOne ((Formatting.checker.check Formatting.entry).findings.filter
            (·.code = .orderingViolation))
          (fun p : (String × String) × Step × Step =>
            Formatting.checker.Disorder w p.1.1 p.1.2 p.2.1 p.2.2)
          (fun p => orderFinding w p.2.1 p.2.2) :=
  have hbuild : Ontology.build Formatting.ontology.version Formatting.ontology.capabilities
      Formatting.ontology.edges = .ok Formatting.checker.ontology :=
    Ontology.build_eq_ok_iff.2 ⟨Except.toOption_eq_some_iff.1 (by decide +kernel),
      Except.toOption_eq_some_iff.1 (by decide +kernel),
      Ontology.requiresCycle?_eq_none (by decide), rfl⟩
  have he : Formatting.entry.Loaded := .authored 10 "format" Formatting.workflow
  have h : isHalting (Formatting.checker.check Formatting.entry).findings = false :=
    (isHalting_findings_check he).trans (by decide +kernel)
  ⟨hbuild, he, h, pairs_check Formatting.checker hbuild Formatting.entry he h⟩

end Checker

end CapabilityFlow
