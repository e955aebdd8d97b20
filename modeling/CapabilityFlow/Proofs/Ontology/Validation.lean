import CapabilityFlow.Proofs.Ontology.Requirements

/-!
# Which ontologies are built

`Ontology.build` makes its checks one after another (`Ontology.build_eq_ok_iff`), and accepts exactly what
is well declared and has no cycle of requirements (`Ontology.build_eq_ok_iff_acyclic`). So what a
built ontology knows has a well-formed identifier, its symmetric edges have their reverse, and
without edges only the identifiers count.
-/

namespace CapabilityFlow.Ontology

variable {version : Version} {capabilities : List Capability} {edges : List Edge} {o : Ontology}

theorem build_eq_ok_iff : build version capabilities edges = .ok o ↔
      checkIds [] capabilities = .ok () ∧ edges.forM (checkEdge ⟨version, capabilities, edges⟩) = .ok () ∧
        requiresCycle? ⟨version, capabilities, edges⟩ = none ∧ ⟨version, capabilities, edges⟩ = o := by
  unfold build
  constructor
  · intro h
    obtain ⟨⟨⟩, hids, h⟩ := Except.bind_eq_ok_iff.1 h
    obtain ⟨⟨⟩, hedges, h⟩ := Except.bind_eq_ok_iff.1 h
    split at h
    · cases h
    · rename_i hcycle
      exact ⟨hids, hedges, hcycle, Except.ok.inj h⟩
  · rintro ⟨hids, hedges, hcycle, rfl⟩
    simp only [hids, hedges, hcycle, bind, Except.bind]

/-! ## Identifiers -/

theorem checkIds_eq_ok_iff {seen : List String} : checkIds seen capabilities = .ok () ↔
    (∀ c ∈ capabilities, isWellFormedId c.id = true) ∧ (∀ c ∈ capabilities, c.id ∉ seen) ∧
      (capabilities.map (·.id)).Nodup := by
  induction capabilities generalizing seen with
  | nil => simp [checkIds]
  | cons c rest ih =>
    unfold checkIds
    split
    · rename_i hid
      refine iff_of_false nofun fun h => ?_
      have hformed := h.1 c List.mem_cons_self
      simp [hformed] at hid
    split
    · rename_i hid hseen
      refine iff_of_false nofun fun h => ?_
      exact h.2.1 c List.mem_cons_self (by simpa using hseen)
    · rename_i hid hseen
      have hformed : isWellFormedId c.id = true := by simpa using hid
      have hnew : c.id ∉ seen := by simpa using hseen
      have hrest : (∀ d ∈ rest, d.id ∉ c.id :: seen) ↔
          c.id ∉ rest.map (·.id) ∧ ∀ d ∈ rest, d.id ∉ seen := by
        simp [not_or, forall_and]
      rw [ih, hrest, List.forall_mem_cons, List.forall_mem_cons, List.map_cons, List.nodup_cons]
      tauto

/-- What a built ontology knows has a well-formed identifier. -/
theorem isWellFormedId_of_build (h : build version capabilities edges = .ok o) {id : String}
    {c : Capability} (hc : o.get? id = some c) : isWellFormedId id = true := by
  obtain ⟨hids, -, -, rfl⟩ := build_eq_ok_iff.1 h
  have hid : c.id = id := by simpa using List.find?_some hc
  rw [← hid]
  exact (checkIds_eq_ok_iff.1 hids).1 c (List.mem_of_find?_eq_some hc)

/-! ## Edges -/

theorem contains_iff_mem_ids {id : String} :
    o.contains id = true ↔ id ∈ o.capabilities.map (·.id) := by
  simp [contains]

/-- An edge between capabilities that are there, with its reverse if its kind is symmetric. -/
structure Joins (o : Ontology) (e : Edge) : Prop where
  source : e.source ∈ o.capabilities.map (·.id)
  target : e.target ∈ o.capabilities.map (·.id)
  reversed : e.kind.isSymmetric = true → e.reversed ∈ o.edges

theorem checkEdge_eq_ok_iff {e : Edge} : checkEdge o e = .ok () ↔ o.Joins e := by
  unfold checkEdge
  split
  · rename_i hsource
    refine iff_of_false nofun fun h => ?_
    simp [contains_iff_mem_ids.2 h.source] at hsource
  split
  · rename_i htarget
    refine iff_of_false nofun fun h => ?_
    simp [contains_iff_mem_ids.2 h.target] at htarget
  split
  · rename_i hreversed
    refine iff_of_false nofun fun h => ?_
    rw [Bool.and_eq_true] at hreversed
    simp [h.reversed hreversed.1] at hreversed
  · rename_i hsource htarget hreversed
    refine iff_of_true rfl ⟨?_, ?_, fun hkind => ?_⟩
    · exact contains_iff_mem_ids.1 (by simpa using hsource)
    · exact contains_iff_mem_ids.1 (by simpa using htarget)
    · simpa [hkind] using hreversed

/-- An accepted ontology has the reverse of each edge of a symmetric kind. -/
theorem reversed_mem_of_build (h : build version capabilities edges = .ok o) {e : Edge}
    (he : e ∈ o.edges) (hkind : e.kind.isSymmetric = true) : e.reversed ∈ o.edges := by
  obtain ⟨-, hedges, -, rfl⟩ := build_eq_ok_iff.1 h
  exact (checkEdge_eq_ok_iff.1 (Except.forM_eq_ok_iff.1 hedges e he)).reversed hkind

/-! ## Acceptance -/

/-- What capabilities and edges have to respect, cycles apart. -/
structure WellDeclared (capabilities : List Capability) (edges : List Edge) : Prop where
  ids : ∀ c ∈ capabilities, isWellFormedId c.id = true
  distinct : (capabilities.map (·.id)).Nodup
  endpoints : ∀ e ∈ edges,
    e.source ∈ capabilities.map (·.id) ∧ e.target ∈ capabilities.map (·.id)
  reversed : ∀ e ∈ edges, e.kind = .alternativeTo ∨ e.kind = .conflictsWith → e.reversed ∈ edges

theorem isSymmetric_iff {kind : EdgeKind} :
    kind.isSymmetric = true ↔ kind = .alternativeTo ∨ kind = .conflictsWith := by
  cases kind <;> decide

theorem wellDeclared_iff (version : Version) : WellDeclared capabilities edges ↔
    checkIds [] capabilities = .ok () ∧
      edges.forM (checkEdge ⟨version, capabilities, edges⟩) = .ok () := by
  simp only [checkIds_eq_ok_iff, Except.forM_eq_ok_iff, checkEdge_eq_ok_iff]
  constructor
  · rintro ⟨hids, hdistinct, hends, hreversed⟩
    refine ⟨⟨hids, by simp, hdistinct⟩, fun e he => ⟨(hends e he).1, (hends e he).2, fun hkind => ?_⟩⟩
    exact hreversed e he (isSymmetric_iff.1 hkind)
  · rintro ⟨⟨hids, -, hdistinct⟩, hjoins⟩
    refine ⟨hids, hdistinct, fun e he => ⟨(hjoins e he).source, (hjoins e he).target⟩, ?_⟩
    exact fun e he hkind => (hjoins e he).reversed (isSymmetric_iff.2 hkind)

theorem WellDeclared.isClosed (h : WellDeclared capabilities edges) :
    IsClosed ⟨version, capabilities, edges⟩ :=
  fun e he _ => (h.endpoints e he).2

theorem build_eq_ok (h : WellDeclared capabilities edges) (hacyclic : Acyclic edges) :
    build version capabilities edges = .ok ⟨version, capabilities, edges⟩ := by
  obtain ⟨hids, hedges⟩ := (wellDeclared_iff version).1 h
  exact build_eq_ok_iff.2 ⟨hids, hedges, (requiresCycle?_eq_none_iff h.isClosed).2 hacyclic, rfl⟩

theorem wellDeclared_of_build (h : build version capabilities edges = .ok o) :
    WellDeclared capabilities edges := by
  obtain ⟨hids, hedges, -, -⟩ := build_eq_ok_iff.1 h
  exact (wellDeclared_iff version).2 ⟨hids, hedges⟩

theorem acyclic_of_build (h : build version capabilities edges = .ok o) : Acyclic edges := by
  obtain ⟨-, -, hcycle, -⟩ := build_eq_ok_iff.1 h
  exact (requiresCycle?_eq_none_iff (wellDeclared_of_build h).isClosed).1 hcycle

theorem eq_of_build (h : build version capabilities edges = .ok o) :
    o = ⟨version, capabilities, edges⟩ :=
  (build_eq_ok_iff.1 h).2.2.2.symm

/-- An ontology is built exactly from what is well declared and has no cycle of requirements. A cycle, when
it is the only fault, is reported as a closed walk along requirements. -/
theorem build_eq_ok_iff_acyclic (version : Version) (capabilities : List Capability)
    (edges : List Edge) :
    (∀ o, build version capabilities edges = .ok o ↔
      (WellDeclared capabilities edges ∧ Acyclic edges) ∧ o = ⟨version, capabilities, edges⟩) ∧
    (WellDeclared capabilities edges → ¬Acyclic edges →
      ∃ ids, build version capabilities edges = .error (.requiresCycle ids) ∧
        IsClosedWalk edges ids) := by
  constructor
  · intro o
    rw [build_eq_ok_iff, ← and_assoc, ← wellDeclared_iff, ← and_assoc, eq_comm (b := o)]
    refine and_congr_left fun _ => and_congr_right fun hdeclared => ?_
    exact requiresCycle?_eq_none_iff hdeclared.isClosed
  · intro hdeclared hcyclic
    obtain ⟨hids, hedges⟩ := (wellDeclared_iff version).1 hdeclared
    have hclosed : IsClosed ⟨version, capabilities, edges⟩ := hdeclared.isClosed
    obtain ⟨ids, hcycle⟩ := Option.ne_none_iff_exists'.1 fun hnone =>
      hcyclic ((requiresCycle?_eq_none_iff hclosed).1 hnone)
    refine ⟨ids, ?_, isClosedWalk_of_requiresCycle? hclosed hcycle⟩
    simp only [build, hids, hedges, hcycle, bind, Except.bind]

namespace Loop

/-- Capabilities of which only the identifiers count. -/
def stages : List Capability :=
  ["audit", "plan", "draft"].map fun id => { (default : Capability) with id }

/-- `plan` and `draft` require each other, and `audit` requires `plan`. -/
def requirements : List Edge :=
  [⟨"audit", "plan", .requires⟩, ⟨"plan", "draft", .requires⟩, ⟨"draft", "plan", .requires⟩]

theorem wellDeclared : WellDeclared stages requirements :=
  ⟨by decide +kernel, by decide, by decide, by decide⟩

theorem isClosedWalk : IsClosedWalk requirements ["plan", "draft", "plan"] :=
  ⟨by decide, rfl, by simp [Requires, requirements]⟩

end Loop

theorem build_eq_ok_iff_acyclic_loop :
    WellDeclared Loop.stages Loop.requirements ∧ ¬Acyclic Loop.requirements ∧
      ∃ ids, build default Loop.stages Loop.requirements = .error (.requiresCycle ids) ∧
        IsClosedWalk Loop.requirements ids :=
  ⟨Loop.wellDeclared, Loop.isClosedWalk.not_acyclic,
    (build_eq_ok_iff_acyclic default Loop.stages Loop.requirements).2 Loop.wellDeclared
      Loop.isClosedWalk.not_acyclic⟩

/-! ## Without requirements -/

/-- Without requirements there is no cycle of them. -/
theorem requiresCycle?_eq_none (ho : ∀ e ∈ o.edges, e.kind ≠ .requires) : o.requiresCycle? = none :=
  (requiresCycle?_eq_none_iff fun e he hkind => absurd hkind (ho e he)).2
    (acyclic_of_forall_kind_ne ho)

theorem build_eq_ok_of_checkIds (h : checkIds [] capabilities = .ok ()) :
    build version capabilities [] = .ok ⟨version, capabilities, []⟩ :=
  build_eq_ok_iff.2 ⟨h, rfl, requiresCycle?_eq_none (by simp), rfl⟩

end CapabilityFlow.Ontology
