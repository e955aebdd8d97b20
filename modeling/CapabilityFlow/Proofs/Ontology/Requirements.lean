import CapabilityFlow.Ontology.Basic
import CapabilityFlow.Proofs.Except
import Mathlib.Data.List.Chain
import Mathlib.Data.List.Nodup
import Mathlib.Data.List.Perm.Subperm

/-!
# Cycles of requirements

`Ontology.requiresCycle?` finds a cycle exactly when there is one. The capabilities on the path of a
search are distinct, so the search goes no deeper than there are capabilities, and a capability is done
when no endless way leads away from it (`IsClear`).
-/

namespace CapabilityFlow.Ontology

variable {o : Ontology} {edges : List Edge}

theorem mem_neighbors_iff {id target : String} {kind : EdgeKind} :
    target ∈ o.neighbors id kind ↔ ⟨id, target, kind⟩ ∈ o.edges := by
  simp only [neighbors, List.mem_map, List.mem_filter, Bool.and_eq_true, decide_eq_true_eq]
  constructor
  · rintro ⟨e, ⟨he, rfl, rfl⟩, rfl⟩
    exact he
  · exact fun h => ⟨_, ⟨h, rfl, rfl⟩, rfl⟩

theorem mem_sorted_iff {name : String} {names : List String} : name ∈ sorted names ↔ name ∈ names :=
  List.mem_mergeSort

/-! ## Ways along requirements -/

/-- A capability requires another one. -/
def Requires (edges : List Edge) (id target : String) : Prop :=
  ⟨id, target, .requires⟩ ∈ edges

/-- No capability requires itself, directly or through others. -/
def Acyclic (edges : List Edge) : Prop :=
  ∀ id, ¬Relation.TransGen (Requires edges) id id

/-- Identifiers along requirements, from one back to itself. -/
structure IsClosedWalk (edges : List Edge) (ids : List String) : Prop where
  two_le_length : 2 ≤ ids.length
  closed : ids.head? = ids.getLast?
  chain : ids.IsChain (Requires edges)

/-- Each way along requirements from a capability ends. -/
def IsClear (edges : List Edge) : String → Prop :=
  Acc fun target id => Requires edges id target

theorem IsClear.not_transGen {id : String} (h : IsClear edges id) :
    ¬Relation.TransGen (Requires edges) id id := by
  induction h with
  | intro id _ ih =>
    intro hcycle
    obtain ⟨target, hid, htarget⟩ := Relation.TransGen.head'_iff.1 hcycle
    exact ih target hid (.tail' htarget hid)

theorem IsClosedWalk.not_acyclic {ids : List String} (h : IsClosedWalk edges ids) :
    ¬Acyclic edges := by
  intro hacyclic
  obtain ⟨htwo, hclosed, hchain⟩ := h
  match ids with
  | id :: target :: rest =>
    have hlast : (target :: rest).getLast (List.cons_ne_nil _ _) = id := by
      rw [List.head?_cons, List.getLast?_cons_cons, List.getLast?_eq_getLast_of_ne_nil] at hclosed
      exact (Option.some.inj hclosed).symm
    obtain ⟨hid, hrest⟩ := List.isChain_cons_cons.1 hchain
    have hway := List.relationReflTransGen_of_exists_isChain_cons rest hrest hlast
    exact hacyclic id (.head' hid hway)

/-! ## What a search comes to -/

/-- A search of `targets`, with the clear capabilities `done`, ends with a closed walk or with more clear
capabilities, the targets among them. -/
def Settles (edges : List Edge) (done targets : List String) :
    Except (List String) (List String) → Prop
  | .error ids => IsClosedWalk edges ids
  | .ok done' => done ⊆ done' ∧ targets ⊆ done' ∧ ∀ id ∈ done', IsClear edges id

/-- Targets are settled one after another. -/
theorem settles_foldlM {search : List String → String → Except (List String) (List String)}
    {targets : List String}
    (hsearch : ∀ done, (∀ id ∈ done, IsClear edges id) →
      ∀ target ∈ targets, Settles edges done [target] (search done target))
    {done : List String} (hdone : ∀ id ∈ done, IsClear edges id) :
    Settles edges done targets (targets.foldlM search done) := by
  induction targets generalizing done with
  | nil => exact ⟨List.Subset.refl done, List.nil_subset done, hdone⟩
  | cons target rest ih =>
    rw [List.foldlM_cons]
    have hfirst := hsearch done hdone target List.mem_cons_self
    cases hrun : search done target with
    | error ids =>
      rw [hrun] at hfirst
      exact hfirst
    | ok done₁ =>
      rw [hrun] at hfirst
      obtain ⟨hsub, htarget, hdone₁⟩ := hfirst
      have hrest := ih (fun done hd t ht => hsearch done hd t (List.mem_cons_of_mem _ ht)) hdone₁
      change Settles edges done (target :: rest) (rest.foldlM search done₁)
      cases hruns : rest.foldlM search done₁ with
      | error ids =>
        rw [hruns] at hrest
        exact hrest
      | ok done₂ =>
        rw [hruns] at hrest
        obtain ⟨hsub₁, hrest, hdone₂⟩ := hrest
        refine ⟨List.Subset.trans hsub hsub₁, List.cons_subset.2 ⟨hsub₁ ?_, hrest⟩, hdone₂⟩
        exact htarget List.mem_cons_self

/-- The requirements of an ontology are among its capabilities. -/
def IsClosed (o : Ontology) : Prop :=
  ∀ e ∈ o.edges, e.kind = .requires → e.target ∈ o.capabilities.map (·.id)

/-- The path of a search to a capability. -/
structure IsPath (o : Ontology) (path : List String) (id : String) : Prop where
  nodup : path.Nodup
  declared : path ⊆ o.capabilities.map (·.id)
  chain : (path ++ [id]).IsChain (Requires o.edges)

namespace IsPath

variable {path : List String} {id : String}

/-- A path that comes back to one of its capabilities closes a walk. -/
theorem isClosedWalk (h : o.IsPath path id) (hid : id ∈ path) :
    IsClosedWalk o.edges (path.dropWhile (· != id) ++ [id]) := by
  obtain ⟨before, after, rfl, hbefore⟩ := List.eq_append_cons_of_mem hid
  have hdrop : (before ++ id :: after).dropWhile (· != id) = id :: after := by
    rw [List.dropWhile_append_of_pos, List.dropWhile_cons_of_neg]
    · simp
    · exact fun p hp => bne_iff_ne.2 fun heq => hbefore (heq ▸ hp)
  rw [hdrop]
  have hchain := h.chain
  rw [List.append_assoc] at hchain
  have hlast : (id :: after ++ [id]).getLast? = some id := List.getLast?_concat
  exact ⟨by simp, hlast.symm, hchain.right_of_append⟩

/-- A path that does not come back has a capability less than there are. -/
theorem length_lt (h : o.IsPath path id) (hdeclared : id ∈ o.capabilities.map (·.id))
    (hid : id ∉ path) : path.length < o.size := by
  have hnodup : (id :: path).Nodup := List.nodup_cons.2 ⟨hid, h.nodup⟩
  have hsub : id :: path ⊆ o.capabilities.map (·.id) := List.cons_subset.2 ⟨hdeclared, h.declared⟩
  have hle := (List.subperm_of_subset hnodup hsub).length_le
  rw [List.length_cons, List.length_map] at hle
  exact hle

theorem extend (h : o.IsPath path id) (hdeclared : id ∈ o.capabilities.map (·.id)) (hid : id ∉ path)
    {target : String} (htarget : Requires o.edges id target) : o.IsPath (path ++ [id]) target where
  nodup := List.nodup_append.2 ⟨h.nodup, List.nodup_singleton id, fun p hp q hq => by
    rintro rfl
    exact hid (List.mem_singleton.1 hq ▸ hp)⟩
  declared := List.append_subset.2 ⟨h.declared, List.cons_subset.2 ⟨hdeclared, List.nil_subset _⟩⟩
  chain := by
    refine List.isChain_append.2 ⟨h.chain, List.isChain_singleton target, ?_⟩
    simpa using htarget

end IsPath

/-- A capability that a search has met is settled at once. -/
theorem settles_searchCycle_of_met {fuel : Nat} {path done : List String} {id : String}
    (hpath : o.IsPath path id) (hdone : ∀ d ∈ done, IsClear o.edges d) (hmet : id ∈ done ∨ id ∈ path) :
    Settles o.edges done [id] (searchCycle o fuel path done id) := by
  unfold searchCycle
  split
  · rename_i hid
    exact ⟨List.Subset.refl done, by simpa using hid, hdone⟩
  · rename_i hid
    have hback : id ∈ path := hmet.resolve_left (by simpa using hid)
    rw [if_pos (List.contains_iff_mem.2 hback)]
    exact hpath.isClosedWalk hback

theorem searchCycle_succ {fuel : Nat} {path done : List String} {id : String}
    (hmet : ¬(id ∈ done ∨ id ∈ path)) : searchCycle o (fuel + 1) path done id =
      ((sorted (o.neighbors id .requires)).foldlM
        (fun done target => searchCycle o fuel (path ++ [id]) done target) done).map (id :: ·) := by
  rw [not_or] at hmet
  rw [searchCycle, if_neg (by simpa using hmet.1), if_neg (by simpa using hmet.2)]
  rfl

/-- By induction on the number of capabilities that are not on the path of the search. -/
theorem settles_searchCycle (ho : o.IsClosed) {fuel : Nat} {path done : List String} {id : String}
    (hpath : o.IsPath path id) (hdeclared : id ∈ o.capabilities.map (·.id))
    (hfuel : o.size ≤ path.length + fuel) (hdone : ∀ d ∈ done, IsClear o.edges d) :
    Settles o.edges done [id] (searchCycle o fuel path done id) := by
  by_cases hmet : id ∈ done ∨ id ∈ path
  · exact settles_searchCycle_of_met hpath hdone hmet
  have hnot : id ∉ path := fun hid => hmet (.inr hid)
  induction fuel generalizing path done id with
  | zero =>
    have hlt := hpath.length_lt hdeclared hnot
    omega
  | succ fuel ih =>
    have htargets : Settles o.edges done (sorted (o.neighbors id .requires))
        ((sorted (o.neighbors id .requires)).foldlM
          (fun done target => searchCycle o fuel (path ++ [id]) done target) done) := by
      refine settles_foldlM (fun done hdone target htarget => ?_) hdone
      have hrequires : Requires o.edges id target :=
        mem_neighbors_iff.1 (mem_sorted_iff.1 htarget)
      have hnext := hpath.extend hdeclared hnot hrequires
      by_cases hmet : target ∈ done ∨ target ∈ path ++ [id]
      · exact settles_searchCycle_of_met hnext hdone hmet
      · refine ih hnext (ho _ hrequires rfl) ?_ hdone hmet fun hid => hmet (.inr hid)
        rw [List.length_append, List.length_singleton]
        omega
    rw [searchCycle_succ hmet]
    cases hrun : (sorted (o.neighbors id .requires)).foldlM
        (fun done target => searchCycle o fuel (path ++ [id]) done target) done with
    | error ids =>
      rw [hrun] at htargets
      exact htargets
    | ok done' =>
      rw [hrun] at htargets
      obtain ⟨hsub, hmem, hclear⟩ := htargets
      -- all that `id` requires is clear, so `id` is
      have hid : IsClear o.edges id := Acc.intro id fun target htarget =>
        hclear target (hmem (mem_sorted_iff.2 (mem_neighbors_iff.2 htarget)))
      refine ⟨List.subset_cons_of_subset id hsub, ?_, List.forall_mem_cons.2 ⟨hid, hclear⟩⟩
      exact List.cons_subset.2 ⟨List.mem_cons_self, List.nil_subset _⟩

/-! ## Cycles -/

theorem settles_ids (ho : o.IsClosed) : Settles o.edges [] o.ids
    (o.ids.foldlM (fun done id => searchCycle o o.size [] done id) []) := by
  refine settles_foldlM (fun done hdone id hid => ?_) (by simp)
  have hpath : o.IsPath [] id := ⟨List.nodup_nil, List.nil_subset _, List.isChain_singleton id⟩
  exact settles_searchCycle ho hpath (mem_sorted_iff.1 hid) (by simp) hdone

/-- What is reported as a cycle is a closed walk. -/
theorem isClosedWalk_of_requiresCycle? (ho : o.IsClosed) {ids : List String}
    (h : o.requiresCycle? = some ids) : IsClosedWalk o.edges ids := by
  have hsettles := settles_ids ho
  unfold requiresCycle? at h
  split at h
  · rename_i hrun
    rw [hrun, Option.some.inj h] at hsettles
    exact hsettles
  · cases h

/-- No cycle is reported exactly when there is none. -/
theorem requiresCycle?_eq_none_iff (ho : o.IsClosed) : o.requiresCycle? = none ↔ Acyclic o.edges := by
  constructor
  · intro h id hcycle
    have hsettles := settles_ids ho
    unfold requiresCycle? at h
    split at h
    · cases h
    · rename_i done hrun
      rw [hrun] at hsettles
      obtain ⟨-, hids, hclear⟩ := hsettles
      -- a capability on a cycle is required by another one, so it is declared
      obtain ⟨last, -, hlast⟩ := Relation.TransGen.tail'_iff.1 hcycle
      have hdeclared : id ∈ o.ids := mem_sorted_iff.2 (ho _ hlast rfl)
      exact (hclear id (hids hdeclared)).not_transGen hcycle
  · intro hacyclic
    refine Option.eq_none_iff_forall_ne_some.2 fun ids h => ?_
    exact (isClosedWalk_of_requiresCycle? ho h).not_acyclic hacyclic

/-- Requirements that lead to ever lower ranks have no cycle. -/
theorem acyclic_of_rank (rank : String → Nat)
    (h : ∀ e ∈ edges, e.kind = .requires → rank e.target < rank e.source) : Acyclic edges := by
  have hlower : ∀ {id target}, Relation.TransGen (Requires edges) id target →
      rank target < rank id := by
    intro id target hway
    induction hway with
    | single ht => exact h _ ht rfl
    | tail _ ht ih => exact Nat.lt_trans (h _ ht rfl) ih
  exact fun id hcycle => Nat.lt_irrefl _ (hlower hcycle)

theorem acyclic_of_forall_kind_ne (h : ∀ e ∈ edges, e.kind ≠ .requires) : Acyclic edges :=
  acyclic_of_rank (fun _ => 0) fun e he hkind => absurd hkind (h e he)

end CapabilityFlow.Ontology
