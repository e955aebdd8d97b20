import CapabilityFlow.Table
import Mathlib.Data.List.Nodup

/-!
# What tables hold

A table whose names are distinct has a value for a name exactly when it holds the pair, and setting
a name keeps the names distinct. Setting names changes no pair of another name.
-/

namespace CapabilityFlow

namespace Table

variable {α : Type}

theorem get?_eq_some_iff_mem {t : Table α} (ht : t.names.Nodup) {name : String} {v : α} :
    t.get? name = some v ↔ (name, v) ∈ t := by
  refine ⟨mem_of_get?, fun h => ?_⟩
  obtain ⟨before, after, rfl⟩ := List.append_of_mem h
  refine List.lookup_eq_some_iff.2 ⟨before, after, rfl, fun p hp => ?_⟩
  rw [names, List.map_append, List.map_cons, List.nodup_append] at ht
  have hne : p.1 ≠ name := ht.2.2 p.1 (List.mem_map_of_mem hp) name List.mem_cons_self
  exact bne_iff_ne.2 hne.symm

theorem nodup_names_set {t : Table α} (ht : t.names.Nodup) (name : String) (v : α) :
    (t.set name v).names.Nodup := by
  rw [names_set]
  split
  · exact ht
  · rename_i hname
    have hnot : name ∉ t.names := by simpa [has] using hname
    refine List.nodup_append.2 ⟨ht, List.nodup_singleton name, fun x hx y hy => ?_⟩
    rw [List.mem_singleton.1 hy]
    rintro rfl
    exact hnot hx

theorem of_mem_set {t : Table α} {name : String} {v : α} {b : String × α} (h : b ∈ t.set name v) :
    b ∈ t ∨ b = (name, v) := by
  induction t with
  | nil => exact .inr (List.mem_singleton.1 h)
  | cons p rest ih =>
    unfold set at h
    split at h
    · rename_i hk
      rcases List.mem_cons.1 h with rfl | h
      · exact .inr (congrArg (·, v) hk)
      · exact .inl (List.mem_cons_of_mem _ h)
    · rcases List.mem_cons.1 h with rfl | h
      · exact .inl List.mem_cons_self
      · exact (ih h).imp_left (List.mem_cons_of_mem _)

theorem mem_set_of_ne {t : Table α} {name : String} {v : α} {b : String × α} (h : b ∈ t)
    (hne : b.1 ≠ name) : b ∈ t.set name v := by
  induction t with
  | nil => cases h
  | cons p rest ih =>
    unfold set
    split
    · rename_i hk
      rcases List.mem_cons.1 h with rfl | h
      · exact absurd hk hne
      · exact List.mem_cons_of_mem _ h
    · rcases List.mem_cons.1 h with rfl | h
      · exact List.mem_cons_self
      · exact List.mem_cons_of_mem _ (ih h)

theorem of_mem_foldl_set {pairs t : Table α} {b : String × α}
    (h : b ∈ pairs.foldl (fun t p => t.set p.1 p.2) t) : b ∈ t ∨ b ∈ pairs := by
  induction pairs generalizing t with
  | nil => exact .inl h
  | cons p rest ih =>
    rcases ih h with h | h
    · rcases of_mem_set h with h | rfl
      · exact .inl h
      · exact .inr List.mem_cons_self
    · exact .inr (List.mem_cons_of_mem p h)

theorem mem_foldl_set_of_notMem {pairs t : Table α} {b : String × α} (h : b ∈ t)
    (hnot : b.1 ∉ pairs.names) : b ∈ pairs.foldl (fun t p => t.set p.1 p.2) t := by
  induction pairs generalizing t with
  | nil => exact h
  | cons p rest ih =>
    rw [names, List.map_cons, List.mem_cons, not_or] at hnot
    exact ih (mem_set_of_ne h hnot.1) hnot.2

theorem get?_set (t : Table α) (name other : String) (v : α) :
    (t.set name v).get? other = if name = other then some v else t.get? other := by
  split
  · rename_i h
    rw [h, get?_set_self]
  · rename_i h
    induction t with
    | nil => simp [set, get?, List.lookup_cons, beq_false_of_ne (Ne.symm h)]
    | cons p rest ih =>
      obtain ⟨k, u⟩ := p
      unfold set
      split
      · rename_i hk
        simp [get?, List.lookup_cons, hk, beq_false_of_ne (Ne.symm h)]
      · simp only [get?, List.lookup_cons] at ih ⊢
        rw [ih]

/-- Of a name that is set, the last value counts. -/
theorem get?_foldl_set {pairs t : Table α} (hpairs : pairs.names.Nodup) (name : String) :
    (pairs.foldl (fun t p => t.set p.1 p.2) t).get? name = (pairs.get? name).or (t.get? name) := by
  induction pairs generalizing t with
  | nil => rfl
  | cons p rest ih =>
    obtain ⟨k, v⟩ := p
    rw [names, List.map_cons, List.nodup_cons] at hpairs
    rw [List.foldl_cons, ih hpairs.2, get?_set]
    by_cases hk : k = name
    · subst hk
      have hnone : get? rest k = none := by
        refine List.lookup_eq_none_iff.2 fun q hq => bne_iff_ne.2 ?_
        exact fun heq => hpairs.1 (List.mem_map.2 ⟨q, hq, heq.symm⟩)
      rw [hnone]
      simp [get?]
    · simp [get?, List.lookup_cons, hk, beq_false_of_ne (Ne.symm hk)]

theorem set_of_notMem {t : Table α} {name : String} (h : name ∉ t.names) (v : α) :
    t.set name v = t ++ [(name, v)] := by
  induction t with
  | nil => rfl
  | cons p rest ih =>
    rw [names, List.map_cons, List.mem_cons, not_or] at h
    rw [set, if_neg (Ne.symm h.1), ih h.2, List.cons_append]

/-- Names that are new are added in their order. -/
theorem foldl_set_eq_append {t pairs : Table α} (h : (t ++ pairs).names.Nodup) :
    pairs.foldl (fun t p => t.set p.1 p.2) t = t ++ pairs := by
  induction pairs generalizing t with
  | nil => simp
  | cons p rest ih =>
    have hp : p.1 ∉ t.names := by
      rw [names, List.map_append, List.nodup_append] at h
      exact fun hmem => h.2.2 p.1 hmem p.1 List.mem_cons_self rfl
    rw [List.append_cons] at h ⊢
    rw [List.foldl_cons, set_of_notMem hp, ih h]

theorem nodup_names_ofPairs (pairs : Table α) : (ofPairs pairs).names.Nodup := by
  have h : ∀ t : Table α, t.names.Nodup →
      (pairs.foldl (fun t p => t.set p.1 p.2) t).names.Nodup := by
    induction pairs with
    | nil => exact fun _ ht => ht
    | cons p rest ih => exact fun t ht => ih _ (nodup_names_set ht p.1 p.2)
  exact h [] List.nodup_nil

theorem ofPairs_eq_self {pairs : Table α} (h : pairs.names.Nodup) : ofPairs pairs = pairs :=
  foldl_set_eq_append (t := []) h

theorem exists_get?_of_mem_names {t : Table α} {name : String} (h : name ∈ t.names) :
    ∃ v, t.get? name = some v := by
  obtain ⟨p, hp, rfl⟩ := List.mem_map.1 h
  refine Option.ne_none_iff_exists'.1 fun hnone => ?_
  exact absurd rfl (bne_iff_ne.1 (List.lookup_eq_none_iff.1 hnone p hp))

theorem mem_names_of_get? {t : Table α} {name : String} {v : α} (h : t.get? name = some v) :
    name ∈ t.names :=
  List.mem_map.2 ⟨(name, v), mem_of_get? h, rfl⟩

/-- Setting a name that is there changes its value, in its place. -/
theorem set_eq_map {t : Table α} (ht : t.names.Nodup) {name : String} (h : name ∈ t.names) (v : α) :
    t.set name v = t.map fun p => (p.1, if p.1 = name then v else p.2) := by
  induction t with
  | nil => cases h
  | cons p rest ih =>
    obtain ⟨k, u⟩ := p
    rw [names, List.map_cons, List.nodup_cons] at ht
    unfold set
    split
    · rename_i hk
      subst hk
      have hrest : ∀ q ∈ rest, (q.1, if q.1 = k then v else q.2) = q := by
        intro q hq
        have hne : q.1 ≠ k := fun hqk => ht.1 (List.mem_map.2 ⟨q, hq, hqk⟩)
        rw [if_neg hne]
      rw [List.map_cons, if_pos rfl, List.map_congr_left hrest, List.map_id']
    · rename_i hk
      have hmem : name ∈ names rest := by
        rcases List.mem_cons.1 h with rfl | h
        · exact absurd rfl hk
        · exact h
      rw [List.map_cons, if_neg hk, ih ht.2 hmem]

end Table

end CapabilityFlow
