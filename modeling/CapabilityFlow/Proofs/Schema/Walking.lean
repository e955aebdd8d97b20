import CapabilityFlow.Proofs.Schema.Satisfaction
import Mathlib.Data.List.Induction

/-!
# Paths that values have

A path that leads into some value of a schema leads into the schema, and what the path selects
describes the part of the value (`Schema.exists_walk_of_reaches`). Through a union, every arm is
walked and one of the schemas that are the same is kept, which describes the same values.
-/

namespace CapabilityFlow

namespace Schema

/-! ## Results that are kept -/

variable {results : List (Except PathError Schema)} {s t : Schema}

theorem distinct_concat_ok (results : List (Except PathError Schema)) (s : Schema) :
    distinct (results ++ [.ok s]) =
      if (distinct results).any (s.same ·) then distinct results else distinct results ++ [s] := by
  simp [distinct]

theorem distinct_concat_error (results : List (Except PathError Schema)) (e : PathError) :
    distinct (results ++ [.error e]) = distinct results := by
  simp [distinct]

theorem of_mem_distinct (h : s ∈ distinct results) : .ok s ∈ results := by
  induction results using List.reverseRecOn with
  | nil => cases h
  | append_singleton rest r ih =>
    cases r with
    | error e =>
      rw [distinct_concat_error] at h
      exact List.mem_append_left _ (ih h)
    | ok t =>
      rw [distinct_concat_ok] at h
      split at h
      · exact List.mem_append_left _ (ih h)
      · rcases List.mem_append.1 h with h | h
        · exact List.mem_append_left _ (ih h)
        · rw [List.mem_singleton.1 h]
          exact List.mem_append_right _ (List.mem_singleton_self _)

/-- Of each result, one that is the same is kept. -/
theorem exists_mem_distinct (h : .ok s ∈ results) :
    ∃ t ∈ distinct results, s = t ∨ s.same t = true := by
  induction results using List.reverseRecOn with
  | nil => cases h
  | append_singleton rest r ih =>
    have hrest : .ok s ∈ rest → ∃ t ∈ distinct (rest ++ [r]), s = t ∨ s.same t = true := by
      intro hmem
      obtain ⟨t, ht, hst⟩ := ih hmem
      refine ⟨t, ?_, hst⟩
      cases r with
      | error e => rwa [distinct_concat_error]
      | ok u =>
        rw [distinct_concat_ok]
        split
        · exact ht
        · exact List.mem_append_left _ ht
    rcases List.mem_append.1 h with h | h
    · exact hrest h
    · obtain rfl := List.mem_singleton.1 h
      rw [distinct_concat_ok]
      split
      · rename_i hany
        obtain ⟨t, ht, hsame⟩ := List.any_eq_true.1 hany
        exact ⟨t, ht, .inr hsame⟩
      · exact ⟨s, List.mem_append_right _ (List.mem_singleton_self _), .inl rfl⟩

/-! ## Results of walks -/

variable {n m : Schema} {p : Path} {arms : List Schema}

theorem walk_union_eq_ok_iff {seg : Segment} : (union arms).walk (seg :: p) = .ok m ↔
    distinct (arms.map (·.walk (seg :: p))) ≠ [] ∧
      ofArms (distinct (arms.map (·.walk (seg :: p)))) = m := by
  rw [walk]
  split
  · rename_i hnil
    simp [hnil]
  · rename_i hne
    simp [show distinct (arms.map (·.walk (seg :: p))) ≠ [] from hne]

theorem of_contains_ofArms (h : (ofArms arms).Contains t) :
    t = .union arms ∨ ∃ arm ∈ arms, arm.Contains t := by
  unfold ofArms at h
  split at h
  · exact .inr ⟨_, List.mem_singleton_self _, h⟩
  · cases h with
    | self => exact .inl rfl
    | arm harm h => exact .inr ⟨_, harm, h⟩

/-- The objects that stand in what a path selects stand in the schema. -/
theorem contains_of_walk {fields : Table Schema} {required : List String} {isOpen : Bool}
    (hwalk : n.walk p = .ok m) (h : m.Contains (.object fields required isOpen)) :
    n.Contains (.object fields required isOpen) := by
  induction n, p using walk.induct generalizing m with
  | case1 s =>
    rw [walk] at hwalk
    cases hwalk
    exact h
  | case2 | case3 =>
    rw [walk] at hwalk
    cases hwalk
    cases h
  | case4 arms seg rest | case5 arms seg rest =>
    rename_i ih
    obtain ⟨-, rfl⟩ := walk_union_eq_ok_iff.1 hwalk
    rcases of_contains_ofArms h with h | ⟨found, hfound, h⟩
    · cases h
    · obtain ⟨arm, harm, hwalk⟩ := List.mem_map.1 (of_mem_distinct hfound)
      exact .arm harm (ih arm harm hwalk h)
  | case6 fields required isOpen name rest s hs ih =>
    rw [walk, hs] at hwalk
    exact .field (Table.mem_of_get? hs) (ih hwalk h)
  | case7 fields required name rest hnone =>
    rw [walk, hnone] at hwalk
    cases hwalk
    cases h
  | case8 fields required isOpen name rest hnone hopen =>
    rw [walk, hnone] at hwalk
    simp [hopen] at hwalk
  | case9 element rest ih =>
    rw [walk] at hwalk
    exact .element (ih hwalk h)
  | case10 | case11 => simp_all [walk]

theorem DeclaresOnce.walk (h : n.DeclaresOnce) (hwalk : n.walk p = .ok m) : m.DeclaresOnce := by
  intro t ht
  cases t with
  | object fields required isOpen => exact h _ (contains_of_walk hwalk ht)
  | _ => trivial

/-! ## Values -/

variable {v w : Value}

theorem satisfies_ofArms {arm : Schema} (harm : arm ∈ arms) (h : v.Satisfies arm) :
    v.Satisfies (ofArms arms) := by
  unfold ofArms
  split
  · rwa [← List.mem_singleton.1 harm]
  · exact .union harm h

theorem exists_obj_of_get? {u : Value} {name : String} (h : v.get? name = some u) :
    ∃ members : Members, v = .obj members ∧ members.get? name = some u := by
  cases v with
  | obj members => exact ⟨members, rfl, h⟩
  | _ => cases h

/-- A path that leads into a value of a schema leads into the schema, and selects what describes the
part of the value. -/
theorem exists_walk_of_reaches (hn : n.DeclaresOnce) (hv : v.Satisfies n) (hw : v.Reaches p w) :
    ∃ m, n.walk p = .ok m ∧ w.Satisfies m := by
  induction n, p using walk.induct generalizing v with
  | case1 s =>
    cases hw
    exact ⟨s, by rw [walk], hv⟩
  | case2 => exact ⟨.any, by rw [walk], .any w⟩
  | case3 => exact ⟨.unknown, by rw [walk], .unknown w⟩
  | case4 arms seg rest | case5 arms seg rest =>
    rename_i ih
    cases hv with
    | union harm h =>
      rename_i arm
      have harmOnce : arm.DeclaresOnce := hn.arm harm
      obtain ⟨s, hs, hsat⟩ := ih arm harm harmOnce h hw
      have hmem : .ok s ∈ arms.map (·.walk (seg :: rest)) := List.mem_map.2 ⟨arm, harm, hs⟩
      -- What this arm gives may be dropped for what another arm gives, if that is the same.
      obtain ⟨t, ht, hst⟩ := exists_mem_distinct hmem
      have hkept : w.Satisfies t := by
        rcases hst with rfl | hsame
        · exact hsat
        · exact hsat.of_same (harmOnce.walk hs) hsame
      exact ⟨_, walk_union_eq_ok_iff.2 ⟨List.ne_nil_of_mem ht, rfl⟩, satisfies_ofArms ht hkept⟩
  | case6 fields required isOpen name rest s hs ih =>
    cases hw with
    | field hu h =>
      obtain ⟨members, rfl, hu⟩ := exists_obj_of_get? hu
      cases hv with
      | object _ hfields _ =>
        rw [walk, hs]
        exact ih (hn.field (Table.mem_of_get? hs)) (hfields name s _ hs hu) h
  | case7 fields required name rest hnone => exact ⟨.unknown, by rw [walk, hnone]; rfl, .unknown w⟩
  | case8 fields required isOpen name rest hnone hopen =>
    cases hw with
    | field hu h =>
      obtain ⟨members, rfl, hu⟩ := exists_obj_of_get? hu
      cases hv with
      | object _ _ hclosed =>
        obtain ⟨s, hs⟩ := Table.exists_get?_of_mem_names
          (hclosed (by simpa using hopen) name (Table.mem_names_of_get? hu))
        rw [hnone] at hs
        cases hs
  | case9 element rest ih =>
    cases hw with
    | element hu h =>
      cases hv with
      | array hitems =>
        rw [walk]
        exact ih hn.element (hitems _ hu) h
  | case10 s rest hany hunknown hunion harray =>
    cases hw with
    | element hu h =>
      cases hv with
      | any => exact absurd rfl hany
      | unknown => exact absurd rfl hunknown
      | scalar h => cases h
      | array => exact absurd rfl (harray _)
      | union => exact absurd rfl (hunion _)
  | case11 s name rest hany hunknown hunion hobject =>
    cases hw with
    | field hu h =>
      obtain ⟨members, rfl, -⟩ := exists_obj_of_get? hu
      cases hv with
      | any => exact absurd rfl hany
      | unknown => exact absurd rfl hunknown
      | scalar h => cases h
      | object => exact absurd rfl (hobject _ _ _)
      | union => exact absurd rfl (hunion _)

end Schema

end CapabilityFlow
