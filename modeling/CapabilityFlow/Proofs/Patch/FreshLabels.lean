import CapabilityFlow.Patch.Synthesis
import CapabilityFlow.Proofs.Schema.TypeText
import Mathlib.Data.List.Nodup

/-!
# Fresh labels

The alternatives to a label are different texts (`numbered_inj`), so among a few of them there is one that
is not taken (`le_of_forall_taken`), and a search through them that has no bound ends. It ends with the
first one that is not taken, which is what `freshLabel` gives
(`AuthoredWorkflow.freshLabel_first_unused`).
-/

namespace CapabilityFlow

/-! ## Alternatives -/

theorem toList_numbered (base : String) (n : Nat) :
    (numbered base n).toList = base.toList ++ '_' :: Nat.toDigits 10 n := by
  rw [show numbered base n = base ++ "_" ++ n.repr from rfl]
  simp

/-- The digits of an alternative stand behind its last low line, so the name can be read off. -/
theorem numbered_inj {base base' : String} {m n : Nat} :
    numbered base m = numbered base' n ↔ base = base' ∧ m = n := by
  constructor
  · intro h
    have hlist : base.toList ++ '_' :: Nat.toDigits 10 m =
        base'.toList ++ '_' :: Nat.toDigits 10 n := by
      rw [← toList_numbered, ← toList_numbered, h]
    have hcut : ∀ (k : Nat) (cs : List Char),
        ((Nat.toDigits 10 k).reverse ++ '_' :: cs).takeWhile Char.isDigit =
            (Nat.toDigits 10 k).reverse ∧
          ((Nat.toDigits 10 k).reverse ++ '_' :: cs).dropWhile Char.isDigit = '_' :: cs := by
      intro k cs
      refine TypeText.takeWhile_word (fun c hc => ?_) (fun c hc => ?_)
      · exact Nat.isDigit_of_mem_toDigits (by decide) (by decide) (List.mem_reverse.1 hc)
      · cases hc
        rfl
    have hreverse : (Nat.toDigits 10 m).reverse ++ '_' :: base.toList.reverse =
        (Nat.toDigits 10 n).reverse ++ '_' :: base'.toList.reverse := by
      simpa using congrArg List.reverse hlist
    obtain ⟨htake, hdrop⟩ := hcut m base.toList.reverse
    obtain ⟨htake', hdrop'⟩ := hcut n base'.toList.reverse
    rw [hreverse, htake'] at htake
    rw [hreverse, hdrop'] at hdrop
    have hdigits := List.reverse_injective htake
    refine ⟨String.toList_injective (List.reverse_injective (List.cons.inj hdrop).2).symm, ?_⟩
    rw [← Nat.ofDigitChars_ten_toDigits (n := m), ← hdigits, Nat.ofDigitChars_ten_toDigits]
  · rintro ⟨rfl, rfl⟩
    rfl

theorem numbered_ne (base : String) (n : Nat) : numbered base n ≠ base := by
  intro h
  have hlength := congrArg (fun text => text.toList.length) h
  simp only [toList_numbered, List.length_append, List.length_cons] at hlength
  omega

variable {taken : List String} {base label : String} {n : Nat}

/-- The name and its alternatives from the second on are different labels, so no more of them are taken
than there are labels. -/
theorem le_of_forall_taken (hbase : base ∈ taken)
    (h : ∀ m, 2 ≤ m → m < n → numbered base m ∈ taken) : n ≤ taken.length + 1 := by
  have hnodup : (base :: (List.range (n - 2)).map fun m => numbered base (m + 2)).Nodup := by
    refine List.nodup_cons.2 ⟨fun hmem => ?_, List.Nodup.map (fun m m' heq => ?_) List.nodup_range⟩
    · obtain ⟨m, -, heq⟩ := List.mem_map.1 hmem
      exact numbered_ne base (m + 2) heq
    · exact Nat.add_right_cancel (numbered_inj.1 heq).2
  have hsub : (base :: (List.range (n - 2)).map fun m => numbered base (m + 2)) ⊆ taken := by
    refine List.cons_subset.2 ⟨hbase, fun label hlabel => ?_⟩
    obtain ⟨m, hm, rfl⟩ := List.mem_map.1 hlabel
    have hlt := List.mem_range.1 hm
    exact h (m + 2) (by omega) (by omega)
  have hle := hnodup.length_le_of_subset hsub
  rw [List.length_cons, List.length_map, List.length_range] at hle
  omega

/-! ## The search -/

/-- A fresh label is the name itself, or the first alternative from the second on that is not taken. -/
theorem freshLabel_cases (taken : List String) (base : String) :
    base ∉ taken ∧ freshLabel taken base = base ∨
      base ∈ taken ∧ ∃ n, 2 ≤ n ∧ freshLabel taken base = numbered base n ∧
        numbered base n ∉ taken ∧ ∀ m, 2 ≤ m → m < n → numbered base m ∈ taken := by
  by_cases hbase : base ∈ taken
  · refine .inr ⟨hbase, ?_⟩
    have hfresh : freshLabel taken base = (((List.range (taken.length + 1)).find? fun n =>
        !taken.contains (numbered base (n + 2))).map fun n => numbered base (n + 2)).getD base := by
      rw [freshLabel, if_pos (List.contains_iff_mem.2 hbase)]
      dsimp only
      rw [List.find?_map]
      rfl
    cases hfind : (List.range (taken.length + 1)).find? fun n =>
        !taken.contains (numbered base (n + 2)) with
    | none =>
      have hall : ∀ m, m < taken.length + 1 → numbered base (m + 2) ∈ taken := by
        simpa using List.find?_range_eq_none.1 hfind
      have hle := le_of_forall_taken (n := taken.length + 3) hbase fun m hm hlt => by
        obtain ⟨k, rfl⟩ := Nat.exists_eq_add_of_le' hm
        exact hall k (by omega)
      omega
    | some n =>
      obtain ⟨hfree, -, hleast⟩ := List.find?_range_eq_some.1 hfind
      refine ⟨n + 2, Nat.le_add_left 2 n, by rw [hfresh, hfind]; rfl, by simpa using hfree, ?_⟩
      intro m hm hlt
      obtain ⟨k, rfl⟩ := Nat.exists_eq_add_of_le' hm
      simpa using hleast k (by omega)
  · refine .inl ⟨hbase, ?_⟩
    rw [freshLabel, if_neg (by simpa using hbase)]

example : freshLabel ["x", "x_3", "x_2"] "x" = "x_4" := by decide

theorem freshLabel_notMem (taken : List String) (base : String) : freshLabel taken base ∉ taken := by
  rcases freshLabel_cases taken base with ⟨hbase, h⟩ | ⟨-, n, -, h, hfree, -⟩
  · rwa [h]
  · rwa [h]

theorem AuthoredWorkflow.freshLabel_notMem_map (w : AuthoredWorkflow) (base : String) :
    some (freshLabel w.labels base) ∉ w.steps.map (·.label) := by
  intro hmem
  obtain ⟨t, ht, hl⟩ := List.mem_map.1 hmem
  exact freshLabel_notMem w.labels base (List.mem_filterMap.2 ⟨t, ht, hl⟩)

theorem freshLabel_eq (taken : List String) (base : String) :
    freshLabel taken base = base ∨ ∃ n, freshLabel taken base = numbered base n := by
  rcases freshLabel_cases taken base with ⟨-, h⟩ | ⟨-, n, -, h, -, -⟩
  · exact .inl h
  · exact .inr ⟨n, h⟩

/-- A search tries the alternatives to a name in turn, from the `n`-th on, and ends with the first one that
is not taken. Nothing else ends it. -/
inductive Finds (taken : List String) (base : String) : Nat → String → Prop where
  | here {n : Nat} (h : numbered base n ∉ taken) : Finds taken base n (numbered base n)
  | next {n : Nat} {label : String} (h : numbered base n ∈ taken)
      (hnext : Finds taken base (n + 1) label) : Finds taken base n label

theorem Finds.of_first {m : Nat} (hm : n ≤ m) (hfree : numbered base m ∉ taken)
    (hleast : ∀ k, n ≤ k → k < m → numbered base k ∈ taken) :
    Finds taken base n (numbered base m) := by
  obtain ⟨tries, rfl⟩ := Nat.exists_eq_add_of_le hm
  -- By induction on the number of tries that fail.
  induction tries generalizing n with
  | zero => exact .here hfree
  | succ tries ih =>
    have hcomm : n + (tries + 1) = n + 1 + tries := by omega
    rw [hcomm] at hfree hleast ⊢
    refine .next (hleast n (Nat.le_refl n) (by omega)) ?_
    exact ih (by omega) hfree fun k hk hlt => hleast k (by omega) hlt

theorem Finds.unique {label' : String} (h : Finds taken base n label)
    (h' : Finds taken base n label') : label = label' := by
  induction h with
  | here hfree =>
    cases h' with
    | here => rfl
    | next htaken => exact absurd htaken hfree
  | next htaken _ ih =>
    cases h' with
    | here hfree => exact absurd htaken hfree
    | next _ h' => exact ih h'

/-- Labels of inserted steps are fresh and, if alternatives are needed, minimal: the search through them
ends, and its number is at most one more than there are steps. -/
theorem AuthoredWorkflow.freshLabel_first_unused (w : AuthoredWorkflow) (base : String) :
    (∀ s ∈ w.steps, s.label ≠ some (freshLabel w.labels base)) ∧
      (base ∉ w.labels ∧ freshLabel w.labels base = base ∨
        base ∈ w.labels ∧
          (∀ label, Finds w.labels base 2 label ↔ label = freshLabel w.labels base) ∧
          ∃ n, 2 ≤ n ∧ n ≤ w.steps.length + 1 ∧ freshLabel w.labels base = numbered base n ∧
            numbered base n ∉ w.labels ∧ ∀ m, 2 ≤ m → m < n → numbered base m ∈ w.labels) := by
  refine ⟨fun s hs hl => w.freshLabel_notMem_map base (List.mem_map.2 ⟨s, hs, hl⟩), ?_⟩
  rcases freshLabel_cases w.labels base with hunused | ⟨hbase, n, hn, hlabel, hfree, hleast⟩
  · exact .inl hunused
  have hfinds : Finds w.labels base 2 (freshLabel w.labels base) := by
    rw [hlabel]
    exact .of_first hn hfree hleast
  have hbound : n ≤ w.steps.length + 1 := by
    have hlabels : w.labels.length ≤ w.steps.length := List.length_filterMap_le _ _
    have hle := le_of_forall_taken hbase hleast
    omega
  refine .inr ⟨hbase, fun label => ⟨fun h => h.unique hfinds, ?_⟩, n, hn, hbound, hlabel, hfree,
    hleast⟩
  rintro rfl
  exact hfinds

end CapabilityFlow
