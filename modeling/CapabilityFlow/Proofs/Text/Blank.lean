import CapabilityFlow.Text.Blank
import Mathlib.Data.List.Basic
import Mathlib.Data.List.TakeWhile

/-!
# Texts without the blanks around them

A text stands between blanks in what it is trimmed from (`Text.exists_eq_append_trimChars`). What
neither starts nor ends with a blank stays whole, whatever stands around it
(`Text.trimChars_append`).
-/

namespace CapabilityFlow.Text

variable {s : List Char}

theorem dropWhile_append_of_head {p : Char → Bool} (h : ∀ c ∈ s.head?, p c = false)
    (lead : List Char) : (lead ++ s).dropWhile p = lead.dropWhile p ++ s := by
  induction lead with
  | nil =>
    cases s with
    | nil => rfl
    | cons c r => exact List.dropWhile_cons_of_neg (by simp [h c rfl])
  | cons c r ih =>
    by_cases hc : p c = true
    · rw [List.cons_append, List.dropWhile_cons_of_pos hc, List.dropWhile_cons_of_pos hc, ih]
    · rw [List.cons_append, List.dropWhile_cons_of_neg hc, List.dropWhile_cons_of_neg hc]
      rfl

/-- What has no blanks at its ends stays whole. -/
theorem trimChars_append (hne : s ≠ []) (hhead : ∀ c ∈ s.head?, isBlank c = false)
    (hlast : ∀ c ∈ s.getLast?, isBlank c = false) (lead trail : List Char) :
    trimChars (lead ++ (s ++ trail)) =
      lead.dropWhile isBlank ++ (s ++ (trail.reverse.dropWhile isBlank).reverse) := by
  have hfirst : ∀ c ∈ (s ++ trail).head?, isBlank c = false := by
    rwa [List.head?_append_of_ne_nil s hne]
  have hreverse : (lead.dropWhile isBlank ++ (s ++ trail)).reverse =
      trail.reverse ++ (s.reverse ++ (lead.dropWhile isBlank).reverse) := by
    simp
  have hend : ∀ c ∈ (s.reverse ++ (lead.dropWhile isBlank).reverse).head?, isBlank c = false := by
    rwa [List.head?_append_of_ne_nil _ (by simpa using hne), List.head?_reverse]
  rw [trimChars, dropWhile_append_of_head hfirst, hreverse, dropWhile_append_of_head hend]
  simp

/-- Only blanks are taken away. -/
theorem exists_eq_append_trimChars (s : List Char) : ∃ lead trail,
    s = lead ++ (trimChars s ++ trail) ∧ (∀ c ∈ lead, isBlank c = true) ∧
      ∀ c ∈ trail, isBlank c = true := by
  have hlead : s.takeWhile isBlank ++ s.dropWhile isBlank = s := List.takeWhile_append_dropWhile
  refine ⟨s.takeWhile isBlank, ((s.dropWhile isBlank).reverse.takeWhile isBlank).reverse, ?_,
    fun c hc => List.mem_takeWhile_imp hc, fun c hc => ?_⟩
  · rw [trimChars, ← List.reverse_append, List.takeWhile_append_dropWhile, List.reverse_reverse,
      hlead]
  · exact List.mem_takeWhile_imp (List.mem_reverse.1 hc)

end CapabilityFlow.Text
