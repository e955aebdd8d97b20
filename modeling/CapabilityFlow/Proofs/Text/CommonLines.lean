import CapabilityFlow.Proofs.Text.Script
import Mathlib.Data.List.Infix

/-!
# Scripts that keep the most

The table that guides an edit script holds, for every two suffixes, how many lines they have in
common (`commonTable_eq`), so the script keeps a longest common subsequence of the two lists, and no
script between them changes fewer lines (`editScript_shortest`).
-/

namespace CapabilityFlow.Text

/-! ## Common subsequences -/

/-- A longest list of lines that two lists have in common, in order. -/
structure IsLongestCommon (common old new : List String) : Prop where
  left : common.Sublist old
  right : common.Sublist new
  longest : ∀ other : List String, other.Sublist old → other.Sublist new →
    other.length ≤ common.length

/-- How many lines two lists have in common, in order. -/
def commonLength : List String → List String → Nat
  | [], _ => 0
  | _ :: _, [] => 0
  | a :: old, b :: new =>
    if a = b then commonLength old new + 1
    else max (commonLength old (b :: new)) (commonLength (a :: old) new)
termination_by old new => old.length + new.length

theorem commonLength_nil_right (old : List String) : commonLength old [] = 0 := by
  cases old <;> simp [commonLength]

theorem length_le_commonLength {common old new : List String} (hold : common.Sublist old)
    (hnew : common.Sublist new) : common.length ≤ commonLength old new := by
  fun_induction commonLength old new generalizing common with
  | case1 new => simp [List.sublist_nil.1 hold]
  | case2 a old => simp [List.sublist_nil.1 hnew]
  | case3 old a new ih =>
    cases common with
    | nil => simp
    | cons c rest => exact Nat.succ_le_succ (ih hold.tail hnew.tail)
  | case4 a old b new hab ihdelete ihinsert =>
    cases hold with
    | cons _ hold => exact (ihdelete hold hnew).trans (le_max_left _ _)
    | cons_cons _ hold =>
      cases hnew with
      | cons _ hnew => exact (ihinsert (hold.cons_cons _) hnew).trans (le_max_right _ _)
      | cons_cons _ hnew => exact absurd rfl hab

/-! ## The table -/

theorem headD_map_tails (f : List String → Nat) (l : List String) :
    (l.tails.map f).headD 0 = f l := by
  cases l <;> rfl

theorem drop_map_tails (f : List String → Nat) (l : List String) {n : Nat} (h : n ≤ l.length) :
    (l.tails.map f).drop n = (l.drop n).tails.map f := by
  induction n generalizing l with
  | zero => rfl
  | succ n ih =>
    cases l with
    | nil => simp at h
    | cons a l => simpa using ih l (Nat.le_of_succ_le_succ h)

theorem getD_map_tails (f : List String → Nat) (l : List String) {n : Nat} (h : n ≤ l.length) :
    (l.tails.map f).getD n 0 = f (l.drop n) := by
  rw [← headD_map_tails f (l.drop n), ← drop_map_tails f l h]
  simp [List.headD_eq_head?_getD]

theorem commonRow_eq (a : String) (old new : List String) :
    commonRow a new (new.tails.map (commonLength old)) = new.tails.map (commonLength (a :: old)) := by
  induction new with
  | nil => simp [commonRow, commonLength_nil_right]
  | cons b new ih =>
    rw [List.tails_cons, List.map_cons, commonRow, ih, headD_map_tails, headD_map_tails,
      List.map_cons, commonLength]

/-- What the suffixes of a list have in common with those of another, in rows. -/
def suffixTable (old new : List String) : List (List Nat) :=
  old.tails.map fun o => new.tails.map (commonLength o)

theorem headD_suffixTable (old new : List String) :
    (suffixTable old new).headD [] = new.tails.map (commonLength old) := by
  cases old <;> rfl

theorem getD_suffixTable (old new : List String) {n : Nat} (h : n ≤ new.length) :
    ((suffixTable old new).headD []).getD n 0 = commonLength old (new.drop n) := by
  rw [headD_suffixTable, getD_map_tails _ _ h]

/-- The table is filled with what suffixes have in common. -/
theorem commonTable_eq (old new : List String) : commonTable old new = suffixTable old new := by
  induction old with
  | nil =>
    have hzero : commonLength [] = fun _ => 0 := funext fun new => by rw [commonLength]
    simp [commonTable, suffixTable, hzero]
  | cons a old ih =>
    rw [commonTable, ih, headD_suffixTable, commonRow_eq]
    rfl

/-! ## What is kept -/

/-- The lines that a script keeps. -/
def kept (script : List Change) : List String :=
  (script.filter (·.edit = .keep)).map (·.line)

/-- How many lines a script deletes or inserts. -/
def changeCount (script : List Change) : Nat :=
  script.countP (·.edit != .keep)

variable {script : List Change}

theorem kept_sublist_side {absent : Edit} (h : absent ≠ .keep) :
    (kept script).Sublist (side absent script) := by
  refine (List.monotone_filter_right script fun c hc => ?_).map _
  obtain hkeep : c.edit = .keep := by simpa using hc
  rw [hkeep]
  exact bne_iff_ne.2 h.symm

/-- What is kept is on both sides, and what is changed on one. -/
theorem length_sides (script : List Change) :
    (side .insert script).length + (side .delete script).length =
      2 * (kept script).length + changeCount script := by
  induction script with
  | nil => rfl
  | cons c script ih =>
    obtain ⟨edit, line⟩ := c
    rw [side_cons, side_cons]
    cases edit <;> simp [kept, changeCount] at ih ⊢ <;> omega

theorem length_kept_cons (c : Change) (script : List Change) :
    (kept (c :: script)).length = (kept script).length + if c.edit = .keep then 1 else 0 := by
  rw [kept, List.filter_cons]
  split <;> simp_all [kept]

theorem kept_map_mk {edit : Edit} (h : edit ≠ .keep) (lines : List String) :
    kept (lines.map (⟨edit, ·⟩)) = [] := by
  simp [kept, h]

theorem drop_succ_of_drop {lines new : List String} {column : Nat} {b : String}
    (h : lines.drop column = b :: new) :
    lines.drop (column + 1) = new ∧ column + 1 ≤ lines.length := by
  have hlength := congrArg List.length h
  simp only [List.length_drop, List.length_cons] at hlength
  exact ⟨by rw [← List.tail_drop, h, List.tail_cons], by omega⟩

/-- The two entries that are compared where lines differ. -/
theorem entries_suffixTable {lines new : List String} {column : Nat} {b : String}
    (hnew : lines.drop column = b :: new) (a : String) (old : List String) :
    ((suffixTable (a :: old) lines).headD []).getD (column + 1) 0 = commonLength (a :: old) new ∧
      ((suffixTable (a :: old) lines).tail.headD []).getD column 0 =
        commonLength old (b :: new) := by
  obtain ⟨hnext, hlt⟩ := drop_succ_of_drop hnew
  have hbelow := getD_suffixTable old lines (Nat.le_of_succ_le hlt)
  rw [getD_suffixTable _ _ hlt, hnext]
  exact ⟨rfl, hbelow.trans (by rw [hnew])⟩

/-- A script that is guided by the table keeps as much as there is in common: of two lines that
differ, the one goes without which more is left in common. -/
theorem length_kept_scriptFrom (lines : List String) {column : Nat} {table : List (List Nat)}
    {old new : List String} (hnew : lines.drop column = new)
    (htable : table = suffixTable old lines) :
    (kept (scriptFrom column table old new)).length = commonLength old new := by
  fun_induction scriptFrom column table old new with
  | case1 column table new => rw [kept_map_mk (by decide), commonLength, List.length_nil]
  | case2 column table old => rw [kept_map_mk (by decide), commonLength_nil_right, List.length_nil]
  | case3 column table old line new ih =>
    subst htable
    have hnext := (drop_succ_of_drop hnew).1
    rw [length_kept_cons, if_pos rfl, commonLength, if_pos rfl, ih hnext rfl]
  | case4 column table a old b new hab here below hle ih =>
    subst htable
    obtain ⟨hhere, hbelow⟩ := entries_suffixTable hnew a old
    have hle : commonLength (a :: old) new ≤ commonLength old (b :: new) := hhere ▸ hbelow ▸ hle
    rw [length_kept_cons, if_neg (by simp), ih hnew rfl, commonLength, if_neg hab, max_eq_left hle]
    rfl
  | case5 column table a old b new hab here below hlt ih =>
    subst htable
    obtain ⟨hhere, hbelow⟩ := entries_suffixTable hnew a old
    have hlt : commonLength old (b :: new) < commonLength (a :: old) new :=
      hhere ▸ hbelow ▸ not_le.1 hlt
    have hnext := (drop_succ_of_drop hnew).1
    rw [length_kept_cons, if_neg (by simp), ih hnext rfl, commonLength, if_neg hab,
      max_eq_right hlt.le]
    rfl

theorem length_kept_editScript (old new : List String) :
    (kept (editScript old new)).length = commonLength old new :=
  length_kept_scriptFrom new rfl (commonTable_eq old new)

/-! ## Shortest scripts -/

theorem kept_sublist {old new : List String} (hold : side .insert script = old)
    (hnew : side .delete script = new) :
    (kept script).Sublist old ∧ (kept script).Sublist new := by
  subst hold hnew
  exact ⟨kept_sublist_side (by decide), kept_sublist_side (by decide)⟩

theorem isLongestCommon_kept (old new : List String) :
    IsLongestCommon (kept (editScript old new)) old new := by
  obtain ⟨hleft, hright⟩ :=
    kept_sublist (side_insert_editScript old new) (side_delete_editScript old new)
  refine ⟨hleft, hright, fun other hold hnew => ?_⟩
  rw [length_kept_editScript]
  exact length_le_commonLength hold hnew

/-- An edit script takes the old lines and yields the new ones, and it keeps a longest common
subsequence of them. So no script that leads from the old lines to the new ones changes fewer. -/
theorem editScript_shortest (old new : List String) :
    side .insert (editScript old new) = old ∧ side .delete (editScript old new) = new ∧
      IsLongestCommon (kept (editScript old new)) old new ∧
      ∀ script, side .insert script = old → side .delete script = new →
        changeCount (editScript old new) ≤ changeCount script := by
  have hold := side_insert_editScript old new
  have hnew := side_delete_editScript old new
  have hkept := isLongestCommon_kept old new
  refine ⟨hold, hnew, hkept, fun script hold' hnew' => ?_⟩
  obtain ⟨hleft, hright⟩ := kept_sublist hold' hnew'
  have hlength := length_sides (editScript old new)
  have hlength' := length_sides script
  have hle := hkept.longest _ hleft hright
  rw [hold, hnew] at hlength
  rw [hold', hnew'] at hlength'
  omega

namespace Sample

def oldLines : List String := ["a", "b", "c", "a", "b"]

def newLines : List String := ["b", "a", "c", "b", "a"]

/-- A script that keeps one line only. -/
def wasteful : List Change :=
  [⟨.delete, "a"⟩, ⟨.delete, "b"⟩, ⟨.insert, "b"⟩, ⟨.insert, "a"⟩, ⟨.keep, "c"⟩, ⟨.delete, "a"⟩,
    ⟨.insert, "b"⟩, ⟨.delete, "b"⟩, ⟨.insert, "a"⟩]

end Sample

open Sample in
theorem editScript_shortest_sample : (["b", "c", "b"] : List String).Sublist oldLines ∧
    ["b", "c", "b"].Sublist newLines ∧ side .insert wasteful = oldLines ∧
    side .delete wasteful = newLines ∧ 3 ≤ (kept (editScript oldLines newLines)).length ∧
    changeCount (editScript oldLines newLines) ≤ changeCount wasteful := by
  obtain ⟨-, -, hkept, hshortest⟩ := editScript_shortest oldLines newLines
  have hold : (["b", "c", "b"] : List String).Sublist oldLines := by decide
  have hnew : (["b", "c", "b"] : List String).Sublist newLines := by decide
  exact ⟨hold, hnew, by decide, by decide, hkept.longest _ hold hnew,
    hshortest wasteful (by decide) (by decide)⟩

end CapabilityFlow.Text
