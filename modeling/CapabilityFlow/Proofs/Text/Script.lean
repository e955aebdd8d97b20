import CapabilityFlow.Text.LineDiff

/-!
# What edit scripts lead to

A script has two sides: the lines that it takes and the lines that it yields. Those of `editScript old new`
are `old` and `new`, whatever table guides it, and it changes nothing exactly when they are equal.
-/

namespace CapabilityFlow.Text

/-! ## Sides -/

/-- The lines of a script without those of one kind of edit: without insertions they are the lines that
it takes, without deletions the lines that it yields. -/
def side (absent : Edit) (script : List Change) : List String :=
  (script.filter (·.edit != absent)).map (·.line)

variable {absent : Edit} {script : List Change}

theorem side_append (absent : Edit) (first second : List Change) :
    side absent (first ++ second) = side absent first ++ side absent second := by
  simp [side]

theorem side_cons (absent : Edit) (c : Change) (script : List Change) :
    side absent (c :: script) =
      if c.edit = absent then side absent script else c.line :: side absent script := by
  split
  · rename_i h
    simp [side, h]
  · rename_i h
    simp [side, h]

theorem length_side (absent : Edit) (script : List Change) :
    (side absent script).length = script.countP (·.edit != absent) := by
  rw [side, List.length_map, List.countP_eq_length_filter]

/-- Where nothing changes, the sides are the same. -/
theorem side_insert_eq_side_delete (h : ∀ c ∈ script, c.edit = .keep) :
    side .insert script = side .delete script := by
  induction script with
  | nil => rfl
  | cons c script ih =>
    obtain ⟨hc, hscript⟩ := List.forall_mem_cons.1 h
    rw [side_cons, side_cons, hc, if_neg (by decide), if_neg (by decide), ih hscript]

/-- Each line of a script is on one of its sides. -/
theorem mem_side_or {c : Change} (hc : c ∈ script) :
    c.line ∈ side .insert script ∨ c.line ∈ side .delete script := by
  simp only [side, List.mem_map, List.mem_filter]
  by_cases hinsert : c.edit = .insert
  · exact .inr ⟨c, ⟨hc, by rw [hinsert]; rfl⟩, rfl⟩
  · exact .inl ⟨c, ⟨hc, bne_iff_ne.2 hinsert⟩, rfl⟩

/-! ## Scripts between two lists -/

theorem side_map_mk (absent edit : Edit) (lines : List String) :
    side absent (lines.map (⟨edit, ·⟩)) = if edit = absent then [] else lines := by
  induction lines with
  | nil => split <;> rfl
  | cons line rest ih =>
    rw [List.map_cons, side_cons, ih]
    split <;> rfl

theorem side_insert_scriptFrom (column : Nat) (table : List (List Nat)) (old new : List String) :
    side .insert (scriptFrom column table old new) = old := by
  fun_induction scriptFrom column table old new with
  | case1 => rw [side_map_mk, if_pos rfl]
  | case2 => rw [side_map_mk, if_neg (by decide)]
  | case3 column table old line new ih => rw [side_cons, if_neg (by simp), ih]
  | case4 column table a old b new hab here below hle ih => rw [side_cons, if_neg (by simp), ih]
  | case5 column table a old b new hab here below hle ih => rw [side_cons, if_pos rfl, ih]

theorem side_delete_scriptFrom (column : Nat) (table : List (List Nat)) (old new : List String) :
    side .delete (scriptFrom column table old new) = new := by
  fun_induction scriptFrom column table old new with
  | case1 => rw [side_map_mk, if_neg (by decide)]
  | case2 => rw [side_map_mk, if_pos rfl]
  | case3 column table old line new ih => rw [side_cons, if_neg (by simp), ih]
  | case4 column table a old b new hab here below hle ih => rw [side_cons, if_pos rfl, ih]
  | case5 column table a old b new hab here below hle ih => rw [side_cons, if_neg (by simp), ih]

theorem side_insert_editScript (old new : List String) : side .insert (editScript old new) = old :=
  side_insert_scriptFrom 0 _ old new

theorem side_delete_editScript (old new : List String) : side .delete (editScript old new) = new :=
  side_delete_scriptFrom 0 _ old new

theorem keeps_scriptFrom_self (column : Nat) (table : List (List Nat)) (lines : List String) :
    ∀ c ∈ scriptFrom column table lines lines, c.edit = .keep := by
  induction lines generalizing column table with
  | nil => simp [scriptFrom]
  | cons line rest ih =>
    rw [scriptFrom, if_pos rfl]
    exact List.forall_mem_cons.2 ⟨rfl, ih (column + 1) table.tail⟩

/-- A script changes nothing exactly when there is nothing to change. -/
theorem keeps_editScript_iff {old new : List String} :
    (∀ c ∈ editScript old new, c.edit = .keep) ↔ old = new := by
  constructor
  · intro h
    calc old = side .insert (editScript old new) := (side_insert_editScript old new).symm
      _ = side .delete (editScript old new) := side_insert_eq_side_delete h
      _ = new := side_delete_editScript old new
  · rintro rfl
    exact keeps_scriptFrom_self 0 _ old

end CapabilityFlow.Text
