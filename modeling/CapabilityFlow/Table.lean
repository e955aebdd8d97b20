/-!
# Tables

A table assigns values to names and keeps the names in the order in which they were first set.
-/

namespace CapabilityFlow

/-- Names and their values, in the order of declaration. -/
abbrev Table (α : Type) := List (String × α)

namespace Table

variable {α : Type}

/-- The value of a name. -/
def get? (t : Table α) (name : String) : Option α :=
  t.lookup name

/-- The names, in order. -/
def names (t : Table α) : List String :=
  t.map (·.1)

/-- Whether a name has a value. -/
def has (t : Table α) (name : String) : Bool :=
  t.names.contains name

/-- Sets the value of a name: in its place if it has one, otherwise at the end. -/
def set (t : Table α) (name : String) (v : α) : Table α :=
  match t with
  | [] => [(name, v)]
  | (k, w) :: rest => if k = name then (k, v) :: rest else (k, w) :: Table.set rest name v

/-- A table of pairs given in order: a name given twice keeps its first place and its last value. -/
def ofPairs (pairs : List (String × α)) : Table α :=
  pairs.foldl (fun t p => t.set p.1 p.2) []

theorem sizeOf_pos [SizeOf α] (t : Table α) : 0 < sizeOf t := by
  cases t with
  | nil => exact Nat.one_pos
  | cons p r => rw [List.cons.sizeOf_spec]; omega

theorem sizeOf_lt_of_mem [SizeOf α] {t : Table α} {m : String × α} (h : m ∈ t) :
    sizeOf m.2 < sizeOf t := by
  have hm := List.sizeOf_lt_of_mem h
  have hp : sizeOf m = 1 + sizeOf m.1 + sizeOf m.2 := by cases m; rfl
  omega

theorem mem_of_get? {t : Table α} {name : String} {v : α} (h : t.get? name = some v) :
    (name, v) ∈ t := by
  induction t with
  | nil => simp [get?] at h
  | cons m rest ih =>
    obtain ⟨k, w⟩ := m
    simp only [get?, List.lookup_cons] at h ih
    split at h
    · simp_all
    · exact List.mem_cons_of_mem _ (ih h)

theorem sizeOf_get?_lt [SizeOf α] {t : Table α} {name : String} {v : α}
    (h : t.get? name = some v) : sizeOf v < sizeOf t :=
  sizeOf_lt_of_mem (mem_of_get? h)

theorem get?_set_self (t : Table α) (name : String) (v : α) :
    (t.set name v).get? name = some v := by
  induction t with
  | nil => simp [set, get?]
  | cons m rest ih =>
    obtain ⟨k, w⟩ := m
    by_cases h : k = name
    · simp [set, get?, h]
    · have h' : (name == k) = false := by simpa using fun e => h e.symm
      simpa [set, get?, h, List.lookup_cons, h'] using ih

theorem names_set (t : Table α) (name : String) (v : α) :
    (t.set name v).names = if t.has name then t.names else t.names ++ [name] := by
  induction t with
  | nil => simp [set, names, has]
  | cons m rest ih =>
    obtain ⟨k, w⟩ := m
    by_cases h : k = name
    · simp [set, names, has, h]
    · have h' : ¬ name = k := fun e => h e.symm
      simp only [names, has] at ih
      by_cases hr : name ∈ List.map (·.1) rest <;> simp_all [set, names, has]

end Table

/-- Adds a name to a set of names kept in increasing order. -/
def insertSorted (names : List String) (name : String) : List String :=
  match names with
  | [] => [name]
  | k :: rest =>
    if name < k then name :: k :: rest
    else if name = k then k :: rest
    else k :: insertSorted rest name

end CapabilityFlow
