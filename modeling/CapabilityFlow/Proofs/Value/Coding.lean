import Mathlib.Data.List.Forall2
import CapabilityFlow.Proofs.Except
import CapabilityFlow.Ontology.Capability

/-!
# What is written and read again

A coding reads values of a type and writes them, so that what was read is written as something that
is read as the same. Lists and tables have codings when their items have one, and a field of a
record can be read and written in three ways: it may be null or missing, it may be missing when it
is empty, or it is always written.
-/

namespace CapabilityFlow

/-- A text or a number. -/
def Value.isPlain : Value → Bool
  | .str _ | .int _ | .float _ => true
  | _ => false

/-- How a type is read and written. -/
structure Coding (α : Type) where
  read : Decode.Reader α
  write : α → Value
  /-- What was read is read again from what is written. -/
  read_write {v : Value} {a : α} : read v = .ok a → read (write a) = .ok a
  write_ne_null {v : Value} {a : α} : v ≠ .null → read v = .ok a → write a ≠ .null
  /-- Texts and numbers are written as they were read. -/
  write_eq {v : Value} {a : α} : v.isPlain → read v = .ok a → write a = v

namespace Coding

/-! ## Codings -/

def text : Coding String where
  read := Decode.string
  write := .str
  read_write _ := rfl
  write_ne_null _ _ := nofun
  write_eq {v a} _ h := by
    cases v <;> simp_all [Decode.string]

@[simp]
theorem write_text : text.write = .str := rfl

theorem read_text (s : String) : text.read (text.write s) = .ok s := rfl

def natural : Coding Nat where
  read := Decode.natural32
  write n := .int n
  read_write {v n} h := by
    cases v <;> simp only [Decode.natural32, reduceCtorEq] at h
    split at h <;> simp_all [Decode.natural32]
    omega
  write_ne_null _ _ := nofun
  write_eq {v n} _ h := by
    cases v <;> simp only [Decode.natural32, reduceCtorEq] at h
    split at h <;> simp_all
    omega

@[simp]
theorem write_natural : natural.write = fun n => .int n := rfl

def risk : Coding Risk where
  read := Risk.decode
  write r := .str r.name
  read_write {_ r} _ := by
    cases r <;> rfl
  write_ne_null _ _ := nofun
  write_eq {v r} hv h := by
    cases v with
    | str s =>
      simp only [Risk.decode, Decode.variant, Decode.variant.named] at h
      split at h
      · rename_i found hfound
        cases h
        have hname : s = r.name := by simpa using List.find?_some hfound
        rw [hname]
      · cases h
    | int n => cases h
    | float bits => cases h
    | _ => cases hv

@[simp]
theorem write_risk : risk.write = fun r => .str r.name := rfl

/-- Any value is read and written as it is. -/
def any : Coding Value where
  read := Decode.value
  write v := v
  read_write _ := rfl
  write_ne_null hv h := by
    cases h
    exact hv
  write_eq _ h := by
    cases h
    rfl

@[simp]
theorem write_any : any.write = fun v => v := rfl

variable {α : Type} (c : Coding α)

theorem forall₂_read_map_write {vs : List Value} {as : List α}
    (h : List.Forall₂ (fun v a => c.read v = .ok a) vs as) :
    List.Forall₂ (fun v a => c.read v = .ok a) (as.map c.write) as := by
  induction h with
  | nil => exact .nil
  | cons h _ ih => exact .cons (c.read_write h) ih

def list : Coding (List α) where
  read := Decode.list c.read
  write as := .arr (as.map c.write)
  read_write {v as} h := by
    cases v <;> simp only [Decode.list, reduceCtorEq] at h ⊢
    rw [Except.mapM_eq_ok_iff] at h ⊢
    exact c.forall₂_read_map_write h
  write_ne_null _ _ := nofun
  write_eq {v as} hv h := by
    cases v <;> simp_all [Decode.list, Value.isPlain]

@[simp]
theorem write_list (as : List α) : c.list.write as = .arr (as.map c.write) := rfl

theorem read_list_nil : c.list.read (c.list.write []) = .ok [] := rfl

/-- What a table of values reads as: the names stay, and the values are read. -/
theorem read_table_iff {ms : Members} {t : Table α} :
    Decode.table c.read (.obj ms) = .ok t ↔
      List.Forall₂ (fun m p => m.1 = p.1 ∧ c.read m.2 = .ok p.2) ms t := by
  rw [Decode.table, Except.mapM_eq_ok_iff]
  have hitem : ∀ (m : String × Value) (p : String × α),
      (c.read m.2).map (m.1, ·) = .ok p ↔ m.1 = p.1 ∧ c.read m.2 = .ok p.2 := by
    rintro ⟨name, v⟩ ⟨name', a⟩
    simp only [Except.map_eq_ok_iff, Prod.mk.injEq]
    constructor
    · rintro ⟨a, ha, rfl, rfl⟩
      exact ⟨rfl, ha⟩
    · rintro ⟨rfl, ha⟩
      exact ⟨a, ha, rfl, rfl⟩
  simp only [hitem]

def table : Coding (Table α) where
  read := Decode.table c.read
  write t := .obj (t.map fun p => (p.1, c.write p.2))
  read_write {v t} h := by
    cases v with
    | obj ms =>
      rw [read_table_iff] at h ⊢
      induction h with
      | nil => exact .nil
      | cons h _ ih => exact .cons ⟨rfl, c.read_write h.2⟩ ih
    | _ => cases h
  write_ne_null _ _ := nofun
  write_eq {v t} hv h := by
    cases v <;> simp_all [Decode.table, Value.isPlain]

end Coding

/-! ## Fields -/

/-- How a field of a record is read and written. It may be left out when it holds what it holds
if it is not there. -/
structure Slot (α : Type) where
  read : Decode.Reader α
  write : α → Option Value
  /-- What it holds if it is not there. -/
  default : α
  read_write {v w : Value} {a : α} : read v = .ok a → write a = some w → read w = .ok a
  read_write_default {w : Value} : write default = some w → read w = .ok default
  eq_default {v : Value} {a : α} : read v = .ok a → write a = none → a = default
  write_eq {v : Value} {a : α} : v.isPlain → read v = .ok a → write a = some v

namespace Slot

variable {α : Type}

/-- What a field holds by the value in its place, if there is one. -/
def Holds (s : Slot α) (place : Option Value) (a : α) : Prop :=
  place = none ∧ a = s.default ∨ ∃ v, place = some v ∧ s.read v = .ok a

theorem read_optional_eq_some_iff (c : Coding α) {v : Value} {a : α} :
    Decode.optional c.read v = .ok (some a) ↔ v ≠ .null ∧ c.read v = .ok a := by
  cases v <;> simp [Decode.optional, Except.map_eq_ok_iff]

/-- A field that is left out when there is nothing to write, and may also be null. -/
def optional (c : Coding α) : Slot (Option α) where
  read := Decode.optional c.read
  write a := a.map c.write
  default := none
  read_write {v w a} h hw := by
    obtain ⟨a, rfl, rfl⟩ := Option.map_eq_some_iff.mp hw
    rw [read_optional_eq_some_iff] at h ⊢
    exact ⟨c.write_ne_null h.1 h.2, c.read_write h.2⟩
  read_write_default := nofun
  eq_default _ h := by simpa using h
  write_eq {v a} hv h := by
    cases a with
    | none => cases v <;> simp_all [Decode.optional, Value.isPlain, Except.map_eq_ok_iff]
    | some a => rw [Option.map_some, c.write_eq hv ((read_optional_eq_some_iff c).mp h).2]

@[simp]
theorem default_optional (c : Coding α) : (optional c).default = none := rfl

@[simp]
theorem write_optional (c : Coding α) (a : Option α) : (optional c).write a = a.map c.write := rfl

/-- A field that is always written. -/
def always (c : Coding α) (default : α) (h : c.read (c.write default) = .ok default) : Slot α where
  read := c.read
  write a := some (c.write a)
  default := default
  read_write h hw := by
    cases hw
    exact c.read_write h
  read_write_default hw := by
    cases hw
    exact h
  eq_default := nofun
  write_eq hv h := by rw [c.write_eq hv h]

@[simp]
theorem default_always (c : Coding α) (a : α) (h : c.read (c.write a) = .ok a) :
    (always c a h).default = a := rfl

@[simp]
theorem write_always (c : Coding α) (a b : α) (h : c.read (c.write a) = .ok a) :
    (always c a h).write b = some (c.write b) := rfl

/-- A collection that is left out when it is empty. -/
def nonEmpty (c : Coding (List α)) (hc : ∀ {v as}, v.isPlain → c.read v ≠ .ok as) :
    Slot (List α) where
  read := c.read
  write as := if as.isEmpty then none else some (c.write as)
  default := []
  read_write {v w as} h hw := by
    split at hw
    · cases hw
    · cases hw
      exact c.read_write h
  read_write_default := nofun
  eq_default {v as} _ h := by simpa using h
  write_eq hv h := absurd h (hc hv)

def list (c : Coding α) : Slot (List α) :=
  .nonEmpty c.list fun {v as} hv h => by
    cases v <;> simp_all [Coding.list, Decode.list, Value.isPlain]

def table (c : Coding α) : Slot (Table α) :=
  .nonEmpty c.table fun {v t} hv h => by
    cases v <;> simp_all [Coding.table, Decode.table, Value.isPlain]

@[simp]
theorem default_list (c : Coding α) : (list c).default = [] := rfl

@[simp]
theorem write_list (c : Coding α) (as : List α) :
    (list c).write as = if as.isEmpty then none else some (.arr (as.map c.write)) := rfl

@[simp]
theorem default_table (c : Coding α) : (table c).default = [] := rfl

@[simp]
theorem write_table (c : Coding α) (t : Table α) : (table c).write t =
    if t.isEmpty then none else some (.obj (t.map fun p => (p.1, c.write p.2))) := rfl

end Slot

end CapabilityFlow
