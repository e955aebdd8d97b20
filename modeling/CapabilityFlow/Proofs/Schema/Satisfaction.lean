import CapabilityFlow.Proofs.Table
import CapabilityFlow.Schema.Path
import Mathlib.Data.List.Perm.Subperm

/-!
# Values that satisfy schemas

A schema describes values (`Value.Satisfies`), and a path leads from a value to its parts
(`Value.Reaches`). What is asked of a schema throughout is asked of all that stands in it
(`Schema.Everywhere`). Schemas that are the same up to the order of their fields describe the same
values (`Value.Satisfies.of_same`).
-/

namespace CapabilityFlow

/-! ## Values -/

/-- Whether a value is of a type. An integer is a number as well. -/
def Value.isOf : Value → Scalar → Bool
  | .str _, .string | .bool _, .boolean | .null, .null => true
  | .int _, .integer | .int _, .number | .float _, .number => true
  | _, _ => false

/-- A value is one of those that a schema describes. -/
inductive Value.Satisfies : Value → Schema → Prop where
  | any (v : Value) : v.Satisfies .any
  | unknown (v : Value) : v.Satisfies .unknown
  | scalar {v : Value} {type : Scalar} (h : v.isOf type = true) : v.Satisfies (.scalar type)
  | array {items : List Value} {element : Schema} (h : ∀ v ∈ items, v.Satisfies element) :
      (Value.arr items).Satisfies (.array element)
  | union {v : Value} {arms : List Schema} {arm : Schema} (harm : arm ∈ arms)
      (h : v.Satisfies arm) : v.Satisfies (.union arms)
  | object {members : Members} {fields : Table Schema} {required : List String} {isOpen : Bool}
      (hrequired : ∀ name ∈ required, name ∈ members.names)
      (hfields : ∀ name s v, fields.get? name = some s → members.get? name = some v →
        v.Satisfies s)
      (hclosed : isOpen = false → ∀ name ∈ members.names, name ∈ fields.names) :
      (Value.obj members).Satisfies (.object fields required isOpen)

/-- A path leads from a value to a part of it: a field to the member of that name, an element to
any item. -/
inductive Value.Reaches : Value → Path → Value → Prop where
  | here (v : Value) : v.Reaches [] v
  | field {v u w : Value} {name : String} {p : Path} (hu : v.get? name = some u)
      (h : u.Reaches p w) : v.Reaches (.field name :: p) w
  | element {items : List Value} {u w : Value} {p : Path} (hu : u ∈ items) (h : u.Reaches p w) :
      (Value.arr items).Reaches (.element :: p) w

/-! ## What stands in a schema -/

/-- A schema is the given one, or stands somewhere in it. -/
inductive Schema.Contains : Schema → Schema → Prop where
  | self (s : Schema) : s.Contains s
  | field {fields : Table Schema} {required : List String} {isOpen : Bool} {f : String × Schema}
      {t : Schema} (hf : f ∈ fields) (h : f.2.Contains t) :
      (Schema.object fields required isOpen).Contains t
  | element {element t : Schema} (h : element.Contains t) : (Schema.array element).Contains t
  | arm {arms : List Schema} {arm t : Schema} (harm : arm ∈ arms) (h : arm.Contains t) :
      (Schema.union arms).Contains t

/-- All that stands in a schema has a property. -/
def Schema.Everywhere (P : Schema → Prop) (s : Schema) : Prop :=
  ∀ t, s.Contains t → P t

/-- No object declares a field twice, since fields are kept by their names. -/
def Schema.DeclaresOnce : Schema → Prop :=
  Everywhere fun
    | .object fields _ _ => (Table.names fields).Nodup
    | _ => True

namespace Schema

variable {P : Schema → Prop} {s t u : Schema} {fields more : Table Schema}
  {arms arms' : List Schema}

theorem Contains.trans (h : s.Contains t) (h' : t.Contains u) : s.Contains u := by
  induction h with
  | self => exact h'
  | field hf _ ih => exact .field hf (ih h')
  | element _ ih => exact .element (ih h')
  | arm harm _ ih => exact .arm harm (ih h')

theorem Everywhere.of_contains (h : s.Everywhere P) (ht : s.Contains t) : t.Everywhere P :=
  fun u hu => h u (ht.trans hu)

theorem Everywhere.field {required : List String} {isOpen : Bool} {f : String × Schema}
    (h : (object fields required isOpen).Everywhere P) (hf : f ∈ fields) : f.2.Everywhere P :=
  h.of_contains (.field hf (.self f.2))

theorem Everywhere.element (h : (array s).Everywhere P) : s.Everywhere P :=
  h.of_contains (.element (.self s))

theorem Everywhere.arm (h : (union arms).Everywhere P) (hs : s ∈ arms) : s.Everywhere P :=
  h.of_contains (.arm hs (.self s))

@[simp] theorem everywhere_any_iff : any.Everywhere P ↔ P .any :=
  ⟨fun h => h _ (.self _), fun h _ ht => by cases ht; exact h⟩

@[simp] theorem everywhere_unknown_iff : unknown.Everywhere P ↔ P .unknown :=
  ⟨fun h => h _ (.self _), fun h _ ht => by cases ht; exact h⟩

@[simp] theorem everywhere_scalar_iff {type : Scalar} :
    (scalar type).Everywhere P ↔ P (.scalar type) :=
  ⟨fun h => h _ (.self _), fun h _ ht => by cases ht; exact h⟩

@[simp] theorem everywhere_object_iff {required : List String} {isOpen : Bool} :
    (object fields required isOpen).Everywhere P ↔
      P (.object fields required isOpen) ∧ ∀ f ∈ fields, f.2.Everywhere P := by
  refine ⟨fun h => ⟨h _ (.self _), fun f hf => h.field hf⟩, ?_⟩
  rintro ⟨hself, hfields⟩ t ht
  cases ht with
  | self => exact hself
  | field hf ht => exact hfields _ hf t ht

@[simp] theorem everywhere_array_iff : (array s).Everywhere P ↔ P (.array s) ∧ s.Everywhere P := by
  refine ⟨fun h => ⟨h _ (.self _), h.element⟩, ?_⟩
  rintro ⟨hself, helement⟩ t ht
  cases ht with
  | self => exact hself
  | element ht => exact helement t ht

@[simp] theorem everywhere_union_iff :
    (union arms).Everywhere P ↔ P (.union arms) ∧ ∀ arm ∈ arms, arm.Everywhere P := by
  refine ⟨fun h => ⟨h _ (.self _), fun arm harm => h.arm harm⟩, ?_⟩
  rintro ⟨hself, harms⟩ t ht
  cases ht with
  | self => exact hself
  | arm harm ht => exact harms _ harm t ht

/-! ## Schemas that are the same -/

theorem sameFields_iff : sameFields fields more = true ↔
    ∀ f ∈ fields, ∃ t, more.get? f.1 = some t ∧ f.2.same t = true := by
  induction fields with
  | nil => simp [sameFields]
  | cons f rest ih =>
    obtain ⟨name, s⟩ := f
    rw [sameFields, Bool.and_eq_true, ih, List.forall_mem_cons]
    cases Table.get? more name <;> simp

theorem exists_same_of_sameArms (h : sameArms arms arms' = true) {arm : Schema} (harm : arm ∈ arms) :
    ∃ arm' ∈ arms', arm.same arm' = true := by
  induction arms generalizing arms' with
  | nil => cases harm
  | cons s rest ih =>
    cases arms' with
    | nil => simp [sameArms] at h
    | cons s' rest' =>
      rw [sameArms, Bool.and_eq_true] at h
      rcases List.mem_cons.1 harm with rfl | harm
      · exact ⟨s', List.mem_cons_self, h.1⟩
      · obtain ⟨arm', harm', hsame⟩ := ih h.2 harm
        exact ⟨arm', List.mem_cons_of_mem s' harm', hsame⟩

/-- Where no field is declared twice, as many fields with the same names are all of them. -/
theorem mem_names_iff_of_sameFields (h : sameFields fields more = true)
    (hlength : fields.length = more.length) (hnodup : fields.names.Nodup) (name : String) :
    name ∈ more.names ↔ name ∈ fields.names := by
  have hsub : fields.names ⊆ more.names := by
    intro name hname
    obtain ⟨f, hf, rfl⟩ := List.mem_map.1 hname
    obtain ⟨t, ht, -⟩ := sameFields_iff.1 h f hf
    exact Table.mem_names_of_get? ht
  have hperm : fields.names.Perm more.names :=
    (List.subperm_of_subset hnodup hsub).perm_of_length_le (by simp [Table.names, hlength])
  exact hperm.symm.mem_iff

end Schema

/-- Schemas that are the same describe the same values. -/
theorem Value.Satisfies.of_same {v : Value} {s t : Schema} (h : v.Satisfies s)
    (hs : s.DeclaresOnce) (hsame : s.same t = true) : v.Satisfies t := by
  induction h generalizing t with
  | any v =>
    cases t <;> simp [Schema.same] at hsame
    exact .any v
  | unknown v =>
    cases t <;> simp [Schema.same] at hsame
    exact .unknown v
  | scalar h =>
    cases t <;> simp [Schema.same] at hsame
    exact .scalar (hsame ▸ h)
  | array _ ih =>
    cases t <;> simp [Schema.same] at hsame
    exact .array fun v hv => ih v hv hs.element hsame
  | union harm _ ih =>
    cases t <;> simp [Schema.same] at hsame
    obtain ⟨arm', harm', hsame⟩ := Schema.exists_same_of_sameArms hsame harm
    exact .union harm' (ih (hs.arm harm) hsame)
  | @object members fields required isOpen hrequired _ hclosed ih =>
    cases t with
    | object fields' required' isOpen' =>
      simp only [Schema.same, Bool.and_eq_true, decide_eq_true_eq] at hsame
      obtain ⟨⟨⟨hlength, rfl⟩, rfl⟩, hfields⟩ := hsame
      have hnames := Schema.mem_names_iff_of_sameFields hfields hlength (hs _ (.self _))
      refine .object hrequired (fun name t v ht hv => ?_) fun hopen name hname =>
        (hnames name).2 (hclosed hopen name hname)
      obtain ⟨s, hget⟩ :=
        Table.exists_get?_of_mem_names ((hnames name).1 (Table.mem_names_of_get? ht))
      have hmem := Table.mem_of_get? hget
      obtain ⟨t', ht', hsame⟩ := Schema.sameFields_iff.1 hfields _ hmem
      obtain rfl := Option.some.inj (ht'.symm.trans ht)
      exact ih name s v hget hv (hs.field hmem) hsame
    | _ => simp [Schema.same] at hsame

end CapabilityFlow
