import CapabilityFlow.Proofs.Schema.Satisfaction
import CapabilityFlow.Schema.Compatibility

/-!
# Values of accepted types

Where a type is accepted, its values are values of the expected type
(`Schema.satisfies_of_accepts`). This is so for expected objects that require only what they
declare, and for found types that say all about their values: an object of which nothing is declared
is accepted by every object, and so is `any` by every type.
-/

namespace CapabilityFlow

/-- Every object requires only fields that it declares. -/
def Schema.RequiresDeclared : Schema → Prop :=
  Everywhere fun
    | .object fields required _ => ∀ name ∈ required, name ∈ Table.names fields
    | _ => True

/-- Nothing is left open: there is no `any` and no `unknown`, and every object has all fields that
it declares and no others. -/
def Schema.IsExact : Schema → Prop :=
  Everywhere fun
    | .any | .unknown => False
    | .object fields required isOpen =>
      isOpen = false ∧ ∀ name, name ∈ required ↔ name ∈ Table.names fields
    | _ => True

namespace Schema

variable {expected found : Schema} {v : Value}

theorem isOf_of_accepts {expected found : Scalar} (h : expected.accepts found = true)
    (hv : v.isOf found = true) : v.isOf expected = true := by
  simp only [Scalar.accepts, Bool.or_eq_true, Bool.and_eq_true, decide_eq_true_eq] at h
  rcases h with rfl | ⟨rfl, rfl⟩
  · exact hv
  · cases v <;> first | rfl | cases hv

theorem unknown_accepts (found : Schema) : unknown.accepts found = true := by
  cases found <;> simp [accepts]

theorem accepts_union_iff {arms : List Schema} :
    expected.accepts (union arms) = true ↔ ∀ arm ∈ arms, expected.accepts arm = true := by
  cases expected <;> simp [accepts, unknown_accepts]

theorem union_accepts_iff {arms : List Schema} (hany : found ≠ .any) (hunknown : found ≠ .unknown)
    (hunion : ∀ arms, found ≠ union arms) :
    (union arms).accepts found = true ↔ ∃ arm ∈ arms, arm.accepts found = true := by
  cases found <;> simp_all [accepts]

theorem accepts_object_iff {fields fields' : Table Schema} {required required' : List String}
    {isOpen isOpen' : Bool} :
    (object fields required isOpen).accepts (object fields' required' isOpen') = true ↔
      (isOpen = true ∧ fields = []) ∨ (isOpen' = true ∧ fields' = []) ∨
        (∀ f ∈ fields, (∃ s, fields'.get? f.1 = some s ∧ f.2.accepts s = true) ∨
          fields'.get? f.1 = none ∧ f.1 ∉ required) ∧
        (isOpen = true ∨ ∀ name ∈ fields'.names, name ∈ fields.names) := by
  rw [accepts]
  simp only [Bool.or_eq_true, Bool.and_eq_true, List.isEmpty_iff, List.all_map, List.all_eq_true,
    Function.comp_apply, id_eq, Table.has, List.contains_iff_mem, or_assoc]
  refine or_congr_right (or_congr_right (and_congr_left fun _ => forall₂_congr fun f _ => ?_))
  split <;> rename_i hget <;> simp [hget]

/-- The values of an accepted type are values of the expected type. -/
theorem satisfies_of_accepts (expected found : Schema) (he : expected.RequiresDeclared)
    (hf : found.IsExact) (h : expected.accepts found = true) (v : Value) (hv : v.Satisfies found) :
    v.Satisfies expected := by
  induction expected, found using accepts.induct generalizing v with
  | case1 found => exact .any v
  | case2 expected => exact (hf _ (.self _)).elim
  | case3 found => exact .unknown v
  | case4 expected => exact (hf _ (.self _)).elim
  | case5 expected arms _ _ ih =>
    cases hv with
    | union harm hv => exact ih _ harm he (hf.arm harm) (accepts_union_iff.1 h _ harm) v hv
  | case6 arms found hany hunknown hunion ih =>
    obtain ⟨arm, harm, h⟩ := (union_accepts_iff hany hunknown hunion).1 h
    exact .union harm (ih arm harm (he.arm harm) hf h v hv)
  | case7 expected found =>
    rw [accepts] at h
    cases hv with
    | scalar hv => exact .scalar (isOf_of_accepts h hv)
  | case8 expected found ih =>
    rw [accepts] at h
    cases hv with
    | array hv => exact .array fun item hitem => ih he.element hf.element h item (hv item hitem)
  | case9 fields required isOpen fields' required' isOpen' ih =>
    obtain ⟨rfl, hexact⟩ := hf _ (.self _)
    have hdeclared := he _ (.self _)
    cases hv with
    | @object members _ _ _ hrequired hfields hclosed =>
      rcases accepts_object_iff.1 h with ⟨rfl, rfl⟩ | ⟨hopen, -⟩ | ⟨hall, hnames⟩
      · -- An object of which nothing is declared has no fields that it could require.
        exact .object (fun name hname => absurd (hdeclared name hname) List.not_mem_nil) nofun nofun
      · cases hopen
      · refine .object (fun name hname => ?_) (fun name s u hs hu => ?_) (fun hopen name hname => ?_)
        · obtain ⟨s, hs⟩ := Table.exists_get?_of_mem_names (hdeclared name hname)
          rcases hall _ (Table.mem_of_get? hs) with ⟨t, ht, -⟩ | ⟨-, hnot⟩
          · exact hrequired name ((hexact name).2 (Table.mem_names_of_get? ht))
          · exact absurd hname hnot
        · have hmem := Table.mem_of_get? hs
          rcases hall _ hmem with ⟨t, ht, haccepts⟩ | ⟨hnone, -⟩
          · exact ih _ hmem t ht (he.field hmem) (hf.field (Table.mem_of_get? ht)) haccepts u
              (hfields name t u ht hu)
          · -- The found object is closed, so its values have no field that it does not declare.
            obtain ⟨t, ht⟩ :=
              Table.exists_get?_of_mem_names (hclosed rfl name (Table.mem_names_of_get? hu))
            cases hnone.symm.trans ht
        · rcases hnames with hopen' | hnames
          · cases hopen'.symm.trans hopen
          · exact hnames name (hclosed rfl name hname)
  | case10 expected found => simp_all [accepts]

namespace Sample

/-- An object with a size, and perhaps with tags and a note. -/
def wanted : Schema :=
  .object [("size", .scalar .number), ("tags", .array (.union [.scalar .string, .scalar .null])),
    ("note", .scalar .string)] ["size"] true

/-- An object with a size and tags, and nothing else. -/
def given : Schema :=
  .object [("tags", .array (.union [.scalar .null, .scalar .string])), ("size", .scalar .integer)]
    ["size", "tags"] false

def tagged : Value :=
  .obj [("size", .int 3), ("tags", .arr [.null, .str "new"])]

end Sample

open Sample in
theorem satisfies_of_accepts_sample : wanted.RequiresDeclared ∧ given.IsExact ∧
    wanted.accepts given = true ∧ tagged.Satisfies given ∧ tagged.Satisfies wanted := by
  have he : wanted.RequiresDeclared := by simp [wanted, RequiresDeclared, Table.names]
  have hf : given.IsExact := by
    simp only [given, IsExact, everywhere_object_iff, List.forall_mem_cons]
    simp [Table.names, or_comm]
  have h : wanted.accepts given = true := by decide +kernel
  have htags : (Value.arr [.null, .str "new"]).Satisfies
      (.array (.union [.scalar .null, .scalar .string])) := by
    refine .array fun v hv => ?_
    rcases List.mem_pair.1 hv with rfl | rfl
    · exact .union List.mem_cons_self (.scalar rfl)
    · exact .union (List.mem_cons_of_mem _ List.mem_cons_self) (.scalar rfl)
  have hv : tagged.Satisfies given := by
    refine .object (by decide) (fun name s v hs hv => ?_) fun _ => by decide
    rcases List.mem_pair.1 (Table.mem_of_get? hs) with hmem | hmem
    · cases hmem
      cases hv
      exact htags
    · cases hmem
      cases hv
      exact .scalar rfl
  exact ⟨he, hf, h, hv, satisfies_of_accepts wanted given he hf h tagged hv⟩

end Schema

end CapabilityFlow
