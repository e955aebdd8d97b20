import CapabilityFlow.Proofs.Schema.Members

/-!
# Required fields

An object that is accepted has the required fields that the expected object declares. Names that are
required without being declared count for nothing (`Schema.accepts_congr_required`): a closed object
that is accepted declares all required names exactly when it happens to declare these
(`Schema.declares_required_iff`).
-/

namespace CapabilityFlow.Schema

variable {found : Schema} {fields fields' : Table Schema} {required required' other : List String}
  {isOpen : Bool}

/-- Which names an object requires matters only for those that it declares. -/
theorem accepts_congr_required (h : ∀ name ∈ fields.names, name ∈ required ↔ name ∈ other) :
    (object fields required isOpen).accepts found = (object fields other isOpen).accepts found := by
  rw [Bool.eq_iff_iff]
  refine accepts_iff_forall_members.trans (.trans ?_ accepts_iff_forall_members.symm)
  refine forall₂_congr fun m hm => ?_
  cases m with
  | object fields' required' isOpen' =>
    rw [accepts_object_iff, accepts_object_iff]
    refine or_congr_right (or_congr_right (and_congr_left fun _ => forall₂_congr fun f hf => ?_))
    rw [h f.1 (List.mem_map_of_mem hf)]
  | union arms => exact absurd rfl (ne_union_of_mem_members hm arms)
  | _ => simp [accepts]

/-- What an object declares and requires, a closed object has to declare to be accepted. -/
theorem mem_names_of_accepts
    (h : (object fields required isOpen).accepts (object fields' required' false) = true)
    {name : String} (hrequired : name ∈ required) (hdeclared : name ∈ fields.names) :
    name ∈ fields'.names := by
  obtain ⟨s, hs⟩ := Table.exists_get?_of_mem_names hdeclared
  rcases accepts_object_iff.1 h with ⟨-, rfl⟩ | ⟨hopen, -⟩ | ⟨hall, -⟩
  · cases hdeclared
  · cases hopen
  · rcases hall _ (Table.mem_of_get? hs) with ⟨t, ht, -⟩ | ⟨-, hnot⟩
    · exact Table.mem_names_of_get? ht
    · exact absurd hrequired hnot

/-- A closed object that is accepted declares every required name exactly when it declares those
that the expected object requires without declaring them. It is accepted whichever these are. -/
theorem declares_required_iff (fields fields' : Table Schema) (required required' : List String)
    (isOpen : Bool)
    (h : (object fields required isOpen).accepts (object fields' required' false) = true) :
    ((∀ name ∈ required, name ∈ fields'.names) ↔
      ∀ name ∈ required, name ∉ fields.names → name ∈ fields'.names) ∧
    ∀ other : List String, (∀ name ∈ fields.names, name ∈ required ↔ name ∈ other) →
      (object fields other isOpen).accepts (object fields' required' false) = true := by
  refine ⟨⟨fun hall name hname _ => hall name hname, fun hundeclared name hname => ?_⟩, ?_⟩
  · by_cases hdeclared : name ∈ fields.names
    · exact mem_names_of_accepts h hname hdeclared
    · exact hundeclared name hname hdeclared
  · intro other hother
    rw [← accepts_congr_required hother, h]

namespace Sample

/-- A path in a file. -/
def position : Table Schema :=
  [("path", .scalar .string), ("line", .scalar .integer)]

end Sample

open Sample in
/-- A position is accepted where a path is declared and a line is required as well. -/
theorem declares_required_iff_sample :
    (object [("path", .scalar .string)] ["line", "path"] true).accepts
      (object position ["path"] false) = true ∧
    (∀ name ∈ ["line", "path"], name ∈ position.names) ∧
    (object [("path", .scalar .string)] ["owner", "path"] true).accepts
      (object position ["path"] false) = true := by
  have h : (object [("path", .scalar .string)] ["line", "path"] true).accepts
      (object position ["path"] false) = true := by
    decide +kernel
  obtain ⟨hiff, hother⟩ := declares_required_iff _ _ _ _ _ h
  exact ⟨h, hiff.2 (by decide), hother ["owner", "path"] (by decide)⟩

open Sample in
/-- A position is accepted where an owner is required but not declared, whether or not anything else
is declared. -/
theorem not_forall_declares_required :
    (object [("path", .scalar .string)] ["owner", "path"] true).accepts
      (object position ["path"] false) = true ∧
    (object [] ["owner"] true).accepts (object position ["path"] false) = true ∧
    "owner" ∉ position.names := by
  decide +kernel

end CapabilityFlow.Schema
