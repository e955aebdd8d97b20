import CapabilityFlow.Proofs.Workflow.Formats

/-!
# Documents are written as they were read

A workflow document that was read is written as a document that is read as the same workflow, and
with everything that it said: what the records do not know, texts, numbers, inputs and bindings, at
every depth.
-/

namespace CapabilityFlow

namespace Value

/-- The items of a list; nothing else has items. -/
def items : Value → List Value
  | .arr vs => vs
  | _ => []

/-- The members of an object; nothing else has members. -/
def members : Value → Members
  | .obj ms => ms
  | _ => []

/-- The items of the list that stands under a name. -/
def itemsAt (v : Value) (name : String) : List Value :=
  (v.get? name).elim [] items

/-- The members of the object that stands under a name. -/
def membersAt (v : Value) (name : String) : Members :=
  (v.get? name).elim [] members

mutual

/-- No object in a value has two members of one name, as it is in every value of JSON. -/
def hasDistinctNames : Value → Bool
  | .arr vs => itemsHaveDistinctNames vs
  | .obj ms => decide (Table.names ms).Nodup && membersHaveDistinctNames ms
  | .null | .bool _ | .int _ | .float _ | .str _ => true

def itemsHaveDistinctNames : List Value → Bool
  | [] => true
  | v :: vs => hasDistinctNames v && itemsHaveDistinctNames vs

def membersHaveDistinctNames : List (String × Value) → Bool
  | [] => true
  | (_, v) :: ms => hasDistinctNames v && membersHaveDistinctNames ms

end

/-! ## Parts of values -/

variable {v w : Value} {name : String}

theorem get?_obj (ms : Members) : (obj ms).get? name = ms.get? name := rfl

theorem hasDistinctNames_of_mem_arr {vs : List Value} (h : (arr vs).hasDistinctNames)
    (hw : w ∈ vs) : w.hasDistinctNames := by
  rw [hasDistinctNames] at h
  induction vs with
  | nil => cases hw
  | cons x vs ih =>
    rw [itemsHaveDistinctNames, Bool.and_eq_true] at h
    rcases List.mem_cons.mp hw with rfl | hw
    · exact h.1
    · exact ih h.2 hw

theorem hasDistinctNames_obj_iff {ms : Members} : (obj ms).hasDistinctNames ↔
    ms.names.Nodup ∧ ∀ m ∈ ms, m.2.hasDistinctNames := by
  have hmembers : membersHaveDistinctNames ms ↔ ∀ m ∈ ms, m.2.hasDistinctNames := by
    induction ms with
    | nil => simp [membersHaveDistinctNames]
    | cons m ms ih => simp [membersHaveDistinctNames, ih]
  rw [hasDistinctNames, Bool.and_eq_true, decide_eq_true_iff, hmembers]

theorem hasDistinctNames_of_get? (h : v.hasDistinctNames) (hw : v.get? name = some w) :
    w.hasDistinctNames := by
  cases v with
  | obj ms => exact (hasDistinctNames_obj_iff.mp h).2 _ (Table.mem_of_get? hw)
  | _ => cases hw

theorem hasDistinctNames_of_mem_itemsAt (h : v.hasDistinctNames) (hw : w ∈ v.itemsAt name) :
    w.hasDistinctNames := by
  rw [itemsAt] at hw
  cases hx : v.get? name with
  | none => simp [hx] at hw
  | some x =>
    have hdistinct := hasDistinctNames_of_get? h hx
    cases x with
    | arr vs => exact hasDistinctNames_of_mem_arr hdistinct (by simpa [hx, items] using hw)
    | _ => simp [hx, items] at hw

theorem hasDistinctNames_of_mem_membersAt (h : v.hasDistinctNames) {m : String × Value}
    (hm : m ∈ v.membersAt name) : m.2.hasDistinctNames := by
  rw [membersAt] at hm
  cases hx : v.get? name with
  | none => simp [hx] at hm
  | some x =>
    have hdistinct := hasDistinctNames_of_get? h hx
    cases x with
    | obj ms => exact (hasDistinctNames_obj_iff.mp hdistinct).2 m (by simpa [hx, members] using hm)
    | _ => simp [hx, members] at hm

end Value

theorem Format.keepsMembers_of_read {δ ρ : Type} {F : Format δ ρ} {v : Value} {r : ρ}
    (hv : v.hasDistinctNames) (h : F.read v = .ok r) {written : String → String}
    (hwritten : ∀ f ∈ F.fields, ∀ name ∈ f.names, written name = f.name) :
    KeepsMembers F.names written v.members (F.encode r) := by
  obtain ⟨ms, rfl, hms⟩ := read_eq_ok_iff.mp h
  exact keeps_encode hms (Value.hasDistinctNames_obj_iff.mp hv).1 hwritten

/-! ## Collections in records -/

section Collections

variable {α : Type} {c : Coding α} {name : String} {v w : Value}

/-- The items under a name are what the list of a field was read from. -/
theorem forall₂_read_itemsAt {as : List α} (h : (Slot.list c).Holds (v.get? name) as) :
    List.Forall₂ (fun x a => c.read x = .ok a) (v.itemsAt name) as := by
  rcases h with ⟨hnone, rfl⟩ | ⟨x, hx, h⟩
  · simp [Value.itemsAt, hnone]
  · cases x with
    | arr vs => simpa [Value.itemsAt, hx, Value.items] using Except.mapM_eq_ok_iff.mp h
    | _ => cases h

theorem forall₂_read_membersAt {t : Table α} (h : (Slot.table c).Holds (v.get? name) t) :
    List.Forall₂ (fun m p => m.1 = p.1 ∧ c.read m.2 = .ok p.2) (v.membersAt name) t := by
  rcases h with ⟨hnone, rfl⟩ | ⟨x, hx, h⟩
  · simp [Value.membersAt, hnone]
  · cases x with
    | obj ms => simpa [Value.membersAt, hx, Value.members] using c.read_table_iff.mp h
    | _ => cases h

theorem itemsAt_of_write_list {as : List α} (h : w.get? name = (Slot.list c).write as) :
    w.itemsAt name = as.map c.write := by
  cases as <;> simp [Value.itemsAt, h, Value.items]

theorem membersAt_of_write_table {t : Table α} (h : w.get? name = (Slot.table c).write t) :
    w.membersAt name = t.map fun p => (p.1, c.write p.2) := by
  cases t <;> simp [Value.membersAt, h, Value.members]

/-- Every item of a list is kept if what is read is kept. -/
theorem forall₂_itemsAt {R : Value → Value → Prop} {as : List α} (hv : v.hasDistinctNames)
    (hread : (Slot.list c).Holds (v.get? name) as)
    (hwrite : w.itemsAt name = as.map c.write)
    (hkept : ∀ {x a}, x.hasDistinctNames → c.read x = .ok a → R x (c.write a)) :
    List.Forall₂ R (v.itemsAt name) (w.itemsAt name) := by
  rw [hwrite, List.forall₂_map_right_iff]
  have hitems := (List.forall₂_and_left _ _).mpr
    ⟨fun x hx => Value.hasDistinctNames_of_mem_itemsAt hv hx, forall₂_read_itemsAt hread⟩
  exact hitems.imp fun x a h => hkept h.1 h.2

/-- Every member of a table is kept under its name if what is read is kept. -/
theorem forall₂_membersAt {R : Value → Value → Prop} {t : Table α} (hv : v.hasDistinctNames)
    (hread : (Slot.table c).Holds (v.get? name) t)
    (hwrite : w.membersAt name = t.map fun p => (p.1, c.write p.2))
    (hkept : ∀ {x a}, x.hasDistinctNames → c.read x = .ok a → R x (c.write a)) :
    List.Forall₂ (fun m m' => m.1 = m'.1 ∧ R m.2 m'.2) (v.membersAt name) (w.membersAt name) := by
  rw [hwrite, List.forall₂_map_right_iff]
  have hmembers := (List.forall₂_and_left _ _).mpr
    ⟨fun m hm => Value.hasDistinctNames_of_mem_membersAt hv hm, forall₂_read_membersAt hread⟩
  exact hmembers.imp fun m p h => ⟨h.2.1, hkept h.1 h.2.2⟩

end Collections

/-! ## Records in documents -/

/-- What a gate becomes when it is read and written. Its condition is written as `when`. -/
def AuthoredGate.Kept (v w : Value) : Prop :=
  KeepsMembers ["when", "condition", "action", "message"]
    (fun name => if name = "condition" then "when" else name) v.members w.members

def AuthoredFailure.Kept (v w : Value) : Prop :=
  KeepsMembers ["condition", "action", "recovery", "goto_step", "max_loops"] id v.members w.members

def AuthoredGroup.Kept (v w : Value) : Prop :=
  KeepsMembers ["join"] id v.members w.members

/-- What a step becomes when it is read and written. -/
structure AuthoredStep.Kept (v w : Value) : Prop where
  members : KeepsMembers ["capability", "store_as", "purpose", "input_bindings", "condition",
    "parallel_group", "gates", "failure_modes"] id v.members w.members
  bindings : w.membersAt "input_bindings" = v.membersAt "input_bindings"
  gates : List.Forall₂ AuthoredGate.Kept (v.itemsAt "gates") (w.itemsAt "gates")
  failures : List.Forall₂ AuthoredFailure.Kept (v.itemsAt "failure_modes")
    (w.itemsAt "failure_modes")

/-- What a workflow becomes when it is read and written. -/
structure AuthoredWorkflow.Kept (v w : Value) : Prop where
  members : KeepsMembers ["name", "version", "ontology_version", "goal", "risk", "inputs",
    "parallel_groups", "steps"] id v.members w.members
  inputs : w.get? "inputs" = (v.get? "inputs").filter (· ≠ .null)
  groups : List.Forall₂ (fun m m' => m.1 = m'.1 ∧ AuthoredGroup.Kept m.2 m'.2)
    (v.membersAt "parallel_groups") (w.membersAt "parallel_groups")
  steps : List.Forall₂ AuthoredStep.Kept (v.itemsAt "steps") (w.itemsAt "steps")

theorem AuthoredGate.kept_toValue {v : Value} {g : AuthoredGate} (hv : v.hasDistinctNames)
    (h : decode v = .ok g) : Kept v g.toValue := by
  rw [decode_eq] at h
  rw [toValue_eq]
  exact Format.keepsMembers_of_read hv h (by simp [format, Field.names])

theorem AuthoredFailure.kept_toValue {v : Value} {f : AuthoredFailure} (hv : v.hasDistinctNames)
    (h : decode v = .ok f) : Kept v f.toValue := by
  rw [decode_eq] at h
  rw [toValue_eq]
  exact Format.keepsMembers_of_read hv h (by simp [format, Field.names])

theorem AuthoredGroup.kept_toValue {v : Value} {g : AuthoredGroup} (hv : v.hasDistinctNames)
    (h : decode v = .ok g) : Kept v g.toValue := by
  rw [decode_eq] at h
  rw [toValue_eq]
  exact Format.keepsMembers_of_read hv h (by simp [format, Field.names])

theorem AuthoredStep.kept_toValue {v : Value} {s : AuthoredStep} (hv : v.hasDistinctNames)
    (h : decode v = .ok s) : Kept v s.toValue := by
  rw [decode_eq] at h
  rw [toValue_eq]
  obtain ⟨ms, rfl, hms⟩ := Format.read_eq_ok_iff.mp h
  constructor
  case members =>
    exact Format.keepsMembers_of_read hv h (by simp [format, Field.names])
  case bindings =>
    have hfield : format.field? "input_bindings" = some _ := rfl
    have hkept := forall₂_membersAt (c := .any) (R := Eq) hv (Format.holds_of_decode hms hfield rfl)
      (membersAt_of_write_table (w := .obj (format.encode s)) (Format.get?_encode hms hfield))
      fun _ h => by cases h; rfl
    simp only [← Prod.ext_iff, List.forall₂_eq_eq_eq] at hkept
    exact hkept.symm
  case gates =>
    have hfield : format.field? "gates" = some _ := rfl
    exact forall₂_itemsAt (c := AuthoredGate.coding) hv (Format.holds_of_decode hms hfield rfl)
      (itemsAt_of_write_list (Format.get?_encode hms hfield)) AuthoredGate.kept_toValue
  case failures =>
    have hfield : format.field? "failure_modes" = some _ := rfl
    exact forall₂_itemsAt (c := AuthoredFailure.coding) hv (Format.holds_of_decode hms hfield rfl)
      (itemsAt_of_write_list (Format.get?_encode hms hfield)) AuthoredFailure.kept_toValue

theorem AuthoredWorkflow.kept_toValue {v : Value} {w : AuthoredWorkflow} (hv : v.hasDistinctNames)
    (h : decode v = .ok w) : Kept v w.toValue := by
  rw [decode_eq] at h
  rw [toValue_eq]
  obtain ⟨ms, rfl, hms⟩ := Format.read_eq_ok_iff.mp h
  constructor
  case members =>
    exact Format.keepsMembers_of_read hv h (by simp [format, Field.names])
  case inputs =>
    have hfield : format.field? "inputs" = some _ := rfl
    have hwritten : Table.get? (format.encode w) "inputs" = w.inputs :=
      (Format.get?_encode hms hfield).trans Option.map_id'
    rw [Value.get?_obj, Value.get?_obj, hwritten]
    rcases Format.holds_of_decode hms hfield rfl with ⟨hnone, hinputs⟩ | ⟨x, hx, hread⟩
    · rw [hnone]
      exact hinputs
    · rw [hx]
      have hread : Decode.optional Decode.value x = .ok w.inputs := hread
      cases x <;> simp_all [Decode.optional, Decode.value, Except.map, Option.filter]
  case groups =>
    have hfield : format.field? "parallel_groups" = some _ := rfl
    exact forall₂_membersAt (c := AuthoredGroup.coding) hv (Format.holds_of_decode hms hfield rfl)
      (membersAt_of_write_table (Format.get?_encode hms hfield)) AuthoredGroup.kept_toValue
  case steps =>
    have hfield : format.field? "steps" = some _ := rfl
    refine forall₂_itemsAt (c := AuthoredStep.coding) hv (Format.holds_of_decode hms hfield rfl) ?_
      AuthoredStep.kept_toValue
    exact congrArg (·.elim [] Value.items) (Format.get?_encode hms hfield)

/-- A workflow document that was read is written as a document that is read as the same workflow and
keeps what the first one said. -/
theorem AuthoredWorkflow.decode_toValue {v : Value} {w : AuthoredWorkflow}
    (hv : v.hasDistinctNames) (h : decode v = .ok w) :
    decode w.toValue = .ok w ∧ Kept v w.toValue :=
  ⟨coding.read_write h, kept_toValue hv h⟩

namespace AuthoredWorkflow.Sample

/-- A document with names that no record knows at every depth, a gate whose condition is written
under its other name, an empty list and a field that is null. -/
def document : Value :=
  .obj [("owner", .str "ops"), ("risk", .str "low"), ("goal", .null),
    ("inputs", .obj [("query", .str "string")]),
    ("parallel_groups", .obj [("gather", .obj [("join", .str "all"), ("timeout", .int 5)])]),
    ("steps", .arr [.obj [("mapping_ref", .str "m.yaml"), ("capability", .str "detect"),
      ("failure_modes", .arr [.obj [("max_loops", .int 2), ("note", .bool true)]]),
      ("input_bindings", .obj [("source", .str "input.query"), ("limit", .int 3)]),
      ("gates", .arr [.obj [("condition", .str "x == 1"), ("since", .null)]])],
      .obj [("gates", .arr [])]])]

/-- What it reads as. -/
def workflow : AuthoredWorkflow where
  risk := some .low
  inputs := some (.obj [("query", .str "string")])
  groups := [("gather", ⟨some "all", [("timeout", .int 5)]⟩)]
  steps := [
    { capability := some "detect"
      bindings := [("source", .str "input.query"), ("limit", .int 3)]
      gates := [⟨"x == 1", "stop", none, [("since", .null)]⟩]
      failures := [⟨"", "", none, none, some 2, [("note", .bool true)]⟩]
      extra := [("mapping_ref", .str "m.yaml")] },
    {}]
  extra := [("owner", .str "ops")]

end AuthoredWorkflow.Sample

theorem AuthoredWorkflow.decode_toValue_document : Sample.document.hasDistinctNames ∧
    decode Sample.document = .ok Sample.workflow ∧
    decode Sample.workflow.toValue = .ok Sample.workflow ∧
    Kept Sample.document Sample.workflow.toValue :=
  ⟨by decide, by rfl, decode_toValue (by decide) (by rfl)⟩

end CapabilityFlow
