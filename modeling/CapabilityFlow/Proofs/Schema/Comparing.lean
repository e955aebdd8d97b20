import CapabilityFlow.Proofs.Schema.Resolution

/-!
# Comparing resolutions

Two resolutions of one raw schema, with their own libraries, rooms and chains, differ only in how they
follow references. So a relation between computations that is kept by `bind`, and that holds of each
part without references with itself, holds of the resolutions if it does of the references
(`Compatible.value`).
-/

namespace CapabilityFlow.Resolving

/-- A relation between computations that their parts carry over to the whole. -/
structure Compatible (Rel : ∀ {α : Type}, Resolving α → Resolving α → Prop) : Prop where
  lift : ∀ {α : Type} (x : Except SchemaError α), Rel (liftExcept x) (liftExcept x)
  bind : ∀ {α β : Type} {c c' : Resolving α} {f f' : α → Resolving β}, Rel c c' →
    (∀ a, Rel (f a) (f' a)) → Rel (c >>= f) (c' >>= f')

namespace Compatible

variable {Rel : ∀ {α : Type}, Resolving α → Resolving α → Prop} {lib lib' : Library}
  {room room' : Nat} {chain chain' : List Target} {document : String}

theorem pure (h : Compatible Rel) {α : Type} (a : α) : Rel (pure a : Resolving α) (pure a) :=
  h.lift (.ok a)

theorem throw (h : Compatible Rel) {α : Type} (e : SchemaError) :
    Rel (throw e : Resolving α) (throw e) :=
  h.lift (.error e)

theorem list (h : Compatible Rel) {items : List Value}
    (hvalue : ∀ raw ∈ items,
      Rel (value lib room chain document raw) (value lib' room' chain' document raw)) :
    Rel (list lib room chain document items) (list lib' room' chain' document items) := by
  induction items with
  | nil =>
    unfold Resolving.list
    exact h.pure []
  | cons raw rest ih =>
    unfold Resolving.list
    refine h.bind (hvalue raw List.mem_cons_self) fun s => ?_
    refine h.bind (ih fun v hv => hvalue v (List.mem_cons_of_mem raw hv)) fun more => ?_
    exact h.pure _

theorem composition (h : Compatible Rel) {arms : Value}
    (hvalue : ∀ items, arms = .arr items → ∀ raw ∈ items,
      Rel (value lib room chain document raw) (value lib' room' chain' document raw)) :
    Rel (composition lib room chain document arms) (composition lib' room' chain' document arms) := by
  unfold Resolving.composition
  split
  · exact h.list (hvalue _ rfl)
  · exact h.throw _

theorem fields (h : Compatible Rel) {ps : List (String × Value)}
    (hvalue : ∀ p ∈ ps,
      Rel (value lib room chain document p.2) (value lib' room' chain' document p.2)) :
    Rel (fields lib room chain document ps) (fields lib' room' chain' document ps) := by
  induction ps with
  | nil =>
    unfold Resolving.fields
    exact h.pure []
  | cons p rest ih =>
    unfold Resolving.fields
    refine h.bind (hvalue p List.mem_cons_self) fun s => ?_
    refine h.bind (ih fun q hq => hvalue q (List.mem_cons_of_mem p hq)) fun more => ?_
    exact h.pure _

theorem typed (h : Compatible Rel) {ms : Members} {name : String}
    (hvalue : ∀ raw, sizeOf raw < sizeOf ms →
      Rel (value lib room chain document raw) (value lib' room' chain' document raw)) :
    Rel (typed lib room chain document ms name) (typed lib' room' chain' document ms name) := by
  by_cases hobject : name = "object"
  · rw [hobject, typed_object_eq, typed_object_eq]
    split
    · rename_i ps hps
      have hsize : ∀ p ∈ ps, sizeOf p.2 < sizeOf ms := fun p hp =>
        Nat.lt_of_lt_of_le (Table.sizeOf_lt_of_mem hp) (sizeOf_properties_lt hps)
      refine h.bind (h.lift _) fun required => ?_
      exact h.bind (h.fields fun p hp => hvalue p.2 (hsize p hp)) fun fields => h.pure _
    · exact h.throw _
  by_cases harray : name = "array"
  · rw [harray, typed_array_eq, typed_array_eq]
    split
    · rename_i items hitems
      exact h.bind (hvalue items (Table.sizeOf_get?_lt hitems)) fun s => h.pure _
    · exact h.pure _
  · rw [typed_eq_of_ne lib ms hobject harray, typed_eq_of_ne lib' ms hobject harray]
    split
    · exact h.pure _
    · exact h.throw _

theorem entries (h : Compatible Rel) {ms : Members} {names : List Value}
    (htyped : ∀ name, Rel (Resolving.typed lib room chain document ms name)
      (Resolving.typed lib' room' chain' document ms name)) :
    Rel (names.mapM (entry lib room chain document ms))
      (names.mapM (entry lib' room' chain' document ms)) := by
  induction names with
  | nil => exact h.pure []
  | cons v rest ih =>
    have hentry : Rel (entry lib room chain document ms v) (entry lib' room' chain' document ms v) := by
      unfold entry
      split
      · exact htyped _
      · exact h.throw _
    rw [List.mapM_cons, List.mapM_cons]
    exact h.bind hentry fun s => h.bind ih fun more => h.pure _

theorem constrained (h : Compatible Rel) {ms : Members}
    (hfollow : ∀ r, Rel (follow lib room chain document r) (follow lib' room' chain' document r))
    (hvalue : ∀ raw, sizeOf raw < sizeOf ms →
      Rel (value lib room chain document raw) (value lib' room' chain' document raw)) :
    Rel (constrained lib room chain document ms) (constrained lib' room' chain' document ms) := by
  have htyped : ∀ name, Rel (Resolving.typed lib room chain document ms name)
      (Resolving.typed lib' room' chain' document ms name) := fun name => h.typed hvalue
  rw [constrained_eq, constrained_eq]
  split
  · exact hfollow _
  · exact h.throw _
  · rename_i v hk
    refine h.bind (h.composition fun items hv raw hraw => hvalue raw ?_) fun arms => h.pure _
    exact sizeOf_lt_of_keyword (.inl (hv ▸ hk)) hraw
  · rename_i v hk
    refine h.bind (h.composition fun items hv raw hraw => hvalue raw ?_) fun arms => h.lift _
    exact sizeOf_lt_of_keyword (.inr (hv ▸ hk)) hraw
  · exact h.pure _
  · exact h.lift _
  · exact htyped _
  · exact h.bind (h.entries htyped) fun arms => h.pure _
  · exact h.throw _
  · exact htyped _
  · exact h.pure _

/-- Resolving a raw schema in two ways compares as following its references does. -/
theorem value (h : Compatible Rel) (lib lib' : Library) (room room' : Nat)
    (chain chain' : List Target) (document : String)
    (hfollow : ∀ r, Rel (follow lib room chain document r) (follow lib' room' chain' document r))
    (raw : Value) :
    Rel (value lib room chain document raw) (value lib' room' chain' document raw) := by
  unfold Resolving.value
  match raw with
  | .null | .bool true | .bool false => exact h.pure _
  | .str text => exact h.lift _
  | .obj ms =>
    have hvalue : ∀ raw, sizeOf raw < sizeOf ms →
        Rel (Resolving.value lib room chain document raw)
          (Resolving.value lib' room' chain' document raw) :=
      fun raw _ => h.value lib lib' room room' chain chain' document hfollow raw
    exact h.bind (h.constrained hfollow hvalue) fun s => h.pure _
  | .int _ | .float _ | .arr _ => exact h.throw _
termination_by sizeOf raw
decreasing_by
  simp
  omega

end Compatible

end CapabilityFlow.Resolving
