import CapabilityFlow.Proofs.Schema.Resolution

/-!
# A resolver with one stack

`Resolving.value` hands the chain of references down from call to call. Here the references that are
being followed stand on one stack that all calls share: each is pushed before its target is resolved
and popped afterwards, also after an error (`Tracking.pushing`). Every stack that there ever is is noted.
Nothing but fuel keeps this resolver from running on, so that it ends is something to prove.

Both resolvers take a raw schema apart in the same way. So what is to be shown of the two is to be shown
of how they follow the references that the raw schema contains (`Mirrored.value`).
-/

namespace CapabilityFlow

/-! ## References in values -/

/-- A value is the given one, or stands somewhere in it. -/
inductive Value.Contains : Value → Value → Prop
  | self (v : Value) : v.Contains v
  | member {ms : Members} {p : String × Value} {w : Value} (hp : p ∈ ms) (h : p.2.Contains w) :
      (Value.obj ms).Contains w
  | item {items : List Value} {v w : Value} (hv : v ∈ items) (h : v.Contains w) :
      (Value.arr items).Contains w

/-- Somewhere in a value stands a `$ref` to the reference. -/
def Value.Refers (raw : Value) (reference : String) : Prop :=
  ∃ ms, raw.Contains (.obj ms) ∧ Table.get? ms "$ref" = some (.str reference)

namespace Value

variable {u v w : Value} {ms : Members} {reference name : String}

theorem Contains.trans (h : u.Contains v) (h' : v.Contains w) : u.Contains w := by
  induction h with
  | self => exact h'
  | member hp _ ih => exact .member hp (ih h')
  | item hv _ ih => exact .item hv (ih h')

theorem contains_of_get? (h : Table.get? ms name = some v) : (obj ms).Contains v :=
  .member (Table.mem_of_get? h) (.self v)

theorem Refers.of_contains (h : v.Refers reference) (hv : u.Contains v) : u.Refers reference := by
  obtain ⟨ms, hms, href⟩ := h
  exact ⟨ms, hv.trans hms, href⟩

theorem refers_of_get? (h : Table.get? ms "$ref" = some (.str reference)) :
    (obj ms).Refers reference :=
  ⟨ms, .self _, h⟩

end Value

/-! ## Errors that have nothing to do with nesting -/

/-- Neither is a reference repeated, nor is the bound exceeded. -/
def SchemaError.IsLocal : SchemaError → Prop
  | .cycle _ => False
  | .depthExceeded .. => False
  | _ => True

namespace Resolving

variable {α : Type} {e : SchemaError}

/-- A computation of its own has local errors only. -/
def FailsLocally (x : Except SchemaError α) : Prop :=
  ∀ e, x = .error e → e.IsLocal

theorem failsLocally_ok (a : α) : FailsLocally (.ok a) :=
  nofun

theorem failsLocally_error (h : e.IsLocal) : FailsLocally (.error e : Except SchemaError α) := by
  rintro _ ⟨⟩
  exact h

theorem failsLocally_ofText (text : String) : FailsLocally (ofText text) := by
  unfold ofText
  split
  · exact failsLocally_ok _
  · exact failsLocally_error trivial

theorem failsLocally_ofEnum (v : Value) : FailsLocally (ofEnum v) := by
  unfold ofEnum
  split
  · dsimp only
    split
    · exact failsLocally_error trivial
    · exact failsLocally_ok _
  · exact failsLocally_error trivial

theorem failsLocally_mergeAll (arms : List Schema) : FailsLocally (mergeAll arms) := by
  unfold mergeAll
  split
  · exact failsLocally_ok _
  · exact failsLocally_ok _
  · repeat' split
    · exact failsLocally_ok _
    · exact failsLocally_ok _
    · exact failsLocally_error trivial

theorem failsLocally_requiredNames (ms : Members) : FailsLocally (requiredNames ms) := by
  unfold requiredNames
  split
  · exact failsLocally_ok _
  · rename_i names hnames
    clear hnames
    generalize ([] : List String) = set
    induction names generalizing set with
    | nil => exact failsLocally_ok _
    | cons name rest ih =>
      rw [List.foldlM_cons]
      cases name with
      | str s => exact ih (insertSorted set s)
      | _ => exact failsLocally_error trivial
  · exact failsLocally_error trivial

theorem failsLocally_properties (ms : Members) : FailsLocally (properties ms) := by
  unfold properties
  split
  · exact failsLocally_ok _
  · exact failsLocally_error trivial
  · exact failsLocally_ok _

theorem failsLocally_find (lib : Library) (t : Target) (reference : String) :
    FailsLocally (lib.find t reference) := by
  unfold Library.find
  split
  · exact failsLocally_error trivial
  · split
    · exact failsLocally_error trivial
    · exact failsLocally_ok _

end Resolving

namespace Resolving

theorem contains_of_properties {ms ps : Members} (h : properties ms = .ok ps) {p : String × Value}
    (hp : p ∈ ps) : (Value.obj ms).Contains p.2 := by
  unfold properties at h
  split at h
  · rename_i hget
    cases h
    exact (Value.contains_of_get? hget).trans (.member hp (.self p.2))
  · cases h
  · cases h
    cases hp

theorem get?_of_reference {ms : Members} {v : Value} (h : Keyword.of ms = .reference v) :
    Table.get? ms "$ref" = some v := by
  unfold Keyword.of at h
  split at h
  · rename_i hget
    cases h
    exact hget
  · repeat' split at h
    all_goals cases h

end Resolving

/-! ## The resolver -/

/-- What a resolver with a stack keeps: the targets resolved so far, the stack of those that are being
followed, and all stacks so far, up to the current one. -/
structure Tracker where
  resolved : Resolved
  stack : List Target
  moments : List (List Target)

namespace Tracker

def push (k : Tracker) (t : Target) : Tracker :=
  { k with stack := k.stack ++ [t], moments := k.moments ++ [k.stack ++ [t]] }

def pop (k : Tracker) : Tracker :=
  { k with stack := k.stack.dropLast, moments := k.moments ++ [k.stack.dropLast] }

def remember (k : Tracker) (t : Target) (s : Schema) : Tracker :=
  { k with resolved := (t, s) :: k.resolved }

end Tracker

/-- A computation on a tracker that may fail, and that gives nothing at all when its fuel is used up. -/
abbrev Tracking := ExceptT SchemaError (StateT Tracker Option)

namespace Tracking

open Resolving (ofText ofEnum mergeAll properties requiredNames isOpenObject orNull)

variable {α β : Type}

def outOfFuel : Tracking α :=
  ExceptT.mk fun _ => none

/-- Computes with a target on top of the stack, and pops it also when the result is an error. -/
def pushing (t : Target) (c : Tracking α) : Tracking α := do
  modify (·.push t)
  let result : Except SchemaError α ← ExceptT.lift c.run
  modify (·.pop)
  liftExcept result

theorem sizeOf_arms_lt {ms : Members} {arms : Value}
    (h : Keyword.of ms = .alternatives arms ∨ Keyword.of ms = .all arms) :
    sizeOf arms < sizeOf ms := by
  obtain ⟨name, hname⟩ := Resolving.get?_of_keyword h
  exact Table.sizeOf_get?_lt hname

mutual

/-- Resolves a raw schema, given how its references are followed. -/
def value (follow : String → Tracking Schema) (raw : Value) : Tracking Schema :=
  match raw with
  | .null | .bool true => pure .any
  | .bool false => pure .unknown
  | .str text => liftExcept (ofText text)
  | .obj ms => do
    let s ← constrained follow ms
    pure (orNull ms s)
  | raw => throw (.malformed ("expected a schema object, found " ++ raw.toJson))
termination_by (sizeOf raw, 0)

/-- Resolves the members of a raw schema, apart from `nullable`. -/
def constrained (follow : String → Tracking Schema) (ms : Members) : Tracking Schema :=
  match h : Keyword.of ms with
  | .reference (.str reference) => follow reference
  | .reference _ => throw (.malformed "$ref must be a string")
  | .alternatives arms => do
    have := sizeOf_arms_lt (.inl h)
    let arms ← composition follow arms
    pure (.union arms)
  | .all arms => do
    have := sizeOf_arms_lt (.inr h)
    let arms ← composition follow arms
    liftExcept (mergeAll arms)
  | .const v => pure (.ofValue v)
  | .enum v => liftExcept (ofEnum v)
  | .type (.str name) => typed follow ms name
  | .type (.arr names) => do
    let arms ← names.mapM fun
      | .str name => typed follow ms name
      | _ => throw (.malformed "type array must contain strings")
    pure (.union arms)
  | .type other => throw (.malformed ("type must be a string or array, found " ++ other.toJson))
  | .implied name => typed follow ms name
  | .nothing => pure .any
termination_by (sizeOf ms, 2)

/-- Resolves the members of a raw schema of a named type. -/
def typed (follow : String → Tracking Schema) (ms : Members) (name : String) : Tracking Schema :=
  if name = "object" then
    match h : properties ms with
    | .error e => throw e
    | .ok ps => do
      have := Resolving.sizeOf_properties_lt h
      let required ← liftExcept (requiredNames ms)
      let fields ← fields follow ps
      pure (.object fields required (isOpenObject ms ps))
  else if name = "array" then
    match h : Table.get? ms "items" with
    | some items => do
      have := Table.sizeOf_get?_lt h
      let element ← value follow items
      pure (.array element)
    | none => pure (.array .unknown)
  else
    match TypeText.named? name with
    | some s => pure s
    | none => throw (.invalidType name "not a schema type")
termination_by (sizeOf ms, 1)
decreasing_by
  · rcases Nat.lt_or_eq_of_le this with hlt | heq
    · exact .left _ _ hlt
    · exact heq ▸ .right _ Nat.zero_lt_one
  · exact .left _ _ this

/-- Resolves the arms of a composition. -/
def composition (follow : String → Tracking Schema) (arms : Value) : Tracking (List Schema) :=
  match arms with
  | .arr items => list follow items
  | _ => throw (.malformed "composition must be a list")
termination_by (sizeOf arms, 0)

/-- Resolves raw schemas in order. -/
def list (follow : String → Tracking Schema) (items : List Value) : Tracking (List Schema) :=
  match items with
  | [] => pure []
  | raw :: rest => do
    let s ← value follow raw
    let more ← list follow rest
    pure (s :: more)
termination_by (sizeOf items, 0)

/-- Resolves the raw schemas of named fields in order. -/
def fields (follow : String → Tracking Schema) (ps : List (String × Value)) :
    Tracking (List (String × Schema)) :=
  match ps with
  | [] => pure []
  | (name, raw) :: rest => do
    let s ← value follow raw
    let more ← fields follow rest
    pure ((name, s) :: more)
termination_by (sizeOf ps, 0)

end

/-- Follows a reference of a document, pushing its target while it is resolved. -/
def follow (lib : Library) : Nat → String → String → Tracking Schema
  | 0, _, _ => outOfFuel
  | fuel + 1, document, reference => do
    let target := Target.ofReference document reference
    let k ← get
    match k.resolved.lookup target with
    | some s => pure s
    | none =>
      if k.stack.contains target then
        throw (.cycle (k.stack.dropWhile (· != target) ++ [target]))
      else if lib.maxDepth ≤ k.stack.length then throw (.depthExceeded reference lib.maxDepth)
      else
        let raw ← liftExcept (lib.find target reference)
        let s ← pushing target (value (follow lib fuel target.document) raw)
        modify (·.remember target s)
        pure s

/-! ## Equations -/

/-- Resolves an entry of a list of type names. -/
def entry (follow : String → Tracking Schema) (ms : Members) : Value → Tracking Schema
  | .str name => typed follow ms name
  | _ => throw (.malformed "type array must contain strings")

theorem constrained_eq (follow : String → Tracking Schema) (ms : Members) :
    constrained follow ms =
      match Keyword.of ms with
      | .reference (.str reference) => follow reference
      | .reference _ => throw (.malformed "$ref must be a string")
      | .alternatives arms => do
        pure (.union (← composition follow arms))
      | .all arms => do
        liftExcept (mergeAll (← composition follow arms))
      | .const v => pure (.ofValue v)
      | .enum v => liftExcept (ofEnum v)
      | .type (.str name) => typed follow ms name
      | .type (.arr names) => do
        pure (.union (← names.mapM (entry follow ms)))
      | .type other =>
        throw (.malformed ("type must be a string or array, found " ++ other.toJson))
      | .implied name => typed follow ms name
      | .nothing => pure .any := by
  unfold constrained
  split <;> rename_i h <;> simp only [h]
  rfl

theorem typed_object_eq (follow : String → Tracking Schema) (ms : Members) :
    typed follow ms "object" =
      match properties ms with
      | .ok ps => do
        let required ← liftExcept (requiredNames ms)
        let fields ← fields follow ps
        pure (.object fields required (isOpenObject ms ps))
      | .error e => throw e := by
  unfold typed
  rw [if_pos rfl]
  split <;> rename_i h <;> simp only [h]

theorem typed_array_eq (follow : String → Tracking Schema) (ms : Members) :
    typed follow ms "array" =
      match Table.get? ms "items" with
      | some items => do pure (.array (← value follow items))
      | none => pure (.array .unknown) := by
  unfold typed
  rw [if_neg (by decide), if_pos rfl]
  split <;> rename_i h <;> simp only [h]

theorem typed_eq_of_ne (follow : String → Tracking Schema) (ms : Members) {name : String}
    (hobject : name ≠ "object") (harray : name ≠ "array") :
    typed follow ms name =
      match TypeText.named? name with
      | some s => pure s
      | none => throw (.invalidType name "not a schema type") := by
  unfold typed
  exact (if_neg hobject).trans (if_neg harray)

/-! ## Runs -/

variable {k k' : Tracker} {lib : Library} {fuel : Nat} {document reference : String} {t : Target}

theorem run_bind_of_ok {c : Tracking α} {f : α → Tracking β} {a : α}
    (h : c.run k = some (.ok a, k')) : (c >>= f).run k = (f a).run k' := by
  rw [ExceptT.run_bind]
  simp [bind, StateT.bind, h]

theorem run_bind_of_error {c : Tracking α} {f : α → Tracking β} {e : SchemaError}
    (h : c.run k = some (.error e, k')) : (c >>= f).run k = some (.error e, k') := by
  rw [ExceptT.run_bind]
  simp [bind, StateT.bind, h]
  rfl

theorem run_bind_of_none {c : Tracking α} {f : α → Tracking β} (h : c.run k = none) :
    (c >>= f).run k = none := by
  rw [ExceptT.run_bind]
  simp [bind, StateT.bind, h]

theorem run_liftExcept (x : Except SchemaError α) (k : Tracker) :
    (liftExcept x : Tracking α).run k = some (x, k) := by
  cases x <;> rfl

theorem run_modify (f : Tracker → Tracker) (k : Tracker) :
    (modify f : Tracking PUnit).run k = some (.ok ⟨⟩, f k) := rfl

theorem run_pushing (t : Target) (c : Tracking α) (k : Tracker) :
    (pushing t c).run k = (c.run (k.push t)).map fun x => (x.1, x.2.pop) := by
  have hlift : (ExceptT.lift c.run : Tracking (Except SchemaError α)).run (k.push t) =
      (c.run (k.push t)).bind fun x => some (.ok x.1, x.2) := rfl
  unfold pushing
  rw [run_bind_of_ok (run_modify _ k)]
  cases hrun : c.run (k.push t) with
  | none =>
    rw [hrun] at hlift
    exact run_bind_of_none hlift
  | some x =>
    rw [hrun] at hlift
    rw [run_bind_of_ok hlift, run_bind_of_ok (run_modify _ x.2), run_liftExcept]
    rfl

/-- What the target of a reference is resolved to, and the tracker afterwards. -/
theorem run_follow_succ (lib : Library) (fuel : Nat) (ht : Target.ofReference document reference = t)
    (k : Tracker) : (follow lib (fuel + 1) document reference).run k =
      match k.resolved.lookup t with
      | some s => some (.ok s, k)
      | none =>
        if t ∈ k.stack then some (.error (.cycle (k.stack.dropWhile (· != t) ++ [t])), k)
        else if lib.maxDepth ≤ k.stack.length then
          some (.error (.depthExceeded reference lib.maxDepth), k)
        else
          match lib.find t reference with
          | .error e => some (.error e, k)
          | .ok raw =>
            match (value (follow lib fuel t.document) raw).run (k.push t) with
            | none => none
            | some (.ok s, k') => some (.ok s, k'.pop.remember t s)
            | some (.error e, k') => some (.error e, k'.pop) := by
  have hget : (get : Tracking Tracker).run k = some (.ok k, k) := rfl
  unfold follow
  simp only [ht]
  rw [run_bind_of_ok hget]
  cases k.resolved.lookup t with
  | some s => rfl
  | none =>
    simp only [List.contains_iff_mem]
    split
    · rfl
    · split
      · rfl
      · cases lib.find t reference with
        | error e => exact run_bind_of_error (run_liftExcept _ k)
        | ok raw =>
          have hpushing := run_pushing t (value (follow lib fuel t.document) raw) k
          rw [run_bind_of_ok (run_liftExcept _ k)]
          cases hv : (value (follow lib fuel t.document) raw).run (k.push t) with
          | none =>
            rw [hv] at hpushing
            rw [run_bind_of_none hpushing]
            simp only [hv]
          | some x =>
            rw [hv] at hpushing
            obtain ⟨x | s, k'⟩ := x
            · rw [run_bind_of_error hpushing]
              simp only [hv]
            · rw [run_bind_of_ok hpushing, run_bind_of_ok (run_modify _ _)]
              simp only [hv]
              rfl

section

variable {s : Schema}

theorem run_follow_of_lookup (lib : Library) (fuel : Nat)
    (ht : Target.ofReference document reference = t) (hl : k.resolved.lookup t = some s) :
    (follow lib (fuel + 1) document reference).run k = some (.ok s, k) := by
  rw [run_follow_succ lib fuel ht, hl]

theorem run_follow_of_mem (lib : Library) (fuel : Nat)
    (ht : Target.ofReference document reference = t) (hl : k.resolved.lookup t = none)
    (hmem : t ∈ k.stack) : (follow lib (fuel + 1) document reference).run k =
      some (.error (.cycle (k.stack.dropWhile (· != t) ++ [t])), k) := by
  rw [run_follow_succ lib fuel ht, hl]
  exact if_pos hmem

theorem run_follow_of_full (fuel : Nat) (ht : Target.ofReference document reference = t)
    (hl : k.resolved.lookup t = none) (hmem : t ∉ k.stack) (hfull : lib.maxDepth ≤ k.stack.length) :
    (follow lib (fuel + 1) document reference).run k =
      some (.error (.depthExceeded reference lib.maxDepth), k) := by
  rw [run_follow_succ lib fuel ht, hl]
  exact (if_neg hmem).trans (if_pos hfull)

/-- A target that is new is looked up in the library, and resolved with itself on the stack. -/
theorem run_follow_of_new (fuel : Nat) (ht : Target.ofReference document reference = t)
    (hl : k.resolved.lookup t = none) (hmem : t ∉ k.stack) (hlt : k.stack.length < lib.maxDepth) :
    (follow lib (fuel + 1) document reference).run k =
      match lib.find t reference with
      | .error e => some (.error e, k)
      | .ok raw =>
        match (value (follow lib fuel t.document) raw).run (k.push t) with
        | none => none
        | some (.ok s, k') => some (.ok s, k'.pop.remember t s)
        | some (.error e, k') => some (.error e, k'.pop) := by
  rw [run_follow_succ lib fuel ht, hl]
  exact (if_neg hmem).trans (if_neg (Nat.not_le_of_lt hlt))

end

end Tracking

/-! ## Both resolvers -/

/-- A relation between computations of both resolvers that the parts carry over to the whole. Of the
parts without references only those are concerned that fail locally. -/
structure Mirrored (Rel : ∀ {α : Type}, Resolving α → Tracking α → Prop) : Prop where
  lift : ∀ {α : Type} {x : Except SchemaError α}, Resolving.FailsLocally x →
    Rel (liftExcept x) (liftExcept x)
  bind : ∀ {α β : Type} {c : Resolving α} {c' : Tracking α} {f : α → Resolving β}
    {f' : α → Tracking β}, Rel c c' → (∀ a, Rel (f a) (f' a)) → Rel (c >>= f) (c' >>= f')

namespace Mirrored

open Resolving

variable {Rel : ∀ {α : Type}, Resolving α → Tracking α → Prop} {lib : Library} {room : Nat}
  {chain : List Target} {document : String} {follow : String → Tracking Schema}

theorem pure (h : Mirrored Rel) {α : Type} (a : α) : Rel (pure a : Resolving α) (pure a) :=
  h.lift (failsLocally_ok a)

theorem throw (h : Mirrored Rel) {α : Type} {e : SchemaError} (he : e.IsLocal) :
    Rel (throw e : Resolving α) (throw e) :=
  h.lift (failsLocally_error he)

theorem list (h : Mirrored Rel) {items : List Value}
    (hvalue : ∀ raw ∈ items, Rel (value lib room chain document raw) (Tracking.value follow raw)) :
    Rel (list lib room chain document items) (Tracking.list follow items) := by
  induction items with
  | nil =>
    unfold Resolving.list Tracking.list
    exact h.pure []
  | cons raw rest ih =>
    unfold Resolving.list Tracking.list
    refine h.bind (hvalue raw List.mem_cons_self) fun s => ?_
    refine h.bind (ih fun v hv => hvalue v (List.mem_cons_of_mem raw hv)) fun more => ?_
    exact h.pure _

theorem composition (h : Mirrored Rel) {arms : Value}
    (hvalue : ∀ items, arms = .arr items → ∀ raw ∈ items,
      Rel (value lib room chain document raw) (Tracking.value follow raw)) :
    Rel (composition lib room chain document arms) (Tracking.composition follow arms) := by
  unfold Resolving.composition Tracking.composition
  cases arms with
  | arr items => exact h.list (hvalue items rfl)
  | _ => exact h.throw (by trivial)

theorem fields (h : Mirrored Rel) {ps : List (String × Value)}
    (hvalue : ∀ p ∈ ps, Rel (value lib room chain document p.2) (Tracking.value follow p.2)) :
    Rel (fields lib room chain document ps) (Tracking.fields follow ps) := by
  induction ps with
  | nil =>
    unfold Resolving.fields Tracking.fields
    exact h.pure []
  | cons p rest ih =>
    unfold Resolving.fields Tracking.fields
    refine h.bind (hvalue p List.mem_cons_self) fun s => ?_
    refine h.bind (ih fun q hq => hvalue q (List.mem_cons_of_mem p hq)) fun more => ?_
    exact h.pure _

theorem typed (h : Mirrored Rel) {ms : Members} {name : String}
    (hvalue : ∀ raw, sizeOf raw < sizeOf ms → (Value.obj ms).Contains raw →
      Rel (value lib room chain document raw) (Tracking.value follow raw)) :
    Rel (typed lib room chain document ms name) (Tracking.typed follow ms name) := by
  by_cases hobject : name = "object"
  · rw [hobject, Resolving.typed_object_eq, Tracking.typed_object_eq]
    cases hps : properties ms with
    | ok ps =>
      have hsize : ∀ p ∈ ps, sizeOf p.2 < sizeOf ms := fun p hp =>
        Nat.lt_of_lt_of_le (Table.sizeOf_lt_of_mem hp) (sizeOf_properties_lt hps)
      refine h.bind (h.lift (failsLocally_requiredNames ms)) fun required => ?_
      exact h.bind (h.fields fun p hp => hvalue p.2 (hsize p hp) (contains_of_properties hps hp))
        fun fields => h.pure _
    | error e => exact h.throw (failsLocally_properties ms e hps)
  by_cases harray : name = "array"
  · rw [harray, Resolving.typed_array_eq, Tracking.typed_array_eq]
    cases hitems : Table.get? ms "items" with
    | some items =>
      exact h.bind (hvalue items (Table.sizeOf_get?_lt hitems) (Value.contains_of_get? hitems))
        fun s => h.pure _
    | none => exact h.pure _
  · rw [Resolving.typed_eq_of_ne lib ms hobject harray, Tracking.typed_eq_of_ne follow ms hobject harray]
    cases TypeText.named? name with
    | some s => exact h.pure s
    | none => exact h.throw (by trivial)

theorem entries (h : Mirrored Rel) {ms : Members} {names : List Value}
    (htyped : ∀ name, Rel (Resolving.typed lib room chain document ms name)
      (Tracking.typed follow ms name)) :
    Rel (names.mapM (entry lib room chain document ms)) (names.mapM (Tracking.entry follow ms)) := by
  induction names with
  | nil => exact h.pure []
  | cons v rest ih =>
    have hentry : Rel (entry lib room chain document ms v) (Tracking.entry follow ms v) := by
      cases v with
      | str name => exact htyped name
      | _ => exact h.throw (by trivial)
    rw [List.mapM_cons, List.mapM_cons]
    exact h.bind hentry fun s => h.bind ih fun more => h.pure _

theorem constrained (h : Mirrored Rel) {ms : Members}
    (hfollow : ∀ r, Table.get? ms "$ref" = some (.str r) →
      Rel (Resolving.follow lib room chain document r) (follow r))
    (hvalue : ∀ raw, sizeOf raw < sizeOf ms → (Value.obj ms).Contains raw →
      Rel (value lib room chain document raw) (Tracking.value follow raw)) :
    Rel (constrained lib room chain document ms) (Tracking.constrained follow ms) := by
  have htyped : ∀ name, Rel (Resolving.typed lib room chain document ms name)
      (Tracking.typed follow ms name) := fun name => h.typed hvalue
  have harms : ∀ arms, Keyword.of ms = .alternatives arms ∨ Keyword.of ms = .all arms →
      Rel (Resolving.composition lib room chain document arms) (Tracking.composition follow arms) := by
    intro arms hk
    refine h.composition fun items hv raw hraw => ?_
    subst hv
    obtain ⟨name, hname⟩ := get?_of_keyword hk
    exact hvalue raw (sizeOf_lt_of_keyword hk hraw)
      ((Value.contains_of_get? hname).trans (.item hraw (.self raw)))
  rw [Resolving.constrained_eq, Tracking.constrained_eq]
  cases hk : Keyword.of ms with
  | reference v =>
    cases v with
    | str r => exact hfollow r (get?_of_reference hk)
    | _ => exact h.throw (by trivial)
  | alternatives arms => exact h.bind (harms arms (.inl hk)) fun arms => h.pure _
  | all arms => exact h.bind (harms arms (.inr hk)) fun arms => h.lift (failsLocally_mergeAll arms)
  | const v => exact h.pure _
  | enum v => exact h.lift (failsLocally_ofEnum v)
  | type v =>
    cases v with
    | str name => exact htyped name
    | arr names => exact h.bind (h.entries htyped) fun arms => h.pure _
    | _ => exact h.throw (by trivial)
  | implied name => exact htyped name
  | nothing => exact h.pure _

/-- Resolving a raw schema in two ways compares as following the references does that it contains. -/
theorem value (h : Mirrored Rel) (lib : Library) (room : Nat) (chain : List Target)
    (document : String) (follow : String → Tracking Schema) (raw : Value)
    (hfollow : ∀ r, raw.Refers r → Rel (Resolving.follow lib room chain document r) (follow r)) :
    Rel (value lib room chain document raw) (Tracking.value follow raw) := by
  unfold Resolving.value Tracking.value
  match raw with
  | .null | .bool true | .bool false => exact h.pure _
  | .str text => exact h.lift (failsLocally_ofText text)
  | .obj ms =>
    have hvalue : ∀ raw, sizeOf raw < sizeOf ms → (Value.obj ms).Contains raw →
        Rel (Resolving.value lib room chain document raw) (Tracking.value follow raw) :=
      fun raw _ hraw => h.value lib room chain document follow raw fun r hr =>
        hfollow r (hr.of_contains hraw)
    exact h.bind (h.constrained (fun r hr => hfollow r (Value.refers_of_get? hr)) hvalue)
      fun s => h.pure _
  | .int _ | .float _ | .arr _ => exact h.throw (by trivial)
termination_by sizeOf raw
decreasing_by
  simp
  omega

end Mirrored

end CapabilityFlow
