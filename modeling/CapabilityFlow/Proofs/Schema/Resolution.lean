import CapabilityFlow.Proofs.Schema.Unfolding
import Mathlib.Data.Nat.Find

/-!
# Resolving is unfolding

What is remembered of resolved references is sound in every state that a resolver can reach
(`Resolved.IsSound`), also after failures. So a schema that is resolved is an unfolding
(`Resolving.Ensures`), and an unfolding within the bound is found (`Resolving.Returns`): a chain of
references never meets its own targets on the way to one.
-/

namespace CapabilityFlow

/-- What a target stands for, with at most `n` references followed inside one another. -/
def Library.UnfoldsWithin (lib : Library) (n : Nat) (t : Target) (s : Schema) : Prop :=
  ∃ raw, lib.Holds t raw ∧ CapabilityFlow.UnfoldsWithin lib n t.document (.value raw) s

theorem Library.UnfoldsWithin.unique {lib : Library} {n m : Nat} {t : Target} {s s' : Schema}
    (h : lib.UnfoldsWithin n t s) (h' : lib.UnfoldsWithin m t s') : s = s' := by
  obtain ⟨raw, hraw, h⟩ := h
  obtain ⟨raw', hraw', h'⟩ := h'
  obtain rfl := hraw.unique hraw'
  exact h.unique h'

/-- Each remembered target stands for the schema that is remembered with it. -/
def Resolved.IsSound (lib : Library) (m : Resolved) : Prop :=
  ∀ t s, m.lookup t = some s → ∃ n, lib.UnfoldsWithin n t s

theorem Resolved.IsSound.cons {lib : Library} {m : Resolved} (hm : m.IsSound lib) {t : Target}
    {s : Schema} {n : Nat} (h : lib.UnfoldsWithin n t s) :
    Resolved.IsSound lib ((t, s) :: m) := by
  intro u v hu
  rw [List.lookup_cons] at hu
  split at hu
  · rename_i he
    cases hu
    rw [beq_iff_eq.1 he]
    exact ⟨n, h⟩
  · exact hm u v hu

namespace Resolving

variable {lib : Library} {α β : Type}

/-! ## Computations -/

theorem run_bind_of_ok {c : Resolving α} {f : α → Resolving β} {m m' : Resolved} {a : α}
    (h : c.run m = (.ok a, m')) : (c >>= f).run m = (f a).run m' := by
  rw [ExceptT.run_bind]
  simp [bind, StateT.bind, h]

theorem run_bind_of_error {c : Resolving α} {f : α → Resolving β} {m m' : Resolved}
    {e : SchemaError} (h : c.run m = (.error e, m')) : (c >>= f).run m = (.error e, m') := by
  rw [ExceptT.run_bind]
  simp only [bind, StateT.bind, h]
  rfl

theorem run_liftExcept (x : Except SchemaError α) (m : Resolved) :
    (liftExcept x : Resolving α).run m = (x, m) := by
  cases x <;> rfl

/-- A computation keeps what is remembered sound, and what it gives has a property. -/
def Ensures (lib : Library) (c : Resolving α) (P : α → Prop) : Prop :=
  ∀ m, Resolved.IsSound lib m →
    Resolved.IsSound lib (c.run m).2 ∧ ∀ a, (c.run m).1 = .ok a → P a

namespace Ensures

variable {P : α → Prop} {Q : β → Prop}

theorem pure {a : α} (h : P a) : Ensures lib (pure a) P := by
  refine fun m hm => ⟨hm, ?_⟩
  rintro b ⟨⟩
  exact h

theorem throw (e : SchemaError) : Ensures lib (throw e) P :=
  fun _ hm => ⟨hm, nofun⟩

theorem liftExcept {x : Except SchemaError α} (h : ∀ a, x = .ok a → P a) :
    Ensures lib (liftExcept x) P := by
  intro m hm
  rw [run_liftExcept]
  exact ⟨hm, h⟩

theorem bind {c : Resolving α} {f : α → Resolving β} (hc : Ensures lib c P)
    (hf : ∀ a, P a → Ensures lib (f a) Q) : Ensures lib (c >>= f) Q := by
  intro m hm
  obtain ⟨hm', ha⟩ := hc m hm
  cases h : c.run m with
  | mk r m' =>
    rw [h] at hm' ha
    cases r with
    | ok a =>
      rw [run_bind_of_ok h]
      exact hf a (ha a rfl) m' hm'
    | error e =>
      rw [run_bind_of_error h]
      exact ⟨hm', nofun⟩

end Ensures

/-- A computation gives a value, and keeps what is remembered sound. -/
def Returns (lib : Library) (c : Resolving α) (a : α) : Prop :=
  ∀ m, Resolved.IsSound lib m → Resolved.IsSound lib (c.run m).2 ∧ (c.run m).1 = .ok a

namespace Returns

theorem pure (a : α) : Returns lib (pure a) a :=
  fun _ hm => ⟨hm, rfl⟩

theorem liftExcept {x : Except SchemaError α} {a : α} (h : x = .ok a) :
    Returns lib (liftExcept x) a := by
  intro m hm
  rw [run_liftExcept]
  exact ⟨hm, h⟩

theorem bind {c : Resolving α} {f : α → Resolving β} {a : α} {b : β} (hc : Returns lib c a)
    (hf : Returns lib (f a) b) : Returns lib (c >>= f) b := by
  intro m hm
  obtain ⟨hm', ha⟩ := hc m hm
  cases h : c.run m with
  | mk r m' =>
    rw [h] at hm' ha
    obtain rfl : r = .ok a := ha
    rw [run_bind_of_ok h]
    exact hf m' hm'

end Returns

/-! ## Equations -/

/-- Resolves a part of a raw schema. -/
def part (lib : Library) (room : Nat) (chain : List Target) (document : String) :
    RawPart → Resolving Schema
  | .value raw => value lib room chain document raw
  | .members ms => constrained lib room chain document ms
  | .typed ms name => typed lib room chain document ms name

variable {room : Nat} {chain : List Target} {document : String}

/-- Resolves an entry of a list of type names. -/
def entry (lib : Library) (room : Nat) (chain : List Target) (document : String) (ms : Members) :
    Value → Resolving Schema
  | .str name => typed lib room chain document ms name
  | _ => throw (.malformed "type array must contain strings")

/-- The keyword decides how members are resolved. -/
theorem constrained_eq (lib : Library) (ms : Members) :
    constrained lib room chain document ms =
      match Keyword.of ms with
      | .reference (.str r) => follow lib room chain document r
      | .reference _ => throw (.malformed "$ref must be a string")
      | .alternatives arms => do
        pure (.union (← composition lib room chain document arms))
      | .all arms => do
        liftExcept (mergeAll (← composition lib room chain document arms))
      | .const v => pure (.ofValue v)
      | .enum v => liftExcept (ofEnum v)
      | .type (.str name) => typed lib room chain document ms name
      | .type (.arr names) => do
        pure (.union (← names.mapM (entry lib room chain document ms)))
      | .type other => throw (.malformed ("type must be a string or array, found " ++ other.toJson))
      | .implied name => typed lib room chain document ms name
      | .nothing => pure .any := by
  unfold constrained Keyword.of
  cases hr : Table.get? ms "$ref" with
  | some v => cases v <;> rfl
  | none =>
    simp only
    split
    · rename_i arms h
      rw [h]
    · rename_i h
      rw [h]
      simp only
      split
      · rename_i arms ha
        rw [ha]
      · rename_i ha
        rw [ha]
        cases hc : Table.get? ms "const" with
        | some v => rfl
        | none =>
          cases he : Table.get? ms "enum" with
          | some v => rfl
          | none =>
            cases ht : Table.get? ms "type" with
            | some v => cases v <;> rfl
            | none =>
              by_cases hp : Table.has ms "properties" = true
              · simp [hp]
              · by_cases hi : Table.has ms "items" = true <;> simp [hp, hi]

theorem typed_object_eq (lib : Library) (ms : Members) :
    typed lib room chain document ms "object" =
      match properties ms with
      | .ok ps => do
        let required ← liftExcept (requiredNames ms)
        let fields ← fields lib room chain document ps
        pure (.object fields required (isOpenObject ms ps))
      | .error e => throw e := by
  unfold typed
  rw [if_pos rfl]
  split <;> rename_i h <;> simp only [h]

theorem typed_array_eq (lib : Library) (ms : Members) :
    typed lib room chain document ms "array" =
      match Table.get? ms "items" with
      | some items => do pure (.array (← value lib room chain document items))
      | none => pure (.array .unknown) := by
  unfold typed
  rw [if_neg (by decide), if_pos rfl]
  split <;> rename_i h <;> simp only [h]

theorem typed_eq_of_ne (lib : Library) (ms : Members) {name : String} (hobject : name ≠ "object")
    (harray : name ≠ "array") : typed lib room chain document ms name =
      match TypeText.named? name with
      | some s => pure s
      | none => throw (.invalidType name "not a schema type") := by
  unfold typed
  exact (if_neg hobject).trans (if_neg harray)

/-- A reference is looked up first; then its target is resolved, unless it is in the chain. -/
theorem run_follow (lib : Library) {r : String} {t : Target}
    (ht : Target.ofReference document r = t) (m : Resolved) :
    (follow lib room chain document r).run m =
      match m.lookup t with
      | some s => (.ok s, m)
      | none =>
        if chain.contains t then (.error (.cycle (chain.dropWhile (· != t) ++ [t])), m)
        else
          match room with
          | 0 => (.error (.depthExceeded r lib.maxDepth), m)
          | room + 1 => ExceptT.run (do
            let raw ← liftExcept (lib.find t r)
            let s ← value lib room (chain ++ [t]) t.document raw
            modify ((t, s) :: ·)
            pure s) m := by
  have hget : (get : Resolving Resolved).run m = (.ok m, m) := rfl
  unfold follow
  simp only [ht]
  rw [run_bind_of_ok hget]
  cases m.lookup t with
  | some s => rfl
  | none =>
    by_cases hc : chain.contains t = true
    · rw [if_pos hc]
      simp only [hc]
      rfl
    · rw [if_neg hc]
      simp only [hc]
      cases room <;> rfl

/-! ## Sizes -/

theorem get?_of_keyword {ms : Members} {v : Value}
    (h : Keyword.of ms = .alternatives v ∨ Keyword.of ms = .all v) :
    ∃ name, Table.get? ms name = some v := by
  unfold Keyword.of at h
  split at h
  · simp at h
  split at h
  · rename_i harms
    simp only [Keyword.alternatives.injEq, reduceCtorEq, or_false] at h
    rcases Option.or_eq_some_iff.1 harms with harms | ⟨-, harms⟩
    · exact ⟨_, h ▸ harms⟩
    · exact ⟨_, h ▸ harms⟩
  split at h
  · rename_i harms
    simp only [reduceCtorEq, Keyword.all.injEq, false_or] at h
    exact ⟨_, h ▸ harms⟩
  · repeat' split at h
    all_goals simp at h

theorem sizeOf_lt_of_keyword {ms : Members} {items : List Value}
    (h : Keyword.of ms = .alternatives (.arr items) ∨ Keyword.of ms = .all (.arr items))
    {raw : Value} (hraw : raw ∈ items) : sizeOf raw < sizeOf ms := by
  obtain ⟨name, hname⟩ := get?_of_keyword h
  have hitem := List.sizeOf_lt_of_mem hraw
  have harr := Table.sizeOf_get?_lt hname
  simp at harr
  omega

/-! ## What is resolved is unfolded -/

theorem list_ensures {items : List Value}
    (h : ∀ raw ∈ items, Ensures lib (value lib room chain document raw)
      (Unfolds lib document (.value raw))) :
    Ensures lib (list lib room chain document items) fun arms =>
      arms.length = items.length ∧ ∀ p ∈ items.zip arms, Unfolds lib document (.value p.1) p.2 := by
  induction items with
  | nil =>
    unfold list
    exact .pure ⟨rfl, nofun⟩
  | cons raw rest ih =>
    unfold list
    refine .bind (h raw List.mem_cons_self) fun s hs => ?_
    refine .bind (ih fun v hv => h v (List.mem_cons_of_mem raw hv)) fun more hmore => ?_
    obtain ⟨hlength, hmore⟩ := hmore
    refine .pure ⟨congrArg (· + 1) hlength, fun p hp => ?_⟩
    rcases List.mem_cons.1 hp with rfl | hp
    · exact hs
    · exact hmore p hp

theorem composition_ensures {arms : Value}
    (h : ∀ items, arms = .arr items → ∀ raw ∈ items, Ensures lib
      (value lib room chain document raw) (Unfolds lib document (.value raw))) :
    Ensures lib (composition lib room chain document arms) fun schemas =>
      ∃ items, arms = .arr items ∧ schemas.length = items.length ∧
        ∀ p ∈ items.zip schemas, Unfolds lib document (.value p.1) p.2 := by
  unfold composition
  split
  · rename_i items
    intro m hm
    obtain ⟨hm', ha⟩ := list_ensures (h items rfl) m hm
    exact ⟨hm', fun schemas hs => ⟨items, rfl, ha schemas hs⟩⟩
  · exact .throw _

theorem fields_ensures {ps : List (String × Value)}
    (h : ∀ p ∈ ps, Ensures lib (value lib room chain document p.2)
      (Unfolds lib document (.value p.2))) :
    Ensures lib (fields lib room chain document ps) fun fields =>
      ∃ types : List Schema, fields = (Table.names ps).zip types ∧ types.length = ps.length ∧
        ∀ p ∈ ps.zip types, Unfolds lib document (.value p.1.2) p.2 := by
  induction ps with
  | nil =>
    unfold fields
    exact .pure ⟨[], rfl, rfl, nofun⟩
  | cons p rest ih =>
    obtain ⟨name, raw⟩ := p
    unfold fields
    refine .bind (h (name, raw) List.mem_cons_self) fun s hs => ?_
    refine .bind (ih fun q hq => h q (List.mem_cons_of_mem _ hq)) fun more hmore => ?_
    obtain ⟨types, rfl, hlength, htypes⟩ := hmore
    refine .pure ⟨s :: types, rfl, congrArg (· + 1) hlength, fun p hp => ?_⟩
    rcases List.mem_cons.1 hp with rfl | hp
    · exact hs
    · exact htypes p hp

theorem typed_ensures {ms : Members} {name : String}
    (h : ∀ raw, sizeOf raw < sizeOf ms → Ensures lib (value lib room chain document raw)
      (Unfolds lib document (.value raw))) :
    Ensures lib (typed lib room chain document ms name) (Unfolds lib document (.typed ms name)) := by
  by_cases hobject : name = "object"
  · rw [hobject, typed_object_eq]
    split
    · rename_i ps hps
      refine .bind (.liftExcept fun required hr => hr) fun required hrequired => ?_
      have hsize : ∀ p ∈ ps, sizeOf p.2 < sizeOf ms := fun p hp =>
        Nat.lt_of_lt_of_le (Table.sizeOf_lt_of_mem hp) (sizeOf_properties_lt hps)
      refine .bind (fields_ensures fun p hp => h p.2 (hsize p hp)) fun fields hfields => ?_
      obtain ⟨types, rfl, hlength, htypes⟩ := hfields
      obtain ⟨n, hn⟩ := UnfoldsWithin.exists_forall (f := fun p : String × Value => .value p.2) htypes
      exact .pure ⟨n, .record rfl hps hrequired hlength hn⟩
    · exact .throw _
  by_cases harray : name = "array"
  · rw [harray, typed_array_eq]
    split
    · rename_i items hitems
      refine .bind (h items (Table.sizeOf_get?_lt hitems)) fun s hs => ?_
      obtain ⟨n, hn⟩ := hs
      exact .pure ⟨n, .array rfl hitems hn⟩
    · rename_i hitems
      exact .pure ⟨0, .bareArray rfl hitems⟩
  · rw [typed_eq_of_ne lib ms hobject harray]
    split
    · rename_i s hs
      exact .pure ⟨0, .named hobject harray hs⟩
    · exact .throw _

theorem entries_ensures {ms : Members} {names : List Value}
    (h : ∀ name, Ensures lib (typed lib room chain document ms name)
      (Unfolds lib document (.typed ms name))) :
    Ensures lib (names.mapM (entry lib room chain document ms)) fun arms =>
      ∃ texts : List String, names = texts.map .str ∧ arms.length = texts.length ∧
        ∀ p ∈ texts.zip arms, Unfolds lib document (.typed ms p.1) p.2 := by
  induction names with
  | nil => exact .pure ⟨[], rfl, rfl, nofun⟩
  | cons v rest ih =>
    rw [List.mapM_cons]
    have hentry : Ensures lib (entry lib room chain document ms v) fun s =>
        ∃ text, v = .str text ∧ Unfolds lib document (.typed ms text) s := by
      unfold entry
      split
      · rename_i text
        intro m hm
        obtain ⟨hm', hs⟩ := h text m hm
        exact ⟨hm', fun s hr => ⟨text, rfl, hs s hr⟩⟩
      · exact .throw _
    refine .bind hentry fun s hs => .bind ih fun more hmore => ?_
    obtain ⟨text, rfl, hs⟩ := hs
    obtain ⟨texts, rfl, hlength, hmore⟩ := hmore
    refine .pure ⟨text :: texts, rfl, congrArg (· + 1) hlength, fun p hp => ?_⟩
    rcases List.mem_cons.1 hp with rfl | hp
    · exact hs
    · exact hmore p hp

theorem constrained_ensures {ms : Members}
    (hfollow : ∀ r, Ensures lib (follow lib room chain document r) fun s =>
      ∃ n, lib.UnfoldsWithin n (.ofReference document r) s)
    (h : ∀ raw, sizeOf raw < sizeOf ms → Ensures lib (value lib room chain document raw)
      (Unfolds lib document (.value raw))) :
    Ensures lib (constrained lib room chain document ms) (Unfolds lib document (.members ms)) := by
  have htyped : ∀ name, Ensures lib (typed lib room chain document ms name)
      (Unfolds lib document (.typed ms name)) := fun name => typed_ensures h
  rw [constrained_eq]
  split
  · rename_i r hk
    intro m hm
    obtain ⟨hm', hs⟩ := hfollow r m hm
    refine ⟨hm', fun s hr => ?_⟩
    obtain ⟨n, raw, hraw, hn⟩ := hs s hr
    exact ⟨n + 1, .reference hk hraw hn⟩
  · exact .throw _
  · rename_i v hk
    refine .bind (composition_ensures fun items hv raw hraw => h raw ?_) fun arms harms => ?_
    · exact sizeOf_lt_of_keyword (.inl (hv ▸ hk)) hraw
    · obtain ⟨items, rfl, hlength, harms⟩ := harms
      obtain ⟨n, hn⟩ := UnfoldsWithin.exists_forall (f := .value) harms
      exact .pure ⟨n, .alternatives hk hlength hn⟩
  · rename_i v hk
    refine .bind (composition_ensures fun items hv raw hraw => h raw ?_) fun arms harms => ?_
    · exact sizeOf_lt_of_keyword (.inr (hv ▸ hk)) hraw
    · obtain ⟨items, rfl, hlength, harms⟩ := harms
      obtain ⟨n, hn⟩ := UnfoldsWithin.exists_forall (f := .value) harms
      exact .liftExcept fun s hs => ⟨n, .all hk hlength hn hs⟩
  · rename_i v hk
    exact .pure ⟨0, .const hk⟩
  · rename_i v hk
    exact .liftExcept fun s hs => ⟨0, .enum hk hs⟩
  · rename_i name hk
    intro m hm
    obtain ⟨hm', hs⟩ := htyped name m hm
    refine ⟨hm', fun s hr => ?_⟩
    obtain ⟨n, hn⟩ := hs s hr
    exact ⟨n, .type hk hn⟩
  · rename_i names hk
    refine .bind (entries_ensures htyped) fun arms harms => ?_
    obtain ⟨texts, rfl, hlength, harms⟩ := harms
    obtain ⟨n, hn⟩ := UnfoldsWithin.exists_forall (f := .typed ms) harms
    exact .pure ⟨n, .types hk hlength hn⟩
  · exact .throw _
  · rename_i name hk
    intro m hm
    obtain ⟨hm', hs⟩ := htyped name m hm
    refine ⟨hm', fun s hr => ?_⟩
    obtain ⟨n, hn⟩ := hs s hr
    exact ⟨n, .implied hk hn⟩
  · rename_i hk
    exact .pure ⟨0, .nothing hk⟩

theorem follow_ensures {r : String}
    (h : ∀ room', room = room' + 1 → ∀ chain document raw,
      Ensures lib (value lib room' chain document raw) (Unfolds lib document (.value raw))) :
    Ensures lib (follow lib room chain document r) fun s =>
      ∃ n, lib.UnfoldsWithin n (.ofReference document r) s := by
  intro m hm
  generalize ht : Target.ofReference document r = t
  rw [run_follow lib ht m]
  split
  · rename_i s hs
    refine ⟨hm, ?_⟩
    rintro _ ⟨⟩
    exact hm t s hs
  split
  · exact ⟨hm, fun s hs => by cases hs⟩
  split
  · exact ⟨hm, fun s hs => by cases hs⟩
  · rename_i room
    refine Ensures.bind (P := fun raw => lib.Holds t raw)
      (.liftExcept fun raw hraw => Library.find_eq_ok_iff.1 hraw) (fun raw hraw => ?_) m hm
    refine .bind (h room rfl (chain ++ [t]) t.document raw) fun s hs => ?_
    obtain ⟨n, hn⟩ := hs
    intro m hm
    refine ⟨hm.cons ⟨raw, hraw, hn⟩, ?_⟩
    rintro _ ⟨⟩
    exact ⟨n, raw, hraw, hn⟩

/-- What a raw schema is resolved to is what it stands for, and what is remembered stays sound. -/
theorem value_ensures (lib : Library) (room : Nat) (chain : List Target) (document : String)
    (raw : Value) : Ensures lib (value lib room chain document raw)
      (Unfolds lib document (.value raw)) := by
  unfold value
  match raw with
  | .null => exact .pure ⟨0, .null⟩
  | .bool true => exact .pure ⟨0, .true⟩
  | .bool false => exact .pure ⟨0, .false⟩
  | .str text => exact .liftExcept fun s hs => ⟨0, .text hs⟩
  | .obj ms =>
    have hfollow : ∀ r, Ensures lib (follow lib room chain document r) fun s =>
        ∃ n, lib.UnfoldsWithin n (.ofReference document r) s := fun r =>
      follow_ensures fun room' _ chain document raw => value_ensures lib room' chain document raw
    refine .bind (constrained_ensures hfollow fun raw _ =>
      value_ensures lib room chain document raw) fun s hs => ?_
    obtain ⟨n, hn⟩ := hs
    exact .pure ⟨n, .object hn⟩
  | .int _ | .float _ | .arr _ => exact .throw _
termination_by (room, sizeOf raw)
decreasing_by
  · subst room
    exact .left _ _ (Nat.lt_succ_self _)
  · refine .right _ ?_
    simp
    omega

/-! ## What unfolds is resolved -/

theorem list_returns {items : List Value} {arms : List Schema} (hlength : arms.length = items.length)
    (h : ∀ p ∈ items.zip arms, Returns lib (value lib room chain document p.1) p.2) :
    Returns lib (list lib room chain document items) arms := by
  induction items generalizing arms with
  | nil =>
    rw [List.length_eq_zero_iff.1 hlength]
    unfold list
    exact .pure []
  | cons raw rest ih =>
    obtain ⟨s, more, rfl⟩ := List.exists_cons_of_length_eq_add_one hlength
    unfold list
    refine .bind (h (raw, s) List.mem_cons_self) (.bind (ih (Nat.succ.inj hlength) ?_) (.pure _))
    exact fun p hp => h p (List.mem_cons_of_mem _ hp)

theorem fields_returns {ps : List (String × Value)} {types : List Schema}
    (hlength : types.length = ps.length)
    (h : ∀ p ∈ ps.zip types, Returns lib (value lib room chain document p.1.2) p.2) :
    Returns lib (fields lib room chain document ps) ((Table.names ps).zip types) := by
  induction ps generalizing types with
  | nil =>
    unfold fields
    exact .pure []
  | cons p rest ih =>
    obtain ⟨s, more, rfl⟩ := List.exists_cons_of_length_eq_add_one hlength
    obtain ⟨name, raw⟩ := p
    unfold fields
    refine .bind (h ((name, raw), s) List.mem_cons_self)
      (.bind (ih (Nat.succ.inj hlength) ?_) (.pure _))
    exact fun p hp => h p (List.mem_cons_of_mem _ hp)

theorem entries_returns {ms : Members} {names : List String} {arms : List Schema}
    (hlength : arms.length = names.length)
    (h : ∀ p ∈ names.zip arms, Returns lib (typed lib room chain document ms p.1) p.2) :
    Returns lib ((names.map .str).mapM (entry lib room chain document ms)) arms := by
  induction names generalizing arms with
  | nil =>
    rw [List.length_eq_zero_iff.1 hlength]
    exact .pure []
  | cons name rest ih =>
    obtain ⟨s, more, rfl⟩ := List.exists_cons_of_length_eq_add_one hlength
    rw [List.map_cons, List.mapM_cons]
    refine .bind (h (name, s) List.mem_cons_self) (.bind (ih (Nat.succ.inj hlength) ?_) (.pure _))
    exact fun p hp => h p (List.mem_cons_of_mem _ hp)

/-- No target of a chain stands for something with fewer than `n` references inside one another. So
none of them is met on the way to what stands within fewer. -/
def IsClear (lib : Library) (chain : List Target) (n : Nat) : Prop :=
  ∀ t ∈ chain, ∀ k s, lib.UnfoldsWithin k t s → n ≤ k

theorem isClear_nil (lib : Library) (n : Nat) : IsClear lib [] n :=
  fun _ ht => absurd ht List.not_mem_nil

/-- A target is followed to its least unfolding, which has no way back to the target. -/
theorem follow_returns {n : Nat} {r : String} {s : Schema}
    (h : lib.UnfoldsWithin n (.ofReference document r) s) (hroom : n + 1 ≤ room)
    (hclear : IsClear lib chain (n + 1))
    (ih : ∀ k ≤ n, ∀ {document raw s room chain},
      UnfoldsWithin lib k document (.value raw) s → k ≤ room → IsClear lib chain k →
        Returns lib (value lib room chain document raw) s) :
    Returns lib (follow lib room chain document r) s := by
  classical
  intro m hm
  generalize ht : Target.ofReference document r = t at h
  rw [run_follow lib ht m]
  cases hl : m.lookup t with
  | some s' =>
    obtain ⟨n', hn'⟩ := hm t s' hl
    rw [h.unique hn']
    exact ⟨hm, rfl⟩
  | none =>
    have hchain : t ∉ chain := fun hmem => Nat.not_succ_le_self n (hclear t hmem n s h)
    obtain ⟨room, rfl⟩ := Nat.exists_eq_succ_of_ne_zero (Nat.ne_zero_of_lt hroom)
    simp only [List.contains_iff_mem, hchain, if_false]
    have hex : ∃ k, ∃ s, lib.UnfoldsWithin k t s := ⟨n, s, h⟩
    have hle : Nat.find hex ≤ n := Nat.find_min' hex ⟨s, h⟩
    obtain ⟨s', hs'⟩ := Nat.find_spec hex
    obtain rfl := h.unique hs'
    have hleast := hs'
    obtain ⟨raw, hraw, hs'⟩ := hs'
    have hclear' : IsClear lib (chain ++ [t]) (Nat.find hex) := by
      intro u hu k v hv
      rcases List.mem_append.1 hu with hu | hu
      · have := hclear u hu k v hv
        omega
      · obtain rfl := List.mem_singleton.1 hu
        exact Nat.find_min' hex ⟨v, hv⟩
    refine Returns.bind (.liftExcept (Library.find_eq_ok_iff.2 hraw)) (.bind
      (ih _ hle hs' (by omega) hclear') ?_) m hm
    exact fun m hm => ⟨hm.cons hleast, rfl⟩

/-- What stands for a schema within the room is resolved to it: by induction on the bound, and for
one bound on the unfolding. -/
theorem part_returns {n : Nat} {document : String} {p : RawPart} {s : Schema}
    (h : UnfoldsWithin lib n document p s) {room : Nat} {chain : List Target} (hroom : n ≤ room)
    (hclear : IsClear lib chain n) : Returns lib (part lib room chain document p) s := by
  induction n using Nat.strongRecOn generalizing document p s room chain with
  | ind n ihn =>
    induction h with
    | null =>
      simp only [part, value]
      exact .pure _
    | true =>
      simp only [part, value]
      exact .pure _
    | false =>
      simp only [part, value]
      exact .pure _
    | text hs =>
      simp only [part, value]
      exact .liftExcept hs
    | object _ ih =>
      simp only [part, value]
      exact .bind (ih ihn hroom hclear) (.pure _)
    | reference hk hraw hs =>
      simp only [part, constrained_eq, hk]
      refine follow_returns ⟨_, hraw, hs⟩ hroom hclear ?_
      intro k hk document raw s room chain h hroom hclear
      exact ihn k (Nat.lt_succ_of_le hk) h hroom hclear
    | alternatives hk hlength _ ih =>
      simp only [part, constrained_eq, hk]
      unfold composition
      exact .bind (list_returns hlength fun p hp => ih p hp ihn hroom hclear) (.pure _)
    | all hk hlength _ hs ih =>
      simp only [part, constrained_eq, hk]
      unfold composition
      exact .bind (list_returns hlength fun p hp => ih p hp ihn hroom hclear) (.liftExcept hs)
    | const hk =>
      simp only [part, constrained_eq, hk]
      exact .pure _
    | enum hk hs =>
      simp only [part, constrained_eq, hk]
      exact .liftExcept hs
    | type hk _ ih =>
      simp only [part, constrained_eq, hk]
      exact ih ihn hroom hclear
    | types hk hlength _ ih =>
      simp only [part, constrained_eq, hk]
      exact .bind (entries_returns hlength fun p hp => ih p hp ihn hroom hclear) (.pure _)
    | implied hk _ ih =>
      simp only [part, constrained_eq, hk]
      exact ih ihn hroom hclear
    | nothing hk =>
      simp only [part, constrained_eq, hk]
      exact .pure _
    | record hname hps hrequired hlength _ ih =>
      simp only [part, hname, typed_object_eq, hps]
      exact .bind (.liftExcept hrequired)
        (.bind (fields_returns hlength fun p hp => ih p hp ihn hroom hclear) (.pure _))
    | array hname hitems _ ih =>
      simp only [part, hname, typed_array_eq, hitems]
      exact .bind (ih ihn hroom hclear) (.pure _)
    | bareArray hname hitems =>
      simp only [part, hname, typed_array_eq, hitems]
      exact .pure _
    | named hobject harray hs =>
      simp only [part, typed_eq_of_ne lib _ hobject harray, hs]
      exact .pure _

end Resolving

/-! ## Resolvers -/

/-- What a resolver can be asked for. -/
inductive ResolverCall where
  | resolve (raw : Value)
  | follow (reference : String)

namespace Resolver

/-- The resolver after a call, whatever its result. -/
def after (r : Resolver) : ResolverCall → Resolver
  | .resolve raw => (r.resolve raw).2
  | .follow reference => (r.resolveReference reference).2

/-- What a resolver has remembered is sound for its library. -/
def IsSound (r : Resolver) : Prop :=
  Resolved.IsSound r.library r.resolved

theorem isSound_ofLibrary (lib : Library) : (ofLibrary lib).IsSound :=
  fun _ _ h => by cases h

theorem library_after (r : Resolver) (call : ResolverCall) : (r.after call).library = r.library := by
  cases call <;> rfl

theorem IsSound.after {r : Resolver} (h : r.IsSound) (call : ResolverCall) :
    (r.after call).IsSound := by
  cases call with
  | resolve raw => exact (Resolving.value_ensures r.library _ _ _ raw r.resolved h).1
  | follow reference =>
    exact (Resolving.follow_ensures (fun room _ chain document raw =>
      Resolving.value_ensures r.library room chain document raw) r.resolved h).1

/-- The resolver after calls in turn, failed ones included. -/
def afterAll (r : Resolver) (calls : List ResolverCall) : Resolver :=
  calls.foldl after r

theorem library_afterAll (r : Resolver) (calls : List ResolverCall) :
    (r.afterAll calls).library = r.library := by
  induction calls generalizing r with
  | nil => rfl
  | cons call calls ih => exact (ih (r.after call)).trans (r.library_after call)

theorem IsSound.afterAll {r : Resolver} (h : r.IsSound) (calls : List ResolverCall) :
    (r.afterAll calls).IsSound := by
  induction calls generalizing r with
  | nil => exact h
  | cons call calls ih => exact ih (h.after call)

/-- In every state that calls can lead to, a schema resolves only to what it stands for, and it does
so when it stands for something with no more references inside one another than are allowed. -/
theorem resolve_afterAll (lib : Library) (calls : List ResolverCall) (raw : Value) (s : Schema) :
    ((((ofLibrary lib).afterAll calls).resolve raw).1 = .ok s →
      Unfolds lib Library.rootName (.value raw) s) ∧
    (UnfoldsWithin lib lib.maxDepth Library.rootName (.value raw) s →
      (((ofLibrary lib).afterAll calls).resolve raw).1 = .ok s) := by
  have hsound := (isSound_ofLibrary lib).afterAll calls
  have hlib := library_afterAll (ofLibrary lib) calls
  generalize (ofLibrary lib).afterAll calls = r at hsound hlib
  obtain rfl : r.library = lib := hlib
  constructor
  · intro h
    exact (Resolving.value_ensures r.library _ [] _ raw r.resolved hsound).2 s h
  · intro h
    exact (Resolving.part_returns h (Nat.le_refl _) (Resolving.isClear_nil _ _) r.resolved hsound).2

end Resolver

end CapabilityFlow
