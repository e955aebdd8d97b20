import CapabilityFlow.Proofs.Schema.Merging
import CapabilityFlow.Proofs.Schema.Remembering

/-!
# The order of the arms of an `allOf`

Arms are resolved one after the other, and each finds remembered what the earlier ones have followed.
That does not change what it is resolved to (`Resolving.value_advances`), whatever the resolver has
remembered before: what is remembered since was resolved with that (`Resolved.Grounds`). So the
arms are merged that each of them is resolved to alone (`Resolver.allOf_eq_mergeAll`), and their
order decides about the schemas of the fields that they share (`Resolver.allOf_perm`).
-/

namespace CapabilityFlow

/-- What is remembered apart from a base was resolved with what was remembered before it. -/
inductive Resolved.Grounds (lib : Library) (base : Resolved) : Resolved → Prop
  | base : Grounds lib base base
  | cons {m : Resolved} {t : Target} {s : Schema} {raw : Value} (hm : Grounds lib base m)
      (hsub : m.Sub ((t, s) :: m)) (hraw : lib.Holds t raw)
      (hs : (Resolving.value lib 0 [] t.document raw).run m = (.ok s, m)) :
      Grounds lib base ((t, s) :: m)

namespace Resolving

variable {lib : Library} {base m m' m₀ m₁ : Resolved} {room : Nat} {chain : List Target}
  {document : String} {α : Type}

/-! ## Resolving again what is remembered elsewhere -/

/-- Where the second computation finds everything in `m₀`, the first gives nothing else and remembers
nothing that is not in `m'`. -/
def Recalls (base m' m₀ : Resolved) (c c' : Resolving α) : Prop :=
  ∃ r, c'.run m₀ = (r, m₀) ∧ ∀ a, r = .ok a → ∀ m, base.Sub m → m.Sub m' →
    ∀ b m₁, c.run m = (.ok b, m₁) → b = a ∧ base.Sub m₁ ∧ m₁.Sub m'

theorem compatible_recalls (base m' m₀ : Resolved) : Compatible (Recalls base m' m₀) where
  lift x := by
    refine ⟨x, run_liftExcept x m₀, fun a hx m hbase hm b m₁ hrun => ?_⟩
    rw [run_liftExcept, hx] at hrun
    cases hrun
    exact ⟨rfl, hbase, hm⟩
  bind {_ _ c c' f f'} hc hf := by
    obtain ⟨r, hr, hc⟩ := hc
    cases r with
    | error e => exact ⟨.error e, run_bind_of_error hr, nofun⟩
    | ok a =>
      obtain ⟨r', hr', hf⟩ := hf a
      refine ⟨r', (run_bind_of_ok hr).trans hr', fun b hb m hbase hm d m₂ hrun => ?_⟩
      obtain ⟨a', m₁, hrun₁, hrun₂⟩ := of_run_bind_eq_ok hrun
      obtain ⟨rfl, hbase₁, hm₁⟩ := hc a rfl m hbase hm a' m₁ hrun₁
      exact hf b hb m₁ hbase₁ hm₁ d m₂ hrun₂

/-- A target that is remembered elsewhere is resolved to the same schema, if it is resolved. -/
theorem follow_recalls (hm₀ : base.Grounds lib m₀) (hsub : m₀.Sub m') (room : Nat)
    (chain : List Target) (document r : String) :
    Recalls base m' m₀ (follow lib room chain document r) (follow lib 0 [] document r) := by
  generalize hu : Target.ofReference document r = u
  induction hm₀ generalizing room chain document r u with
  | base =>
    cases hl : base.lookup u with
    | none => exact ⟨_, run_follow_zero lib hu hl List.not_mem_nil, nofun⟩
    | some s =>
      refine ⟨.ok s, run_follow_of_lookup lib hu hl, ?_⟩
      rintro _ ⟨⟩ m hbase hm b m₁ hrun
      rw [run_follow_of_lookup lib hu (hbase u s hl)] at hrun
      cases hrun
      exact ⟨rfl, hbase, hm⟩
  | @cons m₀ t s raw hm₀ hextends hraw hs ih =>
    have hsub₀ : m₀.Sub m' := hextends.trans hsub
    by_cases hut : u = t
    -- the target that was remembered last only needs those before it
    · subst hut
      have hlast : List.lookup u ((u, s) :: m₀) = some s := List.lookup_cons_self
      refine ⟨.ok s, run_follow_of_lookup lib hu hlast, ?_⟩
      rintro _ ⟨⟩ m hbase hm b m₁ hrun
      have hcases := follows lib room chain hu m
      rw [hrun] at hcases
      cases hcases with
      | remembered hl =>
        exact ⟨Option.some.inj ((hm u b hl).symm.trans (hsub u s hlast)), hbase, hm⟩
      | @resolved k raw' _ m₂ hl hchain hfind hv =>
        obtain rfl := (Library.find_eq_ok_iff.1 hfind).unique hraw
        obtain ⟨_, hr, hvalue⟩ := (compatible_recalls base m' m₀).value lib lib k 0 (chain ++ [u]) []
          u.document (fun r => ih hsub₀ k (chain ++ [u]) u.document r _ rfl) raw'
        cases hs.symm.trans hr
        obtain ⟨rfl, hbase₂, hm₂⟩ := hvalue s rfl m hbase hm b m₂ hv
        exact ⟨rfl, hbase₂.cons_of_none (hbase.lookup_eq_none hl), hm₂.cons_left (hsub u b hlast)⟩
    · have hlookup : List.lookup u ((t, s) :: m₀) = m₀.lookup u := by
        rw [List.lookup_cons, beq_eq_false_iff_ne.2 hut]
      cases hl : m₀.lookup u with
      | none => exact ⟨_, run_follow_zero lib hu (hlookup.trans hl) List.not_mem_nil, nofun⟩
      | some s' =>
        obtain ⟨_, hr, hfollow⟩ := ih hsub₀ room chain document r u hu
        cases (run_follow_of_lookup lib hu hl).symm.trans hr
        exact ⟨.ok s', run_follow_of_lookup lib hu (hlookup.trans hl), hfollow⟩

theorem eq_of_run_follow_of_lookup (hm' : base.Grounds lib m') {r : String} {t : Target}
    (ht : Target.ofReference document r = t) {s s' : Schema} (hl : m'.lookup t = some s')
    (hbase : base.Sub m) (hm : m.Sub m')
    (hrun : (follow lib room chain document r).run m = (.ok s, m₁)) :
    s = s' ∧ base.Sub m₁ ∧ m₁.Sub m' := by
  obtain ⟨_, hr, h⟩ := follow_recalls hm' (.refl m') room chain document r
  cases (run_follow_of_lookup lib ht hl).symm.trans hr
  exact h s' rfl m hbase hm s m₁ hrun

/-! ## Resolving with more remembered -/

/-- A computation that ends well does so with more remembered, and gives the same. -/
def Advances (lib : Library) (base : Resolved) (c : Resolving α) : Prop :=
  ∀ m m', base.Sub m → m.Sub m' → base.Grounds lib m' → ∀ a m₁, c.run m = (.ok a, m₁) →
    base.Sub m₁ ∧ ∃ m₁', c.run m' = (.ok a, m₁') ∧ m₁.Sub m₁' ∧ base.Grounds lib m₁'

theorem compatible_advances (lib : Library) (base : Resolved) :
    Compatible fun c _ => Advances lib base c where
  lift x := by
    intro m m' hbase hm hm' a m₁ hrun
    rw [run_liftExcept] at hrun
    cases hrun
    exact ⟨hbase, m', run_liftExcept _ m', hm, hm'⟩
  bind hc hf := by
    intro m m' hbase hm hm' b m₂ hrun
    obtain ⟨a, m₁, hrun₁, hrun₂⟩ := of_run_bind_eq_ok hrun
    obtain ⟨hbase₁, m₁', hrun₁', hm₁, hm₁'⟩ := hc m m' hbase hm hm' a m₁ hrun₁
    obtain ⟨hbase₂, m₂', hrun₂', hm₂⟩ := hf a m₁ m₁' hbase₁ hm₁ hm₁' b m₂ hrun₂
    exact ⟨hbase₂, m₂', (run_bind_of_ok hrun₁').trans hrun₂', hm₂⟩

theorem follow_advances (lib : Library) (base : Resolved) (room : Nat) (chain : List Target)
    (document r : String) : Advances lib base (follow lib room chain document r) := by
  intro m m' hbase hm hm' s m₁ hrun
  generalize ht : Target.ofReference document r = t
  cases hl' : m'.lookup t with
  | some s' =>
    obtain ⟨rfl, hbase₁, hm₁⟩ := eq_of_run_follow_of_lookup hm' ht hl' hbase hm hrun
    exact ⟨hbase₁, m', run_follow_of_lookup lib ht hl', hm₁, hm'⟩
  | none =>
    have hcases := follows lib room chain ht m
    rw [hrun] at hcases
    cases hcases with
    | remembered hl => cases (hm t s hl).symm.trans hl'
    | @resolved k raw _ m₂ hl hchain hfind hv =>
      have hvalue : Advances lib base (value lib k (chain ++ [t]) t.document raw) :=
        (compatible_advances lib base).value lib lib k k (chain ++ [t]) (chain ++ [t]) t.document
          (follow_advances lib base k (chain ++ [t]) t.document) raw
      obtain ⟨hbase₂, m₂', hv', hm₂, hm₂'⟩ := hvalue m m' hbase hm hm' s m₂ hv
      have hrun' := run_follow_of_ok ht hl' hchain hfind hv'
      have hreplay : (value lib 0 [] t.document raw).run m₂' = (.ok s, m₂') :=
        (value_replays lib lib k 0 (chain ++ [t]) [] t.document raw m' s m₂' hv').2 m₂' (.refl m₂')
      -- on the way to its schema the target may have been remembered already, with the same schema
      have hextends : m₂'.Sub ((t, s) :: m₂') := by
        cases hl₂ : m₂'.lookup t with
        | none => exact .cons_of_none (.refl m₂') hl₂
        | some s' =>
          have hsub : m.Sub m₂' :=
            (value_replays lib lib k k (chain ++ [t]) (chain ++ [t]) t.document raw m s m₂ hv).1.trans hm₂
          obtain ⟨rfl, -⟩ := eq_of_run_follow_of_lookup hm₂' ht hl₂ hbase hsub hrun
          exact .cons_of_some hl₂
      exact ⟨hbase₂.cons_of_none (hbase.lookup_eq_none hl), (t, s) :: m₂', hrun', hm₂.cons,
        hm₂'.cons hextends (Library.find_eq_ok_iff.1 hfind) hreplay⟩
termination_by room

/-- A raw schema that is resolved is resolved to the same with more remembered. -/
theorem value_advances (lib : Library) (base : Resolved) (room : Nat) (chain : List Target)
    (document : String) (raw : Value) : Advances lib base (value lib room chain document raw) :=
  (compatible_advances lib base).value lib lib room room chain chain document
    (follow_advances lib base room chain document) raw

/-- Raw schemas that are resolved each on its own are resolved to the same one after the other. -/
theorem run_list_of_forall {items : List Value} {schemaOf : Value → Schema}
    (h : ∀ raw ∈ items, ((value lib room chain document raw).run base).1 = .ok (schemaOf raw))
    (hbase : base.Sub m) (hm : base.Grounds lib m) :
    ((list lib room chain document items).run m).1 = .ok (items.map schemaOf) := by
  induction items generalizing m with
  | nil =>
    unfold list
    rfl
  | cons raw rest ih =>
    obtain ⟨hraw, hrest⟩ := List.forall_mem_cons.1 h
    obtain ⟨hbase₁, m', hrun, hm₁, hm'⟩ := value_advances lib base room chain document raw base m
      (.refl base) hbase hm (schemaOf raw) _ (Prod.ext hraw rfl)
    have hlist := ih hrest (hbase₁.trans hm₁) hm'
    unfold list
    rw [run_bind_of_ok hrun, run_bind_of_ok (Prod.ext hlist rfl)]
    rfl

/-- A raw schema that is only an `allOf`. -/
theorem value_allOf (lib : Library) (room : Nat) (chain : List Target) (document : String)
    (arms : List Value) : value lib room chain document (.obj [("allOf", .arr arms)]) =
      list lib room chain document arms >>= fun schemas => liftExcept (mergeAll schemas) := by
  have hk : Keyword.of [("allOf", .arr arms)] = .all (.arr arms) := rfl
  have hnull : orNull [("allOf", .arr arms)] = id := orNull_of_get?_eq_none rfl
  unfold value
  rw [constrained_eq, hk, hnull]
  unfold composition
  exact bind_pure _

end Resolving

namespace Resolver

open Resolving

/-- What the `allOf` of raw schemas is resolved to. -/
def allOf (r : Resolver) (arms : List Value) : Except SchemaError Schema :=
  (r.resolve (.obj [("allOf", .arr arms)])).1

section

variable {r : Resolver} {arms arms' : List Value} {schemaOf : Value → Schema}

/-- The arms are merged that each of them is resolved to alone. -/
theorem allOf_eq_mergeAll (h : ∀ raw ∈ arms, (r.resolve raw).1 = .ok (schemaOf raw)) :
    r.allOf arms = mergeAll (arms.map schemaOf) := by
  have hlist : ((list r.library r.library.maxDepth [] Library.rootName arms).run r.resolved).1 =
      .ok (arms.map schemaOf) := run_list_of_forall h (.refl _) .base
  change ((value r.library r.library.maxDepth [] Library.rootName
    (.obj [("allOf", .arr arms)])).run r.resolved).1 = _
  rw [value_allOf, run_bind_of_ok (Prod.ext hlist rfl), run_liftExcept]

theorem forall_map_of_perm {P : Schema → Prop} (h : ∀ raw ∈ arms, P (schemaOf raw))
    (hperm : arms'.Perm arms) : ∀ s ∈ arms'.map schemaOf, P s :=
  List.forall_mem_map.2 fun raw hraw => h raw (hperm.mem_iff.1 hraw)

/-- Any two arms that declare a field declare it with the same schema. -/
def FieldsAgree (arms : List Value) (schemaOf : Value → Schema) : Prop :=
  ∀ raw ∈ arms, ∀ raw' ∈ arms, ∀ name s s', (schemaOf raw).field? name = some s →
    (schemaOf raw').field? name = some s' → s.same s' = true

/-- Where the first arm that declares a field counts, any two arms can be the first. -/
theorem forall_same_iff_fieldsAgree {nodeOf : List Value → Schema}
    (hfield : ∀ arms' : List Value, arms'.Perm arms → ∀ name, (nodeOf arms').field? name =
      arms'.findSome? fun raw => (schemaOf raw).field? name)
    (halike : ∀ arms' arms'' : List Value, arms'.Perm arms → arms''.Perm arms →
      (nodeOf arms').Alike (nodeOf arms'')) :
    (∀ arms' arms'' : List Value, arms'.Perm arms → arms''.Perm arms →
      (nodeOf arms').same (nodeOf arms'') = true) ↔ FieldsAgree arms schemaOf := by
  constructor
  · intro hsame raw hraw raw' hraw' name s s' hs hs'
    have hperm : (raw :: arms.erase raw).Perm arms := (List.perm_cons_erase hraw).symm
    have hperm' : (raw' :: arms.erase raw').Perm arms := (List.perm_cons_erase hraw').symm
    have hfirst : (nodeOf (raw :: arms.erase raw)).field? name = some s := by
      rw [hfield _ hperm, List.findSome?_cons, hs]
    have hfirst' : (nodeOf (raw' :: arms.erase raw')).field? name = some s' := by
      rw [hfield _ hperm', List.findSome?_cons, hs']
    exact Schema.same_of_field? (hsame _ _ hperm hperm') hfirst hfirst'
  · intro hagree arms' arms'' hperm hperm'
    refine (halike arms' arms'' hperm hperm').same_of_forall fun name s s' hs hs' => ?_
    rw [hfield arms' hperm] at hs
    rw [hfield arms'' hperm'] at hs'
    obtain ⟨raw, hraw, hs⟩ := List.exists_of_findSome?_eq_some hs
    obtain ⟨raw', hraw', hs'⟩ := List.exists_of_findSome?_eq_some hs'
    exact hagree raw (hperm.mem_iff.1 hraw) raw' (hperm'.mem_iff.1 hraw') name s s' hs hs'

end

/-- Arms resolve in every order or in none. The names of the fields, the required names and the
openness do not depend on the order, and each field is as the first arm says that declares it. So
every order gives the same schema if and only if arms that share a field agree about it. -/
theorem allOf_perm (r : Resolver) (arms : List Value) (schemaOf : Value → Schema)
    (h : ∀ raw ∈ arms, (r.resolve raw).1 = .ok (schemaOf raw) ∧ (schemaOf raw).DeclaresOnce) :
    (∀ arms' : List Value, arms'.Perm arms → ∃ e, r.allOf arms' = .error e) ∨
      ∃ nodeOf : List Value → Schema,
        (∀ arms' : List Value, arms'.Perm arms → r.allOf arms' = .ok (nodeOf arms') ∧ ∀ name,
          (nodeOf arms').field? name = arms'.findSome? fun raw => (schemaOf raw).field? name) ∧
        (∀ arms' arms'' : List Value, arms'.Perm arms → arms''.Perm arms →
          (nodeOf arms').Alike (nodeOf arms'')) ∧
        ((∀ arms' arms'' : List Value, arms'.Perm arms → arms''.Perm arms →
          (nodeOf arms').same (nodeOf arms'') = true) ↔ FieldsAgree arms schemaOf) := by
  have hmerge : ∀ arms' : List Value, arms'.Perm arms → r.allOf arms' = mergeAll (arms'.map schemaOf) :=
    fun arms' hperm => allOf_eq_mergeAll fun raw hraw => (h raw (hperm.mem_iff.1 hraw)).1
  have honce : ∀ arms' : List Value, arms'.Perm arms → ∀ s ∈ arms'.map schemaOf, s.DeclaresOnce :=
    fun arms' hperm => forall_map_of_perm (fun raw hraw => (h raw hraw).2) hperm
  cases hall : mergeAll (arms.map schemaOf) with
  | error e =>
    refine .inl fun arms' hperm => ?_
    rw [hmerge arms' hperm]
    cases hs : mergeAll (arms'.map schemaOf) with
    | error e => exact ⟨e, rfl⟩
    | ok s =>
      obtain ⟨s', hs'⟩ :=
        exists_mergeAll_eq_ok_of_perm (honce arms' hperm) (hperm.map schemaOf) hs
      cases hall.symm.trans hs'
  | ok node =>
    have hex : ∀ arms' : List Value, arms'.Perm arms → ∃ s, mergeAll (arms'.map schemaOf) = .ok s :=
      fun arms' hperm => exists_mergeAll_eq_ok_of_perm (honce arms (.refl arms))
        (hperm.symm.map schemaOf) hall
    choose! nodeOf hnode using hex
    have hfield : ∀ arms' : List Value, arms'.Perm arms → ∀ name, (nodeOf arms').field? name =
        arms'.findSome? fun raw => (schemaOf raw).field? name := by
      intro arms' hperm name
      rw [field?_of_mergeAll (hnode arms' hperm) name, List.findSome?_map]
      rfl
    have halike : ∀ arms' arms'' : List Value, arms'.Perm arms → arms''.Perm arms →
        (nodeOf arms').Alike (nodeOf arms'') := fun arms' arms'' hperm hperm' =>
      alike_of_mergeAll (honce arms' hperm) ((hperm.trans hperm'.symm).map schemaOf)
        (hnode arms' hperm) (hnode arms'' hperm')
    exact .inr ⟨nodeOf, fun arms' hperm => ⟨(hmerge arms' hperm).trans (hnode arms' hperm),
      hfield arms' hperm⟩, halike, forall_same_iff_fieldsAgree hfield halike⟩

namespace Sample

/-- An object that declares one field. -/
def declaring (name text : String) : Value :=
  .obj [("properties", .obj [(name, .str text)])]

theorem resolve_declaring (r : Resolver) {name text : String} {s : Schema}
    (h : ofText text = .ok s) :
    (r.resolve (declaring name text)).1 = .ok (.object [(name, s)] [] false) := by
  let members : Members := [("properties", .obj [(name, .str text)])]
  have hk : Keyword.of members = .implied "object" := rfl
  have hps : properties members = .ok [(name, .str text)] := rfl
  have hrequired : requiredNames members = .ok [] := rfl
  have hfields : fields r.library r.library.maxDepth [] Library.rootName [(name, .str text)] =
      pure [(name, s)] := by
    simp only [fields, value, h]
    rfl
  change ((value r.library r.library.maxDepth [] Library.rootName (.obj members)).run
    r.resolved).1 = _
  simp only [value, constrained_eq, hk, typed_object_eq, hps, hrequired, hfields]
  rfl

theorem ofText_string : ofText "string" = .ok (.scalar .string) :=
  Except.toOption_eq_some_iff.1 (by decide +kernel)

theorem ofText_integer : ofText "integer" = .ok (.scalar .integer) :=
  Except.toOption_eq_some_iff.1 (by decide +kernel)

/-- Two arms disagree about a field that the third does not declare. -/
def arms : List Value :=
  [declaring "a" "string", declaring "b" "string", declaring "a" "integer"]

/-- What the arms are resolved to. -/
def schemaOf (raw : Value) : Schema :=
  if raw = declaring "a" "string" then .object [("a", .scalar .string)] [] false
  else if raw = declaring "b" "string" then .object [("b", .scalar .string)] [] false
  else .object [("a", .scalar .integer)] [] false

theorem resolve_arms (r : Resolver) :
    ∀ raw ∈ arms, (r.resolve raw).1 = .ok (schemaOf raw) ∧ (schemaOf raw).DeclaresOnce := by
  have ha : schemaOf (declaring "a" "string") = .object [("a", .scalar .string)] [] false := rfl
  have hb : schemaOf (declaring "b" "string") = .object [("b", .scalar .string)] [] false := by
    decide +kernel
  have ha' : schemaOf (declaring "a" "integer") = .object [("a", .scalar .integer)] [] false := by
    decide +kernel
  simp only [arms, List.forall_mem_cons, ha, hb, ha', resolve_declaring r ofText_string,
    resolve_declaring r ofText_integer]
  simp [Schema.DeclaresOnce, Table.names]

theorem exists_allOf_arms (r : Resolver) : ∃ s, r.allOf arms = .ok s := by
  rw [allOf_eq_mergeAll fun raw hraw => (resolve_arms r raw hraw).1]
  exact ⟨_, rfl⟩

end Sample

/-- In the opposite order, the other declaration counts. -/
theorem allOf_reverse_sample : ∃ s s',
    (ofLibrary (.ofRoot .null)).allOf Sample.arms = .ok s ∧
    (ofLibrary (.ofRoot .null)).allOf Sample.arms.reverse = .ok s' ∧ s.Alike s' ∧
    s.field? "a" = some (.scalar .string) ∧ s'.field? "a" = some (.scalar .integer) := by
  have hperm : Sample.arms.Perm Sample.arms := .refl _
  have hperm' : Sample.arms.reverse.Perm Sample.arms := List.reverse_perm _
  rcases allOf_perm (ofLibrary (.ofRoot .null)) Sample.arms Sample.schemaOf
    (Sample.resolve_arms _) with hfails | ⟨nodeOf, hnode, halike, -⟩
  · obtain ⟨e, he⟩ := hfails Sample.arms hperm
    obtain ⟨s, hs⟩ := Sample.exists_allOf_arms (ofLibrary (.ofRoot .null))
    cases he.symm.trans hs
  · obtain ⟨hs, hfirst⟩ := hnode _ hperm
    obtain ⟨hs', hlast⟩ := hnode _ hperm'
    refine ⟨_, _, hs, hs', halike _ _ hperm hperm', (hfirst "a").trans ?_, (hlast "a").trans ?_⟩
    · decide +kernel
    · decide +kernel

/-- The order of the arms decides about a field that two of them declare. -/
theorem not_forall_allOf_same : ¬ ∀ (r : Resolver) (arms : List Value),
    (∀ raw ∈ arms, ∃ s, (r.resolve raw).1 = .ok s) →
      (∀ arms' : List Value, arms'.Perm arms → ∃ e, r.allOf arms' = .error e) ∨
      ∀ arms' arms'' : List Value, arms'.Perm arms → arms''.Perm arms → ∃ s s',
        r.allOf arms' = .ok s ∧ r.allOf arms'' = .ok s' ∧ s.same s' = true := by
  intro h
  have hresolve := Sample.resolve_arms (ofLibrary (.ofRoot .null))
  rcases h (ofLibrary (.ofRoot .null)) Sample.arms
    fun raw hraw => ⟨_, (hresolve raw hraw).1⟩ with hfails | hsame
  · obtain ⟨e, he⟩ := hfails _ (.refl _)
    obtain ⟨s, hs⟩ := Sample.exists_allOf_arms (ofLibrary (.ofRoot .null))
    cases he.symm.trans hs
  · obtain ⟨s, s', hs, hs', hss'⟩ := hsame _ _ (.refl _) (List.reverse_perm _)
    rw [allOf_eq_mergeAll fun raw hraw => (hresolve raw hraw).1] at hs
    rw [allOf_eq_mergeAll fun raw hraw => (hresolve raw (List.mem_reverse.1 hraw)).1] at hs'
    have hdiffer : ((mergeAll (Sample.arms.map Sample.schemaOf)).toOption.bind fun s =>
        (mergeAll (Sample.arms.reverse.map Sample.schemaOf)).toOption.map (s.same ·)) =
          some false := by
      decide +kernel
    rw [hs, hs'] at hdiffer
    cases hss'.symm.trans (Option.some.inj hdiffer)

end Resolver

end CapabilityFlow
