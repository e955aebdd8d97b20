import CapabilityFlow.Proofs.Except
import CapabilityFlow.Proofs.Schema.Comparing

/-!
# What remembering changes

A resolver looks a target up before it minds the chain and the bound. So what is remembered can stand
in for references that the bound forbids, and for nothing else (`Resolver.resolve_afterAll_cases`).

Each remembered target was resolved with those alone that were remembered before it
(`Resolved.Grounded`). So whoever follows it again meets no cycle and no other error, only the bound
(`Resolving.follow_retraces`), and two resolvers of which one remembers more agree until one of them
exceeds the bound (`Resolving.follow_agrees`).
-/

namespace CapabilityFlow

namespace Resolved

/-- What one resolver remembers another remembers, too. -/
def Sub (m m' : Resolved) : Prop :=
  ∀ t s, m.lookup t = some s → m'.lookup t = some s

namespace Sub

variable {m m' m'' : Resolved} {t : Target} {s : Schema}

theorem refl (m : Resolved) : m.Sub m :=
  fun _ _ h => h

theorem trans (h : m.Sub m') (h' : m'.Sub m'') : m.Sub m'' :=
  fun t s hs => h' t s (h t s hs)

theorem lookup_eq_none (h : m.Sub m') (ht : m'.lookup t = none) : m.lookup t = none := by
  cases hs : m.lookup t with
  | none => rfl
  | some s => cases ht.symm.trans (h t s hs)

theorem cons_of_none (h : m.Sub m') (ht : m.lookup t = none) : m.Sub ((t, s) :: m') := by
  intro u v hu
  rw [List.lookup_cons]
  split
  · rename_i he
    rw [beq_iff_eq.1 he, ht] at hu
    cases hu
  · exact h u v hu

theorem cons_of_some (ht : m.lookup t = some s) : m.Sub ((t, s) :: m) := by
  intro u v hu
  rw [List.lookup_cons]
  split
  · rename_i he
    rw [beq_iff_eq.1 he, ht] at hu
    exact hu
  · exact hu

theorem cons (h : m.Sub m') : Sub ((t, s) :: m) ((t, s) :: m') := by
  intro u v hu
  rw [List.lookup_cons] at hu ⊢
  split at hu
  · exact hu
  · exact h u v hu

theorem cons_left (h : m.Sub m') (ht : m'.lookup t = some s) : Sub ((t, s) :: m) m' := by
  intro u v hu
  rw [List.lookup_cons] at hu
  split at hu
  · rename_i he
    rw [beq_iff_eq.1 he, ht]
    exact hu
  · exact h u v hu

end Sub

end Resolved

namespace Resolving

/-! ## Runs -/

variable {lib lib' : Library} {room room' : Nat} {chain chain' : List Target} {document : String}
  {α β : Type}

/-- The bound on references is exceeded. -/
def IsExceeded (r : Except SchemaError α) : Prop :=
  ∃ reference limit, r = .error (.depthExceeded reference limit)

theorem of_run_bind_eq_ok {c : Resolving α} {f : α → Resolving β} {m m₁ : Resolved} {b : β}
    (h : (c >>= f).run m = (.ok b, m₁)) :
    ∃ a m', c.run m = (.ok a, m') ∧ (f a).run m' = (.ok b, m₁) := by
  cases hc : c.run m with
  | mk r m' =>
    cases r with
    | ok a =>
      rw [run_bind_of_ok hc] at h
      exact ⟨a, m', rfl, h⟩
    | error e =>
      rw [run_bind_of_error hc] at h
      cases h

section

variable {r : String} {t : Target} {m : Resolved}

theorem run_follow_of_lookup (lib : Library) (ht : Target.ofReference document r = t) {s : Schema}
    (hm : m.lookup t = some s) : (follow lib room chain document r).run m = (.ok s, m) := by
  rw [run_follow lib ht, hm]

theorem run_follow_of_mem (lib : Library) (ht : Target.ofReference document r = t)
    (hm : m.lookup t = none) (hchain : t ∈ chain) : (follow lib room chain document r).run m =
      (.error (.cycle (chain.dropWhile (· != t) ++ [t])), m) := by
  rw [run_follow lib ht, hm]
  exact if_pos (List.contains_iff_mem.2 hchain)

theorem run_follow_zero (lib : Library) (ht : Target.ofReference document r = t)
    (hm : m.lookup t = none) (hchain : t ∉ chain) : (follow lib 0 chain document r).run m =
      (.error (.depthExceeded r lib.maxDepth), m) := by
  rw [run_follow lib ht, hm]
  exact if_neg (mt List.contains_iff_mem.1 hchain)

/-- A target that is new is looked up in the library, resolved and remembered. -/
theorem run_follow_succ (lib : Library) (ht : Target.ofReference document r = t)
    (hm : m.lookup t = none) (hchain : t ∉ chain) : (follow lib (room + 1) chain document r).run m =
      match lib.find t r with
      | .error e => (.error e, m)
      | .ok raw =>
        match (value lib room (chain ++ [t]) t.document raw).run m with
        | (.ok s, m₁) => (.ok s, (t, s) :: m₁)
        | (.error e, m₁) => (.error e, m₁) := by
  rw [run_follow lib ht, hm]
  refine (if_neg (mt List.contains_iff_mem.1 hchain)).trans ?_
  dsimp only
  cases hfind : lib.find t r with
  | error e => rw [run_bind_of_error (run_liftExcept _ _)]
  | ok raw =>
    rw [run_bind_of_ok (run_liftExcept _ _)]
    cases hv : (value lib room (chain ++ [t]) t.document raw).run m with
    | mk r m₁ =>
      cases r with
      | ok s =>
        rw [run_bind_of_ok hv]
        simp only [hv]
        rfl
      | error e =>
        rw [run_bind_of_error hv]
        simp only [hv]

theorem run_follow_of_ok (ht : Target.ofReference document r = t) (hm : m.lookup t = none)
    (hchain : t ∉ chain) {raw : Value} (hfind : lib.find t r = .ok raw) {s : Schema} {m₁ : Resolved}
    (hv : (value lib room (chain ++ [t]) t.document raw).run m = (.ok s, m₁)) :
    (follow lib (room + 1) chain document r).run m = (.ok s, (t, s) :: m₁) := by
  rw [run_follow_succ lib ht hm hchain, hfind]
  simp only [hv]

theorem run_follow_of_error (ht : Target.ofReference document r = t) (hm : m.lookup t = none)
    (hchain : t ∉ chain) {raw : Value} (hfind : lib.find t r = .ok raw) {e : SchemaError}
    {m₁ : Resolved} (hv : (value lib room (chain ++ [t]) t.document raw).run m = (.error e, m₁)) :
    (follow lib (room + 1) chain document r).run m = (.error e, m₁) := by
  rw [run_follow_succ lib ht hm hchain, hfind]
  simp only [hv]

/-- What can come of following a reference: its target is remembered, is refused, or is resolved with
one reference less to follow. -/
inductive Follows (lib : Library) (chain : List Target) (r : String) (t : Target) (m : Resolved) :
    Nat → Except SchemaError Schema × Resolved → Prop
  | remembered {room s} (hm : m.lookup t = some s) : Follows lib chain r t m room (.ok s, m)
  | refused {room e} (hm : m.lookup t = none) : Follows lib chain r t m room (.error e, m)
  | resolved {room raw s m'} (hm : m.lookup t = none) (hchain : t ∉ chain)
      (hfind : lib.find t r = .ok raw)
      (hv : (value lib room (chain ++ [t]) t.document raw).run m = (.ok s, m')) :
      Follows lib chain r t m (room + 1) (.ok s, (t, s) :: m')
  | failed {room raw e m'} (hm : m.lookup t = none) (hchain : t ∉ chain)
      (hfind : lib.find t r = .ok raw)
      (hv : (value lib room (chain ++ [t]) t.document raw).run m = (.error e, m')) :
      Follows lib chain r t m (room + 1) (.error e, m')

theorem follows (lib : Library) (room : Nat) (chain : List Target)
    (ht : Target.ofReference document r = t) (m : Resolved) :
    Follows lib chain r t m room ((follow lib room chain document r).run m) := by
  cases hm : m.lookup t with
  | some s =>
    rw [run_follow_of_lookup lib ht hm]
    exact .remembered hm
  | none =>
    by_cases hchain : t ∈ chain
    · rw [run_follow_of_mem lib ht hm hchain]
      exact .refused hm
    cases room with
    | zero =>
      rw [run_follow_zero lib ht hm hchain]
      exact .refused hm
    | succ room =>
      rw [run_follow_succ lib ht hm hchain]
      split
      · exact .refused hm
      · rename_i raw hfind
        split
        · rename_i s m' hv
          exact .resolved hm hchain hfind hv
        · rename_i e m' hv
          exact .failed hm hchain hfind hv

end

/-! ## Replaying -/

/-- Where the first computation ended well, the second gives the same and remembers nothing new. -/
def Replays (c c' : Resolving α) : Prop :=
  ∀ m a m₁, c.run m = (.ok a, m₁) → m.Sub m₁ ∧ ∀ m₂, m₁.Sub m₂ → c'.run m₂ = (.ok a, m₂)

theorem compatible_replays : Compatible Replays where
  lift x m a m₁ h := by
    rw [run_liftExcept] at h
    cases h
    exact ⟨.refl m, fun m₂ _ => run_liftExcept _ m₂⟩
  bind hc hf m b m₁ h := by
    obtain ⟨a, m', ha, hb⟩ := of_run_bind_eq_ok h
    obtain ⟨hsub, hreplay⟩ := hc m a m' ha
    obtain ⟨hsub', hreplay'⟩ := hf a m' b m₁ hb
    refine ⟨hsub.trans hsub', fun m₂ hm₂ => ?_⟩
    rw [run_bind_of_ok (hreplay m₂ (hsub'.trans hm₂))]
    exact hreplay' m₂ hm₂

/-- A target that was followed is remembered, so it is found again. -/
theorem follow_replays (lib lib' : Library) (room room' : Nat) (chain chain' : List Target)
    (document r : String) :
    Replays (follow lib room chain document r) (follow lib' room' chain' document r) := by
  intro m s m₁ h
  generalize ht : Target.ofReference document r = t
  have hrun := follows lib room chain ht m
  rw [h] at hrun
  cases hrun with
  | remembered hm => exact ⟨.refl m, fun m₂ hm₂ => run_follow_of_lookup lib' ht (hm₂ t s hm)⟩
  | @resolved k raw _ m' hm _ _ hv =>
    have hvalue := compatible_replays.value lib lib k k (chain ++ [t]) (chain ++ [t]) t.document
      (follow_replays lib lib k k (chain ++ [t]) (chain ++ [t]) t.document) raw
    refine ⟨(hvalue m s m' hv).1.cons_of_none hm, fun m₂ hm₂ => ?_⟩
    exact run_follow_of_lookup lib' ht (hm₂ t s List.lookup_cons_self)
termination_by room

theorem value_replays (lib lib' : Library) (room room' : Nat) (chain chain' : List Target)
    (document : String) (raw : Value) :
    Replays (value lib room chain document raw) (value lib' room' chain' document raw) :=
  compatible_replays.value lib lib' room room' chain chain' document
    (follow_replays lib lib' room room' chain chain' document) raw

end Resolving

/-! ## What is remembered is grounded -/

/-- Each remembered target was resolved with what was remembered before it, without following any
further reference. -/
inductive Resolved.Grounded (lib : Library) : Resolved → Prop
  | nil : Grounded lib []
  | cons {m : Resolved} {t : Target} {s : Schema} {raw : Value} (hm : Grounded lib m)
      (hnew : m.lookup t = none) (hraw : lib.Holds t raw)
      (hs : (Resolving.value lib 0 [] t.document raw).run m = (.ok s, m)) :
      Grounded lib ((t, s) :: m)

namespace Resolving

/-- What is remembered is grounded, and no target that is being followed is among it. -/
structure Steady (lib : Library) (chain : List Target) (m : Resolved) : Prop where
  grounded : m.Grounded lib
  apart : ∀ t ∈ chain, m.lookup t = none

/-- A computation keeps what is remembered steady, and forgets nothing. -/
def Keeps (lib : Library) (chain : List Target) (c : Resolving α) : Prop :=
  ∀ m, Steady lib chain m → Steady lib chain (c.run m).2 ∧ m.length ≤ (c.run m).2.length

theorem Keeps.lift (x : Except SchemaError α) : Keeps lib chain (liftExcept x : Resolving α) := by
  intro m hm
  rw [run_liftExcept]
  exact ⟨hm, Nat.le_refl _⟩

theorem Keeps.bind {c : Resolving α} {f : α → Resolving β} (hc : Keeps lib chain c)
    (hf : ∀ a, Keeps lib chain (f a)) : Keeps lib chain (c >>= f) := by
  intro m hm
  obtain ⟨hm', hle⟩ := hc m hm
  cases h : c.run m with
  | mk r m' =>
    rw [h] at hm' hle
    cases r with
    | ok a =>
      rw [run_bind_of_ok h]
      obtain ⟨hm₁, hle'⟩ := hf a m' hm'
      exact ⟨hm₁, Nat.le_trans hle hle'⟩
    | error e =>
      rw [run_bind_of_error h]
      exact ⟨hm', hle⟩

theorem compatible_keeps (lib : Library) (chain : List Target) :
    Compatible fun c _ => Keeps lib chain c where
  lift := .lift
  bind := .bind

theorem Steady.follow {m : Resolved} (hm : Steady lib chain m) {t : Target} (ht : m.lookup t = none) :
    Steady lib (chain ++ [t]) m :=
  ⟨hm.grounded, List.forall_mem_append.2 ⟨hm.apart, List.forall_mem_singleton.2 ht⟩⟩

theorem Steady.unfollow {m : Resolved} {t : Target} (hm : Steady lib (chain ++ [t]) m) :
    Steady lib chain m :=
  ⟨hm.grounded, (List.forall_mem_append.1 hm.apart).1⟩

theorem Steady.remember {m : Resolved} {t : Target} (hm : Steady lib (chain ++ [t]) m)
    (hchain : t ∉ chain) {raw : Value} (hraw : lib.Holds t raw) {s : Schema}
    (hs : (value lib 0 [] t.document raw).run m = (.ok s, m)) : Steady lib chain ((t, s) :: m) := by
  have ht : m.lookup t = none := hm.apart t (by simp)
  refine ⟨.cons hm.grounded ht hraw hs, fun u hu => ?_⟩
  have hne : u ≠ t := fun h => hchain (h ▸ hu)
  rw [List.lookup_cons, beq_eq_false_iff_ne.2 hne]
  exact hm.apart u (List.mem_append_left _ hu)

/-- A target is remembered once everything is that it was resolved with. -/
theorem follow_keeps (lib : Library) (room : Nat) (chain : List Target) (document r : String) :
    Keeps lib chain (follow lib room chain document r) := by
  intro m hm
  generalize ht : Target.ofReference document r = t
  have hrun := follows lib room chain ht m
  have hvalue : ∀ k, k < room → ∀ raw, m.lookup t = none →
      Steady lib (chain ++ [t]) ((value lib k (chain ++ [t]) t.document raw).run m).2 ∧
        m.length ≤ ((value lib k (chain ++ [t]) t.document raw).run m).2.length :=
    fun k _ raw hnew => (compatible_keeps lib (chain ++ [t])).value lib lib k k (chain ++ [t])
      (chain ++ [t]) t.document (follow_keeps lib k (chain ++ [t]) t.document) raw m (hm.follow hnew)
  generalize (follow lib room chain document r).run m = x at hrun ⊢
  cases hrun with
  | remembered => exact ⟨hm, Nat.le_refl _⟩
  | refused => exact ⟨hm, Nat.le_refl _⟩
  | @resolved k raw s m' hnew hchain hfind hv =>
    obtain ⟨hm', hle⟩ := hvalue k (Nat.lt_succ_self k) raw hnew
    rw [hv] at hm' hle
    have hreplay := (value_replays lib lib k 0 (chain ++ [t]) [] t.document raw m s m' hv).2
    exact ⟨hm'.remember hchain (Library.find_eq_ok_iff.1 hfind) (hreplay m' (.refl m')),
      Nat.le_succ_of_le hle⟩
  | @failed k raw e m' hnew _ _ hv =>
    obtain ⟨hm', hle⟩ := hvalue k (Nat.lt_succ_self k) raw hnew
    rw [hv] at hm' hle
    exact ⟨hm'.unfollow, hle⟩
termination_by room

theorem value_keeps (lib : Library) (room : Nat) (chain : List Target) (document : String)
    (raw : Value) : Keeps lib chain (value lib room chain document raw) :=
  (compatible_keeps lib chain).value lib lib room room chain chain document
    (follow_keeps lib room chain document) raw

/-! ## Following what is remembered elsewhere -/

theorem IsExceeded.bind {c : Resolving α} {m : Resolved} (h : IsExceeded (c.run m).1)
    (f : α → Resolving β) : IsExceeded ((c >>= f).run m).1 := by
  obtain ⟨reference, limit, h⟩ := h
  rw [run_bind_of_error (Prod.ext h rfl)]
  exact ⟨reference, limit, rfl⟩

theorem IsExceeded.follow {m : Resolved} {r : String} {t : Target}
    (ht : Target.ofReference document r = t) (hm : m.lookup t = none) (hchain : t ∉ chain) {raw : Value}
    (hfind : lib.find t r = .ok raw)
    (h : IsExceeded ((value lib room (chain ++ [t]) t.document raw).run m).1) :
    IsExceeded ((follow lib (room + 1) chain document r).run m).1 := by
  obtain ⟨reference, limit, h⟩ := h
  rw [run_follow_of_error ht hm hchain hfind (Prod.ext h rfl)]
  exact ⟨reference, limit, rfl⟩

/-- Where the second computation finds everything in `m₀`, the first gives the same and remembers
nothing that is not in `m'`, or exceeds the bound for a reason. -/
def Retraces (reason : Prop) (m' m₀ : Resolved) (c c' : Resolving α) : Prop :=
  ∃ r, c'.run m₀ = (r, m₀) ∧ ∀ a, r = .ok a → ∀ m, m.Sub m' →
    (∃ m₁, c.run m = (.ok a, m₁) ∧ m₁.Sub m') ∨ reason ∧ IsExceeded (c.run m).1

theorem compatible_retraces (reason : Prop) (m' m₀ : Resolved) :
    Compatible (Retraces reason m' m₀) where
  lift x := by
    refine ⟨x, run_liftExcept x m₀, fun a hx m hm => .inl ⟨m, ?_, hm⟩⟩
    rw [run_liftExcept, hx]
  bind {_ _ c c' f f'} hc hf := by
    obtain ⟨r, hr, hc⟩ := hc
    cases r with
    | error e => exact ⟨.error e, run_bind_of_error hr, nofun⟩
    | ok a =>
      obtain ⟨r', hr', hf⟩ := hf a
      refine ⟨r', (run_bind_of_ok hr).trans hr', fun b hb m hm => ?_⟩
      rcases hc a rfl m hm with ⟨m₁, hrun, hm₁⟩ | ⟨hreason, hexceeded⟩
      · rw [run_bind_of_ok hrun]
        exact hf b hb m₁ hm₁
      · exact .inr ⟨hreason, hexceeded.bind f⟩

/-- A target is resolved to what is remembered of it elsewhere if its raw schema is. -/
theorem run_follow_retraced {m m' : Resolved} {r : String} {t : Target} {s : Schema} {raw : Value}
    {n : Nat} (ht : Target.ofReference document r = t) (hm : m.Sub m') (hs : m'.lookup t = some s)
    (hchain : t ∉ chain) (hfind : lib.find t r = .ok raw)
    (hv : ∀ k, room = k + 1 →
      (∃ m₁, (value lib k (chain ++ [t]) t.document raw).run m = (.ok s, m₁) ∧ m₁.Sub m') ∨
        k < n ∧ IsExceeded ((value lib k (chain ++ [t]) t.document raw).run m).1) :
    (∃ m₁, (follow lib room chain document r).run m = (.ok s, m₁) ∧ m₁.Sub m') ∨
      room < n + 1 ∧ IsExceeded ((follow lib room chain document r).run m).1 := by
  cases hl : m.lookup t with
  | some s' =>
    obtain rfl := Option.some.inj ((hm t s' hl).symm.trans hs)
    exact .inl ⟨m, run_follow_of_lookup lib ht hl, hm⟩
  | none =>
    cases room with
    | zero =>
      rw [run_follow_zero lib ht hl hchain]
      exact .inr ⟨Nat.succ_pos n, r, lib.maxDepth, rfl⟩
    | succ k =>
      rcases hv k rfl with ⟨m₁, hrun, hm₁⟩ | ⟨hlt, hexceeded⟩
      · exact .inl ⟨(t, s) :: m₁, run_follow_of_ok ht hl hchain hfind hrun, hm₁.cons_left hs⟩
      · exact .inr ⟨Nat.succ_lt_succ hlt, hexceeded.follow ht hl hchain hfind⟩

/-- A target that is remembered elsewhere was resolved without a cycle, with fewer and fewer
remembered targets. So it is resolved again, or the bound is less than their number. -/
theorem follow_retraces (hdocuments : lib.documents = lib'.documents) {m' m₀ : Resolved}
    (hm₀ : m₀.Grounded lib') (hsub : m₀.Sub m') {room : Nat} {chain : List Target}
    (happart : ∀ t ∈ chain, m₀.lookup t = none) (document r : String) :
    Retraces (room < m₀.length) m' m₀ (follow lib room chain document r)
      (follow lib' 0 [] document r) := by
  induction hm₀ generalizing room chain document r with
  | nil => exact ⟨_, run_follow_zero lib' rfl rfl List.not_mem_nil, nofun⟩
  | @cons m₀ t s raw hm₀ hnew hraw hs ih =>
    have hextends : m₀.Sub ((t, s) :: m₀) := .cons_of_none (.refl m₀) hnew
    have hsub₀ := hextends.trans hsub
    have happart₀ : ∀ u ∈ chain, m₀.lookup u = none :=
      fun u hu => hextends.lookup_eq_none (happart u hu)
    generalize hu : Target.ofReference document r = u
    by_cases hut : u = t
    -- the target that was remembered last only needs those before it
    · subst hut
      have hlast : List.lookup u ((u, s) :: m₀) = some s := List.lookup_cons_self
      have hchain : u ∉ chain := fun h => by cases hlast.symm.trans (happart u h)
      have hfind : lib.find u r = .ok raw := by
        rw [Library.find_eq_ok_iff, Library.Holds, hdocuments]
        exact hraw
      have happart' : ∀ v ∈ chain ++ [u], m₀.lookup v = none :=
        List.forall_mem_append.2 ⟨happart₀, List.forall_mem_singleton.2 hnew⟩
      refine ⟨.ok s, run_follow_of_lookup lib' hu hlast, ?_⟩
      rintro _ ⟨⟩ m hm
      refine run_follow_retraced hu hm (hsub u s hlast) hchain hfind fun k _ => ?_
      obtain ⟨_, hr, hv⟩ := (compatible_retraces (k < m₀.length) m' m₀).value lib lib' k 0
        (chain ++ [u]) [] u.document (ih hsub₀ happart' u.document) raw
      cases hs.symm.trans hr
      exact hv s rfl m hm
    · have hlookup : List.lookup u ((t, s) :: m₀) = m₀.lookup u := by
        rw [List.lookup_cons, beq_eq_false_iff_ne.2 hut]
      cases hl : m₀.lookup u with
      | none => exact ⟨_, run_follow_zero lib' hu (hlookup.trans hl) List.not_mem_nil, nofun⟩
      | some s' =>
        refine ⟨.ok s', run_follow_of_lookup lib' hu (hlookup.trans hl), ?_⟩
        rintro _ ⟨⟩ m hm
        obtain ⟨_, hr, hv⟩ := ih hsub₀ happart₀ document r
        cases (run_follow_of_lookup lib' hu hl).symm.trans hr
        rcases hv s' rfl m hm with h | ⟨hlt, hexceeded⟩
        · exact .inl h
        · exact .inr ⟨Nat.lt_succ_of_lt hlt, hexceeded⟩

/-! ## Resolvers of which one remembers more -/

/-- Two runs end alike, or one of them exceeds the bound where it may. The right one may also end with
more than `n` targets remembered. -/
inductive EndsLike (left right : Prop) (n : Nat) {α : Type} :
    Except SchemaError α × Resolved → Except SchemaError α × Resolved → Prop
  | ok {a m m'} (h : m.Sub m') : EndsLike left right n (.ok a, m) (.ok a, m')
  | error {e m m'} : EndsLike left right n (.error e, m) (.error e, m')
  | left {x x'} (hleft : left) (h : IsExceeded x.1) : EndsLike left right n x x'
  | right {x x'} (hright : right) (h : IsExceeded x'.1) : EndsLike left right n x x'
  | long {x x'} (hright : right) (h : n < x'.2.length) : EndsLike left right n x x'

theorem EndsLike.eq_or_isExceeded {left right : Prop} {n : Nat} {x x' : Except SchemaError α × Resolved}
    (h : EndsLike left right n x x') : x.1 = x'.1 ∨ left ∧ IsExceeded x.1 ∨
      right ∧ (IsExceeded x'.1 ∨ n < x'.2.length) := by
  cases h with
  | ok => exact .inl rfl
  | error => exact .inl rfl
  | left hleft h => exact .inr (.inl ⟨hleft, h⟩)
  | right hright h => exact .inr (.inr ⟨hright, .inl h⟩)
  | long hright h => exact .inr (.inr ⟨hright, .inr h⟩)

/-- Two computations end alike wherever the second one remembers more than the first. -/
def Agrees (lib : Library) (chain : List Target) (left right : Prop) (n : Nat) (c c' : Resolving α) :
    Prop :=
  Keeps lib chain c' ∧
    ∀ m m', m.Sub m' → Steady lib chain m' → EndsLike left right n (c.run m) (c'.run m')

theorem compatible_agrees (lib : Library) (chain : List Target) (left right : Prop) (n : Nat) :
    Compatible (Agrees lib chain left right n) where
  lift x := by
    refine ⟨.lift x, fun m m' hm _ => ?_⟩
    rw [run_liftExcept, run_liftExcept]
    cases x with
    | ok a => exact .ok hm
    | error e => exact .error
  bind {_ _ c c' f f'} hc hf := by
    refine ⟨hc.1.bind fun a => (hf a).1, fun m m' hm hm' => ?_⟩
    have hend := hc.2 m m' hm hm'
    have hkeep := (hc.1 m' hm').1
    cases hrun : c.run m with
    | mk x m₁ =>
    cases hrun' : c'.run m' with
    | mk x' m₁' =>
    rw [hrun, hrun'] at hend
    rw [hrun'] at hkeep
    cases hend with
    | ok h =>
      rw [run_bind_of_ok hrun, run_bind_of_ok hrun']
      exact (hf _).2 m₁ m₁' h hkeep
    | error =>
      rw [run_bind_of_error hrun, run_bind_of_error hrun']
      exact .error
    | left hleft h => exact .left hleft (IsExceeded.bind (hrun ▸ h) f)
    | right hright h => exact .right hright (IsExceeded.bind (hrun' ▸ h) f')
    | long hright h =>
      refine .long hright ?_
      cases x' with
      | ok a =>
        rw [run_bind_of_ok hrun']
        exact Nat.lt_of_lt_of_le h ((hf a).1 m₁' hkeep).2
      | error e =>
        rw [run_bind_of_error hrun']
        exact h

/-- Following a reference ends alike in both if resolving its target does. -/
theorem endsLike_follow {left right : Prop} {n : Nat} {m m' : Resolved} {r : String} {t : Target}
    (ht : Target.ofReference document r = t) (hl : m.lookup t = none) (hl' : m'.lookup t = none)
    (hchain : t ∉ chain) (hfind : lib.find t r = lib'.find t r)
    (hv : ∀ raw, EndsLike left right n ((value lib room (chain ++ [t]) t.document raw).run m)
      ((value lib' room' (chain ++ [t]) t.document raw).run m')) :
    EndsLike left right n ((follow lib (room + 1) chain document r).run m)
      ((follow lib' (room' + 1) chain document r).run m') := by
  cases hf' : lib'.find t r with
  | error e =>
    rw [run_follow_succ lib ht hl hchain, run_follow_succ lib' ht hl' hchain, hfind, hf']
    exact .error
  | ok raw =>
    have hf : lib.find t r = .ok raw := hfind.trans hf'
    have hend := hv raw
    cases hrun : (value lib room (chain ++ [t]) t.document raw).run m with
    | mk x m₁ =>
    cases hrun' : (value lib' room' (chain ++ [t]) t.document raw).run m' with
    | mk x' m₁' =>
    rw [hrun, hrun'] at hend
    cases hend with
    | ok h =>
      rw [run_follow_of_ok ht hl hchain hf hrun, run_follow_of_ok ht hl' hchain hf' hrun']
      exact .ok h.cons
    | error =>
      rw [run_follow_of_error ht hl hchain hf hrun, run_follow_of_error ht hl' hchain hf' hrun']
      exact .error
    | left hleft h => exact .left hleft (IsExceeded.follow ht hl hchain hf (hrun ▸ h))
    | right hright h => exact .right hright (IsExceeded.follow ht hl' hchain hf' (hrun' ▸ h))
    | long hright h =>
      refine .long hright ?_
      cases x' with
      | ok s =>
        rw [run_follow_of_ok ht hl' hchain hf' hrun']
        exact Nat.lt_succ_of_lt h
      | error e =>
        rw [run_follow_of_error ht hl' hchain hf' hrun']
        exact h

/-- Where one resolver remembers more, it ends like the other until a bound is exceeded: not the bound
of the one that remembers more if it has as much room, and not that of the other one if it has room for
all that is remembered. -/
theorem follow_agrees (hdocuments : lib.documents = lib'.documents) {left right : Prop} {n : Nat}
    (room room' : Nat) (hroom : left ∧ room ≤ room' ∨ right ∧ room' + n ≤ room) (chain : List Target)
    (document r : String) : Agrees lib' chain left right n (follow lib room chain document r)
      (follow lib' room' chain document r) := by
  refine ⟨follow_keeps lib' room' chain document r, fun m m' hm hm' => ?_⟩
  generalize ht : Target.ofReference document r = t
  cases hl' : m'.lookup t with
  -- the first one has to follow what the second one remembers, unless it remembers it, too
  | some s =>
    have hrun' : (follow lib' room' chain document r).run m' = (.ok s, m') :=
      run_follow_of_lookup lib' ht hl'
    have hretraces : Retraces (room < m'.length) m' m' (follow lib room chain document r)
        (follow lib' 0 [] document r) :=
      follow_retraces hdocuments hm'.grounded (.refl m') hm'.apart document r
    obtain ⟨_, hr, hv⟩ := hretraces
    cases (run_follow_of_lookup lib' ht hl').symm.trans hr
    rw [hrun']
    rcases hv s rfl m hm with ⟨m₁, hrun, hm₁⟩ | ⟨hlt, hexceeded⟩
    · rw [hrun]
      exact .ok hm₁
    · rcases hroom with ⟨hleft, -⟩ | ⟨hright, hle⟩
      · exact .left hleft hexceeded
      · exact .long hright (by dsimp only; omega)
  | none =>
    have hl := hm.lookup_eq_none hl'
    by_cases hchain : t ∈ chain
    · rw [run_follow_of_mem lib ht hl hchain, run_follow_of_mem lib' ht hl' hchain]
      exact .error
    have hexceeded : ∀ lib m, m.lookup t = none →
        IsExceeded ((follow lib 0 chain document r).run m).1 := by
      intro lib m hm
      rw [run_follow_zero lib ht hm hchain]
      exact ⟨r, lib.maxDepth, rfl⟩
    match room, room', hroom with
    | 0, _, .inl ⟨hleft, _⟩ => exact .left hleft (hexceeded lib m hl)
    | 0, room', .inr ⟨hright, hle⟩ =>
      obtain rfl : room' = 0 := by omega
      exact .right hright (hexceeded lib' m' hl')
    | room + 1, 0, .inr ⟨hright, _⟩ => exact .right hright (hexceeded lib' m' hl')
    | room + 1, room' + 1, hroom =>
      have hroom' : left ∧ room ≤ room' ∨ right ∧ room' + n ≤ room :=
        hroom.imp (And.imp_right Nat.le_of_succ_le_succ) (And.imp_right fun hle => by omega)
      have hfind : lib.find t r = lib'.find t r := by rw [Library.find, hdocuments, Library.find]
      exact endsLike_follow ht hl hl' hchain hfind fun raw =>
        ((compatible_agrees lib' (chain ++ [t]) left right n).value lib lib' room room' (chain ++ [t])
          (chain ++ [t]) t.document
          (follow_agrees hdocuments room room' hroom' (chain ++ [t]) t.document) raw).2 m m' hm
            (hm'.follow hl')
termination_by room'

theorem value_agrees (hdocuments : lib.documents = lib'.documents) {left right : Prop} {n : Nat}
    {room room' : Nat} (hroom : left ∧ room ≤ room' ∨ right ∧ room' + n ≤ room) (chain : List Target)
    (document : String) (raw : Value) : Agrees lib' chain left right n
      (value lib room chain document raw) (value lib' room' chain document raw) :=
  (compatible_agrees lib' chain left right n).value lib lib' room room' chain chain document
    (follow_agrees hdocuments room room' hroom chain document) raw

theorem orNull_of_get?_eq_none {ms : Members} (h : Table.get? ms "nullable" = none) :
    orNull ms = id := by
  funext s
  simp only [orNull, h, reduceCtorEq, if_false, id]

/-- A raw schema that is only a reference. -/
theorem value_reference (lib : Library) (room : Nat) (chain : List Target) (document r : String) :
    value lib room chain document (.obj [("$ref", .str r)]) = follow lib room chain document r := by
  have hk : Keyword.of [("$ref", .str r)] = .reference (.str r) := rfl
  have hnull : orNull [("$ref", .str r)] = id := orNull_of_get?_eq_none rfl
  unfold value
  rw [constrained_eq, hk, hnull]
  exact bind_pure _

end Resolving

/-! ## Resolvers -/

namespace Resolver

open Resolving

/-- What a resolver has remembered is grounded in its library. -/
def IsGrounded (r : Resolver) : Prop :=
  r.resolved.Grounded r.library

theorem IsGrounded.after {r : Resolver} (h : r.IsGrounded) (call : ResolverCall) :
    (r.after call).IsGrounded := by
  have hsteady : Resolving.Steady r.library [] r.resolved := ⟨h, nofun⟩
  cases call with
  | resolve raw =>
    exact (Resolving.value_keeps r.library _ [] _ raw r.resolved hsteady).1.grounded
  | follow reference =>
    exact (Resolving.follow_keeps r.library _ [] _ reference r.resolved hsteady).1.grounded

theorem IsGrounded.afterAll {r : Resolver} (h : r.IsGrounded) (calls : List ResolverCall) :
    (r.afterAll calls).IsGrounded := by
  induction calls generalizing r with
  | nil => exact h
  | cons call calls ih => exact ih (h.after call)

/-- What a new resolver makes of a raw schema, with a bound of its own. -/
def freshly (lib : Library) (maxDepth : Nat) (raw : Value) : Except SchemaError Schema :=
  ((ofLibrary { lib with maxDepth }).resolve raw).1

theorem IsGrounded.resolve_cases {r : Resolver} (h : r.IsGrounded) (raw : Value) :
    (r.resolve raw).1 = freshly r.library r.library.maxDepth raw ∨
      IsExceeded (freshly r.library r.library.maxDepth raw) ∧ (IsExceeded (r.resolve raw).1 ∨
        ∃ maxDepth ≥ r.library.maxDepth, (r.resolve raw).1 = freshly r.library maxDepth raw) := by
  have hsteady : Resolving.Steady r.library [] r.resolved := ⟨h, nofun⟩
  have hnil : Resolved.Sub [] r.resolved := nofun
  have hsame : Resolving.Agrees r.library [] True False 0
      (Resolving.value r.library r.library.maxDepth [] Library.rootName raw)
      (Resolving.value r.library r.library.maxDepth [] Library.rootName raw) :=
    Resolving.value_agrees rfl (.inl ⟨trivial, Nat.le_refl _⟩) [] Library.rootName raw
  rcases (hsame.2 [] r.resolved hnil hsteady).eq_or_isExceeded with heq | ⟨-, hfresh⟩ | ⟨⟨⟩, -⟩
  · exact .inl heq.symm
  refine .inr ⟨hfresh, ?_⟩
  -- with room for all that is remembered in the end, a new resolver exceeds no bound of its own
  let larger : Library :=
    { r.library with maxDepth := r.library.maxDepth + (r.resolve raw).2.size }
  have hdocuments : larger.documents = r.library.documents := rfl
  have hmore : Resolving.Agrees r.library [] False True (r.resolve raw).2.size
      (Resolving.value larger larger.maxDepth [] Library.rootName raw)
      (Resolving.value r.library r.library.maxDepth [] Library.rootName raw) :=
    Resolving.value_agrees hdocuments (.inr ⟨trivial, Nat.le_refl _⟩) [] Library.rootName raw
  rcases (hmore.2 [] r.resolved hnil hsteady).eq_or_isExceeded with heq | ⟨⟨⟩, -⟩ | ⟨-, hwarm | hlt⟩
  · exact .inr ⟨larger.maxDepth, Nat.le_add_right _ _, heq.symm⟩
  · exact .inl hwarm
  · exact absurd hlt (Nat.lt_irrefl _)

/-- Earlier calls, failed ones included, only help with the bound: a resolver ends like a new one, but
where a new one exceeds the bound, it may still end like a new one with a larger bound. -/
theorem resolve_afterAll_cases (lib : Library) (calls : List ResolverCall) (raw : Value) :
    (((ofLibrary lib).afterAll calls).resolve raw).1 = freshly lib lib.maxDepth raw ∨
      IsExceeded (freshly lib lib.maxDepth raw) ∧
        (IsExceeded (((ofLibrary lib).afterAll calls).resolve raw).1 ∨
          ∃ maxDepth ≥ lib.maxDepth,
            (((ofLibrary lib).afterAll calls).resolve raw).1 = freshly lib maxDepth raw) := by
  have hnil : (ofLibrary lib).IsGrounded := .nil
  have hcases := (hnil.afterAll calls).resolve_cases raw
  rwa [library_afterAll] at hcases

/-! ## A shortcut -/

namespace Shortcut

/-- `A` refers to `B`, and one reference is followed at a time. -/
def library : Library where
  documents := [(Library.rootName, .obj [
    ("A", .obj [("$ref", .str "#/B")]),
    ("B", .str "string")])]
  maxDepth := 1

def raw : Value := .obj [("$ref", .str "#/A")]

def targetA : Target := ⟨"", "/A"⟩

def targetB : Target := ⟨"", "/B"⟩

theorem ofReference_A : Target.ofReference "" "#/A" = targetA := by decide +kernel

theorem ofReference_B : Target.ofReference "" "#/B" = targetB := by decide +kernel

theorem find_A : library.find targetA "#/A" = .ok (.obj [("$ref", .str "#/B")]) := rfl

/-- After `B` was followed, it is remembered. -/
theorem run_follow_B :
    (follow library 1 [] "" "#/B").run [] = (.ok (.scalar .string), [(targetB, .scalar .string)]) := by
  have hfind : library.find targetB "#/B" = .ok (.str "string") := rfl
  have htext : ofText "string" = .ok (.scalar .string) :=
    Except.toOption_eq_some_iff.1 (by decide +kernel)
  have hvalue : (value library 0 [targetB] "" (.str "string")).run [] =
      (.ok (.scalar .string), []) := by
    unfold value
    rw [htext]
    rfl
  exact run_follow_of_ok ofReference_B rfl List.not_mem_nil hfind hvalue

/-- A new resolver does not get from `A` to `B`. -/
theorem freshly_raw : freshly library 1 raw = .error (.depthExceeded "#/B" 1) := by
  have hB : (value library 0 [targetA] "" (.obj [("$ref", .str "#/B")])).run [] =
      (.error (.depthExceeded "#/B" 1), []) := by
    rw [value_reference]
    exact run_follow_zero library ofReference_B rfl (by decide)
  have hA := run_follow_of_error ofReference_A rfl List.not_mem_nil find_A hB
  rw [← value_reference] at hA
  exact congrArg Prod.fst hA

/-- Who remembers `B` need not follow it. -/
theorem resolve_raw : ((ofLibrary library).afterAll [.follow "#/B"]).resolve raw =
    (.ok (.scalar .string),
      ⟨library, [(targetA, .scalar .string), (targetB, .scalar .string)]⟩) := by
  have hcall : (ofLibrary library).afterAll [.follow "#/B"] =
      ⟨library, [(targetB, .scalar .string)]⟩ :=
    congrArg (fun x : Except SchemaError Schema × Resolved => Resolver.mk library x.2) run_follow_B
  have hB : (value library 0 [targetA] "" (.obj [("$ref", .str "#/B")])).run
      [(targetB, .scalar .string)] = (.ok (.scalar .string), [(targetB, .scalar .string)]) := by
    rw [value_reference]
    exact run_follow_of_lookup library ofReference_B List.lookup_cons_self
  have hA := run_follow_of_ok ofReference_A (by decide) List.not_mem_nil find_A hB
  rw [← value_reference] at hA
  rw [hcall]
  exact congrArg (fun x => (x.1, Resolver.mk library x.2)) hA

end Shortcut

/-- What is remembered stands in for a reference that the bound forbids. -/
theorem not_forall_resolve_eq : ¬ ∀ (lib : Library) (calls : List ResolverCall) (raw : Value),
    (((ofLibrary lib).afterAll calls).resolve raw).1 = freshly lib lib.maxDepth raw := by
  intro h
  have hsame := h Shortcut.library [.follow "#/B"] Shortcut.raw
  rw [Shortcut.resolve_raw] at hsame
  cases hsame.trans Shortcut.freshly_raw

end Resolver

end CapabilityFlow
