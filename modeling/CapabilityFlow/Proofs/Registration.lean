import CapabilityFlow.Proofs.Coercion

/-!
# Calls that register coercions

A registry that calls fill, starting from the empty one, holds what the calls entered. For each pair
of texts this is what the first of them entered: every later call for the pair is refused, and calls
that are refused leave no trace (`CoercionRegistry.after_holds_first`).
-/

namespace CapabilityFlow

theorem CoercionDeclaration.Declares.unique {d : CoercionDeclaration} {c c' : Coercion}
    (h : d.Declares c) (h' : d.Declares c') : c = c' := by
  rw [h.eq_between, h'.eq_between, Except.ok.inj (h.source.symm.trans h'.source),
    Except.ok.inj (h.target.symm.trans h'.target)]

namespace CoercionRegistry

/-- The registry after calls on the empty one, whether they fail or not. -/
def after (ds : List CoercionDeclaration) : CoercionRegistry :=
  ds.foldl (fun r d => ((enter d).run r).2) empty

/-- The call at a position succeeds, and the coercion is the one that it declares. -/
def Enters (ds : List CoercionDeclaration) (i : Nat) (c : Coercion) : Prop :=
  ∃ d, ds[i]? = some d ∧ d.Declares c ∧ ((enter d).run (after (ds.take i))).1 = .ok ()

/-- One of the calls enters the coercion, between types of the texts. -/
def Entered (ds : List CoercionDeclaration) (source target : String) (c : Coercion) : Prop :=
  ∃ i, Enters ds i c ∧ c.source.text = source ∧ c.target.text = target

variable {r : CoercionRegistry} {d : CoercionDeclaration} {ds : List CoercionDeclaration}
  {c c' : Coercion} {i j : Nat} {found expected : Schema}

/-! ## One call -/

theorem lookup_cons_eq_ite (key k : String × String) (rules : List ((String × String) × Coercion)) :
    ((key, c) :: rules).lookup k = if k = key then some c else rules.lookup k := by
  rw [List.lookup_cons]
  by_cases hk : k = key
  · simp [hk]
  · simp [hk, beq_false_of_ne hk]

theorem lookup_insertRule {key : String × String} {rules : List ((String × String) × Coercion)}
    (hnew : rules.lookup key = none) (k : String × String) :
    (insertRule key c rules).lookup k = if k = key then some c else rules.lookup k := by
  induction rules with
  | nil => exact lookup_cons_eq_ite key k []
  | cons p rest ih =>
    rw [lookup_cons_eq_ite] at hnew
    split at hnew
    · cases hnew
    rename_i hp
    unfold insertRule
    split
    · exact lookup_cons_eq_ite key k (p :: rest)
    · rw [lookup_cons_eq_ite, lookup_cons_eq_ite, ih hnew]
      by_cases hk : k = key
      · simp [hk, hp]
      · simp [hk]

theorem lookup?_insert (hnew : r.lookup? c.source c.target = none) :
    (r.insert c).lookup? found expected =
      if found.text = c.source.text ∧ expected.text = c.target.text then some c
      else r.lookup? found expected := by
  unfold lookup? lookupText? insert
  rw [lookup_insertRule hnew]
  simp only [Prod.mk.injEq]

theorem run_enter_snd_of_error (h : ((enter d).run r).1 ≠ .ok ()) : ((enter d).run r).2 = r := by
  obtain ⟨e, hrun⟩ | ⟨c, -, -, hrun⟩ := run_enter_error_or_ok d r
  · rw [hrun]
  · rw [hrun] at h
    exact absurd rfl h

/-- A call whose texts write types is accepted as long as the types have no coercion, and refused as
a duplicate from then on. -/
theorem run_enter_fst_of_declares (h : d.Declares c) : ((enter d).run r).1 =
    if r.lookup? c.source c.target = none then .ok ()
    else .error (.duplicate c.source.text c.target.text) := by
  obtain ⟨cause, -, hsource | htarget⟩ | ⟨c', hc', ⟨hsome, hrun⟩ | ⟨hnone, hrun⟩⟩ :=
    run_enter_cases d r
  · rw [h.source] at hsource
    cases hsource
  · rw [h.target] at htarget
    cases htarget
  · obtain rfl := h.unique hc'
    rw [hrun, if_neg hsome]
  · obtain rfl := h.unique hc'
    rw [hrun, if_pos hnone]

/-! ## Runs of calls -/

theorem after_append_singleton (ds : List CoercionDeclaration) (d : CoercionDeclaration) :
    after (ds ++ [d]) = ((enter d).run (after ds)).2 :=
  List.foldl_append

theorem wellKeyed_after (ds : List CoercionDeclaration) : (after ds).WellKeyed := by
  induction ds using List.reverseRecOn with
  | nil => exact wellKeyed_empty
  | append_singleton ds d ih =>
    rw [after_append_singleton]
    exact ih.run_enter d

/-- A call more enters its own coercion if it is accepted, and the earlier ones enter the same. -/
theorem enters_append_singleton : Enters (ds ++ [d]) i c ↔
    Enters ds i c ∨ i = ds.length ∧ d.Declares c ∧ ((enter d).run (after ds)).1 = .ok () := by
  unfold Enters
  obtain hlt | rfl | hgt := Nat.lt_trichotomy i ds.length
  · rw [List.getElem?_append_left hlt, List.take_append_of_le_length hlt.le]
    simp [hlt.ne]
  · simp
  · rw [List.getElem?_eq_none (by simpa [Nat.succ_le_iff] using hgt), List.getElem?_eq_none hgt.le]
    simp [hgt.ne']

/-- What a call enters depends on the calls before it alone. -/
theorem enters_take_iff : Enters (ds.take j) i c ↔ i < j ∧ Enters ds i c := by
  unfold Enters
  rw [List.getElem?_take, List.take_take]
  split
  · rename_i hij
    simp [hij, min_eq_left hij.le]
  · rename_i hij
    simp [hij]

/-- A registry finds what the calls entered. -/
theorem lookup?_after_eq_some_iff : (after ds).lookup? found expected = some c ↔
    Entered ds found.text expected.text c := by
  unfold Entered
  induction ds using List.reverseRecOn generalizing found expected c with
  | nil => simp [after, empty, lookup?, lookupText?, Enters]
  | append_singleton ds d ih =>
    rw [after_append_singleton]
    simp only [enters_append_singleton]
    obtain ⟨e, hrun⟩ | ⟨n, hn, hnone, hrun⟩ := run_enter_error_or_ok d (after ds)
    · simp [hrun, ih]
    · rw [hrun, lookup?_insert hnone]
      split
      · rename_i htext
        constructor
        · rintro ⟨⟩
          exact ⟨ds.length, .inr ⟨rfl, hn, rfl⟩, htext.1.symm, htext.2.symm⟩
        · rintro ⟨i, hc | ⟨-, hc, -⟩, hsource, htarget⟩
          · have hfound := ih.2 ⟨i, hc, hsource.trans htext.1, htarget.trans htext.2⟩
            rw [hnone] at hfound
            cases hfound
          · rw [hn.unique hc]
      · rename_i htext
        rw [ih]
        constructor
        · rintro ⟨i, hc, htexts⟩
          exact ⟨i, .inl hc, htexts⟩
        · rintro ⟨i, hc | ⟨-, hc, -⟩, hsource, htarget⟩
          · exact ⟨i, hc, hsource, htarget⟩
          · rw [hc.unique hn] at hsource htarget
            exact absurd ⟨hsource.symm, htarget.symm⟩ htext

/-- Where a call enters a coercion, the calls before it entered none between types of the same
texts. -/
theorem Enters.lookup?_take (h : Enters ds i c) :
    (after (ds.take i)).lookup? c.source c.target = none := by
  obtain ⟨d, -, hc, hok⟩ := h
  by_contra hsome
  rw [run_enter_fst_of_declares hc, if_neg hsome] at hok
  cases hok

theorem Enters.le_of_text_eq (h : Enters ds i c) (h' : Enters ds j c')
    (hsource : c.source.text = c'.source.text) (htarget : c.target.text = c'.target.text) :
    j ≤ i := by
  by_contra hlt
  have hfound := lookup?_after_eq_some_iff.2
    ⟨i, enters_take_iff.2 ⟨Nat.lt_of_not_le hlt, h⟩, hsource, htarget⟩
  rw [h'.lookup?_take] at hfound
  cases hfound

/-- For each pair of texts, one call enters a coercion. -/
theorem Enters.unique (h : Enters ds i c) (h' : Enters ds j c')
    (hsource : c.source.text = c'.source.text) (htarget : c.target.text = c'.target.text) :
    i = j ∧ c = c' := by
  obtain rfl : i = j :=
    le_antisymm (h'.le_of_text_eq h hsource.symm htarget.symm) (h.le_of_text_eq h' hsource htarget)
  obtain ⟨d, hd, hc, -⟩ := h
  obtain ⟨d', hd', hc', -⟩ := h'
  obtain rfl := Option.some.inj (hd.symm.trans hd')
  exact ⟨rfl, hc.unique hc'⟩

/-- A call that declares a coercion enters it, or there was one between types of the same texts. -/
theorem exists_enters_of_declares (hd : ds[i]? = some d) (hc : d.Declares c) :
    ∃ j ≤ i, ∃ c', Enters ds j c' ∧ c'.source.text = c.source.text ∧
      c'.target.text = c.target.text := by
  cases hfound : (after (ds.take i)).lookup? c.source c.target with
  | none =>
    refine ⟨i, le_rfl, c, ⟨d, hd, hc, ?_⟩, rfl, rfl⟩
    rw [run_enter_fst_of_declares hc, if_pos hfound]
  | some c' =>
    obtain ⟨j, hj, htexts⟩ := lookup?_after_eq_some_iff.1 hfound
    obtain ⟨hji, hj⟩ := enters_take_iff.1 hj
    exact ⟨j, hji.le, c', hj, htexts⟩

/-- The calls that enter coercions are the first ones for their pairs of texts. -/
theorem enters_iff_first : Enters ds i c ↔ (∃ d, ds[i]? = some d ∧ d.Declares c) ∧
    ∀ j < i, ∀ d c', ds[j]? = some d → d.Declares c' →
      ¬(c'.source.text = c.source.text ∧ c'.target.text = c.target.text) := by
  constructor
  · intro h
    obtain ⟨d, hd, hc, -⟩ := id h
    refine ⟨⟨d, hd, hc⟩, fun j hji d' c' hd' hc' ⟨hsource, htarget⟩ => ?_⟩
    obtain ⟨k, hkj, c'', hk, hsource', htarget'⟩ := exists_enters_of_declares hd' hc'
    have hik := hk.le_of_text_eq h (hsource'.trans hsource) (htarget'.trans htarget)
    omega
  · rintro ⟨⟨d, hd, hc⟩, hfirst⟩
    obtain ⟨j, hji, c', hj, htexts⟩ := exists_enters_of_declares hd hc
    obtain rfl | hlt := hji.eq_or_lt
    · obtain ⟨d', hd', hc', -⟩ := id hj
      obtain rfl := Option.some.inj (hd.symm.trans hd')
      rwa [hc.unique hc']
    · obtain ⟨d', hd', hc', -⟩ := hj
      exact absurd htexts (hfirst j hlt d' c' hd' hc')

/-- The registry after calls is a faithful map in which the first call for a pair of texts wins. A
call that fails leaves it as it is. It finds for two types the coercion that was entered between
types of their texts, and nothing if there is none. Only one call enters such a coercion, the first
that declares one: from then on a call that does is a duplicate, and before it is accepted. The
texts of two types lead where the types lead, also where the texts write no types. -/
theorem after_holds_first (ds : List CoercionDeclaration) :
    (∀ d e, ((enter d).run (after ds)).1 = .error e → ((enter d).run (after ds)).2 = after ds) ∧
    (∀ found expected c, (after ds).lookup? found expected = some c ↔
      Entered ds found.text expected.text c) ∧
    (∀ i c, Enters ds i c ↔ (∃ d, ds[i]? = some d ∧ d.Declares c) ∧
      ∀ j < i, ∀ d c', ds[j]? = some d → d.Declares c' →
        ¬(c'.source.text = c.source.text ∧ c'.target.text = c.target.text)) ∧
    (∀ i j c c', Enters ds i c → Enters ds j c' → c.source.text = c'.source.text →
      c.target.text = c'.target.text → i = j ∧ c = c') ∧
    (∀ d c, d.Declares c →
      ((∃ c', Entered ds c.source.text c.target.text c') →
        ((enter d).run (after ds)).1 = .error (.duplicate c.source.text c.target.text)) ∧
      ((¬∃ c', Entered ds c.source.text c.target.text c') →
        ((enter d).run (after ds)).1 = .ok ())) ∧
    ∀ found expected, (after ds).lookupTypes? ⟨found.text, expected.text⟩ =
      (after ds).lookup? found expected := by
  refine ⟨fun d e h => run_enter_snd_of_error (by simp [h]),
    fun _ _ _ => lookup?_after_eq_some_iff, fun _ _ => enters_iff_first,
    fun _ _ _ _ h h' => h.unique h', fun d c hc => ⟨?_, fun hnew => ?_⟩,
    (wellKeyed_after ds).lookupTypes?_text⟩
  · rintro ⟨c', hc'⟩
    have hfound := lookup?_after_eq_some_iff.2 hc'
    rw [run_enter_fst_of_declares hc, if_neg (by simp [hfound])]
  · rw [run_enter_fst_of_declares hc, if_pos]
    rw [Option.eq_none_iff_forall_ne_some]
    exact fun c' hfound => hnew ⟨c', lookup?_after_eq_some_iff.1 hfound⟩

namespace Sample

/-- Puts a name into a list. -/
def wrap : CoercionDeclaration where
  source := "string"
  target := "array<string|null>"
  capability := "list.wrap"
  inputField := "source"
  outputField := "result"
  params := []
  description := ""

/-- Another way to do it, with blanks in the texts of the types. -/
def rewrap : CoercionDeclaration :=
  { wrap with source := " string", target := "array< string | null >", capability := "list.box" }

/-- A type that is not written to its end. -/
def unclosed : CoercionDeclaration :=
  { wrap with target := "array<string" }

def names : Schema :=
  .array (.union [.scalar .string, .scalar .null])

theorem declares_wrap : wrap.Declares (wrap.between (.scalar .string) names) where
  source := Except.toOption_eq_some_iff.1 (by decide +kernel)
  target := Except.toOption_eq_some_iff.1 (by decide +kernel)
  eq_between := rfl

theorem declares_rewrap : rewrap.Declares (rewrap.between (.scalar .string) names) where
  source := Except.toOption_eq_some_iff.1 (by decide +kernel)
  target := Except.toOption_eq_some_iff.1 (by decide +kernel)
  eq_between := rfl

/-- Between the same types, with unions in unions. -/
def regrouped : Schema :=
  .array (.union [.union [.scalar .string], .union [.scalar .null]])

end Sample

open Sample in
/-- The second way is refused. The first is found for types of the same texts, and a union without
arms, whose text writes no type, leads nowhere. -/
theorem after_holds_first_sample :
    (after [wrap, unclosed]).lookup? (.union [.scalar .string]) regrouped =
      some (wrap.between (.scalar .string) names) ∧
    (after [wrap, unclosed]).lookupTypes? ⟨(Schema.union [.scalar .string]).text, regrouped.text⟩ =
      some (wrap.between (.scalar .string) names) ∧
    ((enter rewrap).run (after [wrap, unclosed])).1 =
      .error (.duplicate "string" "array<string|null>") ∧
    ((enter rewrap).run (after [wrap, unclosed])).2 = after [wrap, unclosed] ∧
    (after [wrap, unclosed]).lookup? (.union []) regrouped = none := by
  obtain ⟨hfail, hfinds, hfirst, -, hcall, htexts⟩ := after_holds_first [wrap, unclosed]
  have hstring : (Schema.scalar .string).text = "string" := by decide +kernel
  have hnames : names.text = "array<string|null>" := by decide +kernel
  have hunion : (Schema.union [.scalar .string]).text = (Schema.scalar .string).text := by
    decide +kernel
  have hregrouped : regrouped.text = names.text := by decide +kernel
  have hwrap : Entered [wrap, unclosed] (Schema.scalar .string).text names.text
      (wrap.between (.scalar .string) names) :=
    ⟨0, (hfirst 0 _).2 ⟨⟨wrap, rfl, declares_wrap⟩, by simp⟩, rfl, rfl⟩
  have hfound : (after [wrap, unclosed]).lookup? (.union [.scalar .string]) regrouped =
      some (wrap.between (.scalar .string) names) := by
    rw [hfinds, hunion, hregrouped]
    exact hwrap
  have hduplicate : ((enter rewrap).run (after [wrap, unclosed])).1 =
      .error (.duplicate "string" "array<string|null>") := by
    rw [← hstring, ← hnames]
    exact (hcall rewrap _ declares_rewrap).1 ⟨_, hwrap⟩
  have hunread : (TypeText.parse (Schema.union []).text).toOption = none := by decide +kernel
  have hnone : (after [wrap, unclosed]).lookup? (.union []) regrouped = none := by
    rw [← htexts, lookupTypes?, hunread]
    rfl
  exact ⟨hfound, (htexts _ _).trans hfound, hduplicate, hfail _ _ hduplicate, hnone⟩

end CoercionRegistry

end CapabilityFlow
