import CapabilityFlow.Proofs.Except
import CapabilityFlow.Proofs.Schema.Walking

/-!
# Paths one behind the other

To walk a path is to walk its first part and then the rest from there (`Schema.walk_append`). At a
union the two differ in what they do on the way: the whole path drops results that are the same at
its end, while its parts drop them in between as well and may find a single schema there. Since a
schema that is dropped leads wherever the one that is kept leads (`Schema.Interchangeable.walk`),
the same results are kept in the end (`Schema.distinct_map_bind`).
-/

namespace CapabilityFlow.Schema

variable {s t u : Schema} {fields fields' : Table Schema} {required required' : List String}
  {isOpen isOpen' : Bool} {arms arms' l l' : List Schema}

/-! ## Schemas that are the same -/

theorem same_object_iff :
    (object fields required isOpen).same (.object fields' required' isOpen') = true ↔
      fields.length = fields'.length ∧ required = required' ∧ isOpen = isOpen' ∧
        ∀ f ∈ fields, ∃ t, fields'.get? f.1 = some t ∧ f.2.same t = true := by
  simp only [same, Bool.and_eq_true, decide_eq_true_eq, sameFields_iff, and_assoc]

mutual

/-- Where no field is declared twice, a schema is the same as itself. -/
theorem same_refl (s : Schema) (hs : s.DeclaresOnce) : s.same s = true := by
  match s with
  | .any | .unknown => rfl
  | .scalar _ => simp [same]
  | .array s =>
    rw [same]
    exact same_refl s hs.element
  | .union arms =>
    rw [same]
    exact sameArms_refl arms fun _ => hs.arm
  | .object fields _ _ =>
    refine same_object_iff.2 ⟨rfl, rfl, rfl, fun f hf => ⟨f.2, ?_, same_refl f.2 (hs.field hf)⟩⟩
    exact (Table.get?_eq_some_iff_mem (hs _ (.self _))).2 hf
termination_by sizeOf s
decreasing_by
  · simp
  · simp
  · have := Table.sizeOf_lt_of_mem hf
    simp; omega

theorem sameArms_refl (arms : List Schema) (harms : ∀ s ∈ arms, s.DeclaresOnce) :
    sameArms arms arms = true := by
  match arms with
  | [] => rfl
  | s :: rest =>
    rw [List.forall_mem_cons] at harms
    rw [sameArms, Bool.and_eq_true]
    exact ⟨same_refl s harms.1, sameArms_refl rest harms.2⟩
termination_by sizeOf arms

end

mutual

theorem same_trans (s t u : Schema) (hst : s.same t = true) (htu : t.same u = true) :
    s.same u = true := by
  match s, t, u with
  | .any, .any, .any | .unknown, .unknown, .unknown => rfl
  | .scalar _, .scalar _, .scalar _ => simp_all [same]
  | .array s, .array t, .array u =>
    simp only [same] at hst htu ⊢
    exact same_trans s t u hst htu
  | .union arms, .union arms', .union arms'' =>
    simp only [same] at hst htu ⊢
    exact sameArms_trans arms arms' arms'' hst htu
  | .object fields _ _, .object fields' _ _, .object fields'' _ _ =>
    obtain ⟨hlength, rfl, rfl, hfields⟩ := same_object_iff.1 hst
    obtain ⟨hlength', rfl, rfl, hfields'⟩ := same_object_iff.1 htu
    refine same_object_iff.2 ⟨hlength.trans hlength', rfl, rfl, fun f hf => ?_⟩
    obtain ⟨t, ht, hst⟩ := hfields f hf
    obtain ⟨u, hu, htu⟩ := hfields' _ (Table.mem_of_get? ht)
    exact ⟨u, hu, same_trans f.2 t u hst htu⟩
termination_by sizeOf s
decreasing_by
  · simp
  · simp
  · have := Table.sizeOf_lt_of_mem hf
    simp; omega

theorem sameArms_trans (arms arms' arms'' : List Schema) (h : sameArms arms arms' = true)
    (h' : sameArms arms' arms'' = true) : sameArms arms arms'' = true := by
  match arms, arms', arms'' with
  | [], [], [] => rfl
  | s :: rest, t :: rest', u :: rest'' =>
    simp only [sameArms, Bool.and_eq_true] at h h' ⊢
    exact ⟨same_trans s t u h.1 h'.1, sameArms_trans rest rest' rest'' h.2 h'.2⟩
termination_by sizeOf arms

end

mutual

/-- Where no field is declared twice, it does not matter which of two schemas is compared with the
other. -/
theorem same_symm (s t : Schema) (hs : s.DeclaresOnce) (ht : t.DeclaresOnce)
    (h : s.same t = true) : t.same s = true := by
  match s, t with
  | .any, .any | .unknown, .unknown => rfl
  | .scalar _, .scalar _ => simp_all [same]
  | .array s, .array t =>
    simp only [same] at h ⊢
    exact same_symm s t hs.element ht.element h
  | .union arms, .union arms' =>
    simp only [same] at h ⊢
    exact sameArms_symm arms arms' (fun _ => hs.arm) (fun _ => ht.arm) h
  | .object fields _ _, .object fields' _ _ =>
    obtain ⟨hlength, rfl, rfl, hfields⟩ := same_object_iff.1 h
    refine same_object_iff.2 ⟨hlength.symm, rfl, rfl, fun f hf => ?_⟩
    have hnames :=
      mem_names_iff_of_sameFields (sameFields_iff.2 hfields) hlength (hs _ (.self _)) f.1
    obtain ⟨s, hget⟩ := Table.exists_get?_of_mem_names (hnames.1 (List.mem_map_of_mem hf))
    have hmem := Table.mem_of_get? hget
    obtain ⟨t, ht', hst⟩ := hfields _ hmem
    obtain rfl : f.2 = t := Option.some.inj <|
      ((Table.get?_eq_some_iff_mem (ht _ (.self _))).2 hf).symm.trans ht'
    exact ⟨s, hget, same_symm s f.2 (hs.field hmem) (ht.field hf) hst⟩
termination_by sizeOf s
decreasing_by
  · simp
  · simp
  · have := Table.sizeOf_lt_of_mem hmem
    simp at this ⊢; omega

theorem sameArms_symm (arms arms' : List Schema) (harms : ∀ s ∈ arms, s.DeclaresOnce)
    (harms' : ∀ t ∈ arms', t.DeclaresOnce) (h : sameArms arms arms' = true) :
    sameArms arms' arms = true := by
  match arms, arms' with
  | [], [] => rfl
  | s :: rest, t :: rest' =>
    simp only [sameArms, Bool.and_eq_true, List.forall_mem_cons] at h harms harms' ⊢
    exact ⟨same_symm s t harms.1 harms'.1 h.1, sameArms_symm rest rest' harms.2 harms'.2 h.2⟩
termination_by sizeOf arms

end

/-- Each of two schemas is the same as the other. -/
structure Interchangeable (s t : Schema) : Prop where
  forth : s.same t = true
  back : t.same s = true

theorem Interchangeable.of_same (hs : s.DeclaresOnce) (ht : t.DeclaresOnce)
    (h : s.same t = true) : s.Interchangeable t :=
  ⟨h, same_symm s t hs ht h⟩

theorem Interchangeable.exists_get?_eq_some
    (h : (object fields required isOpen).Interchangeable (.object fields' required' isOpen'))
    {name : String} (hs : fields.get? name = some s) :
    ∃ t, fields'.get? name = some t ∧ s.Interchangeable t := by
  obtain ⟨-, -, -, hforth⟩ := same_object_iff.1 h.forth
  obtain ⟨-, -, -, hback⟩ := same_object_iff.1 h.back
  obtain ⟨t, ht, hst⟩ := hforth _ (Table.mem_of_get? hs)
  obtain ⟨s', hs', hts⟩ := hback _ (Table.mem_of_get? ht)
  obtain rfl : s = s' := Option.some.inj (hs.symm.trans hs')
  exact ⟨t, ht, hst, hts⟩

theorem Interchangeable.get?_eq_none
    (h : (object fields required isOpen).Interchangeable (.object fields' required' isOpen'))
    {name : String} (hnone : fields.get? name = none) : fields'.get? name = none := by
  obtain ⟨-, -, -, hback⟩ := same_object_iff.1 h.back
  by_contra hne
  obtain ⟨t, ht⟩ := Option.ne_none_iff_exists'.1 hne
  obtain ⟨s, hs, -⟩ := hback _ (Table.mem_of_get? ht)
  cases hnone.symm.trans hs

theorem forall₂_interchangeable_iff : List.Forall₂ Interchangeable l l' ↔
    sameArms l l' = true ∧ sameArms l' l = true := by
  induction l generalizing l' with
  | nil => cases l' <;> simp [sameArms]
  | cons s rest ih =>
    cases l' with
    | nil => simp [sameArms]
    | cons t rest' =>
      simp only [List.forall₂_cons, ih, sameArms, Bool.and_eq_true]
      constructor
      · rintro ⟨⟨hst, hts⟩, hrest, hrest'⟩
        exact ⟨⟨hst, hrest⟩, hts, hrest'⟩
      · rintro ⟨⟨hst, hrest⟩, hts, hrest'⟩
        exact ⟨⟨hst, hts⟩, hrest, hrest'⟩

theorem Interchangeable.ofArms (h : List.Forall₂ Interchangeable l l') :
    (ofArms l).Interchangeable (ofArms l') := by
  have hunion : (union l).Interchangeable (.union l') := by
    obtain ⟨hforth, hback⟩ := forall₂_interchangeable_iff.1 h
    exact ⟨by rwa [same], by rwa [same]⟩
  match h with
  | .nil => exact hunion
  | .cons hst .nil => exact hst
  | .cons _ (.cons _ _) => exact hunion

/-! ## Results that are the same -/

/-- Two results are interchangeable schemas, or both are errors. -/
inductive Corresponding : Except PathError Schema → Except PathError Schema → Prop where
  | ok {s t : Schema} (h : s.Interchangeable t) : Corresponding (.ok s) (.ok t)
  | error (e e' : PathError) : Corresponding (.error e) (.error e')

theorem Corresponding.exists_of_ok {r : Except PathError Schema} (h : Corresponding (.ok s) r) :
    ∃ t, r = .ok t ∧ s.Interchangeable t := by
  cases h with
  | ok h => exact ⟨_, rfl, h⟩

theorem corresponding_of_rel {r r' : Except PathError Schema}
    (h : Option.Rel Interchangeable r.toOption r'.toOption) : Corresponding r r' := by
  cases r with
  | error e =>
    cases r' with
    | error e' => exact .error e e'
    | ok t => cases h
  | ok s =>
    cases r' with
    | error e' => cases h
    | ok t =>
      cases h with
      | some h => exact .ok h

variable {results results' : List (Except PathError Schema)}

theorem any_same_iff_of_interchangeable (hst : s.Interchangeable t)
    (h : List.Forall₂ Interchangeable l l') :
    l.any (s.same ·) = true ↔ l'.any (t.same ·) = true := by
  induction h with
  | nil => simp
  | @cons u v _ _ huv _ ih =>
    have hsu : s.same u = true ↔ t.same v = true :=
      ⟨fun h => same_trans t s v hst.back (same_trans s u v h huv.forth),
        fun h => same_trans s t u hst.forth (same_trans t v u h huv.back)⟩
    rw [List.any_cons, List.any_cons, Bool.or_eq_true, Bool.or_eq_true, hsu, ih]

theorem forall₂_distinct (h : List.Forall₂ Corresponding results results') :
    List.Forall₂ Interchangeable (distinct results) (distinct results') := by
  unfold distinct
  refine List.rel_foldl (fun l l' hl r r' hr => ?_) .nil h
  cases hr with
  | error => exact hl
  | @ok s t hst =>
    dsimp only
    by_cases hany : l.any (s.same ·) = true
    · rw [if_pos hany, if_pos ((any_same_iff_of_interchangeable hst hl).1 hany)]
      exact hl
    · rw [if_neg hany, if_neg fun h => hany ((any_same_iff_of_interchangeable hst hl).2 h)]
      exact List.rel_append hl (.cons hst .nil)

/-- What is kept depends only on the results that are no errors. -/
theorem distinct_map_congr {f g : Schema → Except PathError Schema}
    (h : ∀ arm ∈ arms, (f arm).toOption = (g arm).toOption) :
    distinct (arms.map f) = distinct (arms.map g) := by
  induction arms using List.reverseRecOn with
  | nil => rfl
  | append_singleton rest arm ih =>
    have ih := ih fun arm harm => h arm (List.mem_append_left _ harm)
    have harm := h arm (List.mem_append_right _ List.mem_cons_self)
    simp only [List.map_append, List.map_singleton]
    cases hf : f arm with
    | error e =>
      rw [hf] at harm
      cases hg : g arm with
      | error e' => rw [distinct_concat_error, distinct_concat_error, ih]
      | ok t =>
        rw [hg] at harm
        cases harm
    | ok s =>
      rw [hf] at harm
      rw [Except.toOption_eq_some_iff.1 harm.symm, distinct_concat_ok, distinct_concat_ok, ih]

/-- A result that is the same as an earlier one is dropped. -/
theorem distinct_concat_of_same (ht : .ok t ∈ results) (h : s.same t = true) :
    distinct (results ++ [.ok s]) = distinct results := by
  obtain ⟨u, hu, htu⟩ := exists_mem_distinct ht
  have hsu : s.same u = true := by
    rcases htu with rfl | htu
    · exact h
    · exact same_trans s t u h htu
  rw [distinct_concat_ok, if_pos (List.any_eq_true.2 ⟨u, hu, hsu⟩)]

theorem distinct_concat_congr (h : distinct results = distinct results')
    (r : Except PathError Schema) : distinct (results ++ [r]) = distinct (results' ++ [r]) := by
  cases r with
  | error e => rw [distinct_concat_error, distinct_concat_error, h]
  | ok s => rw [distinct_concat_ok, distinct_concat_ok, h]

/-- Results that are dropped before the next step are dropped behind it as well, if that leads the
same way from schemas that are the same. -/
theorem distinct_map_bind {f : Schema → Except PathError Schema}
    (h : ∀ s t, .ok s ∈ results → .ok t ∈ results → s.same t = true → Corresponding (f s) (f t)) :
    distinct (results.map (· >>= f)) = distinct ((distinct results).map f) := by
  induction results using List.reverseRecOn with
  | nil => rfl
  | append_singleton rest r ih =>
    have ih := ih fun s t hs ht => h s t (List.mem_append_left _ hs) (List.mem_append_left _ ht)
    rw [List.map_append, List.map_singleton]
    cases r with
    | error e =>
      rw [distinct_concat_error, ← ih]
      exact distinct_concat_error _ e
    | ok s =>
      have hstep : (Except.ok s >>= f) = f s := rfl
      rw [hstep, distinct_concat_ok]
      split
      · rename_i hany
        obtain ⟨t, ht, hst⟩ := List.any_eq_true.1 hany
        have hmem : .ok t ∈ rest := of_mem_distinct ht
        have hft : f t ∈ rest.map (· >>= f) := List.mem_map_of_mem (f := (· >>= f)) hmem
        -- The step from the dropped schema leads to what the step from the kept one leads to.
        have hs := h s t (List.mem_append_right _ List.mem_cons_self) (List.mem_append_left _ hmem) hst
        rw [← ih]
        cases hfs : f s with
        | error e => exact distinct_concat_error _ e
        | ok u =>
          rw [hfs] at hs
          obtain ⟨v, hv, huv⟩ := hs.exists_of_ok
          rw [hv] at hft
          exact distinct_concat_of_same hft huv.forth
      · rw [List.map_append, List.map_singleton]
        exact distinct_concat_congr ih (f s)

/-! ## Walks -/

variable {n m : Schema} {p q : Path}

/-- What a walk through a union gives: the schemas that are kept, unless there are none. -/
def union? : List Schema → Option Schema
  | [] => none
  | arms => some (ofArms arms)

theorem rel_union? (h : List.Forall₂ Interchangeable l l') :
    Option.Rel Interchangeable (union? l) (union? l') := by
  cases h with
  | nil => exact .none
  | cons hst hrest => exact .some (.ofArms (.cons hst hrest))

theorem toOption_walk_union (seg : Segment) (arms : List Schema) (p : Path) :
    ((union arms).walk (seg :: p)).toOption =
      union? (distinct (arms.map (·.walk (seg :: p)))) := by
  rw [walk]
  split
  · rename_i hnil
    rw [hnil]
    rfl
  · rename_i hne
    cases h : distinct (arms.map (·.walk (seg :: p))) with
    | nil => exact absurd h hne
    | cons => rfl

/-- A single schema is walked as the union of one arm would be. -/
theorem toOption_walk_ofArms (seg : Segment) (arms : List Schema) (p : Path) :
    ((ofArms arms).walk (seg :: p)).toOption =
      union? (distinct (arms.map (·.walk (seg :: p)))) := by
  match arms with
  | [] => exact toOption_walk_union seg [] p
  | [s] =>
    rw [ofArms, List.map_singleton]
    cases s.walk (seg :: p) <;> rfl
  | s :: t :: rest => exact toOption_walk_union seg (s :: t :: rest) p

theorem walk_any (p : Path) : any.walk p = .ok .any := by
  cases p <;> rw [walk]

theorem walk_unknown (p : Path) : unknown.walk p = .ok .unknown := by
  cases p <;> rw [walk]

/-- Interchangeable schemas lead to interchangeable schemas. -/
theorem Interchangeable.walk (h : s.Interchangeable t) (p : Path) :
    Corresponding (s.walk p) (t.walk p) := by
  have hforth := h.forth
  induction s, p using walk.induct generalizing t with
  | case1 s =>
    rw [Schema.walk, Schema.walk]
    exact .ok h
  | case2 seg rest =>
    cases t <;> simp [same] at hforth
    rw [walk_any]
    exact .ok h
  | case3 seg rest =>
    cases t <;> simp [same] at hforth
    rw [walk_unknown]
    exact .ok h
  | case4 arms seg rest | case5 arms seg rest =>
    rename_i ih
    cases t <;> simp [same] at hforth
    rename_i arms'
    have harms : List.Forall₂ Interchangeable arms arms' :=
      forall₂_interchangeable_iff.2 ⟨hforth, by simpa [same] using h.back⟩
    have hresults : List.Forall₂ Corresponding (arms.map (·.walk (seg :: rest)))
        (arms'.map (·.walk (seg :: rest))) := by
      rw [List.forall₂_map_left_iff, List.forall₂_map_right_iff]
      exact ((List.forall₂_and_left _ _).2 ⟨ih, harms⟩).imp fun _ _ h => h.1 h.2 h.2.forth
    refine corresponding_of_rel ?_
    rw [toOption_walk_union, toOption_walk_union]
    exact rel_union? (forall₂_distinct hresults)
  | case6 fields required isOpen name rest s hs ih =>
    cases t <;> simp [same] at hforth
    obtain ⟨t, ht, hst⟩ := h.exists_get?_eq_some hs
    rw [Schema.walk, hs, Schema.walk, ht]
    exact ih hst hst.forth
  | case7 fields required name rest hnone =>
    cases t <;> simp [same] at hforth
    rw [Schema.walk, hnone, Schema.walk, h.get?_eq_none hnone]
    obtain ⟨-, rfl⟩ := hforth.1
    exact .ok ⟨rfl, rfl⟩
  | case8 fields required isOpen name rest hnone hopen =>
    cases t <;> simp [same] at hforth
    rw [Schema.walk, hnone, Schema.walk, h.get?_eq_none hnone]
    obtain ⟨-, rfl⟩ := hforth.1
    rw [Bool.not_eq_true] at hopen
    simp only [hopen]
    exact .error _ _
  | case9 element rest ih =>
    cases t <;> simp [same] at hforth
    rw [Schema.walk, Schema.walk]
    exact ih ⟨hforth, by simpa [same] using h.back⟩ hforth
  | case10 s rest hany hunknown hunion harray =>
    cases s with
    | any => exact absurd rfl hany
    | unknown => exact absurd rfl hunknown
    | union arms => exact absurd rfl (hunion arms)
    | array element => exact absurd rfl (harray element)
    | scalar | object =>
      cases t <;> simp [same] at hforth
      simp only [Schema.walk]
      exact .error _ _
  | case11 s name rest hany hunknown hunion hobject =>
    cases s with
    | any => exact absurd rfl hany
    | unknown => exact absurd rfl hunknown
    | union arms => exact absurd rfl (hunion arms)
    | object fields required isOpen => exact absurd rfl (hobject fields required isOpen)
    | scalar | array =>
      cases t <;> simp [same] at hforth
      simp only [Schema.walk]
      exact .error _ _

theorem walk_element_eq_error (hany : s ≠ .any) (hunknown : s ≠ .unknown)
    (hunion : ∀ arms, s ≠ .union arms) (harray : ∀ element, s ≠ .array element) (p : Path) :
    s.walk (.element :: p) = .error (.notAnArray s.text) := by
  simp_all [Schema.walk]

theorem walk_field_eq_error (hany : s ≠ .any) (hunknown : s ≠ .unknown)
    (hunion : ∀ arms, s ≠ .union arms)
    (hobject : ∀ fields required isOpen, s ≠ .object fields required isOpen) (name : String)
    (p : Path) : s.walk (.field name :: p) = .error (.notAnObject name s.text) := by
  simp_all [Schema.walk]

theorem union?_bind_walk (arms : List Schema) (seg : Segment) (p : Path) :
    ((union? arms).bind fun s => (s.walk (seg :: p)).toOption) =
      union? (distinct (arms.map (·.walk (seg :: p)))) := by
  cases arms with
  | nil => rfl
  | cons s rest => exact toOption_walk_ofArms seg (s :: rest) p

/-- Walking on from what is kept of several walks keeps what whole walks keep. -/
theorem distinct_map_walk_append (hn : ∀ arm ∈ arms, arm.DeclaresOnce)
    (h : ∀ arm ∈ arms, (arm.walk (p ++ q)).toOption = (arm.walk p >>= (·.walk q)).toOption) :
    distinct (arms.map (·.walk (p ++ q))) =
      distinct ((distinct (arms.map (·.walk p))).map (·.walk q)) := by
  have honce : ∀ s, .ok s ∈ arms.map (·.walk p) → s.DeclaresOnce := by
    intro s hs
    obtain ⟨arm, harm, hwalk⟩ := List.mem_map.1 hs
    exact (hn arm harm).walk hwalk
  calc distinct (arms.map (·.walk (p ++ q)))
      = distinct ((arms.map (·.walk p)).map (· >>= (·.walk q))) := by
        rw [List.map_map]
        exact distinct_map_congr h
    _ = distinct ((distinct (arms.map (·.walk p))).map (·.walk q)) :=
        distinct_map_bind fun s t hs ht hst =>
          (Interchangeable.of_same (honce s hs) (honce t ht) hst).walk q

/-- As far as schemas are found, to walk a path is to walk its first part and then the rest. -/
theorem toOption_walk_append (n : Schema) (p : Path) (seg : Segment) (q : Path)
    (hn : n.DeclaresOnce) : (n.walk (p ++ seg :: q)).toOption =
      (n.walk p >>= (·.walk (seg :: q))).toOption := by
  induction n, p using walk.induct with
  | case1 s =>
    rw [walk]
    rfl
  | case2 => simp only [walk_any, bind, Except.bind]
  | case3 => simp only [walk_unknown, bind, Except.bind]
  | case4 arms seg' rest | case5 arms seg' rest =>
    rename_i ih
    rw [Except.toOption_bind, toOption_walk_union, union?_bind_walk, List.cons_append,
      toOption_walk_union]
    exact congrArg union? <|
      distinct_map_walk_append (fun _ => hn.arm) fun arm harm => ih arm harm (hn.arm harm)
  | case6 fields required isOpen name rest s hs ih =>
    rw [List.cons_append, walk, hs, walk, hs]
    exact ih (hn.field (Table.mem_of_get? hs))
  | case7 fields required name rest hnone =>
    rw [List.cons_append, walk, hnone, walk, hnone]
    exact congrArg Except.toOption (walk_unknown _).symm
  | case8 fields required isOpen name rest hnone hopen =>
    rw [Bool.not_eq_true] at hopen
    rw [List.cons_append, walk, hnone, walk, hnone]
    simp only [hopen]
    rfl
  | case9 element rest ih =>
    rw [List.cons_append, walk, walk]
    exact ih hn.element
  | case10 s rest hany hunknown hunion harray =>
    rw [List.cons_append, walk_element_eq_error hany hunknown hunion harray,
      walk_element_eq_error hany hunknown hunion harray]
    rfl
  | case11 s name rest hany hunknown hunion hobject =>
    rw [List.cons_append, walk_field_eq_error hany hunknown hunion hobject,
      walk_field_eq_error hany hunknown hunion hobject]
    rfl

/-- To walk a path is to walk its first part and then the rest from there: both succeed for the same
paths, and find the same schema. -/
theorem walk_append (n r : Schema) (p q : Path) (hn : n.DeclaresOnce) :
    n.walk (p ++ q) = .ok r ↔ ∃ m, n.walk p = .ok m ∧ m.walk q = .ok r := by
  cases q with
  | nil =>
    have hnil : ∀ m : Schema, m.walk [] = .ok m := fun m => by rw [walk]
    simp only [List.append_nil, hnil, Except.ok.injEq, exists_eq_right]
  | cons seg q =>
    rw [← Except.bind_eq_ok_iff, ← Except.toOption_eq_some_iff, toOption_walk_append n p seg q hn,
      Except.toOption_eq_some_iff]

namespace Sample

/-- A closed object of an identifier and a size. -/
def entry : Schema :=
  .object [("id", .scalar .string), ("size", .scalar .integer)] ["id"] false

/-- The same with its fields in another order. -/
def entry' : Schema :=
  .object [("size", .scalar .integer), ("id", .scalar .string)] ["id"] false

def listed (s : Schema) : Schema :=
  .object [("items", .array s)] [] false

/-- Lists of entries, of names, or of both, or nothing. -/
def shelf : Schema :=
  .union [listed entry, .union [listed entry', .scalar .null],
    .union [.scalar .null, listed (.union [entry', .object [("name", .scalar .string)] [] false])],
    .scalar .null]

/-- What the items of a shelf are found to be. -/
def items : Schema :=
  .union [.array entry, .array (.union [entry', .object [("name", .scalar .string)] [] false])]

end Sample

open Sample in
/-- Two of the arms yield the same items, and others have no items or items of which not all have an
identifier. -/
theorem walk_append_sample : shelf.DeclaresOnce ∧
    shelf.walk [.field "items"] = .ok items ∧
    items.walk [.element, .field "id"] = .ok (.scalar .string) ∧
    shelf.walk ([.field "items"] ++ [.element, .field "id"]) = .ok (.scalar .string) := by
  have hn : shelf.DeclaresOnce := by simp [shelf, listed, entry, entry', DeclaresOnce, Table.names]
  have hitems : shelf.walk [.field "items"] = .ok items :=
    Except.toOption_eq_some_iff.1 (by decide +kernel)
  have hid : items.walk [.element, .field "id"] = .ok (.scalar .string) :=
    Except.toOption_eq_some_iff.1 (by decide +kernel)
  exact ⟨hn, hitems, hid, (walk_append _ _ _ _ hn).2 ⟨items, hitems, hid⟩⟩

end CapabilityFlow.Schema
