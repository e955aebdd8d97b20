import CapabilityFlow.Proofs.Schema.Canonical
import CapabilityFlow.Proofs.Schema.Members

/-!
# Types that agree

An inferred type admits an ascribed one exactly when a member of the first agrees with it
(`Schema.admits_iff_agrees`): arrays agree by their elements or with `any`, and any other member
when it is compatible. An array agrees with no union and not with `unknown`, even with one that
accepts it (`Schema.not_forall_admits`), though any other type does. So what accepts the inferred
type is admitted exactly when some member is set against it, which depends on the shapes of the two
alone (`Schema.Offers`). The type that its own text writes is admitted unless the inferred type is a
union of arrays, within arrays or not (`Schema.IsListUnion`, `Schema.admits_of_compatible`).
-/

namespace CapabilityFlow

namespace Schema

def isArray : Schema → Bool
  | .array _ => true
  | _ => false

/-- A member of a schema is set against another schema, and as long as both are arrays, a member of
the element against the other element. What is reached in this way is no array and stands in a
relation to what it is set against, or it is an array that is set against `any`. -/
inductive Faces (R : Schema → Schema → Prop) : Schema → Schema → Prop where
  | member {s m a : Schema} (hm : m ∈ s.members) (harray : m.isArray = false) (h : R m a) :
      Faces R s a
  | any {s element : Schema} (hm : array element ∈ s.members) : Faces R s .any
  | element {s element element' : Schema} (hm : array element ∈ s.members)
      (h : Faces R element element') : Faces R s (.array element')

/-- A member of a schema that is set against another schema is compatible with it. -/
abbrev Agrees : Schema → Schema → Prop :=
  Faces Compatible

/-- A member of a schema is set against another schema. -/
abbrev Offers : Schema → Schema → Prop :=
  Faces fun _ _ => True

/-- A schema has two or more members, all of them arrays, or it has one, an array of such. -/
inductive IsListUnion : Schema → Prop where
  | union {s : Schema} (hall : ∀ m ∈ s.members, m.isArray = true)
      (htwo : 2 ≤ s.members.length) : IsListUnion s
  | element {s element : Schema} (hs : s.members = [array element]) (h : IsListUnion element) :
      IsListUnion s

variable {s m a : Schema} {arms : List Schema}

/-! ## Members of schemas whose unions all have arms -/

theorem HasArms.members_ne_nil (h : s.HasArms) : s.members ≠ [] := by
  induction h with
  | @union arms hne _ ih =>
    obtain ⟨arm, harm⟩ := List.exists_mem_of_ne_nil arms hne
    rw [members_union, ne_eq, List.flatMap_eq_nil_iff]
    exact fun hnil => ih arm harm (hnil arm harm)
  | _ => simp [members]

theorem HasArms.of_mem_members (h : s.HasArms) (hm : m ∈ s.members) : m.HasArms := by
  fun_induction members s with
  | case1 arms ih =>
    obtain ⟨arm, harm, hm⟩ := List.mem_flatMap.1 hm
    cases h with
    | union _ harms => exact ih arm harm (harms arm harm) hm
  | case2 => rwa [List.mem_singleton.1 hm]

theorem HasArms.of_array_mem_members {element : Schema} (h : s.HasArms)
    (hm : Schema.array element ∈ s.members) : element.HasArms := by
  cases h.of_mem_members hm with
  | array helement => exact helement

/-! ## What admits a type -/

theorem Faces.mono {R R' : Schema → Schema → Prop} (hR : ∀ m a, R m a → R' m a)
    (h : s.Faces R a) : s.Faces R' a := by
  induction h with
  | member hm harray h => exact .member hm harray (hR _ _ h)
  | any hm => exact .any hm
  | element hm _ ih => exact .element hm ih

theorem Agrees.offers (h : s.Agrees a) : s.Offers a :=
  Faces.mono (fun _ _ _ => trivial) h

theorem Faces.arm {R : Schema → Schema → Prop} {arm : Schema} (h : arm.Faces R a)
    (harm : arm ∈ arms) : (union arms).Faces R a := by
  have hmem : ∀ {m}, m ∈ arm.members → m ∈ (union arms).members :=
    fun hm => mem_members_union_iff.2 ⟨arm, harm, hm⟩
  cases h with
  | member hm harray h => exact .member (hmem hm) harray h
  | any hm => exact .any (hmem hm)
  | element hm h => exact .element (hmem hm) h

/-- What a member admits, the schema admits. -/
theorem admits_of_mem_members (hm : m ∈ s.members) (h : m.admits a = true) : s.admits a = true := by
  fun_induction members s with
  | case1 arms ih =>
    obtain ⟨arm, harm, hm⟩ := List.mem_flatMap.1 hm
    exact union_admits_iff.2 ⟨arm, harm, ih arm harm hm⟩
  | case2 => rwa [← List.mem_singleton.1 hm]

/-- A member that is no array admits what it is compatible with. -/
theorem Compatible.admits (h : m.Compatible a) (harray : m.isArray = false)
    (hunion : ∀ arms, m ≠ union arms) : m.admits a = true := by
  cases m with
  | any | unknown => simp [Schema.admits]
  | scalar | object => simpa [Schema.admits, Compatible, or_comm] using h
  | array => cases harray
  | union arms => exact absurd rfl (hunion arms)

theorem agrees_of_admits (h : s.admits a = true) : s.Agrees a := by
  fun_induction admits s a with
  | case1 a => exact .member (mem_members_self (by simp)) rfl (.inl (any_accepts a))
  | case2 a => exact .member (mem_members_self (by simp)) rfl (.inl (unknown_accepts a))
  | case3 arms a ih =>
    obtain ⟨arm, harm, h⟩ := union_admits_iff.1 (by rw [admits]; exact h)
    exact (ih arm harm h).arm harm
  | case4 element element' ih => exact .element (mem_members_self (by simp)) (ih h)
  | case5 => exact .any (mem_members_self (by simp))
  | case6 => cases h
  | case7 s a hany hunknown hunion harray =>
    have harray' : s.isArray = false := by
      cases s with
      | array element => exact absurd rfl (harray element)
      | _ => rfl
    exact .member (mem_members_self hunion) harray' (by simpa [Compatible, or_comm] using h)

/-- An ascribed type is admitted exactly when it agrees with a member. -/
theorem admits_iff_agrees : s.admits a = true ↔ s.Agrees a := by
  refine ⟨agrees_of_admits, fun h => ?_⟩
  induction h with
  | member hm harray h =>
    exact admits_of_mem_members hm (h.admits harray (ne_union_of_mem_members hm))
  | any hm => exact admits_of_mem_members hm (by simp [admits])
  | element hm _ ih => exact admits_of_mem_members hm (by simpa [admits] using ih)

/-! ## Types that accept each other -/

/-- What accepts a type agrees with it, where a member is set against it. -/
theorem Faces.agrees_of_accepts {R : Schema → Schema → Prop} (h : s.Faces R a)
    (ha : a.accepts s = true) : s.Agrees a := by
  induction h with
  | member hm harray _ => exact .member hm harray (.inr (accepts_iff_forall_members.1 ha _ hm))
  | any hm => exact .any hm
  | element hm _ ih =>
    have helement := accepts_iff_forall_members.1 ha _ hm
    rw [accepts] at helement
    exact .element hm (ih helement)

/-- A single type that is accepted is accepted by a member. -/
theorem exists_member_of_accepts (hs : s.HasArms) (hunion : ∀ arms, a ≠ union arms)
    (h : s.accepts a = true) : ∃ m ∈ s.members, m.accepts a = true := by
  by_cases hany : a = .any
  · obtain ⟨m, hm⟩ := List.exists_mem_of_ne_nil _ hs.members_ne_nil
    exact ⟨m, hm, by rw [hany, accepts_any]⟩
  by_cases hunknown : a = .unknown
  · subst hunknown
    cases s with
    | union arms => cases (union_accepts_unknown arms).symm.trans h
    | _ => exact ⟨_, mem_members_self (by simp), h⟩
  · exact (accepts_iff_exists_members hany hunknown hunion).1 h

/-- What a type without empty unions accepts agrees with it, unless there is a union in it. -/
theorem agrees_of_accepts (s a : Schema) (hs : s.HasArms) (ha : a.hasUnion = false)
    (h : s.accepts a = true) : s.Agrees a := by
  have hunion : ∀ arms, a ≠ union arms := by
    rintro arms rfl
    cases ha
  obtain ⟨m, hm, h⟩ := exists_member_of_accepts hs hunion h
  cases m with
  | array element =>
    match a with
    | .any => exact .any hm
    | .array element' =>
      rw [accepts] at h
      exact .element hm (agrees_of_accepts element element' (hs.of_array_mem_members hm) ha h)
    | .union arms => exact absurd rfl (hunion arms)
    | .unknown | .scalar _ | .object _ _ _ => simp [accepts] at h
  | _ => exact .member hm rfl (.inl h)
termination_by sizeOf a

/-! ## Canonical forms -/

theorem members_ofArms (arms : List Schema) : (ofArms arms).members = arms.flatMap members := by
  match arms with
  | [] => simp [ofArms, members]
  | [s] => simp [ofArms]
  | s :: t :: rest => simp [ofArms, members_union]

theorem flatMap_members_arms (s : Schema) : s.arms.flatMap members = s.members := by
  cases s with
  | union arms => rw [members_union, Schema.arms]
  | _ => simp [Schema.arms]

theorem IsArm.members_eq (h : s.IsArm) : s.members = [s] := by
  refine members_of_ne_union fun arms heq => ?_
  cases heq ▸ h

theorem IsWritten.members_eq_arms (h : s.IsWritten) : s.members = s.arms := by
  calc s.members
      = s.arms.flatMap members := (flatMap_members_arms s).symm
    _ = s.arms.flatMap fun arm => [arm] :=
        List.flatMap_congr fun arm harm => (h.isArm_of_mem_arms harm).members_eq
    _ = s.arms := List.flatMap_singleton' s.arms

/-- The members of a canonical form are the canonical forms of the members. -/
theorem members_canonical (s : Schema) : s.canonical.members = s.members.map canonical := by
  fun_induction members s with
  | case1 arms ih =>
    calc (union arms).canonical.members
        = arms.flatMap fun arm => arm.canonical.arms.flatMap members := by
          rw [canonical_union, members_ofArms, List.flatMap_assoc]
      _ = arms.flatMap fun arm => arm.members.map canonical :=
          List.flatMap_congr fun arm harm => by rw [flatMap_members_arms, ih arm harm]
      _ = (arms.flatMap members).map canonical := by rw [List.map_flatMap]
  | case2 s hs =>
    cases s with
    | union arms => exact absurd rfl (hs arms)
    | _ => simp [canonical, anyObject, members]

theorem canonical_mem_members (hm : m ∈ s.members) : m.canonical ∈ s.canonical.members := by
  rw [members_canonical]
  exact List.mem_map_of_mem hm

/-- A member that is no array is compatible with the canonical form. -/
theorem compatible_canonical (hm : m ∈ s.members) (harray : m.isArray = false) :
    m.Compatible s.canonical := by
  have hmem := canonical_mem_members hm
  cases m with
  | any => exact .inl (any_accepts _)
  | unknown => exact .inl (unknown_accepts _)
  | array => cases harray
  | union arms => exact absurd rfl (ne_union_of_mem_members hm arms)
  | scalar type =>
    refine .inr ((accepts_iff_exists_members (by simp) (by simp) (by simp)).2 ⟨_, hmem, ?_⟩)
    simp [canonical, accepts, Scalar.accepts]
  | object fields required isOpen =>
    refine .inr ((accepts_iff_exists_members (by simp) (by simp) (by simp)).2 ⟨_, hmem, ?_⟩)
    simp [canonical, anyObject, accepts]

/-- The canonical form of a type agrees with it, where a member is set against it. -/
theorem Faces.agrees_canonical {R : Schema → Schema → Prop} (h : s.Faces R a)
    (ha : a = s.canonical) : s.Agrees a := by
  induction h with
  | member hm harray _ =>
    rw [ha]
    exact .member hm harray (compatible_canonical hm harray)
  | any hm => exact .any hm
  | @element s element element' hm _ ih =>
    have hmem := canonical_mem_members hm
    rw [← ha, canonical_array, members_of_ne_union (by simp), List.mem_singleton] at hmem
    exact .element hm (ih (array.inj hmem).symm)

/-- A type with one member has the canonical form of the latter. -/
theorem HasArms.canonical_eq_of_members (hs : s.HasArms) (hm : s.members = [m]) :
    s.canonical = m.canonical := by
  have hwritten := hs.isWritten_canonical
  calc s.canonical
      = ofArms s.canonical.members := by rw [hwritten.members_eq_arms, hwritten.ofArms_arms]
    _ = ofArms [m.canonical] := by rw [members_canonical, hm, List.map_singleton]
    _ = m.canonical := rfl

/-- No member of a union of lists is set against its canonical form. -/
theorem IsListUnion.not_offers (h : s.IsListUnion) (ha : a = s.canonical) : ¬ s.Offers a := by
  induction h generalizing a with
  | union hall htwo =>
    have htwo' : 2 ≤ a.members.length := by
      rwa [ha, members_canonical, List.length_map]
    intro h
    cases h with
    | member hm harray _ => exact absurd (hall _ hm) (by simp [harray])
    | any => simp [members] at htwo'
    | element => simp [members] at htwo'
  | @element s element hs _ ih =>
    have hmembers : a.members = [array element.canonical] := by
      rw [ha, members_canonical, hs, List.map_singleton, canonical_array]
    intro h
    cases h with
    | member hm harray _ =>
      rw [hs, List.mem_singleton] at hm
      rw [hm] at harray
      cases harray
    | any => simp [members] at hmembers
    | @element _ element' a' hm h =>
      rw [hs, List.mem_singleton] at hm
      obtain rfl := array.inj hm
      exact ih (by simpa [members] using hmembers) h

/-- A member is set against the canonical form, unless the type is a union of lists. -/
theorem HasArms.offers_canonical {s : Schema} (hs : s.HasArms) (h : ¬ s.IsListUnion) :
    s.Offers s.canonical := by
  by_cases hall : ∀ m ∈ s.members, m.isArray = true
  · rcases hmembers : s.members with - | ⟨m, - | ⟨m', rest⟩⟩
    · exact absurd hmembers hs.members_ne_nil
    · have hm : m ∈ s.members := by simp [hmembers]
      cases m with
      | array element =>
        -- the only member may stand deep within unions, but its canonical form is that of the type
        have hcanonical : s.canonical = .array element.canonical :=
          (hs.canonical_eq_of_members hmembers).trans (canonical_array element)
        have helement := hs.of_array_mem_members hm
        rw [hcanonical]
        exact .element hm (helement.offers_canonical fun h' => h (.element hmembers h'))
      | _ => cases hall _ hm
    · exact absurd (.union hall (by simp [hmembers])) h
  · obtain ⟨m, hm, harray⟩ : ∃ m ∈ s.members, m.isArray = false := by simpa using hall
    exact .member hm harray trivial
termination_by sizeOf s.canonical
decreasing_by simp [hcanonical]

theorem HasArms.offers_canonical_iff (hs : s.HasArms) :
    s.Offers s.canonical ↔ ¬ s.IsListUnion :=
  ⟨fun h hlists => hlists.not_offers rfl h, hs.offers_canonical⟩

/-- A type is admitted exactly when it agrees with a member. One that accepts the inferred type is
admitted exactly when a member is set against it, and so is the one that the text of the inferred
type writes: a member is set against that one unless the inferred type is a union of lists. A type
without empty unions admits every type without unions that it accepts. -/
theorem admits_of_compatible (s a : Schema) :
    (s.admits a = true ↔ s.Agrees a) ∧
    (a.accepts s = true → (s.admits a = true ↔ s.Offers a)) ∧
    (s.accepts a = true → s.HasArms → a.hasUnion = false → s.admits a = true) ∧
    (TypeText.parse s.text = .ok a →
      (s.admits a = true ↔ s.Offers a) ∧ (s.Offers a ↔ ¬ s.IsListUnion)) := by
  refine ⟨admits_iff_agrees, fun ha => ?_, fun ha hs hunion => ?_, fun ha => ?_⟩
  · exact admits_iff_agrees.trans ⟨Agrees.offers, fun h => h.agrees_of_accepts ha⟩
  · exact admits_iff_agrees.2 (agrees_of_accepts s a hs hunion ha)
  · obtain ⟨hs, rfl⟩ := TypeText.parse_text_eq_ok_iff.1 ha
    exact ⟨admits_iff_agrees.trans ⟨Agrees.offers, fun h => h.agrees_canonical rfl⟩,
      hs.offers_canonical_iff⟩

namespace Sample

/-- A number or a list of numbers. -/
def numbers : Schema :=
  .union [.scalar .number, .array (.scalar .number)]

/-- A list of texts, some of which may be missing, or nothing. -/
def notes : Schema :=
  .union [.array (.union [.scalar .string, .scalar .null]), .scalar .null]

/-- A list of texts or a list of integers. -/
def lists : Schema :=
  .union [.array (.scalar .string), .array (.scalar .integer)]

theorem hasArms_numbers : numbers.HasArms := by
  refine .union (List.cons_ne_nil _ _) ?_
  simpa using ⟨HasArms.scalar .number, .array (HasArms.scalar .number)⟩

theorem offers_notes (a : Schema) : notes.Offers a :=
  .member (m := .scalar .null) (by simp [notes, members]) rfl trivial

end Sample

open Sample in
/-- Numbers admit two types of numbers, one of which agrees with a member, and a list of integers,
which they accept. Notes admit a type that accepts them and the one that their own text writes. -/
theorem admits_of_compatible_sample :
    numbers.Agrees (.union [.scalar .integer, .scalar .number]) ∧
    numbers.admits (.union [.scalar .integer, .scalar .number]) = true ∧
    (union [notes, .scalar .string]).accepts notes = true ∧
    notes.admits (.union [notes, .scalar .string]) = true ∧
    numbers.accepts (.array (.scalar .integer)) = true ∧
    numbers.admits (.array (.scalar .integer)) = true ∧
    TypeText.parse notes.text = .ok notes ∧ notes.admits notes = true := by
  have hagrees : numbers.Agrees (.union [.scalar .integer, .scalar .number]) :=
    .member (m := .scalar .number) (by simp [numbers, members]) rfl (by decide +kernel)
  have haccepted : (union [notes, .scalar .string]).accepts notes = true := by decide +kernel
  have haccepts : numbers.accepts (.array (.scalar .integer)) = true := by decide +kernel
  have hparse : TypeText.parse notes.text = .ok notes :=
    Except.toOption_eq_some_iff.1 (by decide +kernel)
  exact ⟨hagrees, (admits_of_compatible _ _).1.2 hagrees, haccepted,
    ((admits_of_compatible _ _).2.1 haccepted).2 (offers_notes _), haccepts,
    (admits_of_compatible _ _).2.2.1 haccepts hasArms_numbers rfl, hparse,
    ((admits_of_compatible _ _).2.2.2 hparse).1.2 (offers_notes _)⟩

-- What a type accepts has to agree as a whole with one of its members: there may be no member, and
-- a union may narrow each member by one of its own.
example : (union []).accepts .any = true ∧ (union []).admits .any = false := by
  decide +kernel

example :
    (union [.scalar .number, .array (.scalar .number)]).accepts
      (.union [.scalar .integer, .array (.scalar .integer)]) = true ∧
    (union [.scalar .number, .array (.scalar .number)]).admits
      (.union [.scalar .integer, .array (.scalar .integer)]) = false := by
  decide +kernel

open Sample in
/-- A text admits that it may be missing, but a list of texts does not, though it is compatible as
well. So lists do not admit what their own text writes. -/
theorem not_forall_admits :
    (TypeText.parse lists.text = .ok lists ∧ lists.accepts lists = true ∧
      lists.admits lists = false) ∧
    ((union [.array (.scalar .string), .scalar .null]).accepts (.array (.scalar .string)) = true ∧
      (array (.scalar .string)).admits (.union [.array (.scalar .string), .scalar .null]) = false) ∧
    (union [.scalar .string, .scalar .null]).accepts (.scalar .string) = true ∧
    (scalar .string).admits (.union [.scalar .string, .scalar .null]) = true := by
  have hparse : TypeText.parse lists.text = .ok lists :=
    Except.toOption_eq_some_iff.1 (by decide +kernel)
  exact ⟨⟨hparse, by decide +kernel⟩, by decide +kernel⟩

end Schema

end CapabilityFlow
