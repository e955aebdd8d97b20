import CapabilityFlow.Proofs.Schema.Acceptance

/-!
# Types that meet

A type that one type admits and that another accepts lies between the two. What it tells about them
depends on what it leaves open: `any` lies between all types, and an object of which nothing is
declared between all objects. Where neither stands in it (`Schema.IsDefinite`), the two types meet
(`Schema.Meets`), so that some values may be of both.
-/

namespace CapabilityFlow

/-- Scalar types that have a scalar type in common accept each other, in one direction at least. -/
theorem Scalar.accepts_or_accepts {s t a : Scalar} (h : a.accepts s = true ∨ s.accepts a = true)
    (ht : t.accepts a = true) : s.accepts t = true ∨ t.accepts s = true := by
  simp only [accepts, Bool.or_eq_true, Bool.and_eq_true, decide_eq_true_eq] at *
  grind

namespace Schema

/-- One of two types accepts the other. -/
def Compatible (s t : Schema) : Prop :=
  s.accepts t = true ∨ t.accepts s = true

instance (s t : Schema) : Decidable (s.Compatible t) :=
  inferInstanceAs (Decidable (_ ∨ _))

/-- Two types are compatible once an arm is chosen of every union and elements are taken of arrays.
Objects that only have to be objects are not looked into. -/
inductive Meets (objects : Bool) : Schema → Schema → Prop where
  | compatible {s t : Schema} (h : s.Compatible t) : Meets objects s t
  | object {fields fields' : Table Schema} {required required' : List String}
      {isOpen isOpen' : Bool} (h : objects = true) :
      Meets objects (.object fields required isOpen) (.object fields' required' isOpen')
  | array {s t : Schema} (h : Meets objects s t) : Meets objects (.array s) (.array t)
  | left {arms : List Schema} {arm t : Schema} (harm : arm ∈ arms) (h : Meets objects arm t) :
      Meets objects (.union arms) t
  | right {arms : List Schema} {s arm : Schema} (harm : arm ∈ arms) (h : Meets objects s arm) :
      Meets objects s (.union arms)

/-- There is no `any` in a type, and no object either unless `objects` says so. -/
inductive IsDefinite (objects : Bool) : Schema → Prop where
  | unknown : IsDefinite objects .unknown
  | scalar (type : Scalar) : IsDefinite objects (.scalar type)
  | object (fields : Table Schema) (required : List String) (isOpen : Bool)
      (h : objects = true) : IsDefinite objects (.object fields required isOpen)
  | array {element : Schema} (h : IsDefinite objects element) : IsDefinite objects (.array element)
  | union {arms : List Schema} (hne : arms ≠ []) (h : ∀ arm ∈ arms, IsDefinite objects arm) :
      IsDefinite objects (.union arms)

/-- Whether there is an arm to choose in a type, outside of the fields of objects. -/
def hasUnion : Schema → Bool
  | .union _ => true
  | .array element => element.hasUnion
  | _ => false

variable {objects : Bool} {s t a : Schema}

theorem any_accepts (found : Schema) : any.accepts found = true := by
  cases found <;> simp [accepts]

theorem Compatible.array (h : s.Compatible t) : (array s).Compatible (array t) := by
  simpa only [Compatible, accepts] using h

/-- Types without unions meet only when they are compatible as they are. -/
theorem Meets.compatible_of_hasUnion (h : s.Meets false t) (hs : s.hasUnion = false)
    (ht : t.hasUnion = false) : s.Compatible t := by
  induction h with
  | compatible h => exact h
  | object h => cases h
  | array _ ih => exact (ih hs ht).array
  | left => cases hs
  | right => cases ht

/-! ## What accepts a type -/

theorem union_admits_iff {arms : List Schema} :
    (union arms).admits a = true ↔ ∃ arm ∈ arms, arm.admits a = true := by
  simp [admits]

/-- What accepts `unknown` accepts every type. -/
theorem accepts_of_accepts_unknown (h : t.accepts .unknown = true) (s : Schema) :
    t.accepts s = true := by
  cases t with
  | any => exact any_accepts s
  | unknown => exact unknown_accepts s
  | scalar | object | array | union => simp [accepts] at h

/-- To meet whatever accepts a single type, it is enough to meet what accepts it and is a single
type as well: `any` and `unknown` are met anyway, and a union where one of its arms is. -/
theorem meets_of_accepts (hany : a ≠ .any) (hunknown : a ≠ .unknown)
    (hunion : ∀ arms, a ≠ union arms)
    (hscalar : ∀ type, (scalar type).accepts a = true → s.Meets objects (scalar type))
    (hobject : ∀ fields required isOpen, (object fields required isOpen).accepts a = true →
      s.Meets objects (object fields required isOpen))
    (harray : ∀ element, (array element).accepts a = true → s.Meets objects (array element))
    (t : Schema) (h : t.accepts a = true) : s.Meets objects t := by
  match t with
  | .any => exact .compatible (.inr (any_accepts s))
  | .unknown => exact .compatible (.inr (unknown_accepts s))
  | .scalar type => exact hscalar type h
  | .object fields required isOpen => exact hobject fields required isOpen h
  | .array element => exact harray element h
  | .union arms =>
    obtain ⟨arm, harm, h⟩ := (union_accepts_iff hany hunknown hunion).1 h
    exact .right harm (meets_of_accepts hany hunknown hunion hscalar hobject harray arm h)

theorem meets_of_accepts_array (hs : ∀ t : Schema, t.accepts a = true → s.Meets objects t)
    (h : t.accepts (.array a) = true) : (array s).Meets objects t := by
  refine meets_of_accepts (by simp) (by simp) (by simp) ?_ ?_ (fun element h => ?_) t h
  · simp [accepts]
  · simp [accepts]
  · rw [accepts] at h
    exact .array (hs element h)

theorem meets_of_accepts_object {fields fields' : Table Schema} {required required' : List String}
    {isOpen isOpen' : Bool} (hobjects : objects = true)
    (h : t.accepts (.object fields required isOpen) = true) :
    (object fields' required' isOpen').Meets objects t := by
  refine meets_of_accepts (by simp) (by simp) (by simp) ?_ (fun _ _ _ _ => ?_) ?_ t h
  · simp [accepts]
  · exact .object hobjects
  · simp [accepts]

theorem meets_of_accepts_scalar {type found : Scalar}
    (hs : type.accepts found = true ∨ found.accepts type = true)
    (h : t.accepts (.scalar type) = true) : (scalar found).Meets objects t := by
  refine meets_of_accepts (by simp) (by simp) (by simp) (fun expected h => ?_) ?_ ?_ t h
  · rw [accepts] at h
    refine .compatible ?_
    simp only [Compatible, accepts]
    exact Scalar.accepts_or_accepts hs h
  · simp [accepts]
  · simp [accepts]

/-! ## What lies between two types -/

/-- What lies beside a union lies beside one of its arms. -/
theorem exists_arm_of_accepts_or {arms : List Schema} (hany : s ≠ .any) (hunknown : s ≠ .unknown)
    (hunion : ∀ arms, s ≠ .union arms) (hne : arms ≠ [])
    (h : (union arms).accepts s = true ∨ s.accepts (union arms) = true) :
    ∃ arm ∈ arms, arm.accepts s = true ∨ s.accepts arm = true := by
  rcases h with h | h
  · obtain ⟨arm, harm, h⟩ := (union_accepts_iff hany hunknown hunion).1 h
    exact ⟨arm, harm, .inl h⟩
  · obtain ⟨arm, harm⟩ := List.exists_mem_of_ne_nil arms hne
    exact ⟨arm, harm, .inr (accepts_union_iff.1 h arm harm)⟩

namespace IsDefinite

theorem meets_scalar {found : Scalar} (ha : a.IsDefinite objects)
    (h : a.accepts (.scalar found) = true ∨ (Schema.scalar found).accepts a = true)
    (ht : t.accepts a = true) : (Schema.scalar found).Meets objects t := by
  induction ha with
  | unknown => exact .compatible (.inr (accepts_of_accepts_unknown ht _))
  | scalar type =>
    simp only [accepts] at h
    exact meets_of_accepts_scalar h ht
  | object | array => simp [accepts] at h
  | union hne _ ih =>
    obtain ⟨arm, harm, h⟩ := exists_arm_of_accepts_or (by simp) (by simp) (by simp) hne h
    exact ih arm harm h (accepts_union_iff.1 ht arm harm)

theorem meets_object {fields : Table Schema} {required : List String} {isOpen : Bool}
    (ha : a.IsDefinite objects)
    (h : a.accepts (.object fields required isOpen) = true ∨
      (Schema.object fields required isOpen).accepts a = true)
    (ht : t.accepts a = true) : (Schema.object fields required isOpen).Meets objects t := by
  induction ha with
  | unknown => exact .compatible (.inr (accepts_of_accepts_unknown ht _))
  | object _ _ _ hobjects => exact meets_of_accepts_object hobjects ht
  | scalar | array => simp [accepts] at h
  | union hne _ ih =>
    obtain ⟨arm, harm, h⟩ := exists_arm_of_accepts_or (by simp) (by simp) (by simp) hne h
    exact ih arm harm h (accepts_union_iff.1 ht arm harm)

/-- Where a definite type is admitted by one type and accepted by another, the two meet. -/
theorem meets_of_admits (ha : a.IsDefinite objects) (hs : s.admits a = true)
    (ht : t.accepts a = true) : s.Meets objects t := by
  fun_induction admits s a generalizing t with
  | case1 a => exact .compatible (.inl (any_accepts t))
  | case2 => exact .compatible (.inl (unknown_accepts t))
  | case3 arms a ih =>
    obtain ⟨arm, harm, hs⟩ := union_admits_iff.1 (by rw [admits]; exact hs)
    exact .left harm (ih arm harm ha hs ht)
  | case4 element element' ih =>
    cases ha with
    | array ha => exact meets_of_accepts_array (fun t ht => ih ha hs ht) ht
  | case5 => cases ha
  | case6 => cases hs
  | case7 s a hany hunknown hunion harray =>
    rw [Bool.or_eq_true] at hs
    cases s with
    | any => exact absurd rfl hany
    | unknown => exact absurd rfl hunknown
    | scalar found => exact ha.meets_scalar hs ht
    | object fields required isOpen => exact ha.meets_object hs ht
    | array element => exact absurd rfl (harray element)
    | union arms => exact absurd rfl (hunion arms)

end IsDefinite

end Schema

end CapabilityFlow
