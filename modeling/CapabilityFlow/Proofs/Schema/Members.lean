import CapabilityFlow.Proofs.Schema.Meeting

/-!
# Members of unions

A union is taken apart into its members, none of which is a union (`Schema.members`). A type is
accepted exactly when its members are, and a union accepts a member when one of its own members
does, with one exception: no union accepts `unknown`. So a union accepts what one of its arms
accepts as long as `unknown` is no member of that (`Schema.union_accepts_of_arm`), and a type in
which no union has `unknown` as an arm accepts itself (`Schema.accepts_self`).
-/

namespace CapabilityFlow.Schema

/-- The arms of a union, those of a union among them, and so on. Any other schema is its own only
member. -/
def members : Schema → List Schema
  | .union arms => arms.flatMap members
  | s => [s]
termination_by s => sizeOf s

/-- No union in a schema has `unknown` as an arm. -/
def HasNoUnknownArm : Schema → Prop :=
  Everywhere fun
    | .union arms => unknown ∉ arms
    | _ => True

variable {s m e expected found : Schema} {arms : List Schema}

/-! ## Members -/

theorem members_union (arms : List Schema) : (union arms).members = arms.flatMap members := by
  simp [members]

theorem members_of_ne_union (h : ∀ arms, s ≠ union arms) : s.members = [s] := by
  cases s with
  | union arms => exact absurd rfl (h arms)
  | _ => simp [members]

theorem mem_members_self (h : ∀ arms, s ≠ union arms) : s ∈ s.members := by
  rw [members_of_ne_union h]
  exact List.mem_singleton_self s

theorem mem_members_union_iff : m ∈ (union arms).members ↔ ∃ arm ∈ arms, m ∈ arm.members := by
  rw [members_union, List.mem_flatMap]

theorem ne_union_of_mem_members (h : m ∈ s.members) (arms : List Schema) : m ≠ union arms := by
  fun_induction members s with
  | case1 arms' ih =>
    obtain ⟨arm, harm, h⟩ := List.mem_flatMap.1 h
    exact ih arm harm h
  | case2 s hs =>
    rw [List.mem_singleton.1 h]
    exact hs arms

/-- Where no union has `unknown` as an arm, `unknown` is a member of itself alone. -/
theorem HasNoUnknownArm.unknown_notMem_members (h : s.HasNoUnknownArm) (hs : s ≠ unknown) :
    unknown ∉ s.members := by
  fun_induction members s with
  | case1 arms ih =>
    rw [List.mem_flatMap]
    rintro ⟨arm, harm, hmem⟩
    have hne : arm ≠ unknown := by
      rintro rfl
      exact h _ (.self _) harm
    exact ih arm harm (h.arm harm) hne hmem
  | case2 s _ => exact fun hmem => hs (List.mem_singleton.1 hmem).symm

/-! ## Acceptance, member by member -/

theorem accepts_any (expected : Schema) : expected.accepts .any = true := by
  cases expected <;> simp [accepts]

theorem union_accepts_unknown (arms : List Schema) : (union arms).accepts .unknown = false := by
  simp [accepts]

/-- A type is accepted exactly when all its members are. -/
theorem accepts_iff_forall_members :
    expected.accepts found = true ↔ ∀ m ∈ found.members, expected.accepts m = true := by
  fun_induction members found with
  | case1 arms ih =>
    rw [accepts_union_iff]
    simp only [List.mem_flatMap]
    constructor
    · rintro h m ⟨arm, harm, hm⟩
      exact (ih arm harm).1 (h arm harm) m hm
    · exact fun h arm harm => (ih arm harm).2 fun m hm => h m ⟨arm, harm, hm⟩
  | case2 => simp

/-- A single type is accepted exactly when a member of the expected type accepts it. -/
theorem accepts_iff_exists_members (hany : found ≠ .any) (hunknown : found ≠ .unknown)
    (hunion : ∀ arms, found ≠ union arms) :
    expected.accepts found = true ↔ ∃ e ∈ expected.members, e.accepts found = true := by
  fun_induction members expected with
  | case1 arms ih =>
    rw [union_accepts_iff hany hunknown hunion]
    simp only [List.mem_flatMap]
    constructor
    · rintro ⟨arm, harm, h⟩
      obtain ⟨e, he, h⟩ := (ih arm harm).1 h
      exact ⟨e, ⟨arm, harm, he⟩, h⟩
    · rintro ⟨e, ⟨arm, harm, he⟩, h⟩
      exact ⟨arm, harm, (ih arm harm).2 ⟨e, he, h⟩⟩
  | case2 => simp

/-- A union accepts what one of its arms accepts, unless that may be unknown. -/
theorem union_accepts_of_arm (he : e ∈ arms) (h : e.accepts found = true)
    (hfound : unknown ∉ found.members) : (union arms).accepts found = true := by
  rw [accepts_iff_forall_members]
  intro m hm
  have hunknown : m ≠ .unknown := fun heq => hfound (heq ▸ hm)
  by_cases hany : m = .any
  · rw [hany, accepts_any]
  · rw [union_accepts_iff hany hunknown (ne_union_of_mem_members hm)]
    exact ⟨e, he, accepts_iff_forall_members.1 h m hm⟩

theorem unknown_notMem_members_of_union_accepts (h : (union arms).accepts found = true) :
    unknown ∉ found.members := by
  intro hmem
  have hunknown := accepts_iff_forall_members.1 h unknown hmem
  rw [union_accepts_unknown] at hunknown
  cases hunknown

/-- Where an arm accepts a type, the union accepts it exactly when it cannot be unknown. -/
theorem union_accepts_iff_notMem (he : e ∈ arms) (h : e.accepts found = true) :
    (union arms).accepts found = true ↔ unknown ∉ found.members :=
  ⟨unknown_notMem_members_of_union_accepts, union_accepts_of_arm he h⟩

/-! ## Types that accept themselves -/

/-- A type accepts itself if no union in it has `unknown` as an arm. -/
theorem accepts_self (s : Schema) (hs : s.DeclaresOnce) (h : s.HasNoUnknownArm) :
    s.accepts s = true := by
  match s with
  | .any => exact any_accepts .any
  | .unknown => exact unknown_accepts .unknown
  | .scalar type => simp [accepts, Scalar.accepts]
  | .array element =>
    rw [accepts]
    exact accepts_self element hs.element h.element
  | .object fields required isOpen =>
    refine accepts_object_iff.2 (.inr (.inr ⟨fun f hf => .inl ⟨f.2, ?_, ?_⟩, .inr fun _ => id⟩))
    · exact (Table.get?_eq_some_iff_mem (hs _ (.self _))).2 hf
    · exact accepts_self f.2 (hs.field hf) (h.field hf)
  | .union arms =>
    refine accepts_union_iff.2 fun arm harm => ?_
    have hknown : arm.HasNoUnknownArm := h.arm harm
    have hne : arm ≠ .unknown := by
      rintro rfl
      exact h _ (.self _) harm
    have hself := accepts_self arm (hs.arm harm) hknown
    -- An arm may be a union itself, and so it does not have to be accepted as one of the arms is.
    exact union_accepts_of_arm harm hself (hknown.unknown_notMem_members hne)
termination_by sizeOf s
decreasing_by
  · simp
  · have := Table.sizeOf_lt_of_mem hf
    simp; omega
  · have := List.sizeOf_lt_of_mem harm
    simp; omega

namespace Sample

/-- A list of unknown things, a name, or an object that requires more than it declares. -/
def listing : Schema :=
  .union [.union [.array .unknown, .scalar .string],
    .object [("size", .union [.scalar .integer, .scalar .null]), ("note", .unknown)]
      ["owner", "size"] false]

end Sample

open Sample in
theorem accepts_self_sample :
    listing.DeclaresOnce ∧ listing.HasNoUnknownArm ∧ listing.accepts listing = true := by
  have hs : listing.DeclaresOnce := by simp [listing, DeclaresOnce, Table.names]
  have h : listing.HasNoUnknownArm := by simp [listing, HasNoUnknownArm]
  exact ⟨hs, h, accepts_self listing hs h⟩

example : (union [.unknown, .scalar .null]).accepts (.union [.unknown, .scalar .null]) = false := by
  decide +kernel

end CapabilityFlow.Schema
