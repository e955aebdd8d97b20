import CapabilityFlow.Proofs.Schema.Composition
import CapabilityFlow.Schema.Resolver

/-!
# Merging the arms of an `allOf`

Arms merge when those that say something are all objects or are all the same
(`Resolving.exists_mergeAll_eq_ok_iff`), in whatever order. Of a field, the first arm that declares it
counts (`Resolving.field?_of_mergeAll`). So the order decides about the schemas of the fields and
about nothing else (`Resolving.alike_of_mergeAll`).
-/

namespace CapabilityFlow

namespace Schema

variable {s t : Schema} {fields fields' : Table Schema} {required required' : List String}
  {isOpen isOpen' : Bool} {name : String}

/-! ## Schemas that are the same -/

theorem same_any_iff : s.same .any = true ↔ s = .any := by
  cases s <;> simp [same]

theorem same_of_field? {n n' : Schema} (h : n.same n' = true) (hs : n.field? name = some s)
    (ht : n'.field? name = some t) : s.same t = true := by
  cases n with
  | object fields required isOpen =>
    cases n' with
    | object fields' required' isOpen' =>
      obtain ⟨-, -, -, hfields⟩ := same_object_iff.1 h
      obtain ⟨t', ht', hst⟩ := hfields _ (Table.mem_of_get? hs)
      obtain rfl : t' = t := Option.some.inj (ht'.symm.trans ht)
      exact hst
    | _ => cases ht
  | _ => cases hs

/-- Two schemas are the same apart from the schemas of their fields, if they are objects. -/
inductive Alike : Schema → Schema → Prop
  | same {s t : Schema} (h : s.same t = true) : Alike s t
  | object {fields fields' : Table Schema} {required : List String} {isOpen : Bool}
      (hnodup : fields.names.Nodup) (hnames : fields.names.Perm fields'.names) :
      Alike (.object fields required isOpen) (.object fields' required isOpen)

/-- What tells two such objects apart is a field. -/
theorem Alike.same_of_forall {n n' : Schema} (h : n.Alike n')
    (hfields : ∀ name s t, n.field? name = some s → n'.field? name = some t → s.same t = true) :
    n.same n' = true := by
  cases h with
  | same h => exact h
  | @object fields fields' required isOpen hnodup hnames =>
    have hlength : fields.length = fields'.length := by
      simpa [Table.names] using hnames.length_eq
    refine same_object_iff.2 ⟨hlength, rfl, rfl, fun f hf => ?_⟩
    have hs : fields.get? f.1 = some f.2 := (Table.get?_eq_some_iff_mem hnodup).2 hf
    obtain ⟨t, ht⟩ :=
      Table.exists_get?_of_mem_names (hnames.mem_iff.1 (Table.mem_names_of_get? hs))
    exact ⟨t, ht, hfields f.1 f.2 t hs ht⟩

end Schema

/-! ## Sets of names -/

/-- The order in which two names are added does not matter. -/
theorem insertSorted_right_comm (names : List String) (a b : String) :
    insertSorted (insertSorted names a) b = insertSorted (insertSorted names b) a := by
  induction names with
  | nil =>
    simp only [insertSorted]
    grind
  | cons k rest ih =>
    simp only [insertSorted]
    grind [insertSorted]

namespace Resolving

/-! ## Merging fields -/

section

variable {fields more : Table Schema} {name : String}

theorem mergeFields_cons (fields : Table Schema) (f : String × Schema) (more : Table Schema) :
    mergeFields fields (f :: more) =
      mergeFields (if fields.has f.1 then fields else fields ++ [f]) more := rfl

/-- A field that both declare is kept as the first declares it. -/
theorem get?_mergeFields (fields more : Table Schema) (name : String) :
    (mergeFields fields more).get? name = (fields.get? name).or (more.get? name) := by
  induction more generalizing fields with
  | nil => simp [mergeFields, Table.get?]
  | cons f rest ih =>
    obtain ⟨k, s⟩ := f
    rw [mergeFields_cons, ih]
    simp only [Table.get?]
    split
    · rename_i hhas
      rw [List.lookup_cons]
      split
      · rename_i hname
        obtain ⟨v, hv⟩ := Table.exists_get?_of_mem_names (List.contains_iff_mem.1 hhas)
        rw [← beq_iff_eq.1 hname] at hv
        rw [show fields.lookup name = some v from hv, Option.some_or, Option.some_or]
      · rfl
    · rw [List.lookup_append, Option.or_assoc, List.lookup_cons, List.lookup_cons]
      split <;> simp

theorem nodup_names_mergeFields (h : fields.names.Nodup) (more : Table Schema) :
    (mergeFields fields more).names.Nodup := by
  induction more generalizing fields with
  | nil => exact h
  | cons f rest ih =>
    rw [mergeFields_cons]
    split
    · exact ih h
    · rename_i hhas
      have hnot : f.1 ∉ fields.names := fun hmem => hhas (List.contains_iff_mem.2 hmem)
      refine ih ?_
      rw [Table.names, List.map_append, List.map_singleton]
      refine List.nodup_append.2 ⟨h, List.nodup_singleton f.1, fun x hx y hy => ?_⟩
      rw [List.mem_singleton.1 hy]
      exact fun heq => hnot (heq ▸ hx)

end

/-! ## Merging objects -/

/-- The fields that an object declares. -/
def declared : Schema → Table Schema
  | .object fields _ _ => fields
  | _ => []

/-- The names that an object requires. -/
def required : Schema → List String
  | .object _ required _ => required
  | _ => []

/-- Whether other fields may appear. -/
def isOpen : Schema → Bool
  | .object _ _ isOpen => isOpen
  | _ => true

theorem get?_declared (s : Schema) (name : String) : (declared s).get? name = s.field? name := by
  cases s <;> rfl

variable {arms arms' : List Schema} {s s' t : Schema}

/-- The fields of all given objects. -/
def mergedFields (arms : List Schema) : Table Schema :=
  arms.foldl (fun fields s => mergeFields fields (declared s)) []

/-- Of a field, the first object that declares it counts. -/
theorem get?_mergedFields (arms : List Schema) (name : String) :
    (mergedFields arms).get? name = arms.findSome? (·.field? name) := by
  have hfold : ∀ fields : Table Schema,
      (arms.foldl (fun fields s => mergeFields fields (declared s)) fields).get? name =
        (fields.get? name).or (arms.findSome? (·.field? name)) := by
    induction arms with
    | nil => simp
    | cons s rest ih =>
      intro fields
      rw [List.foldl_cons, ih, get?_mergeFields, get?_declared, List.findSome?_cons, Option.or_assoc]
      cases s.field? name <;> rfl
  exact hfold []

theorem nodup_names_mergedFields (arms : List Schema) : (mergedFields arms).names.Nodup := by
  have hfold : ∀ fields : Table Schema, fields.names.Nodup →
      (arms.foldl (fun fields s => mergeFields fields (declared s)) fields).names.Nodup := by
    induction arms with
    | nil => exact fun _ h => h
    | cons s rest ih => exact fun fields h => ih _ (nodup_names_mergeFields h (declared s))
  exact hfold [] List.nodup_nil

theorem mem_names_mergedFields_iff {name : String} :
    name ∈ (mergedFields arms).names ↔ ∃ s ∈ arms, (s.field? name).isSome := by
  have hget : name ∈ (mergedFields arms).names ↔ ((mergedFields arms).get? name).isSome := by
    rw [Option.isSome_iff_exists]
    exact ⟨Table.exists_get?_of_mem_names, fun ⟨_, h⟩ => Table.mem_names_of_get? h⟩
  rw [hget, get?_mergedFields, List.findSome?_isSome_iff]

/-- The names of the fields do not depend on the order of the objects. -/
theorem names_mergedFields_perm (h : arms.Perm arms') :
    (mergedFields arms).names.Perm (mergedFields arms').names := by
  refine (List.perm_ext_iff_of_nodup (nodup_names_mergedFields arms)
    (nodup_names_mergedFields arms')).2 fun name => ?_
  simp only [mem_names_mergedFields_iff, h.mem_iff]

/-- The fields, the required names and the openness of objects are merged apart from each other. -/
theorem mergeObjects_eq (arms : List Schema) : mergeObjects arms =
    .object (mergedFields arms) ((arms.flatMap required).foldl insertSorted [])
      (arms.all isOpen) := by
  have hfold : ∀ (fields : Table Schema) (names : List String) (o : Bool),
      arms.foldl (fun (x : Table Schema × List String × Bool) arm =>
        match arm with
        | .object f r o => (mergeFields x.1 f, r.foldl insertSorted x.2.1, x.2.2 && o)
        | _ => (x.1, x.2.1, x.2.2)) (fields, names, o) =
      (arms.foldl (fun fields s => mergeFields fields (declared s)) fields,
        (arms.flatMap required).foldl insertSorted names, o && arms.all isOpen) := by
    induction arms with
    | nil => simp
    | cons s rest ih =>
      intro fields names o
      rw [List.foldl_cons, List.foldl_cons, List.flatMap_cons, List.foldl_append, List.all_cons,
        ← Bool.and_assoc]
      cases s with
      | object f r o' => exact ih _ _ _
      | _ => simpa [declared, required, isOpen, mergeFields] using ih fields names o
  refine (congrArg (fun x => Schema.object x.1 x.2.1 x.2.2) (hfold [] [] true)).trans ?_
  rw [Bool.true_and]
  rfl

theorem field?_mergeObjects (arms : List Schema) (name : String) :
    (mergeObjects arms).field? name = arms.findSome? (·.field? name) := by
  rw [mergeObjects_eq]
  exact get?_mergedFields arms name

/-- Objects that are merged in another order differ in the schemas and in the order of fields only. -/
theorem alike_mergeObjects (h : arms.Perm arms') :
    (mergeObjects arms).Alike (mergeObjects arms') := by
  have hrequired : (arms.flatMap required).foldl insertSorted [] =
      (arms'.flatMap required).foldl insertSorted [] :=
    (h.flatMap_right required).foldl_eq' (fun a _ b _ names => insertSorted_right_comm names a b) []
  rw [mergeObjects_eq, mergeObjects_eq, hrequired, h.all_eq]
  exact .object (nodup_names_mergedFields arms) (names_mergedFields_perm h)

/-! ## Merging arms -/

/-- The arms that say something. -/
def constraining (arms : List Schema) : List Schema :=
  arms.filter (!Schema.same · .any)

theorem mem_constraining_iff : s ∈ constraining arms ↔ s ∈ arms ∧ s ≠ .any := by
  rw [constraining, List.mem_filter, Bool.not_eq_true', Bool.eq_false_iff, Ne, Schema.same_any_iff]

/-- What merging gives: nothing is said, some objects are merged, or one of the arms stands for all
others. -/
inductive Merged : List Schema → Schema → Prop
  | nothing : Merged [] .any
  | objects {arms : List Schema} (hlength : 1 < arms.length)
      (h : ∀ s ∈ arms, isObject s = true) : Merged arms (mergeObjects arms)
  | agreed {arms : List Schema} {s : Schema} (hs : s ∈ arms)
      (hkind : arms.length = 1 ∨ ∃ t ∈ arms, isObject t = false)
      (h : ∀ t ∈ arms, t = s ∨ t.same s = true) : Merged arms s

theorem merged_of_mergeAll (h : mergeAll arms = .ok s) : Merged (constraining arms) s := by
  have hcases := h
  unfold mergeAll at hcases
  split at hcases
  · rename_i hnil
    cases hcases
    rw [constraining, hnil]
    exact .nothing
  · rename_i first hone
    cases hcases
    rw [constraining, hone]
    exact .agreed List.mem_cons_self (.inl rfl) fun t ht => .inl (List.mem_singleton.1 ht)
  · rename_i first rest hne hmore
    rw [constraining, hmore]
    split at hcases
    · rename_i hobjects
      cases hcases
      have hlength : 1 < (first :: rest).length := Nat.succ_lt_succ (List.length_pos_iff.2 hne)
      exact .objects hlength (List.all_eq_true.1 hobjects)
    · rename_i hobjects
      split at hcases
      · rename_i hsame
        cases hcases
        obtain ⟨t, ht, hobject⟩ := List.all_eq_false.1 (Bool.eq_false_iff.2 hobjects)
        refine .agreed List.mem_cons_self (.inr ⟨t, ht, Bool.eq_false_iff.2 hobject⟩) ?_
        exact List.forall_mem_cons.2 ⟨.inl rfl, fun t ht => .inr (List.all_eq_true.1 hsame t ht)⟩
      · cases hcases

theorem Merged.isObject_or_same (hn : ∀ t ∈ arms, t.DeclaresOnce) (h : Merged arms s) :
    (∀ t ∈ arms, isObject t = true) ∨ ∀ t ∈ arms, ∀ u ∈ arms, t.same u = true := by
  cases h with
  | nothing => exact .inl nofun
  | objects _ h => exact .inl h
  | agreed hs _ h =>
    have hsame : ∀ t ∈ arms, t.same s = true := by
      intro t ht
      rcases h t ht with rfl | h
      · exact Schema.same_refl t (hn t ht)
      · exact h
    exact .inr fun t ht u hu => Schema.same_trans t s u (hsame t ht)
      (Schema.same_symm u s (hn u hu) (hn s hs) (hsame u hu))

/-- Arms merge if all that say something are objects, or if all of these are the same. -/
theorem exists_mergeAll_eq_ok_iff (hn : ∀ s ∈ arms, s.DeclaresOnce) :
    (∃ s, mergeAll arms = .ok s) ↔ (∀ s ∈ constraining arms, isObject s = true) ∨
      ∀ s ∈ constraining arms, ∀ t ∈ constraining arms, s.same t = true := by
  constructor
  · rintro ⟨s, h⟩
    exact (merged_of_mergeAll h).isObject_or_same fun t ht => hn t (mem_constraining_iff.1 ht).1
  · intro h
    unfold mergeAll
    split
    · exact ⟨_, rfl⟩
    · exact ⟨_, rfl⟩
    · rename_i first rest _ hmore
      rw [constraining, hmore] at h
      split
      · exact ⟨_, rfl⟩
      · rename_i hobjects
        have hsame := h.resolve_left fun h => hobjects (List.all_eq_true.2 h)
        rw [if_pos (List.all_eq_true.2 fun t ht =>
          hsame t (List.mem_cons_of_mem _ ht) first List.mem_cons_self)]
        exact ⟨_, rfl⟩

theorem constraining_perm (h : arms.Perm arms') : (constraining arms).Perm (constraining arms') :=
  h.filter _

/-- Whether arms merge does not depend on their order. -/
theorem exists_mergeAll_eq_ok_of_perm (hn : ∀ s ∈ arms, s.DeclaresOnce) (h : arms.Perm arms')
    (hs : mergeAll arms = .ok s) : ∃ s', mergeAll arms' = .ok s' := by
  have hn' : ∀ s ∈ arms', s.DeclaresOnce := fun s hs => hn s (h.mem_iff.2 hs)
  have hmerges := (exists_mergeAll_eq_ok_iff hn).1 ⟨s, hs⟩
  simp only [(constraining_perm h).mem_iff] at hmerges
  exact (exists_mergeAll_eq_ok_iff hn').2 hmerges

theorem field?_eq_none (h : isObject s = false) (name : String) : s.field? name = none := by
  cases s with
  | object => cases h
  | _ => rfl

theorem isObject_eq_of_same (h : s.same t = true) : isObject s = isObject t := by
  cases s <;> cases t <;> simp [Schema.same] at h <;> rfl

theorem Merged.field? (h : Merged arms s) (name : String) :
    s.field? name = arms.findSome? (·.field? name) := by
  cases h with
  | nothing => rfl
  | objects => exact field?_mergeObjects arms name
  | agreed hs hkind h =>
    rcases hkind with hlength | ⟨t, ht, hobject⟩
    · obtain ⟨t, rfl⟩ := List.length_eq_one_iff.1 hlength
      obtain rfl := List.mem_singleton.1 hs
      simp
    · have hkind : ∀ u ∈ arms, isObject u = isObject s := by
        intro u hu
        rcases h u hu with rfl | h
        · rfl
        · exact isObject_eq_of_same h
      have hnone : ∀ u ∈ arms, u.field? name = none := fun u hu =>
        field?_eq_none ((hkind u hu).trans ((hkind t ht).symm.trans hobject)) name
      rw [hnone s hs, List.findSome?_eq_none_iff.2 hnone]

/-- Arms that say nothing declare no fields. -/
theorem findSome?_constraining (arms : List Schema) (name : String) :
    (constraining arms).findSome? (·.field? name) = arms.findSome? (·.field? name) := by
  induction arms with
  | nil => rfl
  | cons s rest ih =>
    rw [constraining, List.filter_cons]
    split
    · rw [List.findSome?_cons, List.findSome?_cons, ← constraining, ih]
    · rename_i hsame
      have hany : s = .any := Schema.same_any_iff.1 (by simpa using hsame)
      rw [← constraining, ih, hany]
      rfl

/-- Of a field, the first arm that declares it counts. -/
theorem field?_of_mergeAll (h : mergeAll arms = .ok s) (name : String) :
    s.field? name = arms.findSome? (·.field? name) :=
  ((merged_of_mergeAll h).field? name).trans (findSome?_constraining arms name)

theorem Merged.alike (hn : ∀ t ∈ arms, t.DeclaresOnce) (h : arms.Perm arms') (hs : Merged arms s)
    (hs' : Merged arms' s') : s.Alike s' := by
  cases hs with
  | nothing =>
    obtain rfl := List.nil_perm.1 h
    cases hs' with
    | nothing => exact .same rfl
    | objects hlength => cases hlength
    | agreed hs' => cases hs'
  | objects hlength hobjects =>
    cases hs' with
    | nothing => cases List.perm_nil.1 h; cases hlength
    | objects => exact alike_mergeObjects h
    | agreed _ hkind =>
      rcases hkind with hone | ⟨t, ht, hobject⟩
      · rw [h.length_eq, hone] at hlength
        exact absurd hlength (Nat.lt_irrefl 1)
      · cases (hobjects t (h.mem_iff.2 ht)).symm.trans hobject
  | agreed hmem hkind hsame =>
    cases hs' with
    | nothing => cases List.perm_nil.1 h; cases hmem
    | objects hlength hobjects =>
      rcases hkind with hone | ⟨t, ht, hobject⟩
      · rw [← h.length_eq, hone] at hlength
        exact absurd hlength (Nat.lt_irrefl 1)
      · cases (hobjects t (h.mem_iff.1 ht)).symm.trans hobject
    | agreed hmem' _ hsame' =>
      rcases hsame' s (h.mem_iff.1 hmem) with rfl | hss'
      · exact .same (Schema.same_refl s (hn s hmem))
      · exact .same hss'

/-- Arms that are merged in another order differ in the schemas and in the order of fields only. -/
theorem alike_of_mergeAll (hn : ∀ s ∈ arms, s.DeclaresOnce) (h : arms.Perm arms')
    (hs : mergeAll arms = .ok s) (hs' : mergeAll arms' = .ok s') : s.Alike s' :=
  Merged.alike (fun t ht => hn t (mem_constraining_iff.1 ht).1) (constraining_perm h)
    (merged_of_mergeAll hs) (merged_of_mergeAll hs')

end Resolving

end CapabilityFlow
