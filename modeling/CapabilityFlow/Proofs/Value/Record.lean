import Mathlib.Data.List.Pairwise
import CapabilityFlow.Proofs.Table
import CapabilityFlow.Proofs.Value.Coding
import CapabilityFlow.Workflow.Authored

/-!
# Records

A format lists the fields of a record and says where a draft and the record keep them. A record is
read member by member into a draft, and yet every field depends on nothing but the members of its
own names: `Format.decode_eq_ok_iff`. So what is written is read again field by field.
-/

namespace CapabilityFlow

/-- What the members of a record become when they are read and written: those of names that the
record does not know stay as they are and in their order, and what is a text or a number under a
name of the record stays what it is, under the name under which that is written. -/
structure KeepsMembers (names : List String) (written : String → String) (ms out : Members) :
    Prop where
  unknown : (out.filter fun m => m.1 ∉ names) = ms.filter fun m => m.1 ∉ names
  plain : ∀ name ∈ names, ∀ v, ms.get? name = some v → v.isPlain →
    Table.get? out (written name) = some v

/-- A field of a record `ρ` that is read into a draft `δ`. It is read under any of its names, and
written under the first. -/
structure Field (δ ρ : Type) where
  {Content : Type}
  name : String
  otherNames : List String := []
  slot : Slot Content
  draft : δ → Option Content
  put : δ → Option Content → δ
  content : ρ → Content

namespace Field

variable {δ ρ : Type} (f : Field δ ρ)

def names : List String :=
  f.name :: f.otherNames

/-- The values that members have under the names of a field. -/
def values (ms : Members) : List Value :=
  (ms.filter fun m => m.1 ∈ f.names).map (·.2)

/-- Fills the field with values, of which there can be one. -/
def readFrom (old : Option f.Content) (vs : List Value) :
    Except DecodeError (Option f.Content) :=
  vs.foldlM (fun o v => Decode.once f.name o f.slot.read v) old

/-- What the field of a record is if its names have the given values. -/
def Reads (vs : List Value) (a : f.Content) : Prop :=
  vs = [] ∧ a = f.slot.default ∨ ∃ v, vs = [v] ∧ f.slot.read v = .ok a

/-- The member that the field of a record is written as. -/
def written (r : ρ) : Members :=
  Table.optionalMember f.name (f.slot.write (f.content r))

variable {f}

theorem readFrom_singleton (old : Option f.Content) (v : Value) :
    f.readFrom old [v] = Decode.once f.name old f.slot.read v := by
  rw [readFrom, List.foldlM_cons]
  exact bind_pure _

theorem readFrom_append (old : Option f.Content) (vs vs' : List Value) :
    f.readFrom old (vs ++ vs') = f.readFrom old vs >>= fun o => f.readFrom o vs' :=
  List.foldlM_append

theorem readFrom_some_eq_ok_iff {a : f.Content} {vs : List Value} {o : Option f.Content} :
    f.readFrom (some a) vs = .ok o ↔ vs = [] ∧ o = some a := by
  cases vs with
  | nil => simp [readFrom, pure, Except.pure, eq_comm]
  | cons v vs => simp [readFrom, Decode.once, bind, Except.bind]

theorem readFrom_none_eq_ok_iff {vs : List Value} {o : Option f.Content} :
    f.readFrom none vs = .ok o ↔
      vs = [] ∧ o = none ∨ ∃ v a, vs = [v] ∧ f.slot.read v = .ok a ∧ o = some a := by
  cases vs with
  | nil => simp [readFrom, pure, Except.pure, eq_comm]
  | cons v vs =>
    rw [← List.singleton_append, readFrom_append, readFrom_singleton, Except.bind_eq_ok_iff]
    simp only [Decode.once, Except.map_eq_ok_iff, List.singleton_append]
    constructor
    · rintro ⟨_, ⟨a, ha, rfl⟩, h⟩
      obtain ⟨rfl, rfl⟩ := readFrom_some_eq_ok_iff.mp h
      exact .inr ⟨v, a, rfl, ha, rfl⟩
    · rintro (⟨h, -⟩ | ⟨_, a, h, ha, rfl⟩)
      · cases h
      · cases h
        exact ⟨_, ⟨a, ha, rfl⟩, readFrom_some_eq_ok_iff.mpr ⟨rfl, rfl⟩⟩

theorem reads_iff {vs : List Value} {a : f.Content} :
    f.Reads vs a ↔ ∃ o, f.readFrom none vs = .ok o ∧ a = o.getD f.slot.default := by
  simp only [readFrom_none_eq_ok_iff, Reads]
  constructor
  · rintro (⟨rfl, rfl⟩ | ⟨v, rfl, h⟩)
    · exact ⟨none, .inl ⟨rfl, rfl⟩, rfl⟩
    · exact ⟨some a, .inr ⟨v, a, rfl, h, rfl⟩, rfl⟩
  · rintro ⟨_, ⟨rfl, rfl⟩ | ⟨v, a, rfl, h, rfl⟩, rfl⟩
    · exact .inl ⟨rfl, rfl⟩
    · exact .inr ⟨v, rfl, h⟩

/-- A field that was read is read again from what is written. -/
theorem Reads.written {vs : List Value} {a : f.Content} (h : f.Reads vs a) :
    f.Reads (f.slot.write a).toList a := by
  cases hw : f.slot.write a with
  | none =>
    rcases h with ⟨-, rfl⟩ | ⟨v, -, h⟩
    · exact .inl ⟨rfl, rfl⟩
    · exact .inl ⟨rfl, f.slot.eq_default h hw⟩
  | some w =>
    rcases h with ⟨-, rfl⟩ | ⟨v, -, h⟩
    · exact .inr ⟨w, rfl, f.slot.read_write_default hw⟩
    · exact .inr ⟨w, rfl, f.slot.read_write h hw⟩

theorem values_written (r : ρ) : f.values (f.written r) = (f.slot.write (f.content r)).toList := by
  cases h : f.slot.write (f.content r) <;>
    simp [values, Field.written, h, Table.optionalMember, names]

theorem fst_of_mem_written {r : ρ} {m : String × Value} (h : m ∈ f.written r) : m.1 = f.name := by
  cases hw : f.slot.write (f.content r) <;> simp_all [Field.written, Table.optionalMember]

end Field

theorem join_eq_getD {α : Type} (o : Option (Option α)) : o.join = o.getD none := by
  cases o <;> rfl

@[simp]
theorem Table.optionalMember_some (name : String) (v : Value) :
    optionalMember name (some v) = [(name, v)] := rfl

theorem Table.optionalMember_of_collection {α : Type} (name : String) (as : List α) (v : Value) :
    optionalMember name (if as = [] then none else some v) = nonEmptyMember name as v := by
  cases as <;> rfl

/-- The fields of a record, and the table in which it keeps the members that it does not know. -/
structure Format (δ ρ : Type) where
  /-- What is expected where something else than an object stands. -/
  expected : String
  fields : List (Field δ ρ)
  start : δ
  draftExtra : δ → Table Value
  putExtra : δ → Table Value → δ
  finish : δ → ρ
  extra : ρ → Table Value
  nodup_names : (fields.flatMap Field.names).Nodup := by decide
  draft_start : ∀ f ∈ fields, f.draft start = none := by simp
  draftExtra_start : draftExtra start = [] := by rfl
  draft_put : ∀ f ∈ fields, ∀ d o, f.draft (f.put d o) = o := by simp
  /-- Fields are kept apart from each other and from the unknown members. -/
  draft_put_of_ne : ∀ f ∈ fields, ∀ g ∈ fields, f.name ≠ g.name →
    ∀ d o, g.draft (f.put d o) = g.draft d := by simp
  draftExtra_put : ∀ f ∈ fields, ∀ d o, draftExtra (f.put d o) = draftExtra d := by simp
  draft_putExtra : ∀ f ∈ fields, ∀ d t, f.draft (putExtra d t) = f.draft d := by simp
  draftExtra_putExtra : ∀ d t, draftExtra (putExtra d t) = t := by simp
  content_finish : ∀ f ∈ fields, ∀ d,
    f.content (finish d) = (f.draft d).getD f.slot.default := by simp [join_eq_getD]
  extra_finish : ∀ d, extra (finish d) = draftExtra d := by simp
  /-- A record is nothing but its fields and the unknown members. -/
  ext : ∀ r r', (∀ f ∈ fields, f.content r = f.content r') → extra r = extra r' → r = r' := by
    rintro ⟨⟩ ⟨⟩
    simp_all

namespace Format

variable {δ ρ : Type} (F : Format δ ρ)

/-- The names that a record knows. -/
def names : List String :=
  F.fields.flatMap Field.names

/-- The field of a name. -/
def field? (name : String) : Option (Field δ ρ) :=
  F.fields.find? fun f => name ∈ f.names

/-- Reads one member. -/
def put (d : δ) (name : String) (v : Value) : Except DecodeError δ :=
  match F.field? name with
  | some f => do pure (f.put d (← Decode.once f.name (f.draft d) f.slot.read v))
  | none => .ok (F.putExtra d ((F.draftExtra d).set name v))

def decode (ms : Members) : Except DecodeError ρ := do
  pure (F.finish (← Decode.members F.put F.start ms))

/-- Reads a record, which is written as an object. -/
def read : Decode.Reader ρ
  | .obj ms => F.decode ms
  | v => .error (.invalidType v F.expected)

def encode (r : ρ) : Members :=
  F.fields.flatMap (·.written r) ++ F.extra r

/-- The members that a record does not know. -/
def unknown (ms : Members) : Members :=
  ms.filter fun m => m.1 ∉ F.names

/-! ## Names -/

variable {F} {f g : Field δ ρ} {name : String} {ms : Members} {r : ρ}

theorem mem_names_iff : name ∈ F.names ↔ ∃ f ∈ F.fields, name ∈ f.names :=
  List.mem_flatMap

/-- A name belongs to one field. -/
theorem eq_of_mem_names (hf : f ∈ F.fields) (hg : g ∈ F.fields) (hnf : name ∈ f.names)
    (hng : name ∈ g.names) : f = g := by
  by_contra hne
  have hdisjoint := (List.nodup_flatMap.mp F.nodup_names).2
  have : Std.Symm (Function.onFun List.Disjoint (Field.names (δ := δ) (ρ := ρ))) :=
    ⟨fun _ _ h _ ha hb => h hb ha⟩
  exact hdisjoint.forall hf hg hne hnf hng

theorem field?_eq_some_iff : F.field? name = some f ↔ f ∈ F.fields ∧ name ∈ f.names := by
  constructor
  · intro h
    exact ⟨List.mem_of_find?_eq_some h, by simpa using List.find?_some h⟩
  · rintro ⟨hf, hn⟩
    obtain ⟨g, hg⟩ : ∃ g, F.field? name = some g := by
      rw [← Option.isSome_iff_exists, field?, List.find?_isSome]
      exact ⟨f, hf, by simpa using hn⟩
    have hng : name ∈ g.names := by simpa using List.find?_some hg
    rwa [eq_of_mem_names hf (List.mem_of_find?_eq_some hg) hn hng]

theorem field?_eq_none_iff : F.field? name = none ↔ name ∉ F.names := by
  simp [field?, mem_names_iff]

theorem put_of_notMem (h : name ∉ F.names) (d : δ) (v : Value) :
    F.put d name v = .ok (F.putExtra d ((F.draftExtra d).set name v)) := by
  rw [put, field?_eq_none_iff.mpr h]

/-- A field that is not the one of a name is left alone by what is read under the name. -/
theorem draft_put_of_notMem (hf : f ∈ F.fields) (hg : g ∈ F.fields) (hnf : name ∈ f.names)
    (hng : name ∉ g.names) (d : δ) (o : Option f.Content) : g.draft (f.put d o) = g.draft d := by
  refine F.draft_put_of_ne f hf g hg (fun h => ?_) d o
  have hname : f.name ∈ g.names := by rw [h]; exact List.mem_cons_self
  exact hng (eq_of_mem_names hf hg List.mem_cons_self hname ▸ hnf)

/-! ## Reading -/

theorem values_append (ms ms' : Members) : f.values (ms ++ ms') = f.values ms ++ f.values ms' := by
  simp [Field.values]

theorem values_singleton (m : String × Value) :
    f.values [m] = if m.1 ∈ f.names then [m.2] else [] := by
  by_cases h : m.1 ∈ f.names <;> simp [Field.values, h]

theorem unknown_append (ms ms' : Members) : F.unknown (ms ++ ms') = F.unknown ms ++ F.unknown ms' :=
  List.filter_append ..

theorem unknown_singleton (m : String × Value) :
    F.unknown [m] = if m.1 ∈ F.names then [] else [m] := by
  by_cases h : m.1 ∈ F.names <;> simp [unknown, h]

variable {d d' : δ}

/-- One member fills the field of its name, or is collected if no field has its name. -/
theorem of_put_eq_ok {m : String × Value} (h : F.put d m.1 m.2 = .ok d') :
    (∀ f ∈ F.fields, f.readFrom (f.draft d) (f.values [m]) = .ok (f.draft d')) ∧
      F.draftExtra d' = (F.unknown [m]).foldl (fun t m => t.set m.1 m.2) (F.draftExtra d) := by
  cases hf : F.field? m.1 with
  | some f =>
    obtain ⟨hmem, hn⟩ := field?_eq_some_iff.mp hf
    simp only [put, hf] at h
    obtain ⟨o, ho, h⟩ := Except.bind_eq_ok_iff.mp h
    cases h
    refine ⟨fun g hg => ?_, ?_⟩
    · rw [values_singleton]
      split
      · rename_i hng
        obtain rfl := eq_of_mem_names hmem hg hn hng
        rw [F.draft_put f hg, Field.readFrom_singleton, ho]
      · rename_i hng
        rw [draft_put_of_notMem hmem hg hn hng]
        rfl
    · rw [unknown_singleton, if_pos (mem_names_iff.mpr ⟨f, hmem, hn⟩), F.draftExtra_put f hmem]
      rfl
  | none =>
    have hn := field?_eq_none_iff.mp hf
    rw [put_of_notMem hn] at h
    cases h
    refine ⟨fun g hg => ?_, ?_⟩
    · rw [values_singleton, if_neg fun h => hn (mem_names_iff.mpr ⟨g, hg, h⟩),
        F.draft_putExtra g hg]
      rfl
    · rw [unknown_singleton, if_neg hn, F.draftExtra_putExtra]
      rfl

/-- Every field is filled by the members of its names, and members of unknown names are
collected. -/
theorem of_members_eq_ok (h : Decode.members F.put d ms = .ok d') :
    (∀ f ∈ F.fields, f.readFrom (f.draft d) (f.values ms) = .ok (f.draft d')) ∧
      F.draftExtra d' = (F.unknown ms).foldl (fun t m => t.set m.1 m.2) (F.draftExtra d) := by
  induction ms generalizing d with
  | nil =>
    cases h
    exact ⟨fun _ _ => rfl, rfl⟩
  | cons m rest ih =>
    obtain ⟨d₁, h₁, h⟩ := Except.bind_eq_ok_iff.mp h
    obtain ⟨hfields₁, hextra₁⟩ := of_put_eq_ok h₁
    obtain ⟨hfields, hextra⟩ := ih h
    rw [← List.singleton_append]
    refine ⟨fun f hf => ?_, ?_⟩
    · rw [values_append, Field.readFrom_append]
      exact Except.bind_eq_ok_iff.mpr ⟨_, hfields₁ f hf, hfields f hf⟩
    · rw [unknown_append, List.foldl_append, ← hextra₁, hextra]

theorem exists_put_eq_ok {m : String × Value}
    (h : ∀ f ∈ F.fields, ∃ o, f.readFrom (f.draft d) (f.values [m]) = .ok o) :
    ∃ d', F.put d m.1 m.2 = .ok d' := by
  cases hf : F.field? m.1 with
  | some f =>
    obtain ⟨hmem, hn⟩ := field?_eq_some_iff.mp hf
    obtain ⟨o, ho⟩ := h f hmem
    rw [values_singleton, if_pos hn, Field.readFrom_singleton] at ho
    exact ⟨f.put d o, by simp only [put, hf, ho]; rfl⟩
  | none => exact ⟨_, put_of_notMem (field?_eq_none_iff.mp hf) _ _⟩

/-- Members are read if every field can be filled. -/
theorem exists_members_eq_ok
    (h : ∀ f ∈ F.fields, ∃ o, f.readFrom (f.draft d) (f.values ms) = .ok o) :
    ∃ d', Decode.members F.put d ms = .ok d' := by
  induction ms generalizing d with
  | nil => exact ⟨d, rfl⟩
  | cons m rest ih =>
    have hsplit : ∀ f ∈ F.fields, ∃ o o₁, f.readFrom (f.draft d) (f.values [m]) = .ok o₁ ∧
        f.readFrom o₁ (f.values rest) = .ok o := by
      intro f hf
      obtain ⟨o, ho⟩ := h f hf
      rw [← List.singleton_append, values_append, Field.readFrom_append] at ho
      exact ⟨o, Except.bind_eq_ok_iff.mp ho⟩
    obtain ⟨d₁, h₁⟩ : ∃ d₁, F.put d m.1 m.2 = .ok d₁ := by
      refine exists_put_eq_ok fun f hf => ?_
      obtain ⟨_, o₁, ho₁, -⟩ := hsplit f hf
      exact ⟨o₁, ho₁⟩
    obtain ⟨d', h'⟩ : ∃ d', Decode.members F.put d₁ rest = .ok d' := by
      refine ih fun f hf => ?_
      obtain ⟨o, o₁, ho₁, ho⟩ := hsplit f hf
      obtain rfl : o₁ = f.draft d₁ := Except.ok.inj (ho₁.symm.trans ((of_put_eq_ok h₁).1 f hf))
      exact ⟨o, ho⟩
    exact ⟨d', Except.bind_eq_ok_iff.mpr ⟨d₁, h₁, h'⟩⟩

/-- A record is what its fields are, each read from the members of its own names, and the members of
unknown names. -/
theorem decode_eq_ok_iff : F.decode ms = .ok r ↔
    (∀ f ∈ F.fields, f.Reads (f.values ms) (f.content r)) ∧
      F.extra r = Table.ofPairs (F.unknown ms) := by
  -- What a draft of the members finishes as.
  have hfinish : ∀ d, Decode.members F.put F.start ms = .ok d →
      (∀ f ∈ F.fields, f.readFrom none (f.values ms) = .ok (f.draft d)) ∧
        F.extra (F.finish d) = Table.ofPairs (F.unknown ms) := by
    intro d hd
    obtain ⟨hfields, hextra⟩ := of_members_eq_ok hd
    refine ⟨fun f hf => ?_, ?_⟩
    · rw [← hfields f hf, F.draft_start f hf]
    · rw [F.extra_finish, hextra, F.draftExtra_start, Table.ofPairs]
  constructor
  · intro h
    obtain ⟨d, hd, h⟩ := Except.bind_eq_ok_iff.mp h
    cases h
    refine ⟨fun f hf => Field.reads_iff.mpr ⟨f.draft d, (hfinish d hd).1 f hf, ?_⟩,
      (hfinish d hd).2⟩
    rw [F.content_finish f hf]
  · rintro ⟨hfields, hextra⟩
    obtain ⟨d, hd⟩ : ∃ d, Decode.members F.put F.start ms = .ok d := by
      refine exists_members_eq_ok fun f hf => ?_
      obtain ⟨o, ho, -⟩ := Field.reads_iff.mp (hfields f hf)
      exact ⟨o, by rw [F.draft_start f hf, ho]⟩
    have hr : F.finish d = r := by
      refine F.ext _ _ (fun f hf => ?_) ((hfinish d hd).2.trans hextra.symm)
      obtain ⟨o, ho, hcontent⟩ := Field.reads_iff.mp (hfields f hf)
      rw [F.content_finish f hf, hcontent]
      rw [(hfinish d hd).1 f hf] at ho
      cases ho
      rfl
    exact Except.bind_eq_ok_iff.mpr ⟨d, hd, by rw [hr]; rfl⟩

/-! ## Writing -/

theorem values_eq_nil (h : ∀ m ∈ ms, m.1 ∉ f.names) : f.values ms = [] := by
  rw [Field.values, List.filter_eq_nil_iff.mpr fun m hm => by simpa using h m hm, List.map_nil]

/-- Under the names of a field stands what the field is written as. -/
theorem values_encode (hf : f ∈ F.fields) (hextra : ∀ m ∈ F.extra r, m.1 ∉ F.names) :
    f.values (F.encode r) = (f.slot.write (f.content r)).toList := by
  obtain ⟨before, after, hfields⟩ := List.append_of_mem hf
  have hnodup := F.nodup_names
  simp only [hfields, List.flatMap_append, List.flatMap_cons, List.nodup_append,
    List.mem_append] at hnodup
  have hname : ∀ {fields : List (Field δ ρ)} {m}, m ∈ fields.flatMap (·.written r) →
      m.1 ∈ fields.flatMap Field.names := by
    intro fields m hm
    obtain ⟨g, hg, hm⟩ := List.mem_flatMap.mp hm
    refine List.mem_flatMap.mpr ⟨g, hg, ?_⟩
    rw [Field.fst_of_mem_written hm]
    exact List.mem_cons_self
  have hbefore : f.values (before.flatMap (·.written r)) = [] :=
    values_eq_nil fun m hm hmem => hnodup.2.2 _ (hname hm) _ (.inl hmem) rfl
  have hafter : f.values (after.flatMap (·.written r)) = [] :=
    values_eq_nil fun m hm hmem => hnodup.2.1.2.2 _ hmem _ (hname hm) rfl
  have hunknown : f.values (F.extra r) = [] :=
    values_eq_nil fun m hm hmem => hextra m hm (mem_names_iff.mpr ⟨f, hf, hmem⟩)
  simp [encode, hfields, values_append, hbefore, hafter, hunknown, Field.values_written]

/-- What a record does not know is written as it was kept. -/
theorem unknown_encode (hextra : ∀ m ∈ F.extra r, m.1 ∉ F.names) :
    F.unknown (F.encode r) = F.extra r := by
  rw [unknown, encode, List.filter_append, List.filter_eq_nil_iff.mpr, List.nil_append,
    List.filter_eq_self.mpr]
  · intro m hm
    simpa using hextra m hm
  · intro m hm
    obtain ⟨f, hf, hm⟩ := List.mem_flatMap.mp hm
    rw [Field.fst_of_mem_written hm]
    simpa using mem_names_iff.mpr ⟨f, hf, List.mem_cons_self⟩

theorem notMem_names_of_decode (h : F.decode ms = .ok r) : ∀ m ∈ F.extra r, m.1 ∉ F.names := by
  intro m hm
  rw [(decode_eq_ok_iff.mp h).2] at hm
  rcases Table.of_mem_foldl_set hm with hm | hm
  · cases hm
  · simpa using (List.mem_filter.mp hm).2

/-- A record that was read is read again from what is written. -/
theorem decode_encode (h : F.decode ms = .ok r) : F.decode (F.encode r) = .ok r := by
  have hnot := notMem_names_of_decode h
  obtain ⟨hfields, hextra⟩ := decode_eq_ok_iff.mp h
  refine decode_eq_ok_iff.mpr ⟨fun f hf => ?_, ?_⟩
  · rw [values_encode hf hnot]
    exact (hfields f hf).written
  · have hnodup : (F.extra r).names.Nodup := by
      rw [hextra]
      exact Table.nodup_names_ofPairs _
    rw [unknown_encode hnot, Table.ofPairs_eq_self hnodup]

/-! ## What is kept -/

theorem mem_values_of_get? {v : Value} (hn : name ∈ f.names) (h : ms.get? name = some v) :
    v ∈ f.values ms :=
  List.mem_map.mpr ⟨(name, v), List.mem_filter.mpr ⟨Table.mem_of_get? h, by simpa using hn⟩, rfl⟩

theorem read_of_get? (h : F.decode ms = .ok r) (hf : F.field? name = some f) {v : Value}
    (hv : ms.get? name = some v) : f.slot.read v = .ok (f.content r) := by
  obtain ⟨hf, hn⟩ := field?_eq_some_iff.mp hf
  have hmem := mem_values_of_get? hn hv
  rcases (decode_eq_ok_iff.mp h).1 f hf with ⟨hnil, -⟩ | ⟨w, hw, hread⟩
  · simp [hnil] at hmem
  · obtain rfl : v = w := by simpa [hw] using hmem
    exact hread

/-- A field of one name is read from the member of that name, if there is one. -/
theorem holds_of_decode (h : F.decode ms = .ok r) (hf : F.field? name = some f)
    (hnames : f.names = [name]) : f.slot.Holds (ms.get? name) (f.content r) := by
  cases hv : ms.get? name with
  | some v => exact .inr ⟨v, rfl, read_of_get? h hf hv⟩
  | none =>
    have hvalues : f.values ms = [] := by
      refine values_eq_nil fun m hm hn => ?_
      obtain rfl : m.1 = name := by simpa [hnames] using hn
      obtain ⟨v, hv'⟩ := Table.exists_get?_of_mem_names (List.mem_map.mpr ⟨m, hm, rfl⟩)
      simp [hv] at hv'
    rcases (decode_eq_ok_iff.mp h).1 f (field?_eq_some_iff.mp hf).1 with ⟨-, hdefault⟩ | ⟨v, hv, -⟩
    · exact .inl ⟨rfl, hdefault⟩
    · simp [hvalues] at hv

theorem get?_encode (h : F.decode ms = .ok r) (hf : F.field? name = some f) :
    Table.get? (F.encode r) f.name = f.slot.write (f.content r) := by
  obtain ⟨hf, -⟩ := field?_eq_some_iff.mp hf
  have hvalues := values_encode hf (notMem_names_of_decode h)
  have hself : f.name ∈ f.names := List.mem_cons_self
  cases hw : f.slot.write (f.content r) with
  | none =>
    rw [Option.eq_none_iff_forall_ne_some]
    intro v hv
    have hmem := mem_values_of_get? hself hv
    simp [hvalues, hw] at hmem
  | some w =>
    have hwritten : (f.name, w) ∈ f.written r := by simp [Field.written, hw]
    have hmem : (f.name, w) ∈ F.encode r :=
      List.mem_append_left _ (List.mem_flatMap.mpr ⟨f, hf, hwritten⟩)
    obtain ⟨v, hv⟩ := Table.exists_get?_of_mem_names (List.mem_map.mpr ⟨_, hmem, rfl⟩)
    have hv' := mem_values_of_get? hself hv
    rw [hvalues, hw] at hv'
    rw [hv, List.mem_singleton.mp hv']

theorem keeps_encode (h : F.decode ms = .ok r) (hms : ms.names.Nodup) {written : String → String}
    (hwritten : ∀ f ∈ F.fields, ∀ name ∈ f.names, written name = f.name) :
    KeepsMembers F.names written ms (F.encode r) where
  unknown := by
    have hunknown := unknown_encode (notMem_names_of_decode h)
    rw [(decode_eq_ok_iff.mp h).2, Table.ofPairs_eq_self] at hunknown
    · exact hunknown
    · exact hms.sublist (List.filter_sublist.map _)
  plain name hname v hv hplain := by
    obtain ⟨f, hf, hn⟩ := mem_names_iff.mp hname
    have hfield := field?_eq_some_iff.mpr ⟨hf, hn⟩
    rw [hwritten f hf name hn, get?_encode h hfield]
    exact f.slot.write_eq hplain (read_of_get? h hfield hv)

theorem read_eq_ok_iff {v : Value} :
    F.read v = .ok r ↔ ∃ ms, v = .obj ms ∧ F.decode ms = .ok r := by
  cases v <;> simp [read]

/-- A record that is written as an object can stand in other records. -/
def coding (F : Format δ ρ) (read : Decode.Reader ρ) (write : ρ → Value) (hread : read = F.read)
    (hwrite : ∀ r, write r = .obj (F.encode r)) : Coding ρ where
  read := read
  write := write
  read_write {v r} h := by
    rw [hread, read_eq_ok_iff] at h ⊢
    obtain ⟨ms, -, h⟩ := h
    exact ⟨F.encode r, hwrite r, decode_encode h⟩
  write_ne_null {_ r} _ _ := by
    rw [hwrite r]
    exact nofun
  write_eq {v r} hv h := by
    rw [hread, read_eq_ok_iff] at h
    obtain ⟨ms, rfl, -⟩ := h
    cases hv

@[simp]
theorem write_coding (F : Format δ ρ) (read : Decode.Reader ρ) (write : ρ → Value)
    (hread : read = F.read) (hwrite : ∀ r, write r = .obj (F.encode r)) :
    (F.coding read write hread hwrite).write = write := rfl

end Format

end CapabilityFlow
