import CapabilityFlow.Patch.Synthesis
import CapabilityFlow.Proofs.Reference.Reading
import CapabilityFlow.Proofs.Schema.Canonical

/-!
# Registered coercions

A registry finds coercions by the texts of their types. Since those types are written by type
expressions, a coercion that is found between two texts goes from the type that the first writes to
the type that the second writes (`CoercionRegistry.WellKeyed.of_lookupTypes?_eq_some`).
-/

namespace CapabilityFlow

/-- A declaration declares a coercion: the two texts write the types, and the rest is taken over. -/
structure CoercionDeclaration.Declares (d : CoercionDeclaration) (c : Coercion) : Prop where
  source : TypeText.parse d.source = .ok c.source
  target : TypeText.parse d.target = .ok c.target
  eq_between : c = d.between c.source c.target

namespace CoercionRegistry

/-! ## Keys -/

/-- Each coercion is kept under the texts of its types, and type expressions write these types. -/
def WellKeyed (r : CoercionRegistry) : Prop :=
  ∀ p ∈ r.rules, p.1 = (p.2.source.text, p.2.target.text) ∧ p.2.source.IsWritten ∧
    p.2.target.IsWritten

/-- A registry with one coercion more, under the texts of its types. -/
def insert (r : CoercionRegistry) (c : Coercion) : CoercionRegistry :=
  ⟨insertRule (c.source.text, c.target.text) c r.rules⟩

variable {r r' : CoercionRegistry}

theorem mem_insertRule_iff {key : String × String} {c : Coercion}
    {rules : List ((String × String) × Coercion)} {p : (String × String) × Coercion} :
    p ∈ insertRule key c rules ↔ p = (key, c) ∨ p ∈ rules := by
  induction rules with
  | nil => simp [insertRule]
  | cons q rest ih =>
    unfold insertRule
    split
    · simp
    · rw [List.mem_cons, List.mem_cons, ih]
      exact or_left_comm

/-- A coercion is entered between types that the texts of the declaration write, and that have none
yet. Otherwise the registry stays as it is. -/
theorem run_enter (d : CoercionDeclaration) (r : CoercionRegistry) :
    (enter d).run r = match d.readType d.source with
      | .error e => (.error e, r)
      | .ok source => match d.readType d.target with
        | .error e => (.error e, r)
        | .ok target =>
          if (r.lookup? source target).isSome then
            (.error (.duplicate source.text target.text), r)
          else (.ok (), r.insert (d.between source target)) := by
  unfold enter
  cases d.readType d.source with
  | error e => rfl
  | ok source =>
    cases d.readType d.target with
    | error e => rfl
    | ok target =>
      -- What is left once both texts are read and the registry is known.
      change ExceptT.run (m := StateM CoercionRegistry)
        (if (r.lookup? source target).isSome then do
          throw (.duplicate source.text target.text)
          modify (insert · (d.between source target))
        else modify (insert · (d.between source target)) : Registering Unit) r = _
      dsimp only
      split <;> rfl

/-- A call is refused and changes nothing, since a text writes no type or the types have a coercion
already, or it enters a coercion between types that have none. -/
theorem run_enter_cases (d : CoercionDeclaration) (r : CoercionRegistry) :
    (∃ cause, (enter d).run r = (.error (.invalidType d.source d.target cause), r) ∧
      (TypeText.parse d.source = .error cause ∨ TypeText.parse d.target = .error cause)) ∨
    ∃ c, d.Declares c ∧
      ((r.lookup? c.source c.target ≠ none ∧
        (enter d).run r = (.error (.duplicate c.source.text c.target.text), r)) ∨
      r.lookup? c.source c.target = none ∧ (enter d).run r = (.ok (), r.insert c)) := by
  rw [run_enter]
  split
  · rename_i hsource
    obtain ⟨cause, hcause, rfl⟩ := Except.mapError_eq_error_iff.1 hsource
    exact .inl ⟨cause, rfl, .inl hcause⟩
  rename_i source hsource
  split
  · rename_i htarget
    obtain ⟨cause, hcause, rfl⟩ := Except.mapError_eq_error_iff.1 htarget
    exact .inl ⟨cause, rfl, .inr hcause⟩
  rename_i target htarget
  refine .inr ⟨d.between source target,
    ⟨Except.mapError_eq_ok_iff.1 hsource, Except.mapError_eq_ok_iff.1 htarget, rfl⟩, ?_⟩
  split
  · rename_i hsome
    exact .inl ⟨Option.isSome_iff_ne_none.1 hsome, rfl⟩
  · rename_i hnone
    exact .inr ⟨Option.not_isSome_iff_eq_none.1 hnone, rfl⟩

theorem run_enter_error_or_ok (d : CoercionDeclaration) (r : CoercionRegistry) :
    (∃ e, (enter d).run r = (.error e, r)) ∨
      ∃ c, d.Declares c ∧ r.lookup? c.source c.target = none ∧
        (enter d).run r = (.ok (), r.insert c) := by
  obtain ⟨cause, hrun, -⟩ | ⟨c, hc, ⟨-, hrun⟩ | henters⟩ := run_enter_cases d r
  · exact .inl ⟨_, hrun⟩
  · exact .inl ⟨_, hrun⟩
  · exact .inr ⟨c, hc, henters⟩

theorem WellKeyed.insert (hr : r.WellKeyed) {d : CoercionDeclaration} {c : Coercion}
    (hc : d.Declares c) : (r.insert c).WellKeyed := by
  intro p hp
  obtain rfl | hp := mem_insertRule_iff.1 hp
  · exact ⟨rfl, TypeText.isWritten_of_parse hc.source, TypeText.isWritten_of_parse hc.target⟩
  · exact hr p hp

theorem WellKeyed.run_enter (hr : r.WellKeyed) (d : CoercionDeclaration) :
    ((enter d).run r).2.WellKeyed := by
  obtain ⟨e, hrun⟩ | ⟨c, hc, -, hrun⟩ := run_enter_error_or_ok d r
  · rwa [hrun]
  · rw [hrun]
    exact hr.insert hc

theorem WellKeyed.register (hr : r.WellKeyed) {d : CoercionDeclaration}
    (h : r.register d = .ok r') : r'.WellKeyed := by
  have hstep := hr.run_enter d
  unfold CoercionRegistry.register at h
  split at h
  · rename_i hrun
    cases h
    rwa [hrun] at hstep
  · cases h

theorem wellKeyed_empty : empty.WellKeyed :=
  fun _ hp => absurd hp List.not_mem_nil

theorem wellKeyed_ofDeclarations {ds : List CoercionDeclaration} (h : ofDeclarations ds = .ok r) :
    r.WellKeyed :=
  Except.foldlM_induction (fun _ _ _ hb hd => WellKeyed.register hb hd) wellKeyed_empty h

theorem exists_mem_of_lookupTypes?_eq_some {types : TypePair} {c : Coercion}
    (h : r.lookupTypes? types = some c) : ∃ source target,
      TypeText.parse types.found = .ok source ∧ TypeText.parse types.expected = .ok target ∧
        ((source.text, target.text), c) ∈ r.rules := by
  obtain ⟨source, hsource, h⟩ := Option.bind_eq_some_iff.1 h
  obtain ⟨target, htarget, h⟩ := Option.bind_eq_some_iff.1 h
  rw [Except.toOption_eq_some_iff] at hsource htarget
  obtain ⟨before, after, hrules, -⟩ := List.lookup_eq_some_iff.1 h
  refine ⟨source, target, hsource, htarget, ?_⟩
  rw [hrules]
  exact List.mem_append_right _ List.mem_cons_self

/-- A coercion between two texts goes between the types that they write. -/
theorem WellKeyed.of_lookupTypes?_eq_some (hr : r.WellKeyed) {types : TypePair} {c : Coercion}
    (h : r.lookupTypes? types = some c) :
    (∃ key, (key, c) ∈ r.rules) ∧ TypeText.parse types.found = .ok c.source ∧
      TypeText.parse types.expected = .ok c.target := by
  obtain ⟨source, target, hsource, htarget, hmem⟩ := exists_mem_of_lookupTypes?_eq_some h
  obtain ⟨hkey, hs, ht⟩ := hr _ hmem
  obtain ⟨hsource', htarget'⟩ := Prod.mk.inj hkey
  have heq : ∀ {text : String} {s t : Schema}, TypeText.parse text = .ok s → t.IsWritten →
      s.text = t.text → s = t := by
    intro text s t hp ht htext
    have hps := TypeText.parse_text (TypeText.isWritten_of_parse hp)
    rw [htext, TypeText.parse_text ht] at hps
    exact (Except.ok.inj hps).symm
  refine ⟨⟨_, hmem⟩, ?_, ?_⟩
  · rw [← heq hsource hs hsource']
    exact hsource
  · rw [← heq htarget ht htarget']
    exact htarget

/-- The texts of two types lead to the coercion that the types lead to, and to none where they write
no types. -/
theorem WellKeyed.lookupTypes?_text (hr : r.WellKeyed) (found expected : Schema) :
    r.lookupTypes? ⟨found.text, expected.text⟩ = r.lookup? found expected := by
  cases h : r.lookup? found expected with
  | some c =>
    obtain ⟨before, after, hrules, -⟩ := List.lookup_eq_some_iff.1 h
    obtain ⟨hkey, hs, ht⟩ := hr ((found.text, expected.text), c) (by simp [hrules])
    obtain ⟨hfound, hexpected⟩ : found.text = c.source.text ∧ expected.text = c.target.text :=
      Prod.mk.inj hkey
    unfold lookup? at h
    rw [hfound, hexpected] at h ⊢
    simp only [lookupTypes?, TypeText.parse_text hs, TypeText.parse_text ht]
    exact h
  | none =>
    rw [Option.eq_none_iff_forall_ne_some]
    intro c hc
    obtain ⟨source, hsource, hc⟩ := Option.bind_eq_some_iff.1 hc
    obtain ⟨target, htarget, hc⟩ := Option.bind_eq_some_iff.1 hc
    rw [Except.toOption_eq_some_iff] at hsource htarget
    unfold lookup? at h hc
    rw [TypeText.text_of_parse_text hsource, TypeText.text_of_parse_text htarget, h] at hc
    cases hc

/-- A registry has a rule for a pair of types. -/
def Converts (r : CoercionRegistry) (types : TypePair) : Prop :=
  ∃ c, ((types.found, types.expected), c) ∈ r.rules

/-- A coercion is looked up by the types that texts write. For texts of types, these are kept under
the texts themselves. -/
theorem WellKeyed.converts_iff (hr : r.WellKeyed) {found expected : Schema} :
    r.Converts ⟨found.text, expected.text⟩ ↔
      ∃ c, r.lookupTypes? ⟨found.text, expected.text⟩ = some c := by
  rw [hr.lookupTypes?_text]
  constructor
  · rintro ⟨c, hmem⟩
    refine Option.ne_none_iff_exists'.1 fun hnone => ?_
    simpa using List.lookup_eq_none_iff.1 hnone _ hmem
  · rintro ⟨c, h⟩
    obtain ⟨before, after, hrules, -⟩ := List.lookup_eq_some_iff.1 h
    exact ⟨c, by simp [hrules]⟩

/-! ## Validation -/

/-- An ontology performs a coercion by a capability: the capability takes the source at the input
field, and what it declares at the output field, which is `out`, admits the target. -/
structure Performs (o : Ontology) (c : Coercion) (performer : Capability) (out : Schema) :
    Prop where
  known : o.get? c.capability = some performer
  takes : ∃ t, performer.input.walk [.field c.inputField] = .ok t ∧ t.accepts c.source = true
  yields : performer.output.walk [.field c.outputField] = .ok out
  admits : out.admits c.target = true

theorem checkRule_eq_ok_iff {o : Ontology} {key : String × String} {c : Coercion} :
    checkRule o key c = .ok () ↔ ∃ performer out, Performs o c performer out := by
  unfold checkRule
  constructor
  · intro h
    split at h
    · cases h
    · rename_i performer hknown
      dsimp only at h
      obtain ⟨input, hinput, h⟩ := Except.bind_eq_ok_iff.1 h
      split at h
      · cases h
      · rename_i htakes
        obtain ⟨-, -, h⟩ := Except.bind_eq_ok_iff.1 h
        obtain ⟨out, hout, h⟩ := Except.bind_eq_ok_iff.1 h
        split at h
        · cases h
        · rename_i hadmits
          refine ⟨performer, out, hknown, ⟨input, Except.mapError_eq_ok_iff.1 hinput, ?_⟩,
            Except.mapError_eq_ok_iff.1 hout, ?_⟩
          · simpa using htakes
          · simpa using hadmits
  · rintro ⟨performer, out, hknown, ⟨input, hinput, htakes⟩, hout, hadmits⟩
    simp [hknown, hinput, hout, htakes, hadmits, bind, Except.bind, pure, Except.pure]

theorem validate_eq_ok_iff {o : Ontology} : r.validate o = .ok () ↔
    ∀ p ∈ r.rules, ∃ performer out, Performs o p.2 performer out := by
  unfold validate
  simp only [Except.forM_eq_ok_iff, checkRule_eq_ok_iff]

end CoercionRegistry

/-! ## The output of a coercion -/

/-- With plain words for the label and the output field, what a patch binds is read as a reference
to the output, to which the expected type is ascribed. -/
theorem Coercion.parse_outputReference (c : Coercion) {label : String} {expected t : Schema}
    (hl : Reference.isIdentifier label = true) (ho : Reference.isIdentifier c.outputField = true)
    (ht : TypeText.parse expected.text = .ok t) :
    ∃ raw, Binding.parse (c.outputReference label expected.text) =
      .ok (.reference ⟨label, [.field c.outputField], some t, raw⟩) := by
  have hpath : ∀ name, .field name ∈ [Segment.field c.outputField] →
      Reference.isIdentifier name = true := by
    intro name hname
    cases List.mem_singleton.1 hname
    exact ho
  have hbody : (label ++ "." ++ c.outputField ++ ":" ++ expected.text).toList = label.toList ++
      (Reference.writtenPath [.field c.outputField] ++ ':' :: expected.text.toList) := by
    simp [Reference.writtenPath]
  have hbrace : ∀ d ∈ (label ++ "." ++ c.outputField ++ ":" ++ expected.text).toList,
      d ≠ '\x7d' := by
    rw [hbody, List.forall_mem_append, List.forall_mem_append, List.forall_mem_cons]
    exact ⟨Reference.ne_brace_of_isIdentifier hl, Reference.ne_brace_of_mem_writtenPath hpath,
      by decide, Reference.ne_brace_of_mem_text expected⟩
  exact ⟨_, Binding.parse_spanText hbrace (Reference.parse_target_typed hl hpath ht hbody)⟩

end CapabilityFlow
