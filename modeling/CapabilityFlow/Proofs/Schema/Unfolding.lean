import CapabilityFlow.Proofs.Value.Pointer
import CapabilityFlow.Schema.Resolver

/-!
# Unfoldings of raw schemas

What a raw schema stands for, with each reference replaced by what its target stands for.
`UnfoldsWithin n` allows `n` references inside one another, and `Unfolds` any number. Nothing is
remembered, no chain is kept, and a pointer is looked up as RFC 6901 lays down. Each raw schema has
one unfolding at most (`UnfoldsWithin.unique`).
-/

namespace CapabilityFlow

namespace Library

/-- The raw schema at a target. -/
def Holds (lib : Library) (t : Target) (raw : Value) : Prop :=
  ∃ root, lib.documents.get? t.document = some root ∧ Pointer.Selects root t.pointer.toList raw

theorem find_eq_ok_iff {lib : Library} {t : Target} {reference : String} {raw : Value} :
    lib.find t reference = .ok raw ↔ lib.Holds t raw := by
  unfold find Holds
  split
  · rename_i h
    simp [h]
  · rename_i root h
    simp only [h, Option.some.injEq, exists_eq_left', ← Value.pointed?_eq_some_iff]
    split <;> rename_i h' <;> simp [h']

theorem Holds.unique {lib : Library} {t : Target} {raw raw' : Value} (h : lib.Holds t raw)
    (h' : lib.Holds t raw') : raw = raw' := by
  obtain ⟨root, hroot, hs⟩ := h
  obtain ⟨root', hroot', hs'⟩ := h'
  obtain rfl := Option.some.inj (hroot.symm.trans hroot')
  rw [← Value.pointed?_eq_some_iff] at hs hs'
  exact Option.some.inj (hs.symm.trans hs')

end Library

/-! ## What decides -/

/-- What decides the meaning of an object as a raw schema. -/
inductive Keyword where
  | reference (v : Value)
  /-- The alternatives of `oneOf` or of `anyOf`. -/
  | alternatives (v : Value)
  | all (v : Value)
  | const (v : Value)
  | enum (v : Value)
  | type (v : Value)
  /-- The fields or the items are declared, but no type. -/
  | implied (type : String)
  | nothing

/-- The first keyword that an object has. -/
def Keyword.of (ms : Members) : Keyword :=
  match Table.get? ms "$ref" with
  | some v => .reference v
  | none =>
    match (Table.get? ms "oneOf").or (Table.get? ms "anyOf") with
    | some v => .alternatives v
    | none =>
      match Table.get? ms "allOf" with
      | some v => .all v
      | none =>
        match Table.get? ms "const" with
        | some v => .const v
        | none =>
          match Table.get? ms "enum" with
          | some v => .enum v
          | none =>
            match Table.get? ms "type" with
            | some v => .type v
            | none =>
              if Table.has ms "properties" then .implied "object"
              else if Table.has ms "items" then .implied "array"
              else .nothing

/-- A part of a raw schema that has a meaning. -/
inductive RawPart where
  | value (raw : Value)
  /-- The members of an object, apart from `nullable`. -/
  | members (ms : Members)
  /-- The members of an object of a named type. -/
  | typed (ms : Members) (name : String)

/-! ## Unfoldings -/

open Resolving

/-- A part of a raw schema of a document stands for a schema, with at most `n` references followed
inside one another. -/
inductive UnfoldsWithin (lib : Library) : Nat → String → RawPart → Schema → Prop where
  | null {n document} : UnfoldsWithin lib n document (.value .null) .any
  | true {n document} : UnfoldsWithin lib n document (.value (.bool true)) .any
  | false {n document} : UnfoldsWithin lib n document (.value (.bool false)) .unknown
  | text {n document text s} (h : ofText text = .ok s) :
      UnfoldsWithin lib n document (.value (.str text)) s
  | object {n document ms s} (h : UnfoldsWithin lib n document (.members ms) s) :
      UnfoldsWithin lib n document (.value (.obj ms)) (orNull ms s)
  | reference {n document ms r raw s} (hk : Keyword.of ms = .reference (.str r))
      (hraw : lib.Holds (.ofReference document r) raw)
      (h : UnfoldsWithin lib n (Target.ofReference document r).document (.value raw) s) :
      UnfoldsWithin lib (n + 1) document (.members ms) s
  | alternatives {n document ms items arms} (hk : Keyword.of ms = .alternatives (.arr items))
      (hlength : arms.length = items.length)
      (h : ∀ p ∈ items.zip arms, UnfoldsWithin lib n document (.value p.1) p.2) :
      UnfoldsWithin lib n document (.members ms) (.union arms)
  | all {n document ms items arms s} (hk : Keyword.of ms = .all (.arr items))
      (hlength : arms.length = items.length)
      (h : ∀ p ∈ items.zip arms, UnfoldsWithin lib n document (.value p.1) p.2)
      (hs : mergeAll arms = .ok s) : UnfoldsWithin lib n document (.members ms) s
  | const {n document ms v} (hk : Keyword.of ms = .const v) :
      UnfoldsWithin lib n document (.members ms) (.ofValue v)
  | enum {n document ms v s} (hk : Keyword.of ms = .enum v) (hs : ofEnum v = .ok s) :
      UnfoldsWithin lib n document (.members ms) s
  | type {n document ms name s} (hk : Keyword.of ms = .type (.str name))
      (h : UnfoldsWithin lib n document (.typed ms name) s) :
      UnfoldsWithin lib n document (.members ms) s
  | types {n document ms arms} {names : List String}
      (hk : Keyword.of ms = .type (.arr (names.map .str)))
      (hlength : arms.length = names.length)
      (h : ∀ p ∈ names.zip arms, UnfoldsWithin lib n document (.typed ms p.1) p.2) :
      UnfoldsWithin lib n document (.members ms) (.union arms)
  | implied {n document ms name s} (hk : Keyword.of ms = .implied name)
      (h : UnfoldsWithin lib n document (.typed ms name) s) :
      UnfoldsWithin lib n document (.members ms) s
  | nothing {n document ms} (hk : Keyword.of ms = .nothing) :
      UnfoldsWithin lib n document (.members ms) .any
  | record {n document ms name ps required} {types : List Schema} (hname : name = "object")
      (hps : properties ms = .ok ps) (hrequired : requiredNames ms = .ok required)
      (hlength : types.length = ps.length)
      (h : ∀ p ∈ ps.zip types, UnfoldsWithin lib n document (.value p.1.2) p.2) :
      UnfoldsWithin lib n document (.typed ms name)
        (.object (ps.names.zip types) required (isOpenObject ms ps))
  | array {n document ms name items s} (hname : name = "array")
      (hitems : Table.get? ms "items" = some items)
      (h : UnfoldsWithin lib n document (.value items) s) :
      UnfoldsWithin lib n document (.typed ms name) (.array s)
  | bareArray {n document ms name} (hname : name = "array")
      (hitems : Table.get? ms "items" = none) :
      UnfoldsWithin lib n document (.typed ms name) (.array .unknown)
  | named {n document ms name s} (hobject : name ≠ "object") (harray : name ≠ "array")
      (hs : TypeText.named? name = some s) : UnfoldsWithin lib n document (.typed ms name) s

/-- A part of a raw schema of a document stands for a schema. -/
def Unfolds (lib : Library) (document : String) (part : RawPart) (s : Schema) : Prop :=
  ∃ n, UnfoldsWithin lib n document part s

namespace UnfoldsWithin

variable {lib : Library} {document : String} {part : RawPart} {n m : Nat}

theorem mono {s : Schema} (h : UnfoldsWithin lib n document part s) (hnm : n ≤ m) :
    UnfoldsWithin lib m document part s := by
  induction h generalizing m with
  | null => exact .null
  | true => exact .true
  | false => exact .false
  | text h => exact .text h
  | object _ ih => exact .object (ih hnm)
  | reference hk hraw _ ih =>
    obtain ⟨k, rfl⟩ := Nat.exists_eq_succ_of_ne_zero (Nat.ne_zero_of_lt hnm)
    exact .reference hk hraw (ih (Nat.le_of_succ_le_succ hnm))
  | alternatives hk hlength _ ih => exact .alternatives hk hlength fun p hp => ih p hp hnm
  | all hk hlength _ hs ih => exact .all hk hlength (fun p hp => ih p hp hnm) hs
  | const hk => exact .const hk
  | enum hk hs => exact .enum hk hs
  | type hk _ ih => exact .type hk (ih hnm)
  | types hk hlength _ ih => exact .types hk hlength fun p hp => ih p hp hnm
  | implied hk _ ih => exact .implied hk (ih hnm)
  | nothing hk => exact .nothing hk
  | record hname hps hrequired hlength _ ih =>
    exact .record hname hps hrequired hlength fun p hp => ih p hp hnm
  | array hname hitems _ ih => exact .array hname hitems (ih hnm)
  | bareArray hname hitems => exact .bareArray hname hitems
  | named hobject harray hs => exact .named hobject harray hs

/-- One bound serves for all parts of a list. -/
theorem exists_forall {α : Type} {f : α → RawPart} {ps : List (α × Schema)}
    (h : ∀ p ∈ ps, ∃ n, UnfoldsWithin lib n document (f p.1) p.2) :
    ∃ n, ∀ p ∈ ps, UnfoldsWithin lib n document (f p.1) p.2 := by
  induction ps with
  | nil => exact ⟨0, nofun⟩
  | cons p ps ih =>
    obtain ⟨n, hn⟩ := h p List.mem_cons_self
    obtain ⟨m, hm⟩ := ih fun q hq => h q (List.mem_cons_of_mem p hq)
    refine ⟨max n m, fun q hq => ?_⟩
    rcases List.mem_cons.1 hq with rfl | hq
    · exact hn.mono (le_max_left n m)
    · exact (hm q hq).mono (le_max_right n m)

theorem eq_of_forall_mem_zip {α : Type} {f : α → RawPart} {l : List α} {a b : List Schema}
    (ha : a.length = l.length) (hb : b.length = l.length)
    (h : ∀ p ∈ l.zip a, ∀ {m s}, UnfoldsWithin lib m document (f p.1) s → p.2 = s)
    (h' : ∀ p ∈ l.zip b, UnfoldsWithin lib n document (f p.1) p.2) : a = b := by
  induction l generalizing a b with
  | nil => rw [List.length_eq_zero_iff.1 ha, List.length_eq_zero_iff.1 hb]
  | cons x l ih =>
    obtain ⟨y, a, rfl⟩ := List.exists_cons_of_length_eq_add_one ha
    obtain ⟨z, b, rfl⟩ := List.exists_cons_of_length_eq_add_one hb
    rw [List.zip_cons_cons] at h h'
    have hhead : y = z := h (x, y) List.mem_cons_self (h' (x, z) List.mem_cons_self)
    have htail : a = b := ih (Nat.succ.inj ha) (Nat.succ.inj hb)
      (fun p hp => h p (List.mem_cons_of_mem _ hp)) fun p hp => h' p (List.mem_cons_of_mem _ hp)
    rw [hhead, htail]

/-- A part of a raw schema stands for one schema, within whatever bounds. -/
theorem unique {s s' : Schema} (h : UnfoldsWithin lib n document part s)
    (h' : UnfoldsWithin lib m document part s') : s = s' := by
  induction h generalizing m s' with
  | null => cases h'; rfl
  | true => cases h'; rfl
  | false => cases h'; rfl
  | text h =>
    cases h' with
    | text h' => exact Except.ok.inj (h.symm.trans h')
  | object _ ih =>
    cases h' with
    | object h' => rw [ih h']
  | reference hk hraw _ ih =>
    cases h' with
    | reference hk' hraw' h' =>
      cases hk.symm.trans hk'
      cases hraw.unique hraw'
      exact ih h'
    | _ => simp_all
  | alternatives hk hlength _ ih =>
    cases h' with
    | alternatives hk' hlength' h' =>
      cases hk.symm.trans hk'
      rw [eq_of_forall_mem_zip hlength hlength' (fun p hp => ih p hp) h']
    | _ => simp_all
  | all hk hlength _ hs ih =>
    cases h' with
    | all hk' hlength' h' hs' =>
      cases hk.symm.trans hk'
      rw [eq_of_forall_mem_zip hlength hlength' (fun p hp => ih p hp) h'] at hs
      exact Except.ok.inj (hs.symm.trans hs')
    | _ => simp_all
  | const hk =>
    cases h' with
    | const hk' =>
      cases hk.symm.trans hk'
      rfl
    | _ => simp_all
  | enum hk hs =>
    cases h' with
    | enum hk' hs' =>
      cases hk.symm.trans hk'
      exact Except.ok.inj (hs.symm.trans hs')
    | _ => simp_all
  | type hk _ ih =>
    cases h' with
    | type hk' h' =>
      cases hk.symm.trans hk'
      exact ih h'
    | _ => simp_all
  | types hk hlength _ ih =>
    cases h' with
    | types hk' hlength' h' =>
      have hnames := Value.arr.inj (Keyword.type.inj (hk.symm.trans hk'))
      cases (List.map_inj_right fun _ _ => Value.str.inj).1 hnames
      rw [eq_of_forall_mem_zip (f := .typed _) hlength hlength' (fun p hp => ih p hp) h']
    | _ => simp_all
  | implied hk _ ih =>
    cases h' with
    | implied hk' h' =>
      cases hk.symm.trans hk'
      exact ih h'
    | _ => simp_all
  | nothing hk =>
    cases h' with
    | nothing => rfl
    | _ => simp_all
  | record hname hps hrequired hlength _ ih =>
    cases h' with
    | record _ hps' hrequired' hlength' h' =>
      cases hps.symm.trans hps'
      cases hrequired.symm.trans hrequired'
      rw [eq_of_forall_mem_zip (f := fun p : String × Value => .value p.2) hlength hlength'
        (fun p hp => ih p hp) h']
    | _ => simp_all
  | array hname hitems _ ih =>
    cases h' with
    | array _ hitems' h' =>
      cases hitems.symm.trans hitems'
      rw [ih h']
    | _ => simp_all
  | bareArray hname hitems =>
    cases h' with
    | bareArray => rfl
    | _ => simp_all
  | named hobject harray hs =>
    cases h' with
    | named _ _ hs' => exact Option.some.inj (hs.symm.trans hs')
    | _ => simp_all

end UnfoldsWithin

end CapabilityFlow
