import CapabilityFlow.Proofs.Schema.Remembering
import CapabilityFlow.Proofs.Schema.Tracking
import Mathlib.Data.List.Chain
import Mathlib.Data.List.Nodup

/-!
# The stack of references is bounded and its errors are genuine

The resolver with one stack ends, with the answer of `Resolver.resolve` or `Resolver.resolveReference`
(`Resolver.run_track`). Every stack on the way is short, holds no target twice, and leads from the
call to its top by references that stand in the targets (`Library.IsStack`). Every run leaves the
stack as it found it (`Tracking.value_restores`). A cycle is one of references, and the bound is
exceeded only when a stack is full (`Library.Explains`).
-/

namespace CapabilityFlow

/-! ## Keys of targets -/

namespace Target

/-- A document whose name has no number sign. -/
def IsNamed (t : Target) : Prop :=
  '#' ∉ t.document.toList

theorem takeWhile_text {t : Target} (h : t.IsNamed) :
    t.text.toList.takeWhile (· != '#') = t.document.toList ∧
      t.text.toList.dropWhile (· != '#') = '#' :: t.pointer.toList := by
  have htext : t.text.toList = t.document.toList ++ '#' :: t.pointer.toList := by
    simp [text, String.toList_append]
  have hdocument : ∀ c ∈ t.document.toList, (c != '#') = true :=
    fun c hc => bne_iff_ne.2 fun heq => h (heq ▸ hc)
  rw [htext, List.takeWhile_append_of_pos hdocument, List.dropWhile_append_of_pos hdocument]
  simp

/-- The text of a target tells it from all others. -/
theorem eq_of_text_eq {t u : Target} (ht : t.IsNamed) (hu : u.IsNamed) (h : t.text = u.text) :
    t = u := by
  obtain ⟨htake, hdrop⟩ := takeWhile_text ht
  obtain ⟨htake', hdrop'⟩ := takeWhile_text hu
  rw [h] at htake hdrop
  have hdocument : t.document = u.document := String.toList_inj.1 (htake.symm.trans htake')
  have hpointer : t.pointer = u.pointer :=
    String.toList_inj.1 (List.cons.inj (hdrop.symm.trans hdrop')).2
  cases t
  cases u
  rw [Target.mk.injEq]
  exact ⟨hdocument, hpointer⟩

theorem isNamed_ofReference {document : String} (h : '#' ∉ document.toList) (reference : String) :
    (ofReference document reference).IsNamed := by
  unfold ofReference IsNamed
  dsimp only
  split
  · rename_i hdrop
    intro hmem
    simpa using List.dropWhile_eq_nil_iff.1 hdrop _ hmem
  · dsimp only
    split
    · exact h
    · intro hmem
      rw [String.toList_ofList] at hmem
      simpa using List.mem_takeWhile_imp hmem

end Target

/-! ## Stacks -/

namespace ResolverCall

/-- A call refers to a reference that stands in its raw schema, or to the one that it is about. -/
def Refers : ResolverCall → String → Prop
  | .resolve raw, r => raw.Refers r
  | .follow reference, r => reference = r

end ResolverCall

namespace Library

/-- The raw schema at a target refers to a reference. -/
def Refers (lib : Library) (t : Target) (reference : String) : Prop :=
  ∃ raw, lib.Holds t raw ∧ raw.Refers reference

/-- A reference in one target leads to the other. -/
def Leads (lib : Library) (t u : Target) : Prop :=
  ∃ reference, lib.Refers t reference ∧ Target.ofReference t.document reference = u

/-- With the stack as it is, a reference may be met: it stands in the target on top, or the call refers
to it when nothing is followed. -/
def Meets (lib : Library) (call : ResolverCall) (stack : List Target) (document reference : String) :
    Prop :=
  match stack.getLast? with
  | none => document = rootName ∧ call.Refers reference
  | some top => document = top.document ∧ lib.Refers top reference

/-- A stack is as long as the bound at most, holds no key twice, and leads from the call to its top. -/
structure IsStack (lib : Library) (call : ResolverCall) (stack : List Target) : Prop where
  length_le : stack.length ≤ lib.maxDepth
  nodup : (stack.map Target.text).Nodup
  named : ∀ t ∈ stack, t.IsNamed
  linked : stack.IsChain lib.Leads
  begins : ∀ t ∈ stack.head?, ∃ reference,
    call.Refers reference ∧ Target.ofReference rootName reference = t

variable {lib : Library} {call : ResolverCall} {stack : List Target} {document reference : String}
  {t : Target}

theorem isStack_nil (lib : Library) (call : ResolverCall) : lib.IsStack call [] where
  length_le := Nat.zero_le _
  nodup := List.nodup_nil
  named := nofun
  linked := .nil
  begins := nofun

theorem meets_concat (h : lib.Refers t reference) :
    lib.Meets call (stack ++ [t]) t.document reference := by
  rw [Meets, List.getLast?_concat]
  exact ⟨rfl, h⟩

theorem Meets.leads (h : lib.Meets call stack document reference)
    (ht : Target.ofReference document reference = t) : ∀ top ∈ stack.getLast?, lib.Leads top t := by
  intro top htop
  rw [Meets, Option.mem_def.1 htop] at h
  obtain ⟨rfl, href⟩ := h
  exact ⟨reference, href, ht⟩

theorem IsStack.isNamed (h : lib.IsStack call stack) (hmeets : lib.Meets call stack document reference) :
    '#' ∉ document.toList := by
  unfold Meets at hmeets
  split at hmeets
  · rw [hmeets.1]
    decide
  · rename_i top htop
    rw [hmeets.1]
    exact h.named top (List.mem_of_getLast? htop)

/-- A target that is met is pushed. -/
theorem IsStack.push (h : lib.IsStack call stack) (hmeets : lib.Meets call stack document reference)
    (ht : Target.ofReference document reference = t) (hlength : stack.length < lib.maxDepth)
    (hnew : t ∉ stack) : lib.IsStack call (stack ++ [t]) := by
  have hnamed : t.IsNamed := ht ▸ Target.isNamed_ofReference (h.isNamed hmeets) reference
  refine ⟨?_, ?_, ?_, ?_, ?_⟩
  · rw [List.length_append]
    exact hlength
  · rw [List.map_append, List.map_singleton]
    refine List.nodup_append.2 ⟨h.nodup, List.nodup_singleton _, fun x hx y hy hxy => hnew ?_⟩
    obtain ⟨u, hu, rfl⟩ := List.mem_map.1 hx
    obtain rfl := List.mem_singleton.1 hy
    exact Target.eq_of_text_eq (h.named u hu) hnamed hxy ▸ hu
  · exact List.forall_mem_append.2 ⟨h.named, List.forall_mem_singleton.2 hnamed⟩
  · refine List.isChain_append.2 ⟨h.linked, .singleton t, fun top htop u hu => ?_⟩
    obtain rfl := Option.some.inj hu
    exact hmeets.leads ht top htop
  · cases stack with
    | nil =>
      rintro u ⟨⟩
      obtain ⟨rfl, href⟩ := hmeets
      exact ⟨reference, href, ht⟩
    | cons first rest => exact h.begins

/-! ## Errors -/

/-- What stacks there must be for an error. A cycle is a part of one of them up to its top, which leads
back to the first target of that part. The bound is exceeded by a reference from the top of a stack
that is full to a target that is not on it. -/
def Explains (lib : Library) (call : ResolverCall) (moments : List (List Target)) :
    SchemaError → Prop
  | .cycle chain => chain.IsChain lib.Leads ∧ ∃ before t more,
      chain = t :: (more ++ [t]) ∧ before ++ t :: more ∈ moments
  | .depthExceeded reference limit => limit = lib.maxDepth ∧ ∃ stack ∈ moments,
      stack.length = lib.maxDepth ∧ ∃ document, lib.Meets call stack document reference ∧
        Target.ofReference document reference ∉ stack
  | _ => True

theorem Explains.mono {moments moments' : List (List Target)} {e : SchemaError}
    (h : lib.Explains call moments e) (hsub : moments ⊆ moments') : lib.Explains call moments' e := by
  cases e with
  | cycle chain =>
    obtain ⟨hlinked, before, t, more, hchain, hmem⟩ := h
    exact ⟨hlinked, before, t, more, hchain, hsub hmem⟩
  | depthExceeded r limit =>
    obtain ⟨hlimit, stack, hmem, h⟩ := h
    exact ⟨hlimit, stack, hsub hmem, h⟩
  | _ => trivial

theorem explains_of_isLocal {e : SchemaError} (h : e.IsLocal) (moments : List (List Target)) :
    lib.Explains call moments e := by
  cases e with
  | cycle => cases h
  | depthExceeded => cases h
  | _ => trivial

theorem explains_cycle (h : lib.IsStack call stack) (hmeets : lib.Meets call stack document reference)
    (ht : Target.ofReference document reference = t) (hmem : t ∈ stack) :
    lib.Explains call [stack] (.cycle (stack.dropWhile (· != t) ++ [t])) := by
  obtain ⟨before, more, rfl, hnot⟩ := List.eq_append_cons_of_mem hmem
  have hbefore : ∀ u ∈ before, (u != t) = true :=
    fun u hu => bne_iff_ne.2 fun heq => hnot (heq ▸ hu)
  have hdrop : (before ++ t :: more).dropWhile (· != t) = t :: more := by
    rw [List.dropWhile_append_of_pos hbefore]
    simp
  rw [hdrop]
  refine ⟨?_, before, t, more, rfl, List.mem_singleton_self _⟩
  refine List.isChain_append.2 ⟨(List.isChain_append.1 h.linked).2.1, .singleton t, ?_⟩
  intro top htop u hu
  obtain rfl := Option.some.inj hu
  refine hmeets.leads ht top ?_
  rw [List.getLast?_append]
  simpa using htop

end Library

namespace Tracking

variable {lib : Library} {call : ResolverCall} {stack : List Target} {α β : Type}

/-! ## The stack after a run -/

/-- A run leaves the stack as it found it, whatever the result. -/
def Restores (c : Tracking α) : Prop :=
  ∀ k x k', c.run k = some (x, k') → k'.stack = k.stack

theorem mirrored_restores : Mirrored fun _ c => Restores c where
  lift := by
    intro α x _ k y k' h
    rw [run_liftExcept] at h
    cases h
    rfl
  bind := by
    intro α β _ c _ f hc hf k y k' h
    cases hrun : c.run k with
    | none =>
      rw [run_bind_of_none hrun] at h
      cases h
    | some p =>
      obtain ⟨x, k₁⟩ := p
      have hstack := hc k x k₁ hrun
      cases x with
      | ok a =>
        rw [run_bind_of_ok hrun] at h
        exact (hf a k₁ y k' h).trans hstack
      | error e =>
        rw [run_bind_of_error hrun] at h
        cases h
        exact hstack

/-- What is pushed is popped, also after an error. -/
theorem follow_restores (lib : Library) (fuel : Nat) (document reference : String) :
    Restores (follow lib fuel document reference) := by
  induction fuel generalizing document reference with
  | zero => exact fun k x k' h => by cases h
  | succ fuel ih =>
    intro k x k' h
    generalize ht : Target.ofReference document reference = t
    cases hl : k.resolved.lookup t with
    | some s =>
      rw [run_follow_of_lookup lib fuel ht hl] at h
      cases h
      rfl
    | none =>
      by_cases hmem : t ∈ k.stack
      · rw [run_follow_of_mem lib fuel ht hl hmem] at h
        cases h
        rfl
      by_cases hfull : lib.maxDepth ≤ k.stack.length
      · rw [run_follow_of_full fuel ht hl hmem hfull] at h
        cases h
        rfl
      rw [run_follow_of_new fuel ht hl hmem (Nat.lt_of_not_le hfull)] at h
      split at h
      · cases h
        rfl
      · rename_i raw _
        have hvalue : Restores (value (follow lib fuel t.document) raw) :=
          mirrored_restores.value lib 0 [] t.document _ raw fun r _ => ih t.document r
        have hpop : ∀ x k', (value (follow lib fuel t.document) raw).run (k.push t) = some (x, k') →
            k'.pop.stack = k.stack := by
          intro x k' hrun
          rw [Tracker.pop, hvalue _ x k' hrun]
          exact List.dropLast_concat
        split at h
        · cases h
        · rename_i s k' hrun
          cases h
          exact hpop _ _ hrun
        · rename_i e k' hrun
          cases h
          exact hpop _ _ hrun

theorem value_restores (lib : Library) (fuel : Nat) (document : String) (raw : Value) :
    Restores (value (follow lib fuel document) raw) :=
  mirrored_restores.value lib 0 [] document _ raw fun r _ => follow_restores lib fuel document r

/-! ## Both resolvers -/

/-- From a stack on, the second computation gives what the first gives and remembers the same. All
stacks meanwhile are stacks, and explain an error. -/
def Tracks (lib : Library) (call : ResolverCall) (stack : List Target) (c : Resolving α)
    (c' : Tracking α) : Prop :=
  ∀ m moments, ∃ more,
    c'.run ⟨m, stack, moments⟩ = some ((c.run m).1, ⟨(c.run m).2, stack, moments ++ more⟩) ∧
    (∀ s ∈ more, lib.IsStack call s) ∧
    ∀ e, (c.run m).1 = .error e → lib.Explains call (stack :: more) e

theorem mirrored_tracks (lib : Library) (call : ResolverCall) (stack : List Target) :
    Mirrored (Tracks lib call stack) where
  lift := by
    intro α x hx m moments
    refine ⟨[], ?_, nofun, fun e he => ?_⟩
    · rw [run_liftExcept, Resolving.run_liftExcept, List.append_nil]
    · rw [Resolving.run_liftExcept] at he
      exact Library.explains_of_isLocal (hx e he) _
  bind := by
    intro α β c c' f f' hc hf m moments
    obtain ⟨more, hrun', hstacks, hexplains⟩ := hc m moments
    cases hrun : c.run m with
    | mk x m₁ =>
      rw [hrun] at hrun' hexplains
      cases x with
      | ok a =>
        obtain ⟨more', hrun₁', hstacks', hexplains'⟩ := hf a m₁ (moments ++ more)
        rw [Resolving.run_bind_of_ok hrun, run_bind_of_ok hrun']
        refine ⟨more ++ more', by rw [hrun₁', List.append_assoc],
          List.forall_mem_append.2 ⟨hstacks, hstacks'⟩, fun e he => ?_⟩
        exact (hexplains' e he).mono <|
          List.cons_subset_cons stack (List.subset_append_right more more')
      | error e =>
        rw [Resolving.run_bind_of_error hrun, run_bind_of_error hrun']
        exact ⟨more, rfl, hstacks, fun e' he' => hexplains e' (by cases he'; rfl)⟩

/-- Following a reference tracks with as much room as the stack leaves, and with more fuel than room. -/
theorem follow_tracks {room fuel : Nat} {stack : List Target} {document reference : String} (hfuel : room < fuel)
    (hroom : stack.length + room = lib.maxDepth) (hstack : lib.IsStack call stack)
    (hmeets : lib.Meets call stack document reference) :
    Tracks lib call stack (Resolving.follow lib room stack document reference)
      (follow lib fuel document reference) := by
  intro m moments
  generalize ht : Target.ofReference document reference = t
  obtain ⟨fuel, rfl⟩ := Nat.exists_eq_succ_of_ne_zero (Nat.ne_zero_of_lt hfuel)
  cases hl : m.lookup t with
  | some s =>
    rw [Resolving.run_follow_of_lookup lib ht hl, run_follow_of_lookup lib fuel ht hl]
    exact ⟨[], by simp, nofun, nofun⟩
  | none =>
    by_cases hmem : t ∈ stack
    · rw [Resolving.run_follow_of_mem lib ht hl hmem, run_follow_of_mem lib fuel ht hl hmem]
      refine ⟨[], by simp, nofun, ?_⟩
      rintro _ ⟨⟩
      exact Library.explains_cycle hstack hmeets ht hmem
    match room with
    | 0 =>
      rw [Resolving.run_follow_zero lib ht hl hmem,
        run_follow_of_full fuel ht hl hmem (Nat.le_of_eq hroom.symm)]
      refine ⟨[], by simp, nofun, ?_⟩
      rintro _ ⟨⟩
      exact ⟨rfl, stack, List.mem_cons_self, hroom, document, hmeets, ht ▸ hmem⟩
    | room + 1 =>
      have hlt : stack.length < lib.maxDepth := by omega
      rw [Resolving.run_follow_succ lib ht hl hmem, run_follow_of_new fuel ht hl hmem hlt]
      cases hfind : lib.find t reference with
      | error e =>
        refine ⟨[], by simp, nofun, ?_⟩
        rintro _ ⟨⟩
        exact Library.explains_of_isLocal (Resolving.failsLocally_find lib t reference _ hfind) _
      | ok raw =>
        have hpush : lib.IsStack call (stack ++ [t]) := hstack.push hmeets ht hlt hmem
        have hraw : lib.Holds t raw := Library.find_eq_ok_iff.1 hfind
        have hvalue : Tracks lib call (stack ++ [t])
            (Resolving.value lib room (stack ++ [t]) t.document raw)
            (value (follow lib fuel t.document) raw) :=
          (mirrored_tracks lib call (stack ++ [t])).value lib room (stack ++ [t]) t.document _ raw
            fun r hr => follow_tracks (by omega) (by simp; omega) hpush
              (Library.meets_concat ⟨raw, hraw, hr⟩)
        obtain ⟨more, hrun, hstacks, hexplains⟩ := hvalue m (moments ++ [stack ++ [t]])
        cases hv : (Resolving.value lib room (stack ++ [t]) t.document raw).run m with
        | mk x m₁ =>
        rw [hv] at hrun hexplains
        have hpushed : (value (follow lib fuel t.document) raw).run
            ((Tracker.mk m stack moments).push t) =
              some (x, ⟨m₁, stack ++ [t], moments ++ [stack ++ [t]] ++ more⟩) := hrun
        -- the target comes on top, other targets come and go above it, and it goes again
        refine ⟨(stack ++ [t]) :: more ++ [stack], ?_, List.forall_mem_append.2
          ⟨List.forall_mem_cons.2 ⟨hpush, hstacks⟩, List.forall_mem_singleton.2 hstack⟩, ?_⟩
        · simp only [hpushed, hv]
          cases x <;> simp [Tracker.pop, Tracker.remember]
        · simp only [hv]
          cases x with
          | ok s => exact nofun
          | error e =>
            rintro _ ⟨⟩
            refine (hexplains e rfl).mono fun s hs => ?_
            exact List.mem_cons_of_mem _ (List.mem_append_left _ hs)
termination_by room

end Tracking

/-! ## Resolvers -/

/-- What a call does on one stack. -/
def ResolverCall.track (lib : Library) (fuel : Nat) : ResolverCall → Tracking Schema
  | .resolve raw => Tracking.value (Tracking.follow lib fuel Library.rootName) raw
  | .follow reference => Tracking.follow lib fuel Library.rootName reference

namespace Resolver

open Tracking

/-- The answer to a call. -/
def answer (r : Resolver) : ResolverCall → Except SchemaError Schema
  | .resolve raw => (r.resolve raw).1
  | .follow reference => (r.resolveReference reference).1

theorem tracks_call (lib : Library) (call : ResolverCall) {fuel : Nat} (hfuel : lib.maxDepth < fuel) :
    ∀ reference, call.Refers reference → Tracks lib call []
      (Resolving.follow lib lib.maxDepth [] Library.rootName reference)
      (Tracking.follow lib fuel Library.rootName reference) :=
  fun _ h => follow_tracks hfuel (Nat.zero_add _) (Library.isStack_nil lib call) ⟨rfl, h⟩

/-- On one stack, a call ends with the answer of the resolver, with more fuel than the bound. Meanwhile
the stack is never too long, holds no target twice and leads from each target to the next. Afterwards
it is as it was before, as after each call inside, and the stacks that there were explain an error. -/
theorem run_track (r : Resolver) (call : ResolverCall) (extra : Nat) :
    (∀ fuel document, (∀ raw, Restores (value (follow r.library fuel document) raw)) ∧
      ∀ reference, Restores (follow r.library fuel document reference)) ∧
    ∃ moments, (call.track r.library (r.library.maxDepth + 1 + extra)).run ⟨r.resolved, [], [[]]⟩ =
        some (r.answer call, ⟨(r.after call).resolved, [], moments⟩) ∧
      (∀ stack ∈ moments, r.library.IsStack call stack) ∧
      ∀ e, r.answer call = .error e → r.library.Explains call moments e := by
  refine ⟨fun fuel document => ⟨value_restores r.library fuel document,
    follow_restores r.library fuel document⟩, ?_⟩
  have hfuel : r.library.maxDepth < r.library.maxDepth + 1 + extra := by omega
  have htracks : Tracks r.library call []
      (match call with
        | .resolve raw => Resolving.value r.library r.library.maxDepth [] Library.rootName raw
        | .follow reference =>
          Resolving.follow r.library r.library.maxDepth [] Library.rootName reference)
      (call.track r.library (r.library.maxDepth + 1 + extra)) := by
    cases call with
    | resolve raw =>
      exact (mirrored_tracks r.library (.resolve raw) []).value r.library r.library.maxDepth []
        Library.rootName _ raw (tracks_call r.library (.resolve raw) hfuel)
    | follow reference => exact tracks_call r.library (.follow reference) hfuel reference rfl
  obtain ⟨more, hrun, hstacks, hexplains⟩ := htracks r.resolved [[]]
  refine ⟨[[]] ++ more, ?_, ?_, ?_⟩
  · rw [hrun]
    cases call <;> rfl
  · exact List.forall_mem_cons.2 ⟨Library.isStack_nil r.library call, hstacks⟩
  · intro e he
    refine hexplains e ?_
    cases call <;> exact he

end Resolver

end CapabilityFlow
