import CapabilityFlow.Proofs.Text.Script

/-!
# Hunks

A hunk is applied where its header states, and only if the lines there are those that it keeps or deletes
(`applyHunks`). The ranges of a script are apart and hold all that it changes (`frames_hunkRanges`), so
the hunks there lead from one side of the script to the other (`applyHunks_hunks`).
-/

namespace CapabilityFlow.Text

/-! ## Applying hunks -/

/-- What a header states about one side of a hunk: the number of its first line, or of the line before
it if there is none, and how many lines there are. -/
structure Part where
  first : Nat
  count : Nat
deriving DecidableEq, Repr

/-- How many lines of the text stand before a part. -/
def Part.before? : Part → Option Nat
  | ⟨first, 0⟩ => some first
  | ⟨first + 1, _ + 1⟩ => some first
  | ⟨0, _ + 1⟩ => none

/-- A hunk as it is written. -/
structure Hunk where
  old : Part
  new : Part
  body : List Change
deriving DecidableEq, Repr

/-- The counts of the header are those of the body. -/
def Hunk.IsCounted (h : Hunk) : Prop :=
  h.old.count = h.body.countP (·.edit != .insert) ∧ h.new.count = h.body.countP (·.edit != .delete)

instance (h : Hunk) : Decidable h.IsCounted :=
  inferInstanceAs (Decidable (_ ∧ _))

/-- Follows a body on the lines at its place, which have to be the ones that it keeps or deletes. Gives
the lines that it makes, and the lines behind it. -/
def applyBody : List Change → List String → Option (List String × List String)
  | [], rest => some ([], rest)
  | ⟨.insert, line⟩ :: body, rest =>
    (applyBody body rest).map fun (made, rest) => (line :: made, rest)
  | ⟨.keep, line⟩ :: body, there :: rest =>
    if line = there then (applyBody body rest).map fun (made, rest) => (line :: made, rest) else none
  | ⟨.delete, line⟩ :: body, there :: rest => if line = there then applyBody body rest else none
  | _ :: _, [] => none

/-- Applies hunks in order. `rest` are the old lines behind the first `read` ones, and `made` the new
lines so far. The lines before a hunk stay; it has to be counted, to start in `rest`, and to stand in
the new text where its header states. -/
def applyFrom (read : Nat) (made rest : List String) : List Hunk → Option (List String)
  | [] => some (made ++ rest)
  | h :: hunks => do
    let start ← h.old.before?
    let made := made ++ rest.take (start - read)
    if h.IsCounted ∧ read ≤ start ∧ start ≤ read + rest.length ∧ h.new.before? = some made.length then
      let (lines, rest) ← applyBody h.body (rest.drop (start - read))
      applyFrom (start + h.old.count) (made ++ lines) rest hunks
    else none

/-- Applies hunks to the lines of a text. -/
def applyHunks (hunks : List Hunk) (old : List String) : Option (List String) :=
  applyFrom 0 [] old hunks

theorem before?_firstLine (before count : Nat) : Part.before? ⟨firstLine before count, count⟩ = some before := by
  cases count <;> rfl

/-- A hunk that fits makes its lines from those behind a gap, which stays. -/
theorem applyFrom_cons {h : Hunk} {read : Nat} {made gap rest lines behind : List String}
    (hcounted : h.IsCounted) (hold : h.old.before? = some (read + gap.length))
    (hnew : h.new.before? = some (made ++ gap).length)
    (hbody : applyBody h.body rest = some (lines, behind)) (hunks : List Hunk) :
    applyFrom read made (gap ++ rest) (h :: hunks) =
      applyFrom (read + gap.length + h.old.count) (made ++ gap ++ lines) behind hunks := by
  have hgap : read + gap.length - read = gap.length := Nat.add_sub_cancel_left read gap.length
  have hend : read + gap.length ≤ read + (gap ++ rest).length := by
    rw [List.length_append]
    omega
  simp only [applyFrom, hold, Option.bind_eq_bind, Option.bind_some, hgap, List.take_left,
    List.drop_left, hbody]
  rw [if_pos ⟨hcounted, Nat.le_add_right _ _, hend, hnew⟩]

/-- A body leads from one of its sides to the other. -/
theorem applyBody_side (body : List Change) (rest : List String) :
    applyBody body (side .insert body ++ rest) = some (side .delete body, rest) := by
  induction body with
  | nil => rfl
  | cons c body ih =>
    obtain ⟨edit, line⟩ := c
    cases edit with
    | keep => simp [applyBody, side_cons, ih]
    | delete => simp [applyBody, side_cons, ih]
    | insert => simp [applyBody, side_cons, ih]

/-! ## Merging windows -/

namespace Range

/-- A range that is not empty and ends by `length`. -/
def Within (length : Nat) (r : Range) : Prop :=
  r.start < r.stop ∧ r.stop ≤ length

def Holds (r w : Range) : Prop :=
  r.start ≤ w.start ∧ w.stop ≤ r.stop

/-- A range neither starts nor ends behind another one. -/
def NotAfter (a b : Range) : Prop :=
  a.start ≤ b.start ∧ a.stop ≤ b.stop

end Range

/-- Ranges given last first, to which windows are still to be added. -/
structure Merging (length : Nat) (ranges ws : List Range) : Prop where
  apart : ranges.Pairwise fun a b => b.stop < a.start
  within : ∀ r ∈ ranges, r.Within length
  last : ∀ r ∈ ranges.head?, ∀ w ∈ ws, r.NotAfter w

variable {length : Nat} {ranges ws : List Range} {w : Range}

theorem Merging.addWindow (h : Merging length ranges (w :: ws)) (hw : w.Within length)
    (hwindows : ∀ v ∈ ws, w.NotAfter v) : Merging length (addWindow ranges w) ws := by
  obtain ⟨hapart, hwithin, hlast⟩ := h
  cases ranges with
  | nil => exact ⟨List.pairwise_singleton _ w, by simpa [Text.addWindow], by simpa [Text.addWindow]⟩
  | cons last rest =>
    obtain ⟨hstart, hstop⟩ := hlast last rfl w List.mem_cons_self
    obtain ⟨hbefore, hrest⟩ := List.pairwise_cons.1 hapart
    obtain ⟨hlastWithin, hrestWithin⟩ := List.forall_mem_cons.1 hwithin
    simp only [Text.addWindow]
    split
    · -- the window touches the last range, which grows
      refine ⟨List.pairwise_cons.2 ⟨hbefore, hrest⟩, List.forall_mem_cons.2 ⟨?_, hrestWithin⟩, ?_⟩
      · exact ⟨Nat.lt_of_lt_of_le hlastWithin.1 hstop, hw.2⟩
      · rintro r ⟨⟩ v hv
        exact ⟨Nat.le_trans hstart (hwindows v hv).1, (hwindows v hv).2⟩
    · rename_i htouch
      refine ⟨List.pairwise_cons.2 ⟨fun r hr => ?_, hapart⟩,
        List.forall_mem_cons.2 ⟨hw, hwithin⟩, ?_⟩
      · rcases List.mem_cons.1 hr with rfl | hr
        · omega
        · have hgap := hbefore r hr
          have hnonempty := hlastWithin.1
          omega
      · rintro r ⟨⟩ v hv
        exact hwindows v hv

/-- Adding a window loses nothing. -/
theorem Merging.exists_holds_addWindow (h : Merging length ranges (w :: ws)) {v : Range}
    (hv : v = w ∨ v ∈ ranges) : ∃ r ∈ Text.addWindow ranges w, r.Holds v := by
  cases ranges with
  | nil =>
    obtain rfl : v = w := hv.resolve_right List.not_mem_nil
    exact ⟨v, List.mem_cons_self, Nat.le_refl _, Nat.le_refl _⟩
  | cons last rest =>
    obtain ⟨hstart, hstop⟩ := h.last last rfl w List.mem_cons_self
    simp only [Text.addWindow]
    split
    · rcases hv with rfl | hv
      · exact ⟨_, List.mem_cons_self, hstart, Nat.le_refl _⟩
      rcases List.mem_cons.1 hv with rfl | hv
      · exact ⟨_, List.mem_cons_self, Nat.le_refl _, hstop⟩
      · exact ⟨v, List.mem_cons_of_mem _ hv, Nat.le_refl _, Nat.le_refl _⟩
    · exact ⟨v, List.mem_cons.2 hv, Nat.le_refl _, Nat.le_refl _⟩

/-- Merged windows are ranges that are apart and hold each of them. -/
theorem Merging.foldl_addWindow (h : Merging length ranges ws)
    (hwithin : ∀ w ∈ ws, w.Within length) (hwindows : ws.Pairwise Range.NotAfter) :
    Merging length (ws.foldl Text.addWindow ranges) [] ∧
      ∀ v, v ∈ ws ∨ v ∈ ranges → ∃ r ∈ ws.foldl Text.addWindow ranges, r.Holds v := by
  induction ws generalizing ranges with
  | nil =>
    refine ⟨h, fun v hv => ⟨v, hv.resolve_left List.not_mem_nil, Nat.le_refl _, Nat.le_refl _⟩⟩
  | cons w ws ih =>
    obtain ⟨hw, hwithin⟩ := List.forall_mem_cons.1 hwithin
    obtain ⟨hafter, hwindows⟩ := List.pairwise_cons.1 hwindows
    obtain ⟨hmerging, hholds⟩ := ih (h.addWindow hw hafter) hwithin hwindows
    refine ⟨hmerging, fun v hv => ?_⟩
    rw [List.mem_cons, or_assoc, or_left_comm] at hv
    rcases hv with hv | hv
    · exact hholds v (.inl hv)
    · obtain ⟨u, hu, hstart, hstop⟩ := h.exists_holds_addWindow hv
      obtain ⟨r, hr, hstart', hstop'⟩ := hholds u (.inr hu)
      exact ⟨r, hr, Nat.le_trans hstart' hstart, Nat.le_trans hstop hstop'⟩

/-! ## The ranges of a script -/

variable {script : List Change}

theorem mem_windows_iff : w ∈ windows script ↔ ∃ i c, script[i]? = some c ∧ c.edit ≠ .keep ∧
    w = ⟨i - contextLines, min (i + 1 + contextLines) script.length⟩ := by
  simp only [windows, List.mem_filterMap, List.mem_zipIdx_iff_getElem?]
  constructor
  · rintro ⟨⟨c, i⟩, hc, hw⟩
    split at hw
    · cases hw
    · rename_i hkeep
      exact ⟨i, c, hc, hkeep, (Option.some.inj hw).symm⟩
  · rintro ⟨i, c, hc, hkeep, rfl⟩
    exact ⟨(c, i), hc, if_neg hkeep⟩

theorem within_of_mem_windows (hw : w ∈ windows script) : w.Within script.length := by
  obtain ⟨i, c, hc, -, rfl⟩ := mem_windows_iff.1 hw
  obtain ⟨hi, -⟩ := List.getElem?_eq_some_iff.1 hc
  constructor
  · dsimp only
    omega
  · exact Nat.min_le_right _ _

theorem pairwise_windows (script : List Change) : (windows script).Pairwise Range.NotAfter := by
  have hplaces : script.zipIdx.Pairwise fun a b => a.2 < b.2 := by
    rw [← List.pairwise_map, List.zipIdx_map_snd]
    exact List.pairwise_lt_range' 1
  refine List.pairwise_filterMap.2 (hplaces.imp ?_)
  rintro ⟨c, i⟩ ⟨d, j⟩ hij v hv w hw
  dsimp only at hij hv hw
  split at hv
  · cases hv
  split at hw
  · cases hw
  cases hv
  cases hw
  constructor
  · dsimp only
    omega
  · dsimp only
    omega

/-- The changes of a script from `start` on and before `stop`. -/
def segment (script : List Change) (start stop : Nat) : List Change :=
  (script.take stop).drop start

theorem take_eq_append {start stop : Nat} (h : start ≤ stop) (script : List Change) :
    script.take stop = script.take start ++ segment script start stop := by
  have htake : (script.take stop).take start = script.take start := by
    rw [List.take_take, Nat.min_eq_left h]
  rw [← htake, segment, List.take_append_drop]

theorem drop_eq_append {start stop : Nat} (h : start ≤ stop) (hstop : stop ≤ script.length) :
    script.drop start = segment script start stop ++ script.drop stop := by
  have hlength : start ≤ (script.take stop).length := by
    rw [List.length_take]
    omega
  rw [segment, ← List.drop_append_of_le_length hlength, List.take_append_drop]

/-- Ranges that are apart, start behind `start`, and hold all that a script changes from there on. -/
structure Frames (script : List Change) (start : Nat) (ranges : List Range) : Prop where
  apart : ranges.Pairwise fun a b => a.stop < b.start
  starts : ∀ r ∈ ranges, start ≤ r.start
  within : ∀ r ∈ ranges, r.Within script.length
  changes : ∀ i c, script[i]? = some c → c.edit ≠ .keep → start ≤ i →
    ∃ r ∈ ranges, r.start ≤ i ∧ i < r.stop

theorem frames_hunkRanges (script : List Change) : Frames script 0 (hunkRanges script) := by
  have hstart : Merging script.length [] (windows script) := ⟨.nil, by simp, by simp⟩
  obtain ⟨⟨hapart, hwithin, -⟩, hholds⟩ :=
    hstart.foldl_addWindow (fun w hw => within_of_mem_windows hw) (pairwise_windows script)
  refine ⟨List.pairwise_reverse.2 hapart, fun r _ => Nat.zero_le _, ?_, ?_⟩
  · simpa [hunkRanges] using hwithin
  · intro i c hc hkeep _
    obtain ⟨hi, -⟩ := List.getElem?_eq_some_iff.1 hc
    obtain ⟨r, hr, hstart, hstop⟩ := hholds _ (.inl (mem_windows_iff.2 ⟨i, c, hc, hkeep, rfl⟩))
    refine ⟨r, List.mem_reverse.2 hr, ?_, ?_⟩
    · dsimp only at hstart
      omega
    · dsimp only at hstop
      omega

namespace Frames

variable {start : Nat}

/-- Before the first range nothing changes. -/
theorem keeps (h : Frames script start ranges) {stop : Nat} (hstop : ∀ r ∈ ranges, stop ≤ r.start) :
    ∀ c ∈ segment script start stop, c.edit = .keep := by
  intro c hc
  rw [segment] at hc
  obtain ⟨i, hi⟩ := List.mem_iff_getElem?.1 hc
  rw [List.getElem?_drop, List.getElem?_take] at hi
  split at hi
  · rename_i hlt
    refine Decidable.byContradiction fun hkeep => ?_
    obtain ⟨r, hr, hle, -⟩ := h.changes (start + i) c hi hkeep (Nat.le_add_right _ _)
    have := hstop r hr
    omega
  · cases hi

theorem tail {r : Range} (h : Frames script start (r :: ranges)) : Frames script r.stop ranges where
  apart := h.apart.of_cons
  starts := fun s hs => Nat.le_of_lt (List.rel_of_pairwise_cons h.apart hs)
  within := fun s hs => h.within s (List.mem_cons_of_mem _ hs)
  changes := fun i c hc hkeep hi => by
    have hnext : r.start < r.stop := (h.within r List.mem_cons_self).1
    have hstart : start ≤ r.start := h.starts r List.mem_cons_self
    obtain ⟨s, hs, hle, hlt⟩ := h.changes i c hc hkeep (by omega)
    rcases List.mem_cons.1 hs with rfl | hs
    · omega
    · exact ⟨s, hs, hle, hlt⟩

end Frames

/-! ## The hunks of a script -/

/-- The hunk of a range. -/
def hunkOf (script : List Change) (r : Range) : Hunk :=
  let before := script.take r.start
  let body := segment script r.start r.stop
  { old := ⟨firstLine (oldCount before) (oldCount body), oldCount body⟩
    new := ⟨firstLine (newCount before) (newCount body), newCount body⟩
    body := body }

theorem oldCount_append (first second : List Change) :
    oldCount (first ++ second) = oldCount first + oldCount second :=
  List.countP_append

theorem isCounted_hunkOf (script : List Change) (r : Range) : (hunkOf script r).IsCounted :=
  ⟨rfl, rfl⟩

/-- If nothing changes between `start` and a range, the hunk of the range leads from the lines around
`start` to those around its end. -/
theorem applyFrom_hunkOf {start : Nat} {r : Range} (hstart : start ≤ r.start)
    (hr : r.Within script.length) (hkeeps : ∀ c ∈ segment script start r.start, c.edit = .keep)
    (hunks : List Hunk) :
    applyFrom (oldCount (script.take start)) (side .delete (script.take start))
        (side .insert (script.drop start)) (hunkOf script r :: hunks) =
      applyFrom (oldCount (script.take r.stop)) (side .delete (script.take r.stop))
        (side .insert (script.drop r.stop)) hunks := by
  obtain ⟨hlt, hstop⟩ := hr
  have hbefore := take_eq_append hstart script
  have hbehind := take_eq_append (Nat.le_of_lt hlt) script
  have hread : oldCount (script.take r.start) =
      oldCount (script.take start) + (side .insert (segment script start r.start)).length := by
    rw [hbefore, oldCount_append, length_side]
    rfl
  have hmade : side .delete (script.take r.start) =
      side .delete (script.take start) ++ side .insert (segment script start r.start) := by
    rw [hbefore, side_append, side_insert_eq_side_delete hkeeps]
  have hold : (hunkOf script r).old.before? = some
      (oldCount (script.take start) + (side .insert (segment script start r.start)).length) := by
    rw [← hread]
    exact before?_firstLine _ _
  have hnew : (hunkOf script r).new.before? = some
      (side .delete (script.take start) ++ side .insert (segment script start r.start)).length := by
    rw [← hmade, length_side]
    exact before?_firstLine _ _
  have hbody : applyBody (hunkOf script r).body (side .insert (script.drop r.start)) = some
      (side .delete (segment script r.start r.stop), side .insert (script.drop r.stop)) := by
    rw [drop_eq_append (Nat.le_of_lt hlt) hstop, side_append]
    exact applyBody_side _ _
  have hcount : oldCount (script.take r.start) + (hunkOf script r).old.count =
      oldCount (script.take r.stop) := by
    rw [hbehind, oldCount_append]
    rfl
  rw [drop_eq_append hstart (by omega), side_append,
    applyFrom_cons (isCounted_hunkOf script r) hold hnew hbody, ← hread, hcount, ← hmade,
    ← side_append, ← hbehind]

/-- By induction on the ranges: what is read and made so far lies before `start`. -/
theorem applyFrom_hunks {start : Nat} (h : Frames script start ranges) :
    applyFrom (oldCount (script.take start)) (side .delete (script.take start))
      (side .insert (script.drop start)) (ranges.map (hunkOf script)) =
        some (side .delete script) := by
  induction ranges generalizing start with
  | nil =>
    have hkeeps : ∀ c ∈ segment script start script.length, c.edit = .keep := h.keeps (by simp)
    rw [segment, List.take_length] at hkeeps
    rw [List.map_nil, applyFrom, side_insert_eq_side_delete hkeeps, ← side_append,
      List.take_append_drop]
  | cons r ranges ih =>
    have hkeeps : ∀ c ∈ segment script start r.start, c.edit = .keep := by
      refine h.keeps (List.forall_mem_cons.2 ⟨Nat.le_refl _, fun s hs => ?_⟩)
      have hgap := List.rel_of_pairwise_cons h.apart hs
      have hr := (h.within r List.mem_cons_self).1
      omega
    rw [List.map_cons, applyFrom_hunkOf (h.starts r List.mem_cons_self)
      (h.within r List.mem_cons_self) hkeeps]
    exact ih h.tail

/-- The hunks of a script lead from the lines that it takes to those that it yields. -/
theorem applyHunks_hunkRanges (script : List Change) :
    applyHunks ((hunkRanges script).map (hunkOf script)) (side .insert script) =
      some (side .delete script) :=
  applyFrom_hunks (frames_hunkRanges script)

end CapabilityFlow.Text
