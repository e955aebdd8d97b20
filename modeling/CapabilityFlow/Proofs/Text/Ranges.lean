import CapabilityFlow.Proofs.Text.Hunks

/-!
# What the hunks of a script show

Merging windows shows the places that they show and no others (`Merging.exists_shows_foldl_iff`), so
`hunkRanges` shows what stands at most three places from a change (`exists_shows_hunkRanges_iff`). These
ranges show each change once and are the only ones that do all this and are apart
(`showsChanges_hunkRanges`).
-/

namespace CapabilityFlow.Text

/-- Whether a place is in a range. -/
def Range.Shows (r : Range) (i : Nat) : Prop :=
  r.start ≤ i ∧ i < r.stop

instance (r : Range) (i : Nat) : Decidable (r.Shows i) :=
  inferInstanceAs (Decidable (_ ∧ _))

variable {script : List Change} {ranges ws : List Range} {r w : Range} {length i : Nat}

/-! ## Places of merged windows -/

/-- A window is only added to a range that it touches, so no place between the two comes in. -/
theorem exists_shows_of_addWindow (h : ∃ r ∈ addWindow ranges w, r.Shows i) :
    w.Shows i ∨ ∃ r ∈ ranges, r.Shows i := by
  obtain ⟨r, hr, hstart, hstop⟩ := h
  cases ranges with
  | nil =>
    obtain rfl : r = w := List.mem_singleton.1 hr
    exact .inl ⟨hstart, hstop⟩
  | cons last rest =>
    simp only [addWindow] at hr
    split at hr
    · rename_i htouch
      rcases List.mem_cons.1 hr with rfl | hr
      · by_cases hlast : i < last.stop
        · exact .inr ⟨last, List.mem_cons_self, hstart, hlast⟩
        · exact .inl ⟨by omega, hstop⟩
      · exact .inr ⟨r, List.mem_cons_of_mem _ hr, hstart, hstop⟩
    · rcases List.mem_cons.1 hr with rfl | hr
      · exact .inl ⟨hstart, hstop⟩
      · exact .inr ⟨r, hr, hstart, hstop⟩

theorem exists_shows_of_foldl (h : ∃ r ∈ ws.foldl addWindow ranges, r.Shows i) :
    ∃ r, (r ∈ ws ∨ r ∈ ranges) ∧ r.Shows i := by
  induction ws generalizing ranges with
  | nil =>
    obtain ⟨r, hr, hi⟩ := h
    exact ⟨r, .inr hr, hi⟩
  | cons w ws ih =>
    obtain ⟨r, hr | hr, hi⟩ := ih h
    · exact ⟨r, .inl (List.mem_cons_of_mem _ hr), hi⟩
    · rcases exists_shows_of_addWindow ⟨r, hr, hi⟩ with hw | ⟨s, hs, hi⟩
      · exact ⟨w, .inl List.mem_cons_self, hw⟩
      · exact ⟨s, .inr hs, hi⟩

theorem Merging.exists_shows_foldl_iff (h : Merging length ranges ws)
    (hwithin : ∀ w ∈ ws, w.Within length) (hwindows : ws.Pairwise Range.NotAfter) :
    (∃ r ∈ ws.foldl Text.addWindow ranges, r.Shows i) ↔ ∃ r, (r ∈ ws ∨ r ∈ ranges) ∧ r.Shows i := by
  refine ⟨exists_shows_of_foldl, ?_⟩
  rintro ⟨w, hw, hstart, hstop⟩
  obtain ⟨-, hholds⟩ := h.foldl_addWindow hwithin hwindows
  obtain ⟨r, hr, hfirst, hlast⟩ := hholds w hw
  exact ⟨r, hr, Nat.le_trans hfirst hstart, Nat.lt_of_lt_of_le hstop hlast⟩

/-! ## Places of a script -/

/-- What is shown is near to a change. -/
theorem exists_shows_hunkRanges_iff : (∃ r ∈ hunkRanges script, r.Shows i) ↔
    i < script.length ∧ ∃ j c, script[j]? = some c ∧ c.edit ≠ .keep ∧ i ≤ j + 3 ∧ j ≤ i + 3 := by
  have hstart : Merging script.length [] (windows script) := ⟨.nil, by simp, by simp⟩
  have hshows := hstart.exists_shows_foldl_iff (i := i) (fun w hw => within_of_mem_windows hw)
    (pairwise_windows script)
  simp only [hunkRanges, List.mem_reverse]
  rw [hshows]
  constructor
  · rintro ⟨w, hw, hfirst, hlast⟩
    obtain ⟨j, c, hc, hkeep, rfl⟩ := mem_windows_iff.1 (hw.resolve_right List.not_mem_nil)
    simp only [contextLines] at hfirst hlast
    exact ⟨by omega, j, c, hc, hkeep, by omega, by omega⟩
  · rintro ⟨hi, j, c, hc, hkeep, hfirst, hlast⟩
    refine ⟨_, .inl (mem_windows_iff.2 ⟨j, c, hc, hkeep, rfl⟩), ?_⟩
    simp only [Range.Shows, contextLines]
    omega

/-! ## Ranges that are apart -/

/-- The later ones of ranges that are apart show what is shown behind the first. -/
theorem exists_shows_tail_iff (h : (r :: ranges).Pairwise fun a b => a.stop < b.start) :
    (∃ s ∈ ranges, s.Shows i) ↔ r.stop < i ∧ ∃ s ∈ r :: ranges, s.Shows i := by
  constructor
  · rintro ⟨s, hs, hi⟩
    have hgap := List.rel_of_pairwise_cons h hs
    exact ⟨Nat.lt_of_lt_of_le hgap hi.1, s, List.mem_cons_of_mem _ hs, hi⟩
  · rintro ⟨hbehind, s, hs, hi⟩
    rcases List.mem_cons.1 hs with rfl | hs
    · exact absurd hi.2 (Nat.lt_asymm hbehind)
    · exact ⟨s, hs, hi⟩

/-- Of ranges that are apart at most one shows a place. -/
theorem countP_shows_le_one (h : ranges.Pairwise fun a b => a.stop < b.start) (i : Nat) :
    ranges.countP (·.Shows i) ≤ 1 := by
  induction ranges with
  | nil => exact Nat.zero_le 1
  | cons r ranges ih =>
    rw [List.countP_cons]
    by_cases hr : r.Shows i
    · have hnone : ranges.countP (·.Shows i) = 0 := by
        refine List.countP_eq_zero.2 fun s hs hshows => ?_
        obtain ⟨hbehind, -⟩ := (exists_shows_tail_iff h).1 ⟨s, hs, of_decide_eq_true hshows⟩
        exact absurd hr.2 (Nat.lt_asymm hbehind)
      exact Nat.le_of_eq (by rw [hnone, if_pos (decide_eq_true hr)])
    · rw [if_neg (by simpa using hr)]
      exact ih h.of_cons

theorem countP_shows_eq_one_iff (h : ranges.Pairwise fun a b => a.stop < b.start) :
    ranges.countP (·.Shows i) = 1 ↔ ∃ r ∈ ranges, r.Shows i := by
  have hle := countP_shows_le_one h i
  have hpos : 0 < ranges.countP (·.Shows i) ↔ ∃ r ∈ ranges, r.Shows i := by
    simp [List.countP_pos_iff]
  rw [← hpos]
  omega

/-- The first of ranges that are apart starts at the first place that is shown. -/
theorem start_le_of_shows (h : (r :: ranges).Pairwise fun a b => a.stop < b.start)
    (hr : r.start < r.stop) (hi : ∃ s ∈ r :: ranges, s.Shows i) : r.start ≤ i := by
  obtain ⟨s, hs, hshows⟩ := hi
  rcases List.mem_cons.1 hs with rfl | hs
  · exact hshows.1
  · obtain ⟨hbehind, -⟩ := (exists_shows_tail_iff h).1 ⟨s, hs, hshows⟩
    omega

/-- Where the first of ranges that are apart stops, no place is shown. -/
theorem not_exists_shows_stop (h : (r :: ranges).Pairwise fun a b => a.stop < b.start) :
    ¬ ∃ s ∈ r :: ranges, s.Shows r.stop := by
  rintro ⟨s, hs, hshows⟩
  rcases List.mem_cons.1 hs with rfl | hs
  · exact Nat.lt_irrefl _ hshows.2
  · exact Nat.lt_irrefl _ ((exists_shows_tail_iff h).1 ⟨s, hs, hshows⟩).1

/-- Ranges that are apart are known by the places that they show. -/
theorem eq_of_shows_iff {others : List Range} (h : ranges.Pairwise fun a b => a.stop < b.start)
    (hnonempty : ∀ r ∈ ranges, r.start < r.stop) (h' : others.Pairwise fun a b => a.stop < b.start)
    (hnonempty' : ∀ r ∈ others, r.start < r.stop)
    (hshows : ∀ i, (∃ r ∈ ranges, r.Shows i) ↔ ∃ r ∈ others, r.Shows i) : ranges = others := by
  have hfirst : ∀ {r : Range} {rest : List Range}, r.start < r.stop →
      ∃ s ∈ r :: rest, s.Shows r.start :=
    fun hr => ⟨_, List.mem_cons_self, Nat.le_refl _, hr⟩
  induction ranges generalizing others with
  | nil =>
    cases others with
    | nil => rfl
    | cons s others =>
      obtain ⟨_, hmem, -⟩ := (hshows s.start).2 (hfirst (hnonempty' s List.mem_cons_self))
      cases hmem
  | cons r ranges ih =>
    obtain ⟨hr, htail⟩ := List.forall_mem_cons.1 hnonempty
    cases others with
    | nil =>
      obtain ⟨_, hmem, -⟩ := (hshows r.start).1 (hfirst hr)
      cases hmem
    | cons s others =>
      obtain ⟨hs, htail'⟩ := List.forall_mem_cons.1 hnonempty'
      have hstart : r.start = s.start := Nat.le_antisymm
        (start_le_of_shows h hr ((hshows _).2 (hfirst hs)))
        (start_le_of_shows h' hs ((hshows _).1 (hfirst hr)))
      have hstop : r.stop = s.stop := by
        refine Nat.le_antisymm (Nat.le_of_not_lt fun hlt => ?_) (Nat.le_of_not_lt fun hlt => ?_)
        · exact not_exists_shows_stop h' ((hshows _).1 ⟨r, List.mem_cons_self, by omega, hlt⟩)
        · exact not_exists_shows_stop h ((hshows _).2 ⟨s, List.mem_cons_self, by omega, hlt⟩)
      obtain rfl : r = s := by
        cases r
        cases s
        exact congr (congrArg Range.mk hstart) hstop
      refine congrArg (r :: ·) (ih h.of_cons htail h'.of_cons htail' fun i => ?_)
      rw [exists_shows_tail_iff h, exists_shows_tail_iff h', hshows]

/-! ## The ranges of a script -/

/-- Ranges that show the changes of a script: none is empty, between two of them there is a place that is
not shown, each change is in one of them, and a line that is kept is in one exactly if there is a change
at most three places from it. -/
structure ShowsChanges (script : List Change) (ranges : List Range) : Prop where
  nonempty : ∀ r ∈ ranges, r.start < r.stop ∧ r.stop ≤ script.length
  apart : ranges.Pairwise fun a b => a.stop < b.start
  changed : ∀ i c, script[i]? = some c → c.edit ≠ .keep → ranges.countP (·.Shows i) = 1
  kept : ∀ i c, script[i]? = some c → c.edit = .keep → ((∃ r ∈ ranges, r.Shows i) ↔
    ∃ j d, script[j]? = some d ∧ d.edit ≠ .keep ∧ i ≤ j + 3 ∧ j ≤ i + 3)

theorem ShowsChanges.exists_shows_iff (h : ShowsChanges script ranges) :
    (∃ r ∈ ranges, r.Shows i) ↔
      i < script.length ∧ ∃ j c, script[j]? = some c ∧ c.edit ≠ .keep ∧ i ≤ j + 3 ∧ j ≤ i + 3 := by
  by_cases hi : i < script.length
  · have hc : script[i]? = some script[i] := List.getElem?_eq_getElem hi
    by_cases hkeep : script[i].edit = .keep
    · rw [h.kept i _ hc hkeep]
      exact ⟨fun hnear => ⟨hi, hnear⟩, And.right⟩
    · have hshows := (countP_shows_eq_one_iff h.apart).1 (h.changed i _ hc hkeep)
      exact ⟨fun _ => ⟨hi, i, _, hc, hkeep, by omega, by omega⟩, fun _ => hshows⟩
  · refine ⟨?_, fun hnear => absurd hnear.1 hi⟩
    rintro ⟨r, hr, hshows⟩
    have hlength := (h.nonempty r hr).2
    have hstop := hshows.2
    omega

/-- The ranges of a script show its changes, and no other ranges do. -/
theorem showsChanges_hunkRanges (script : List Change) :
    ShowsChanges script (hunkRanges script) ∧
      ∀ ranges, ShowsChanges script ranges → ranges = hunkRanges script := by
  obtain ⟨hapart, -, hwithin, -⟩ := frames_hunkRanges script
  have hshows : ShowsChanges script (hunkRanges script) := by
    refine ⟨hwithin, hapart, fun i c hc hkeep => ?_, fun i c hc hkeep => ?_⟩
    · obtain ⟨hi, -⟩ := List.getElem?_eq_some_iff.1 hc
      rw [countP_shows_eq_one_iff hapart, exists_shows_hunkRanges_iff]
      exact ⟨hi, i, c, hc, hkeep, by omega, by omega⟩
    · obtain ⟨hi, -⟩ := List.getElem?_eq_some_iff.1 hc
      rw [exists_shows_hunkRanges_iff]
      exact ⟨And.right, fun hnear => ⟨hi, hnear⟩⟩
  refine ⟨hshows, fun ranges h => ?_⟩
  refine eq_of_shows_iff h.apart (fun r hr => (h.nonempty r hr).1) hapart
    (fun r hr => (hwithin r hr).1) fun i => ?_
  rw [h.exists_shows_iff, hshows.exists_shows_iff]

/-- Two changes with six lines between them are in one range, with seven lines in two. -/
example :
    let change : Change := ⟨.insert, "new"⟩
    let lines := fun n => List.replicate n (⟨.keep, "old"⟩ : Change)
    hunkRanges (change :: lines 6 ++ [change]) = [⟨0, 8⟩] ∧
      hunkRanges (change :: lines 7 ++ [change]) = [⟨0, 4⟩, ⟨5, 9⟩] := by
  decide

end CapabilityFlow.Text
