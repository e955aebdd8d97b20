import Mathlib.Data.List.Perm.Basic
import Mathlib.Data.List.Sort
import CapabilityFlow.Check.Parallel

/-!
# Checking side by side changes nothing

A turn moves a task from one list to the next and, when the task finishes, replaces its workflow by
the report on it. So the reports to come, `Tasks.outcome`, are always those of the catalog with
their places, in some order. Once every task has finished they are all there, and the places put
them back in the order of the catalog, whatever the order was in which they arrived.
-/

namespace CapabilityFlow

namespace Tasks

/-! ## Turns -/

/-- The reports with their places: those that are there, then those to come. -/
def outcome (c : Checker) (t : Tasks) : List (WorkflowReport × Nat) :=
  t.finished ++ (t.running ++ t.waiting).map (Prod.map c.check id)

theorem outcome_ofEntries (c : Checker) (es : List CatalogEntry) :
    (ofEntries es).outcome c = (es.map c.check).zipIdx := by
  simp [outcome, ofEntries, List.zipIdx_map]

/-- A turn loses no report, adds none and changes no place. -/
theorem outcome_after (c : Checker) (t : Tasks) (turn : Turn) :
    ((t.after c turn).outcome c).Perm (t.outcome c) := by
  cases turn with
  | start =>
    simp only [after]
    split
    · exact .refl _
    · rename_i task rest h
      simp [outcome, h]
  | finish k =>
    simp only [after]
    split
    · exact .refl _
    · rename_i e place h
      obtain ⟨hk, h⟩ := List.getElem?_eq_some_iff.mp h
      have hcons : ((e, place) :: t.running.eraseIdx k).Perm t.running :=
        h ▸ List.getElem_cons_eraseIdx_perm hk
      simpa [outcome] using ((hcons.append_right t.waiting).map (Prod.map c.check id)).append_left
        t.finished

/-! ## Runs -/

variable {c : Checker} {next : Tasks → Nat} {t : Tasks}

/-- As long as a task has not finished, something can happen. -/
theorem turn?_eq_none_iff {choice : Nat} :
    t.turn? choice = none ↔ t.waiting = [] ∧ t.running = [] := by
  have hturns : t.turns = [] ↔ t.waiting = [] ∧ t.running = [] := by
    cases h : t.waiting <;> simp [turns, h]
  rw [← hturns, turn?, List.getElem?_eq_none_iff]
  constructor
  · intro h
    by_contra hne
    exact absurd (Nat.mod_lt choice (List.length_pos_iff.mpr hne)) (by omega)
  · intro h
    simp [h]

theorem await_of_turn?_eq_none (h : t.turn? (next t) = none) : t.await c next = t := by
  rw [await]
  split
  · rfl
  · simp_all

theorem await_of_turn?_eq_some {turn : Turn} (h : t.turn? (next t) = some turn) :
    t.await c next = (t.after c turn).await c next := by
  rw [await]
  split
  · simp_all
  · obtain rfl : turn = _ := Option.some.inj (h.symm.trans ‹_›)
    rfl

/-- The tasks run until all of them have finished, and then all reports are there. -/
theorem finished_await_perm (c : Checker) (next : Tasks → Nat) (t : Tasks) :
    (t.await c next).finished.Perm (t.outcome c) := by
  induction t using await.induct c next with
  | case1 t h =>
    obtain ⟨hw, hr⟩ := turn?_eq_none_iff.mp h
    simp [await_of_turn?_eq_none h, outcome, hw, hr]
  | case2 t turn h _ ih =>
    rw [await_of_turn?_eq_some h]
    exact ih.trans (outcome_after c t turn)

/-- The places of a list grow. -/
theorem pairwise_zipIdx {α : Type} (l : List α) : l.zipIdx.Pairwise fun a b => a.2 ≤ b.2 := by
  have h : (l.zipIdx.map (·.2)).Pairwise (· < ·) := by
    rw [List.zipIdx_map_snd]
    exact List.pairwise_lt_range'
  exact (List.pairwise_map.mp h).imp Nat.le_of_lt

/-- Places put reports back in order. -/
theorem reports_eq_of_perm {rs : List WorkflowReport} (h : t.finished.Perm rs.zipIdx) :
    t.reports = rs := by
  have hperm : (t.finished.mergeSort fun a b => a.2 ≤ b.2).Perm rs.zipIdx :=
    (List.mergeSort_perm _ _).trans h
  have hsorted : (t.finished.mergeSort fun a b => a.2 ≤ b.2).Pairwise fun a b => a.2 ≤ b.2 :=
    (List.pairwise_mergeSort (by simp; omega) (by simp; omega) _).imp of_decide_eq_true
  -- Two reports of one place are one report.
  have hplace : ∀ a b, a ∈ (t.finished.mergeSort fun a b => a.2 ≤ b.2) → b ∈ rs.zipIdx →
      a.2 ≤ b.2 → b.2 ≤ a.2 → a = b := by
    rintro ⟨a, i⟩ ⟨b, j⟩ ha hb hij hji
    obtain rfl : i = j := Nat.le_antisymm hij hji
    have ha := List.mk_mem_zipIdx_iff_getElem?.mp (hperm.mem_iff.mp ha)
    have hb := List.mk_mem_zipIdx_iff_getElem?.mp hb
    rw [Option.some.inj (ha.symm.trans hb)]
  rw [reports, hperm.eq_of_pairwise hplace hsorted (pairwise_zipIdx rs),
    List.zipIdx_map_fst]

/-! ## Orders of finishing -/

/-- The choices by which all tasks are started first, and then finish in a given order of their
places. -/
def following (order : List Nat) (t : Tasks) : Nat :=
  if t.waiting = [] then (t.running.map (·.2)).idxOf (order.getD t.finished.length 0) else 0

/-- Running tasks can finish in any order. -/
theorem await_following_of_running (c : Checker) {done rest : List Nat} (hw : t.waiting = [])
    (hdone : t.finished.map (·.2) = done) (hrest : rest.Perm (t.running.map (·.2))) :
    (t.await c (following (done ++ rest))).finished.map (·.2) = done ++ rest := by
  induction rest generalizing t done with
  | nil =>
    have hr : t.running = [] := by simpa using hrest.symm.eq_nil
    rw [await_of_turn?_eq_none (turn?_eq_none_iff.mpr ⟨hw, hr⟩)]
    simpa using hdone
  | cons place rest ih =>
    set k := (t.running.map (·.2)).idxOf place with hk
    have hmem : place ∈ t.running.map (·.2) := hrest.subset (List.mem_cons_self ..)
    have hlt : k < t.running.length := by simpa using List.idxOf_lt_length_of_mem hmem
    have hplace : t.running[k].2 = place := by
      have hget := List.getElem_idxOf (List.idxOf_lt_length_of_mem hmem)
      rwa [List.getElem_map] at hget
    have hturn : t.turn? (following (done ++ place :: rest) t) = some (.finish k) := by
      have hnext : following (done ++ place :: rest) t = k := by
        simp [following, hw, hk, ← hdone]
      simp [hnext, turn?, turns, hw, Nat.mod_eq_of_lt hlt, hlt]
    rw [await_of_turn?_eq_some hturn, ← List.singleton_append, ← List.append_assoc]
    apply ih
    · simp [after, hlt, hw]
    · simp [after, hlt, hdone, hplace]
    · have herase : (place :: (t.running.eraseIdx k).map (·.2)).Perm (t.running.map (·.2)) := by
        rw [← hplace, ← List.map_cons]
        exact (List.getElem_cons_eraseIdx_perm hlt).map _
      simpa [after, hlt] using (hrest.trans herase.symm).cons_inv

/-- Tasks can finish in any order: the choices that `await` leaves open are all orders there are. -/
theorem await_following (c : Checker) {order : List Nat} (hf : t.finished = [])
    (h : order.Perm ((t.running ++ t.waiting).map (·.2))) :
    (t.await c (following order)).finished.map (·.2) = order := by
  obtain ⟨waiting, running, finished⟩ := t
  induction waiting generalizing running with
  | nil =>
    obtain rfl := hf
    exact await_following_of_running (t := ⟨[], running, []⟩) c rfl rfl (by simpa using h)
  | cons task rest ih =>
    have hturn : Tasks.turn? ⟨task :: rest, running, finished⟩
        (following order ⟨task :: rest, running, finished⟩) = some .start := by
      simp [following, turn?, turns]
    rw [await_of_turn?_eq_some hturn]
    exact ih (running ++ [task]) hf (by simpa using h)

end Tasks

namespace CatalogReport

/-! ## Reports by name -/

theorem trans_workflow_le (a b c : WorkflowReport) (hab : decide (a.workflow ≤ b.workflow) = true)
    (hbc : decide (b.workflow ≤ c.workflow) = true) : decide (a.workflow ≤ c.workflow) = true :=
  decide_eq_true (String.le_trans (of_decide_eq_true hab) (of_decide_eq_true hbc))

theorem total_workflow_le (a b : WorkflowReport) :
    (decide (a.workflow ≤ b.workflow) || decide (b.workflow ≤ a.workflow)) = true := by
  simpa using String.le_total a.workflow b.workflow

theorem pairwise_ofReports (rs : List WorkflowReport) :
    (ofReports rs).workflows.Pairwise fun a b => a.workflow ≤ b.workflow :=
  (List.pairwise_mergeSort trans_workflow_le total_workflow_le rs).imp of_decide_eq_true

theorem perm_ofReports (rs : List WorkflowReport) : (ofReports rs).workflows.Perm rs :=
  List.mergeSort_perm _ _

/-- Sorting by name keeps the order of the reports of one name. -/
theorem filter_ofReports (rs : List WorkflowReport) (name : String) :
    (ofReports rs).workflows.filter (·.workflow = name) = rs.filter (·.workflow = name) := by
  have hname : (rs.filter (·.workflow = name)).Pairwise
      fun a b => decide (a.workflow ≤ b.workflow) = true := by
    refine List.pairwise_of_forall_mem_list fun a ha b hb => ?_
    have ha := of_decide_eq_true (List.mem_filter.mp ha).2
    have hb := of_decide_eq_true (List.mem_filter.mp hb).2
    exact decide_eq_true (ha ▸ hb ▸ String.le_refl _)
  have hsub : (rs.filter (·.workflow = name)).Sublist (ofReports rs).workflows :=
    List.sublist_mergeSort trans_workflow_le total_workflow_le hname List.filter_sublist
  -- Both hold equally many reports of the name, so that nothing else of the name is in between.
  have hlen := ((perm_ofReports rs).filter (·.workflow = name)).length_eq
  have hsub := hsub.filter (·.workflow = name)
  simp only [List.filter_filter, Bool.and_self] at hsub
  exact (hsub.eq_of_length hlen.symm).symm

end CatalogReport

theorem Checker.workflow_check (c : Checker) (e : CatalogEntry) : (c.check e).workflow = e.name := by
  simp only [check]
  split
  · split <;> rfl
  · rfl

/-- Checking in tasks that finish in any order gives the report of checking one workflow after
another: the reports by name, and those of one name in the order of the catalog. -/
theorem Checker.checkParallel_eq_checkAll (c : Checker) (next : Tasks → Nat)
    (es : List CatalogEntry) :
    c.checkParallel next es = c.checkAll es ∧
      ((c.checkAll es).workflows.Pairwise fun a b => a.workflow ≤ b.workflow) ∧
      ∀ name, (c.checkAll es).workflows.filter (·.workflow = name) =
        (es.filter (·.name = name)).map c.check := by
  refine ⟨?_, CatalogReport.pairwise_ofReports _, fun name => ?_⟩
  · have h := Tasks.finished_await_perm c next (.ofEntries es)
    rw [Tasks.outcome_ofEntries] at h
    rw [checkParallel, Tasks.reports_eq_of_perm h, checkAll]
  · rw [checkAll, CatalogReport.filter_ofReports, List.filter_map]
    congr 1
    exact List.filter_congr fun e _ => by simp [workflow_check]

end CapabilityFlow
