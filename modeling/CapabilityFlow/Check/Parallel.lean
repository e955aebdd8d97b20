import CapabilityFlow.Check.Levels

/-!
# Checking side by side

The workflows of a catalog can be checked by tasks that run at the same time. Every task knows the
place of its workflow in the catalog; the reports arrive in the order in which the tasks finish, and
are put back by their places.
-/

namespace CapabilityFlow

/-- The tasks of a catalog, each with its place: those not started yet, those that run, and the
reports of those that finished, in the order in which they did. -/
structure Tasks where
  waiting : List (CatalogEntry × Nat)
  running : List (CatalogEntry × Nat) := []
  finished : List (WorkflowReport × Nat) := []

/-- What can happen to tasks: the next one is started, or a running one finishes. -/
inductive Turn where
  | start
  | finish (task : Nat)
deriving DecidableEq, Repr

namespace Tasks

/-- One task for every workflow, none of them started. -/
def ofEntries (es : List CatalogEntry) : Tasks where
  waiting := es.zipIdx

/-- All that can happen next. Any running task may be the next to finish, also before the last one
is started. -/
def turns (t : Tasks) : List Turn :=
  (if t.waiting.isEmpty then [] else [.start]) ++ (List.range t.running.length).map .finish

/-- The tasks after a turn. A task reads nothing but its own workflow and what all of them share and
none of them changes, so it is checked in one piece. -/
def after (c : Checker) (t : Tasks) : Turn → Tasks
  | .start =>
    match t.waiting with
    | [] => t
    | task :: rest => { t with waiting := rest, running := t.running ++ [task] }
  | .finish k =>
    match t.running[k]? with
    | none => t
    | some (e, place) =>
      { t with running := t.running.eraseIdx k, finished := t.finished ++ [(c.check e, place)] }

/-- The number of turns to come. -/
def remaining (t : Tasks) : Nat :=
  2 * t.waiting.length + t.running.length

/-- Every turn that can happen is one turn less to come. -/
theorem remaining_after (c : Checker) {t : Tasks} {turn : Turn} (h : turn ∈ t.turns) :
    (t.after c turn).remaining + 1 = t.remaining := by
  obtain ⟨waiting, running, finished⟩ := t
  cases turn with
  | start =>
    cases waiting with
    | nil => simp [turns] at h
    | cons task rest =>
      simp only [after, remaining, List.length_append, List.length_cons, List.length_nil]
      omega
  | finish k =>
    have hk : k < running.length := by
      cases waiting <;> simpa [turns] using h
    simp only [after, remaining, List.getElem?_eq_getElem hk, List.length_eraseIdx_of_lt hk]
    omega

/-- One of the turns that can come next, if any can. -/
def turn? (t : Tasks) (choice : Nat) : Option Turn :=
  t.turns[choice % t.turns.length]?

/-- Lets the tasks run until all have finished. What happens next is chosen by `next`, from all that
happened so far. -/
def await (c : Checker) (next : Tasks → Nat) (t : Tasks) : Tasks :=
  match h : t.turn? (next t) with
  | none => t
  | some turn =>
    have := remaining_after c (List.mem_of_getElem? h)
    (t.after c turn).await c next
termination_by t.remaining

/-- The reports of the tasks that finished, by the places of their workflows. -/
def reports (t : Tasks) : List WorkflowReport :=
  (t.finished.mergeSort fun a b => a.2 ≤ b.2).map (·.1)

end Tasks

/-- Checks every workflow of a catalog in a task of its own. -/
def Checker.checkParallel (c : Checker) (next : Tasks → Nat) (es : List CatalogEntry) :
    CatalogReport :=
  .ofReports ((Tasks.ofEntries es).await c next).reports

end CapabilityFlow
