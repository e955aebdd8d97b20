import CapabilityFlow.Finding
import CapabilityFlow.Patch.Basic
import CapabilityFlow.Value.Json
import CapabilityFlow.Yaml.Writer

/-!
# Reports

What a check found in workflows: findings in their order, workflows by name. A report says nothing
of when or how it was made, so equal findings give equal texts.
-/

namespace CapabilityFlow

/-- The outcome for a workflow, better ones first. -/
inductive Verdict where
  | pass
  | passWithWarnings
  | fail
deriving DecidableEq, Repr, Inhabited

namespace Verdict

def text : Verdict → String
  | pass => "pass"
  | passWithWarnings => "pass_with_warnings"
  | fail => "fail"

/-- The verdict on a workflow with the given findings. -/
def ofFindings (fs : List Finding) : Verdict :=
  if fs.any (·.isError) then fail else if fs.isEmpty then pass else passWithWarnings

/-- The worse of two verdicts. -/
def worse : Verdict → Verdict → Verdict
  | fail, _ | _, fail => fail
  | passWithWarnings, _ | _, passWithWarnings => passWithWarnings
  | pass, pass => pass

end Verdict

/-- The findings about one workflow, and the patches for them. -/
structure WorkflowReport where
  workflow : String
  findings : List Finding
  patches : List Patch
deriving Repr, DecidableEq

namespace WorkflowReport

/-- The report of findings in any order. -/
def ofFindings (workflow : String) (findings : List Finding) (patches : List Patch) :
    WorkflowReport :=
  ⟨workflow, Finding.sort findings, patches⟩

def verdict (r : WorkflowReport) : Verdict :=
  Verdict.ofFindings r.findings

def errors (r : WorkflowReport) : Nat :=
  r.findings.countP (·.isError)

def warnings (r : WorkflowReport) : Nat :=
  r.findings.countP (!·.isError)

/-- The findings of a level. -/
def atLevel (r : WorkflowReport) (l : Level) : List Finding :=
  r.findings.filter (·.level = l)

end WorkflowReport

/-- Counts over a report. -/
structure Summary where
  workflows : Nat
  passed : Nat
  failed : Nat
  errors : Nat
  warnings : Nat
  patches : Nat
deriving Repr, DecidableEq

/-- The reports on several workflows. -/
structure CatalogReport where
  workflows : List WorkflowReport
deriving Repr, DecidableEq

namespace CatalogReport

/-- The reports by name; those of one name keep their order. -/
def ofReports (rs : List WorkflowReport) : CatalogReport :=
  ⟨rs.mergeSort fun a b => a.workflow ≤ b.workflow⟩

def hasErrors (r : CatalogReport) : Bool :=
  r.workflows.any (·.verdict = .fail)

/-- The worst verdict on a workflow. -/
def verdict (r : CatalogReport) : Verdict :=
  (r.workflows.map WorkflowReport.verdict).foldl Verdict.worse .pass

def patches (r : CatalogReport) : List Patch :=
  r.workflows.flatMap (·.patches)

def summary (r : CatalogReport) : Summary where
  workflows := r.workflows.length
  passed := r.workflows.countP (·.verdict ≠ .fail)
  failed := r.workflows.countP (·.verdict = .fail)
  errors := (r.workflows.map WorkflowReport.errors).foldl (· + ·) 0
  warnings := (r.workflows.map WorkflowReport.warnings).foldl (· + ·) 0
  patches := r.patches.length

end CatalogReport

/-! ## Texts -/

def Location.toValue (l : Location) : Value :=
  .obj ([("workflow", .str l.workflow)] ++ Table.optionalText "step" l.step ++
    Table.optionalMember "step_index" (l.index.map fun i => .int i) ++
    Table.optionalText "field" l.field)

def TypePair.toValue (t : TypePair) : Value :=
  .obj [("found", .str t.found), ("expected", .str t.expected)]

def Finding.toValue (f : Finding) : Value :=
  .obj [("error", .obj (
    [("code", .str f.code.text), ("name", .str f.code.name), ("level", .str f.level.text),
      ("severity", .str f.severity.text), ("message", .str f.message),
      ("location", f.location.toValue), ("suggestion", .str f.suggestionText)] ++
    Table.optionalMember "types" (f.types.map TypePair.toValue)))]

def WorkflowReport.toValue (r : WorkflowReport) : Value :=
  .obj ([("workflow", .str r.workflow), ("verdict", .str r.verdict.text),
      ("findings", .arr (r.findings.map Finding.toValue))] ++
    Table.nonEmptyMember "patches" r.patches (.arr (r.patches.map Patch.toValue)))

def Summary.toValue (s : Summary) : Value :=
  .obj [("workflows", .int s.workflows), ("passed", .int s.passed), ("failed", .int s.failed),
    ("errors", .int s.errors), ("warnings", .int s.warnings), ("patches", .int s.patches)]

namespace CatalogReport

def toValue (r : CatalogReport) : Value :=
  .obj [("verdict", .str r.verdict.text), ("summary", r.summary.toValue),
    ("workflows", .arr (r.workflows.map WorkflowReport.toValue))]

def toJson (r : CatalogReport) : String :=
  r.toValue.toPrettyJson

def toYaml (r : CatalogReport) : String :=
  r.toValue.toYaml

/-- The differences that the patches make, each below a line that says what it repairs. -/
def patchFile (r : CatalogReport) : String :=
  String.join (r.patches.map fun p =>
    s!"# {p.workflow}/{p.step}/{p.field}: {p.found} -> {p.expected} via {p.capability}\n" ++ p.diff)

end CatalogReport

end CapabilityFlow
