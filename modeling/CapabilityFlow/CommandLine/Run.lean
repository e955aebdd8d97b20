import CapabilityFlow.Check.Parallel
import CapabilityFlow.CommandLine.Arguments
import CapabilityFlow.CommandLine.Files

/-!
# Commands

What the commands do with files, and what they print. A command that cannot do its work prints what
went wrong, from the whole to the cause, and exits with 2; a validation that finds an error exits
with 1.
-/

namespace CapabilityFlow.CommandLine

/-! ## Output -/

/-- What a command printed, and the code with which it ended. -/
structure Output where
  stdout : String := ""
  stderr : String := ""
  exit : Nat := 0
deriving DecidableEq, Repr

/-- Lines, each with its end. -/
def unlines (ls : List String) : String :=
  String.join (ls.map (· ++ "\n"))

def successLine (message : String) : String := s!"✓ {message}"
def errorLine (message : String) : String := s!"✗ {message}"
def noteLine (message : String) : String := s!"ℹ {message}"

/-- The exit code of a command that cannot do its work. -/
def failedExit : Nat := 2

/-- Messages from the whole to the cause. -/
abbrev Failure := List String

def Failure.text (f : Failure) : String :=
  ": ".intercalate f

/-- The output of a command that failed after it had printed something. -/
def Output.failed (o : Output) (f : Failure) : Output :=
  { o with stderr := o.stderr ++ unlines [errorLine f.text], exit := failedExit }

/-! ## Reports -/

def findingLines (verbose : Bool) (f : Finding) : List String :=
  let types := match f.types with
    | some t => if verbose then [s!"    found: {t.found}  expected: {t.expected}"] else []
    | none => []
  [s!"  {f.severity.text} {f.code.text} {f.code.name} at {f.location.text}", s!"    {f.message}"] ++
    types ++ [s!"    suggestion: {f.suggestionText}"]

def patchLines (p : Patch) : List String :=
  s!"  patch for {p.step}/{p.field}" :: (Text.lines p.diff).map fun l => s!"    {l}"

def reportLines (verbose : Bool) (r : WorkflowReport) : List String :=
  s!"{r.workflow} {r.verdict.text}" :: r.findings.flatMap (findingLines verbose) ++
    (if verbose then r.patches.flatMap patchLines else [])

def Summary.line (s : Summary) : String :=
  s!"{s.workflows} workflow(s): {s.passed} passed, {s.failed} failed; " ++
    s!"{s.errors} error(s), {s.warnings} warning(s), {s.patches} patch(es)"

/-- A report in words, or as a document. -/
def showReport (format : Format) (verbose : Bool) (r : CatalogReport) : Output :=
  let exit := if r.hasErrors then 1 else 0
  match format with
  | .json => { stdout := unlines [r.toJson], exit }
  | .yaml => { stdout := r.toYaml, exit }
  | .text =>
    let shown := r.workflows.flatMap (reportLines verbose)
    if r.hasErrors then
      { stdout := unlines shown, stderr := unlines [errorLine (Summary.line r.summary)], exit }
    else { stdout := unlines (shown ++ [successLine (Summary.line r.summary)]), exit }

/-! ## Loading -/

section Loading

variable {m : Type → Type} [Monad m]

/-- What loads files, and may fail. -/
abbrev Loading (m : Type → Type) (α : Type) := ExceptT Failure m α

/-- The text of a file. -/
def readText (fs : FileAccess m) (context path : String) : Loading m String := do
  match ← fs.read path with
  | .ok text => pure text
  | .error fault => throw [context, s!"Failed to read {path}: {fault.text}", fault.text]

/-- An error with the context in which it arose, and the error behind it. -/
def inContext (context message : String) (cause : Option String) : Failure :=
  [context, message] ++ cause.toList

def loadSettings (fs : FileAccess m) (path : Option String) : Loading m Settings :=
  match path with
  | none => pure {}
  | some path => do
    let context := s!"Failed to load configuration {path}"
    match Settings.ofText? (← readText fs context path) with
    | some s => pure s
    | none => throw [context, "Invalid configuration:"]

def loadOntology (fs : FileAccess m) (path : String) (maxDepth : Nat) : Loading m Ontology := do
  let context := s!"Failed to load ontology {path}"
  match Ontology.ofText (← readText fs context path) maxDepth [] with
  | .ok o => pure o
  | .error e => throw (inContext context e.message e.cause?)

/-- A registry that fits the ontology. -/
def loadRegistry (fs : FileAccess m) (path : String) (o : Ontology) :
    Loading m CoercionRegistry := do
  let context := s!"Failed to load coercion registry {path}"
  match CoercionRegistry.ofText (← readText fs context path) with
  | .error e => throw (inContext context e.message e.cause?)
  | .ok r =>
    match r.validate o with
    | .error e => throw (inContext s!"Coercion registry {path} is invalid" e.message e.cause?)
    | .ok _ => pure r

/-- The workflows of a catalog. One without a name takes that of the file. -/
def loadCatalog (fs : FileAccess m) (cap : Nat) (path : String) :
    Loading m (List CatalogEntry) := do
  let context := s!"Failed to load workflow catalog {path}"
  let text ← readText fs context path
  match Catalog.ofText cap text ((fileStem? path).getD "workflow") with
  | .ok entries => pure entries
  | .error e => throw (inContext context e.message none)

/-- The workflows to check. -/
def loadCatalogs (fs : FileAccess m) (cap : Nat) (v : Validation) :
    Loading m (List CatalogEntry) := do
  let entries := (← v.catalogs.mapM (loadCatalog fs cap)).flatten
  match v.workflow with
  | none => pure entries
  | some name =>
    match entries.filter (·.name = name) with
    | [] => throw [s!"No workflow named '{name}' in the given catalogs"]
    | chosen => pure chosen

/-- The report of a validation. Every task starts before the first one finishes, and they finish in
the order of the catalog; another order gives the same report. -/
def validationReport (fs : FileAccess m) (v : Validation) : Loading m CatalogReport := do
  let settings ← loadSettings fs v.config
  let settings := if v.strict then { settings with strictCheckpoints := true } else settings
  let ontology ← loadOntology fs v.ontology settings.maxReferenceDepth
  let registry ← v.coercions.mapM fun path => loadRegistry fs path ontology
  let entries ← loadCatalogs fs settings.maxLoops v
  pure (Checker.checkParallel { ontology, settings, registry } (fun _ => 0) entries)

end Loading

/-! ## Commands -/

section Commands

variable {m : Type → Type} [Monad m]

/-- Writes the patches of a report, after it is shown. -/
def emitPatches (fs : FileAccess m) (format : Format) (r : CatalogReport) (path : String)
    (shown : Output) : m Output := do
  match ← fs.write path r.patchFile with
  | .error fault => pure (shown.failed [s!"Failed to write patch file {path}", fault.text])
  | .ok _ =>
    if format = .text then
      let note := noteLine s!"Wrote {r.patches.length} patch(es) to {path}"
      pure { shown with stdout := shown.stdout ++ unlines [note] }
    else pure shown

def validate (fs : FileAccess m) (v : Validation) (verbose : Bool) : m Output := do
  match ← (validationReport fs v).run with
  | .error f => pure (Output.failed {} f)
  | .ok r =>
    let shown := showReport v.format verbose r
    match v.patchFile with
    | none => pure shown
    | some path => emitPatches fs v.format r path shown

/-- A name, filled up to a width, and a count. -/
def countLine (width : Nat) (name : String) (count : Nat) : String :=
  let blanks := String.ofList (List.replicate (width - name.length) ' ')
  s!"  {name}{blanks} {count}"

/-- The counts of an ontology as a document. -/
def ontologyValue (o : Ontology) : Value :=
  .obj [("version", .str o.version.text), ("capabilities", .int o.size),
    ("layers", .obj (o.layerCounts.map fun p => (p.1.name, .int p.2))),
    ("edges", .obj (o.edgeCounts.map fun p => (p.1.name, .int p.2)))]

/-- The counts of an ontology in words. -/
def ontologyLines (o : Ontology) : List String :=
  let layer := fun (l : Layer) => countLine 12 l.name ((o.layerCounts.lookup l).getD 0)
  let edge := fun (k : EdgeKind) => countLine 15 k.name ((o.edgeCounts.lookup k).getD 0)
  [successLine s!"Ontology {o.version.text} is valid: {o.size} capabilities", "Layers"] ++
    Layer.all.map layer ++ ["Edges"] ++ EdgeKind.all.map edge

def showOntology (format : Format) (o : Ontology) : Output :=
  match format with
  | .text => { stdout := unlines (ontologyLines o) }
  | .json => { stdout := unlines [(ontologyValue o).toPrettyJson] }
  | .yaml => { stdout := (ontologyValue o).toYaml }

def summarize (fs : FileAccess m) (path : String) (format : Format) : m Output := do
  match ← (loadOntology fs path Library.defaultMaxDepth).run with
  | .ok o => pure (showOntology format o)
  | .error f => pure (Output.failed {} f)

/-- What a code of findings means. -/
def explain (code : String) : Output :=
  match Code.ofText? code with
  | none => Output.failed {} [s!"Unknown finding code '{code}'"]
  | some c =>
    let remark := if c = .typeMismatch then
        ["  A registered coercion yields a patch; otherwise the suggestion reads",
          "  \"" ++ Finding.noSuggestion ++ "\""]
      else []
    { stdout := unlines (
        [s!"{c.text} {c.name}", s!"  level:    {c.level.text} ({c.level.title})",
          s!"  severity: {c.defaultSeverity.text}", s!"  {c.description}"] ++ remark) }

/-- Runs a command. -/
def Request.run (r : Request) (fs : FileAccess m) : m Output :=
  match r.command with
  | .validate v => validate fs v r.verbose
  | .ontology path format => summarize fs path format
  | .explain code => pure (explain code)

end Commands

end CapabilityFlow.CommandLine
