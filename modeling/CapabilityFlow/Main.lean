import CapabilityFlow.CommandLine.Run

/-!
# The program

Reads its arguments, runs the command that they name on the files of the system, and prints what
the command printed.
-/

namespace CapabilityFlow.CommandLine

def versionText : String := "capcheck 0.1.3"

def usageText : String :=
  unlines [
    "Validate capability workflows against an ontology",
    "",
    "Usage:",
    "  capcheck validate --ontology FILE [options] CATALOG...",
    "  capcheck ontology --ontology FILE [-f text|json|yaml]",
    "  capcheck explain CODE",
    "",
    "Options of validate:",
    "  --coercions FILE    coercion registry",
    "  -w NAME             check only the named workflow",
    "  --emit-patch FILE   write the patches to a file",
    "  -f FORMAT           text, json or yaml",
    "  -c FILE             settings",
    "  --strict            report mutations without a checkpoint as errors",
    "",
    "Options of every command:",
    "  -v                  tell more",
    "  -h                  tell this"]

/-- What is printed where arguments name no command. -/
def Refusal.output : Refusal → Output
  | usage => { stderr := usageText, exit := failedExit }
  | help => { stdout := usageText }
  | version => { stdout := unlines [versionText] }

/-- The variable that names the settings file where no argument does. -/
def settingsVariable : String := "CAPCHECK_CONFIG"

def FileFault.ofError : IO.Error → FileFault
  | .noFileOrDirectory .. => .notFound
  | e => .other (toString e)

/-- Access to the files of the system. -/
def systemAccess : FileAccess IO where
  read path := do
    try
      return .ok (← IO.FS.readFile path)
    catch e => return .error (.ofError e)
  write path contents := do
    try
      IO.FS.writeFile path contents
      return .ok ()
    catch e => return .error (.ofError e)

end CapabilityFlow.CommandLine

open CapabilityFlow.CommandLine

def main (args : List String) : IO UInt32 := do
  let settings ← IO.getEnv settingsVariable
  let output ← match Request.ofArguments settings {} args with
    | .ok request => request.run systemAccess
    | .error refusal => pure refusal.output
  IO.print output.stdout
  IO.eprint output.stderr
  return output.exit.toUInt32
