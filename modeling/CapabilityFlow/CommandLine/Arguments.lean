import CapabilityFlow.Table

/-!
# Arguments

What the program is asked to do. `Command.ofArguments` reads the arguments from left to right:
options by their long or short names, with values attached or as the next argument, and what is no
option as a path. After a lone `--` nothing is an option.
-/

namespace CapabilityFlow.CommandLine

/-! ## Options -/

inductive Opt where
  | verbose
  | help
  | version
  | ontology
  | coercions
  | workflow
  | emitPatch
  | format
  | config
  | strict
deriving DecidableEq, Repr

namespace Opt

def long : Opt → String
  | verbose => "verbose"
  | help => "help"
  | version => "version"
  | ontology => "ontology"
  | coercions => "coercions"
  | workflow => "workflow"
  | emitPatch => "emit-patch"
  | format => "format"
  | config => "config"
  | strict => "strict"

def short? : Opt → Option Char
  | verbose => some 'v'
  | help => some 'h'
  | version => some 'V'
  | workflow => some 'w'
  | format => some 'f'
  | config => some 'c'
  | ontology | coercions | emitPatch | strict => none

def takesValue : Opt → Bool
  | verbose | help | version | strict => false
  | ontology | coercions | workflow | emitPatch | format | config => true

/-- Whether the value is a path, which cannot be empty. -/
def takesPath : Opt → Bool
  | ontology | coercions | emitPatch | config => true
  | verbose | help | version | workflow | format | strict => false

/-- How a report is written. -/
inductive Format where
  | text
  | json
  | yaml
deriving DecidableEq, Repr

def Format.ofName? : String → Option Format
  | "text" => some .text
  | "json" => some .json
  | "yaml" => some .yaml
  | _ => none

/-- Whether an option takes a value. -/
def admits (o : Opt) (value : String) : Bool :=
  if o = format then (Format.ofName? value).isSome
  else if o.takesPath then !value.isEmpty
  else true

end Opt

export Opt (Format)

/-- Why arguments name no command. -/
inductive Refusal where
  /-- The arguments cannot be understood. -/
  | usage
  /-- They ask how the program is used. -/
  | help
  /-- They ask for its version. -/
  | version
deriving DecidableEq, Repr

/-- What a part of the program takes. -/
structure Grammar where
  options : List Opt
  /-- The greatest number of arguments that are no options, if there is one. -/
  limit : Option Nat
  /-- Whether those are paths. -/
  paths : Bool

/-- What is given. -/
structure Given where
  flags : List Opt := []
  values : List (Opt × String) := []
  others : List String := []
deriving Repr

namespace Given

def has (g : Given) (o : Opt) : Bool :=
  g.flags.contains o

def value? (g : Given) (o : Opt) : Option String :=
  g.values.lookup o

/-- Sets a flag; none is set twice. -/
def addFlag (g : Given) (o : Opt) : Except Refusal Given :=
  if o = .help then .error .help
  else if o = .version then .error .version
  else if g.has o then .error .usage
  else .ok { g with flags := g.flags ++ [o] }

/-- Sets an option to a value that it takes; none is set twice. -/
def addValue (g : Given) (o : Opt) (value : String) : Except Refusal Given :=
  if (g.value? o).isSome || !o.admits value then .error .usage
  else .ok { g with values := g.values ++ [(o, value)] }

/-- Adds an argument that is no option. -/
def addOther (g : Given) (s : Grammar) (argument : String) : Except Refusal Given :=
  let room := match s.limit with
    | some n => g.others.length < n
    | none => true
  if room && !(s.paths && argument.isEmpty) then .ok { g with others := g.others ++ [argument] }
  else .error .usage

end Given

/-! ## Reading -/

/-- How an argument reads. -/
inductive Argument where
  | terminator
  | long (name : String) (value : Option String)
  | short (names : List Char)
  | other

/-- How an argument reads by its first characters. -/
def Argument.ofText (a : String) : Argument :=
  match a.toList with
  | ['-', '-'] => .terminator
  | '-' :: '-' :: r =>
    let name := r.takeWhile (· != '=')
    let value := match r.dropWhile (· != '=') with
      | [] => none
      | _ :: v => some (String.ofList v)
    .long (String.ofList name) value
  | '-' :: c :: r => .short (c :: r)
  | _ => .other

/-- Whether an argument can be the value of the option before it. -/
def isValue (a : String) : Bool :=
  match Argument.ofText a with
  | .other => true
  | _ => false

/-- Reads short options that are written together. The rest after one that takes a value is that
value; where nothing is left, the value is the next argument, and the option is returned. -/
def readShort (s : Grammar) (g : Given) : List Char → Except Refusal (Given × Option Opt)
  | [] => .ok (g, none)
  | c :: r =>
    match s.options.find? fun o => o.short? = some c with
    | none => .error .usage
    | some o =>
      if o.takesValue then
        match r with
        | [] => .ok (g, some o)
        | '=' :: v => (g.addValue o (String.ofList v)).map (·, none)
        | v => (g.addValue o (String.ofList v)).map (·, none)
      else do readShort s (← g.addFlag o) r

/-- Reads a long option; one that lacks its value is returned. -/
def readLong (s : Grammar) (g : Given) (name : String) (value : Option String) :
    Except Refusal (Given × Option Opt) :=
  match s.options.find? fun o => o.long = name with
  | none => .error .usage
  | some o =>
    match o.takesValue, value with
    | true, some v => (g.addValue o v).map (·, none)
    | true, none => .ok (g, some o)
    | false, some _ => .error .usage
    | false, none => (g.addFlag o).map (·, none)

/-- Reads arguments; `pending` is an option before them that lacks its value. -/
def readArguments (s : Grammar) (pending : Option Opt) (g : Given) :
    List String → Except Refusal Given
  | [] => if pending.isSome then .error .usage else .ok g
  | a :: rest =>
    match pending with
    | some o => if isValue a then do readArguments s none (← g.addValue o a) rest else .error .usage
    | none =>
      match Argument.ofText a with
      | .terminator => rest.foldlM (·.addOther s) g
      | .long name value => do
        let (g, pending) ← readLong s g name value
        readArguments s pending g rest
      | .short names => do
        let (g, pending) ← readShort s g names
        readArguments s pending g rest
      | .other => do readArguments s none (← g.addOther s a) rest

/-! ## Commands -/

/-- What to validate, and how. -/
structure Validation where
  ontology : String
  coercions : Option String
  catalogs : List String
  /-- The only workflow to check. -/
  workflow : Option String
  /-- The file for the patches. -/
  patchFile : Option String
  format : Format
  config : Option String
  strict : Bool
deriving DecidableEq, Repr

/-- What the program is asked to do. -/
inductive Command where
  | validate (v : Validation)
  /-- Sums up an ontology. -/
  | ontology (path : String) (format : Format)
  /-- Explains a code of findings. -/
  | explain (code : String)
deriving DecidableEq, Repr

/-- A command, and whether it is to tell more. -/
structure Request where
  command : Command
  verbose : Bool
deriving DecidableEq, Repr

def Given.format (g : Given) : Format :=
  ((g.value? .format).bind Opt.Format.ofName?).getD .text

def validateGrammar : Grammar :=
  ⟨[.verbose, .help, .ontology, .coercions, .workflow, .emitPatch, .format, .config, .strict],
    none, true⟩

def ontologyGrammar : Grammar :=
  ⟨[.verbose, .help, .ontology, .format], some 0, false⟩

def explainGrammar : Grammar :=
  ⟨[.verbose, .help], some 1, false⟩

/-- The command of a name with the arguments after it. The settings file of the environment counts
where none is given. -/
def Request.ofNamed (settings : Option String) (name : String) (arguments : List String) :
    Except Refusal Request :=
  match name with
  | "validate" => do
    let g ← readArguments validateGrammar none {} arguments
    let config := (g.value? .config).or settings
    match g.value? .ontology, g.others with
    | some ontology, catalog :: catalogs =>
      if config = some "" then throw .usage
      pure ⟨.validate {
        ontology
        coercions := g.value? .coercions
        catalogs := catalog :: catalogs
        workflow := g.value? .workflow
        patchFile := g.value? .emitPatch
        format := g.format
        config
        strict := g.has .strict }, g.has .verbose⟩
    | _, _ => .error .usage
  | "ontology" => do
    let g ← readArguments ontologyGrammar none {} arguments
    match g.value? .ontology with
    | some path => pure ⟨.ontology path g.format, g.has .verbose⟩
    | none => .error .usage
  | "explain" => do
    let g ← readArguments explainGrammar none {} arguments
    match g.others with
    | [code] => pure ⟨.explain code, g.has .verbose⟩
    | _ => .error .usage
  | "help" => .error .help
  | _ => .error .usage

/-- The options before a command. -/
def leadGrammar : Grammar :=
  ⟨[.verbose, .help, .version], some 0, false⟩

/-- The command that arguments name, after options that hold for every command. -/
def Request.ofArguments (settings : Option String) (lead : Given) :
    List String → Except Refusal Request
  | [] => .error .usage
  | a :: rest =>
    match Argument.ofText a with
    | .terminator => .error .usage
    | .long name value => do
      ofArguments settings (← readLong leadGrammar lead name value).1 rest
    | .short names => do
      ofArguments settings (← readShort leadGrammar lead names).1 rest
    | .other => do
      let r ← Request.ofNamed settings a rest
      pure { r with verbose := r.verbose || lead.has .verbose }

end CapabilityFlow.CommandLine
