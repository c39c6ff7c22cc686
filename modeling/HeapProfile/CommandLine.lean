import HeapProfile.Command

/-!
# The command line — from words to commands

A command line names a command among its words and gives it options.  Long options take their value
behind an equals sign or as the next word; short options can be joined, and the last one of them can
have its value in the same word.  A value that is a word of its own does not begin with a dash unless it
is nothing but a dash.  Whatever breaks these rules is a usage error.
-/

namespace HeapProfile.CommandLine

/-- An option of a command. -/
structure Flag where
  long : String
  short : Option Char := none
  takesValue : Bool := false
  /-- Whether it may be given more than once. -/
  repeatable : Bool := false
  /-- Whether a value can be used. -/
  accepts : String → Bool := fun _ => true

/-- Why the words are not read to their end. -/
inductive Halt
  | usage
  | help
  | version
deriving DecidableEq, Repr

/-- An option as it was given, with its value if it takes one. -/
structure Given where
  long : String
  value : String := ""
deriving DecidableEq, Repr

/-- What the program is asked to do. -/
inductive Request
  | aggregate (args : AggregateArgs)
  | validate (path : String)
  | version
deriving DecidableEq, Repr

/-- A path that can be used. -/
def isPath (value : String) : Bool := !value.isEmpty

/-- Asks for more messages; it may stand anywhere. -/
def verbose : Flag := { long := "verbose", short := some 'v' }

/-- Asks for help; it may stand anywhere. -/
def help : Flag := { long := "help", short := some 'h' }

/-- Asks for the version of the program. -/
def version : Flag := { long := "version", short := some 'V' }

/-- The options in front of the command. -/
def programFlags : List Flag := [verbose, help, version]

/-- The options of the command that aggregates a trace. -/
def aggregateFlags : List Flag :=
  [{ long := "input", short := some 'i', takesValue := true, accepts := isPath },
    { long := "output", short := some 'o', takesValue := true, accepts := isPath },
    { long := "folded", short := some 'f', takesValue := true, accepts := isPath },
    { long := "metric", takesValue := true, accepts := fun name => (CostField.ofName? name).isSome },
    { long := "stop", takesValue := true, repeatable := true },
    { long := "no-stop" },
    { long := "summary" },
    verbose, help]

/-- The options of the command that validates a report. -/
def validateFlags : List Flag :=
  [{ long := "file", short := some 'f', takesValue := true, accepts := isPath }, verbose, help]

/-- The options of the command that shows the version. -/
def versionFlags : List Flag := [verbose, help]

/-- Takes an option that was given. -/
def take (flag : Flag) (value : String) (given : List Given) : Except Halt (List Given) :=
  if flag.long = help.long then .error .help
  else if flag.long = version.long then .error .version
  else if !flag.repeatable && given.any (fun g => g.long == flag.long) then .error .usage
  else if flag.takesValue && !flag.accepts value then .error .usage
  else .ok (given ++ [{ long := flag.long, value }])

/-- Whether a word can be the value of the option before it. -/
def isValueWord (word : String) : Bool := word.toList.head? != some '-' || word == "-"

/-- What a word full of short options leaves open: nothing, or an option whose value comes next. -/
abbrev Pending := Option Flag

/-- Takes the short options joined in one word. -/
def takeShort (flags : List Flag) : List Char → List Given → Except Halt (List Given × Pending)
  | [], given => .ok (given, none)
  | letter :: rest, given =>
    match flags.find? fun flag => flag.short == some letter with
    | none => .error .usage
    | some flag =>
      if flag.takesValue then
        match rest with
        | [] => .ok (given, some flag)
        -- an equals sign between the letter and its value is dropped
        | '=' :: value => return (← take flag (String.ofList value) given, none)
        | value => return (← take flag (String.ofList value) given, none)
      else do takeShort flags rest (← take flag "" given)

/-- Takes a long option, given without its two dashes. -/
def takeLong (flags : List Flag) (text : List Char) (given : List Given) :
    Except Halt (List Given × Pending) :=
  let name := String.ofList (text.takeWhile (· != '='))
  let value? := match text.dropWhile (· != '=') with
    | '=' :: value => some (String.ofList value)
    | _ => none
  match flags.find? fun flag => flag.long == name with
  | none => .error .usage
  | some flag =>
    match flag.takesValue, value? with
    | true, some value => return (← take flag value given, none)
    | true, none => return (given, some flag)
    | false, some _ => .error .usage
    | false, none => return (← take flag "" given, none)

/-- Reads options up to the first word that is none; gives what was given, that word, and the words
behind it. -/
def scan (flags : List Flag) : Pending → List Given → List String →
    Except Halt (List Given × Option (String × List String))
  | some _, _, [] => .error .usage
  | some flag, given, word :: rest =>
    if isValueWord word then do scan flags none (← take flag word given) rest
    else .error .usage
  | none, given, [] => .ok (given, none)
  | none, given, word :: rest =>
    match word.toList with
    -- behind two dashes nothing is an option or a command any more
    | ['-', '-'] => if rest.isEmpty then .ok (given, none) else .error .usage
    | '-' :: '-' :: text => do
      let (given, pending) ← takeLong flags text given
      scan flags pending given rest
    | '-' :: letter :: letters => do
      let (given, pending) ← takeShort flags (letter :: letters) given
      scan flags pending given rest
    | _ => .ok (given, some (word, rest))

/-- The values given for an option. -/
def values (given : List Given) (long : String) : List String :=
  (given.filter fun g => g.long == long).map (·.value)

/-- Reads the options of a command that takes nothing else. -/
def options (flags : List Flag) (words : List String) : Except Halt (List Given) := do
  match ← scan flags none [] words with
  | (given, none) => return given
  | (_, some _) => throw .usage

/-- The arguments of the command that aggregates a trace. -/
def aggregateArgs (given : List Given) : Except Halt AggregateArgs := do
  let stops := values given "stop"
  let noStop := given.any fun g => g.long == "no-stop"
  match values given "input" with
  | [] => throw .usage
  | input :: _ =>
    if noStop && !stops.isEmpty then throw .usage
    return {
      input
      output := (values given "output").headD "report.json"
      folded := (values given "folded").head?
      metric := (((values given "metric").head?).bind CostField.ofName?).getD .allocated
      stopNames := if noStop then [] else if stops.isEmpty then defaultStopNames else stops
      printSummary := given.any fun g => g.long == "summary" }

/-- The names of the commands. -/
def commandNames : List String := ["aggregate", "validate", "version", "help"]

/-- What the words behind a command ask for. -/
def command (name : String) (words : List String) : Except Halt Request :=
  match name with
  | "aggregate" => do return .aggregate (← aggregateArgs (← options aggregateFlags words))
  | "validate" => do
    match values (← options validateFlags words) "file" with
    | path :: _ => return .validate path
    | [] => throw .usage
  | "version" => do
    let _ ← options versionFlags words
    return .version
  | "help" =>
    match words with
    | [] => throw .help
    | [topic] => if commandNames.contains topic then throw .help else throw .usage
    | _ => throw .usage
  | _ => throw .usage

/-- What a whole command line asks for. -/
def parse (words : List String) : Except Halt Request := do
  match ← scan programFlags none [] words with
  | (_, none) => throw .usage
  | (_, some (name, rest)) => command name rest

/-- How the program ended. -/
inductive Outcome
  | success
  /-- The command failed; the texts name the error and what lies behind it. -/
  | failure (chain : List String)
  | usageError
deriving DecidableEq, Repr

namespace Outcome

/-- The exit code of an outcome. -/
def exitCode : Outcome → UInt8
  | success => 0
  | failure _ => 1
  | usageError => 2

/-- A text set in: its first line behind a lead, the other ones behind blanks of the same width. -/
def setIn (lead text : String) : String :=
  lead ++ String.intercalate ("\n".pushn ' ' lead.length) (text.splitOn "\n") ++ "\n"

/-- What is printed to the error stream.  Causes are numbered where there is more than one. -/
def complaint : Outcome → String
  | success => ""
  | failure [] => "Error\n"
  | failure [text] => "Error: " ++ text ++ "\n"
  | failure [text, cause] => "Error: " ++ text ++ "\n\nCaused by:\n" ++ setIn "    " cause
  | failure (text :: causes) =>
    "Error: " ++ text ++ "\n\nCaused by:\n" ++
      String.join (causes.zipIdx.map fun (cause, n) => setIn ("    " ++ toString n ++ ": ") cause)
  | usageError => "error: invalid usage\n\nFor more information, try '--help'.\n"

/-- The outcome of a command. -/
def ofResult : Except CommandError Unit → Outcome
  | .ok _ => success
  | .error e => failure e.chain

end Outcome

/-- A short account of how the program is used. -/
def usage : String :=
  "Usage: alloc-trace [OPTIONS] <COMMAND>\n\nCommands:\n" ++
  "  aggregate  Aggregate a decoded event stream\n" ++
  "  validate   Validate a report JSON file\n" ++
  "  version    Display version information\n" ++
  "  help       Print this message or the help of the given subcommand(s)\n"

variable {m : Type → Type} [Monad m] [Host m]

/-- Does what is asked for. -/
def perform : Request → m Outcome
  | .aggregate args => do
    match ← Command.validate args with
    | .error e => return .failure e.chain
    | .ok _ => return Outcome.ofResult (← Command.aggregate args)
  | .validate path => return Outcome.ofResult (← Command.validateReport path)
  | .version => do
    Command.showVersion
    return .success

/-- Runs a whole command line. -/
def run (words : List String) : m Outcome := do
  match parse words with
  | .ok request => perform request
  | .error .usage => return .usageError
  | .error .help =>
    Host.print usage
    return .success
  | .error .version =>
    Command.printLines ["alloc-trace " ++ Command.programVersion]
    return .success

end HeapProfile.CommandLine
