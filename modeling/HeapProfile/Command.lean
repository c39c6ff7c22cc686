import HeapProfile.Decimal.Fixed
import HeapProfile.Delivery
import HeapProfile.Output
import HeapProfile.Text.Blank

/-!
# Commands — aggregate a trace, validate a report, show the version

`aggregate` reads a stream of events from a file, runs in the background, and writes the report, the
folded stacks and a summary as far as they are asked for.  `validateReport` reads a report and prints what
is in it.  A command that fails says so with a chain of causes.
-/

namespace HeapProfile

/-- What `aggregate` is asked to do. -/
structure AggregateArgs where
  input : String := ""
  output : String := "report.json"
  folded : Option String := none
  metric : CostField := .allocated
  stopNames : List String := defaultStopNames
  printSummary : Bool := false
deriving DecidableEq, Repr, Inhabited

/-- Why a command failed. -/
inductive CommandError
  | inputEmpty
  | inputMissing (path : String)
  | inputIsDirectory (path : String)
  | stopNameEmpty
  | inputNotOpened (path : String) (cause : SystemError)
  | runFailed (cause : RunFailure)
  | reportNotWritten (cause : OutputError)
  | foldedNotWritten (cause : OutputError)
  | reportNotRead (cause : OutputError)
deriving DecidableEq, Repr

namespace RunFailure

/-- The texts of a failure and of what lies behind it, outermost first. -/
def chain (failure : RunFailure) : List String :=
  match failure with
  | stream fault => [failure.message, fault.message, fault.cause]
  | _ => [failure.message]

end RunFailure

namespace CommandError

/-- The texts of an error and of what lies behind it, outermost first. -/
def chain : CommandError → List String
  | inputEmpty => ["Input path cannot be empty"]
  | inputMissing path => ["Input file does not exist: " ++ path]
  | inputIsDirectory path => ["Input path is a directory: " ++ path]
  | stopNameEmpty => ["Stop function names cannot be empty"]
  | inputNotOpened path cause => ["Failed to open " ++ path, cause.message]
  | runFailed cause => "Failed to aggregate allocation trace" :: cause.chain
  | reportNotWritten cause => "Failed to write report JSON" :: cause.chain
  | foldedNotWritten cause => "Failed to write folded stacks" :: cause.chain
  | reportNotRead cause => cause.chain

end CommandError

namespace Summary

/-- A line of equals signs. -/
def rule : String := "".pushn '=' 80

/-- A double with a set number of places. -/
def withPlaces (places : Nat) (value : Float) : String :=
  Decimal.fixed places (Binary.ofBits value.toBits)

/-- A number filled up with blanks on the left. -/
def rightAligned (width : Nat) (n : UInt64) : String :=
  let digits := toString n.toNat
  "".pushn ' ' (width - digits.length) ++ digits

/-- The lines of a printed summary, with the ten heaviest stacks. -/
def lines (s : Summary) (folded : List FoldedStack) : List String :=
  ["", rule, "ALLOCATION SUMMARY", rule,
    "Debuggee:          " ++ s.debuggee,
    "Total runtime:     " ++ withPlaces 3 s.totalTimeSecs ++ "s",
    "Bytes allocated:   " ++ toString s.totalAllocated.toNat ++ " (" ++
      withPlaces 0 s.allocatedPerSecond ++ "/s)",
    "Allocation calls:  " ++ toString s.totalAllocations.toNat ++ " (" ++
      withPlaces 0 s.allocationsPerSecond ++ "/s)",
    "Peak consumption:  " ++ toString s.peak.toNat,
    "Leaked:            " ++ toString s.leaked.toNat,
    "", "Top call paths:"] ++
  (folded.take 10).map (fun stack => "  " ++ rightAligned 12 stack.weight ++ "  " ++ stack.stack) ++
  [rule]

end Summary

namespace Command

variable {m : Type → Type} [Monad m] [Host m]

/-- Prints lines. -/
def printLines (lines : List String) : m Unit :=
  Host.print (String.join (lines.map (· ++ "\n")))

/-- Refuses arguments that cannot be meant. -/
def validate (args : AggregateArgs) : m (Except CommandError Unit) := do
  if args.input.isEmpty then return .error .inputEmpty
  match ← Host.isDirectory? args.input with
  | none => return .error (.inputMissing args.input)
  | some true => return .error (.inputIsDirectory args.input)
  | some false =>
    if args.stopNames.any fun name => (Text.trimmed name).isEmpty then
      return .error .stopNameEmpty
    return .ok ()

/-- What a file yields as a stream of events. -/
def streamOf (content : Except SystemError ByteArray) : List (Except StreamFault Event) :=
  match content with
  | .ok bytes => outcomes bytes.toList
  | .error cause => [.error (.system cause)]

/-- Writes what was asked for of a profile. -/
def publish (args : AggregateArgs) (profile : Profile) : m (Except CommandError Unit) := do
  match ← Output.writeReport (profile.report (← Host.now)) args.output with
  | .error cause => return .error (.reportNotWritten cause)
  | .ok _ =>
    let folded := profile.topDown.folded args.metric
    let written ← match args.folded with
      | none => pure (.ok ())
      | some path => Output.writeFolded folded path
    match written with
    | .error cause => return .error (.foldedNotWritten cause)
    | .ok _ =>
      if args.printSummary then printLines (profile.summary.lines folded)
      return .ok ()

/-- Aggregates a trace. -/
def aggregate (args : AggregateArgs) : m (Except CommandError Unit) := do
  match ← Host.readFile args.input with
  | .error cause => return .error (.inputNotOpened args.input cause)
  | .ok content =>
    match Delivery.wait (Run.run args.stopNames none none (streamOf content)).1 with
    | .error cause => return .error (.runFailed cause)
    | .ok profile => publish args profile

/-- What is printed about a report. -/
def reportLines (report : Report) : List String :=
  let forest (name : String) (t : FlatTree) : String :=
    "  " ++ name ++ ": " ++ toString t.roots.length ++ " roots, " ++ toString t.rows.length ++ " rows"
  ["✓ Valid report JSON",
    "  Version: " ++ report.version,
    "  Debuggee: " ++ report.summary.debuggee,
    "  Bytes allocated: " ++ toString report.summary.totalAllocated.toNat,
    forest "Bottom-up" report.bottomUp,
    forest "Top-down" report.topDown,
    "  Chart rows: " ++ toString report.charts.allocated.rows.length]

/-- Reads a report and prints what is in it. -/
def validateReport (path : String) : m (Except CommandError Unit) := do
  printLines ["Validating report: " ++ path]
  match ← Output.readReport path with
  | .error cause => return .error (.reportNotRead cause)
  | .ok report =>
    printLines (reportLines report)
    return .ok ()

/-- The version of the program. -/
def programVersion : String := "0.1.0"

/-- Prints the versions of the program and of the format of reports. -/
def showVersion : m Unit :=
  printLines ["Alloc Trace Studio v" ++ programVersion, "Report Schema: v" ++ reportVersion]

end Command

end HeapProfile
