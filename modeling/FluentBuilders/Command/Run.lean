import FluentBuilders.Command.Arguments
import FluentBuilders.Config.Load
import FluentBuilders.Generation.Run
import FluentBuilders.Number.Duration

/-!
# Command/Run — the command that generates builders

The configuration comes from a file or from the environment, and the command line overrides it.  How
the command ends says what it reports and with which code it exits.
-/

namespace FluentBuilders

/-! ## Configuration -/

/-- **Why there is no configuration.** -/
inductive ConfigError where
  | unreadable (cause : ReadError)
  | faulty (faults : List Fault)
  deriving DecidableEq, Repr

/-- The way to a fault, with dots between its steps. -/
def locationText (steps : List Step) : String :=
  String.intercalate "." (steps.map fun
    | .field name => name
    | .place index => toString index)

/-- The text of a fault. -/
def faultText (f : Fault) : String := locationText f.location ++ ": " ++ f.kind.name

/-- The text of a configuration error. -/
def ConfigError.message : ConfigError → String
  | .unreadable cause => cause.message
  | .faulty faults => String.intercalate "\n" (faults.map faultText)

/-- The configuration that was checked, or the error of its faults. -/
def Checked.orFaulty {α : Type} : Checked α → Except ConfigError α
  | .valid a => .ok a
  | .faulty faults => .error (.faulty faults)

/-- An option's value that says something. -/
def given? (value : Option String) : Option String := value.filter (· ≠ "")

/-- A configuration with what the command line overrides. -/
def Options.apply (o : Options) (config : Config) : Config :=
  { config with
    outputDir := ((given? o.output).map Path.ofString).getD config.outputDir
    resolution := ⟨config.resolution.strictNullChecks && !o.laxNulls⟩ }

/-! ## The command -/

/-- **How a command ends.** -/
inductive CommandOutcome where
  | help
  | misuse
  | badConfig (e : ConfigError)
  | failed (notes : List ReportEntry) (e : GenerationError)
  | generated (directory : Path) (notes : List ReportEntry) (g : Generated)

/-- **Why a command that went well has no report**: the time it took is at fault. -/
inductive ReportError where
  | noText (e : DurationError)
  | faulty (faults : List Fault)
  deriving DecidableEq, Repr

namespace CommandOutcome

/-- The code the command exits with. -/
def exitCode : CommandOutcome → Nat
  | .help | .generated .. => 0
  | .badConfig _ | .failed .. => 1
  | .misuse => 2

/-- What is reported before the end. -/
def notes : CommandOutcome → List ReportEntry
  | .failed notes _ | .generated _ notes _ => notes
  | .help | .misuse | .badConfig _ => []

/-- The rows of a summary. -/
def summaryRows (directory : Path) (g : Generated) (duration : String) : List (String × String) :=
  [("Builders generated", toString g.builders.length),
    ("Declarations skipped", toString g.skips.length),
    ("Files written", toString g.files.length),
    ("Output", directory.text),
    ("Duration", duration)]

/-- The last line about what was generated. -/
def conclusion (g : Generated) : ReportEntry :=
  if g.builders.isEmpty then .line "[dim]No builders generated[/dim]"
  else .message .success ("Generated " ++ toString g.builders.length ++ " builder(s)")

/-- The faults of an elapsed time: it cannot be below zero. -/
def elapsedFaults (elapsed : Binary64) : List Fault :=
  if elapsed.isNegative then [⟨.belowMinimum, [.field "duration"]⟩] else []

/-- **The report**, for a command that took `elapsed` seconds. -/
def report (o : CommandOutcome) (elapsed : Binary64) : Except ReportError (List ReportEntry) :=
  match o with
  | .help | .misuse => .ok []
  | .badConfig e => .ok [.message .error ("Invalid configuration: " ++ e.message)]
  | .failed notes e => .ok (notes ++ [.message .error e.message])
  | .generated directory notes g =>
    match elapsedFaults elapsed, durationText elapsed with
    | [], .ok duration =>
      .ok (notes ++ ReportEntry.summary "Builder Generation" (summaryRows directory g duration) ++
        [conclusion g])
    | [], .error e => .error (.noText e)
    | faults, _ => .error (.faulty faults)

end CommandOutcome

section
variable {m : Type → Type} [Monad m] [FileAccess m]

/-- The configuration from the file that the command line names, or from the environment. -/
def readConfig (env : Environment) (file : Option String) : m (Except ConfigError Config) := do
  match given? file with
  | none => return (Config.ofEnvironment env).orFaulty
  | some name =>
    match ← readText (Path.ofString name) with
    | .error cause => return .error (.unreadable cause)
    | .ok text => return (Config.load text).orFaulty

/-- **Runs the command.** -/
def runCommand (env : Environment) (arguments : List String) : m CommandOutcome := do
  match Arguments.ofTexts arguments with
  | .help => return .help
  | .misuse => return .misuse
  | .run options =>
    match ← readConfig env options.config with
    | .error e => return .badConfig e
    | .ok config =>
      let config := options.apply config
      let run ← generate config (Path.ofString options.input) none
      match run.outcome with
      | .error e => return .failed run.notes e
      | .ok g => return .generated config.outputDir run.notes g

end

/-- How the command is used. -/
def usageLines : List String :=
  ["usage: fluent-builders [-h] [-o OUTPUT] [--no-strict-null-checks] [--config CONFIG] input",
    "",
    "Generate fluent builder classes for TypeScript types",
    "",
    "  input                    TypeScript file containing the type declarations",
    "  -h, --help               show this text",
    "  -o, --output OUTPUT      output directory (default: from config, ./generated)",
    "  --no-strict-null-checks  resolve types as if strictNullChecks were off",
    "  --config CONFIG          JSON configuration file (default: from TSB_* variables)"]

end FluentBuilders
