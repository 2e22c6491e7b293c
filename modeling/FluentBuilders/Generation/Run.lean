import FluentBuilders.Builder.Synthesis
import FluentBuilders.Generation.Output
import FluentBuilders.Report
import FluentBuilders.Text.Utf8

/-!
# Generation/Run — from a source file to the files of its builders

A run reads a source file, plans a builder for every declaration with fields, and writes them.  What
it has to say on the way are its notes; they are there also when it fails.
-/

namespace FluentBuilders

/-! ## Reading text -/

/-- **Why a text file cannot be read.** -/
inductive ReadError where
  | refused (e : FileError)
  | notText (fault : Text.Utf8Fault)
  deriving DecidableEq, Repr

/-- A byte as two hexadecimal digits. -/
def byteText (b : Nat) : String := "0x" ++ String.ofList (Json.hexDigits 2 b)

/-- The reason of a decoding fault in words. -/
def utf8ReasonText : Text.Utf8Reason → String
  | .start => "invalid start byte"
  | .continuation => "invalid continuation byte"
  | .cutOff => "unexpected end of data"

/-- The bytes of a decoding fault: the byte itself when it is one, where they are otherwise. -/
def utf8BytesText (f : Text.Utf8Fault) : String :=
  if f.size = 1 then
    "byte " ++ byteText f.first ++ " in position " ++ toString f.position
  else
    "bytes in position " ++ toString f.position ++ "-" ++ toString (f.position + f.size - 1)

/-- The text of a reading error. -/
def ReadError.message : ReadError → String
  | .refused e => e.message
  | .notText f =>
    "'utf-8' codec can't decode " ++ utf8BytesText f ++ ": " ++ utf8ReasonText f.reason

/-- **The text of a file.** -/
def readText {m : Type → Type} [Monad m] [FileAccess m] (p : Path) :
    m (Except ReadError String) := do
  match ← FileAccess.read p with
  | .error e => return .error (.refused e)
  | .ok bytes =>
    match Text.ofFile bytes with
    | .error fault => return .error (.notText fault)
    | .ok text => return .ok text

/-! ## Generation -/

/-- **Why nothing was generated.** -/
inductive GenerationError where
  | noSource (path : Path)
  /-- It cannot be told whether there is a source. -/
  | inaccessible (cause : FileError)
  | unreadable (path : Path) (cause : ReadError)
  | endless
  | unwritable (directory : Path) (cause : OutputError)
  | refused (directory : Path) (cause : FileError)
  deriving DecidableEq, Repr

namespace GenerationError

/-- The text of a generation error. -/
def message : GenerationError → String
  | .noSource path => "Source file not found: " ++ path.text
  | .inaccessible cause => cause.message
  | .unreadable path cause => "Cannot read " ++ path.text ++ ": " ++ cause.message
  | .endless => "A type expands without end"
  | .unwritable directory cause =>
    "Cannot write builders to " ++ directory.text ++ ": " ++ cause.message
  | .refused directory cause =>
    "Failed to write builders to " ++ directory.text ++ ": " ++ cause.message

/-- The path at fault, for an error of writing. -/
def path? : GenerationError → Option Path
  | .unwritable _ (.conflict target) => some target
  | .refused _ cause => some cause.path
  | _ => none

end GenerationError

/-- **What was generated**: the builders' names, the skips, and the files. -/
structure Generated where
  builders : List String
  skips : List Skip
  files : List Path

/-- The warnings about skips. -/
def Generated.diagnostics (g : Generated) : List String := g.skips.filterMap Skip.diagnostic?

/-- **A run**: what it noted, and how it ended. -/
structure Generation where
  notes : List ReportEntry
  outcome : Except GenerationError Generated

/-- A warning as a note. -/
def warningNote (text : String) : ReportEntry := .message .warning text

/-- The notes on a file that was read. -/
def readingNotes (ws : List Warning) : List ReportEntry := ws.map fun w => warningNote w.message

/-- The notes on the skips of a plan. -/
def skipNotes (skips : List Skip) : List ReportEntry :=
  (skips.filterMap Skip.diagnostic?).map warningNote

section
variable {m : Type → Type} [Monad m] [FileAccess m]

/-- **Reads a source file.** -/
def readSourceFile (input : Path) (strictNullChecks : Bool) :
    m (Except GenerationError (Noted SourceFile)) := do
  match ← FileAccess.isFile input with
  | .error cause => return .error (.inaccessible cause)
  | .ok false => return .error (.noSource input)
  | .ok true =>
    match ← readText input with
    | .error cause => return .error (.unreadable input cause)
    | .ok text =>
      let current ← FileAccess.currentDirectory
      return .ok (readSource text (modulePathOf current input) (some input) strictNullChecks)

/-- Writes the builders of a plan and gives the paths of the files. -/
def writePlan (emit : EmitConfig) (directory : Path) (builders : List BuilderSpec)
    (source : SourceFile) : m (Except GenerationError (List Path)) := do
  match Output.plan emit (← FileAccess.currentDirectory) directory builders source with
  | .error cause => return .error (.unwritable directory cause)
  | .ok output =>
    match ← output.write with
    | .error cause => return .error (.refused directory cause)
    | .ok files => return .ok files

/-- **Generates the builders of a file** into `output`, or into the configured directory. -/
def generate (config : Config) (input : Path) (output : Option Path) : m Generation := do
  match ← readSourceFile input config.resolution.strictNullChecks with
  | .error e => return ⟨[], .error e⟩
  | .ok source =>
    let notes := readingNotes source.warnings
    match plan config source.value with
    | .error .endless => return ⟨notes, .error .endless⟩
    | .ok planned =>
      let notes := notes ++ skipNotes planned.skips
      let directory := output.getD config.outputDir
      match ← writePlan config.emit directory planned.builders source.value with
      | .error e => return ⟨notes, .error e⟩
      | .ok files =>
        return ⟨notes, .ok ⟨planned.builders.map (·.className), planned.skips, files⟩⟩

end

end FluentBuilders
