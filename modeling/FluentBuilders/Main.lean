import FluentBuilders.Command.Run

/-!
# Main — the command on the files of this machine

Grants access to files, reads the environment and the clock, and prints the report.  Nothing is
decided here.
-/

namespace FluentBuilders

/-- The refusal that an error of the system stands for. -/
def FileFault.ofSystem (e : IO.Error) : FileFault :=
  match e with
  | .noFileOrDirectory .. => .missing
  | .alreadyExists .. => .alreadyThere
  | .inappropriateType _ code details =>
    if code = 20 then .notDirectory
    else if code = 21 then .isDirectory
    else .other code.toNat details
  | .invalidArgument _ code details =>
    if code = 36 then .nameTooLong else .other code.toNat details
  | .permissionDenied _ code details => .other code.toNat details
  | e => .other 5 (toString e)

/-- An access to a path, with the system's error as a refusal. -/
def attempt (p : Path) (access : IO α) : IO (Except FileError α) := do
  match ← access.toBaseIO with
  | .ok a => return .ok a
  | .error e => return .error ⟨.ofSystem e, p⟩

/-- A directory made with all above it. -/
def makeDirectories (p : Path) : IO (Except FileError Unit) :=
  attempt p (IO.FS.createDirAll p.text)

/-- A file read. -/
def readBytes (p : Path) : IO (Except FileError ByteArray) := attempt p (IO.FS.readBinFile p.text)

/-- A file written. -/
def writeBytes (p : Path) (content : ByteArray) : IO (Except FileError Unit) :=
  attempt p (IO.FS.writeBinFile p.text content)

instance : FileAccess IO where
  currentDirectory := return Path.ofString (← IO.currentDir).toString
  isFile p := return FileTree.presence (← readBytes p)
  read := readBytes
  perform
    | .makeDirectory p => makeDirectories p
    | .write p content => do
      match ← makeDirectories p.parent with
      | .ok () => writeBytes p content
      | .error e => return .error e
    | .copy source target => do
      match ← readBytes source with
      | .ok content => writeBytes target content
      | .error e => return .error e

/-- The variables of the environment that are set. -/
def readEnvironment : IO Environment :=
  Environment.names.filterMapM fun name => return (← IO.getEnv name).map (name, ·)

/-- The clock, in seconds. -/
def readClock : IO Binary64 := return Binary64.nearest false (← IO.monoNanosNow) 1000000000

/-- Prints an entry of the report. -/
def printEntry : ReportEntry → IO Unit
  | .line markup => IO.println markup
  | .table title rows => do
    IO.println title
    for (key, value) in rows do
      IO.println (key ++ ": " ++ value)

end FluentBuilders

open FluentBuilders

/-- **The command line.** -/
def main (arguments : List String) : IO UInt32 := do
  let started ← readClock
  let outcome ← runCommand (← readEnvironment) arguments
  match outcome with
  | .help => usageLines.forM IO.println
  | .misuse => usageLines.forM IO.eprintln
  | _ =>
    match outcome.report ((← readClock).sub started) with
    | .ok entries => entries.forM printEntry
    | .error _ => outcome.notes.forM printEntry
  return outcome.exitCode.toUInt32
