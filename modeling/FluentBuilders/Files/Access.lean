import FluentBuilders.Files.Tree

/-!
# Files/Access — reading and changing files, wherever they are

Programs over files are written against `FileAccess`.  A tree in memory grants it as a state, so
that what a program does to files is a function; the command line grants it for the files of the
machine.
-/

namespace FluentBuilders

/-- **Access to files.** -/
class FileAccess (m : Type → Type) where
  /-- The absolute path of the working directory. -/
  currentDirectory : m Path
  isFile : Path → m (Except FileError Bool)
  read : Path → m (Except FileError ByteArray)
  perform : FileAct → m (Except FileError Unit)

instance : FileAccess (StateM FileTree) where
  currentDirectory := fun t => (t.currentDirectory, t)
  isFile p := fun t => (t.isFile p, t)
  read p := fun t => (t.read p, t)
  perform act := fun t =>
    match t.perform act with
    | .ok changed => (.ok (), changed)
    | .error e => (.error e, t)

namespace FileAccess

/-- **Several acts, one after the other**, each tried whatever came of those before it.  Of several
refusals the first is the answer. -/
def performAll {m : Type → Type} [Monad m] [FileAccess m] :
    List FileAct → m (Except FileError Unit)
  | [] => return .ok ()
  | act :: acts => do
    let done ← perform act
    let others ← performAll acts
    return done.bind fun _ => others

end FileAccess

end FluentBuilders
