import FluentBuilders.Builder.Render
import FluentBuilders.Files.Access
import FluentBuilders.Source.File

/-!
# Generation/Output — the files that a source file's builders are written to

A directory takes one unit for each builder, a copy of the source file, and an index of the units.
All of them have paths of their own, or nothing is written; then it does not matter in which order
they are.
-/

namespace FluentBuilders

/-- **Why there is nothing to write.** -/
inductive OutputError where
  /-- Two of the files have one path. -/
  | conflict (target : Path)
  /-- A builder has no text. -/
  | unrenderable (e : RenderError)
  deriving DecidableEq, Repr

/-- **Files to write**: the directory that is made first, the paths of the files, and the acts that
write them. -/
structure Output where
  directory : Path
  targets : List Path
  acts : List FileAct

namespace Output

/-- The file of a unit. -/
def unitPath (emit : EmitConfig) (directory : Path) (b : BuilderSpec) : Path :=
  directory.child (b.className ++ emit.extension)

/-- The file of the index. -/
def indexPath (emit : EmitConfig) (directory : Path) : Path :=
  directory.child (emit.indexName ++ emit.extension)

/-- The file of the source's copy. -/
def copyPath (directory : Path) (source : SourceFile) : Path := directory.child source.fileName

/-- **The paths of all files**: the units in order, the copy, the index. -/
def targetsOf (emit : EmitConfig) (directory : Path) (builders : List BuilderSpec)
    (source : SourceFile) : List Path :=
  builders.map (unitPath emit directory) ++ [copyPath directory source, indexPath emit directory]

/-- The first path that comes again after it. -/
def firstRepeated? : List Path → Option Path
  | [] => none
  | p :: ps => if ps.contains p then some p else firstRepeated? ps

/-- The acts that write the units. -/
def unitActs (emit : EmitConfig) (directory : Path) (stem : String) :
    List BuilderSpec → Except RenderError (List FileAct)
  | [] => .ok []
  | b :: builders => do
    let text ← renderBuilder emit b stem
    let others ← unitActs emit directory stem builders
    return .write (unitPath emit directory b) text.toUTF8 :: others

/-- The acts that copy the source: a file that is in the directory already stays as it is, and a
source that was not read from a file is written out. -/
def copyActs (current directory : Path) (source : SourceFile) : List FileAct :=
  let target := copyPath directory source
  match source.path with
  | none => [.write target source.text.toUTF8]
  | some path =>
    if Path.resolve current path = Path.resolve current target then [] else [.copy path target]

/-- The act that writes the index. -/
def indexAct (emit : EmitConfig) (directory : Path) (builders : List BuilderSpec) : FileAct :=
  .write (indexPath emit directory) (renderIndex emit (builders.map (·.className))).toUTF8

/-- **What is to be written** for a source file, seen from the directory `current`. -/
def plan (emit : EmitConfig) (current directory : Path) (builders : List BuilderSpec)
    (source : SourceFile) : Except OutputError Output :=
  let targets := targetsOf emit directory builders source
  match firstRepeated? targets with
  | some target => .error (.conflict target)
  | none =>
    match unitActs emit directory source.stem builders with
    | .error e => .error (.unrenderable e)
    | .ok units =>
      .ok
        { directory, targets
          acts := units ++ copyActs current directory source ++ [indexAct emit directory builders] }

/-- **Writes the files** and gives their paths. -/
def write {m : Type → Type} [Monad m] [FileAccess m] (o : Output) :
    m (Except FileError (List Path)) := do
  match ← FileAccess.perform (.makeDirectory o.directory) with
  | .error e => return .error e
  | .ok () =>
    match ← FileAccess.performAll o.acts with
    | .error e => return .error e
    | .ok () => return .ok o.targets

end Output

/-- The text of an output error. -/
def OutputError.message : OutputError → String
  | .conflict target => "More than one generated file targets " ++ target.text
  | .unrenderable _ => "A builder lacks a part of its text"

end FluentBuilders
