import FluentBuilders.Config.Basic
import FluentBuilders.Files.Access

/-!
# Config/Save — a configuration written to its file

Without a path of its own a configuration goes into its output directory, which is made as needed.
-/

namespace FluentBuilders

/-- **Saves a configuration** in its output directory and gives the path of the file. -/
def Config.save {m : Type → Type} [Monad m] [FileAccess m] (c : Config) :
    m (Except FileError Path) := do
  match ← FileAccess.perform (.write c.defaultPath c.saved.toUTF8) with
  | .ok () => return .ok c.defaultPath
  | .error e => return .error e

end FluentBuilders
