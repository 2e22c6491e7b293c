import FluentBuilders.Json.Value
import FluentBuilders.Text.Markup

/-!
# Report — what a run shows on the console

Messages are styled lines of console markup, with the text inside escaped; a summary is a table of
two columns, followed by an empty line.
-/

namespace FluentBuilders

/-- **What a message is about**, shown by its colour. -/
inductive Tone where
  | success
  | error
  | warning
  deriving DecidableEq, Repr

/-- The style of a tone. -/
def Tone.style : Tone → String
  | .success => "bold green"
  | .error => "bold red"
  | .warning => "bold yellow"

/-- **An entry on the console**: a line of markup, or a table. -/
inductive ReportEntry where
  | line (markup : String)
  | table (title : String) (rows : List (String × String))
  deriving DecidableEq, Repr

namespace ReportEntry

/-- **A message** in its tone. -/
def message (tone : Tone) (text : String) : ReportEntry :=
  .line ("[" ++ tone.style ++ "]" ++ Text.escapeMarkup text ++ "[/" ++ tone.style ++ "]")

/-- The columns of a summary. -/
def columns : List String := ["Item", "Value"]

/-- The title of a summary that has none of its own. -/
def defaultTitle : String := "Summary"

/-- **A summary**: one row to a key, in the order in which the keys came first. -/
def summary (title : String) (rows : List (String × String)) : List ReportEntry :=
  [.table title (rows.foldl (fun table (key, value) => Pairs.put key value table) []), .line ""]

end ReportEntry

end FluentBuilders
