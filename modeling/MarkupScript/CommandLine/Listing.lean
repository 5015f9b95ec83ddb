import MarkupScript.CommandLine.Arguments
import MarkupScript.Function.Catalogue
import MarkupScript.Json.Writer
import MarkupScript.Script.Basic

/-!
# What commands print

Each listing has a form for reading and a form in JSON on one line. Every line ends
with a line feed.
-/

namespace MarkupScript.CommandLine

/-- Lines, each with its end. -/
def linesText (lines : List String) : String :=
  String.join (lines.map (· ++ "\n"))

def jsonLine (json : Json) : String := json.compact ++ "\n"

def jsonTexts (texts : List String) : Json := .array (texts.map .string)

/-- The trace of a run. -/
def Format.results (format : Format) (trace : List String) : String :=
  match format with
  | .text => linesText trace
  | .json => jsonLine (.object [("results", jsonTexts trace)])

/-- What a script that compiles consists of. -/
def Format.summary (format : Format) (u : ScriptUnit) : String :=
  let names := Keyed.keys u.subs
  match format with
  | .text =>
    linesText <| s!"OK: {u.count} command(s), {names.length} sub-script(s)" ::
      names.map fun name => s!"  sub {name}"
  | .json =>
    jsonLine (.object [("commands", .number (toString u.count)), ("sub_scripts", jsonTexts names)])

def parameterLine (p : Parameter) : String :=
  s!"    {p.name} ({p.type.name}): {p.description}"

def parameterJson (p : Parameter) : Json :=
  .object [("description", .string p.description), ("name", .string p.name),
    ("type", .string p.type.name)]

def descriptorLines (d : Descriptor) : List String :=
  s!"{d.usage} - {d.description}" :: d.params.map parameterLine

def descriptorJson (d : Descriptor) : Json :=
  .object [("description", .string d.description), ("name", .string d.name),
    ("params", .array (d.params.map parameterJson))]

/-- The functions of a catalogue. -/
def Format.functions (format : Format) (ds : List Descriptor) : String :=
  match format with
  | .text => linesText (ds.flatMap descriptorLines)
  | .json => jsonLine (.object [("functions", .array (ds.map descriptorJson))])

end MarkupScript.CommandLine
