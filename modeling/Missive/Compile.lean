import Missive.Json.Parse
import Missive.Model.Identify
import Missive.Schema.Document
import Missive.Source.Module

/-!
# Missive.Compile

From schema files to source code.
-/

namespace Missive

/-- A file by name; its content is missing if there is no such file. -/
structure InputFile where
  name : String
  text : Option String

namespace InputFile

/-- The name without its last extension.  A name that only begins with a dot has none. -/
def stem (file : InputFile) : String :=
  let reversed := file.name.toList.reverse
  match (reversed.dropWhile (· != '.')).drop 1 with
  | [] => file.name
  | before => String.ofList before.reverse

/-- The content of a file. -/
def read (file : InputFile) : Except CompileError String :=
  match file.text with
  | some text => .ok text
  | none => .error (.missing file.name)

end InputFile

/-- The schema in a file.  Files without a name are named for it. -/
def Schema.load (file : InputFile) : Except CompileError Schema := do
  let text ← file.read
  match Json.parse? text >>= Schema.ofJson? with
  | some schema => return schema.nameFiles file.name
  | none => .error .document

/-- The settings in a file. -/
def Config.load (file : InputFile) : Except CompileError Config := do
  match Config.parse? (← file.read) with
  | some config => return config
  | none => .error .settings

/-- The model of a schema. -/
def analyze (schema : Schema) : Except CompileError Model :=
  match Model.ofSchema schema with
  | .ok m => .ok m
  | .error cause => .error (.schema cause)

/-- The source code of a schema. -/
def compile (registry : Source.Registry) (config : Config) (schema : Schema) :
    Except CompileError String := do
  let m ← analyze schema
  let code ← Source.generate registry config m
  return code.render

/-- Where the code of a file is put. -/
inductive Destination where
  | directory
  | missingDirectory
  /-- No directory was named. -/
  | unset
  deriving DecidableEq

/-- The name and the text of the file that a schema file is compiled to.  Nothing is written
unless the compilation succeeds. -/
def build (registry : Source.Registry) (config : Config) (file : InputFile)
    (destination : Destination) : Except CompileError (String × String) := do
  let schema ← Schema.load file
  let code ← compile registry config schema
  let target := file.stem ++ ".rs"
  match destination with
  | .directory => return (target, code)
  | .missingDirectory => .error (.missing target)
  | .unset => .error (.missing "$OUT_DIR")

end Missive
