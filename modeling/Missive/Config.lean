import Missive.Model.Basic
import Missive.Toml.Parse

/-!
# Missive.Config

Settings of a compilation, and what they and a schema together turn on.
-/

namespace Missive

/-- Settings of a compilation. -/
structure Config where
  /-- The path under which the emitted code finds the crate that it calls. -/
  runtimeCrate : String := "::msgbuf_runtime"
  noBinary : Bool := false
  noReflection : Bool := false
  /-- Leave out visitors. -/
  noInterfaces : Bool := false
  noXml : Bool := false
  /-- The plugins to run, by name. -/
  plugins : List String := []
  /-- Whether definitions may be emitted side by side; what is emitted is the same. -/
  parallel : Bool := true
  deriving Repr, DecidableEq

namespace Config

def bool? : Toml.Item → Option Bool
  | .bool b => some b
  | _ => none

def string? : Toml.Item → Option String
  | .string s => some s
  | _ => none

def strings? : Toml.Item → Option (List String)
  | .array items => items.mapM string?
  | _ => none

/-- A setting, or a default if it is not given. -/
def setting {α : Type} (entries : Toml.Entries) (key : String) (read : Toml.Item → Option α)
    (default : α) : Option α :=
  match entries.lookup key with
  | some item => read item
  | none => some default

/-- The settings that a TOML document gives.  Keys that are not known are ignored. -/
def parse? (text : String) : Option Config := do
  let entries ← Toml.parse? text
  let standard : Config := {}
  return {
    runtimeCrate := ← setting entries "runtime-crate" string? standard.runtimeCrate
    noBinary := ← setting entries "no-binary" bool? standard.noBinary
    noReflection := ← setting entries "no-reflection" bool? standard.noReflection
    noInterfaces := ← setting entries "no-interfaces" bool? standard.noInterfaces
    noXml := ← setting entries "no-xml" bool? standard.noXml
    plugins := ← setting entries "plugins" strings? standard.plugins
    parallel := ← setting entries "parallel" bool? standard.parallel }

end Config

/-- What the emitted code can do beside JSON. -/
structure Features where
  binary : Bool
  reflection : Bool
  interfaces : Bool
  xml : Bool
  deriving Repr, DecidableEq

namespace Features

/-- What neither the settings nor the schema turn off. -/
def resolve (config : Config) (m : Model) : Features :=
  { binary := !config.noBinary && !m.globalFlag "NoBinary"
    reflection := !config.noReflection && !m.globalFlag "NoReflection"
    interfaces := !config.noInterfaces && !m.globalFlag "NoInterfaces"
    xml := !config.noXml && !m.globalFlag "NoXml" }

end Features

end Missive
