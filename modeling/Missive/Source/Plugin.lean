import Missive.Config
import Missive.Source.View

/-!
# Missive.Source.Plugin

Plugins: further members for every message.

A plugin adds members to the structure that holds the fields of a message, and items after the
public type of a message.  It may refuse a message.
-/

namespace Missive.Source

/-- A plugin. -/
structure Plugin where
  name : String
  /-- Whether the plugin runs with these features. -/
  enabled : Features → Bool
  /-- Members of the structure that holds the fields of a message, or why it is refused. -/
  storageSurface : MessageView → Except String Code
  /-- Items after the public type of a message, or why it is refused. -/
  publicSurface : MessageView → Except String Code

/-- The plugins that can be used, in the order of their registration. -/
abbrev Registry := List Plugin

/-- A plugin by name; of several the first registered. -/
def Registry.find? (registry : Registry) (name : String) : Option Plugin :=
  List.find? (fun (p : Plugin) => p.name == name) registry

/-- The plugins that a compilation uses and that its features enable. -/
def Registry.select (registry : Registry) (features : Features) (names : List String) :
    Except CompileError (List Plugin) := do
  let plugins ← names.mapM fun name =>
    match registry.find? name with
    | some plugin => .ok plugin
    | none => .error (.unknownPlugin name)
  return plugins.filter (·.enabled features)

/-- What plugins add to a message at one of their surfaces. -/
def runPlugins (plugins : List Plugin) (surface : Plugin → MessageView → Except String Code)
    (view : MessageView) : Except CompileError Code := do
  let codes ← plugins.mapM fun plugin =>
    match surface plugin view with
    | .ok code => .ok code
    | .error reason => .error (.plugin plugin.name view.message.name reason)
  return codes.flatten

end Missive.Source
