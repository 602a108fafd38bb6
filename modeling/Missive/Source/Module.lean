import Missive.Source.Enumeration
import Missive.Source.Message
import Missive.Source.XmlCodec

/-!
# Missive.Source.Module

The code of a whole model: a unit for each definition outside of any message, with everything
inside it.
-/

namespace Missive.Source

/-- The first line of the code. -/
def header : String := "// @generated by msgbuf-codegen. Do not edit."

/-- The code of a definition and those inside it. -/
structure CodeUnit where
  name : String
  text : String
  deriving DecidableEq

/-- The code of a model. -/
structure CodeModule where
  units : List CodeUnit

namespace CodeModule

/-- The text of a module. -/
def render (code : CodeModule) : String :=
  code.units.foldl (fun text unit => text ++ unit.text) (header ++ "\n")

/-- A unit by name. -/
def unit? (code : CodeModule) (name : String) : Option CodeUnit :=
  code.units.find? (·.name == name)

end CodeModule

/-- The code of a definition. -/
def definitionCode (ctx : Context) : Model.Reference → Except CompileError Code
  | .message id => messageCode ctx id
  | .enumeration id => .ok (enumerationCode (ctx.model.enumeration id))

/-- The unit of a definition. -/
def unitOf (ctx : Context) (root : Model.Reference) : Except CompileError CodeUnit := do
  let codes ← (ctx.model.unitMembers root).mapM (definitionCode ctx)
  return { name := ctx.model.nameOf root, text := Code.render codes.flatten }

/-- The code of a model. -/
def generate (registry : Registry) (config : Config) (m : Model) :
    Except CompileError CodeModule := do
  let features := Features.resolve config m
  let plugins ← registry.select features config.plugins
  let ctx : Context :=
    { model := m, features, runtime := config.runtimeCrate, plugins, generics := Generics.of m }
  return { units := ← m.roots.mapM (unitOf ctx) }

end Missive.Source
