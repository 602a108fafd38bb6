import Missive.Model.Error
import Missive.Model.Plan

/-!
# Missive.Source.Error

Why a compilation fails.
-/

namespace Missive

/-- Why a compilation fails. -/
inductive CompileError where
  | schema (cause : SchemaError)
  | unsupported (message field : String) (cause : PlanError)
  | plugin (name definition reason : String)
  | unknownPlugin (name : String)
  /-- A schema document that describes no schema. -/
  | document
  /-- Settings that cannot be read. -/
  | settings
  /-- A file that is not there. -/
  | missing (path : String)
  deriving Repr, DecidableEq

/-- The wording of an error; `none` where only its kind is told. -/
def CompileError.message : CompileError → Option String
  | .schema cause => some cause.message
  | .unsupported message field cause =>
    some s!"field `{message}.{field}` cannot be encoded: {cause.message}"
  | .plugin name definition reason =>
    some s!"plugin `{name}` rejected `{definition}`: {reason}"
  | .unknownPlugin name => some s!"no plugin named `{name}` is registered"
  | .document | .settings | .missing _ => none

end Missive
