import Missive.Source.Error
import Missive.Source.Identifier
import Missive.Source.Layout
import Missive.Text.Quoted

/-!
# Missive.Source.View

Messages as the emitted code shows them: their fields with the names that the code uses, and the
cases of an abstract message.
-/

namespace Missive.Source

/-- A field with its plan and the names that belong to it. -/
structure FieldView where
  field : Model.Field
  plan : FieldPlan
  /-- The storage and the getter. -/
  ident : String
  /-- The constant with the key. -/
  prop : String
  /-- The constant with the tag. -/
  tag : String

/-- A message with the type to which emitted members belong. -/
structure MessageView where
  model : Model
  id : MessageId
  typeName : String
  /-- The path of the crate that the code calls. -/
  runtime : String
  /-- The fields that the message declares. -/
  fields : List FieldView
  /-- The fields of the messages that it extends, the most general first. -/
  inherited : List FieldView

namespace MessageView

def message (view : MessageView) : Model.Message := view.model.message view.id

/-- Whether there is a structure below that holds further fields. -/
def hasBase (view : MessageView) : Bool := view.message.parent.isSome

/-- The declared fields, then the inherited ones. -/
def orderedFields (view : MessageView) : List FieldView := view.fields ++ view.inherited

end MessageView

/-- View a field of a message. -/
def fieldView (m : Model) (owner : String) (f : Model.Field) : Except CompileError FieldView :=
  match m.planField f with
  | .ok plan => .ok {
      field := f, plan, ident := fieldName f.name, prop := constantName f.name "PROP"
      tag := constantName f.name "TAG" }
  | .error cause => .error (.unsupported owner f.name cause)

/-- View the fields that a message declares. -/
def ownFields (m : Model) (id : MessageId) : Except CompileError (List FieldView) :=
  (m.message id).fields.mapM (fieldView m (m.message id).name)

/-- View the fields of the messages that a message extends. -/
def inheritedFields (m : Model) (id : MessageId) : Except CompileError (List FieldView) := do
  return (← (m.ancestors id).mapM (ownFields m)).flatten

/-- The structure that holds the fields of a message. -/
def dataName (m : Model) (id : MessageId) : String :=
  if (m.message id).isAbstract then baseName (m.message id).name else typeName (m.message id).name

/-! ## cases -/

/-- A case of an abstract message. -/
structure Case where
  id : MessageId
  name : String
  isAbstract : Bool

/-- The cases of an abstract message. -/
structure Cases where
  /-- The type with these cases. -/
  typeName : String
  items : List Case

namespace Cases

def of (m : Model) (id : MessageId) : Cases :=
  { typeName := Source.typeName (m.message id).name
    items := (m.variants id).map fun other =>
      { id := other, name := Source.typeName (m.message other).name
        isAbstract := (m.message other).isAbstract } }

def isEmpty (cases : Cases) : Bool := cases.items.isEmpty

/-- A parameter that only the arms of a match read; without arms it is marked as unused. -/
def parameter (cases : Cases) (name : String) : String :=
  if cases.isEmpty then s!"_{name}" else name

/-- A match over the cases, and a last line after it.  A type without cases has no values, and its
match is the whole body. -/
def dispatch (cases : Cases) (arm : Case → String) (last : Option String) : Code :=
  if cases.isEmpty then line "match *self \x7b\x7d"
  else
    enter "match self"
    ++ cases.items.flatMap (fun c => line s!"{cases.typeName}::{c.name}(inner) => {arm c},")
    ++ leave
    ++ last.toList.flatMap line

end Cases

/-- A text as a literal. -/
def literal (text : String) : String := Text.quoted text

end Missive.Source
