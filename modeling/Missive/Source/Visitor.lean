import Missive.Source.View

/-!
# Missive.Source.Visitor

Visitors: one case for every concrete message of a family.

The visitor of an abstract message declares the cases of its concrete variants and inherits the
visitors of its abstract ones.
-/

namespace Missive.Source

/-- The type parameters of visitors: result, argument and visitor. -/
structure Generics where
  result : String
  argument : String
  visitor : String

namespace Generics

/-- The names that the types of a model take. -/
def taken (m : Model) : List String :=
  m.messages.flatMap (fun message =>
    [typeName message.name, baseName message.name, visitorName message.name])
  ++ m.enumerations.map fun e => typeName e.name

/-- Type parameters that hide no type of a model. -/
def of (m : Model) : Generics :=
  let result := fresh "R" (taken m)
  let argument := fresh "A" (result :: taken m)
  let visitor := fresh "V" (argument :: result :: taken m)
  { result, argument, visitor }

/-- The signature of `visit` for a visitor. -/
def visitSignature (g : Generics) (visitorType visitor argument : String) : String :=
  s!"pub fn visit<{g.result}, {g.argument}, {g.visitor}: {visitorType}<{g.result}, {g.argument}> + ?Sized>(&self, {visitor}: &mut {g.visitor}, {argument}: {g.argument}) -> {g.result}"

end Generics

/-- The visitor of an abstract message. -/
def visitorTrait (m : Model) (g : Generics) (id : MessageId) (cases : Cases) : Code :=
  let name := visitorName (m.message id).name
  let visitors := (cases.items.filter (·.isAbstract)).map fun c =>
    s!"{visitorName (m.message c.id).name}<{g.result}, {g.argument}>"
  let bounds := if visitors.isEmpty then "" else ": " ++ " + ".intercalate visitors
  let head := s!"pub trait {name}<{g.result}, {g.argument}>{bounds}"
  let concrete := cases.items.filter (!·.isAbstract)
  blank
  ++ line s!"/// Exhaustive dispatch over the concrete members of [`{cases.typeName}`]."
  ++ if concrete.isEmpty then line s!"{head} \x7b\x7d"
    else
      enter head
      ++ concrete.flatMap (fun c =>
        let method := visitMethod (m.message c.id).name
        line s!"fn {method}(&mut self, value: &{c.name}, arg: {g.argument}) -> {g.result};")
      ++ leave

/-- The method of an abstract message: a concrete case is visited, an abstract one forwards. -/
def visitFamilyMethod (m : Model) (g : Generics) (id : MessageId) (cases : Cases) : Code :=
  blank
  ++ enter (g.visitSignature (visitorName (m.message id).name) (cases.parameter "visitor")
    (cases.parameter "arg"))
  ++ cases.dispatch (fun c =>
    if c.isAbstract then "inner.visit(visitor, arg)"
    else s!"visitor.{visitMethod (m.message c.id).name}(inner, arg)") none
  ++ leave

/-- The method of a concrete message below an abstract one. -/
def visitMethodCode (m : Model) (g : Generics) (id : MessageId) : Code :=
  match m.abstractParent? id with
  | none => []
  | some family =>
    blank
    ++ enter (g.visitSignature (visitorName (m.message family).name) "visitor" "arg")
    ++ line s!"visitor.{visitMethod (m.message id).name}(self, arg)"
    ++ leave

end Missive.Source
