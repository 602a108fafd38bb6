import Missive.Model.Basic

/-!
# Missive.Model.Lineage

Which messages extend which.

A model is a forest: a message extends at most one other, and no message extends itself through
others.  A line of ancestors is therefore shorter than the number of messages, and so is the
number of generations below a message, which bounds every walk here.
-/

namespace Missive.Model

/-- The messages above a parent and the parent itself, nearest first, at most `fuel` of them. -/
def climb (m : Model) : Nat → Option MessageId → List MessageId
  | 0, _ => []
  | _ + 1, none => []
  | fuel + 1, some id => id :: m.climb fuel (m.message id).parent

/-- The messages that a message extends, nearest first. -/
def ascent (m : Model) (id : MessageId) : List MessageId :=
  m.climb (m.messages.length + 1) (m.message id).parent

/-- The messages that a message extends, the most general first. -/
def ancestors (m : Model) (id : MessageId) : List MessageId := (m.ascent id).reverse

/-- Whether a message extends itself, or one that does.  A line as long as there are messages meets
one of them twice. -/
def isCyclic (m : Model) (id : MessageId) : Bool :=
  m.messages.length ≤ (m.climb m.messages.length (m.message id).parent).length

/-- The most general message that a message extends, or itself. -/
def root (m : Model) (id : MessageId) : MessageId := (m.ancestors id).headD id

/-- The messages that extend a message directly. -/
def specializations (m : Model) (id : MessageId) : List MessageId :=
  m.messageIds.filter fun other => (m.message other).parent == some id

/-- A generation and those below it, at most `fuel` of them. -/
def generations (m : Model) : Nat → List MessageId → List MessageId
  | 0, _ => []
  | fuel + 1, level => level ++ m.generations fuel (level.flatMap m.specializations)

/-- The messages that extend a message, generation by generation. -/
def descendants (m : Model) (id : MessageId) : List MessageId :=
  m.generations m.messages.length (m.specializations id)

/-- The concrete messages that extend a message. -/
def concreteDescendants (m : Model) (id : MessageId) : List MessageId :=
  (m.descendants id).filter fun other => !(m.message other).isAbstract

/-- The nearest abstract message that a message extends. -/
def abstractParent? (m : Model) (id : MessageId) : Option MessageId :=
  (m.ascent id).find? fun other => (m.message other).isAbstract

/-- Whether a message, or one that it extends, is abstract. -/
def inFamily (m : Model) (id : MessageId) : Bool :=
  (m.message id).isAbstract || (m.ascent id).any fun other => (m.message other).isAbstract

/-- The fields of a message with their owners, those of the most general message first. -/
def allFields (m : Model) (id : MessageId) : List (MessageId × Field) :=
  (m.ancestors id ++ [id]).flatMap fun owner => (m.message owner).fields.map fun f => (owner, f)

/-- The cases of an abstract message: the abstract messages that extend it directly, which have
cases of their own, and the concrete ones that no other abstract message stands between. -/
def variants (m : Model) (id : MessageId) : List MessageId :=
  (m.specializations id).flatMap fun other =>
    if (m.message other).isAbstract then [other] else other :: m.descendants other

/-- The definitions directly inside a definition. -/
def inside (m : Model) : Reference → List Reference
  | .message id => (m.message id).nested
  | .enumeration _ => []

/-- Go through a list of definitions and put what is inside each one right behind it, in at most
`fuel` steps. -/
def spliceNested (m : Model) : Nat → List Reference → List Reference
  | 0, pending => pending
  | _ + 1, [] => []
  | fuel + 1, reference :: pending =>
    reference :: m.spliceNested fuel (m.inside reference ++ pending)

/-- A definition and those inside it, each before what it holds.  No definition is met twice, so a
step for each one of the model is enough. -/
def unitMembers (m : Model) (reference : Reference) : List Reference :=
  m.spliceNested (m.messages.length + m.enumerations.length) [reference]

end Missive.Model
