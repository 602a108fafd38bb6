import Missive.Message.Binary
import Missive.Message.Json
import Missive.Message.Property
import Missive.Proofs.Source.Visitor

/-!
# Missive.Proofs.Source.Instance

Values of the emitted types.

The type of a concrete message is a structure; the type of an abstract one has a case for each of
its variants, and a value of it holds a value of the type of its case.  What is inside all cases is
a message of a concrete type, the content, which determines the value (`Instance.eq_of_content`).

The methods of an abstract type match on the case and call the method of the same name on what the
case holds (`Instance.dispatch`), so that all of them come to the method of the content.
-/

namespace Missive.Source

/-- A value of the emitted type of a message. -/
inductive Instance (m : Model) : MessageId → Type where
  | plain {x : MessageId} (hx : (m.message x).isAbstract = false) (fields : List Value) :
      Instance m x
  /-- A case of an abstract message, and what it holds. -/
  | case {a b : MessageId} (ha : (m.message a).isAbstract = true) (hb : b ∈ m.variants a)
      (inner : Instance m b) : Instance m a

namespace Instance

variable {m : Model} {a b x : MessageId}

/-! ## contents -/

/-- The message inside all cases. -/
def content : {a : MessageId} → Instance m a → Message
  | a, .plain _ fields => ⟨a, fields⟩
  | _, .case _ _ inner => inner.content

/-- The content is of a concrete type. -/
theorem isAbstract_content (v : Instance m a) : (m.message v.content.type).isAbstract = false := by
  induction v with
  | plain hx fields => exact hx
  | case ha hb inner ih => exact ih

/-- The type of a value is that of its content, or above it. -/
theorem mem_line_content (hm : m.IsForest) (v : Instance m a) : a ∈ m.line v.content.type := by
  induction v with
  | plain hx fields => exact .head _
  | case ha hb inner ih =>
      exact .tail _ (Model.mem_ascent_trans hm (Model.mem_ascent_of_mem_variants hm hb) ih)

theorem eq_type_content (v : Instance m a) (ha : (m.message a).isAbstract = false) :
    a = v.content.type := by
  cases v with
  | plain hx fields => rfl
  | case ha' hb inner => rw [ha'] at ha; contradiction

/-- Two cases of a message that hold the same content are the same. -/
theorem eq_of_content_case (hm : m.IsForest) (habs : m.AbstractAbove) {x y : MessageId}
    (hx : x ∈ m.variants a) (hy : y ∈ m.variants a) (v : Instance m x) (w : Instance m y)
    (h : v.content = w.content) : x = y := by
  have hv := v.mem_line_content hm
  have hw := w.mem_line_content hm
  rw [h] at hv
  by_cases hxa : (m.message x).isAbstract = true
  · exact Model.eq_of_variants_above hm habs hx hxa hv hy hw
  · by_cases hya : (m.message y).isAbstract = true
    · exact (Model.eq_of_variants_above hm habs hy hya hw hx hv).symm
    · rw [v.eq_type_content (by simpa using hxa), w.eq_type_content (by simpa using hya), h]

/-- A value is determined by its content. -/
theorem eq_of_content (hm : m.IsForest) (habs : m.AbstractAbove) (v w : Instance m a)
    (h : v.content = w.content) : v = w := by
  induction v with
  | plain hx fields =>
      cases w with
      | plain hx' fields' => cases h; rfl
      | case ha hb inner => rw [ha] at hx; contradiction
  | case ha hb inner ih =>
      cases w with
      | plain hx fields => rw [ha] at hx; contradiction
      | case ha' hb' inner' =>
          obtain rfl := eq_of_content_case hm habs hb hb' inner inner' h
          rw [ih inner' h]

/-! ## methods -/

/-- A method that an abstract type calls on what its case holds. -/
def dispatch {R : Type} (own : Message → R) : {a : MessageId} → Instance m a → R
  | a, .plain _ fields => own ⟨a, fields⟩
  | _, .case _ _ inner => inner.dispatch own

theorem dispatch_eq {R : Type} (own : Message → R) (v : Instance m a) :
    v.dispatch own = own v.content := by
  induction v with
  | plain hx fields => rfl
  | case ha hb inner ih => exact ih

variable (c : Catalog)

def jsonType (v : Instance m a) : String := v.dispatch fun message => c.jsonType message.type

def typeId? (v : Instance m a) : Option UInt32 := v.dispatch fun message => c.typeId? message.type

/-- The properties, without the name of the type. -/
def contentJson (v : Instance m a) : Json :=
  v.dispatch fun message => .object (c.membersJson (c.slots message.type) message.fields)

/-- An abstract type names the type of its content. -/
def toJson : Instance m a → Json
  | .plain _ fields => c.toJson ⟨a, fields⟩
  | .case ha hb inner =>
    let v : Instance m a := .case ha hb inner
    .array [.string (v.jsonType c), v.contentJson c]

def encode (v : Instance m a) : List UInt8 := v.dispatch c.encode

def properties (v : Instance m a) : List String := v.dispatch c.properties

protected def get (v : Instance m a) (name : String) : Except ReadError PropertyValue :=
  v.dispatch (c.get · name)

end Instance

end Missive.Source
