import Mathlib
import Missive.Example
import Missive.Proofs.Message.Catalog
import Missive.Proofs.Message.Progress
import Missive.Proofs.Message.Tree

/-!
# Missive.Proofs.Message.Forward

Payloads of newer schemas, read with an older one.

`Catalog.Extended plan t t'` says that `t'` is the tree `t` of a field with something added that the
catalog does not know: a field of a message or of an entry of a map, or an element of a list of
messages that is of an unknown member.  `Catalog.readMessage_extended` says that any number of such
additions leaves the result of reading as it is, whether that is a message or an error.
-/

namespace Missive

open Wire

/-! ## folds -/

/-- An element that changes nothing may be left out. -/
theorem foldlM_insert {step : σ → α → Except ε σ} (h : ∀ s, step s x = .ok s) (xs ys : List α)
    (s : σ) : (xs ++ x :: ys).foldlM step s = (xs ++ ys).foldlM step s := by
  simp only [List.foldlM_append, List.foldlM_cons]
  refine bind_congr fun s' => ?_
  rw [h s']
  rfl

/-- An element may be replaced by one that does the same. -/
theorem foldlM_replace {step : σ → α → Except ε σ} (h : ∀ s, step s x = step s y)
    (xs ys : List α) (s : σ) :
    (xs ++ x :: ys).foldlM step s = (xs ++ y :: ys).foldlM step s := by
  simp only [List.foldlM_append, List.foldlM_cons, h]

namespace Catalog

/-! ## additions -/

/-- A tree of a field with something added that the catalog does not know. -/
inductive Extended (c : Catalog) : FieldPlan → Tree → Tree → Prop where
  /-- Another field in a message, behind its discriminator if it has one, under a tag that the type
  of the message does not have. -/
  | pair {id : MessageId} (hplace : c.model.inFamily id = true → before ≠ [])
      (hnew : ∀ type found, c.openFields id before = .ok (some type, found) →
        ∀ slot ∈ c.slots type, slot.tag ≠ some tag) :
      Extended c (.single (.message id isAbstract)) (.object (before ++ after))
        (.object (before ++ (tag, t) :: after))
  /-- An addition in a field of a message. -/
  | field {id : MessageId} {slot : Slot} (hopen : c.openFields id before = .ok (some type, found))
      (hslot : slot ∈ c.slots type) (htag : slot.tag = some tag)
      (h : Extended c slot.plan t t') :
      Extended c (.single (.message id isAbstract)) (.object (before ++ (tag, t) :: after))
        (.object (before ++ (tag, t') :: after))
  /-- An addition in an element of a list of messages. -/
  | item {id : MessageId} (h : Extended c (.single (.message id isAbstract)) t t') :
      Extended c (.repeated (.message id isAbstract)) (.array kind (items ++ t :: items'))
        (.array kind (items ++ t' :: items'))
  /-- Another element in a list of members of a family, of a member that the catalog does not have
  there. -/
  | stranger {id : MessageId} (hfamily : c.model.inFamily id = true)
      (hstrange : ∀ type ∈ c.members id, c.typeId? type ≠ some number) :
      Extended c (.repeated (.message id isAbstract)) (.array kind (items ++ items'))
        (.array kind (items ++ .object ((0, .int number.toUInt64) :: rest) :: items'))
  /-- Another field in an entry of a map. -/
  | entryPair (hkey : tag ≠ keyTag) (hvalue : tag ≠ valueTag) :
      Extended c (.map key value) (.array kind (items ++ .object (before ++ after) :: items'))
        (.array kind (items ++ .object (before ++ (tag, t) :: after) :: items'))
  /-- An addition in the value of an entry of a map. -/
  | entryValue {id : MessageId} (h : Extended c (.single (.message id isAbstract)) t t') :
      Extended c (.map key (.message id isAbstract))
        (.array kind (items ++ .object (before ++ (valueTag, t) :: after) :: items'))
        (.array kind (items ++ .object (before ++ (valueTag, t') :: after) :: items'))

variable {c : Catalog} {nested : NestedTree} {id type : MessageId} {plan : FieldPlan}
  {before after rest : List (UInt32 × Tree)} {items items' : List Tree} {t t' : Tree}

/-- What stands behind the discriminator has no part in finding it. -/
theorem openFields_append (hplace : c.model.inFamily id = true → before ≠ [])
    (after : List (UInt32 × Tree)) :
    c.openFields id (before ++ after) =
      (fun opened => (opened.1, opened.2 ++ after)) <$> c.openFields id before := by
  unfold openFields
  by_cases hfamily : c.model.inFamily id = true
  · simp only [hfamily, if_true]
    match before, hplace hfamily with
    | (tag, t) :: before, _ =>
        simp only [List.cons_append]
        split
        · cases t.toUInt32? <;> rfl
        · rfl
  · simp only [hfamily]
    rfl

theorem ne_nil_of_openFields (h : c.openFields id before = .ok opened) :
    c.model.inFamily id = true → before ≠ [] := by
  rintro hfamily rfl
  simp [openFields, hfamily] at h

/-- A field of which the type of the message does not have the tag. -/
theorem Extended.of_openFields (hopen : c.openFields id before = .ok (some type, found))
    (hnew : ∀ slot ∈ c.slots type, slot.tag ≠ some tag) (t : Tree)
    (after : List (UInt32 × Tree)) :
    c.Extended (.single (.message id isAbstract)) (.object (before ++ after))
      (.object (before ++ (tag, t) :: after)) := by
  refine .pair (ne_nil_of_openFields hopen) fun type' found' ho => ?_
  rw [hopen] at ho
  cases ho
  exact hnew

/-- A message depends on its fields behind the discriminator only by what comes of them. -/
theorem nestedOfTree_congr (hplace : c.model.inFamily id = true → before ≠ [])
    (h : ∀ type found, c.openFields id before = .ok (some type, found) →
      c.messageOfFields (c.nestedOfTree depth) type (found ++ after) =
        c.messageOfFields (c.nestedOfTree depth) type (found ++ rest)) :
    c.nestedOfTree (depth + 1) id (.object (before ++ after)) =
      c.nestedOfTree (depth + 1) id (.object (before ++ rest)) := by
  unfold nestedOfTree
  rw [openFields_append hplace, openFields_append hplace]
  cases ho : c.openFields id before with
  | error e => rfl
  | ok opened =>
      obtain ⟨type, found⟩ := opened
      cases type with
      | none => rfl
      | some type =>
          have hfields := h type found ho
          simp only [Functor.map, Except.map, Except.ok_bind, hfields]

/-- A field of which the tag is not known changes nothing. -/
theorem fieldsWith_of_unknown (h : ∀ slot ∈ c.slots type, slot.tag ≠ some tag)
    (values : List Value) : c.fieldsWith nested type values (tag, t) = .ok values := by
  have hfind : (c.slots type).find? (·.tag == some tag) = none := by
    simpa [List.find?_eq_none] using h
  simp only [fieldsWith, hfind]
  rfl

theorem entryWith_of_unknown (hkey : tag ≠ keyTag) (hvalue : tag ≠ valueTag)
    (key value : ValuePlan) (entry : Option Key × Option Value) :
    c.entryWith nested key value entry (tag, t) = .ok entry := by
  simp [entryWith, hkey, hvalue]

/-- An object of a member that a type does not have comes to nothing. -/
theorem nestedOfTree_stranger (hfamily : c.model.inFamily id = true)
    (hstrange : ∀ type ∈ c.members id, c.typeId? type ≠ some number) (depth : Nat) :
    c.nestedOfTree (depth + 1) id (.object ((0, .int number.toUInt64) :: rest)) = .ok none := by
  have hmember : c.memberOfTypeId? id number = none := by
    simpa [memberOfTypeId?, List.find?_eq_none] using hstrange
  simp [nestedOfTree, openFields, hfamily, Tree.toUInt32?, hmember]

/-! ## what comes of an addition -/

/-- Two trees of a field come to the same, where messages are nested by at most `depth`. -/
def SameField (c : Catalog) (depth : Nat) : FieldPlan → Tree → Tree → Prop
  | .single (.message id _), t, t' => c.nestedOfTree depth id t = c.nestedOfTree depth id t'
  | plan, t, t' => ∀ property, c.fieldOfTree (c.nestedOfTree depth) property plan t =
    c.fieldOfTree (c.nestedOfTree depth) property plan t'

theorem SameField.fieldOfTree (h : c.SameField depth plan t t') (property : String) :
    c.fieldOfTree (c.nestedOfTree depth) property plan t =
      c.fieldOfTree (c.nestedOfTree depth) property plan t' := by
  match plan with
  | .single (.message id isAbstract) =>
      have h : c.nestedOfTree depth id t = c.nestedOfTree depth id t' := h
      simp only [Catalog.fieldOfTree, valueOfTree, h]
  | .single (.primitive _) | .single (.enumeration _) | .repeated _ | .map .. => exact h property

/-- A message with another field of an unknown tag. -/
theorem sameField_pair (hplace : c.model.inFamily id = true → before ≠ [])
    (hnew : ∀ type found, c.openFields id before = .ok (some type, found) →
      ∀ slot ∈ c.slots type, slot.tag ≠ some tag) :
    c.SameField depth (.single (.message id isAbstract)) (.object (before ++ after))
      (.object (before ++ (tag, t) :: after)) := by
  cases depth with
  | zero => rfl
  | succ depth =>
      refine nestedOfTree_congr hplace fun type found ho => ?_
      simp only [messageOfFields, foldlM_insert (fieldsWith_of_unknown (hnew type found ho))]

/-- A message with a field that comes to the same. -/
theorem sameField_field (hc : c.Lawful) {slot : Slot}
    (hopen : c.openFields id before = .ok (some type, found)) (hslot : slot ∈ c.slots type)
    (htag : slot.tag = some tag) (h : c.SameField depth slot.plan t t') :
    c.SameField (depth + 1) (.single (.message id isAbstract))
      (.object (before ++ (tag, t) :: after))
      (.object (before ++ (tag, t') :: after)) := by
  refine nestedOfTree_congr (ne_nil_of_openFields hopen) ?_
  intro type' found' ho
  obtain ⟨rfl, rfl⟩ : type = type' ∧ found = found' := by
    rw [hopen] at ho
    simpa using ho
  have hstep : ∀ values, c.fieldsWith (c.nestedOfTree depth) type values (tag, t) =
      c.fieldsWith (c.nestedOfTree depth) type values (tag, t') := fun values => by
    simp only [fieldsWith, hc.find?_tag hslot htag, h.fieldOfTree]
  simp only [messageOfFields, foldlM_replace hstep]

theorem sameField_item (h : c.nestedOfTree depth id t = c.nestedOfTree depth id t') :
    c.SameField depth (.repeated (.message id isAbstract)) (.array kind (items ++ t :: items'))
      (.array kind (items ++ t' :: items')) := by
  have hstep : ∀ values,
      c.itemsWith (c.nestedOfTree depth) (.message id isAbstract) values t =
        c.itemsWith (c.nestedOfTree depth) (.message id isAbstract) values t' := fun values => by
    simp only [itemsWith, valueOfTree, h]
  intro property
  simp only [fieldOfTree, foldlM_replace hstep]

/-- A list with another element of an unknown member. -/
theorem sameField_stranger (hfamily : c.model.inFamily id = true)
    (hstrange : ∀ type ∈ c.members id, c.typeId? type ≠ some number) :
    c.SameField (depth + 1) (.repeated (.message id isAbstract)) (.array kind (items ++ items'))
      (.array kind (items ++ .object ((0, .int number.toUInt64) :: rest) :: items')) := by
  have hstep : ∀ values, c.itemsWith (c.nestedOfTree (depth + 1)) (.message id isAbstract) values
      (.object ((0, .int number.toUInt64) :: rest)) = .ok values := fun values => by
    simp [itemsWith, valueOfTree, nestedOfTree_stranger hfamily hstrange]
  intro property
  simp only [fieldOfTree, foldlM_insert hstep]

/-- A map with an entry that comes to the same. -/
theorem sameField_entry
    (h : c.entryOfTree (c.nestedOfTree depth) key value t =
      c.entryOfTree (c.nestedOfTree depth) key value t') :
    c.SameField depth (.map key value) (.array kind (items ++ t :: items'))
      (.array kind (items ++ t' :: items')) := by
  intro property
  have hstep : ∀ entries, c.entriesWith (c.nestedOfTree depth) property key value entries t =
      c.entriesWith (c.nestedOfTree depth) property key value entries t' := fun entries => by
    simp only [entriesWith, h]
  simp only [fieldOfTree, foldlM_replace hstep]

theorem entryOfTree_pair (hkey : tag ≠ keyTag) (hvalue : tag ≠ valueTag) :
    c.entryOfTree nested key value (.object (before ++ after)) =
      c.entryOfTree nested key value (.object (before ++ (tag, t) :: after)) := by
  simp only [entryOfTree, foldlM_insert (entryWith_of_unknown hkey hvalue key value)]

theorem entryOfTree_value (h : nested id t = nested id t') :
    c.entryOfTree nested key (.message id isAbstract)
        (.object (before ++ (valueTag, t) :: after)) =
      c.entryOfTree nested key (.message id isAbstract)
        (.object (before ++ (valueTag, t') :: after)) := by
  have hne : (valueTag == keyTag) = false := rfl
  have hstep : ∀ entry,
      c.entryWith nested key (.message id isAbstract) entry (valueTag, t) =
        c.entryWith nested key (.message id isAbstract) entry (valueTag, t') := fun entry => by
    simp only [entryWith, hne, valueOfTree, h, Bool.false_eq_true, if_false]
  simp only [entryOfTree, foldlM_replace hstep]

/-- An addition changes nothing, once messages may be nested deep enough to see it whole. -/
theorem Extended.sameField (hc : c.Lawful) (h : c.Extended plan t t') :
    ∃ enough, ∀ depth, enough ≤ depth → c.SameField depth plan t t' := by
  -- an unknown member is itself a message: with no depth left it would be an error and not nothing,
  -- so the depth has to reach it through the messages around it
  induction h with
  | pair hplace hnew => exact ⟨0, fun depth _ => sameField_pair hplace hnew⟩
  | field hopen hslot htag _ ih =>
      obtain ⟨enough, ih⟩ := ih
      refine ⟨enough + 1, fun depth hd => ?_⟩
      obtain ⟨depth, rfl⟩ : ∃ k, depth = k + 1 := ⟨depth - 1, by omega⟩
      exact sameField_field hc hopen hslot htag (ih depth (by omega))
  | item _ ih =>
      obtain ⟨enough, ih⟩ := ih
      exact ⟨enough, fun depth hd => sameField_item (ih depth hd)⟩
  | stranger hfamily hstrange =>
      refine ⟨1, fun depth hd => ?_⟩
      obtain ⟨depth, rfl⟩ : ∃ k, depth = k + 1 := ⟨depth - 1, by omega⟩
      exact sameField_stranger hfamily hstrange
  | entryPair hkey hvalue =>
      exact ⟨0, fun depth _ => sameField_entry (entryOfTree_pair hkey hvalue)⟩
  | entryValue _ ih =>
      obtain ⟨enough, ih⟩ := ih
      exact ⟨enough, fun depth hd => sameField_entry (entryOfTree_value (ih depth hd))⟩

/-- Any number of additions to a message changes nothing, once messages may be nested deep
enough. -/
theorem nestedOfTree_of_extended (hc : c.Lawful)
    (h : Relation.ReflTransGen (c.Extended (.single (.message id isAbstract))) t t') :
    ∃ enough, ∀ depth, enough ≤ depth →
      c.nestedOfTree depth id t = c.nestedOfTree depth id t' := by
  induction h with
  | refl => exact ⟨0, fun depth _ => rfl⟩
  | tail _ hstep ih =>
      obtain ⟨enough, ih⟩ := ih
      obtain ⟨enough', hsame⟩ := hstep.sameField hc
      refine ⟨max enough enough', fun depth hd => (ih depth (by omega)).trans ?_⟩
      exact hsame depth (by omega)

/-- The tree of a payload tells what is read, by any bound on the nesting that exceeds the bytes
that are left. -/
theorem readMessage_yields_of_lt (id : MessageId) (hs : Spells (.object fields) bs)
    (hb : BeforeMessage pending frames frames') (suffix : List UInt8)
    (hd : (bs ++ suffix).length < depth) :
    Yields (c.readMessage id ⟨bs ++ suffix, pending, frames⟩)
      (c.nestedOfTree depth id (.object fields)) ⟨suffix, none, frames'⟩ := by
  rw [readMessage_eq hd]
  cases hs with
  | object hfields =>
      rw [List.append_assoc]
      exact readNested_object depth id hfields hb suffix

/-- **Forward compatibility**: what is added to a payload beyond the knowledge of an accepted schema
leaves the result of reading a message as it is, the message or the error, however the payloads are
spelled and wherever they stand. -/
theorem readMessage_extended (hm : Model.ofSchema schema = .ok m) (hc : ofModel m = .ok c)
    (h : Relation.ReflTransGen (c.Extended (.single (.message id isAbstract)))
      (.object fields) (.object fields'))
    (hs : Spells (.object fields) bs) (hs' : Spells (.object fields') bs')
    (hb : BeforeMessage pending frames frames') (suffix : List UInt8) :
    ∃ result,
      Yields (c.readMessage id ⟨bs ++ suffix, pending, frames⟩) result ⟨suffix, none, frames'⟩ ∧
      Yields (c.readMessage id ⟨bs' ++ suffix, pending, frames⟩) result
        ⟨suffix, none, frames'⟩ := by
  obtain ⟨enough, hsame⟩ := nestedOfTree_of_extended (lawful_of_ofSchema hm hc) h
  let depth := enough + (bs ++ suffix).length + (bs' ++ suffix).length + 1
  refine ⟨c.nestedOfTree depth id (.object fields),
    readMessage_yields_of_lt id hs hb suffix (by omega), ?_⟩
  rw [hsame depth (by omega)]
  exact readMessage_yields_of_lt id hs' hb suffix (by omega)

/-- A circle. -/
def circle : Tree := .object [(0, .int 1), (3, .double ⟨2⟩)]

/-- The circle with another field. -/
def newerCircle : Tree := .object [(0, .int 1), (7, .array .sint [.sint 5]), (3, .double ⟨2⟩)]

/-- A shape of a member that is not known. -/
def newerShape : Tree := .object [(0, .int 9), (3, .object [])]

/-- The fields of a group of the circle. -/
def circleGroup : List (UInt32 × Tree) := [(0, .int 3), (3, .array .object [circle])]

/-- The fields of the group, with a field and a member more. -/
def newerGroup : List (UInt32 × Tree) :=
  [(0, .int 3), (7, .string [0x61]), (3, .array .object [newerCircle, newerShape])]

theorem readMessage_extended_newerGroup : ∃ m c bs bs' result,
    Model.ofSchema Example.shapes = .ok m ∧ ofModel m = .ok c ∧
    Relation.ReflTransGen (c.Extended (.single (.message 0 true)))
      (.object circleGroup) (.object newerGroup) ∧
    Spells (.object circleGroup) bs ∧ Spells (.object newerGroup) bs' ∧
    Yields (c.readMessage 0 ⟨bs ++ [7], none, []⟩) result ⟨[7], none, []⟩ ∧
    Yields (c.readMessage 0 ⟨bs' ++ [7], none, []⟩) result ⟨[7], none, []⟩ := by
  have hcatalog : (ofSchema? Example.shapes).any (fun c => decide
      (c.model.inFamily 0 = true ∧ c.memberOfTypeId? 0 3 = some 4 ∧
        c.memberOfTypeId? 0 1 = some 2 ∧ (∀ slot ∈ c.slots 4, slot.tag ≠ some 7) ∧
        (∀ slot ∈ c.slots 2, slot.tag ≠ some 7) ∧
        (∃ slot ∈ c.slots 4, slot.tag = some 3 ∧ slot.plan = .repeated (.message 0 true)) ∧
        ∀ type ∈ c.members 0, c.typeId? type ≠ some 9)) = true := by
    decide +kernel
  obtain ⟨m, c, hm, hc, hfacts⟩ := exists_of_any hcatalog
  obtain ⟨hfamily, hgroup, hcircle, hnew₄, hnew₂, ⟨slot, hslot, htag, hplan⟩, hstrange⟩ :=
    of_decide_eq_true hfacts
  have hopen₄ : ∀ fields, c.openFields 0 ((0, .int 3) :: fields) = .ok (some 4, fields) :=
    fun fields => by simp [openFields, hfamily, Tree.toUInt32?, hgroup]
  have hopen₂ : c.openFields 0 [(0, .int 1)] = .ok (some 2, []) := by
    simp [openFields, hfamily, Tree.toUInt32?, hcircle]
  have hnewer : c.Extended (.single (.message 0 true)) _ _ :=
    .of_openFields hopen₂ hnew₂ (.array .sint [.sint 5]) [(3, .double ⟨2⟩)]
  have hitem : c.Extended slot.plan (.array .object ([] ++ circle :: []))
      (.array .object ([] ++ newerCircle :: [])) := hplan ▸ .item hnewer
  have hmember : c.Extended slot.plan (.array .object ([newerCircle] ++ []))
      (.array .object ([newerCircle] ++ newerShape :: [])) := hplan ▸ .stranger hfamily hstrange
  have hextended : Relation.ReflTransGen (c.Extended (.single (.message 0 true)))
      (.object circleGroup) (.object newerGroup) :=
    .head (.field (hopen₄ []) hslot htag hitem) <|
      .head (.field (hopen₄ []) hslot htag hmember) <|
        .single (.of_openFields (hopen₄ []) hnew₄ (.string [0x61]) _)
  have hv := isVarint_varint
  have hdouble : ∀ x, SpellsFields [(3, .double x)] _ := fun x => .cons (hv _) (.double x) .nil
  have hs : Spells (.object circleGroup) _ :=
    .object (.cons (hv _) (.int (hv _)) (.cons (hv _) (.array (hv 1) rfl
      (by simp [circle, Tree.kind])
      (.cons (.object (.cons (hv _) (.int (hv _)) (hdouble _))) .nil)) .nil))
  have hlist : Spells (.array .sint [.sint 5]) _ :=
    .array (hv 1) rfl (by simp [Tree.kind]) (.cons (.sint (hv _)) .nil)
  have hs' : Spells (.object newerGroup) _ :=
    .object (.cons (hv _) (.int (hv _)) (.cons (hv _) (.string (hv 1) rfl) (.cons (hv _)
      (.array (hv 2) rfl (by simp [newerCircle, newerShape, Tree.kind])
        (.cons (.object (.cons (hv _) (.int (hv _)) (.cons (hv _) hlist (hdouble _))))
          (.cons (.object (.cons (hv _) (.int (hv _)) (.cons (hv _) (.object .nil) .nil)))
            .nil))) .nil)))
  obtain ⟨result, hread, hread'⟩ := readMessage_extended hm hc hextended hs hs' .outermost [7]
  exact ⟨m, c, _, _, result, hm, hc, hextended, hs, hs', hread, hread'⟩

end Catalog

end Missive
