import Missive.Proofs.Message.XmlNames

/-!
# Missive.Proofs.Message.XmlTolerance

What may be added to an XML document without changing the message in it.

Messages, members of families and fields are read from elements, and reading skips the names that it
does not know in each of these roles.  `Catalog.Adds` is one addition somewhere in an element;
`Catalog.Adds.alike` says that the element is read as before, errors included.  The bound on nested
messages has no part in it, since no message is nested deeper than its element
(`Catalog.readContentXml_eq_of_le`).

A message is read by setting slots, those of attributes first.  Where names are distinct the order
does not matter (`Catalog.foldl_fill_eq_of_perm`), so an attribute may as well be an element.
-/

namespace Missive

open Xml

namespace Xml.Element

theorem depth_le_deepest {elements : List Element} (h : e ∈ elements) :
    e.depth ≤ deepest elements := by
  induction elements with
  | nil => contradiction
  | cons first rest ih =>
      rw [deepest]
      obtain rfl | h := List.mem_cons.mp h
      · exact Nat.le_max_left _ _
      · exact Nat.le_trans (ih h) (Nat.le_max_right _ _)

theorem depth_lt_of_mem {e child : Element} (h : child ∈ e.elements) : child.depth < e.depth := by
  obtain ⟨name, attributes, text, elements⟩ := e
  rw [depth]
  exact Nat.lt_succ_of_le (depth_le_deepest h)

theorem depth_le_of_mem {e child : Element} (hmem : child ∈ e.elements) (h : e.depth ≤ n + 1) :
    child.depth ≤ n :=
  Nat.le_of_lt_succ (Nat.lt_of_lt_of_le (depth_lt_of_mem hmem) h)

theorem depth_pos (e : Element) : 0 < e.depth := by
  obtain ⟨name, attributes, text, elements⟩ := e
  rw [depth]
  exact Nat.succ_pos _

end Xml.Element

namespace Catalog

/-! ## additions -/

/-- What an element is read as. -/
inductive Role where
  /-- A message of a concrete type. -/
  | message (id : MessageId)
  /-- A member of a type, which the name of the element tells. -/
  | member (id : MessageId)
  /-- The value of a field. -/
  | field (slot : Slot)

/-- Something is added to an element that is read in a role, to it or somewhere inside it. -/
inductive Adds (c : Catalog) : Role → Element → Element → Prop where
  /-- An attribute of a message, under a name that no field has. -/
  | unknownAttribute {id name text elements} {pair : String × String}
    (before after : List (String × String)) (hname : pair.1 ∉ c.model.xmlNames id) :
    Adds c (.message id) ⟨name, before ++ after, text, elements⟩
      ⟨name, before ++ pair :: after, text, elements⟩
  /-- An element of a message, under a name that no field has.  It may cut the text. -/
  | unknownElement {id name attributes text text'} {child : Element}
    (before after : List Element) (hname : child.name ∉ c.model.xmlNames id) :
    Adds c (.message id) ⟨name, attributes, text, before ++ after⟩
      ⟨name, attributes, text', before ++ child :: after⟩
  /-- An item of an abstract type, under a name that no member has. -/
  | unknownItem {slot : Slot} {id name attributes text text'} {child : Element}
    (before after : List Element) (hplan : slot.plan = .repeated (.message id true))
    (hname : ∀ type ∈ c.members id, c.xmlElement type ≠ child.name) :
    Adds c (.field slot) ⟨name, attributes, text, before ++ after⟩
      ⟨name, attributes, text', before ++ child :: after⟩
  | inField {id slot name attributes text} {child child' : Element}
    (before after : List Element) (hslot : c.elementSlot? id child.name = some slot)
    (hadds : Adds c (.field slot) child child') :
    Adds c (.message id) ⟨name, attributes, text, before ++ child :: after⟩
      ⟨name, attributes, text, before ++ child' :: after⟩
  | inMember {id type} {e e' : Element} (hmember : c.memberOfElement? id e.name = some type)
    (hadds : Adds c (.message type) e e') : Adds c (.member id) e e'
  | inSingle {slot : Slot} {id} {e e' : Element} (hplan : slot.plan = .single (.message id false))
    (hadds : Adds c (.message id) e e') : Adds c (.field slot) e e'
  | inSingleMember {slot : Slot} {id name attributes text after} {child child' : Element}
    (hplan : slot.plan = .single (.message id true))
    (hadds : Adds c (.member id) child child') :
    Adds c (.field slot) ⟨name, attributes, text, child :: after⟩
      ⟨name, attributes, text, child' :: after⟩
  | inItem {slot : Slot} {id name attributes text} {child child' : Element}
    (before after : List Element) (hplan : slot.plan = .repeated (.message id false))
    (hadds : Adds c (.message id) child child') :
    Adds c (.field slot) ⟨name, attributes, text, before ++ child :: after⟩
      ⟨name, attributes, text, before ++ child' :: after⟩
  | inItemMember {slot : Slot} {id name attributes text} {child child' : Element}
    (before after : List Element) (hplan : slot.plan = .repeated (.message id true))
    (hadds : Adds c (.member id) child child') :
    Adds c (.field slot) ⟨name, attributes, text, before ++ child :: after⟩
      ⟨name, attributes, text, before ++ child' :: after⟩

/-- Two elements are read alike in a role. -/
def Alike (c : Catalog) (nested : NestedXml) : Role → Element → Element → Prop
  | .message id, e, e' => nested id e = nested id e'
  | .member id, e, e' => c.readMemberXml nested id e = c.readMemberXml nested id e'
  | .field slot, e, e' => c.readFieldXml nested slot e = c.readFieldXml nested slot e'

/-! ## depth -/

variable {c : Catalog} {m : Model} {schema : Schema} {id type : MessageId} {slot : Slot}
  {nested nested' : NestedXml} {e e' child child' : Element} {n n' : Nat}

/-- Two ways to read nested messages agree on the elements up to a depth. -/
def AgreeToDepth (n : Nat) (nested nested' : NestedXml) : Prop :=
  ∀ id e, e.depth ≤ n → nested id e = nested' id e

namespace AgreeToDepth

variable (h : AgreeToDepth n nested nested') (he : e.depth ≤ n)

include h he

theorem readMemberXml (id : MessageId) :
    c.readMemberXml nested id e = c.readMemberXml nested' id e := by
  unfold Catalog.readMemberXml
  split
  · rw [h _ e he]
  · rfl

theorem readFieldXml (slot : Slot) :
    c.readFieldXml nested slot e = c.readFieldXml nested' slot e := by
  have hchild : ∀ child ∈ e.elements, child.depth ≤ n := fun child hmem =>
    Element.depth_le_of_mem hmem (Nat.le_succ_of_le he)
  unfold Catalog.readFieldXml
  split
  · next id _ =>
      split
      · next child hfirst =>
          rw [h.readMemberXml (hchild child (List.mem_of_mem_head? hfirst)) id]
      · rfl
  · rw [h _ e he]
  · next id _ =>
      rw [Except.mapM_congr fun child hmem => h.readMemberXml (hchild child hmem) id]
  · next id _ => rw [Except.mapM_congr fun child hmem => h id child (hchild child hmem)]
  · rfl

theorem readElementXml (id : MessageId) (values : List Value) :
    c.readElementXml nested id values e = c.readElementXml nested' id values e := by
  unfold Catalog.readElementXml
  split
  · rw [h.readFieldXml he]
  · rfl

end AgreeToDepth

/-- No message is nested deeper than its element. -/
theorem readContentXml_eq_of_le (h : e.depth ≤ n) (h' : e.depth ≤ n') :
    c.readContentXml n id e = c.readContentXml n' id e := by
  have hpos := e.depth_pos
  induction n generalizing n' id e with
  | zero => omega
  | succ n ih =>
      obtain ⟨k, rfl⟩ : ∃ k, n' = k + 1 := ⟨n' - 1, by omega⟩
      have hagree : AgreeToDepth (min n k) (c.readContentXml n) (c.readContentXml k) :=
        fun id e he => ih (by omega) (by omega) e.depth_pos
      have hchild : ∀ child ∈ e.elements, child.depth ≤ min n k := by
        intro child hmem
        have hlt := Element.depth_lt_of_mem hmem
        omega
      rw [readContentXml, readContentXml]
      simp only [Except.foldlM_congr fun child hmem values =>
        hagree.readElementXml (hchild child hmem) id values]

/-! ## names that are not known -/

/-- A search by a name that no field has finds nothing. -/
theorem Lawful.find?_nearestFirst_eq_none {p : Slot → Bool} (hc : c.Lawful)
    (h : name ∉ c.model.xmlNames id) :
    (c.nearestFirst id).find? (fun slot => slot.xmlName == name && p slot) = none := by
  rw [← hc.map_xmlName] at h
  refine Option.eq_none_iff_forall_ne_some.mpr fun slot hslot => h ?_
  obtain ⟨hmem, rfl, -⟩ := hc.of_find?_nearestFirst hslot
  exact List.mem_map_of_mem hmem

theorem Lawful.attributeSlot?_eq_none (hc : c.Lawful) (h : name ∉ c.model.xmlNames id) :
    c.attributeSlot? id name = none := hc.find?_nearestFirst_eq_none h

theorem Lawful.elementSlot?_eq_none (hc : c.Lawful) (h : name ∉ c.model.xmlNames id) :
    c.elementSlot? id name = none := hc.find?_nearestFirst_eq_none h

theorem readMemberXml_stranger (h : ∀ type ∈ c.members id, c.xmlElement type ≠ e.name) :
    c.readMemberXml nested id e = .ok none := by
  have hnone : c.memberOfElement? id e.name = none := by
    rw [memberOfElement?, List.find?_eq_none]
    simpa using h
  rw [readMemberXml, hnone]

/-- Items that come to nothing are not in the list. -/
theorem filterMap_mapM_skip {f : α → Except ε (Option β)} (hx : f x = .ok none)
    (before after : List α) :
    (List.filterMap fun item => item) <$> (before ++ x :: after).mapM f =
      (List.filterMap fun item => item) <$> (before ++ after).mapM f := by
  rw [List.mapM_append, List.mapM_cons, hx, List.mapM_append]
  cases before.mapM f with
  | error error => rfl
  | ok items =>
      cases after.mapM f with
      | error error => rfl
      | ok items' => simp [Functor.map, Except.map]

/-! ## reading as before -/

theorem exists_eq_succ_of_depth_le (h : e.depth ≤ n) : ∃ k, n = k + 1 :=
  Nat.exists_eq_succ_of_ne_zero (Nat.ne_of_gt (Nat.lt_of_lt_of_le e.depth_pos h))

namespace Adds

theorem name_eq (h : c.Adds role e e') : e'.name = e.name := by
  induction h with
  | inMember _ _ ih => exact ih
  | inSingle _ _ ih => exact ih
  | unknownAttribute | unknownElement | unknownItem | inField | inSingleMember | inItem
  | inItemMember => rfl

/-- **One addition** leaves what is read. -/
theorem alike (hc : c.Lawful) (h : c.Adds role e e') (hdepth : e.depth ≤ n)
    (hdepth' : e'.depth ≤ n) : c.Alike (c.readContentXml n) role e e' := by
  induction h generalizing n with
  | @unknownAttribute id _ _ _ pair before after hname =>
      obtain ⟨n, rfl⟩ := exists_eq_succ_of_depth_le hdepth
      have hskip : ∀ values, c.readAttributeXml id values pair = .ok values := fun values => by
        rw [readAttributeXml, hc.attributeSlot?_eq_none hname]
        rfl
      rw [Alike, readContentXml, readContentXml, Except.foldlM_skip hskip]
  | @unknownElement id _ _ _ _ child before after hname =>
      obtain ⟨n, rfl⟩ := exists_eq_succ_of_depth_le hdepth
      have hskip : ∀ values,
          c.readElementXml (c.readContentXml n) id values child = .ok values := fun values => by
        rw [readElementXml, hc.elementSlot?_eq_none hname]
        rfl
      rw [Alike, readContentXml, readContentXml]
      simp only [Except.foldlM_skip hskip]
  | @inField id slot _ _ _ child child' before after hslot hadds ih =>
      obtain ⟨n, rfl⟩ := exists_eq_succ_of_depth_le hdepth
      have hfield : c.readFieldXml (c.readContentXml n) slot child =
          c.readFieldXml (c.readContentXml n) slot child' :=
        ih (Element.depth_le_of_mem List.mem_append_cons_self hdepth)
          (Element.depth_le_of_mem List.mem_append_cons_self hdepth')
      have hstep : ∀ values, c.readElementXml (c.readContentXml n) id values child =
          c.readElementXml (c.readContentXml n) id values child' := fun values => by
        rw [readElementXml, readElementXml, hadds.name_eq, hslot]
        simp only [hfield]
      rw [Alike, readContentXml, readContentXml]
      simp only [List.foldlM_append, List.foldlM_cons, hstep]
  | @inMember id type e e' hmember hadds ih =>
      have hmessage : c.readContentXml n type e = c.readContentXml n type e' := ih hdepth hdepth'
      rw [Alike, readMemberXml, readMemberXml, hadds.name_eq, hmember]
      simp only [hmessage]
  | @inSingle slot id e e' hplan hadds ih =>
      have hmessage : c.readContentXml n id e = c.readContentXml n id e' := ih hdepth hdepth'
      rw [Alike, readFieldXml, readFieldXml, hplan]
      simp only [hmessage]
  | @inSingleMember slot id _ _ _ _ child child' hplan hadds ih =>
      have hmember : c.readMemberXml (c.readContentXml n) id child =
          c.readMemberXml (c.readContentXml n) id child' :=
        ih (Element.depth_le_of_mem (.head _) (Nat.le_succ_of_le hdepth))
          (Element.depth_le_of_mem (.head _) (Nat.le_succ_of_le hdepth'))
      rw [Alike, readFieldXml, readFieldXml, hplan]
      simp only [Element.first?, List.head?_cons, hmember]
  | @inItem slot id _ _ _ child child' before after hplan hadds ih =>
      have hmessage : c.readContentXml n id child = c.readContentXml n id child' :=
        ih (Element.depth_le_of_mem List.mem_append_cons_self (Nat.le_succ_of_le hdepth))
          (Element.depth_le_of_mem List.mem_append_cons_self (Nat.le_succ_of_le hdepth'))
      rw [Alike, readFieldXml, readFieldXml, hplan]
      simp only [List.mapM_append, List.mapM_cons, hmessage]
  | @inItemMember slot id _ _ _ child child' before after hplan hadds ih =>
      have hmember : c.readMemberXml (c.readContentXml n) id child =
          c.readMemberXml (c.readContentXml n) id child' :=
        ih (Element.depth_le_of_mem List.mem_append_cons_self (Nat.le_succ_of_le hdepth))
          (Element.depth_le_of_mem List.mem_append_cons_self (Nat.le_succ_of_le hdepth'))
      rw [Alike, readFieldXml, readFieldXml, hplan]
      simp only [List.mapM_append, List.mapM_cons, hmember]
  | @unknownItem slot id _ _ _ _ child before after hplan hname =>
      have hitem : c.readMemberXml (c.readContentXml n) id child = .ok none :=
        readMemberXml_stranger hname
      have hitems := congrArg ((some <| Value.list ·) <$> ·)
        (filterMap_mapM_skip hitem before after).symm
      rw [Alike, readFieldXml, readFieldXml, hplan]
      simpa only [Functor.map_map] using hitems

end Adds

/-- The message of a concrete type in an element. -/
theorem ofXml_of_depth_le (hconcrete : (c.model.message id).isAbstract = false) (h : e.depth ≤ n) :
    c.ofXml id e = some <$> c.readContentXml n id e := by
  rw [ofXml, hconcrete, ← readContentXml_eq_of_le (Nat.le_refl _) h]
  rfl

/-- **Any number of additions** leaves the message. -/
theorem ofXml_of_adds (hc : c.Lawful) (hconcrete : (c.model.message id).isAbstract = false)
    (h : Relation.ReflTransGen (c.Adds (.message id)) e e') : c.ofXml id e' = c.ofXml id e := by
  induction h with
  | refl => rfl
  | @tail e₁ e₂ _ hadds ih =>
      have hread : c.readContentXml (max e₁.depth e₂.depth) id e₁ =
          c.readContentXml (max e₁.depth e₂.depth) id e₂ :=
        hadds.alike hc (Nat.le_max_left _ _) (Nat.le_max_right _ _)
      rw [← ih, ofXml_of_depth_le hconcrete (Nat.le_max_right e₁.depth e₂.depth), ← hread,
        ← ofXml_of_depth_le hconcrete (Nat.le_max_left e₁.depth e₂.depth)]

/-! ## settings -/

/-- A slot by its position with the value that it gets, if it gets one. -/
abbrev Setting := Option (Nat × Value)

/-- Values with one more setting. -/
def fill (values : List Value) : Setting → List Value
  | some (position, value) => values.set position value
  | none => values

/-- What an attribute sets. -/
def attributeSetting (c : Catalog) (id : MessageId) (pair : String × String) :
    Except ReadError Setting :=
  match c.attributeSlot? id pair.1 with
  | some slot =>
    match slot.plan.textual? with
    | some (value, isList) =>
      (fun read => some (slot.position, read)) <$> c.readText slot.xmlName pair.2 value isList
    | none => .ok none
  | none => .ok none

/-- What an element inside sets. -/
def elementSetting (c : Catalog) (nested : NestedXml) (id : MessageId) (e : Element) :
    Except ReadError Setting :=
  match c.elementSlot? id e.name with
  | some slot => Option.map (slot.position, ·) <$> c.readFieldXml nested slot e
  | none => .ok none

/-- What the attributes and elements of an element set, in the order of reading. -/
def settings (c : Catalog) (nested : NestedXml) (id : MessageId) (e : Element) :
    List (Except ReadError Setting) :=
  e.attributes.map (c.attributeSetting id) ++ e.elements.map (c.elementSetting nested id)

theorem readAttributeXml_eq (values : List Value) (pair : String × String) :
    c.readAttributeXml id values pair = fill values <$> c.attributeSetting id pair := by
  unfold readAttributeXml attributeSetting
  cases c.attributeSlot? id pair.1 with
  | none => rfl
  | some slot =>
      cases hplan : slot.plan.textual? with
      | none =>
          simp only [hplan]
          rfl
      | some entry =>
          obtain ⟨value, isList⟩ := entry
          simp only [hplan]
          cases c.readText slot.xmlName pair.2 value isList <;> rfl

theorem readElementXml_eq (values : List Value) (e : Element) :
    c.readElementXml nested id values e = fill values <$> c.elementSetting nested id e := by
  unfold readElementXml elementSetting
  cases c.elementSlot? id e.name with
  | none => rfl
  | some slot =>
      simp only
      cases c.readFieldXml nested slot e with
      | error error => rfl
      | ok value => cases value <;> rfl

/-- A message has what its settings make of the values that fields start with. -/
theorem readContentXml_eq_ok_iff : c.readContentXml (n + 1) id e = .ok message ↔
    ∃ made, List.Forall₂ (· = .ok ·) (c.settings (c.readContentXml n) id e) made ∧
      message = ⟨id, made.foldl fill (c.new id).fields⟩ := by
  have hfold : c.readContentXml (n + 1) id e = (fun fields => Message.mk id fields) <$>
      (c.settings (c.readContentXml n) id e).foldlM (fun values result => fill values <$> result)
        (c.new id).fields := by
    rw [readContentXml, settings, List.foldlM_append, List.foldlM_map, map_bind]
    simp only [List.foldlM_map, ← readAttributeXml_eq, ← readElementXml_eq]
    rfl
  rw [hfold, Except.map_eq_ok_iff]
  simp only [Except.foldlM_results_eq_ok_iff]
  constructor
  · rintro ⟨_, ⟨made, hmade, rfl⟩, rfl⟩
    exact ⟨made, hmade, rfl⟩
  · rintro ⟨made, hmade, rfl⟩
    exact ⟨_, ⟨made, hmade, rfl⟩, rfl⟩

/-! ## the order of settings -/

/-- A setting is of a field that has a name. -/
def SetsUnder (c : Catalog) (id : MessageId) (name : String) (setting : Setting) : Prop :=
  ∀ entry ∈ setting, ∃ slot ∈ c.slots id, slot.xmlName = name ∧ slot.position = entry.1

theorem setsUnder_attribute (hc : c.Lawful) (h : c.attributeSetting id pair = .ok setting) :
    c.SetsUnder id pair.1 setting := by
  rintro entry rfl
  unfold attributeSetting at h
  split at h
  · next slot hslot =>
      obtain ⟨hmem, hname, -⟩ := hc.of_attributeSlot? hslot
      split at h
      · obtain ⟨value, -, hentry⟩ := Except.map_eq_ok_iff.mp h
        cases hentry
        exact ⟨slot, hmem, hname, rfl⟩
      · cases h
  · cases h

theorem setsUnder_element (hc : c.Lawful) (h : c.elementSetting nested id e = .ok setting) :
    c.SetsUnder id e.name setting := by
  rintro entry rfl
  unfold elementSetting at h
  split at h
  · next slot hslot =>
      obtain ⟨hmem, hname, -⟩ := hc.of_elementSlot? hslot
      obtain ⟨value, -, hentry⟩ := Except.map_eq_ok_iff.mp h
      obtain ⟨value, -, rfl⟩ := Option.map_eq_some_iff.mp hentry
      exact ⟨slot, hmem, hname, rfl⟩
  · cases h

/-- Each setting is of a field that has the name of its attribute or element. -/
theorem forall₂_setsUnder (hc : c.Lawful)
    (h : List.Forall₂ (· = .ok ·) (c.settings nested id e) made) :
    List.Forall₂ (c.SetsUnder id) (e.attributes.map Prod.fst ++ e.elements.map Element.name)
      made := by
  have hparts : List.Forall₂
      (fun name result => ∀ setting, result = .ok setting → c.SetsUnder id name setting)
      (e.attributes.map Prod.fst ++ e.elements.map Element.name) (c.settings nested id e) := by
    refine List.rel_append ?_ ?_
    · rw [List.forall₂_map_left_iff, List.forall₂_map_right_iff]
      exact List.forall₂_same.mpr fun pair _ setting => setsUnder_attribute hc
    · rw [List.forall₂_map_left_iff, List.forall₂_map_right_iff]
      exact List.forall₂_same.mpr fun child _ setting => setsUnder_element hc
  exact forall₂_trans (fun _ _ _ hset hresult => hset _ hresult) hparts h

theorem fill_comm (hc : c.Lawful) (hne : name ≠ name') (h : c.SetsUnder id name setting)
    (h' : c.SetsUnder id name' setting') (values : List Value) :
    fill (fill values setting) setting' = fill (fill values setting') setting := by
  cases setting with
  | none => rfl
  | some entry =>
      cases setting' with
      | none => rfl
      | some entry' =>
          obtain ⟨slot, hslot, rfl, hposition⟩ := h entry rfl
          obtain ⟨slot', hslot', rfl, hposition'⟩ := h' entry' rfl
          refine List.set_comm _ _ fun heq => hne ?_
          rw [← hposition, ← hposition'] at heq
          rw [hc.eq_of_position hslot hslot' heq]

/-- Settings of attributes and elements with distinct names come to the same in any order. -/
theorem foldl_fill_eq_of_perm (hc : c.Lawful)
    (hnames : (e.attributes.map Prod.fst ++ e.elements.map Element.name).Nodup)
    (h : List.Forall₂ (· = .ok ·) (c.settings nested id e) made) (hperm : made.Perm made')
    (values : List Value) : made.foldl fill values = made'.foldl fill values := by
  have hpairwise : made.Pairwise fun setting setting' => ∀ values,
      fill (fill values setting) setting' = fill (fill values setting') setting :=
    pairwise_of_forall₂ (forall₂_setsUnder hc h) hnames fun _ _ _ _ hset hset' hne =>
      fill_comm hc hne hset hset'
  have hsymm : Std.Symm fun setting setting' : Setting => ∀ values,
      fill (fill values setting) setting' = fill (fill values setting') setting :=
    ⟨fun _ _ hcomm values => (hcomm values).symm⟩
  have hcomm := hpairwise.forall_of_forall fun _ _ _ => rfl
  exact hperm.foldl_eq' (fun setting hsetting setting' hsetting' => hcomm hsetting hsetting') values

/-! ## attributes and elements -/

theorem isMap_of_textual? {plan : FieldPlan} (h : plan.textual? = some entry) :
    plan.isMap = false := by
  cases plan with
  | single value => rfl
  | repeated element => rfl
  | map key value => cases h

theorem readFieldXml_textual (h : slot.plan.textual? = some (value, isList)) :
    c.readFieldXml nested slot e = some <$> c.readText slot.xmlName e.text value isList := by
  unfold readFieldXml
  split
  case h_5 => rw [h]
  -- the other plans are of messages, which have no text
  all_goals
    next hplan =>
      rw [hplan] at h
      cases h

/-- An attribute and an element with the same text come to the same setting. -/
theorem attributeSetting_eq (hc : c.Lawful) (hnames : (c.model.xmlNames id).Nodup)
    (hslot : slot ∈ c.slots id) (htextual : slot.plan.textual?.isSome = true)
    (hname : child.name = slot.xmlName) :
    c.attributeSetting id (slot.xmlName, child.text) = c.elementSetting nested id child := by
  obtain ⟨⟨value, isList⟩, hplan⟩ := Option.isSome_iff_exists.mp htextual
  rw [attributeSetting, hc.attributeSlot?_of_nodup hnames hslot htextual, elementSetting, hname,
    hc.elementSlot?_of_nodup hnames hslot (isMap_of_textual? hplan)]
  simp only [hplan, readFieldXml_textual hplan, Functor.map_map, Option.map_some]

/-- An attribute may as well be an element, wherever it stands among the others. -/
theorem ofXml_eq_ok_iff_element {before after : List (String × String)} {left right : List Element}
    (hc : c.Lawful) (hconcrete : (c.model.message id).isAbstract = false)
    (hnames : (c.model.xmlNames id).Nodup)
    (hdistinct : (e.attributes.map Prod.fst ++ e.elements.map Element.name).Nodup)
    (hslot : slot ∈ c.slots id) (htextual : slot.plan.textual?.isSome = true)
    (hattributes : e.attributes = before ++ (slot.xmlName, child.text) :: after)
    (helements : e.elements = left ++ right) (hname : child.name = slot.xmlName) (text : String) :
    c.ofXml id e = .ok r ↔
      c.ofXml id ⟨e.name, before ++ after, text, left ++ child :: right⟩ = .ok r := by
  generalize he' : (⟨e.name, before ++ after, text, left ++ child :: right⟩ : Element) = e'
  obtain ⟨n, hn⟩ := exists_eq_succ_of_depth_le (Nat.le_max_left e.depth e'.depth)
  rw [ofXml_of_depth_le hconcrete (Nat.le_max_left e.depth e'.depth),
    ofXml_of_depth_le hconcrete (Nat.le_max_right e.depth e'.depth), hn]
  have hperm : (c.settings (c.readContentXml n) id e).Perm
      (c.settings (c.readContentXml n) id e') := by
    rw [settings, settings, hattributes, helements, ← he']
    have heq : c.attributeSetting id (slot.xmlName, child.text) =
        c.elementSetting (c.readContentXml n) id child :=
      attributeSetting_eq hc hnames hslot htextual hname
    simp only [List.map_append, List.map_cons, heq, List.append_assoc, List.cons_append]
    refine List.Perm.append_left _ ?_
    rw [← List.append_assoc, ← List.append_assoc]
    exact List.perm_middle.symm
  have hread : ∀ message, c.readContentXml (n + 1) id e = .ok message ↔
      c.readContentXml (n + 1) id e' = .ok message := by
    intro message
    rw [readContentXml_eq_ok_iff, readContentXml_eq_ok_iff]
    constructor
    · rintro ⟨made, hmade, rfl⟩
      obtain ⟨made', hmade', hsame⟩ := List.perm_comp_forall₂ hperm.symm hmade
      exact ⟨made', hmade', by rw [foldl_fill_eq_of_perm hc hdistinct hmade hsame.symm]⟩
    · rintro ⟨made', hmade', rfl⟩
      obtain ⟨made, hmade, hsame⟩ := List.perm_comp_forall₂ hperm hmade'
      exact ⟨made, hmade, by rw [foldl_fill_eq_of_perm hc hdistinct hmade hsame]⟩
  simp only [Except.map_eq_ok_iff, hread]

/-- **XML is read with tolerance.**  Whatever is added under names that are not known, to the
element of a message or at any depth inside it, the same is read, errors included.  And where the
fields of a message have distinct names, and the attributes and elements in its element have, a
value in an attribute may as well be the text of an element, as long as all values can be read. -/
theorem ofXml_tolerant (hm : Model.ofSchema schema = .ok m) (hc : ofModel m = .ok c)
    (hconcrete : (m.message id).isAbstract = false) (e : Element) :
    (∀ e', Relation.ReflTransGen (c.Adds (.message id)) e e' → c.ofXml id e' = c.ofXml id e) ∧
    ((m.xmlNames id).Nodup → (e.attributes.map Prod.fst ++ e.elements.map Element.name).Nodup →
      ∀ slot ∈ c.slots id, slot.plan.textual?.isSome = true → ∀ child : Element,
      child.name = slot.xmlName → ∀ before after left right text,
      e.attributes = before ++ (slot.xmlName, child.text) :: after → e.elements = left ++ right →
      ∀ r, c.ofXml id e = .ok r ↔
        c.ofXml id ⟨e.name, before ++ after, text, left ++ child :: right⟩ = .ok r) := by
  have hlawful := lawful_of_ofSchema hm hc
  obtain rfl := model_of_ofModel hc
  refine ⟨fun e' => ofXml_of_adds hlawful hconcrete, ?_⟩
  intro hnames hdistinct slot hslot htextual child hname before after left right text
    hattributes helements r
  exact ofXml_eq_ok_iff_element hlawful hconcrete hnames hdistinct hslot htextual hattributes
    helements hname text

/-- A wolf with a dog in its pack. -/
def wolf : Element :=
  ⟨"lupus", [("name", "Akela")], "", [⟨"pack", [], "", [⟨"dog", [("race", "collie")], "", []⟩]⟩]⟩

theorem ofXml_tolerant_zoo : ∃ m c, Model.ofSchema Example.zoo = .ok m ∧ ofModel m = .ok c ∧
    (c.ofXml 4 wolf).toOption.isSome = true ∧
    c.ofXml 4 ⟨"lupus", [("name", "Akela")], "", [⟨"pack", [], "",
      [⟨"cat", [], "", []⟩, ⟨"dog", [("race", "collie"), ("colour", "red")], "", []⟩]⟩]⟩ =
        c.ofXml 4 wolf ∧
    ∀ r, c.ofXml 4 wolf = .ok r ↔ c.ofXml 4 ⟨"lupus", [], "",
      [⟨"pack", [], "", [⟨"dog", [("race", "collie")], "", []⟩]⟩,
        ⟨"name", [], "Akela", []⟩]⟩ = .ok r := by
  have hcatalog : (ofSchema? Example.zoo).any (fun c => decide
      ((c.model.message 4).isAbstract = false ∧ (c.model.xmlNames 4).Nodup ∧
        "colour" ∉ c.model.xmlNames 1 ∧ c.memberOfElement? 0 "dog" = some 1 ∧
        (∀ type ∈ c.members 0, c.xmlElement type ≠ "cat") ∧
        (c.elementSlot? 4 "pack").map (·.plan) = some (.repeated (.message 0 true)) ∧
        (c.attributeSlot? 4 "name").isSome = true ∧
        (c.ofXml 4 wolf).toOption.isSome = true)) = true := by
    decide +kernel
  obtain ⟨m, c, hm, hc, hfacts⟩ := exists_of_any hcatalog
  obtain ⟨hconcrete, hnames, hcolour, hdog, hcat, hpack, hname, hread⟩ := of_decide_eq_true hfacts
  have hlawful := lawful_of_ofSchema hm hc
  obtain rfl := model_of_ofModel hc
  obtain ⟨pack, hfound, hplan⟩ := Option.map_eq_some_iff.mp hpack
  obtain ⟨slot, hslot⟩ := Option.isSome_iff_exists.mp hname
  obtain ⟨hmem, hslotName, htextual⟩ := hlawful.of_attributeSlot? hslot
  obtain ⟨hadded, helement⟩ := ofXml_tolerant hm hc hconcrete wolf
  refine ⟨_, c, hm, hc, hread, hadded _ ?_, ?_⟩
  · -- the colour of the dog first, then the cat
    have hdogs : c.Adds (.message 4) wolf ⟨"lupus", [("name", "Akela")], "", [⟨"pack", [], "",
        [⟨"dog", [("race", "collie"), ("colour", "red")], "", []⟩]⟩]⟩ :=
      .inField [] [] hfound (.inItemMember [] [] hplan (.inMember hdog
        (.unknownAttribute [("race", "collie")] [] hcolour)))
    exact .tail (.single hdogs) (.inField [] [] hfound (.unknownItem [] _ hplan hcat))
  · exact helement hnames (by simp [wolf]) slot hmem htextual ⟨"name", [], "Akela", []⟩
      hslotName.symm [] [] wolf.elements [] "" (by rw [hslotName]; rfl) (by simp)

end Catalog

end Missive
