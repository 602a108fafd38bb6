import Missive.Example
import Missive.Message.Xml
import Missive.Proofs.Message.Catalog
import Missive.Proofs.Model.Identifiers
import Missive.Proofs.Source.Supported
import Missive.Proofs.Text.Words

/-!
# Missive.Proofs.Message.XmlNames

Fields and members of families, found by their names in XML.

Options may give any name, and no name in XML is refused.  An element goes to the nearest field of
its name and stands for the first member of its name.  So every field and every member is found if
the names are distinct, and only then; what is not found, no document can give
(`Catalog.FindsFields`, `Catalog.FindsMembers`).

Without options the checks on other names are enough.  Fields that clash in XML clash as getters,
and members of ASCII names that do have one type in the emitted code.
-/

namespace Missive

open Text

namespace Model

variable {m : Model} {schema : Schema} {id : MessageId} {f g : MessageId × Field}
  {options options' : Options} {name name' : String}

/-- The names in XML of the fields of a message, inherited or its own. -/
def xmlNames (m : Model) (id : MessageId) : List String :=
  (m.allFields id).map fun entry => xmlNameOf entry.2.options entry.2.name

/-- The elements of the concrete messages that extend a message. -/
def xmlElements (m : Model) (id : MessageId) : List String :=
  (m.concreteDescendants id).map fun type =>
    xmlNameOf (m.message type).options (m.message type).name

/-! ## names that clash -/

/-- Names that no option for XML gives are one if those in JSON are, or those in another case. -/
theorem of_xmlNameOf_eq (h : xmlNameOf options name = xmlNameOf options' name')
    (hxml : options.text? xmlNameOption = none) (hxml' : options'.text? xmlNameOption = none)
    (hname : (options.text? nameOption).isSome = (options'.text? nameOption).isSome) :
    jsonNameOf options name = jsonNameOf options' name' ∨ kebabCase name = kebabCase name' := by
  unfold xmlNameOf at h
  rw [hxml, hxml'] at h
  unfold jsonNameOf
  cases hgiven : options.text? nameOption with
  | some text =>
      rw [hgiven] at h hname
      obtain ⟨text', hgiven'⟩ := Option.isSome_iff_exists.mp hname.symm
      rw [hgiven'] at h ⊢
      exact .inl h
  | none =>
      rw [hgiven] at h hname
      have hgiven' : options'.text? nameOption = none :=
        Option.not_isSome_iff_eq_none.mp (by simp [← hname])
      rw [hgiven'] at h
      exact .inr h

theorem key_eq_of_mem_allFields (h : m.AllNumbered) (hf : f ∈ m.allFields id) :
    f.2.key = jsonNameOf f.2.options f.2.name := by
  obtain ⟨drafts, hnone, hnumbered⟩ := h f.1
  obtain ⟨f₀, -, hf₀⟩ := exists_of_forall₂ (hnumbered.forall₂_isIdentified hnone)
    (mem_allFields.mp hf).2
  rw [hf₀.same]
  rfl

/-- Two fields of a message have one name in XML only if an option for XML gives it to one of them,
or an option for every format to one of them and not to the other. -/
theorem isSome_of_xmlNameOf_eq (hm : ofSchema schema = .ok m) (hf : f ∈ m.allFields id)
    (hg : g ∈ m.allFields id) (hne : f ≠ g)
    (heq : xmlNameOf f.2.options f.2.name = xmlNameOf g.2.options g.2.name) :
    (f.2.options.text? xmlNameOption).isSome ∨ (g.2.options.text? xmlNameOption).isSome ∨
      (f.2.options.text? nameOption).isSome ≠ (g.2.options.text? nameOption).isSome := by
  obtain ⟨draft, hpasses⟩ := passes_of_ofSchema hm
  have hforest := hpasses.isForest
  have hnumbered := hpasses.allNumbered
  by_contra hnot
  simp only [not_or, Option.not_isSome_iff_eq_none, not_not, ne_eq] at hnot
  obtain ⟨hxml, hxml', hname⟩ := hnot
  obtain hkey | hcase := of_xmlNameOf_eq heq hxml hxml' hname
  · rw [← key_eq_of_mem_allFields hnumbered hf, ← key_eq_of_mem_allFields hnumbered hg] at hkey
    exact hne (List.inj_on_of_nodup_map (nodup_keys hforest hnumbered id) hf hg hkey)
  · have hgetter : Source.fieldName f.2.name = Source.fieldName g.2.name := by
      rw [Source.fieldName, Source.fieldStem, kebabCase_eq_iff.mp hcase]
      rfl
    exact hne (List.inj_on_of_nodup_map (nodup_getters hforest hnumbered id) hf hg hgetter)

/-- An option says what something is called in XML. -/
def IsRenamed (options : Options) : Prop :=
  (options.text? xmlNameOption).isSome ∨ (options.text? nameOption).isSome

/-- Messages of ASCII names that no option changes have one element only if they have one type. -/
theorem typeName_eq_of_xmlNameOf_eq (h : xmlNameOf options name = xmlNameOf options' name')
    (hoptions : ¬ IsRenamed options) (hoptions' : ¬ IsRenamed options') (hname : IsAscii name)
    (hname' : IsAscii name') : Source.typeName name = Source.typeName name' := by
  simp only [IsRenamed, not_or, Option.not_isSome_iff_eq_none] at hoptions hoptions'
  have hcase : kebabCase name = kebabCase name' := by
    rwa [xmlNameOf, xmlNameOf, hoptions.1, hoptions.2, hoptions'.1, hoptions'.2] at h
  rw [Source.typeName,
    camelCase_eq_of_snakeCase_eq hname hname' (kebabCase_eq_iff.mp hcase)]
  rfl

end Model

namespace Catalog

variable {c : Catalog} {m : Model} {schema : Schema} {id type : MessageId} {slot other : Slot}
  {values values' : List Value} {nested : NestedXml}

/-! ## looking up fields -/

namespace Lawful

variable (hc : c.Lawful)

include hc

theorem mem_nearestFirst : slot ∈ c.nearestFirst id ↔ slot ∈ c.slots id := by
  rw [nearestFirst, List.mem_flatMap]
  constructor
  · rintro ⟨owner, -, hslot⟩
    exact (List.mem_filter.mp hslot).1
  · intro hslot
    refine ⟨slot.owner, ?_, List.mem_filter.mpr ⟨hslot, beq_self_eq_true _⟩⟩
    obtain ⟨hancestor | hself, -⟩ := Model.mem_allFields.mp (hc.mem_allFields hslot)
    · exact .tail _ (Model.mem_ancestors.mp hancestor)
    · exact hself ▸ .head _

theorem map_xmlName (id : MessageId) : (c.slots id).map Slot.xmlName = c.model.xmlNames id := by
  rw [Model.xmlNames, ← hc.fields, List.map_map]
  rfl

theorem nodup_slots (id : MessageId) : (c.slots id).Nodup := (hc.nodup_keys id).of_map _

/-- What a search by name finds has the name, and what else is asked of it. -/
theorem of_find?_nearestFirst {p : Slot → Bool}
    (h : (c.nearestFirst id).find? (fun slot => slot.xmlName == name && p slot) = some slot) :
    slot ∈ c.slots id ∧ slot.xmlName = name ∧ p slot = true := by
  have hname := List.find?_some h
  rw [Bool.and_eq_true, beq_iff_eq] at hname
  exact ⟨hc.mem_nearestFirst.mp (List.mem_of_find?_eq_some h), hname⟩

/-- Where names are distinct, a field is found by its name. -/
theorem find?_nearestFirst_of_nodup {p : Slot → Bool} (h : (c.model.xmlNames id).Nodup)
    (hslot : slot ∈ c.slots id) (hp : p slot = true) :
    (c.nearestFirst id).find? (fun other => other.xmlName == slot.xmlName && p other) =
      some slot := by
  rw [← hc.map_xmlName] at h
  refine find?_eq_some_of_unique (hc.mem_nearestFirst.mpr hslot) (by simp [hp]) ?_
  intro other hother hname
  rw [Bool.and_eq_true, beq_iff_eq] at hname
  exact List.inj_on_of_nodup_map h (hc.mem_nearestFirst.mp hother) hslot hname.1

theorem of_elementSlot? (h : c.elementSlot? id name = some slot) :
    slot ∈ c.slots id ∧ slot.xmlName = name ∧ slot.plan.isMap = false := by
  obtain ⟨hmem, hname, hmap⟩ := hc.of_find?_nearestFirst h
  exact ⟨hmem, hname, by simpa using hmap⟩

theorem of_attributeSlot? (h : c.attributeSlot? id name = some slot) :
    slot ∈ c.slots id ∧ slot.xmlName = name ∧ slot.plan.textual?.isSome = true :=
  hc.of_find?_nearestFirst h

theorem elementSlot?_of_nodup (h : (c.model.xmlNames id).Nodup) (hslot : slot ∈ c.slots id)
    (hmap : slot.plan.isMap = false) : c.elementSlot? id slot.xmlName = some slot :=
  hc.find?_nearestFirst_of_nodup h hslot (by simp [hmap])

theorem attributeSlot?_of_nodup (h : (c.model.xmlNames id).Nodup) (hslot : slot ∈ c.slots id)
    (htext : slot.plan.textual?.isSome = true) :
    c.attributeSlot? id slot.xmlName = some slot :=
  hc.find?_nearestFirst_of_nodup h hslot htext

theorem getElem?_new (hslot : slot ∈ c.slots id) :
    (c.new id).fields[slot.position]? = some slot.plan.initial := by
  rw [new, List.getElem?_map, hc.getElem?_position hslot, Option.map_some]

end Lawful

/-! ## what reading sets -/

/-- Setting one slot leaves the others. -/
theorem Lawful.getElem?_set (hc : c.Lawful) (hslot : slot ∈ c.slots id)
    (hother : other ∈ c.slots id) (hne : slot ≠ other) (value : Value) :
    (values.set other.position value)[slot.position]? = values[slot.position]? :=
  List.getElem?_set_ne fun heq => hne (hc.eq_of_position hslot hother heq.symm)

theorem readAttributeXml_keeps (hc : c.Lawful) (hslot : slot ∈ c.slots id)
    (hhidden : c.attributeSlot? id pair.1 ≠ some slot)
    (h : c.readAttributeXml id values pair = .ok values') :
    values'[slot.position]? = values[slot.position]? := by
  unfold readAttributeXml at h
  split at h
  · next found hfound =>
      split at h
      · obtain ⟨value, -, hset⟩ := Except.bind_eq_ok h
        cases hset
        refine hc.getElem?_set hslot (hc.of_attributeSlot? hfound).1 (fun heq => hhidden ?_) value
        rw [hfound, heq]
      · cases h
        rfl
  · cases h
    rfl

theorem readElementXml_keeps (hc : c.Lawful) (hslot : slot ∈ c.slots id)
    (hhidden : c.elementSlot? id e.name ≠ some slot)
    (h : c.readElementXml nested id values e = .ok values') :
    values'[slot.position]? = values[slot.position]? := by
  unfold readElementXml at h
  split at h
  · next found hfound =>
      obtain ⟨value, -, hset⟩ := Except.bind_eq_ok h
      split at hset
      · next value =>
          cases hset
          refine hc.getElem?_set hslot (hc.of_elementSlot? hfound).1 (fun heq => hhidden ?_) value
          rw [hfound, heq]
      · cases hset
        rfl
  · cases h
    rfl

/-- A field that neither elements nor attributes are found for keeps the value that it starts
with. -/
theorem readContentXml_hidden (hc : c.Lawful) (hslot : slot ∈ c.slots id)
    (hhidden : ∀ name, c.elementSlot? id name ≠ some slot ∧ c.attributeSlot? id name ≠ some slot)
    (h : c.readContentXml depth id e = .ok message) :
    message.fields[slot.position]? = some slot.plan.initial := by
  cases depth with
  | zero =>
      cases h
      exact hc.getElem?_new hslot
  | succ depth =>
      obtain ⟨values, hattributes, h'⟩ := Except.bind_eq_ok h
      obtain ⟨values', helements, h''⟩ := Except.bind_eq_ok h'
      cases h''
      rw [Except.eq_of_foldlM_eq_ok (g := (·[slot.position]?))
          (fun _ _ _ _ => readElementXml_keeps hc hslot (hhidden _).1) helements,
        Except.eq_of_foldlM_eq_ok (g := (·[slot.position]?))
          (fun _ _ _ _ => readAttributeXml_keeps hc hslot (hhidden _).2) hattributes]
      exact hc.getElem?_new hslot

theorem type_of_readContentXml (h : c.readContentXml depth id e = .ok message) :
    message.type = id := by
  cases depth with
  | zero => cases h; rfl
  | succ depth =>
      obtain ⟨values, -, h'⟩ := Except.bind_eq_ok h
      obtain ⟨values', -, h''⟩ := Except.bind_eq_ok h'
      cases h''
      rfl

/-! ## fields and members by their names -/

/-- The first element with a mark. -/
theorem exists_find?_first {f : α → String} {xs : List α} (hx : x ∈ xs) : ∃ before found after,
    xs = before ++ found :: after ∧ (∀ y ∈ before, f y ≠ f x) ∧ f found = f x ∧
      xs.find? (f · == f x) = some found := by
  have hsome : (xs.find? (f · == f x)).isSome := by
    rw [List.find?_isSome]
    exact ⟨x, hx, beq_self_eq_true _⟩
  obtain ⟨found, hfound⟩ := Option.isSome_iff_exists.mp hsome
  obtain ⟨hname, before, after, hsplit, hbefore⟩ := List.find?_eq_some_iff_append.mp hfound
  exact ⟨before, found, after, hsplit, by simpa using hbefore, by simpa using hname, hfound⟩

/-- How the fields of a message are found. -/
structure FindsFields (c : Catalog) (id : MessageId) : Prop where
  /-- An element goes to the nearest field of its name. -/
  nearest : ∀ slot ∈ c.slots id, ∃ before found after,
    c.nearestFirst id = before ++ found :: after ∧
      (∀ other ∈ before, other.xmlName ≠ slot.xmlName) ∧ found.xmlName = slot.xmlName ∧
      c.elementSlot? id slot.xmlName = some found
  /-- Every field is found where the names are distinct, and only there. -/
  all_iff : (∀ slot ∈ c.slots id, c.elementSlot? id slot.xmlName = some slot) ↔
    (c.model.xmlNames id).Nodup
  /-- Attributes find the fields that are written as text, where the names are distinct. -/
  attributes : (c.model.xmlNames id).Nodup → ∀ slot ∈ c.slots id,
    slot.plan.textual?.isSome = true → c.attributeSlot? id slot.xmlName = some slot
  /-- A field that is not found has the value that it starts with, whatever is read. -/
  hidden : ∀ slot ∈ c.slots id,
    (∀ name, c.elementSlot? id name ≠ some slot ∧ c.attributeSlot? id name ≠ some slot) →
    ∀ depth e message, c.readContentXml depth id e = .ok message →
      message.fields[slot.position]? = some slot.plan.initial
  /-- Names that clash come from options. -/
  renamed : ∀ f ∈ c.model.allFields id, ∀ g ∈ c.model.allFields id, f ≠ g →
    Model.xmlNameOf f.2.options f.2.name = Model.xmlNameOf g.2.options g.2.name →
    (f.2.options.text? Model.xmlNameOption).isSome ∨
      (g.2.options.text? Model.xmlNameOption).isSome ∨
      (f.2.options.text? Model.nameOption).isSome ≠ (g.2.options.text? Model.nameOption).isSome

/-- How the members of a family are found. -/
structure FindsMembers (c : Catalog) (id : MessageId) : Prop where
  /-- An element stands for the first member of its name. -/
  first : ∀ type ∈ c.model.concreteDescendants id, ∃ before found after,
    c.model.concreteDescendants id = before ++ found :: after ∧
      (∀ other ∈ before, c.xmlElement other ≠ c.xmlElement type) ∧
      c.xmlElement found = c.xmlElement type ∧
      c.memberOfElement? id (c.xmlElement type) = some found
  /-- Every member is found where the names are distinct, and only there. -/
  all_iff : (∀ type ∈ c.model.concreteDescendants id,
      c.memberOfElement? id (c.xmlElement type) = some type) ↔ (c.model.xmlElements id).Nodup
  /-- Nothing is read as a member that is not found. -/
  hidden : ∀ type, c.memberOfElement? id (c.xmlElement type) ≠ some type →
    ∀ e message, c.ofXml id e = .ok (some message) → message.type ≠ type
  /-- Names that clash come from options, or the types have one name as well. -/
  renamed : ∀ type other, c.xmlElement type = c.xmlElement other →
    Model.IsRenamed (c.model.message type).options ∨
      Model.IsRenamed (c.model.message other).options ∨
      (IsAscii (c.model.message type).name → IsAscii (c.model.message other).name →
        Source.typeName (c.model.message type).name =
          Source.typeName (c.model.message other).name)

theorem findsFields_of_ofSchema (hm : Model.ofSchema schema = .ok m) (hc : ofModel m = .ok c)
    (hmaps : ∀ slot ∈ c.slots id, slot.plan.isMap = false) : c.FindsFields id := by
  have hlawful := lawful_of_ofSchema hm hc
  obtain rfl := model_of_ofModel hc
  have hfind : ∀ name, c.elementSlot? id name =
      (c.nearestFirst id).find? (Slot.xmlName · == name) := fun name =>
    List.find?_congr fun slot hslot => by
      rw [hmaps slot (hlawful.mem_nearestFirst.mp hslot), Bool.not_false, Bool.and_true]
  refine ⟨fun slot hslot => ?_, ⟨fun h => ?_, fun h slot hslot => ?_⟩, fun h slot hslot htext => ?_,
    fun slot hslot hhidden depth e message h => ?_, fun f hf g hg hne heq => ?_⟩
  · obtain ⟨before, found, after, hsplit, hbefore, hname, hfound⟩ :=
      exists_find?_first (f := Slot.xmlName) (hlawful.mem_nearestFirst.mpr hslot)
    exact ⟨before, found, after, hsplit, hbefore, hname, (hfind _).trans hfound⟩
  · rw [← hlawful.map_xmlName]
    refine (hlawful.nodup_slots id).map_on fun slot hslot other hother heq => ?_
    have hfound := h slot hslot
    rw [heq, h other hother] at hfound
    exact (Option.some.inj hfound).symm
  · exact hlawful.elementSlot?_of_nodup h hslot (hmaps slot hslot)
  · exact hlawful.attributeSlot?_of_nodup h hslot htext
  · exact readContentXml_hidden hlawful hslot hhidden h
  · exact Model.isSome_of_xmlNameOf_eq hm hf hg hne heq

theorem findsMembers_of_forest (hforest : c.model.IsForest)
    (habstract : (c.model.message id).isAbstract = true) : c.FindsMembers id := by
  have hmembers : c.members id = c.model.concreteDescendants id := by
    rw [members, if_pos habstract]
  refine ⟨fun type htype => ?_, ⟨fun h => ?_, fun h type htype => ?_⟩,
    fun type hnot e message h => ?_, fun type other heq => ?_⟩
  · rw [memberOfElement?, hmembers]
    exact exists_find?_first htype
  · refine (Model.nodup_concreteDescendants hforest id).map_on fun type htype other hother heq => ?_
    have hfound := h type htype
    rw [show c.xmlElement type = c.xmlElement other from heq, h other hother] at hfound
    exact (Option.some.inj hfound).symm
  · rw [memberOfElement?, hmembers]
    refine find?_eq_some_of_unique htype (beq_self_eq_true _) fun other hother heq => ?_
    exact List.inj_on_of_nodup_map h hother htype (eq_of_beq heq)
  · rintro rfl
    unfold ofXml at h
    rw [if_pos habstract] at h
    cases hmember : c.memberOfElement? id e.name with
    | none => simp [hmember] at h
    | some found =>
        simp only [hmember] at h
        obtain ⟨result, hresult, hsome⟩ := Except.map_eq_ok_iff.mp h
        obtain rfl := Option.some.inj hsome
        rw [type_of_readContentXml hresult] at hnot
        have hname : c.xmlElement found = e.name := by simpa using List.find?_some hmember
        exact hnot (hname ▸ hmember)
  · by_cases hrenamed : Model.IsRenamed (c.model.message type).options
    · exact .inl hrenamed
    · by_cases hrenamed' : Model.IsRenamed (c.model.message other).options
      · exact .inr (.inl hrenamed')
      · exact .inr (.inr (Model.typeName_eq_of_xmlNameOf_eq heq hrenamed hrenamed'))

/-! ## schemas that compile -/

/-- Where every field has a plan, there is a catalog. -/
theorem exists_ofModel (h : ∀ id, Source.Plannable m id) : ∃ c, ofModel m = .ok c := by
  have hlayouts : ∃ layouts, m.messageIds.mapM (layout m) = .ok layouts := by
    rw [Except.exists_mapM_eq_ok_iff]
    intro id _
    rw [layout, Except.exists_mapM_eq_ok_iff]
    rintro ⟨⟨owner, f⟩, position⟩ hentry
    have hf : (owner, f) ∈ m.allFields id := List.fst_mem_of_mem_zipIdx hentry
    obtain ⟨plan, hplan⟩ := h owner f (Model.mem_allFields.mp hf).2
    exact ⟨⟨owner, f, plan, position⟩, by simp only [Slot.ofField, hplan]⟩
  obtain ⟨layouts, hlayouts⟩ := hlayouts
  exact ⟨⟨m, layouts⟩, by simp [ofModel, hlayouts]⟩

/-- What compiles with code for XML has a catalog, and no maps in it. -/
theorem exists_ofModel_of_compile {config : Config} {text : String}
    (h : compile Source.builtinPlugins config schema = .ok text) (hxml : WantsXml config schema) :
    ∃ m c, Model.ofSchema schema = .ok m ∧ ofModel m = .ok c ∧
      ∀ id, ∀ slot ∈ c.slots id, slot.plan.isMap = false := by
  obtain ⟨m, hanalyze, hcode⟩ := Except.bind_eq_ok h
  obtain ⟨code, hcode, -⟩ := Except.bind_eq_ok hcode
  have hm := analyze_eq_ok_iff.mp hanalyze
  obtain ⟨-, hplan, hmaps⟩ :=
    (exists_generate_builtinPlugins_iff_fields (Model.sameOutline_of_ofSchema hm)).mp ⟨code, hcode⟩
  obtain ⟨c, hc⟩ := exists_ofModel hplan
  have hlawful := lawful_of_ofSchema hm hc
  refine ⟨m, c, hm, hc, fun id slot hslot => ?_⟩
  obtain rfl := model_of_ofModel hc
  rw [Source.isMap_of_planField (hlawful.plan id slot hslot)]
  exact hmaps hxml slot.owner slot.field (Model.mem_allFields.mp (hlawful.mem_allFields hslot)).2

/-- **Names in XML.**  Whatever compiles with code for XML, every field of a message is found by its
name if the names of the fields are distinct, and only then, and so is every member of a family.  Of
several with one name the nearest field and the first member are found, and no document gives the
others.  Names that clash come from options, except those of types that clash themselves. -/
theorem xml_names_found {config : Config} {text : String}
    (h : compile Source.builtinPlugins config schema = .ok text) (hxml : WantsXml config schema) :
    ∃ m c, Model.ofSchema schema = .ok m ∧ ofModel m = .ok c ∧ (∀ id, c.FindsFields id) ∧
      ∀ id, (m.message id).isAbstract = true → c.FindsMembers id := by
  obtain ⟨m, c, hm, hc, hmaps⟩ := exists_ofModel_of_compile h hxml
  have hforest := (Model.unambiguous_of_ofSchema hm).forest
  refine ⟨m, c, hm, hc, fun id => findsFields_of_ofSchema hm hc (hmaps id), fun id habstract => ?_⟩
  obtain rfl := model_of_ofModel hc
  exact findsMembers_of_forest hforest habstract

theorem xml_names_found_zoo : ∃ text m c,
    compile Source.builtinPlugins { plugins := ["xml"] } Example.zoo = .ok text ∧
    Model.ofSchema Example.zoo = .ok m ∧ ofModel m = .ok c ∧
    (∃ slot ∈ c.slots 2, slot.xmlName = "race" ∧ c.elementSlot? 2 "race" = some slot) ∧
    c.memberOfElement? 0 "lupus" = some 4 := by
  have hcompile :
      (compile Source.builtinPlugins { plugins := ["xml"] } Example.zoo).toOption.isSome := by
    decide +kernel
  have hcatalog : (ofSchema? Example.zoo).any (fun c => decide
      ((c.model.message 0).isAbstract = true ∧ "race" ∈ (c.slots 2).map Slot.xmlName ∧
        (c.model.xmlNames 2).Nodup ∧ 4 ∈ c.model.concreteDescendants 0 ∧
        c.xmlElement 4 = "lupus" ∧ (c.model.xmlElements 0).Nodup)) = true := by
    decide +kernel
  obtain ⟨text, htext⟩ := Option.isSome_iff_exists.mp hcompile
  have htext := Except.toOption_eq_some.mp htext
  have hxml : WantsXml { plugins := ["xml"] } Example.zoo := ⟨.head _, rfl, by decide, by decide⟩
  obtain ⟨m, c, hm, hc, hfields, hmembers⟩ := xml_names_found htext hxml
  obtain ⟨m', c', hm', hc', hfacts⟩ := exists_of_any hcatalog
  obtain rfl := Except.ok.inj (hm.symm.trans hm')
  obtain rfl := Except.ok.inj (hc.symm.trans hc')
  obtain ⟨habstract, hrace, hnames, hwolf, hlupus, helements⟩ := of_decide_eq_true hfacts
  obtain ⟨slot, hslot, hname⟩ := List.mem_map.mp hrace
  have hmember := (hmembers 0 (model_of_ofModel hc ▸ habstract)).all_iff.mpr helements 4 hwolf
  exact ⟨text, m, c, htext, hm, hc,
    ⟨slot, hslot, hname, hname ▸ (hfields 2).all_iff.mpr hnames slot hslot⟩, hlupus ▸ hmember⟩

open Schema Schema.Field Schema.Definition in
/-- A field with the name of an inherited one, and a member with the element of another. -/
def aliases : Schema := .ofDefinitions
  [ofFamily "Shape" [ofPrimitive "width" .int32],
   (ofFields "Circle"
     [(ofPrimitive "depth" .int32).withOption "XmlName" (.text "width")]).extending "Shape",
   ((ofFields "Disc" []).extending "Shape").withOption "XmlName" (.text "circle")]

/-- The schema compiles.  No document sets the width of a circle, and none is read as a disc. -/
theorem aliases_hidden : ∃ text m c,
    compile Source.builtinPlugins { plugins := ["xml"] } aliases = .ok text ∧
    Model.ofSchema aliases = .ok m ∧ ofModel m = .ok c ∧
    m.xmlNames 1 = ["width", "width"] ∧ m.xmlElements 0 = ["circle", "circle"] ∧
    (∀ e message, c.ofXml 1 e = .ok (some message) →
      message.fields[0]? = some (.scalar (.int 0))) ∧
    ∀ e message, c.ofXml 0 e = .ok (some message) → message.type ≠ 2 := by
  have hcompile :
      (compile Source.builtinPlugins { plugins := ["xml"] } aliases).toOption.isSome := by
    decide +kernel
  have hcatalog : (ofSchema? aliases).any (fun c => decide
      (c.model.xmlNames 1 = ["width", "width"] ∧ c.model.xmlElements 0 = ["circle", "circle"] ∧
        (c.model.message 0).isAbstract = true ∧ (c.model.message 1).isAbstract = false ∧
        c.memberOfElement? 0 (c.xmlElement 2) = some 1 ∧
        (c.slots 1)[0]?.map (fun slot => (slot.xmlName, slot.plan)) =
          some ("width", .single (.primitive .int32)) ∧
        (c.elementSlot? 1 "width").map (·.position) = some 1 ∧
        (c.attributeSlot? 1 "width").map (·.position) = some 1)) = true := by
    decide +kernel
  obtain ⟨text, htext⟩ := Option.isSome_iff_exists.mp hcompile
  obtain ⟨m, c, hm, hc, hfacts⟩ := exists_of_any hcatalog
  obtain ⟨hnames, helements, habstract, hconcrete, hmember, hslot, helement, hattribute⟩ :=
    of_decide_eq_true hfacts
  have hlawful := lawful_of_ofSchema hm hc
  have hforest := (Model.unambiguous_of_ofSchema hm).forest
  obtain rfl := model_of_ofModel hc
  refine ⟨text, _, c, Except.toOption_eq_some.mp htext, hm, hc, hnames, helements, ?_, ?_⟩
  · obtain ⟨slot, hget, hpair⟩ := Option.map_eq_some_iff.mp hslot
    obtain ⟨hname, hplan⟩ := Prod.mk.inj hpair
    have hmem := List.mem_of_getElem? hget
    have hposition := hlawful.position 1 0 slot hget
    -- what is found under the only name of the field is the other one
    have hhidden : ∀ name, c.elementSlot? 1 name ≠ some slot ∧
        c.attributeSlot? 1 name ≠ some slot := by
      intro name
      constructor
      · intro hfound
        obtain rfl := hname.symm.trans (hlawful.of_elementSlot? hfound).2.1
        simp [hfound, hposition] at helement
      · intro hfound
        obtain rfl := hname.symm.trans (hlawful.of_attributeSlot? hfound).2.1
        simp [hfound, hposition] at hattribute
    intro e message h
    unfold ofXml at h
    rw [hconcrete] at h
    obtain ⟨result, hresult, hsome⟩ := Except.map_eq_ok_iff.mp h
    obtain rfl := Option.some.inj hsome
    have hvalue := readContentXml_hidden hlawful hmem hhidden hresult
    rw [hposition, hplan] at hvalue
    exact hvalue
  · exact (findsMembers_of_forest hforest habstract).hidden 2 (by simp [hmember])

end Catalog

end Missive
