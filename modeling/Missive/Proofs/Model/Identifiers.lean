import Missive.Proofs.Model.Accepted
import Missive.Schema.Build

/-!
# Missive.Proofs.Model.Identifiers

The identifiers under which values travel: tags and keys of fields, discriminators of messages and
codes of constants.

An identifier that a schema fixes is kept, which `Message.Keeps` and `Enumeration.Keeps` say of a
declaration and what became of it.  `SoundIdentifiers schema m` adds that none is given twice where
values have to be told apart, and `soundIdentifiers_of_ofSchema` says that no schema is accepted
otherwise.

Names in JSON are not checked.  Where two messages or two constants have one, an option gives it to
one of them (`isSome_name_of_jsonType_eq` and `isSome_name_of_jsonName_eq`).
-/

namespace Missive.Model

variable {m : Model} {schema : Schema} {id : MessageId}

/-! ## what is kept -/

/-- A field that travels has the tag that its declaration fixes. -/
structure Field.Keeps (declared : Schema.Field) (f : Field) : Prop where
  name : f.name = declared.name
  transient : f.transient = declared.transient
  tag : declared.transient = false → ∀ tag, declared.index = some tag → f.tag = some tag

/-- A message with a discriminator has the one that its declaration fixes. -/
structure Message.Keeps (head : Schema.MessageHead) (message : Message) : Prop where
  name : message.name = head.name
  isAbstract : message.isAbstract = head.isAbstract
  typeId : message.typeId.isSome → ∀ typeId, head.id = some typeId → message.typeId = some typeId
  fields : List.Forall₂ Field.Keeps head.fields message.fields

/-- A constant has the code that its declaration fixes. -/
structure Constant.Keeps (declared : Schema.Constant) (c : Constant) : Prop where
  name : c.name = declared.name
  code : ∀ code, declared.index = some code → c.code = code

/-- The constants of an enumeration have the codes that their declarations fix. -/
structure Enumeration.Keeps (declared : Schema.Enumeration) (e : Enumeration) : Prop where
  name : e.name = declared.name
  constants : List.Forall₂ Constant.Keeps declared.constants e.constants

theorem Field.IsDeclared.keeps {f₀ : Schema.Field} {f f' : Field} (h : f.IsDeclared f₀)
    (h' : f.IsIdentified f') : f'.Keeps f₀ where
  name := by rw [h'.same, h.name]
  transient := by rw [h'.same, h.transient]
  tag htransient tag htag :=
    h'.kept (h.transient.trans htransient) tag (h.explicitTag.trans htag)

theorem Constant.IsDeclared.keeps {c₀ : Schema.Constant} {c c' : Constant} (h : c.IsDeclared c₀)
    (h' : c.IsIdentified c') : c'.Keeps c₀ where
  name := by rw [h'.same, h.name]
  code code hcode := h'.kept code (h.explicitCode.trans hcode)

/-! ## accepted schemas -/

/-- Every message that a schema declares keeps its identifiers. -/
theorem Passes.forall₂_messages (h : Passes schema draft m) :
    List.Forall₂ Message.Keeps (heads schema) m.messages := by
  obtain ⟨m₀, hresolve, hsame, -⟩ := h.resolved
  have hdeclared := hsame ▸ (forall₂_resolve hresolve).1
  refine forall₂_trans (fun head message message' hd hk => ?_) hdeclared h.forall₂_message
  obtain ⟨id, rfl, rfl⟩ := hk
  have hfields := (h.fields id).forall₂_isIdentified (h.untagged id)
  refine ⟨?_, ?_, fun hsome typeId hid => ?_,
    forall₂_trans (fun _ _ _ hf hf' => hf.keeps hf') hd.fields hfields⟩
  · rw [h.message, hd.name]
  · rw [h.message, hd.isAbstract]
  · obtain ⟨n, hn⟩ := Option.isSome_iff_exists.mp hsome
    have hkept := (typeIdOf?_kept h.checkTypeIds h.checkFamilyNumbers (h.typeId_eq id ▸ hn)).2
    rw [hn, hkept typeId (hd.explicitId.trans hid)]

/-- Every enumeration that a schema declares keeps its codes. -/
theorem Passes.forall₂_enumerations (h : Passes schema draft m) :
    List.Forall₂ Enumeration.Keeps (enumerationHeads schema) m.enumerations := by
  obtain ⟨m₀, hresolve, -, henums⟩ := h.resolved
  refine forall₂_trans (fun declared e e' hd he => ?_) (forall₂_resolve hresolve).2
    (Except.forall₂_of_mapM_eq_ok henums)
  have hconstants := forall₂_trans (fun _ _ _ hc hc' => hc.keeps hc') hd.constants
    (forall₂_identifyEnumeration he)
  obtain ⟨-, -, -, rfl⟩ := identifyEnumeration_ok he
  exact ⟨hd.name, hconstants⟩

theorem Passes.code_nonneg (h : Passes schema draft m) (id : EnumId) :
    ∀ c ∈ (m.enumeration id).constants, 0 ≤ c.code := by
  intro c hc
  obtain ⟨m₀, -, -, henums⟩ := h.resolved
  obtain ⟨e, he⟩ | hnone := enumeration_of_mapM henums id
  · obtain ⟨c₀, -, hc₀⟩ := exists_of_forall₂ (forall₂_identifyEnumeration he) hc
    exact hc₀.nonneg
  · rw [hnone] at hc
    contradiction

/-- A message has a discriminator if it is concrete and extends an abstract one. -/
theorem Unambiguous.typeId_isSome_iff (h : m.Unambiguous) (id : MessageId) :
    (m.message id).typeId.isSome ↔ (m.message id).isAbstract = false ∧
      ∃ a ∈ m.ancestors id, (m.message a).isAbstract = true := by
  rw [h.typeId_isSome, mem_familyMembers]
  constructor
  · rintro ⟨-, hin, hconcrete⟩
    rw [inFamily, hconcrete, Bool.false_or, List.any_eq_true] at hin
    obtain ⟨a, ha, habstract⟩ := hin
    exact ⟨hconcrete, a, mem_ancestors.mpr ha, habstract⟩
  · rintro ⟨hconcrete, a, ha, habstract⟩
    have hin := inFamily_of_mem_ascent (mem_ancestors.mp ha) habstract
    exact ⟨lt_of_inFamily hin, hin, hconcrete⟩

/-- The identifiers of a model are unambiguous, and those that its schema fixes are kept. -/
structure SoundIdentifiers (schema : Schema) (m : Model) : Prop where
  /-- The fields of a message that travel, inherited or its own, have tags other than zero. -/
  tag_of_persistent : ∀ id, ∀ p ∈ m.allFields id, p.2.transient = false →
    ∃ tag, p.2.tag = some tag ∧ tag ≠ 0
  tag_of_transient : ∀ id, ∀ p ∈ m.allFields id, p.2.transient = true → p.2.tag = none
  nodup_tags : ∀ id, ((m.allFields id).filterMap (·.2.tag)).Nodup
  nodup_keys : ∀ id, ((m.allFields id).map (·.2.key)).Nodup
  typeId_isSome : ∀ id, (m.message id).typeId.isSome ↔ (m.message id).isAbstract = false ∧
    ∃ a ∈ m.ancestors id, (m.message a).isAbstract = true
  typeId_ne_zero : ∀ id, (m.message id).typeId ≠ some 0
  /-- Messages with the same root have distinct discriminators. -/
  typeId_inj : ∀ id id' n, m.root id = m.root id' → (m.message id).typeId = some n →
    (m.message id').typeId = some n → id = id'
  code_nonneg : ∀ id, ∀ c ∈ (m.enumeration id).constants, 0 ≤ c.code
  nodup_codes : ∀ id, ((m.enumeration id).constants.map (·.code)).Nodup
  /-- Tags and discriminators that are fixed are kept. -/
  messages : List.Forall₂ Message.Keeps (heads schema) m.messages
  /-- Codes that are fixed are kept. -/
  enumerations : List.Forall₂ Enumeration.Keeps (enumerationHeads schema) m.enumerations

/-- **Identifiers are unambiguous** in the model of every schema that is accepted. -/
theorem soundIdentifiers_of_ofSchema (h : ofSchema schema = .ok m) : SoundIdentifiers schema m := by
  have hm := unambiguous_of_ofSchema h
  obtain ⟨draft, hpasses⟩ := passes_of_ofSchema h
  have hfield : ∀ id, ∀ p ∈ m.allFields id, p.2 ∈ (m.message p.1).fields := fun id p hp =>
    (mem_allFields.mp hp).2
  refine ⟨fun id p hp hpersistent => ?_, fun id p hp => ?_, hm.tags, hm.keys, hm.typeId_isSome_iff,
    fun id hzero => ?_, hm.typeId_inj, hpasses.code_nonneg, hm.codes,
    hpasses.forall₂_messages, hpasses.forall₂_enumerations⟩
  · have hsome : p.2.tag ≠ none := by
      rw [Ne, hm.transient p.1 p.2 (hfield id p hp), hpersistent]
      exact Bool.false_ne_true
    obtain ⟨tag, htag⟩ := Option.ne_none_iff_exists'.mp hsome
    have hnew := (hpasses.fields p.1).tags_above (hpasses.untagged p.1) (hfield id p hp) htag
    exact ⟨tag, htag, hnew.1⟩
  · exact (hm.transient p.1 p.2 (hfield id p hp)).mpr
  · rw [hpasses.typeId_eq] at hzero
    have hkept := typeIdOf?_kept hpasses.checkTypeIds hpasses.checkFamilyNumbers hzero
    exact hkept.1 rfl

open Schema Schema.Field Schema.Definition in
/-- A line that is declared from its end to its beginning, with numbers fixed here and there. -/
def kennel : Schema := .ofDefinitions
  [((ofFields "Puppy" [ofPrimitive "weeks" .uint32, (ofPrimitive "litter" .uint32).withIndex 3,
     ofPrimitive "chip" .string]).extending "Dog").withId 1,
   (ofFields "Dog" [ofPrimitive "breed" .string]).extending "Animal",
   ofFamily "Animal" [ofPrimitive "name" .string, (ofPrimitive "cage" .string).asTransient,
     (ofCustom "level" "Level").withIndex 4],
   ofConstants "Level" [.of "LOW" (some 1), .of "MID" none, .of "HIGH" none]]

theorem soundIdentifiers_kennel : ∃ m, ofSchema kennel = .ok m ∧ SoundIdentifiers kennel m ∧
    ((m.allFields 0).map fun p => (p.2.name, p.2.tag)) =
      [("name", some 1), ("cage", none), ("level", some 4), ("breed", some 2),
        ("weeks", some 5), ("litter", some 3), ("chip", some 6)] ∧
    m.messages.map (·.typeId) = [some 1, some 2, none] ∧
    (m.enumeration 0).constants.map (·.code) = [1, 0, 2] := by
  have hmodel : (ofSchema kennel).toOption.any (fun m => decide (
      ((m.allFields 0).map fun p => (p.2.name, p.2.tag)) =
        [("name", some 1), ("cage", none), ("level", some 4), ("breed", some 2),
          ("weeks", some 5), ("litter", some 3), ("chip", some 6)] ∧
      m.messages.map (·.typeId) = [some 1, some 2, none] ∧
      (m.enumeration 0).constants.map (·.code) = [1, 0, 2])) = true := by
    decide +kernel
  obtain ⟨m, hm, hfacts⟩ := (Option.any_eq_true _ _).mp hmodel
  have hm := Except.toOption_eq_some.mp hm
  exact ⟨m, hm, soundIdentifiers_of_ofSchema hm, of_decide_eq_true hfacts⟩

/-! ## names in JSON -/

theorem isSome_name_of_jsonNameOf_eq {options options' : Options} {name name' : String}
    (h : jsonNameOf options name = jsonNameOf options' name') (hne : name ≠ name') :
    (options.text? nameOption).isSome ∨ (options'.text? nameOption).isSome := by
  unfold jsonNameOf at h
  cases hname : options.text? nameOption with
  | some text => exact .inl rfl
  | none =>
      cases hname' : options'.text? nameOption with
      | some text => exact .inr rfl
      | none =>
          rw [hname, hname'] at h
          exact absurd h hne

theorem Passes.nodup_names (h : Passes schema draft m) : (m.messages.map (·.name)).Nodup := by
  have hnames : (heads schema).map (·.name) = m.messages.map (·.name) :=
    map_eq_of_forall₂ (h.forall₂_messages.imp fun _ _ hkeeps => hkeeps.name.symm)
  obtain ⟨m₀, hresolve, -⟩ := h.resolved
  rw [← hnames]
  exact nodup_names_of_resolve hresolve

/-- Two messages have one name in JSON only if an option gives it to one of them. -/
theorem isSome_name_of_jsonType_eq {id' : MessageId} (h : ofSchema schema = .ok m)
    (hid : id < m.messages.length) (hid' : id' < m.messages.length) (hne : id ≠ id')
    (heq : (m.message id).jsonType = (m.message id').jsonType) :
    ((m.message id).options.text? nameOption).isSome ∨
      ((m.message id').options.text? nameOption).isSome := by
  obtain ⟨draft, hpasses⟩ := passes_of_ofSchema h
  have hjson : ∀ id, (m.message id).jsonType =
      jsonNameOf (m.message id).options (m.message id).name := fun id => by rw [hpasses.message]
  rw [hjson, hjson] at heq
  refine isSome_name_of_jsonNameOf_eq heq fun hname => hne ?_
  rw [message_of_lt hid, message_of_lt hid'] at hname
  exact index_eq_of_nodup_map hpasses.nodup_names (List.getElem?_eq_getElem hid)
    (List.getElem?_eq_getElem hid') hname

/-- The constants of an enumeration have distinct names, and names in JSON that options may give. -/
theorem Passes.constants (h : Passes schema draft m) (enum : EnumId) :
    ((m.enumeration enum).constants.map (·.name)).Nodup ∧
      ∀ c ∈ (m.enumeration enum).constants, c.jsonName = jsonNameOf c.options c.name := by
  obtain ⟨m₀, -, -, henums⟩ := h.resolved
  obtain ⟨e, he⟩ | hnone := enumeration_of_mapM henums enum
  · have hall := forall₂_identifyEnumeration he
    obtain ⟨-, hcheck, -, -⟩ := identifyEnumeration_ok he
    have hnames : e.constants.map (·.name) = (m.enumeration enum).constants.map (·.name) :=
      map_eq_of_forall₂ (hall.imp fun c c' hc => by rw [hc.same])
    refine ⟨hnames ▸ (nodup_names_of_checkConstants hcheck).1, fun c hc => ?_⟩
    obtain ⟨c₀, -, hc₀⟩ := exists_of_forall₂ hall hc
    rw [hc₀.same]
  · rw [hnone]
    exact ⟨.nil, by simp [default]⟩

/-- Two constants have one name in JSON only if an option gives it to one of them. -/
theorem isSome_name_of_jsonName_eq {enum : EnumId} {i j : Nat} {c c' : Constant}
    (h : ofSchema schema = .ok m)
    (hi : (m.enumeration enum).constants[i]? = some c)
    (hj : (m.enumeration enum).constants[j]? = some c') (hne : i ≠ j)
    (heq : c.jsonName = c'.jsonName) :
    (c.options.text? nameOption).isSome ∨ (c'.options.text? nameOption).isSome := by
  obtain ⟨draft, hpasses⟩ := passes_of_ofSchema h
  obtain ⟨hnodup, hjson⟩ := hpasses.constants enum
  rw [hjson c (List.mem_of_getElem? hi), hjson c' (List.mem_of_getElem? hj)] at heq
  refine isSome_name_of_jsonNameOf_eq heq fun hname => hne ?_
  exact index_eq_of_nodup_map hnodup hi hj hname

end Missive.Model
