import Missive.Proofs.Message.BinaryRoundTrip
import Missive.Proofs.Message.Forward
import Missive.Proofs.Message.JsonRoundTrip
import Missive.Proofs.Model.Identifiers

/-!
# Missive.Proofs.Message.Dispatch

Messages of a family, read as any type of it.

The binary discriminators of a family are distinct, so reading is exact
(`Catalog.readMessage_family`): every type of the family takes the messages that are of it, and
passes over the others.  In JSON a member goes by a name that an option may give, and names are not
checked.  Of several members with one name the last is taken for all of them
(`Catalog.dispatchesTo_iff_nodup`).
-/

namespace Missive

open Json Wire

theorem Model.inFamily_of_root {m : Model} {id : MessageId} (hm : m.IsForest)
    (h : (m.message (m.root id)).isAbstract = true) : m.inFamily id = true := by
  rcases root_eq_or_mem_ascent hm id with heq | hmem
  · rw [inFamily, ← heq, h, Bool.true_or]
  · exact inFamily_of_mem_ascent hmem h

namespace Catalog

variable {c : Catalog} {m : Model} {id type : MessageId} {message : Message}

namespace Lawful

/-- A concrete message is a value of itself and of the abstract messages that it extends. -/
theorem mem_members_iff (hc : c.Lawful) (hconcrete : (c.model.message type).isAbstract = false) :
    type ∈ c.members id ↔ if (c.model.message id).isAbstract = true then
      id ∈ c.model.ancestors type else id = type := by
  unfold members
  cases (c.model.message id).isAbstract with
  | true =>
      simp only [if_true]
      rw [Model.mem_concreteDescendants_iff hc.model.forest, Model.mem_ancestors]
      exact and_iff_left hconcrete
  | false =>
      simp only [Bool.false_eq_true, if_false, List.mem_singleton]
      exact eq_comm

/-- In a family, the discriminator of a message that a type does not have is that of none that it
has. -/
theorem typeId?_ne (hc : c.Lawful) (hroot : c.model.root id = c.model.root type)
    (hn : c.typeId? type = some n) (hother : type ∉ c.members id) :
    ∀ other ∈ c.members id, c.typeId? other ≠ some n := by
  intro other hmember hn'
  have hroot' : c.model.root other = c.model.root type := by
    rw [(hc.of_mem_members hmember).1, hroot]
  have heq : other = type := hc.model.typeId_inj other type n hroot' hn' hn
  exact hother (heq ▸ hmember)

end Lawful

/-! ## binary -/

/-- A type of a family takes the tree of a message that is of it, and nothing comes of another. -/
theorem nestedOfTree_family (hc : c.Lawful) (hmessage : c.FitsMessage message.type message)
    (habstract : (c.model.message (c.model.root message.type)).isAbstract = true)
    (hroot : c.model.root id = c.model.root message.type)
    (hdepth : (c.encode message).length ≤ depth) :
    c.nestedOfTree depth id (.object (c.discriminatorTree message.type ++
        c.fieldTrees (c.slots message.type) message.fields)) =
      .ok (if message.type ∈ c.members id then some (message.persisted c) else none) := by
  by_cases hmember : message.type ∈ c.members id
  · have hfits : c.Fits (.single (.message id false)) message.toValue :=
      .message hmember hmessage.length hmessage.fields
    have hread := (readsBack_tree hc hfits rfl hdepth).nestedOfTree
    rw [Message.toValue, tree] at hread
    rw [hread, if_pos hmember]
  · have hin : c.model.inFamily message.type = true :=
      Model.inFamily_of_root hc.model.forest habstract
    have hin' : c.model.inFamily id = true :=
      Model.inFamily_of_root hc.model.forest (hroot ▸ habstract)
    obtain ⟨n, hn, -⟩ := hc.memberOfTypeId?_eq hin hmessage.member
    have hpos : 0 < (c.encode message).length := by
      simp [encode, Wire.object, endMark]
    obtain ⟨depth, rfl⟩ : ∃ d, depth = d + 1 := ⟨depth - 1, by omega⟩
    rw [if_neg hmember, discriminatorTree, hn]
    exact nestedOfTree_stranger hin' (hc.typeId?_ne hroot hn hmember) depth

/-- **Families are read exactly**: of a message below an abstract root, an abstract type of the
family reads what it is if the message extends that type, a concrete one if the message is of that
type, and both read nothing otherwise.  Its bytes are consumed in every case, and no others. -/
theorem readMessage_family (hm : Model.ofSchema schema = .ok m) (hc : ofModel m = .ok c)
    (hmessage : c.FitsMessage message.type message)
    (habstract : (m.message (m.root message.type)).isAbstract = true)
    (hroot : m.root id = m.root message.type)
    (hb : BeforeMessage pending frames frames') (suffix : List UInt8) :
    ((m.message id).isAbstract = true →
      c.readMessage id ⟨c.encode message ++ suffix, pending, frames⟩ =
        .ok (if id ∈ m.ancestors message.type then some (message.persisted c) else none)
          ⟨suffix, none, frames'⟩) ∧
    ((m.message id).isAbstract = false →
      c.readMessage id ⟨c.encode message ++ suffix, pending, frames⟩ =
        .ok (if id = message.type then some (message.persisted c) else none)
          ⟨suffix, none, frames'⟩) := by
  have hlawful := lawful_of_ofSchema hm hc
  obtain rfl := model_of_ofModel hc
  have hfits : c.Fits (.single (.message message.type false)) message.toValue :=
    .message hmessage.member hmessage.length hmessage.fields
  have hspells : Spells (c.tree (.single (.message message.type false)) message.toValue)
      (c.encode message) :=
    spells_tree hfits rfl
  have hconcrete := (hlawful.of_mem_members hmessage.member).2.2
  have hdepth : (c.encode message).length ≤ (c.encode message ++ suffix).length + 1 := by
    rw [List.length_append]
    omega
  have hread := nestedOfTree_family hlawful hmessage habstract hroot hdepth
  rw [Message.toValue, tree] at hspells
  have hyields := readMessage_yields (c := c) id hspells hb suffix
  rw [hread] at hyields
  have hresult : c.readMessage id ⟨c.encode message ++ suffix, pending, frames⟩ =
      .ok (if message.type ∈ c.members id then some (message.persisted c) else none)
        ⟨suffix, none, frames'⟩ := hyields
  rw [hresult]
  constructor
  · intro habs
    simp only [hlawful.mem_members_iff hconcrete, habs, if_true]
  · intro habs
    simp only [hlawful.mem_members_iff hconcrete, habs, Bool.false_eq_true, if_false]

open Schema Schema.Field Schema.Definition in
/-- A family with an abstract branch, and a concrete message below a concrete one. -/
def pack : Schema := .ofDefinitions
  [ofFamily "Animal" [ofPrimitive "name" .string],
   (ofFields "Dog" [ofPrimitive "breed" .string]).extending "Animal",
   (ofFields "Puppy" [ofPrimitive "weeks" .uint32]).extending "Dog",
   (ofFamily "Wild" [(ofPrimitive "habitat" .string).asTransient]).extending "Animal",
   ((ofFields "Wolf" [(ofCustom "mates" "Animal").many]).extending "Wild").withOption "Name"
     (.text "wolf!")]

/-- A wolf with a puppy in its pack. -/
def packLeader : Message :=
  ⟨4, [.scalar (.string "Akela"), .scalar (.string "forest"),
    .list [.message 2 [.scalar (.string "Rex"), .scalar (.string "collie"), .scalar (.uint 7)]]]⟩

theorem readMessage_family_pack : ∃ m c, Model.ofSchema pack = .ok m ∧ ofModel m = .ok c ∧
    c.FitsMessage 4 packLeader ∧
    c.readMessage 3 ⟨c.encode packLeader ++ [7], none, []⟩ =
      .ok (some (packLeader.persisted c)) ⟨[7], none, []⟩ ∧
    c.readMessage 1 ⟨c.encode packLeader ++ [7], none, []⟩ = .ok none ⟨[7], none, []⟩ := by
  have hcatalog : (ofSchema? pack).any (fun c => decide
      (2 ∈ c.members 0 ∧ 4 ∈ c.members 4 ∧
        (c.model.message 0).isAbstract = true ∧ (c.model.message 1).isAbstract = false ∧
        (c.model.message 3).isAbstract = true ∧ c.model.root 1 = 0 ∧ c.model.root 3 = 0 ∧
        c.model.root 4 = 0 ∧ c.model.ancestors 4 = [0, 3] ∧
        (c.slots 2).map (·.plan) = [.single (.primitive .string), .single (.primitive .string),
          .single (.primitive .uint32)] ∧
        (c.slots 4).map (·.plan) = [.single (.primitive .string), .single (.primitive .string),
          .repeated (.message 0 true)])) = true := by
    decide +kernel
  obtain ⟨m, c, hm, hc, hfacts⟩ := exists_of_any hcatalog
  obtain ⟨hpuppy, hwolf, habs₀, habs₁, habs₃, hroot₁, hroot₃, hroot₄, hancestors, hslots₂,
    hslots₄⟩ := of_decide_eq_true hfacts
  have htext : ∀ s, (Utf8.encode s).length < UInt64.size →
      c.Fits (.single (.primitive .string)) (.scalar (.string s)) := fun s hs => .scalar rfl hs
  have hmate : c.Fits (.single (.message 0 true)) (.message 2 [.scalar (.string "Rex"),
      .scalar (.string "collie"), .scalar (.uint 7)]) :=
    .of_plans hpuppy hslots₂ (.cons (htext _ (by decide)) (.cons (htext _ (by decide))
      (.cons (.scalar rfl trivial) .nil)))
  have hfits : c.FitsMessage 4 packLeader :=
    (Fits.of_plans hwolf hslots₄ (.cons (htext _ (by decide)) (.cons (htext _ (by decide))
      (.cons (.list (by decide) (by simp [Value.isAbsent]) (by simp [hmate])) .nil))) :
      c.Fits (.single (.message 4 false)) _).toMessage
  obtain rfl := model_of_ofModel hc
  have habstract : (c.model.message (c.model.root packLeader.type)).isAbstract = true := by
    rw [packLeader, hroot₄, habs₀]
  have hwild := (readMessage_family hm hc hfits habstract (hroot₃.trans hroot₄.symm) .outermost
    [7]).1 habs₃
  have hdog := (readMessage_family hm hc hfits habstract (hroot₁.trans hroot₄.symm) .outermost
    [7]).2 habs₁
  rw [packLeader, hancestors] at hwild
  exact ⟨_, c, hm, hc, hfits, hwild, hdog⟩

/-! ## JSON -/

/-- The object with the properties of a message. -/
def contentJson (c : Catalog) (message : Message) : Json :=
  .object (c.membersJson (c.slots message.type) message.fields)

/-- Reading the JSON value of a message as a type is up to the reader of the member `target`. -/
structure DispatchesTo (c : Catalog) (id : MessageId) (message : Message) (target : MessageId) :
    Prop where
  member : c.memberOfJsonType? id (c.jsonType message.type) = some target
  read : c.ofJson id (c.toJson message) = some <$>
    (c.readContentJson (c.readNestedJson (c.toJson message).weight) target).on
      (c.contentJson message)

theorem dispatchesTo_of_member (hfamily : c.model.inFamily id = true)
    (hfamily' : c.model.inFamily message.type = true)
    (h : c.memberOfJsonType? id (c.jsonType message.type) = some target) :
    c.DispatchesTo id message target where
  member := h
  read := by
    have hnested := readNestedJson_reads (c := c) (c.toJson message).weight
    have hcontent := (readContentJson_reads (c := c) hnested target).on_eq (c.contentJson message)
    have hvalue : c.toJson message = c.named message.type (c.contentJson message) := by
      rw [toJson, if_pos hfamily', contentJson]
    rw [ofJson_eq, hfamily, hcontent]
    generalize (c.toJson message).weight = depth
    rw [hvalue, nestedOfJson_named h]

/-- A member has a name, and the last member of that name is found by it. -/
theorem memberOfJsonType?_last (hmember : type ∈ c.members id) : ∃ before target after,
    c.members id = before ++ target :: after ∧ c.jsonType target = c.jsonType type ∧
      (∀ other ∈ after, c.jsonType other ≠ c.jsonType type) ∧
      c.memberOfJsonType? id (c.jsonType type) = some target := by
  have hsome : (c.memberOfJsonType? id (c.jsonType type)).isSome := by
    rw [memberOfJsonType?, List.find?_isSome]
    exact ⟨type, List.mem_reverse.mpr hmember, beq_self_eq_true _⟩
  obtain ⟨target, htarget⟩ := Option.isSome_iff_exists.mp hsome
  obtain ⟨hname, after, before, hsplit, hafter⟩ :=
    List.find?_eq_some_iff_append.mp (show (c.members id).reverse.find? _ = _ from htarget)
  have hmembers : c.members id = before.reverse ++ target :: after.reverse := by
    rw [← List.reverse_reverse (c.members id), hsplit]
    simp
  refine ⟨before.reverse, target, after.reverse, hmembers, by simpa using hname, ?_, htarget⟩
  intro other hother
  simpa using hafter other (List.mem_reverse.mp hother)

/-- Every member is found by its name if the names are distinct, and only then. -/
theorem memberOfJsonType?_iff_nodup (hnodup : (c.members id).Nodup) :
    (∀ type ∈ c.members id, c.memberOfJsonType? id (c.jsonType type) = some type) ↔
      ((c.members id).map c.jsonType).Nodup := by
  constructor
  · intro h
    refine hnodup.map_on fun type htype other hother heq => ?_
    have hfound := h type htype
    rw [heq, h other hother] at hfound
    exact (Option.some.inj hfound).symm
  · intro h type htype
    refine find?_eq_some_of_unique (List.mem_reverse.mpr htype) (beq_self_eq_true _) ?_
    intro other hother heq
    exact List.inj_on_of_nodup_map h (List.mem_reverse.mp hother) htype (by simpa using heq)

/-- **Dispatch in JSON**: reading as an abstract type leaves every message to the last member that
goes by the name of its type.  That is its own type for all members if their names are distinct, and
only then.  Two members have one name only if an option gives it to one of them. -/
theorem dispatchesTo_iff_nodup (hm : Model.ofSchema schema = .ok m) (hmodel : c.model = m)
    (habstract : (m.message id).isAbstract = true) :
    ((∀ message : Message, message.type ∈ m.concreteDescendants id →
        c.DispatchesTo id message message.type) ↔
      ((m.concreteDescendants id).map fun type => (m.message type).jsonType).Nodup) ∧
    (∀ type ∈ m.concreteDescendants id, ∃ before target after,
      m.concreteDescendants id = before ++ target :: after ∧
        (m.message target).jsonType = (m.message type).jsonType ∧
        (∀ other ∈ after, (m.message other).jsonType ≠ (m.message type).jsonType) ∧
        ∀ message : Message, message.type = type → c.DispatchesTo id message target) ∧
    ∀ type ∈ m.concreteDescendants id, ∀ other ∈ m.concreteDescendants id, type ≠ other →
      (m.message type).jsonType = (m.message other).jsonType →
      ((m.message type).options.text? Model.nameOption).isSome ∨
        ((m.message other).options.text? Model.nameOption).isSome := by
  subst hmodel
  have hforest := (Model.unambiguous_of_ofSchema hm).forest
  have hfamily : c.model.inFamily id = true := by rw [Model.inFamily, habstract, Bool.true_or]
  have hbelow : ∀ type ∈ c.model.concreteDescendants id, c.model.inFamily type = true :=
    fun type htype => Model.inFamily_of_mem_ascent
      ((Model.mem_concreteDescendants_iff hforest).mp htype).1 habstract
  have hmembers : c.members id = c.model.concreteDescendants id := by
    rw [members, if_pos habstract]
  have hnodup := Model.nodup_concreteDescendants hforest id
  rw [← hmembers] at hbelow hnodup ⊢
  refine ⟨?_, fun type htype => ?_, fun type htype other hother hne heq => ?_⟩
  · refine Iff.trans ⟨fun h type htype => ?_, fun h message hmessage => ?_⟩
      (memberOfJsonType?_iff_nodup hnodup)
    · exact (h ⟨type, []⟩ htype).member
    · exact dispatchesTo_of_member hfamily (hbelow _ hmessage) (h _ hmessage)
  · obtain ⟨before, target, after, hsplit, hname, hafter, hfound⟩ := memberOfJsonType?_last htype
    refine ⟨before, target, after, hsplit, hname, hafter, ?_⟩
    rintro message rfl
    exact dispatchesTo_of_member hfamily (hbelow _ htype) hfound
  · exact Model.isSome_name_of_jsonType_eq hm (Model.lt_of_inFamily (hbelow _ htype))
      (Model.lt_of_inFamily (hbelow _ hother)) hne heq

theorem dispatchesTo_pack : ∃ m c, Model.ofSchema pack = .ok m ∧ ofModel m = .ok c ∧
    (m.message 0).isAbstract = true ∧ m.concreteDescendants 0 = [1, 2, 4] ∧
    c.DispatchesTo 0 packLeader 4 := by
  have hcatalog : (ofSchema? pack).any (fun c => decide
      ((c.model.message 0).isAbstract = true ∧ c.model.concreteDescendants 0 = [1, 2, 4] ∧
        ((c.model.concreteDescendants 0).map fun type => (c.model.message type).jsonType).Nodup)) =
      true := by
    decide +kernel
  obtain ⟨m, c, hm, hc, hfacts⟩ := exists_of_any hcatalog
  obtain ⟨habstract, hbelow, hnodup⟩ := of_decide_eq_true hfacts
  obtain rfl := model_of_ofModel hc
  have hleader : packLeader.type ∈ c.model.concreteDescendants 0 := by simp [hbelow, packLeader]
  exact ⟨_, c, hm, hc, habstract, hbelow,
    (dispatchesTo_iff_nodup hm rfl habstract).1.mpr hnodup packLeader hleader⟩

open Schema Schema.Field Schema.Definition in
/-- A family in which one member goes by the name of another. -/
def masquerade : Schema := .ofDefinitions
  [ofFamily "Shape" [],
   (ofFields "Circle" [ofPrimitive "radius" .int32]).extending "Shape",
   ((ofFields "Disc" [ofPrimitive "radius" .int32]).extending "Shape").withOption "Name"
     (.text "Circle")]

/-- The schema is accepted, and a circle is read back as a disc. -/
theorem masquerade_misread : ∃ m c, Model.ofSchema masquerade = .ok m ∧ ofModel m = .ok c ∧
    (m.message 0).isAbstract = true ∧ m.concreteDescendants 0 = [1, 2] ∧
    (m.message 1).jsonType = (m.message 2).jsonType ∧
    c.FitsMessage 1 ⟨1, [.scalar (.int 5)]⟩ ∧
    ∃ fields, c.ofJson 0 (c.toJson ⟨1, [.scalar (.int 5)]⟩) = .ok (some ⟨2, fields⟩) := by
  have hcatalog : (ofSchema? masquerade).any (fun c => decide
      ((c.model.message 0).isAbstract = true ∧ c.model.concreteDescendants 0 = [1, 2] ∧
        (c.model.message 1).jsonType = (c.model.message 2).jsonType ∧ 1 ∈ c.members 1 ∧
        (c.slots 1).map (·.plan) = [.single (.primitive .int32)] ∧
        (c.ofJson 0 (c.toJson ⟨1, [.scalar (.int 5)]⟩)).toOption.join.map (·.type) =
          some 2)) = true := by
    decide +kernel
  obtain ⟨m, c, hm, hc, hfacts⟩ := exists_of_any hcatalog
  obtain ⟨habstract, hbelow, hname, hcircle, hslots, hread⟩ := of_decide_eq_true hfacts
  obtain rfl := model_of_ofModel hc
  have hradius : c.Fits (.single (.primitive .int32)) (.scalar (.int 5)) := .scalar rfl trivial
  have hfits : c.FitsMessage 1 ⟨1, [.scalar (.int 5)]⟩ :=
    (Fits.of_plans hcircle hslots (.cons hradius .nil) :
      c.Fits (.single (.message 1 false)) _).toMessage
  obtain ⟨result, hresult, htype⟩ := Option.map_eq_some_iff.mp hread
  obtain ⟨_, fields⟩ := result
  obtain rfl := htype
  rw [Option.join_eq_some_iff, Except.toOption_eq_some] at hresult
  exact ⟨_, c, hm, hc, habstract, hbelow, hname, hfits, fields, hresult⟩

end Catalog

end Missive
