import Missive.Proofs.Model.Fields
import Missive.Proofs.Model.Registration

/-!
# Missive.Proofs.Model.Accepted

What holds of the model of every schema that is accepted.

`Passes schema draft m` says what the passes of the analysis did: `draft` is what resolving gave,
and `m` has its numbers and names.  `Unambiguous m` collects what follows for the model alone: the
messages form a forest, and tags, keys, codes and discriminators tell apart what they have to.
-/

namespace Missive.Model

/-- The messages of a model form a forest, and its numbers and names are unambiguous. -/
structure Unambiguous (m : Model) : Prop where
  forest : m.IsForest
  abstractAbove : m.AbstractAbove
  /-- The fields of a message, inherited or its own, have distinct tags. -/
  tags : ∀ id, ((m.allFields id).filterMap (·.2.tag)).Nodup
  /-- The fields of a message, inherited or its own, have distinct keys. -/
  keys : ∀ id, ((m.allFields id).map (·.2.key)).Nodup
  /-- The fields without a tag are the transient ones. -/
  transient : ∀ id, ∀ f ∈ (m.message id).fields, f.tag = none ↔ f.transient = true
  /-- The constants of an enumeration have distinct codes. -/
  codes : ∀ id, ((m.enumeration id).constants.map (·.code)).Nodup
  /-- The messages with a discriminator are the members of families. -/
  typeId_isSome : ∀ id, (m.message id).typeId.isSome ↔ id ∈ m.familyMembers
  /-- The members of a family have distinct discriminators. -/
  typeId_inj : ∀ id id' n, m.root id = m.root id' → (m.message id).typeId = some n →
    (m.message id').typeId = some n → id = id'

variable {m m' : Model} {id x : MessageId}

/-! ## resolving -/

theorem message_setFields (hlength : m.messages.length ≤ fields.length) (id : MessageId) :
    (m.setFields fields).message id =
      { m.message id with fields := if id < m.messages.length then fields.getD id [] else [] } := by
  by_cases hid : id < m.messages.length
  · have hid' : id < fields.length := Nat.lt_of_lt_of_le hid hlength
    simp [message, setFields, List.getD, hid, hid']
  · rw [message_of_le (Nat.le_of_not_lt hid), message_of_le, if_neg hid]
    · rfl
    · rw [setFields, List.length_zipWith]
      exact Nat.le_trans (Nat.min_le_left _ _) (Nat.le_of_not_lt hid)

theorem setFields_lineage (hlength : m.messages.length ≤ fields.length) :
    SameLineage m (m.setFields fields) where
  length := by simpa [setFields] using hlength
  parent id := by rw [message_setFields hlength]
  isAbstract id := by rw [message_setFields hlength]

/-- Resolving gives a forest of messages. -/
theorem resolve_ok (h : resolve schema = .ok m) : m.IsForest ∧ m.AbstractAbove := by
  obtain ⟨linked, fields, hlinked, hcycles, habstract, hfields, rfl⟩ := resolve_eq_ok_iff.mp h
  have hlength : linked.messages.length = fields.length := by
    rw [← hlinked.forall₂_isRegistered.length_eq, (Except.forall₂_of_mapM_eq_ok hfields).length_eq]
  have hsame := setFields_lineage hlength.le
  exact ⟨hsame.isForest (isForest_of_checkCycles hcycles),
    hsame.abstractAbove (abstractAbove_of_checkAbstract habstract)⟩

theorem untagged_of_resolve (h : resolve schema = .ok m) (id : MessageId) :
    ∀ f ∈ (m.message id).fields, f.tag = none := by
  intro f hf
  by_cases hid : id < m.messages.length
  · rw [message_of_lt hid] at hf
    obtain ⟨head, -, hdeclared⟩ :=
      exists_of_forall₂ (forall₂_resolve h).1 (List.getElem_mem hid)
    obtain ⟨f₀, -, hf₀⟩ := exists_of_forall₂ hdeclared.fields hf
    exact hf₀.tag
  · rw [message_of_le (Nat.le_of_not_lt hid)] at hf
    contradiction

/-! ## identifying -/

/-- An enumeration has passed the checks, or stands for a number that no enumeration has. -/
theorem enumeration_of_mapM {drafts : List Enumeration}
    (h : drafts.mapM identifyEnumeration = .ok m.enumerations) (id : EnumId) :
    (∃ e, identifyEnumeration e = .ok (m.enumeration id)) ∨ m.enumeration id = default := by
  by_cases hid : id < m.enumerations.length
  · rw [enumeration, List.getD_eq_getElem _ _ hid]
    obtain ⟨e, -, he⟩ := Except.exists_of_mapM_eq_ok h (List.getElem_mem hid)
    exact .inl ⟨e, he⟩
  · rw [enumeration, List.getD_eq_default _ _ (Nat.le_of_not_lt hid)]
    exact .inr rfl

theorem message_identifyMessages (h : m.identifyMessages = .ok m') :
    m.checkTypeIds [] m.familyMembers = .ok () ∧ m.checkFamilyNumbers = .ok () ∧
      m'.enumerations = m.enumerations ∧ m'.messages.length = m.messages.length ∧
      ∀ id, m'.message id = if id < m.messages.length then
        { m.message id with
          typeId := m.typeIdOf? id
          jsonType := jsonNameOf (m.message id).options (m.message id).name }
        else default := by
  obtain ⟨_, hids, h₁⟩ := Except.bind_eq_ok h
  obtain ⟨_, hwide, h₂⟩ := Except.bind_eq_ok h₁
  cases h₂
  refine ⟨hids, hwide, rfl, by simp, fun id => ?_⟩
  by_cases hid : id < m.messages.length
  · simp [message, List.getD, hid]
  · simp [message, List.getD, hid]

theorem identifyMessages_lineage (h : m.identifyMessages = .ok m') : SameLineage m m' := by
  obtain ⟨-, -, -, hlength, hmessage⟩ := message_identifyMessages h
  refine ⟨hlength, fun id => ?_, fun id => ?_⟩
  all_goals
    rw [hmessage]
    split
    · rfl
    · next hid => rw [message_of_le (Nat.le_of_not_lt hid)]

theorem SameLineage.familyMembers (h : SameLineage m m') : m'.familyMembers = m.familyMembers := by
  simp only [Model.familyMembers, h.messageIds, h.inFamily, h.isAbstract]

theorem mem_familyMembers : id ∈ m.familyMembers ↔
    id < m.messages.length ∧ m.inFamily id = true ∧ (m.message id).isAbstract = false := by
  simp [familyMembers, mem_messageIds]

/-! ## the passes -/

/-- How a schema becomes a model.  `draft` has the messages that resolving gives, and the
discriminators and the fields of `m` come from it. -/
structure Passes (schema : Schema) (draft m : Model) : Prop where
  resolved : ∃ m₀, resolve schema = .ok m₀ ∧ draft.messages = m₀.messages ∧
    m₀.enumerations.mapM identifyEnumeration = .ok m.enumerations
  checkTypeIds : draft.checkTypeIds [] draft.familyMembers = .ok ()
  checkFamilyNumbers : draft.checkFamilyNumbers = .ok ()
  length : m.messages.length = draft.messages.length
  message : ∀ id, m.message id = { draft.message id with
    typeId := draft.typeIdOf? id
    jsonType := jsonNameOf (draft.message id).options (draft.message id).name
    fields := (m.message id).fields }
  fields : ∀ id, m.IsNumbered (draft.message id).fields id

theorem message_congr (h : m'.messages = m.messages) (id : MessageId) :
    m'.message id = m.message id := by
  rw [message, h, message]

theorem SameLineage.of_messages (h : m'.messages = m.messages) : SameLineage m m' where
  length := congrArg List.length h
  parent id := by rw [message_congr h]
  isAbstract id := by rw [message_congr h]

theorem typeIdOf?_of_le (h : m.messages.length ≤ id) : m.typeIdOf? id = none := by
  refine Option.not_isSome_iff_eq_none.mp fun hsome => ?_
  have hlt := (mem_familyMembers.mp (typeIdOf?_isSome.mp hsome)).1
  exact absurd hlt (Nat.not_lt.mpr h)

theorem passes_of_ofSchema (h : ofSchema schema = .ok m) : ∃ draft, Passes schema draft m := by
  obtain ⟨m₀, hresolve, hidentify⟩ := Except.bind_eq_ok h
  obtain ⟨enumerations, henums, h₁⟩ := Except.bind_eq_ok hidentify
  obtain ⟨m₂, hmessages, hfields⟩ := Except.bind_eq_ok h₁
  -- Codes do not matter to messages, so the model with codes is `draft` from here on.
  generalize hdraft : ({ m₀ with enumerations } : Model) = draft at hmessages
  have hsame : draft.messages = m₀.messages := by rw [← hdraft]
  obtain ⟨hids, hwide, henums₂, hlength₂, hmessage₂⟩ := message_identifyMessages hmessages
  have hforest : draft.IsForest :=
    (SameLineage.of_messages hsame).isForest (resolve_ok hresolve).1
  have hforest₂ := (identifyMessages_lineage hmessages).isForest hforest
  obtain ⟨hfinal, hnumbered⟩ := isNumbered_of_identify hforest₂ hfields
  have hmessage : ∀ id, m₂.message id = { draft.message id with
      typeId := draft.typeIdOf? id
      jsonType := jsonNameOf (draft.message id).options (draft.message id).name } := by
    intro id
    rw [hmessage₂]
    split
    · rfl
    · next hid =>
        have hle := Nat.le_of_not_lt hid
        rw [message_of_le hle, typeIdOf?_of_le hle]
        rfl
  refine ⟨draft, ⟨m₀, hresolve, hsame, ?_⟩, hids, hwide, hfinal.length.trans hlength₂,
    fun id => ?_, fun id => ?_⟩
  · rw [hfinal.enumerations, henums₂, ← hdraft, henums]
  · rw [hfinal.message, hmessage]
  · have hid := hnumbered id
    rwa [hmessage] at hid

namespace Passes

variable {draft : Model}

theorem lineage (h : Passes schema draft m) : SameLineage draft m where
  length := h.length
  parent id := by rw [h.message]
  isAbstract id := by rw [h.message]

theorem isForest (h : Passes schema draft m) : m.IsForest := by
  obtain ⟨m₀, hresolve, hsame, -⟩ := h.resolved
  exact ((SameLineage.of_messages hsame).trans h.lineage).isForest (resolve_ok hresolve).1

theorem abstractAbove (h : Passes schema draft m) : m.AbstractAbove := by
  obtain ⟨m₀, hresolve, hsame, -⟩ := h.resolved
  exact ((SameLineage.of_messages hsame).trans h.lineage).abstractAbove (resolve_ok hresolve).2

theorem untagged (h : Passes schema draft m) (id : MessageId) :
    ∀ f ∈ (draft.message id).fields, f.tag = none := by
  obtain ⟨m₀, hresolve, hsame, -⟩ := h.resolved
  rw [message_congr hsame]
  exact untagged_of_resolve hresolve id

theorem allNumbered (h : Passes schema draft m) : m.AllNumbered := fun id =>
  ⟨_, h.untagged id, h.fields id⟩

/-- The messages before and after belong together by their numbers. -/
theorem forall₂_message (h : Passes schema draft m) :
    List.Forall₂ (fun message message' => ∃ id, message = draft.message id ∧ message' = m.message id)
      draft.messages m.messages := by
  refine List.forall₂_iff_get.mpr ⟨h.length.symm, fun id hid hid' => ⟨id, ?_, ?_⟩⟩
  · rw [message_of_lt hid, List.get_eq_getElem]
  · rw [message_of_lt hid', List.get_eq_getElem]

theorem typeId_eq (h : Passes schema draft m) (id : MessageId) :
    (m.message id).typeId = draft.typeIdOf? id := by
  rw [h.message]

end Passes

/-- **Acceptance**: the model of an accepted schema is unambiguous. -/
theorem unambiguous_of_ofSchema (h : ofSchema schema = .ok m) : m.Unambiguous := by
  obtain ⟨draft, hpasses⟩ := passes_of_ofSchema h
  have hforest := hpasses.isForest
  refine ⟨hforest, hpasses.abstractAbove, nodup_tags hforest hpasses.allNumbered,
    nodup_keys hforest hpasses.allNumbered, fun id f hf => ?_, fun id => ?_, fun id => ?_,
    fun id id' n hroot hn hn' => ?_⟩
  · exact (hpasses.fields id).tag_eq_none_iff (hpasses.untagged id) hf
  · obtain ⟨m₀, -, -, henums⟩ := hpasses.resolved
    obtain ⟨e, he⟩ | hnone := enumeration_of_mapM henums id
    · exact nodup_codes he
    · rw [hnone]
      exact .nil
  · rw [hpasses.typeId_eq, typeIdOf?_isSome, hpasses.lineage.familyMembers]
  · rw [hpasses.lineage.root, hpasses.lineage.root] at hroot
    rw [hpasses.typeId_eq] at hn hn'
    exact eq_of_typeIdOf? hpasses.checkTypeIds hpasses.checkFamilyNumbers hroot hn hn'

end Missive.Model
