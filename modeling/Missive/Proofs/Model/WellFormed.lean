import Missive.Example
import Missive.Proofs.Model.Accepted
import Missive.Proofs.Model.Resolution

/-!
# Missive.Proofs.Model.WellFormed

Which schemas resolve.

`WellFormed schema` says in terms of the declarations alone what a schema has to be: names tell
definitions apart, every name that is used stands for a definition, and the messages that extend
each other form a forest of which the abstract ones are the upper part.  Exactly the schemas that
are so resolve (`resolve_iff_wellFormed`).  All references of the model then point into it
(`ReferencesWithin`), and lines of ancestors are complete (`IsLine`).
-/

namespace Missive.Model

open Schema

variable {m : Model} {schema : Schema} {id p : MessageId} {head : MessageHead}

/-! ## declarations -/

/-- A message declares another as the one that it extends. -/
def Extends (schema : Schema) (head head' : MessageHead) : Prop :=
  ∃ parent nested, head.extends? = some parent ∧ Names schema parent (.message head' nested)

/-- What a schema has to be to have a model. -/
structure WellFormed (schema : Schema) : Prop where
  /-- No two definitions have one name, wherever they stand. -/
  names : ((definitions schema).map Definition.name).Nodup
  /-- What a message extends is a message. -/
  parents : ∀ head ∈ heads schema, ∀ parent, head.extends? = some parent →
    ∃ head' nested, Names schema parent (.message head' nested)
  /-- No message extends itself, directly or through others. -/
  acyclic : ∀ head ∈ heads schema, ¬ Relation.TransGen (Extends schema) head head
  /-- An abstract message extends only abstract ones. -/
  abstractAbove : ∀ head ∈ heads schema, ∀ head', Extends schema head head' →
    head.isAbstract = true → head'.isAbstract = true
  /-- The types of fields name definitions, in keys and values of maps as well. -/
  references : ∀ head ∈ heads schema, ∀ f ∈ head.fields, ∀ reference ∈ f.type.references,
    ∃ d, Names schema reference d
  /-- A map is not repeated. -/
  maps : ∀ head ∈ heads schema, ∀ f ∈ head.fields, f.repeated = true → f.type.isMap = false

/-! ## parents -/

namespace IsLinked

variable (h : IsLinked schema m)

include h

theorem isRegistered (hhead : (heads schema)[id]? = some head) :
    IsRegistered head (m.message id) := by
  have hall := h.forall₂_isRegistered
  obtain ⟨hid, rfl⟩ := List.getElem?_eq_some_iff.mp hhead
  have hid' := hall.length_eq ▸ hid
  rw [message_of_lt hid']
  exact hall.get hid hid'

theorem exists_head (hid : id < m.messages.length) : ∃ head, (heads schema)[id]? = some head := by
  rw [← h.forall₂_isRegistered.length_eq] at hid
  exact ⟨_, List.getElem?_eq_getElem hid⟩

/-- The parent of a message is the one that its declaration names. -/
theorem parentIs_iff (hhead : (heads schema)[id]? = some head) :
    m.ParentIs id p ↔ ∃ head', (heads schema)[p]? = some head' ∧ Extends schema head head' := by
  rw [ParentIs, ← Except.ok.injEq (ε := SchemaError), ← h.parentOf hhead, parentOf_eq_ok_some]
  simp only [lookup_register_message h.nodup]
  constructor
  · rintro ⟨parent, hextends, head', nested, hhead', hname⟩
    exact ⟨head', hhead', parent, nested, hextends, hname⟩
  · rintro ⟨head', hhead', parent, nested, hextends, hname⟩
    exact ⟨parent, hextends, head', nested, hhead', hname⟩

theorem lt_of_parentIs (hp : m.ParentIs id p) : p < m.messages.length := by
  obtain ⟨head, hhead⟩ := h.exists_head (lt_of_parent hp)
  obtain ⟨head', hhead', -⟩ := (h.parentIs_iff hhead).mp hp
  rw [← h.forall₂_isRegistered.length_eq]
  exact (List.getElem?_eq_some_iff.mp hhead').1

/-- A walk along the parents is one along the declarations. -/
theorem transGen_extends (hhead : (heads schema)[id]? = some head)
    (hwalk : Relation.TransGen m.ParentIs id p) :
    ∃ head', (heads schema)[p]? = some head' ∧ Relation.TransGen (Extends schema) head head' := by
  induction hwalk with
  | single hp =>
      obtain ⟨head', hhead', hextends⟩ := (h.parentIs_iff hhead).mp hp
      exact ⟨head', hhead', .single hextends⟩
  | tail _ hp ih =>
      obtain ⟨between, hbetween, hwalk⟩ := ih
      obtain ⟨head', hhead', hextends⟩ := (h.parentIs_iff hbetween).mp hp
      exact ⟨head', hhead', hwalk.tail hextends⟩

/-- What a message declares to extend has a number, and is its parent. -/
theorem exists_parentIs (hhead : (heads schema)[id]? = some head)
    (hextends : Extends schema head head') :
    ∃ p : Nat, (heads schema)[p]? = some head' ∧ m.ParentIs id p := by
  obtain ⟨p, hp⟩ : ∃ p : Nat, (heads schema)[p]? = some head' := by
    obtain ⟨_, nested, -, hd, -⟩ := hextends
    exact exists_getElem?_heads hd
  exact ⟨p, hp, (h.parentIs_iff hhead).mpr ⟨head', hp, hextends⟩⟩

/-- A walk along the declarations is one along the parents. -/
theorem transGen_parentIs (hhead : (heads schema)[id]? = some head)
    (hwalk : Relation.TransGen (Extends schema) head head') :
    ∃ p : Nat, (heads schema)[p]? = some head' ∧ Relation.TransGen m.ParentIs id p := by
  induction hwalk with
  | single hextends =>
      obtain ⟨p, hp, hparent⟩ := h.exists_parentIs hhead hextends
      exact ⟨p, hp, .single hparent⟩
  | tail _ hextends ih =>
      obtain ⟨between, hbetween, hwalk⟩ := ih
      obtain ⟨p, hp, hparent⟩ := h.exists_parentIs hbetween hextends
      exact ⟨p, hp, hwalk.tail hparent⟩

theorem checkCycles_iff : m.checkCycles = .ok () ↔
    ∀ head ∈ heads schema, ¬ Relation.TransGen (Extends schema) head head := by
  rw [checkCycles_eq_ok_iff fun _ _ => h.lt_of_parentIs]
  constructor
  · intro hacyclic head hmem hwalk
    obtain ⟨id, hhead⟩ := List.mem_iff_getElem?.mp hmem
    obtain ⟨p, hp, hwalk⟩ := h.transGen_parentIs hhead hwalk
    -- names tell the places of messages
    obtain rfl : id = p := index_eq_of_nodup_map h.nodup_heads hhead hp rfl
    exact hacyclic id hwalk
  · intro hacyclic id hwalk
    obtain ⟨p, hp, -⟩ := Relation.TransGen.head'_iff.mp hwalk
    obtain ⟨head, hhead⟩ := h.exists_head (lt_of_parent hp)
    obtain ⟨head', hhead', hwalk⟩ := h.transGen_extends hhead hwalk
    rw [hhead, Option.some.injEq] at hhead'
    exact hacyclic head (List.mem_of_getElem? hhead) (hhead' ▸ hwalk)

theorem isAbstract (hhead : (heads schema)[id]? = some head) :
    (m.message id).isAbstract = head.isAbstract := by
  obtain ⟨file, nested, parent, heq⟩ := h.isRegistered hhead
  rw [heq]
  rfl

theorem checkAbstract_iff : m.checkAbstract = .ok () ↔
    ∀ head ∈ heads schema, ∀ head', Extends schema head head' →
      head.isAbstract = true → head'.isAbstract = true := by
  rw [checkAbstract_eq_ok_iff]
  constructor
  · intro habove head hmem head' hextends ha
    obtain ⟨id, hhead⟩ := List.mem_iff_getElem?.mp hmem
    obtain ⟨p, hp, hparent⟩ := h.exists_parentIs hhead hextends
    rw [← h.isAbstract hp]
    exact habove id p hparent ((h.isAbstract hhead).trans ha)
  · intro habove id p hp ha
    obtain ⟨head, hhead⟩ := h.exists_head (lt_of_parent hp)
    obtain ⟨head', hhead', hextends⟩ := (h.parentIs_iff hhead).mp hp
    rw [h.isAbstract hhead']
    exact habove head (List.mem_of_getElem? hhead) head' hextends
      ((h.isAbstract hhead).symm.trans ha)

theorem lookup_eq (reference : String) :
    m.lookup reference = (register schema).lookup reference := by
  obtain ⟨-, parents, -, rfl⟩ := h
  rfl

/-- The fields of all messages resolve if their types name definitions and no map is repeated. -/
theorem exists_fields_iff :
    (∃ fields, ((heads schema).mapM fun head => head.fields.mapM (m.resolveField head.name)) =
      .ok fields) ↔
    ∀ head ∈ heads schema, ∀ f ∈ head.fields,
      (∀ reference ∈ f.type.references, ∃ d, Names schema reference d) ∧
        (f.repeated = true → f.type.isMap = false) := by
  simp only [Except.exists_mapM_eq_ok_iff, exists_resolveField_iff, h.lookup_eq,
    exists_lookup_register h.nodup]

end IsLinked

/-- The parents of all messages are found if what they extend are messages. -/
theorem exists_isLinked_iff : (∃ linked, IsLinked schema linked) ↔
    ((definitions schema).map Definition.name).Nodup ∧
      ∀ head ∈ heads schema, ∀ parent, head.extends? = some parent →
        ∃ head' nested, Names schema parent (.message head' nested) := by
  constructor
  · rintro ⟨_, hnodup, parents, hparents, -⟩
    refine ⟨hnodup, fun head hhead parent hextends => ?_⟩
    obtain ⟨id, hid⟩ := exists_parentOf_iff.mp
      (Except.exists_mapM_eq_ok_iff.mp ⟨parents, hparents⟩ head hhead) parent hextends
    obtain ⟨head', nested, -, hname⟩ := (lookup_register_message hnodup).mp hid
    exact ⟨head', nested, hname⟩
  · rintro ⟨hnodup, hfound⟩
    obtain ⟨parents, hparents⟩ : ∃ parents,
        (heads schema).mapM (register schema).parentOf = .ok parents := by
      refine Except.exists_mapM_eq_ok_iff.mpr fun head hhead => ?_
      refine exists_parentOf_iff.mpr fun parent hextends => ?_
      obtain ⟨head', nested, hname⟩ := hfound head hhead parent hextends
      obtain ⟨id, hid⟩ := exists_getElem?_heads hname.1
      exact ⟨id, (lookup_register_message hnodup).mpr ⟨head', nested, hid, hname⟩⟩
    exact ⟨_, hnodup, parents, hparents, rfl⟩

/-- Resolving succeeds on the schemas that are well formed. -/
theorem exists_resolve_iff : (∃ m, resolve schema = .ok m) ↔ WellFormed schema := by
  simp only [resolve_eq_ok_iff]
  constructor
  · rintro ⟨m, linked, fields, hlinked, hcycles, habstract, hfields, -⟩
    obtain ⟨hnodup, hparents⟩ := exists_isLinked_iff.mp ⟨linked, hlinked⟩
    have hfield := hlinked.exists_fields_iff.mp ⟨fields, hfields⟩
    exact ⟨hnodup, hparents, hlinked.checkCycles_iff.mp hcycles,
      hlinked.checkAbstract_iff.mp habstract, fun head hhead f hf => (hfield head hhead f hf).1,
      fun head hhead f hf => (hfield head hhead f hf).2⟩
  · intro h
    obtain ⟨linked, hlinked⟩ := exists_isLinked_iff.mpr ⟨h.names, h.parents⟩
    obtain ⟨fields, hfields⟩ := hlinked.exists_fields_iff.mpr fun head hhead f hf =>
      ⟨h.references head hhead f hf, h.maps head hhead f hf⟩
    exact ⟨_, linked, fields, hlinked, hlinked.checkCycles_iff.mpr h.acyclic,
      hlinked.checkAbstract_iff.mpr h.abstractAbove, hfields, rfl⟩

/-! ## references into the model -/

/-- A reference to one of so many messages or enumerations. -/
def Reference.Below (messages enums : Nat) : Reference → Prop
  | .message id => id < messages
  | .enumeration id => id < enums

theorem Reference.Below.mono {r : Reference} {i i' j j' : Nat} (h : r.Below i j) (hi : i ≤ i')
    (hj : j ≤ j') : r.Below i' j' := by
  cases r with
  | message id => exact Nat.lt_of_lt_of_le h hi
  | enumeration id => exact Nat.lt_of_lt_of_le h hj

theorem below_references (firstMessage firstEnum : Nat) (ds : List Definition) :
    ∀ r ∈ references firstMessage firstEnum ds,
      r.Below (firstMessage + Definition.messageCountAll ds)
        (firstEnum + Definition.enumCountAll ds) := by
  induction ds generalizing firstMessage firstEnum with
  | nil => simp [references]
  | cons d rest ih =>
      rw [references, List.forall_mem_cons, Definition.messageCountAll, Definition.enumCountAll]
      refine ⟨?_, fun r hr => (ih _ _ r hr).mono (by omega) (by omega)⟩
      cases d with
      | message head nested =>
          show firstMessage < firstMessage + (Definition.messageCountAll nested + 1 + _)
          omega
      | enumeration e =>
          show firstEnum < firstEnum + (1 + _)
          omega

mutual

theorem below_nested_messagesOf (file firstMessage firstEnum : Nat) : (d : Definition) →
    ∀ message ∈ messagesOf file firstMessage firstEnum d, ∀ r ∈ message.nested,
      r.Below (firstMessage + d.messageCount) (firstEnum + d.enumCount)
  | .message head nested => by
      rw [messagesOf, List.forall_mem_cons, Definition.messageCount, Definition.enumCount]
      refine ⟨fun r hr => ?_, fun message hmessage r hr => ?_⟩
      · exact (below_references _ _ nested r hr).mono (by omega) (by omega)
      · exact (below_nested_messagesOfAll file _ _ nested message hmessage r hr).mono (by omega)
          (by omega)
  | .enumeration e => by simp [messagesOf]

theorem below_nested_messagesOfAll (file firstMessage firstEnum : Nat) : (ds : List Definition) →
    ∀ message ∈ messagesOfAll file firstMessage firstEnum ds, ∀ r ∈ message.nested,
      r.Below (firstMessage + Definition.messageCountAll ds)
        (firstEnum + Definition.enumCountAll ds)
  | [] => by simp [messagesOfAll]
  | d :: rest => by
      rw [messagesOfAll, List.forall_mem_append, Definition.messageCountAll,
        Definition.enumCountAll]
      refine ⟨fun message hmessage r hr => ?_, fun message hmessage r hr => ?_⟩
      · exact (below_nested_messagesOf file _ _ d message hmessage r hr).mono (by omega) (by omega)
      · exact (below_nested_messagesOfAll file _ _ rest message hmessage r hr).mono (by omega)
          (by omega)

end

theorem preorderAll_append (ds ds' : List Definition) :
    Definition.preorderAll (ds ++ ds') =
      Definition.preorderAll ds ++ Definition.preorderAll ds' := by
  induction ds with
  | nil => rfl
  | cons d rest ih =>
      rw [List.cons_append, Definition.preorderAll, ih, Definition.preorderAll, List.append_assoc]

theorem definitions_eq (schema : Schema) :
    definitions schema = Definition.preorderAll (schema.files.flatMap (·.definitions)) := by
  unfold definitions
  induction schema.files with
  | nil => rfl
  | cons file rest ih => rw [List.flatMap_cons, List.flatMap_cons, preorderAll_append, ih]

mutual

theorem length_preorder : (d : Definition) →
    (d.preorder.filterMap Definition.head?).length = d.messageCount ∧
      (d.preorder.filterMap Definition.enumeration?).length = d.enumCount
  | .message head nested => by
      obtain ⟨hmessages, henums⟩ := length_preorderAll nested
      rw [Definition.preorder, Definition.messageCount, Definition.enumCount]
      exact ⟨congrArg Nat.succ hmessages, henums⟩
  | .enumeration e => ⟨rfl, rfl⟩

theorem length_preorderAll : (ds : List Definition) →
    ((Definition.preorderAll ds).filterMap Definition.head?).length =
        Definition.messageCountAll ds ∧
      ((Definition.preorderAll ds).filterMap Definition.enumeration?).length =
        Definition.enumCountAll ds
  | [] => ⟨rfl, rfl⟩
  | d :: rest => by
      obtain ⟨hmessages, henums⟩ := length_preorder d
      obtain ⟨hmessages', henums'⟩ := length_preorderAll rest
      simp [Definition.preorderAll, Definition.messageCountAll, Definition.enumCountAll, hmessages,
        henums, hmessages', henums']

end

theorem countAll_append (ds ds' : List Definition) :
    Definition.messageCountAll (ds ++ ds') =
        Definition.messageCountAll ds + Definition.messageCountAll ds' ∧
      Definition.enumCountAll (ds ++ ds') =
        Definition.enumCountAll ds + Definition.enumCountAll ds' := by
  simp only [← (length_preorderAll _).1, ← (length_preorderAll _).2, preorderAll_append,
    List.filterMap_append, List.length_append, and_self]

theorem below_nested_numberFiles (firstFile firstMessage firstEnum : Nat)
    (files : List Schema.File) :
    ∀ message ∈ numberFiles firstFile firstMessage firstEnum files, ∀ r ∈ message.nested,
      r.Below (firstMessage + Definition.messageCountAll (files.flatMap (·.definitions)))
        (firstEnum + Definition.enumCountAll (files.flatMap (·.definitions))) := by
  induction files generalizing firstFile firstMessage firstEnum with
  | nil => simp [numberFiles]
  | cons file rest ih =>
      obtain ⟨hmessages, henums⟩ := countAll_append file.definitions
        (rest.flatMap (·.definitions))
      rw [numberFiles, List.forall_mem_append, List.flatMap_cons, hmessages, henums]
      refine ⟨fun message hmessage r hr => ?_, fun message hmessage r hr => ?_⟩
      · exact (below_nested_messagesOfAll _ _ _ _ message hmessage r hr).mono (by omega) (by omega)
      · exact (ih _ _ _ message hmessage r hr).mono (by omega) (by omega)

theorem nameTable_append (firstMessage firstEnum : Nat) (ds ds' : List Definition) :
    nameTable firstMessage firstEnum (ds ++ ds') =
      nameTable firstMessage firstEnum ds ++
        nameTable (firstMessage + (ds.filterMap Definition.head?).length)
          (firstEnum + (ds.filterMap Definition.enumeration?).length) ds' := by
  induction ds generalizing firstMessage firstEnum with
  | nil => rfl
  | cons d rest ih =>
      cases d with
      | message head nested =>
          simp [nameTable, ih, List.filterMap_cons, Definition.head?, Definition.enumeration?,
            Nat.add_assoc, Nat.add_comm 1]
      | enumeration e =>
          simp [nameTable, ih, List.filterMap_cons, Definition.head?, Definition.enumeration?,
            Nat.add_assoc, Nat.add_comm 1]

theorem below_nameTable (firstMessage firstEnum : Nat) (ds : List Definition) :
    ∀ entry ∈ nameTable firstMessage firstEnum ds,
      entry.2.Below (firstMessage + (ds.filterMap Definition.head?).length)
        (firstEnum + (ds.filterMap Definition.enumeration?).length) := by
  induction ds generalizing firstMessage firstEnum with
  | nil => simp [nameTable]
  | cons d rest ih =>
      cases d with
      | message head nested =>
          rw [nameTable, List.forall_mem_cons]
          refine ⟨?_, fun entry hentry => (ih _ _ entry hentry).mono ?_ (Nat.le_refl _)⟩
          · show firstMessage < firstMessage + (_ + 1)
            omega
          · simp only [List.filterMap_cons, Definition.head?, List.length_cons]
            omega
      | enumeration e =>
          rw [nameTable, List.forall_mem_cons]
          refine ⟨?_, fun entry hentry => (ih _ _ entry hentry).mono (Nat.le_refl _) ?_⟩
          · show firstEnum < firstEnum + (_ + 1)
            omega
          · simp only [List.filterMap_cons, Definition.enumeration?, List.length_cons]
            omega

/-- The definitions that a resolved type refers to. -/
def Kind.references : Kind → List Reference
  | .primitive _ => []
  | .message id => [.message id]
  | .enumeration id => [.enumeration id]
  | .map key value => key.references ++ value.references

theorem mem_names_of_lookup {r : Reference} (h : m.lookup reference = some r) :
    ∃ name, (name, r) ∈ m.names := by
  unfold lookup at h
  split at h
  · next hfound =>
      cases h
      exact ⟨_, mem_of_lookup hfound⟩
  · obtain ⟨segment, -, hfound⟩ := Option.bind_eq_some_iff.mp h
    exact ⟨_, mem_of_lookup hfound⟩

/-- The types of fields refer to definitions that have a name. -/
theorem mem_names_of_resolveType {type : FieldType}
    (h : m.resolveType name field type = .ok kind) :
    ∀ r ∈ kind.references, ∃ name, (name, r) ∈ m.names := by
  induction type generalizing kind with
  | primitive p => cases h; simp [Kind.references]
  | custom reference =>
      rw [resolveType] at h
      split at h
      · next hfound =>
          cases h
          simpa [Kind.references] using mem_names_of_lookup hfound
      · next hfound =>
          cases h
          simpa [Kind.references] using mem_names_of_lookup hfound
      · contradiction
  | map key value ihk ihv =>
      obtain ⟨k, hk, h'⟩ := Except.bind_eq_ok h
      obtain ⟨v, hv, h''⟩ := Except.bind_eq_ok h'
      cases h''
      rw [Kind.references, List.forall_mem_append]
      exact ⟨ihk hk, ihv hv⟩

/-- A model has what a reference points to. -/
def Has (m : Model) (r : Reference) : Prop := r.Below m.messages.length m.enumerations.length

/-- All references that a model holds point into it. -/
structure ReferencesWithin (m : Model) : Prop where
  names : ∀ entry ∈ m.names, m.Has entry.2
  roots : ∀ r ∈ m.roots, m.Has r
  nested : ∀ message ∈ m.messages, ∀ r ∈ message.nested, m.Has r
  parents : ∀ message ∈ m.messages, ∀ p, message.parent = some p → m.Has (.message p)
  specializations : ∀ id, ∀ x ∈ m.specializations id, m.Has (.message x)
  kinds : ∀ message ∈ m.messages, ∀ f ∈ message.fields, ∀ r ∈ f.kind.references, m.Has r

theorem referencesWithin_of_resolve (h : resolve schema = .ok m) : m.ReferencesWithin := by
  have hmessages : m.messages.length =
      Definition.messageCountAll (schema.files.flatMap (·.definitions)) := by
    rw [← (forall₂_resolve h).1.length_eq, heads_eq, definitions_eq, (length_preorderAll _).1]
  have henums : m.enumerations.length =
      Definition.enumCountAll (schema.files.flatMap (·.definitions)) := by
    rw [← (forall₂_resolve h).2.length_eq, enumerationHeads, definitions_eq,
      (length_preorderAll _).2]
  obtain ⟨linked, fields, hlinked, -, -, hfields, rfl⟩ := resolve_eq_ok_iff.mp h
  -- a message is a registered one with a parent and fields
  have hmessage : ∀ message ∈ (linked.setFields fields).messages, ∃ base ∈ linked.messages,
      ∃ fs ∈ fields, { base with fields := fs } = message := fun message hmessage =>
    exists_of_mem_zipWith hmessage
  have hnames : ∀ entry ∈ linked.names, (linked.setFields fields).Has entry.2 := by
    obtain ⟨-, parents, -, rfl⟩ := hlinked
    intro entry hentry
    have hbelow := below_nameTable 0 0 (definitions schema) entry (names_register schema ▸ hentry)
    rw [definitions_eq, (length_preorderAll _).1, (length_preorderAll _).2, Nat.zero_add,
      Nat.zero_add] at hbelow
    rw [Has, hmessages, henums]
    exact hbelow
  refine ⟨hnames, fun r hr => ?_, fun message hm r hr => ?_, fun message hm p hp => ?_,
    fun id x hx => ?_, fun message hm f hf r hr => ?_⟩
  · obtain ⟨-, parents, -, rfl⟩ := hlinked
    have hbelow := below_references 0 0 _ r hr
    rw [Nat.zero_add, Nat.zero_add] at hbelow
    rw [Has, hmessages, henums]
    exact hbelow
  · obtain ⟨base, hbase, fs, -, rfl⟩ := hmessage message hm
    obtain ⟨-, parents, -, rfl⟩ := hlinked
    obtain ⟨registered, hregistered, parent, -, rfl⟩ := exists_of_mem_zipWith hbase
    have hbelow := below_nested_numberFiles 0 0 0 _ registered hregistered r hr
    rw [Nat.zero_add, Nat.zero_add] at hbelow
    rw [Has, hmessages, henums]
    exact hbelow
  · obtain ⟨base, hbase, fs, -, rfl⟩ := hmessage message hm
    obtain ⟨id, hid, rfl⟩ := List.getElem_of_mem hbase
    have hparent : linked.ParentIs id p := by rwa [ParentIs, message_of_lt hid]
    have hlt := hlinked.lt_of_parentIs hparent
    show p < (linked.setFields fields).messages.length
    rwa [hmessages, ← (length_preorderAll _).1, ← definitions_eq, ← heads_eq,
      hlinked.forall₂_isRegistered.length_eq]
  · exact lt_of_parent (mem_specializations.mp hx)
  · obtain ⟨base, -, fs, hfs, rfl⟩ := hmessage message hm
    obtain ⟨head, -, hresolved⟩ := Except.exists_of_mapM_eq_ok hfields hfs
    obtain ⟨f₀, -, hf₀⟩ := Except.exists_of_mapM_eq_ok hresolved hf
    obtain ⟨kind, hkind, h'⟩ := Except.bind_eq_ok hf₀
    have hsame : f.kind = kind := by
      split at h'
      · contradiction
      · cases h'
        rfl
    obtain ⟨name, hname⟩ := mem_names_of_resolveType hkind r (hsame ▸ hr)
    exact hnames _ hname

/-! ## complete lines -/

/-- The messages from a parent upwards, each with the one that it extends behind it, up to one that
extends none. -/
inductive IsLine (m : Model) : Option MessageId → List MessageId → Prop where
  | none : IsLine m none []
  | some : IsLine m (m.message a).parent above → IsLine m (some a) (a :: above)

theorem isLine_ascent (hm : m.IsForest) (id : MessageId) :
    m.IsLine (m.message id).parent (m.ascent id) := by
  induction id using hm.induction with
  | root id hp =>
      rw [hp, ascent_of_none hp]
      exact .none
  | step id p hp ih =>
      rw [hp, ascent_of_some hm hp]
      exact .some ih

/-- **Resolving** succeeds exactly on the schemas that are well formed.  All references of the model
then point into it, and the ancestors of a message are the whole line above it, which is shorter
than the number of messages and so never cut. -/
theorem resolve_iff_wellFormed (schema : Schema) :
    ((∃ m, resolve schema = .ok m) ↔ WellFormed schema) ∧
      ∀ m, resolve schema = .ok m → m.ReferencesWithin ∧
        ∀ id < m.messages.length, m.IsLine (m.message id).parent (m.ancestors id).reverse ∧
          (m.ancestors id).length < m.messages.length := by
  refine ⟨exists_resolve_iff, fun m hm => ⟨referencesWithin_of_resolve hm, fun id hid => ?_⟩⟩
  have hforest := (resolve_ok hm).1
  rw [ancestors, List.reverse_reverse, List.length_reverse]
  exact ⟨isLine_ascent hforest id, hforest id hid⟩

open Schema.Definition in
/-- Two messages that extend each other, one of them by a name with a dot. -/
def ring : Schema := .ofDefinitions
  [(ofFields "Head" []).extending "Tail", (ofFields "Tail" []).extending "snake.Head"]

theorem resolve_iff_wellFormed_zoo : ¬ WellFormed ring ∧ WellFormed Example.zoo ∧
    ∃ m, resolve Example.zoo = .ok m ∧ m.ReferencesWithin ∧ m.ancestors 2 = [0, 1] ∧
      m.IsLine (m.message 2).parent [1, 0] := by
  have hring : ∀ m, resolve ring ≠ .ok m := by
    have hnone : (resolve ring).toOption.isNone = true := by decide +kernel
    intro m hm
    rw [hm] at hnone
    contradiction
  have hmodel : (resolve Example.zoo).toOption.any (fun m => decide
      (2 < m.messages.length ∧ m.ancestors 2 = [0, 1])) = true := by
    decide +kernel
  obtain ⟨m, hm, hfacts⟩ := (Option.any_eq_true _ _).mp hmodel
  obtain ⟨hlt, hancestors⟩ := of_decide_eq_true hfacts
  have hm := Except.toOption_eq_some.mp hm
  obtain ⟨hwithin, hlines⟩ := (resolve_iff_wellFormed Example.zoo).2 m hm
  have hline := (hlines 2 hlt).1
  rw [hancestors] at hline
  refine ⟨fun h => ?_, (resolve_iff_wellFormed Example.zoo).1.mp ⟨m, hm⟩, m, hm, hwithin,
    hancestors, hline⟩
  obtain ⟨m, hm⟩ := (resolve_iff_wellFormed ring).1.mpr h
  exact hring m hm

end Missive.Model
