import Missive.Proofs.Model.WellFormed

/-!
# Missive.Proofs.Model.Growth

Schemas that grow at the end.

A definition is added after all others (`Schema.Adds`), or messages and enumerations declare more
after what they declare already (`Schema.grow`).  Either way nothing that was numbered before is
numbered anew, and a name that stood for a definition stands for the same one (`Grows`).  So the
messages that resolving gives are those from before, with the fields that were added
(`exists_isExtension`).
-/

namespace Missive

namespace Schema

/-! ## larger schemas -/

/-- A definition is added after all others: at the end of the last file, or in a file of its own. -/
inductive Adds (d : Definition) : Schema → Schema → Prop where
  | toLast (files : List File) (last : File) (options : List OptionSet) :
      Adds d ⟨files ++ [last], options⟩
        ⟨files ++ [{ last with definitions := last.definitions ++ [d] }], options⟩
  | asLast (schema : Schema) (file : File) (h : file.definitions = [d]) :
      Adds d schema { schema with files := schema.files ++ [file] }

/-- A definition that fixes no discriminator, and whose name and those inside it have no dots. -/
def Definition.IsPlain (d : Definition) : Prop :=
  ∀ d' ∈ d.preorder, '.' ∉ d'.name.toList ∧ ∀ head ∈ d'.head?, head.id = none

/-- A message that declares more fields. -/
def MessageHead.grow (fields : MessageHead → List Field) (head : MessageHead) : MessageHead :=
  { head with fields := head.fields ++ fields head }

/-- An enumeration that declares more constants. -/
def Enumeration.grow (constants : Enumeration → List Constant) (e : Enumeration) : Enumeration :=
  { e with constants := e.constants ++ constants e }

section

variable (fields : MessageHead → List Field) (constants : Enumeration → List Constant)

mutual

/-- A definition with more fields and constants, in it and inside it. -/
def Definition.grow : Definition → Definition
  | .message head nested => .message (head.grow fields) (growAll nested)
  | .enumeration e => .enumeration (e.grow constants)

def Definition.growAll : List Definition → List Definition
  | [] => []
  | d :: rest => grow d :: growAll rest

end

/-- A file with more fields and constants. -/
def File.grow (file : File) : File :=
  { file with definitions := Definition.growAll fields constants file.definitions }

/-- A schema with more fields and constants. -/
def grow (schema : Schema) : Schema :=
  { schema with files := schema.files.map (File.grow fields constants) }

end

/-- A field is added to the message of a name. -/
def addField (name : String) (f : Field) : Schema → Schema :=
  grow (fun head => if head.name = name then [f] else []) fun _ => []

/-- A constant is added to the enumeration of a name. -/
def addConstant (name : String) (c : Constant) : Schema → Schema :=
  grow (fun _ => []) fun e => if e.name = name then [c] else []

end Schema

namespace Model

open Schema

variable {m m' : Model} {schema schema' : Schema} {d : Definition} {id p : MessageId}

/-! ## one more definition -/

theorem messagesOfAll_append (file firstMessage firstEnum : Nat) (ds ds' : List Definition) :
    messagesOfAll file firstMessage firstEnum (ds ++ ds') =
      messagesOfAll file firstMessage firstEnum ds ++
        messagesOfAll file (firstMessage + Definition.messageCountAll ds)
          (firstEnum + Definition.enumCountAll ds) ds' := by
  induction ds generalizing firstMessage firstEnum with
  | nil => rfl
  | cons d rest ih =>
      rw [List.cons_append, messagesOfAll, ih, messagesOfAll, Definition.messageCountAll,
        Definition.enumCountAll, List.append_assoc, Nat.add_assoc, Nat.add_assoc]

theorem numberFiles_append (firstFile firstMessage firstEnum : Nat) (files : List Schema.File) :
    ∃ k i j, ∀ more, numberFiles firstFile firstMessage firstEnum (files ++ more) =
      numberFiles firstFile firstMessage firstEnum files ++ numberFiles k i j more := by
  induction files generalizing firstFile firstMessage firstEnum with
  | nil => exact ⟨_, _, _, fun _ => rfl⟩
  | cons file rest ih =>
      obtain ⟨k, i, j, hrest⟩ := ih (firstFile + 1)
        (firstMessage + Definition.messageCountAll file.definitions)
        (firstEnum + Definition.enumCountAll file.definitions)
      refine ⟨k, i, j, fun more => ?_⟩
      rw [List.cons_append, numberFiles, hrest, numberFiles, List.append_assoc]

/-- What an added definition declares comes after all else. -/
theorem declared_of_adds (h : schema.Adds d schema') :
    ∃ file, declared schema' = declared schema ++ d.preorder.map fun d => (file, d) := by
  cases h with
  | toLast files last options =>
      refine ⟨files.length, ?_⟩
      simp [declared, List.zipIdx_append, preorderAll_append, Definition.preorderAll]
  | asLast schema file h =>
      refine ⟨schema.files.length, ?_⟩
      simp [declared, List.zipIdx_append, h, Definition.preorderAll]

theorem messages_of_adds (h : schema.Adds d schema') :
    (register schema).messages <+: (register schema').messages := by
  cases h with
  | toLast files last options =>
      obtain ⟨k, i, j, happend⟩ := numberFiles_append 0 0 0 files
      simp only [register, happend, numberFiles, List.append_nil, messagesOfAll_append]
      rw [← List.append_assoc]
      exact List.prefix_append _ _
  | asLast schema file h =>
      obtain ⟨k, i, j, happend⟩ := numberFiles_append 0 0 0 schema.files
      simp only [register, happend]
      exact List.prefix_append _ _

/-- Without dots in them, new names hide no name that a reference stood for. -/
theorem lookup_of_append (hnames : m'.names = m.names ++ extra)
    (hplain : ∀ name ∈ extra.map Prod.fst, '.' ∉ name.toList)
    (h : m.lookup reference = some r) : m'.lookup reference = some r := by
  unfold lookup at h ⊢
  rw [hnames, List.lookup_append]
  cases hfound : m.names.lookup reference with
  | some r' => rw [hfound] at h; simpa using h
  | none =>
      rw [hfound] at h
      obtain ⟨segment, hsegment, hr⟩ := Option.bind_eq_some_iff.mp h
      have hnew : extra.lookup reference = none := by
        refine lookup_eq_none_iff_not_mem.mpr fun hmem => hplain reference hmem ?_
        rw [lastSegment?] at hsegment
        split at hsegment
        · next hdot => simpa using hdot
        · contradiction
      simp [hnew, hsegment, List.lookup_append, hr]

/-! ## more fields and constants -/

section

variable (fields : MessageHead → List Schema.Field)
  (constants : Schema.Enumeration → List Schema.Constant)

mutual

theorem preorder_grow : (d : Definition) →
    (d.grow fields constants).preorder = d.preorder.map (Definition.grow fields constants)
  | .message head nested => by
      rw [Definition.grow, Definition.preorder, Definition.preorder, List.map_cons,
        Definition.grow, preorderAll_grow nested]
  | .enumeration e => by
      rw [Definition.grow, Definition.preorder, Definition.preorder, List.map_singleton,
        Definition.grow]

theorem preorderAll_grow : (ds : List Definition) →
    Definition.preorderAll (Definition.growAll fields constants ds) =
      (Definition.preorderAll ds).map (Definition.grow fields constants)
  | [] => rfl
  | d :: rest => by
      rw [Definition.growAll, Definition.preorderAll, Definition.preorderAll, List.map_append,
        preorder_grow d, preorderAll_grow rest]

end

theorem head?_grow (d : Definition) :
    (d.grow fields constants).head? = d.head?.map (MessageHead.grow fields) := by
  cases d <;> simp [Definition.grow, Definition.head?]

theorem enumeration?_grow (d : Definition) :
    (d.grow fields constants).enumeration? = d.enumeration?.map (Enumeration.grow constants) := by
  cases d <;> simp [Definition.grow, Definition.enumeration?]

theorem declared_grow (schema : Schema) :
    declared (schema.grow fields constants) =
      (declared schema).map fun (file, d) => (file, d.grow fields constants) := by
  simp [declared, grow, File.grow, preorderAll_grow, List.zipIdx_map, List.map_flatMap,
    List.flatMap_map, Function.comp_def]

theorem definitions_grow (schema : Schema) :
    definitions (schema.grow fields constants) =
      (definitions schema).map (Definition.grow fields constants) := by
  rw [← map_snd_declared, declared_grow, ← map_snd_declared, List.map_map, List.map_map]
  rfl

theorem countAll_grow (ds : List Definition) :
    Definition.messageCountAll (Definition.growAll fields constants ds) =
        Definition.messageCountAll ds ∧
      Definition.enumCountAll (Definition.growAll fields constants ds) =
        Definition.enumCountAll ds := by
  simp [← (length_preorderAll _).1, ← (length_preorderAll _).2, preorderAll_grow,
    List.filterMap_map, head?_grow, enumeration?_grow, ← List.map_filterMap]

theorem count_grow (d : Definition) :
    (d.grow fields constants).messageCount = d.messageCount ∧
      (d.grow fields constants).enumCount = d.enumCount := by
  simp [← (length_preorder _).1, ← (length_preorder _).2, preorder_grow,
    List.filterMap_map, head?_grow, enumeration?_grow, ← List.map_filterMap]

theorem references_grow (firstMessage firstEnum : Nat) (ds : List Definition) :
    references firstMessage firstEnum (Definition.growAll fields constants ds) =
      references firstMessage firstEnum ds := by
  induction ds generalizing firstMessage firstEnum with
  | nil => rfl
  | cons d rest ih =>
      obtain ⟨hmessages, henums⟩ := count_grow fields constants d
      rw [Definition.growAll, references, hmessages, henums, ih, references]
      cases d <;> rfl

mutual

theorem messagesOf_grow (file firstMessage firstEnum : Nat) : (d : Definition) →
    messagesOf file firstMessage firstEnum (d.grow fields constants) =
      messagesOf file firstMessage firstEnum d
  | .message head nested => by
      rw [Definition.grow, messagesOf, references_grow, messagesOfAll_grow _ _ _ nested,
        messagesOf]
      rfl
  | .enumeration e => rfl

theorem messagesOfAll_grow (file firstMessage firstEnum : Nat) : (ds : List Definition) →
    messagesOfAll file firstMessage firstEnum (Definition.growAll fields constants ds) =
      messagesOfAll file firstMessage firstEnum ds
  | [] => rfl
  | d :: rest => by
      obtain ⟨hmessages, henums⟩ := count_grow fields constants d
      rw [Definition.growAll, messagesOfAll, messagesOf_grow _ _ _ d, hmessages, henums,
        messagesOfAll_grow _ _ _ rest, messagesOfAll]

end

theorem numberFiles_grow (firstFile firstMessage firstEnum : Nat) (files : List Schema.File) :
    numberFiles firstFile firstMessage firstEnum (files.map (File.grow fields constants)) =
      numberFiles firstFile firstMessage firstEnum files := by
  induction files generalizing firstFile firstMessage firstEnum with
  | nil => rfl
  | cons file rest ih =>
      obtain ⟨hmessages, henums⟩ := countAll_grow fields constants file.definitions
      rw [List.map_cons, numberFiles, File.grow, messagesOfAll_grow, hmessages, henums, ih,
        numberFiles]

theorem nameTable_grow (firstMessage firstEnum : Nat) (ds : List Definition) :
    nameTable firstMessage firstEnum (ds.map (Definition.grow fields constants)) =
      nameTable firstMessage firstEnum ds := by
  induction ds generalizing firstMessage firstEnum with
  | nil => rfl
  | cons d rest ih =>
      cases d with
      | message head nested =>
          rw [List.map_cons, Definition.grow, nameTable, ih, nameTable]
          rfl
      | enumeration e =>
          rw [List.map_cons, Definition.grow, nameTable, ih, nameTable]
          rfl

theorem heads_grow (schema : Schema) :
    heads (schema.grow fields constants) = (heads schema).map (MessageHead.grow fields) := by
  simp only [heads_eq, definitions_grow, List.filterMap_map, Function.comp_def, head?_grow,
    List.map_filterMap]

theorem enumerationsOf_grow (schema : Schema) :
    enumerationsOf (schema.grow fields constants) = (declared schema).filterMap fun
      | (file, .enumeration e) => some (.ofDeclared (e.grow constants) file)
      | _ => none := by
  rw [enumerationsOf, declared_grow, List.filterMap_map]
  congr 1
  funext entry
  obtain ⟨file, d⟩ := entry
  cases d <;> rfl

end

/-! ## what was there before -/

/-- How a schema that has grown relates to the one from before.  Messages declare `fields` more. -/
structure Grows (schema schema' : Schema) (fields : MessageHead → List Schema.Field) : Prop where
  messages : (register schema).messages <+: (register schema').messages
  /-- The messages that are new fix no discriminator. -/
  heads : ∃ extra, heads schema' = (heads schema).map (MessageHead.grow fields) ++ extra ∧
    ∀ head ∈ extra, head.id = none
  /-- A name that stood for a definition stands for it. -/
  lookup : ∀ reference r, (register schema).lookup reference = some r →
    (register schema').lookup reference = some r

theorem grows_of_adds (h : schema.Adds d schema') (hd : d.IsPlain) :
    Grows schema schema' fun _ => [] := by
  obtain ⟨file, hdeclared⟩ := declared_of_adds h
  have hdefinitions : definitions schema' = definitions schema ++ d.preorder := by
    rw [← map_snd_declared, hdeclared, List.map_append, map_snd_declared]
    simp
  refine ⟨messages_of_adds h, ⟨d.preorder.filterMap Definition.head?, ?_, fun head hhead => ?_⟩,
    fun reference r hr => ?_⟩
  · have hsame : MessageHead.grow (fun _ => []) = id := by
      funext head
      simp [MessageHead.grow]
    rw [heads_eq, hdefinitions, List.filterMap_append, ← heads_eq, hsame, List.map_id]
  · obtain ⟨d', hd', hhead⟩ := List.mem_filterMap.mp hhead
    exact (hd d' hd').2 head hhead
  · have hnames := nameTable_append 0 0 (definitions schema) d.preorder
    rw [← hdefinitions, ← names_register, ← names_register] at hnames
    refine lookup_of_append hnames (fun name hname => ?_) hr
    rw [map_fst_nameTable] at hname
    obtain ⟨d', hd', rfl⟩ := List.mem_map.mp hname
    exact (hd d' hd').1

theorem grows_grow (fields : MessageHead → List Schema.Field)
    (constants : Schema.Enumeration → List Schema.Constant) (schema : Schema) :
    Grows schema (schema.grow fields constants) fields := by
  have hnames : (register (schema.grow fields constants)).names = (register schema).names := by
    rw [names_register, definitions_grow, nameTable_grow, names_register]
  refine ⟨?_, ⟨[], by rw [heads_grow, List.append_nil], by simp⟩, fun reference r hr => ?_⟩
  · have hmessages : (register (schema.grow fields constants)).messages =
        (register schema).messages := numberFiles_grow fields constants 0 0 0 schema.files
    rw [hmessages]
  · exact lookup_of_append (by rw [hnames, List.append_nil]) (by simp) hr

/-! ## resolving -/

theorem parentOf_of_lookup (hlookup : ∀ reference r, m.lookup reference = some r →
    m'.lookup reference = some r) {head : MessageHead} (h : m.parentOf head = .ok parent) :
    m'.parentOf head = .ok parent := by
  unfold parentOf at h ⊢
  cases hextends : head.extends? with
  | none => rw [hextends] at h; exact h
  | some reference =>
      simp only [hextends] at h
      split at h
      · next hfound => simpa only [hlookup _ _ hfound] using h
      · contradiction
      · contradiction

theorem resolveType_of_lookup (hlookup : ∀ reference r, m.lookup reference = some r →
    m'.lookup reference = some r) {type : FieldType}
    (h : m.resolveType name field type = .ok kind) :
    m'.resolveType name field type = .ok kind := by
  induction type generalizing kind with
  | primitive p => exact h
  | custom reference =>
      rw [resolveType] at h ⊢
      split at h
      · next hfound => rw [hlookup _ _ hfound]; exact h
      · next hfound => rw [hlookup _ _ hfound]; exact h
      · contradiction
  | map key value ihk ihv =>
      obtain ⟨k, hk, h'⟩ := Except.bind_eq_ok h
      obtain ⟨v, hv, h''⟩ := Except.bind_eq_ok h'
      rw [resolveType, ihk hk, Except.ok_bind, ihv hv, Except.ok_bind]
      exact h''

theorem resolveField_of_lookup (hlookup : ∀ reference r, m.lookup reference = some r →
    m'.lookup reference = some r) {f : Schema.Field} (h : m.resolveField name f = .ok f') :
    m'.resolveField name f = .ok f' := by
  obtain ⟨kind, hkind, h'⟩ := Except.bind_eq_ok h
  rw [resolveField, resolveType_of_lookup hlookup hkind]
  exact h'

/-- A resolved message is the registered one with its parent and its fields. -/
theorem message_of_resolve (h : resolve schema = .ok m) (hhead : (heads schema)[id]? = some head) :
    (register schema).parentOf head = .ok (m.message id).parent ∧
      head.fields.mapM ((register schema).resolveField head.name) = .ok (m.message id).fields ∧
      m.message id = { (register schema).message id with
        parent := (m.message id).parent
        fields := (m.message id).fields } := by
  obtain ⟨linked, fields, hlinked, -, -, hfields, rfl⟩ := resolve_eq_ok_iff.mp h
  have hall := Except.forall₂_of_mapM_eq_ok hfields
  obtain ⟨hid, rfl⟩ := List.getElem?_eq_some_iff.mp hhead
  have hlinkedLt : id < linked.messages.length := hlinked.forall₂_isRegistered.length_eq ▸ hid
  have hfieldsLt : id < fields.length := hall.length_eq ▸ hid
  have hle : linked.messages.length ≤ fields.length := by
    rw [← hlinked.forall₂_isRegistered.length_eq, hall.length_eq]
  have hmessage : (linked.setFields fields).message id =
      { linked.message id with fields := fields[id] } := by
    rw [message_setFields hle, if_pos hlinkedLt, List.getD_eq_getElem _ _ hfieldsLt]
  have hresolved := hall.get hid hfieldsLt
  rw [hmessage]
  refine ⟨hlinked.parentOf hhead, ?_, ?_⟩
  · refine Except.mapM_eq_ok_iff.mpr ((Except.mapM_eq_ok_iff.mp hresolved).imp fun f f' hf => ?_)
    refine resolveField_of_lookup (fun reference r hr => ?_) hf
    rwa [← hlinked.lookup_eq]
  · obtain ⟨-, parents, hparents, rfl⟩ := hlinked
    have hlength := (Except.forall₂_of_mapM_eq_ok hparents).length_eq
    have hregistered := (forall₂_register schema).length_eq
    simp [message, setParents, List.getD, hlength ▸ hid, hregistered ▸ hid]

/-- A message of a schema that has grown is the one from before, with the fields that were added. -/
theorem message_of_grows {fields : MessageHead → List Schema.Field} {head : MessageHead}
    (hgrows : Grows schema schema' fields) (h : resolve schema = .ok m)
    (h' : resolve schema' = .ok m') (hhead : (heads schema)[id]? = some head) :
    ∃ added, List.Forall₂ Field.IsDeclared (fields head) added ∧
      m'.message id = { m.message id with fields := (m.message id).fields ++ added } := by
  have hid : id < (heads schema).length := (List.getElem?_eq_some_iff.mp hhead).1
  have hhead' : (heads schema')[id]? = some (head.grow fields) := by
    obtain ⟨extra, hheads, -⟩ := hgrows.heads
    rw [hheads, List.getElem?_append_left (by simpa using hid), List.getElem?_map, hhead]
    rfl
  have hregistered : (register schema').message id = (register schema).message id := by
    obtain ⟨rest, hrest⟩ := hgrows.messages
    rw [message, ← hrest, List.getD_append _ _ _ _ ((forall₂_register schema).length_eq ▸ hid),
      message]
  obtain ⟨hparent, hfields, heq⟩ := message_of_resolve h hhead
  obtain ⟨hparent', hfields', heq'⟩ := message_of_resolve h' hhead'
  -- the parent is found again, and so are the fields that were there before
  have hparents : (m'.message id).parent = (m.message id).parent :=
    Except.ok.inj (hparent'.symm.trans (parentOf_of_lookup hgrows.lookup hparent))
  have hagain := Except.mapM_eq_ok_iff.mpr ((Except.mapM_eq_ok_iff.mp hfields).imp
    fun f f' hf => resolveField_of_lookup hgrows.lookup hf)
  rw [MessageHead.grow, List.mapM_append, hagain, Except.ok_bind] at hfields'
  obtain ⟨added, hadded, hsplit⟩ := Except.bind_eq_ok hfields'
  refine ⟨added, (Except.mapM_eq_ok_iff.mp hadded).imp fun _ _ => isDeclared_of_resolveField, ?_⟩
  rw [heq', hregistered, hparents, ← Except.ok.inj hsplit]
  nth_rewrite 3 [heq]
  rfl

/-- `m'` has the messages of `m`, with more fields, and then others that fix no discriminator. -/
structure IsExtension (m m' : Model) (added : MessageId → List Field) : Prop where
  length : m.messages.length ≤ m'.messages.length
  message : ∀ id < m.messages.length, m'.message id =
    { m.message id with fields := (m.message id).fields ++ added id }
  fresh : ∀ id, m.messages.length ≤ id → (m'.message id).explicitId = none

/-- **Growth**: the messages of a schema that has grown are those from before, with the fields that
were added. -/
theorem exists_isExtension {fields : MessageHead → List Schema.Field}
    (hgrows : Grows schema schema' fields) (h : resolve schema = .ok m)
    (h' : resolve schema' = .ok m') :
    ∃ added, IsExtension m m' added ∧ ∀ id head, (heads schema)[id]? = some head →
      List.Forall₂ Field.IsDeclared (fields head) (added id) := by
  have hall := (forall₂_resolve h).1
  have hall' := (forall₂_resolve h').1
  have hmessage : ∀ id : Nat, ∃ added, ∀ head, (heads schema)[id]? = some head →
      List.Forall₂ Field.IsDeclared (fields head) added ∧
        m'.message id = { m.message id with fields := (m.message id).fields ++ added } := by
    intro id
    cases hhead : (heads schema)[id]? with
    | none => exact ⟨[], by simp⟩
    | some head =>
        obtain ⟨added, hadded⟩ := message_of_grows hgrows h h' hhead
        exact ⟨added, fun head' heq => Option.some.inj heq ▸ hadded⟩
  choose added hadded using hmessage
  refine ⟨added, ⟨?_, fun id hid => ?_, fun id hid => ?_⟩,
    fun id head hhead => (hadded id head hhead).1⟩
  · obtain ⟨extra, hheads, -⟩ := hgrows.heads
    rw [← hall.length_eq, ← hall'.length_eq, hheads, List.length_append, List.length_map]
    exact Nat.le_add_right _ _
  · exact (hadded id _ (List.getElem?_eq_getElem (hall.length_eq ▸ hid))).2
  · by_cases hid' : id < m'.messages.length
    · obtain ⟨extra, hheads, hextra⟩ := hgrows.heads
      have hlt : id < (heads schema').length := hall'.length_eq ▸ hid'
      have hnew : (heads schema')[id] ∈ extra := by
        have hle : ((heads schema).map (MessageHead.grow fields)).length ≤ id := by
          rwa [List.length_map, hall.length_eq]
        simp only [hheads, List.getElem_append_right hle, List.getElem_mem]
      rw [message_of_lt hid']
      exact (hall'.get hlt hid').explicitId.trans (hextra _ hnew)
    · rw [message_of_le (Nat.le_of_not_lt hid')]
      rfl

end Model

end Missive
