import Missive.Proofs.Model.WellFormed

/-!
# Missive.Proofs.Model.Units

The definitions of a model, unit by unit.

A definition outside of any message makes a unit with everything inside it, which `unitMembers`
collects by putting what is inside a definition right behind it, again and again.  Registration
numbers the definitions in another way, by recursion over the document.  The two agree: one unit
after another lists the numbered definitions in the order of the document (`flatMap_unitMembers`),
so every message and every enumeration occurs once.

What the passes after registration leave as it is, is said by `SameOutline`.
-/

namespace Missive.Model

open Schema

variable {m m' : Model} {schema : Schema} {r : Reference} {id : MessageId}

/-! ## what the passes leave alone -/

/-- Models with the same files, the same definitions outside of messages, and the same definitions
inside them. -/
structure SameOutline (m m' : Model) : Prop where
  files : m'.files = m.files
  options : m'.options = m.options
  roots : m'.roots = m.roots
  messages : m'.messages.length = m.messages.length
  enumerations : m'.enumerations.length = m.enumerations.length
  nested : ∀ id, (m'.message id).nested = (m.message id).nested
  nameOf : ∀ r, m'.nameOf r = m.nameOf r

namespace SameOutline

theorem refl (m : Model) : SameOutline m m :=
  ⟨rfl, rfl, rfl, rfl, rfl, fun _ => rfl, fun _ => rfl⟩

theorem trans (h : SameOutline m₁ m₂) (h' : SameOutline m₂ m₃) : SameOutline m₁ m₃ where
  files := h'.files.trans h.files
  options := h'.options.trans h.options
  roots := h'.roots.trans h.roots
  messages := h'.messages.trans h.messages
  enumerations := h'.enumerations.trans h.enumerations
  nested id := (h'.nested id).trans (h.nested id)
  nameOf r := (h'.nameOf r).trans (h.nameOf r)

/-- Messages may change in what is neither their name nor inside them. -/
theorem of_messages {changed : List Message} (hlength : changed.length = m.messages.length)
    (hmessage : ∀ id, (changed.getD id default).name = (m.message id).name ∧
      (changed.getD id default).nested = (m.message id).nested) :
    SameOutline m { m with messages := changed } where
  files := rfl
  options := rfl
  roots := rfl
  messages := hlength
  enumerations := rfl
  nested id := (hmessage id).2
  nameOf
    | .message id => (hmessage id).1
    | .enumeration _ => rfl

theorem spliceNested (h : SameOutline m m') (fuel : Nat) (pending : List Reference) :
    m'.spliceNested fuel pending = m.spliceNested fuel pending := by
  have hinside : ∀ r, m'.inside r = m.inside r := by
    intro r
    cases r with
    | message id => exact h.nested id
    | enumeration id => rfl
  induction fuel generalizing pending with
  | zero => rfl
  | succ fuel ih =>
      cases pending with
      | nil => rfl
      | cons r pending => rw [Model.spliceNested, Model.spliceNested, hinside, ih]

theorem unitMembers (h : SameOutline m m') (r : Reference) :
    m'.unitMembers r = m.unitMembers r := by
  rw [Model.unitMembers, Model.unitMembers, h.messages, h.enumerations, h.spliceNested]

end SameOutline

theorem sameOutline_zipWith {f : Message → α → Message} {xs : List α}
    (hlength : m.messages.length = xs.length)
    (hf : ∀ message x, (f message x).name = message.name ∧ (f message x).nested = message.nested) :
    SameOutline m { m with messages := List.zipWith f m.messages xs } := by
  refine .of_messages (by simp [hlength]) fun id => ?_
  by_cases hid : id < m.messages.length
  · have hid' : id < xs.length := hlength ▸ hid
    simp [message, List.getD, hid, hid', hf]
  · simp [message, List.getD, hid]

/-- Resolving adds parents and fields to what is registered. -/
theorem sameOutline_of_resolve (h : resolve schema = .ok m) : SameOutline (register schema) m := by
  obtain ⟨linked, fields, hlinked, -, -, hfields, rfl⟩ := resolve_eq_ok_iff.mp h
  have hlength : linked.messages.length = fields.length := by
    rw [← hlinked.forall₂_isRegistered.length_eq, (Except.forall₂_of_mapM_eq_ok hfields).length_eq]
  obtain ⟨-, parents, hparents, rfl⟩ := hlinked
  have hlength' : (register schema).messages.length = parents.length := by
    rw [← (forall₂_register schema).length_eq, (Except.forall₂_of_mapM_eq_ok hparents).length_eq]
  have hlinked : SameOutline (register schema) ((register schema).setParents parents) :=
    sameOutline_zipWith hlength' fun _ _ => ⟨rfl, rfl⟩
  exact hlinked.trans (sameOutline_zipWith hlength fun _ _ => ⟨rfl, rfl⟩)

theorem sameOutline_of_identifyFields (h : m.identifyFields id = .ok m') : SameOutline m m' := by
  obtain ⟨fields, -, h'⟩ := Except.bind_eq_ok h
  cases h'
  refine .of_messages (List.length_modify _ _ _) fun x => ?_
  by_cases hx : x < m.messages.length
  · simp only [message, List.getD, List.getElem?_modify, List.getElem?_eq_getElem hx]
    split <;> exact ⟨rfl, rfl⟩
  · simp [message, List.getD, hx]

/-- Numbers and names for values change nothing else. -/
theorem sameOutline_of_identify (h : m.identify = .ok m') : SameOutline m m' := by
  obtain ⟨enumerations, henums, h₁⟩ := Except.bind_eq_ok h
  obtain ⟨m₂, hmessages, hfields⟩ := Except.bind_eq_ok h₁
  have hall := Except.forall₂_of_mapM_eq_ok henums
  have hcodes : SameOutline m { m with enumerations } := by
    refine ⟨rfl, rfl, rfl, rfl, hall.length_eq.symm, fun _ => rfl, fun r => ?_⟩
    cases r with
    | message id => rfl
    | enumeration id =>
        by_cases hid : id < m.enumerations.length
        · have hid' : id < enumerations.length := hall.length_eq ▸ hid
          obtain ⟨-, -, -, he⟩ := identifyEnumeration_ok (hall.get hid hid')
          simp only [List.get_eq_getElem] at he
          simp [nameOf, enumeration, List.getD, hid, hid', he]
        · have hid' : ¬ id < enumerations.length := hall.length_eq ▸ hid
          simp [nameOf, enumeration, List.getD, hid, hid']
  have hids : SameOutline { m with enumerations } m₂ := by
    obtain ⟨_, -, h₂⟩ := Except.bind_eq_ok hmessages
    obtain ⟨_, -, h₃⟩ := Except.bind_eq_ok h₂
    cases h₃
    refine .of_messages (by simp) fun id => ?_
    by_cases hid : id < m.messages.length
    · simp [message, List.getD, hid]
    · simp [message, List.getD, hid]
  have hnumbered : SameOutline m₂ m' :=
    @Except.of_foldlM_eq_ok _ _ _ _ _ _ (fun _ s => SameOutline m₂ s) _
      (fun _ _ _ _ _ _ hs hstep => hs.trans (sameOutline_of_identifyFields hstep))
      (.refl m₂) hfields
  exact (hcodes.trans hids).trans hnumbered

theorem sameOutline_of_ofSchema (h : ofSchema schema = .ok m) :
    SameOutline (register schema) m := by
  obtain ⟨m₀, hresolve, hidentify⟩ := Except.bind_eq_ok h
  exact (sameOutline_of_resolve hresolve).trans (sameOutline_of_identify hidentify)

/-! ## definitions in the order of the document -/

@[simp] theorem spliceNested_nil (fuel : Nat) : m.spliceNested fuel [] = [] := by
  cases fuel <;> rfl

/-- The references of definitions, listed with those inside them, numbered from here on. -/
def numbered (firstMessage firstEnum : Nat) (ds : List Definition) : List Reference :=
  (nameTable firstMessage firstEnum ds).map Prod.snd

theorem numbered_preorderAll_append (firstMessage firstEnum : Nat) (ds rest : List Definition) :
    numbered firstMessage firstEnum (Definition.preorderAll ds ++ rest) =
      numbered firstMessage firstEnum (Definition.preorderAll ds) ++
        numbered (firstMessage + Definition.messageCountAll ds)
          (firstEnum + Definition.enumCountAll ds) rest := by
  rw [numbered, nameTable_append, List.map_append, (length_preorderAll ds).1,
    (length_preorderAll ds).2]
  rfl

theorem references_append (firstMessage firstEnum : Nat) (ds ds' : List Definition) :
    references firstMessage firstEnum (ds ++ ds') =
      references firstMessage firstEnum ds ++
        references (firstMessage + Definition.messageCountAll ds)
          (firstEnum + Definition.enumCountAll ds) ds' := by
  induction ds generalizing firstMessage firstEnum with
  | nil => rfl
  | cons d rest ih =>
      rw [List.cons_append, references, ih, references, Definition.messageCountAll,
        Definition.enumCountAll, List.cons_append, Nat.add_assoc, Nat.add_assoc]

/-- A model has messages from a number on that hold the same definitions as these. -/
def NestsFrom (m : Model) (first : Nat) (messages : List Message) : Prop :=
  ∀ k message, messages[k]? = some message → (m.message (first + k)).nested = message.nested

theorem nestsFrom_append : m.NestsFrom first (xs ++ ys) ↔
    m.NestsFrom first xs ∧ m.NestsFrom (first + xs.length) ys := by
  constructor
  · intro h
    constructor
    · intro k message hk
      refine h k message ?_
      rw [List.getElem?_append_left (List.getElem?_eq_some_iff.mp hk).1, hk]
    · intro k message hk
      rw [Nat.add_assoc]
      refine h (xs.length + k) message ?_
      rw [List.getElem?_append_right (Nat.le_add_right _ _), Nat.add_sub_cancel_left, hk]
  · rintro ⟨hxs, hys⟩ k message hk
    by_cases hlt : k < xs.length
    · rw [List.getElem?_append_left hlt] at hk
      exact hxs k message hk
    · have hle := Nat.le_of_not_lt hlt
      rw [List.getElem?_append_right hle] at hk
      have hat := hys (k - xs.length) message hk
      rwa [Nat.add_assoc, Nat.add_sub_cancel' hle] at hat

theorem length_messagesOfAll (file firstMessage firstEnum : Nat) (ds : List Definition) :
    (messagesOfAll file firstMessage firstEnum ds).length = Definition.messageCountAll ds := by
  rw [← (forall₂_messagesOfAll file firstMessage firstEnum ds).length_eq, (length_preorderAll ds).1]

/-- Where a message stands, the definitions inside it follow, and then what is declared after it. -/
theorem nestsFrom_message
    (h : m.NestsFrom firstMessage
      (messagesOfAll file firstMessage firstEnum (.message head nested :: rest))) :
    m.inside (.message firstMessage) = references (firstMessage + 1) firstEnum nested ∧
      m.NestsFrom (firstMessage + 1) (messagesOfAll file (firstMessage + 1) firstEnum nested) ∧
      m.NestsFrom (firstMessage + 1 + Definition.messageCountAll nested)
        (messagesOfAll file (firstMessage + 1 + Definition.messageCountAll nested)
          (firstEnum + Definition.enumCountAll nested) rest) := by
  rw [messagesOfAll, messagesOf, ← List.singleton_append, List.append_assoc, nestsFrom_append,
    nestsFrom_append, length_messagesOfAll, Definition.messageCount, Definition.enumCount,
    Nat.add_comm (Definition.messageCountAll nested), ← Nat.add_assoc] at h
  obtain ⟨hself, hnested, hrest⟩ := h
  exact ⟨hself 0 _ rfl, hnested, hrest⟩

theorem numbered_message (firstMessage firstEnum : Nat) (head : MessageHead)
    (nested rest : List Definition) :
    numbered firstMessage firstEnum (Definition.preorderAll (.message head nested :: rest)) =
      .message firstMessage ::
        (numbered (firstMessage + 1) firstEnum (Definition.preorderAll nested) ++
          numbered (firstMessage + 1 + Definition.messageCountAll nested)
            (firstEnum + Definition.enumCountAll nested) (Definition.preorderAll rest)) := by
  rw [← numbered_preorderAll_append]
  rfl

/-- Working through the references of definitions meets all that is inside them, in the order in
which the document has it, before it comes to what was waiting behind them. -/
theorem spliceNested_references (file firstMessage firstEnum : Nat) :
    (ds : List Definition) → (pending : List Reference) → (fuel : Nat) →
    m.NestsFrom firstMessage (messagesOfAll file firstMessage firstEnum ds) →
    m.spliceNested ((Definition.preorderAll ds).length + fuel)
        (references firstMessage firstEnum ds ++ pending) =
      numbered firstMessage firstEnum (Definition.preorderAll ds) ++ m.spliceNested fuel pending
  | [], pending, fuel, _ => by
      simp [Definition.preorderAll, references, numbered, nameTable]
  | .message head nested :: rest, pending, fuel, h => by
      obtain ⟨hinside, hnested, hrest⟩ := nestsFrom_message h
      have hfuel : (Definition.preorderAll (.message head nested :: rest)).length + fuel =
          (Definition.preorderAll nested).length +
            ((Definition.preorderAll rest).length + fuel) + 1 := by
        simp only [Definition.preorderAll, Definition.preorder, List.length_append,
          List.length_cons]
        omega
      have hfirst : firstMessage + (Definition.message head nested).messageCount =
          firstMessage + 1 + Definition.messageCountAll nested := by
        rw [Definition.messageCount]
        omega
      rw [hfuel, references, referenceAt, hfirst, Definition.enumCount, List.cons_append,
        spliceNested, hinside, spliceNested_references file _ _ nested _ _ hnested,
        spliceNested_references file _ _ rest _ _ hrest, numbered_message, List.cons_append,
        List.append_assoc]
  | .enumeration e :: rest, pending, fuel, h => by
      have hfuel : (Definition.preorderAll (.enumeration e :: rest)).length + fuel =
          (Definition.preorderAll rest).length + fuel + 1 := by
        simp only [Definition.preorderAll, Definition.preorder, List.length_append,
          List.length_singleton]
        omega
      have hrest := spliceNested_references file firstMessage (firstEnum + 1) rest pending fuel h
      rw [hfuel, references, referenceAt, List.cons_append, spliceNested]
      exact congrArg (.enumeration firstEnum :: ·) hrest

/-- The units of definitions that stand one after another list what is numbered, in order. -/
theorem flatMap_references (file firstMessage firstEnum : Nat) (ds : List Definition)
    (h : m.NestsFrom firstMessage (messagesOfAll file firstMessage firstEnum ds))
    (hfuel : (Definition.preorderAll ds).length ≤ m.messages.length + m.enumerations.length) :
    (references firstMessage firstEnum ds).flatMap m.unitMembers =
      numbered firstMessage firstEnum (Definition.preorderAll ds) := by
  induction ds generalizing firstMessage firstEnum with
  | nil => rfl
  | cons d rest ih =>
      -- the unit of the first definition is a list of definitions by itself
      have hone : Definition.preorderAll [d] = d.preorder := by
        simp [Definition.preorderAll]
      have hall : messagesOfAll file firstMessage firstEnum (d :: rest) =
          messagesOfAll file firstMessage firstEnum [d] ++
            messagesOfAll file (firstMessage + d.messageCount) (firstEnum + d.enumCount) rest := by
        simp [messagesOfAll]
      have hsplit := numbered_preorderAll_append firstMessage firstEnum [d]
        (Definition.preorderAll rest)
      rw [hone, show Definition.messageCountAll [d] = d.messageCount from rfl,
        show Definition.enumCountAll [d] = d.enumCount from rfl] at hsplit
      rw [hall, nestsFrom_append, length_messagesOfAll,
        show Definition.messageCountAll [d] = d.messageCount from rfl] at h
      rw [Definition.preorderAll, List.length_append] at hfuel
      obtain ⟨spare, hspare⟩ := Nat.exists_eq_add_of_le (Nat.le_of_add_right_le hfuel)
      have hunit : m.unitMembers (referenceAt firstMessage firstEnum d) =
          numbered firstMessage firstEnum d.preorder := by
        have hsplice := spliceNested_references file firstMessage firstEnum [d] [] spare h.1
        rw [hone, ← hspare] at hsplice
        simpa [unitMembers, references] using hsplice
      rw [references, List.flatMap_cons, hunit, ih _ _ h.2 (by omega), Definition.preorderAll,
        hsplit]

/-- The units of the definitions of files, in order. -/
theorem flatMap_files (firstFile firstMessage firstEnum : Nat) (files : List Schema.File)
    (h : m.NestsFrom firstMessage (numberFiles firstFile firstMessage firstEnum files))
    (hfuel : (Definition.preorderAll (files.flatMap (·.definitions))).length ≤
      m.messages.length + m.enumerations.length) :
    (references firstMessage firstEnum (files.flatMap (·.definitions))).flatMap m.unitMembers =
      numbered firstMessage firstEnum
        (Definition.preorderAll (files.flatMap (·.definitions))) := by
  induction files generalizing firstFile firstMessage firstEnum with
  | nil => rfl
  | cons file rest ih =>
      rw [numberFiles, nestsFrom_append, length_messagesOfAll] at h
      rw [List.flatMap_cons, preorderAll_append, List.length_append] at hfuel
      rw [List.flatMap_cons, references_append, List.flatMap_append,
        flatMap_references _ _ _ _ h.1 (by omega), ih _ _ _ h.2 (by omega), preorderAll_append,
        numbered_preorderAll_append]

theorem length_definitions (schema : Schema) :
    (definitions schema).length = (heads schema).length + (enumerationHeads schema).length := by
  rw [heads_eq, enumerationHeads]
  induction definitions schema with
  | nil => rfl
  | cons d rest ih =>
      cases d with
      | message head nested =>
          simp [List.filterMap_cons, Definition.head?, Definition.enumeration?, ih]
          omega
      | enumeration e =>
          simp [List.filterMap_cons, Definition.head?, Definition.enumeration?, ih]
          omega

/-- **Units** list the definitions of a schema in the order of the document. -/
theorem flatMap_unitMembers (h : SameOutline (register schema) m) :
    m.roots.flatMap m.unitMembers = numbered 0 0 (definitions schema) := by
  have hunits : (register schema).roots.flatMap (register schema).unitMembers =
      numbered 0 0 (definitions schema) := by
    rw [definitions_eq]
    refine flatMap_files 0 0 0 schema.files (fun k message hk => ?_) ?_
    · rw [Nat.zero_add, Model.message, List.getD, register, hk]
      rfl
    · rw [← definitions_eq, length_definitions, (forall₂_register schema).length_eq,
        (forall₂_enumerationsOf schema).length_eq]
      exact Nat.le_refl _
  rw [← hunits, h.roots]
  exact congrArg (List.flatMap · _) (funext h.unitMembers)

/-! ## every definition once -/

/-- The number of a message. -/
def Reference.message? : Reference → Option MessageId
  | .message id => some id
  | .enumeration _ => none

/-- The number of an enumeration. -/
def Reference.enumeration? : Reference → Option EnumId
  | .message _ => none
  | .enumeration id => some id

/-- Messages and enumerations are numbered one by one. -/
theorem filterMap_numbered (firstMessage firstEnum : Nat) (ds : List Definition) :
    (numbered firstMessage firstEnum ds).filterMap Reference.message? =
        List.range' firstMessage (ds.filterMap Definition.head?).length ∧
      (numbered firstMessage firstEnum ds).filterMap Reference.enumeration? =
        List.range' firstEnum (ds.filterMap Definition.enumeration?).length := by
  induction ds generalizing firstMessage firstEnum with
  | nil => exact ⟨rfl, rfl⟩
  | cons d rest ih =>
      cases d with
      | message head nested =>
          obtain ⟨hmessages, henums⟩ := ih (firstMessage + 1) firstEnum
          exact ⟨congrArg (firstMessage :: ·) hmessages, henums⟩
      | enumeration e =>
          obtain ⟨hmessages, henums⟩ := ih firstMessage (firstEnum + 1)
          exact ⟨hmessages, congrArg (firstEnum :: ·) henums⟩

theorem Reference.message?_eq_some : r.message? = some id ↔ r = .message id := by
  cases r <;> simp [Reference.message?]

theorem Reference.enumeration?_eq_some : r.enumeration? = some id ↔ r = .enumeration id := by
  cases r <;> simp [Reference.enumeration?]

theorem mem_filterMap_message? {rs : List Reference} :
    id ∈ rs.filterMap Reference.message? ↔ .message id ∈ rs := by
  simp [List.mem_filterMap, Reference.message?_eq_some]

theorem mem_filterMap_enumeration? {rs : List Reference} :
    id ∈ rs.filterMap Reference.enumeration? ↔ .enumeration id ∈ rs := by
  simp [List.mem_filterMap, Reference.enumeration?_eq_some]

theorem nodup_of_filterMap {rs : List Reference}
    (hmessages : (rs.filterMap Reference.message?).Nodup)
    (henums : (rs.filterMap Reference.enumeration?).Nodup) : rs.Nodup := by
  induction rs with
  | nil => exact .nil
  | cons r rest ih =>
      cases r with
      | message id =>
          obtain ⟨hnew, hmessages⟩ := List.nodup_cons.mp hmessages
          exact List.nodup_cons.mpr
            ⟨fun hr => hnew (mem_filterMap_message?.mpr hr), ih hmessages henums⟩
      | enumeration id =>
          obtain ⟨hnew, henums⟩ := List.nodup_cons.mp henums
          exact List.nodup_cons.mpr
            ⟨fun hr => hnew (mem_filterMap_enumeration?.mpr hr), ih hmessages henums⟩

section

variable (h : SameOutline (register schema) m)

include h

/-- The units list the messages and the enumerations of a model by their numbers. -/
theorem filterMap_units :
    (m.roots.flatMap m.unitMembers).filterMap Reference.message? = m.messageIds ∧
      (m.roots.flatMap m.unitMembers).filterMap Reference.enumeration? = m.enumIds := by
  obtain ⟨hmessages, henums⟩ := filterMap_numbered 0 0 (definitions schema)
  rw [flatMap_unitMembers h, hmessages, henums, messageIds, enumIds, h.messages, h.enumerations,
    List.range_eq_range', List.range_eq_range', ← heads_eq, (forall₂_register schema).length_eq]
  rw [← enumerationHeads, (forall₂_enumerationsOf schema).length_eq]
  exact ⟨rfl, rfl⟩

theorem nodup_units : (m.roots.flatMap m.unitMembers).Nodup := by
  obtain ⟨hmessages, henums⟩ := filterMap_units h
  refine nodup_of_filterMap ?_ ?_
  · rw [hmessages]
    exact List.nodup_range
  · rw [henums]
    exact List.nodup_range

/-- The units list all that a model has. -/
theorem mem_units : r ∈ m.roots.flatMap m.unitMembers ↔ m.Has r := by
  obtain ⟨hmessages, henums⟩ := filterMap_units h
  cases r with
  | message id => rw [← mem_filterMap_message?, hmessages, mem_messageIds]; rfl
  | enumeration id => rw [← mem_filterMap_enumeration?, henums, enumIds, List.mem_range]; rfl

/-- Every definition stands in the unit of one place. -/
theorem existsUnique_unit (hr : m.Has r) :
    ∃! i : Nat, ∃ root, m.roots[i]? = some root ∧ r ∈ m.unitMembers root := by
  obtain ⟨root, hroot, hmem⟩ := List.mem_flatMap.mp ((mem_units h).mpr hr)
  obtain ⟨i, hi⟩ := List.mem_iff_getElem?.mp hroot
  refine ⟨i, ⟨root, hi, hmem⟩, ?_⟩
  rintro j ⟨root', hj, hmem'⟩
  have hdisjoint := (List.nodup_flatMap.mp (nodup_units h)).2
  obtain ⟨hlti, rfl⟩ := List.getElem?_eq_some_iff.mp hi
  obtain ⟨hltj, rfl⟩ := List.getElem?_eq_some_iff.mp hj
  obtain hlt | heq | hlt := Nat.lt_trichotomy i j
  · exact absurd hmem' (List.pairwise_iff_getElem.mp hdisjoint i j hlti hltj hlt hmem)
  · exact heq.symm
  · exact absurd hmem (List.pairwise_iff_getElem.mp hdisjoint j i hltj hlti hlt hmem')

end

/-! ## definitions as they are declared -/

/-- A definition of a model is what a definition of a schema became by resolving. -/
def Represents (m : Model) : Definition → Reference → Prop
  | .message head _, .message id => Message.IsDeclared head (m.message id)
  | .enumeration e, .enumeration id => Enumeration.IsDeclared e (m.enumeration id)
  | _, _ => False

theorem forall₂_represents {ds : List Definition} {firstMessage firstEnum : Nat}
    (hmessages : ∀ k head, (ds.filterMap Definition.head?)[k]? = some head →
      Message.IsDeclared head (m.message (firstMessage + k)))
    (henums : ∀ k e, (ds.filterMap Definition.enumeration?)[k]? = some e →
      Enumeration.IsDeclared e (m.enumeration (firstEnum + k))) :
    List.Forall₂ m.Represents ds (numbered firstMessage firstEnum ds) := by
  induction ds generalizing firstMessage firstEnum with
  | nil => exact .nil
  | cons d rest ih =>
      cases d with
      | message head nested =>
          refine .cons (hmessages 0 head rfl) (ih (fun k head' hk => ?_) henums)
          rw [Nat.add_assoc, Nat.add_comm 1]
          exact hmessages (k + 1) head' hk
      | enumeration e =>
          refine .cons (henums 0 e rfl) (ih hmessages fun k e' hk => ?_)
          rw [Nat.add_assoc, Nat.add_comm 1]
          exact henums (k + 1) e' hk

/-- The units of a resolved schema list its definitions, in the order of the document. -/
theorem forall₂_units (h : resolve schema = .ok m) :
    List.Forall₂ m.Represents (definitions schema) (m.roots.flatMap m.unitMembers) := by
  obtain ⟨hmessages, henums⟩ := forall₂_resolve h
  rw [flatMap_unitMembers (sameOutline_of_resolve h)]
  refine forall₂_represents (fun k head hk => ?_) fun k e hk => ?_
  · rw [← heads_eq] at hk
    obtain ⟨hlt, rfl⟩ := List.getElem?_eq_some_iff.mp hk
    have hlt' : k < m.messages.length := hmessages.length_eq ▸ hlt
    rw [Nat.zero_add, message_of_lt hlt']
    exact hmessages.get hlt hlt'
  · obtain ⟨hlt, rfl⟩ := List.getElem?_eq_some_iff.mp hk
    have hlt' : k < m.enumerations.length := henums.length_eq ▸ hlt
    rw [Nat.zero_add, enumeration, List.getD_eq_getElem _ _ hlt']
    exact henums.get hlt hlt'

theorem Represents.nameOf_eq {d : Definition} (h : m.Represents d r) : m.nameOf r = d.name := by
  cases d <;> cases r
  · exact Message.IsDeclared.name h
  · exact h.elim
  · exact h.elim
  · exact Enumeration.IsDeclared.name h

/-- Definitions that have their names with all that is inside them have them by themselves. -/
theorem map_nameOf_references {firstMessage firstEnum : Nat} {ds : List Definition}
    (h : (numbered firstMessage firstEnum (Definition.preorderAll ds)).map m.nameOf =
      (Definition.preorderAll ds).map Definition.name) :
    (references firstMessage firstEnum ds).map m.nameOf = ds.map Definition.name := by
  induction ds generalizing firstMessage firstEnum with
  | nil => rfl
  | cons d rest ih =>
      cases d with
      | message head nested =>
          rw [numbered_message, List.map_cons, List.map_append, Definition.preorderAll,
            Definition.preorder, List.cons_append, List.map_cons, List.map_append] at h
          obtain ⟨hself, hinside⟩ := List.cons.inj h
          have hlength : ((numbered (firstMessage + 1) firstEnum
              (Definition.preorderAll nested)).map m.nameOf).length =
              ((Definition.preorderAll nested).map Definition.name).length := by
            rw [← map_fst_nameTable (firstMessage + 1) firstEnum]
            simp [numbered]
          have hrest := (List.append_inj hinside hlength).2
          rw [references, List.map_cons, List.map_cons, Definition.messageCount,
            Definition.enumCount, Nat.add_comm (Definition.messageCountAll nested), ← Nat.add_assoc,
            ih hrest]
          exact congrArg (· :: _) hself
      | enumeration e =>
          obtain ⟨hself, hrest⟩ := List.cons.inj h
          rw [references, List.map_cons, List.map_cons]
          exact congrArg₂ (· :: ·) hself (ih hrest)

/-- The definitions outside of messages have the names that the schema gives them. -/
theorem map_nameOf_roots (h : resolve schema = .ok m) :
    m.roots.map m.nameOf = (schema.files.flatMap (·.definitions)).map Definition.name := by
  have hlisted := forall₂_units h
  have hnames : (definitions schema).map Definition.name =
      (m.roots.flatMap m.unitMembers).map m.nameOf :=
    map_eq_of_forall₂ (hlisted.imp fun d r hd => hd.nameOf_eq.symm)
  rw [flatMap_unitMembers (sameOutline_of_resolve h), definitions_eq] at hnames
  rw [(sameOutline_of_resolve h).roots]
  exact map_nameOf_references hnames.symm

end Missive.Model
