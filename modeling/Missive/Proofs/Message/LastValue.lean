import Mathlib
import Missive.Example
import Missive.Proofs.Message.Forward
import Missive.Proofs.Message.Framing
import Missive.Proofs.Message.Slots

/-!
# Missive.Proofs.Message.LastValue

Only the last value under a tag counts.

`lastUnder tag fields` is the last value that the fields of an object hold under a tag.  A slot of a
message becomes what is made of the last value under its tag, or what it starts with, so that two
payloads give equal messages once they agree on the last values under the tags of the type
(`Catalog.readMessage_lastUnder`).
-/

namespace Missive

open Wire

/-! ## the last value under a tag -/

/-- The last value that fields hold under a tag. -/
def Wire.lastUnder (tag : UInt32) (fields : List (UInt32 × Tree)) : Option Tree :=
  fields.reverse.lookup tag

@[simp] theorem Wire.lastUnder_nil (tag : UInt32) : lastUnder tag [] = none := rfl

theorem Wire.lastUnder_concat (tag : UInt32) (fields : List (UInt32 × Tree))
    (field : UInt32 × Tree) :
    lastUnder tag (fields ++ [field]) =
      if tag = field.1 then some field.2 else lastUnder tag fields := by
  obtain ⟨tag', t⟩ := field
  by_cases h : tag = tag'
  · simp [lastUnder, h]
  · simp [lastUnder, List.lookup_cons, beq_false_of_ne h, h]

namespace Catalog

variable {c : Catalog} {nested : NestedTree} {id type : MessageId} {field : UInt32 × Tree}
  {fields fields' rest rest' : List (UInt32 × Tree)}

/-! ## the slots of a message -/

theorem fieldsWith_eq (nested : NestedTree) (id : MessageId) : c.fieldsWith nested id =
    slotsWith (c.slots id) (fun slot => slot.tag)
      fun slot => c.fieldOfTree nested slot.key slot.plan := rfl

/-- Fields that agree on the last values under the tags of a type are one message of it. -/
theorem messageOfFields_congr (hc : c.Lawful)
    (hlast : ∀ slot ∈ c.slots id, ∀ tag, slot.tag = some tag →
      lastUnder tag rest = lastUnder tag rest')
    (h : c.messageOfFields nested id rest = .ok message)
    (h' : c.messageOfFields nested id rest' = .ok message') : message = message' := by
  obtain ⟨values, hvalues, hmessage⟩ := Except.bind_eq_ok h
  obtain ⟨values', hvalues', hmessage'⟩ := Except.bind_eq_ok h'
  cases hmessage
  cases hmessage'
  refine congrArg (Message.mk id)
    (eq_of_foldlM_slotsWith (hc.keyed_tag id) (fun slot hslot => ?_) hvalues hvalues')
  cases htag : slot.tag with
  | none => simp [slotOf, htag]
  | some tag =>
      have hsame : rest.reverse.lookup tag = rest'.reverse.lookup tag := hlast slot hslot tag htag
      simp [slotOf, htag, hsame]

/-! ## values that can be read -/

/-- A value is read without error as the value of a slot, from the bytes after its header. -/
def Decodes (c : Catalog) (slot : Slot) (t : Tree) : Prop :=
  ∃ bs value r, Spells t bs ∧
    c.readField c.readMessage slot ⟨bs, some t.kind, [.object]⟩ = .ok value r

/-- What a step reads behind a header comes of the tree, once messages may be nested deep
enough. -/
theorem eventually_of_read (step : NestedRead → Read α)
    (make : NestedTree → Tree → Except ReadError α)
    (hagree : ∀ n nested nested', (∀ id, Consumes 1 (nested id)) →
      (∀ id, Agree n (nested id) (nested' id)) → Agree n (step nested) (step nested'))
    (hreads : ∀ nested nestedTree, (∀ id, Reads (nested id) (nestedTree id)) →
      Reads (step nested) (make nestedTree))
    (hs : Spells t bs) (hread : step c.readMessage ⟨bs, some t.kind, [.object]⟩ = .ok a r) :
    ∀ᶠ depth in Filter.atTop, make (c.nestedOfTree depth) t = .ok a := by
  refine (Filter.eventually_gt_atTop bs.length).mono fun depth hd => ?_
  have hsame : Agree (bs.length + 1) (step (c.readNested depth)) (step c.readMessage) :=
    hagree _ _ _ (readNested_consumes depth) fun id r hr => (readMessage_eq (by omega) id).symm
  have hyields := hreads (c.readNested depth) (c.nestedOfTree depth) (readNested_reads depth) t bs
    (some t.kind) [.object] [.object] [] hs (.header _)
  rw [List.append_nil, hsame _ (Nat.lt_succ_self _), hread] at hyields
  exact hyields.outcome_eq.symm

theorem Decodes.fieldOfTree (h : c.Decodes slot t) :
    ∀ᶠ depth in Filter.atTop, ∃ value,
      c.fieldOfTree (c.nestedOfTree depth) slot.key slot.plan t = .ok value := by
  obtain ⟨bs, value, r, hs, hread⟩ := h
  refine (eventually_of_read (fun nested => c.readField nested slot)
    (fun nested => c.fieldOfTree nested slot.key slot.plan) ?_ ?_ hs hread).mono
    fun depth hvalue => ⟨value, hvalue⟩
  · exact fun n nested nested' hn h => readField_agree hn h slot
  · exact fun nested nestedTree hn => readField_reads hn slot

theorem eventually_of_decodes
    (h : ∀ field ∈ rest, ∀ slot ∈ c.slots id, slot.tag = some field.1 → c.Decodes slot field.2) :
    ∀ᶠ depth in Filter.atTop, ∀ field ∈ rest, ∀ slot ∈ c.slots id, slot.tag = some field.1 →
      ∃ value, c.fieldOfTree (c.nestedOfTree depth) slot.key slot.plan field.2 = .ok value := by
  refine (Filter.eventually_all_finite rest.finite_toSet).mpr fun field hfield => ?_
  refine (Filter.eventually_all_finite (c.slots id).finite_toSet).mpr fun slot hslot => ?_
  exact Filter.eventually_imp_distrib_left.mpr fun htag =>
    (h field hfield slot hslot htag).fieldOfTree

theorem messageOfFields_of_decodes
    (h : ∀ field ∈ rest, ∀ slot ∈ c.slots id, slot.tag = some field.1 → c.Decodes slot field.2) :
    ∀ᶠ depth in Filter.atTop, ∃ message,
      c.messageOfFields (c.nestedOfTree depth) id rest = .ok message := by
  refine (eventually_of_decodes h).mono fun depth hvalue => ?_
  obtain ⟨values, hfold⟩ := exists_foldlM_slotsWith hvalue (c.new id).fields
  exact ⟨⟨id, values⟩, by simp [messageOfFields, fieldsWith_eq, hfold]⟩

/-! ## payloads -/

theorem nestedOfTree_of_openFields (hopen : c.openFields id fields = .ok (some type, rest))
    (h : c.messageOfFields (c.nestedOfTree depth) type rest = .ok message) :
    c.nestedOfTree (depth + 1) id (.object fields) = .ok (some message) := by
  simp [nestedOfTree, hopen, h]

/-- **The last value counts**: two payloads of a member of a type, all of whose values under tags of
the member can be read, give equal messages if they have the same value, or none, as the last one
under each of the tags.  The order of fields, values that are replaced later and values under other
tags have no part in it. -/
theorem readMessage_lastUnder (hm : Model.ofSchema schema = .ok m) (hc : ofModel m = .ok c)
    (hopen : c.openFields id fields = .ok (some type, rest))
    (hopen' : c.openFields id fields' = .ok (some type, rest'))
    (hdecodes : ∀ field ∈ rest ++ rest', ∀ slot ∈ c.slots type, slot.tag = some field.1 →
      c.Decodes slot field.2)
    (hlast : ∀ slot ∈ c.slots type, ∀ tag, slot.tag = some tag →
      lastUnder tag rest = lastUnder tag rest')
    (hs : Spells (.object fields) bs) (hs' : Spells (.object fields') bs')
    (hb : BeforeMessage pending frames frames') (suffix : List UInt8) :
    ∃ message,
      c.readMessage id ⟨bs ++ suffix, pending, frames⟩ =
        .ok (some message) ⟨suffix, none, frames'⟩ ∧
      c.readMessage id ⟨bs' ++ suffix, pending, frames⟩ =
        .ok (some message) ⟨suffix, none, frames'⟩ := by
  have hread := messageOfFields_of_decodes fun field hfield =>
    hdecodes field (List.mem_append_left _ hfield)
  have hread' := messageOfFields_of_decodes fun field hfield =>
    hdecodes field (List.mem_append_right _ hfield)
  obtain ⟨depth, ⟨⟨message, hmessage⟩, message', hmessage'⟩, hd, hd'⟩ :=
    ((hread.and hread').and ((Filter.eventually_gt_atTop (bs ++ suffix).length).and
      (Filter.eventually_gt_atTop (bs' ++ suffix).length))).exists
  obtain rfl : message = message' :=
    messageOfFields_congr (lawful_of_ofSchema hm hc) hlast hmessage hmessage'
  have hyields := readMessage_yields_of_lt (c := c) id hs hb suffix (Nat.lt_succ_of_lt hd)
  have hyields' := readMessage_yields_of_lt (c := c) id hs' hb suffix (Nat.lt_succ_of_lt hd')
  rw [nestedOfTree_of_openFields hopen hmessage] at hyields
  rw [nestedOfTree_of_openFields hopen' hmessage'] at hyields'
  exact ⟨message, hyields, hyields'⟩

/-- A circle with a radius. -/
def drawnCircle : Tree := .object [(0, .int 1), (1, .double ⟨2⟩)]

/-- A circle without a radius. -/
def bareCircle : Tree := .object [(0, .int 1)]

/-- The fields of a holder of which the circle and the list come twice. -/
def changedHolder : List (UInt32 × Tree) :=
  [(1, drawnCircle), (2, .array .int [.int 5, .int 6]), (4, .int 1), (2, .array .int [.int 7]),
    (1, bareCircle)]

/-- The fields of the holder in another order, each of them once, and a strange one. -/
def plainHolder : List (UInt32 × Tree) :=
  [(9, .string [0x61]), (2, .array .int [.int 7]), (1, bareCircle), (4, .int 1)]

theorem readMessage_lastUnder_holder : ∃ m c bs bs' message,
    Model.ofSchema Example.scenarios = .ok m ∧ ofModel m = .ok c ∧
    Spells (.object changedHolder) bs ∧ Spells (.object plainHolder) bs' ∧
    c.readMessage 3 ⟨bs ++ [7], none, []⟩ = .ok (some message) ⟨[7], none, []⟩ ∧
    c.readMessage 3 ⟨bs' ++ [7], none, []⟩ = .ok (some message) ⟨[7], none, []⟩ := by
  have hv := isVarint_varint
  have hdrawn : Spells drawnCircle [0x01, 1, 0x18, 2, 0, 0, 0, 0, 0, 0, 0, 0] :=
    .object (.cons (hv _) (.int (hv _)) (.cons (hv _) (.double _) .nil))
  have hbare : Spells bareCircle [0x01, 1, 0] := .object (.cons (hv _) (.int (hv _)) .nil)
  have hlong : Spells (.array .int [.int 5, .int 6]) [1, 2, 5, 6, 0] :=
    .array (hv 2) rfl (by simp [Tree.kind]) (.cons (.int (hv 5)) (.cons (.int (hv 6)) .nil))
  have hshort : Spells (.array .int [.int 7]) [1, 1, 7, 0] :=
    .array (hv 1) rfl (by simp [Tree.kind]) (.cons (.int (hv 7)) .nil)
  have hweb : Spells (.int 1) [1] := .int (hv 1)
  let parts : List (UInt32 × Kind × List UInt8) :=
    [(1, .object, [0x01, 1, 0x18, 2, 0, 0, 0, 0, 0, 0, 0, 0]), (1, .object, [0x01, 1, 0]),
      (2, .array, [1, 2, 5, 6, 0]), (2, .array, [1, 1, 7, 0]), (4, .int, [1])]
  have hcatalog : (ofSchema? Example.scenarios).any (fun c => decide
      (c.model.inFamily 3 = false ∧
        (∀ slot ∈ c.slots 3, slot.tag ≠ some 9) ∧
        ∀ slot ∈ c.slots 3, ∀ part ∈ parts, slot.tag = some part.1 →
          leaves (c.readField c.readMessage slot ⟨part.2.2, some part.2.1, [.object]⟩)
            ⟨[], none, [.object]⟩ = true)) = true := by
    decide +kernel
  obtain ⟨m, c, hm, hc, hfacts⟩ := exists_of_any hcatalog
  obtain ⟨hplain, hstrange, hreads⟩ := of_decide_eq_true hfacts
  have hdecodes : ∀ tag t bs, Spells t bs → (tag, t.kind, bs) ∈ parts → ∀ slot ∈ c.slots 3,
      slot.tag = some tag → c.Decodes slot t := by
    intro tag t bs hs hpart slot hslot htag
    obtain ⟨value, hread⟩ := exists_of_leaves (hreads slot hslot _ hpart htag)
    exact ⟨bs, value, _, hs, hread⟩
  have hopen : ∀ fields, c.openFields 3 fields = .ok (some 3, fields) := fun fields => by
    simp [openFields, hplain]
  have hknown : ∀ field ∈ changedHolder ++ plainHolder, ∀ slot ∈ c.slots 3,
      slot.tag = some field.1 → c.Decodes slot field.2 := by
    have h₁ := hdecodes 1 _ _ hdrawn (by simp [parts, drawnCircle, Tree.kind])
    have h₂ := hdecodes 1 _ _ hbare (by simp [parts, bareCircle, Tree.kind])
    have h₃ := hdecodes 2 _ _ hlong (by simp [parts, Tree.kind])
    have h₄ := hdecodes 2 _ _ hshort (by simp [parts, Tree.kind])
    have h₅ := hdecodes 4 _ _ hweb (by simp [parts, Tree.kind])
    simp only [changedHolder, plainHolder, List.forall_mem_append, List.forall_mem_cons]
    exact ⟨⟨h₁, h₃, h₅, h₄, h₂, by simp⟩,
      fun slot hslot htag => absurd htag (hstrange slot hslot), h₄, h₂, h₅, by simp⟩
  have hlast : ∀ slot ∈ c.slots 3, ∀ tag, slot.tag = some tag →
      lastUnder tag changedHolder = lastUnder tag plainHolder := by
    intro slot hslot tag htag
    have hne : tag ≠ 9 := by
      rintro rfl
      exact hstrange slot hslot htag
    simp only [lastUnder, changedHolder, plainHolder, List.reverse_cons, List.reverse_nil,
      List.nil_append, List.cons_append, List.lookup_cons]
    grind
  have hs : Spells (.object changedHolder) _ :=
    .object (.cons (hv _) hdrawn (.cons (hv _) hlong (.cons (hv _) hweb (.cons (hv _) hshort
      (.cons (hv _) hbare .nil)))))
  have hs' : Spells (.object plainHolder) _ :=
    .object (.cons (hv _) (.string (hv 1) rfl) (.cons (hv _) hshort (.cons (hv _) hbare
      (.cons (hv _) hweb .nil))))
  obtain ⟨message, hread, hread'⟩ := readMessage_lastUnder hm hc (hopen _) (hopen _) hknown hlast
    hs hs' .outermost [7]
  exact ⟨m, c, _, _, message, hm, hc, hs, hs', hread, hread'⟩

end Catalog

end Missive
