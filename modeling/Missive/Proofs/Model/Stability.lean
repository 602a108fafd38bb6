import Missive.Proofs.Model.Growth
import Missive.Proofs.Model.Identifiers
import Missive.Proofs.Model.Variants

/-!
# Missive.Proofs.Model.Stability

Identifiers that stay when a schema grows at the end.

Numbers are given in the order of declaration, each the least that is neither fixed nor given
before.  What comes later and fixes nothing therefore leaves the numbers before it as they are: the
codes of an enumeration (`constantCodes_append`), the discriminators of a family
(`IsExtension.typeIdOf?`), and the tags of a message (`IsNumbered.append`).  Tags are not used again
further down the line, so a field may be added only where no message extends its own.
-/

namespace Missive

/-! ## gaps -/

/-- Gaps behind all else leave the numbers before them as they are. -/
theorem prefix_fillGaps (next : Nat) (slots : List (Option Nat)) (xs : List α) :
    fillGaps (slots.filterMap id) next slots <+:
      fillGaps ((slots ++ xs.map fun _ => none).filterMap id) next
        (slots ++ xs.map fun _ => none) := by
  have hused : (slots ++ xs.map fun _ => none).filterMap id = slots.filterMap id := by simp
  rw [hused]
  clear hused
  generalize slots.filterMap id = used
  induction slots generalizing next with
  | nil => exact List.nil_prefix
  | cons slot rest ih =>
      cases slot with
      | some n => exact List.cons_prefix_cons.mpr ⟨rfl, ih next⟩
      | none => exact List.cons_prefix_cons.mpr ⟨rfl, ih (firstFree used next + 1)⟩

namespace Model

open Schema

variable {m m' draft draft' : Model} {schema schema' : Schema} {id p : MessageId}
  {added : MessageId → List Field}

/-! ## codes -/

theorem constantCodes_append {cs cs' : List Constant} (h : ∀ c ∈ cs', c.explicitCode = none) :
    constantCodes cs <+: constantCodes (cs ++ cs') := by
  have hnone : cs'.map (fun c => c.explicitCode.map fun code => code.toInt.toNat) =
      cs'.map fun _ => none := List.map_congr_left fun c hc => by rw [h c hc]; rfl
  rw [constantCodes, constantCodes, List.map_append, hnone]
  exact prefix_fillGaps 0 _ _

/-- An enumeration with more constants behind those that it had. -/
def Enumeration.GrowsTo (e e' : Enumeration) : Prop :=
  ∃ added, e' = { e with constants := e.constants ++ added }

/-- Constants that fix no code leave the codes before them as they are. -/
theorem growsTo_of_identifyEnumeration {e i i' : Enumeration} {cs : List Constant}
    (hcs : ∀ c ∈ cs, c.explicitCode = none) (h : identifyEnumeration e = .ok i)
    (h' : identifyEnumeration { e with constants := e.constants ++ cs } = .ok i') :
    i.GrowsTo i' := by
  obtain ⟨-, -, -, rfl⟩ := identifyEnumeration_ok h
  obtain ⟨-, -, -, rfl⟩ := identifyEnumeration_ok h'
  obtain ⟨codes, hcodes⟩ : constantCodes e.constants <+: constantCodes (e.constants ++ cs) :=
    constantCodes_append hcs
  refine ⟨List.zipWith Constant.identify cs codes, ?_⟩
  simp only [← hcodes, List.zipWith_append (length_constantCodes e.constants).symm]

/-! ## discriminators -/

namespace IsExtension

variable (h : IsExtension m m' added) (hm : m.IsForest) (hm' : m'.IsForest)
  (hbound : ∀ id p, (m.message id).parent = some p → p < m.messages.length)

include h hm hm' hbound

/-- What a message extends stays. -/
theorem ascent (hid : id < m.messages.length) : m'.ascent id = m.ascent id := by
  have hparent : ∀ id < m.messages.length, (m'.message id).parent = (m.message id).parent :=
    fun id hid => by rw [h.message id hid]
  induction id using hm.induction with
  | root id hp => rw [ascent_of_none hp, ascent_of_none ((hparent id hid).trans hp)]
  | step id p hp ih =>
      rw [ascent_of_some hm hp, ascent_of_some hm' ((hparent id hid).trans hp),
        ih (hbound id p hp)]

theorem root (hid : id < m.messages.length) : m'.root id = m.root id := by
  rw [Model.root, ancestors, h.ascent hm hm' hbound hid, Model.root, ancestors]

theorem inFamily (hid : id < m.messages.length) : m'.inFamily id = m.inFamily id := by
  have habstract : ∀ id < m.messages.length,
      (m'.message id).isAbstract = (m.message id).isAbstract :=
    fun id hid => by rw [h.message id hid]
  rw [Model.inFamily, Model.inFamily, habstract id hid, h.ascent hm hm' hbound hid]
  congr 1
  rw [Bool.eq_iff_iff, List.any_eq_true, List.any_eq_true]
  refine exists_congr fun a => and_congr_right fun ha => ?_
  obtain ⟨y, hy, -⟩ := exists_child_of_mem_ascent hm ha
  rw [habstract a (hbound y a hy)]

/-- New members of families come last. -/
theorem familyMembers : ∃ rest, m'.familyMembers = m.familyMembers ++ rest ∧
    ∀ id ∈ rest, m.messages.length ≤ id := by
  obtain ⟨more, hmore⟩ := Nat.exists_eq_add_of_le h.length
  refine ⟨((List.range more).map (m.messages.length + ·)).filter
    fun id => m'.inFamily id && !(m'.message id).isAbstract, ?_, fun id hid => ?_⟩
  · rw [Model.familyMembers, messageIds, hmore, List.range_add, List.filter_append,
      Model.familyMembers, messageIds]
    congr 1
    refine List.filter_congr fun id hid => ?_
    have hid := List.mem_range.mp hid
    rw [h.inFamily hm hm' hbound hid, h.message id hid]
  · obtain ⟨k, -, rfl⟩ := List.mem_map.mp (List.mem_filter.mp hid).1
    exact Nat.le_add_right _ _

/-- New members of a family get the numbers that its old members leave. -/
theorem familyTypeIds (root : MessageId) :
    m.familyTypeIds root <+: m'.familyTypeIds root := by
  obtain ⟨rest, hrest, hnew⟩ := h.familyMembers hm hm' hbound
  have hmembers : m'.membersBelow root =
      m.membersBelow root ++ rest.filter fun id => m'.root id == root := by
    rw [membersBelow, hrest, List.filter_append, membersBelow]
    congr 1
    refine List.filter_congr fun id hid => ?_
    rw [h.root hm hm' hbound (mem_familyMembers.mp hid).1]
  have hslots : m'.familySlots root = m.familySlots root ++
      (rest.filter fun id => m'.root id == root).map fun _ => none := by
    rw [familySlots, hmembers, List.map_append, familySlots]
    congr 1
    · refine List.map_congr_left fun id hid => ?_
      rw [h.message id (mem_familyMembers.mp (List.mem_filter.mp hid).1).1]
    · refine List.map_congr_left fun id hid => ?_
      rw [h.fresh id (hnew id (List.mem_filter.mp hid).1), Option.map_none]
  have hnumbers : m.familyNumbers root <+: m'.familyNumbers root := by
    rw [familyNumbers, familyNumbers, hslots]
    exact prefix_fillGaps 1 _ _
  obtain ⟨numbers, hnumbers⟩ := hnumbers
  refine ⟨(rest.filter fun id => m'.root id == root).zip numbers, ?_⟩
  show (m.membersBelow root).zip (m.familyNumbers root) ++ _ =
    (m'.membersBelow root).zip (m'.familyNumbers root)
  rw [hmembers, ← hnumbers, List.zip_append (length_familyNumbers m root).symm]

/-- **Discriminators stay** when messages come that fix none. -/
theorem typeIdOf? (hid : id < m.messages.length) : m'.typeIdOf? id = m.typeIdOf? id := by
  rw [Model.typeIdOf?, Model.typeIdOf?]
  congr 1
  cases hn : m.familyNumber? id with
  | some n =>
      obtain ⟨rest, hrest⟩ := h.familyTypeIds hm hm' hbound (m.root id)
      rw [familyNumber?] at hn
      rw [familyNumber?, h.root hm hm' hbound hid, ← hrest, List.lookup_append, hn,
        Option.some_or]
  | none =>
      refine Option.not_isSome_iff_eq_none.mp fun hsome => ?_
      obtain ⟨-, hfamily, hconcrete⟩ := mem_familyMembers.mp (familyNumber?_isSome.mp hsome)
      rw [h.inFamily hm hm' hbound hid] at hfamily
      rw [h.message id hid] at hconcrete
      have hmem := familyNumber?_isSome.mpr (mem_familyMembers.mpr ⟨hid, hfamily, hconcrete⟩)
      rw [hn] at hmem
      contradiction

end IsExtension

/-! ## tags and keys -/

theorem checkFields_append (name : String) (taken : Taken) (fs gs : List Field) :
    checkFields name taken (fs ++ gs) =
      (checkFields name taken fs >>= fun taken => checkFields name taken gs) := by
  induction fs generalizing taken with
  | nil => rfl
  | cons f rest ih =>
      rw [List.cons_append, checkFields, checkFields]
      split
      · rfl
      · cases checkItems name f.name taken.items (fieldItems f.name) with
        | error e => rfl
        | ok items =>
            simp only [Except.ok_bind]
            split
            · split
              · rfl
              · split
                · rfl
                · exact ih _
            · exact ih _

/-- Fields that fix no tag take none. -/
theorem tags_of_checkFields {fs : List Field} {taken taken' : Taken}
    (hfs : ∀ f ∈ fs, f.explicitTag = none) (h : checkFields name taken fs = .ok taken') :
    taken'.tags = taken.tags := by
  induction fs generalizing taken with
  | nil => cases h; rfl
  | cons f rest ih =>
      rw [checkFields] at h
      split at h
      · contradiction
      · obtain ⟨items, -, h'⟩ := Except.bind_eq_ok h
        have hrest : ∀ f ∈ rest, f.explicitTag = none := fun f hf => hfs f (.tail _ hf)
        cases htransient : f.transient with
        | true => simp only [htransient] at h'; rw [ih hrest h']
        | false => simp only [htransient, hfs f (.head _)] at h'; rw [ih hrest h']

/-- What happens to the first field does not depend on the others. -/
theorem numberFields_cons (name : String) (used : List Nat) (next : Nat) (f : Field) :
    ∃ first : Except SchemaError (Field × Nat), ∀ rest,
      numberFields name used next (f :: rest) = (first >>= fun (f', next') =>
        numberFields name used next' rest >>= fun rest' => .ok (f' :: rest')) := by
  simp only [numberFields]
  cases f.transient with
  | true => exact ⟨.ok (_, next), fun _ => rfl⟩
  | false =>
      cases f.explicitTag with
      | some tag => exact ⟨.ok (_, next), fun _ => rfl⟩
      | none =>
          by_cases hwide : UInt32.size ≤ firstFree used next
          · exact ⟨.error (.reservedTag name f.name), fun _ => by simp [hwide]; rfl⟩
          · exact ⟨.ok (_, firstFree used next + 1), fun _ => by simp [hwide]; rfl⟩

theorem numberFields_append {fs gs all : List Field}
    (h : numberFields name used next (fs ++ gs) = .ok all) :
    ∃ done rest next', numberFields name used next fs = .ok done ∧
      numberFields name used next' gs = .ok rest ∧ all = done ++ rest := by
  induction fs generalizing next all with
  | nil => exact ⟨[], all, next, rfl, h, rfl⟩
  | cons f fs ih =>
      obtain ⟨first, hfirst⟩ := numberFields_cons name used next f
      rw [List.cons_append, hfirst] at h
      obtain ⟨⟨f', next₁⟩, rfl, h₁⟩ := Except.bind_eq_ok h
      obtain ⟨all', hall, h₂⟩ := Except.bind_eq_ok h₁
      obtain ⟨done, rest, next', hdone, hrest, rfl⟩ := ih hall
      refine ⟨f' :: done, rest, next', ?_, hrest, (Except.ok.inj h₂).symm⟩
      simp only [hfirst, Except.ok_bind, hdone]

/-- Fields that fix no tag leave the tags and keys before them as they are. -/
theorem IsNumbered.append {drafts more : List Field} (h : m.IsNumbered drafts id)
    (h' : m'.IsNumbered (drafts ++ more) id)
    (hname : (m'.message id).name = (m.message id).name)
    (habove : Taken.above m' id = Taken.above m id) (hmore : ∀ f ∈ more, f.explicitTag = none) :
    ∃ rest, (m'.message id).fields = (m.message id).fields ++ rest ∧ (more = [] → rest = []) := by
  obtain ⟨taken, hcheck, -, hnumber⟩ := h
  obtain ⟨taken', hcheck', -, hnumber'⟩ := h'
  rw [hname, habove, checkFields_append, hcheck, Except.ok_bind] at hcheck'
  rw [hname, tags_of_checkFields hmore hcheck'] at hnumber'
  obtain ⟨done, rest, next', hdone, hrest, hsplit⟩ := numberFields_append hnumber'
  refine ⟨rest, ?_, ?_⟩
  · rw [hsplit, Except.ok.inj (hnumber.symm.trans hdone)]
  · rintro rfl
    cases hrest
    rfl

/-! ## messages -/

/-- A message with more fields behind those that it had. -/
def Message.GrowsTo (message message' : Message) : Prop :=
  ∃ added, message' = { message with fields := message.fields ++ added }

theorem lt_of_parent_of_resolve (h : resolve schema = .ok m)
    (hp : (m.message id).parent = some p) : p < m.messages.length := by
  have hid := lt_of_parent hp
  rw [message_of_lt hid] at hp
  exact (referencesWithin_of_resolve h).parents _ (List.getElem_mem hid) p hp

section

variable (hpasses : Passes schema draft m) (hpasses' : Passes schema' draft' m')
  (hext : IsExtension draft draft' added)

include hpasses hpasses' hext

/-- A message keeps its identifiers where those above it do. -/
theorem exists_added (hid : id < draft.messages.length)
    (hadded : ∀ f ∈ added id, f.explicitTag = none)
    (habove : ∀ a ∈ draft.ascent id, m'.message a = m.message a) :
    ∃ rest, m'.message id = { m.message id with fields := (m.message id).fields ++ rest } ∧
      (added id = [] → rest = []) := by
  obtain ⟨m₀, hresolve, hsame, -⟩ := hpasses.resolved
  obtain ⟨m₀', hresolve', hsame', -⟩ := hpasses'.resolved
  have hforest := (SameLineage.of_messages hsame).isForest (resolve_ok hresolve).1
  have hforest' := (SameLineage.of_messages hsame').isForest (resolve_ok hresolve').1
  have hbound : ∀ id p, (draft.message id).parent = some p → p < draft.messages.length := by
    intro id p hp
    rw [message_congr hsame] at hp
    rw [hsame]
    exact lt_of_parent_of_resolve hresolve hp
  have hancestors : m'.ancestors id = m.ancestors id := by
    rw [hpasses'.lineage.ancestors, hpasses.lineage.ancestors, ancestors, ancestors,
      hext.ascent hforest hforest' hbound hid]
  have htaken : Taken.above m' id = Taken.above m id := by
    refine above_congr hancestors fun a ha => habove a ?_
    rwa [hpasses.lineage.ancestors, mem_ancestors] at ha
  have hnumbered' := hpasses'.fields id
  rw [hext.message id hid] at hnumbered'
  have hname : (m'.message id).name = (m.message id).name := by
    rw [hpasses'.message, hpasses.message, hext.message id hid]
  obtain ⟨rest, hrest, hnone⟩ := (hpasses.fields id).append hnumbered' hname htaken hadded
  refine ⟨rest, ?_, hnone⟩
  rw [hpasses'.message, hrest, hext.message id hid,
    hext.typeIdOf? hforest hforest' hbound hid]
  nth_rewrite 2 [hpasses.message]
  rfl

/-- A message that others extend, and to which no field is added, stays as it is. -/
theorem message_eq_above (hadded : ∀ id < draft.messages.length, ∀ f ∈ added id,
    f.explicitTag = none)
    (hleaf : ∀ id < draft.messages.length, draft.specializations id ≠ [] → added id = [])
    (hid : id < draft.messages.length) : ∀ a ∈ draft.ascent id, m'.message a = m.message a := by
  obtain ⟨m₀, hresolve, hsame, -⟩ := hpasses.resolved
  have hforest := (SameLineage.of_messages hsame).isForest (resolve_ok hresolve).1
  induction id using hforest.induction with
  | root id hp => rw [ascent_of_none hp]; simp
  | step id p hp ih =>
      have hplt : p < draft.messages.length := by
        rw [message_congr hsame] at hp
        rw [hsame]
        exact lt_of_parent_of_resolve hresolve hp
      rw [ascent_of_some hforest hp, List.forall_mem_cons]
      refine ⟨?_, ih hplt⟩
      obtain ⟨rest, hrest, hnone⟩ :=
        exists_added hpasses hpasses' hext hplt (hadded p hplt) (ih hplt)
      have hspec : draft.specializations p ≠ [] := List.ne_nil_of_mem (mem_specializations.mpr hp)
      rw [hrest, hnone (hleaf p hplt hspec), List.append_nil]

end

/-- **Messages stay**: fields that fix no tag, in messages that none extends, leave all other
identifiers of messages as they are. -/
theorem messages_of_grows {fields : MessageHead → List Schema.Field}
    (hgrows : Grows schema schema' fields) (h : ofSchema schema = .ok m)
    (h' : ofSchema schema' = .ok m') (hfields : ∀ head, ∀ f ∈ fields head, f.index = none)
    (hleaf : ∀ id head, (heads schema)[id]? = some head → m.specializations id ≠ [] →
      fields head = []) :
    m.messages.length ≤ m'.messages.length ∧ ∀ id < m.messages.length, ∃ rest,
      m'.message id = { m.message id with fields := (m.message id).fields ++ rest } ∧
        ∀ head, (heads schema)[id]? = some head → fields head = [] → rest = [] := by
  obtain ⟨draft, hpasses⟩ := passes_of_ofSchema h
  obtain ⟨draft', hpasses'⟩ := passes_of_ofSchema h'
  obtain ⟨m₀, hresolve, hsame, -⟩ := hpasses.resolved
  obtain ⟨m₀', hresolve', hsame', -⟩ := hpasses'.resolved
  obtain ⟨added, hext, hdeclared⟩ := exists_isExtension hgrows hresolve hresolve'
  have hext : IsExtension draft draft' added := by
    refine ⟨by rw [hsame, hsame']; exact hext.length, fun id hid => ?_, fun id hid => ?_⟩
    · rw [message_congr hsame, message_congr hsame']
      exact hext.message id (hsame ▸ hid)
    · rw [message_congr hsame']
      exact hext.fresh id (hsame ▸ hid)
  have hhead : ∀ id < draft.messages.length, ∃ head, (heads schema)[id]? = some head := by
    intro id hid
    rw [hsame, ← (forall₂_resolve hresolve).1.length_eq] at hid
    exact ⟨_, List.getElem?_eq_getElem hid⟩
  have hadded : ∀ id < draft.messages.length, ∀ f ∈ added id, f.explicitTag = none := by
    intro id hid f hf
    obtain ⟨head, hhead⟩ := hhead id hid
    obtain ⟨f₀, hf₀, hf⟩ := exists_of_forall₂ (hdeclared id head hhead) hf
    rw [hf.explicitTag, hfields head f₀ hf₀]
  have hnone : ∀ id head, (heads schema)[id]? = some head → fields head = [] → added id = [] := by
    intro id head hhead hnil
    have hall := hdeclared id head hhead
    rw [hnil] at hall
    exact List.forall₂_nil_left_iff.mp hall
  refine ⟨by rw [hpasses.length, hpasses'.length]; exact hext.length, fun id hid => ?_⟩
  rw [hpasses.length] at hid
  have habove := message_eq_above hpasses hpasses' hext hadded
    (fun id hid hspec => ?_) hid
  · obtain ⟨rest, hrest, hadded⟩ :=
      exists_added hpasses hpasses' hext hid (hadded id hid) habove
    exact ⟨rest, hrest, fun head hhead hnil => hadded (hnone id head hhead hnil)⟩
  · obtain ⟨head, hhead⟩ := hhead id hid
    refine hnone id head hhead (hleaf id head hhead ?_)
    rwa [hpasses.lineage.specializations]

theorem prefix_messages {fields : MessageHead → List Schema.Field}
    (hgrows : Grows schema schema' fields) (h : ofSchema schema = .ok m)
    (h' : ofSchema schema' = .ok m') (hnone : ∀ head, fields head = []) :
    m.messages <+: m'.messages := by
  obtain ⟨hlength, hmessages⟩ := messages_of_grows hgrows h h' (by simp [hnone])
    fun _ head _ _ => hnone head
  refine List.prefix_iff_getElem.mpr ⟨hlength, fun id hid => ?_⟩
  obtain ⟨rest, hrest, hnil⟩ := hmessages id hid
  obtain ⟨draft, hpasses⟩ := passes_of_ofSchema h
  have hlt : id < (heads schema).length := hpasses.forall₂_messages.length_eq ▸ hid
  rw [hnil _ (List.getElem?_eq_getElem hlt) (hnone _), List.append_nil,
    message_of_lt (hid.trans_le hlength), message_of_lt hid] at hrest
  exact hrest.symm

/-! ## enumerations -/

theorem mapM_enumerationsOf (h : ofSchema schema = .ok m) :
    (enumerationsOf schema).mapM identifyEnumeration = .ok m.enumerations := by
  obtain ⟨draft, hpasses⟩ := passes_of_ofSchema h
  obtain ⟨m₀, hresolve, -, henums⟩ := hpasses.resolved
  obtain ⟨_, _, ⟨-, parents, -, rfl⟩, -, -, -, rfl⟩ := resolve_eq_ok_iff.mp hresolve
  exact henums

theorem forall₂_enumerationsOf_grow (fields : MessageHead → List Schema.Field)
    {constants : Schema.Enumeration → List Schema.Constant}
    (hconstants : ∀ e, ∀ c ∈ constants e, c.index = none) (schema : Schema) :
    List.Forall₂ (fun e e' => ∃ cs : List Constant, (∀ c ∈ cs, c.explicitCode = none) ∧
        e' = { e with constants := e.constants ++ cs })
      (enumerationsOf schema) (enumerationsOf (schema.grow fields constants)) := by
  rw [enumerationsOf_grow, enumerationsOf]
  induction declared schema with
  | nil => exact .nil
  | cons entry rest ih =>
      obtain ⟨file, d⟩ := entry
      cases d with
      | message head nested => exact ih
      | enumeration e =>
          refine .cons ⟨(constants e).map fun c =>
            { name := c.name, docs := c.docs, options := c.options, explicitCode := c.index },
            ?_, ?_⟩ ih
          · rw [List.forall_mem_map]
            exact hconstants e
          · simp [Enumeration.ofDeclared, Enumeration.grow]

/-! ## growing schemas -/

theorem length_messages_grow {fields : MessageHead → List Schema.Field}
    {constants : Schema.Enumeration → List Schema.Constant} (h : ofSchema schema = .ok m)
    (h' : ofSchema (schema.grow fields constants) = .ok m') :
    m.messages.length = m'.messages.length := by
  obtain ⟨draft, hpasses⟩ := passes_of_ofSchema h
  obtain ⟨draft', hpasses'⟩ := passes_of_ofSchema h'
  rw [← hpasses.forall₂_messages.length_eq, ← hpasses'.forall₂_messages.length_eq, heads_grow,
    List.length_map]

theorem prefix_of_adds (h : ofSchema schema = .ok m) (h' : ofSchema schema' = .ok m')
    (hadds : schema.Adds d schema') (hd : d.IsPlain) :
    m.messages <+: m'.messages ∧ m.enumerations <+: m'.enumerations := by
  refine ⟨prefix_messages (grows_of_adds hadds hd) h h' fun _ => rfl, ?_⟩
  obtain ⟨file, hdeclared⟩ := declared_of_adds hadds
  refine Except.prefix_of_mapM_eq_ok ?_ (mapM_enumerationsOf h) (mapM_enumerationsOf h')
  rw [enumerationsOf, enumerationsOf, hdeclared, List.filterMap_append]
  exact List.prefix_append _ _

theorem growsTo_of_addField {f : Schema.Field} (h : ofSchema schema = .ok m)
    (h' : ofSchema (schema.addField name f) = .ok m') (hf : f.index = none)
    (hleaf : ∀ id, (m.message id).name = name → m.specializations id = []) :
    List.Forall₂ Message.GrowsTo m.messages m'.messages ∧ m'.enumerations = m.enumerations := by
  constructor
  · have hfields : ∀ head : MessageHead,
        ∀ f' ∈ (if head.name = name then [f] else []), f'.index = none := by
      intro head f' hf'
      split at hf'
      · rw [List.mem_singleton.mp hf', hf]
      · contradiction
    have hspec : ∀ id head, (heads schema)[id]? = some head → m.specializations id ≠ [] →
        (if head.name = name then [f] else []) = [] := by
      intro id head hhead hspec
      refine if_neg fun hname => hspec (hleaf id ?_)
      obtain ⟨draft, hpasses⟩ := passes_of_ofSchema h
      have hall := hpasses.forall₂_messages
      obtain ⟨hid, rfl⟩ := List.getElem?_eq_some_iff.mp hhead
      have hid' := hall.length_eq ▸ hid
      rw [message_of_lt hid']
      exact (hall.get hid hid').name.trans hname
    obtain ⟨-, hmessages⟩ := messages_of_grows (grows_grow _ _ schema) h h' hfields hspec
    refine List.forall₂_iff_get.mpr ⟨length_messages_grow h h', fun id hid hid' => ?_⟩
    obtain ⟨rest, hrest, -⟩ := hmessages id hid
    rw [message_of_lt hid, message_of_lt hid'] at hrest
    exact ⟨rest, hrest⟩
  · have hsame : enumerationsOf (schema.addField name f) = enumerationsOf schema := by
      rw [addField, enumerationsOf_grow, enumerationsOf]
      congr 1
      funext entry
      obtain ⟨file, d⟩ := entry
      cases d <;> simp [Enumeration.grow]
    have henums' := mapM_enumerationsOf h'
    rw [hsame] at henums'
    exact Except.ok.inj (henums'.symm.trans (mapM_enumerationsOf h))

theorem growsTo_of_addConstant {c : Schema.Constant} (h : ofSchema schema = .ok m)
    (h' : ofSchema (schema.addConstant name c) = .ok m') (hc : c.index = none) :
    m'.messages = m.messages ∧
      List.Forall₂ Enumeration.GrowsTo m.enumerations m'.enumerations := by
  constructor
  · have hmessages := prefix_messages (grows_grow _ _ schema) h h' fun _ => rfl
    exact (hmessages.eq_of_length (length_messages_grow h h')).symm
  · have hconstants : ∀ e : Schema.Enumeration,
        ∀ c' ∈ (if e.name = name then [c] else []), c'.index = none := by
      intro e c' hc'
      split at hc'
      · rw [List.mem_singleton.mp hc', hc]
      · contradiction
    -- from a numbered enumeration to its declaration, the larger one and what is made of that
    have hold := List.Forall₂.flip (Except.mapM_eq_ok_iff.mp (mapM_enumerationsOf h))
    have hgrown := forall₂_enumerationsOf_grow (fun _ => []) hconstants schema
    have hnew := Except.mapM_eq_ok_iff.mp (mapM_enumerationsOf h')
    refine forall₂_trans (fun i e' i' hi hi' => ?_)
      (forall₂_trans (fun i e e' hi he => ?_) hold hgrown) hnew
      (R := fun i e' => ∃ e cs, identifyEnumeration e = .ok i ∧
        (∀ c ∈ cs, c.explicitCode = none) ∧ e' = { e with constants := e.constants ++ cs })
    · obtain ⟨e, cs, hi, hcs, rfl⟩ := hi
      exact growsTo_of_identifyEnumeration hcs hi hi'
    · obtain ⟨cs, hcs, rfl⟩ := he
      exact ⟨e, cs, hi, hcs, rfl⟩

/-- **Stability**: a definition that comes after all others and fixes no discriminator leaves all
messages and enumerations as they are.  A field without a fixed tag, in a message that none extends,
and a constant without a fixed code leave all else as it is. -/
theorem identifiers_stable (h : ofSchema schema = .ok m) (h' : ofSchema schema' = .ok m') :
    (∀ d, schema.Adds d schema' → d.IsPlain →
      m.messages <+: m'.messages ∧ m.enumerations <+: m'.enumerations) ∧
    (∀ name f, schema' = schema.addField name f → f.index = none →
      (∀ id, (m.message id).name = name → m.specializations id = []) →
      List.Forall₂ Message.GrowsTo m.messages m'.messages ∧ m'.enumerations = m.enumerations) ∧
    (∀ name c, schema' = schema.addConstant name c → c.index = none →
      m'.messages = m.messages ∧
        List.Forall₂ Enumeration.GrowsTo m.enumerations m'.enumerations) := by
  refine ⟨fun d hadds hd => prefix_of_adds h h' hadds hd, ?_, ?_⟩
  · rintro name f rfl hf hleaf
    exact growsTo_of_addField h h' hf hleaf
  · rintro name c rfl hc
    exact growsTo_of_addConstant h h' hc

open Schema.Field Schema.Definition in
/-- A member of the family of dogs that is declared after them, with a message inside it. -/
def cat : Definition :=
  ((ofFields "Cat" [ofCustom "mood" "Level", ofCustom "toy" "Toy"]).withNested
    (ofFields "Toy" [ofPrimitive "bell" .bool])).extending "Animal"

def kennelWithCat : Schema :=
  { kennel with
    files := kennel.files.map fun file =>
      { file with definitions := file.definitions ++ [cat] } }

open Schema.Field in
theorem identifiers_stable_kennel : ∃ m m₁ m₂ m₃, ofSchema kennel = .ok m ∧
    (ofSchema kennelWithCat = .ok m₁ ∧ m.messages <+: m₁.messages ∧
      m₁.messages.map (·.typeId) = [some 1, some 2, none, some 3, none]) ∧
    (ofSchema (kennel.addField "Puppy" (ofPrimitive "collar" .string)) = .ok m₂ ∧
      List.Forall₂ Message.GrowsTo m.messages m₂.messages ∧
      (m₂.message 0).fields.map (·.tag) = [some 5, some 3, some 6, some 7]) ∧
    (ofSchema (kennel.addConstant "Level" (.of "TOP" none)) = .ok m₃ ∧
      List.Forall₂ Enumeration.GrowsTo m.enumerations m₃.enumerations ∧
      (m₃.enumeration 0).constants.map (·.code) = [1, 0, 2, 3]) := by
  have hmodel : (ofSchema kennel).toOption.any (fun m => decide
      (∀ id ∈ m.messageIds, (m.message id).name = "Puppy" → m.specializations id = [])) =
        true := by
    decide +kernel
  have hcat : (ofSchema kennelWithCat).toOption.any (fun m => decide
      (m.messages.map (·.typeId) = [some 1, some 2, none, some 3, none])) = true := by
    decide +kernel
  have hfield : (ofSchema (kennel.addField "Puppy" (ofPrimitive "collar" .string))).toOption.any
      (fun m => decide ((m.message 0).fields.map (·.tag) =
        [some 5, some 3, some 6, some 7])) = true := by
    decide +kernel
  have hconstant : (ofSchema (kennel.addConstant "Level" (.of "TOP" none))).toOption.any
      (fun m => decide ((m.enumeration 0).constants.map (·.code) = [1, 0, 2, 3])) = true := by
    decide +kernel
  obtain ⟨m, hm, hfacts⟩ := (Option.any_eq_true _ _).mp hmodel
  obtain ⟨m₁, hm₁, hfacts₁⟩ := (Option.any_eq_true _ _).mp hcat
  obtain ⟨m₂, hm₂, hfacts₂⟩ := (Option.any_eq_true _ _).mp hfield
  obtain ⟨m₃, hm₃, hfacts₃⟩ := (Option.any_eq_true _ _).mp hconstant
  have hm := Except.toOption_eq_some.mp hm
  have hm₁ := Except.toOption_eq_some.mp hm₁
  have hm₂ := Except.toOption_eq_some.mp hm₂
  have hm₃ := Except.toOption_eq_some.mp hm₃
  have hleaf := of_decide_eq_true hfacts
  have hplain : cat.IsPlain := by
    unfold Definition.IsPlain
    decide
  have hpuppy : ∀ id, (m.message id).name = "Puppy" → m.specializations id = [] := by
    intro id hname
    by_cases hid : id < m.messages.length
    · exact hleaf id (mem_messageIds.mpr hid) hname
    · rw [message_of_le (Nat.le_of_not_lt hid)] at hname
      exact absurd hname (by decide)
  refine ⟨m, m₁, m₂, m₃, hm, ⟨hm₁, ?_, of_decide_eq_true hfacts₁⟩,
    ⟨hm₂, ?_, of_decide_eq_true hfacts₂⟩, hm₃, ?_, of_decide_eq_true hfacts₃⟩
  · exact ((identifiers_stable hm hm₁).1 cat (.toLast [] _ []) hplain).1
  · exact ((identifiers_stable hm hm₂).2.1 _ _ rfl rfl hpuppy).1
  · exact ((identifiers_stable hm hm₃).2.2 _ _ rfl rfl).2

end Model

end Missive
