import Missive.Proofs.Model.Numbering

/-!
# Missive.Proofs.Model.Fields

The tags and keys of the fields of a message.

`IsNumbered m declared id` says that the fields of a message came from declared ones by the checks
and the numbering, against what the messages use that it extends.  It holds of every message of a
numbered model (`isNumbered_of_identify`), because the messages are numbered in an order in which
the fields above a message do not change any more.  So no two fields of a message, inherited or its
own, share a tag (`nodup_tags`) or a key (`nodup_keys`), and each has a getter of its own in the
emitted code (`nodup_getters`).
-/

namespace Missive.Model

/-! ## fields of one message -/

/-- The tags that fields fix. -/
def fixedTags (fields : List Field) : List UInt32 :=
  (fields.filter fun f => !f.transient).filterMap (·.explicitTag)

/-- The key of a declared field. -/
def keyOf (f : Field) : String := jsonNameOf f.options f.name

/-- The tags that are taken after the checks are those taken before and those that are fixed, and
no tag is fixed that was taken or is zero. -/
theorem checkFields_ok (h : checkFields name taken fields = .ok taken') :
    (fixedTags fields).Nodup ∧
      (∀ tag ∈ fixedTags fields, tag ≠ 0 ∧ tag ∉ taken.tags.map Prod.fst) ∧
      ∀ tag, tag ∈ taken'.tags.map Prod.fst ↔
        tag ∈ fixedTags fields ∨ tag ∈ taken.tags.map Prod.fst := by
  induction fields generalizing taken with
  | nil =>
      cases h
      simp [fixedTags]
  | cons f rest ih =>
      rw [checkFields] at h
      split at h
      · contradiction
      · obtain ⟨items, -, h'⟩ := Except.bind_eq_ok h
        simp only at h'
        split at h'
        · next tag htransient htag =>
            have hfixed : fixedTags (f :: rest) = tag :: fixedTags rest := by
              simp [fixedTags, htransient, htag]
            split at h'
            · contradiction
            · next hzero =>
                split at h'
                · contradiction
                · next hl =>
                    obtain ⟨hnodup, hnew, hmem⟩ := ih h'
                    simp only [List.map_cons, List.mem_cons, not_or] at hnew hmem
                    rw [hfixed]
                    refine ⟨List.nodup_cons.mpr ⟨fun hm => (hnew tag hm).2.1 rfl, hnodup⟩, ?_, ?_⟩
                    · rw [List.forall_mem_cons]
                      exact ⟨⟨by simpa using hzero, lookup_eq_none_iff_not_mem.mp hl⟩,
                        fun t ht => ⟨(hnew t ht).1, (hnew t ht).2.2⟩⟩
                    · intro t
                      rw [hmem, List.mem_cons]
                      tauto
        · next hnone =>
            have hfixed : fixedTags (f :: rest) = fixedTags rest := by
              cases htransient : f.transient with
              | true => simp [fixedTags, htransient]
              | false =>
                  cases htag : f.explicitTag with
                  | none => simp [fixedTags, htransient, htag]
                  | some tag => exact absurd htag (hnone tag htransient)
            rw [hfixed]
            have hrest := ih h'
            exact hrest

/-- The items of a field are new, and taken afterwards. -/
theorem checkItems_ok (h : checkItems name field items new = .ok items') :
    new.Nodup ∧ (∀ item ∈ new, item ∉ items.map Prod.fst) ∧
      ∀ item, item ∈ items'.map Prod.fst ↔ item ∈ new ∨ item ∈ items.map Prod.fst := by
  induction new generalizing items with
  | nil =>
      cases h
      simp
  | cons item rest ih =>
      rw [checkItems] at h
      split at h
      · contradiction
      · next hl =>
          obtain ⟨hnodup, hnew, hmem⟩ := ih h
          simp only [List.map_cons, List.mem_cons, not_or] at hnew hmem
          refine ⟨List.nodup_cons.mpr ⟨fun hm => (hnew item hm).1 rfl, hnodup⟩, ?_, fun i => ?_⟩
          · rw [List.forall_mem_cons]
            exact ⟨lookup_eq_none_iff_not_mem.mp hl, fun i hi => (hnew i hi).2⟩
          · rw [hmem i, List.mem_cons]
            tauto

/-- The items that the emitted code has for fields. -/
def itemsOfFields (fields : List Field) : List String := fields.flatMap fun f => fieldItems f.name

/-- The items of fields are distinct, and were not taken. -/
theorem checkFields_items (h : checkFields name taken fields = .ok taken') :
    (itemsOfFields fields).Nodup ∧
      ∀ item ∈ itemsOfFields fields, item ∉ taken.items.map Prod.fst := by
  induction fields generalizing taken with
  | nil => simp [itemsOfFields]
  | cons f rest ih =>
      rw [checkFields] at h
      split at h
      · contradiction
      · obtain ⟨items, hitems, h'⟩ := Except.bind_eq_ok h
        obtain ⟨hnodup, hnew, hmem⟩ := checkItems_ok hitems
        have hrest : (itemsOfFields rest).Nodup ∧
            ∀ item ∈ itemsOfFields rest, item ∉ items.map Prod.fst := by
          simp only at h'
          split at h'
          · split at h'
            · cases h'
            · split at h'
              · cases h'
              · have hrest := ih h'
                exact hrest
          · have hrest := ih h'
            exact hrest
        obtain ⟨hnodup', hnew'⟩ := hrest
        simp only [hmem, not_or] at hnew'
        refine ⟨List.nodup_append'.mpr ⟨hnodup, hnodup', fun item hf hr => (hnew' item hr).1 hf⟩,
          fun item hitem => ?_⟩
        obtain hf | hr := List.mem_append.mp hitem
        · exact hnew item hf
        · exact (hnew' item hr).2

/-- No key is used twice. -/
theorem checkKeys_ok (h : checkKeys name keys fields = .ok ()) :
    (fields.map keyOf).Nodup ∧ ∀ key ∈ fields.map keyOf, key ∉ keys.map Prod.fst := by
  induction fields generalizing keys with
  | nil => exact ⟨.nil, by simp⟩
  | cons f rest ih =>
      rw [checkKeys] at h
      cases hl : keys.lookup (jsonNameOf f.options f.name) with
      | some other => simp only [hl] at h; contradiction
      | none =>
          simp only [hl] at h
          obtain ⟨hnodup, hrest⟩ := ih h
          rw [List.map_cons, List.nodup_cons, List.forall_mem_cons]
          exact ⟨⟨fun hm => hrest _ hm (.head _), hnodup⟩, lookup_eq_none_iff_not_mem.mp hl,
            fun key hk hm => hrest key hk (.tail _ hm)⟩

/-- The tags that fields fix, with gaps for those that have none yet. -/
def tagSlots (fields : List Field) : List (Option Nat) :=
  (fields.filter fun f => !f.transient).map (·.explicitTag.map UInt32.toNat)

theorem filterMap_tagSlots (fields : List Field) :
    (tagSlots fields).filterMap id = (fixedTags fields).map UInt32.toNat := by
  simp [tagSlots, fixedTags, List.filterMap_map, List.map_filterMap]

theorem mem_tagSlots : some k ∈ tagSlots fields ↔ ∃ tag ∈ fixedTags fields, tag.toNat = k := by
  rw [← List.mem_map, ← filterMap_tagSlots, List.mem_filterMap]
  simp

/-- A declared field `f` with its tag and key, `f'`. -/
structure Field.IsIdentified (f f' : Field) : Prop where
  same : f' = { f with tag := f'.tag, key := keyOf f }
  /-- The fields that travel are those that have a tag. -/
  tag_eq_none_iff : f'.tag = none ↔ f.transient = true
  /-- A tag that is fixed is kept. -/
  kept : f.transient = false → ∀ tag, f.explicitTag = some tag → f'.tag = some tag

/-- Numbering gives keys to all fields and tags to those that travel; the tags fill the gaps between
those that are fixed. -/
theorem numberFields_ok (hnone : ∀ f ∈ fields, f.tag = none)
    (h : numberFields name used next fields = .ok fields') :
    List.Forall₂ Field.IsIdentified fields fields' ∧
      (fields'.filterMap (·.tag)).map UInt32.toNat = fillGaps used next (tagSlots fields) := by
  induction fields generalizing next fields' with
  | nil => cases h; exact ⟨.nil, rfl⟩
  | cons f rest ih =>
      have hrest : ∀ f ∈ rest, f.tag = none := fun f hf => hnone f (.tail _ hf)
      rw [numberFields] at h
      cases htransient : f.transient with
      | true =>
          simp only [htransient, if_true] at h
          obtain ⟨rest', hr, h'⟩ := Except.bind_eq_ok h
          cases h'
          obtain ⟨hall, htags⟩ := ih hrest hr
          have hf := hnone f (.head _)
          refine ⟨.cons ⟨by simp [keyOf, htransient], by simp [hf, htransient],
            by simp [htransient]⟩ hall, ?_⟩
          simp [hf, tagSlots, htransient, htags]
      | false =>
          simp only [htransient, Bool.false_eq_true, if_false] at h
          cases htag : f.explicitTag with
          | some tag =>
              simp only [htag] at h
              obtain ⟨rest', hr, h'⟩ := Except.bind_eq_ok h
              cases h'
              obtain ⟨hall, htags⟩ := ih hrest hr
              refine ⟨.cons ⟨by simp [keyOf, htransient, htag], by simp [htransient],
                by simp [htag]⟩ hall, ?_⟩
              simp [tagSlots, htransient, htag, htags, fillGaps]
          | none =>
              simp only [htag] at h
              split at h
              · contradiction
              · next hlt =>
                  obtain ⟨rest', hr, h'⟩ := Except.bind_eq_ok h
                  cases h'
                  obtain ⟨hall, htags⟩ := ih hrest hr
                  have hn := UInt32.toNat_ofNat_of_lt' (Nat.lt_of_not_le hlt)
                  refine ⟨.cons ⟨by simp [keyOf, htransient, htag], by simp [htransient],
                by simp [htag]⟩ hall, ?_⟩
                  simp [tagSlots, htransient, htag, htags, fillGaps, hn]

/-! ## what the messages above use -/

variable {m m' : Model} {id x : MessageId}

/-- A fold to which each element adds something holds what was there and what was added. -/
theorem foldl_iff {step : σ → α → σ} {P : σ → Prop} {adds : α → Prop}
    (hstep : ∀ s a, P (step s a) ↔ adds a ∨ P s) (xs : List α) (s : σ) :
    P (xs.foldl step s) ↔ (∃ a ∈ xs, adds a) ∨ P s := by
  induction xs generalizing s with
  | nil => simp
  | cons a rest ih =>
      rw [List.foldl_cons, ih, hstep]
      simp only [List.mem_cons, exists_eq_or_imp]
      rw [or_assoc, or_left_comm]

/-- What is taken above a message is what the fields of the messages take that it extends. -/
theorem above_iff {P : Taken → Prop} {takes : Field → Prop} (hempty : ¬ P {})
    (hadd : ∀ taken name f, P (taken.add name f) ↔ takes f ∨ P taken) :
    P (Taken.above m id) ↔ ∃ a ∈ m.ancestors id, ∃ f ∈ (m.message a).fields, takes f := by
  have hmessage : ∀ taken a, P ((m.message a).fields.foldl
      (fun taken f => taken.add (m.message a).name f) taken) ↔
        (∃ f ∈ (m.message a).fields, takes f) ∨ P taken :=
    fun taken a => foldl_iff (fun taken f => hadd taken _ f) _ taken
  have hall := foldl_iff hmessage (m.ancestors id) {}
  rw [or_iff_left hempty] at hall
  exact hall

theorem mem_tags_above : tag ∈ (Taken.above m id).tags.map Prod.fst ↔
    ∃ a ∈ m.ancestors id, ∃ f ∈ (m.message a).fields, f.tag = some tag := by
  refine above_iff (P := fun taken => tag ∈ taken.tags.map Prod.fst) (by simp)
    fun taken name f => ?_
  cases hf : f.tag with
  | none => simp [Taken.add, hf]
  | some t => simp [Taken.add, hf, eq_comm]

theorem mem_keys_above : key ∈ (Taken.above m id).keys.map Prod.fst ↔
    ∃ a ∈ m.ancestors id, ∃ f ∈ (m.message a).fields, f.key = key := by
  refine above_iff (P := fun taken => key ∈ taken.keys.map Prod.fst) (by simp)
    fun taken name f => ?_
  simp [Taken.add, eq_comm]

theorem mem_items_above : item ∈ (Taken.above m id).items.map Prod.fst ↔
    ∃ a ∈ m.ancestors id, ∃ f ∈ (m.message a).fields, item ∈ fieldItems f.name := by
  refine above_iff (P := fun taken => item ∈ taken.items.map Prod.fst) (by simp)
    fun taken name f => ?_
  simp [Taken.add, fieldItems, or_comm, or_assoc]

/-! ## numbered messages -/

/-- The fields of a message came from those that it declares by the checks and the numbering. -/
def IsNumbered (m : Model) (drafts : List Field) (id : MessageId) : Prop :=
  ∃ taken, checkFields (m.message id).name (Taken.above m id) drafts = .ok taken ∧
    checkKeys (m.message id).name (Taken.above m id).keys drafts = .ok () ∧
    numberFields (m.message id).name (taken.tags.map fun (tag, _) => tag.toNat) 1 drafts =
      .ok (m.message id).fields

namespace IsNumbered

variable {drafts : List Field}

theorem forall₂_isIdentified (h : m.IsNumbered drafts id) (hnone : ∀ f ∈ drafts, f.tag = none) :
    List.Forall₂ Field.IsIdentified drafts (m.message id).fields := by
  obtain ⟨taken, -, -, hnumber⟩ := h
  exact (numberFields_ok hnone hnumber).1

/-- A transient field has no tag, and every other field has one. -/
theorem tag_eq_none_iff (h : m.IsNumbered drafts id) (hnone : ∀ f ∈ drafts, f.tag = none)
    (hf : f ∈ (m.message id).fields) : f.tag = none ↔ f.transient = true := by
  obtain ⟨f₀, -, hf₀⟩ := exists_of_forall₂ (h.forall₂_isIdentified hnone) hf
  rw [hf₀.tag_eq_none_iff, hf₀.same]

theorem map_key (h : m.IsNumbered drafts id) (hnone : ∀ f ∈ drafts, f.tag = none) :
    (m.message id).fields.map (·.key) = drafts.map keyOf := by
  have hkeys : drafts.map keyOf = (m.message id).fields.map (·.key) :=
    map_eq_of_forall₂ ((h.forall₂_isIdentified hnone).imp fun f f' hf => by rw [hf.same])
  exact hkeys.symm

theorem nodup_keys (h : m.IsNumbered drafts id) (hnone : ∀ f ∈ drafts, f.tag = none) :
    ((m.message id).fields.map (·.key)).Nodup := by
  rw [h.map_key hnone]
  obtain ⟨taken, -, hkeys, -⟩ := h
  exact (checkKeys_ok hkeys).1

/-- A field does not use a key again. -/
theorem keys_above (h : m.IsNumbered drafts id) (hnone : ∀ f ∈ drafts, f.tag = none)
    (hf : f ∈ (m.message id).fields) : f.key ∉ (Taken.above m id).keys.map Prod.fst := by
  have hkey : f.key ∈ drafts.map keyOf := by
    rw [← h.map_key hnone]
    exact List.mem_map_of_mem hf
  obtain ⟨taken, -, hkeys, -⟩ := h
  exact (checkKeys_ok hkeys).2 f.key hkey

theorem nodup_tags (h : m.IsNumbered drafts id) (hnone : ∀ f ∈ drafts, f.tag = none) :
    ((m.message id).fields.filterMap (·.tag)).Nodup := by
  obtain ⟨taken, hcheck, -, hnumber⟩ := h
  obtain ⟨hfixed, -, hmem⟩ := checkFields_ok hcheck
  refine .of_map UInt32.toNat ?_
  rw [(numberFields_ok hnone hnumber).2]
  refine nodup_fillGaps ?_ (fun k hk => ?_) 1
  · rw [filterMap_tagSlots]
    exact hfixed.map_on fun tag _ tag' _ heq => UInt32.toNat_inj.mp heq
  · obtain ⟨tag, htag, rfl⟩ := mem_tagSlots.mp hk
    obtain ⟨entry, hentry, rfl⟩ := List.mem_map.mp ((hmem tag).mpr (.inl htag))
    exact List.mem_map.mpr ⟨entry, hentry, rfl⟩

/-- A field does not use a tag again, and no field has the tag zero. -/
theorem tags_above (h : m.IsNumbered drafts id) (hnone : ∀ f ∈ drafts, f.tag = none)
    (hf : f ∈ (m.message id).fields) (htag : f.tag = some tag) :
    tag ≠ 0 ∧ tag ∉ (Taken.above m id).tags.map Prod.fst := by
  obtain ⟨taken, hcheck, -, hnumber⟩ := h
  obtain ⟨-, hnew, hmem⟩ := checkFields_ok hcheck
  have hgap : tag.toNat ∈
      fillGaps (taken.tags.map fun (tag, _) => tag.toNat) 1 (tagSlots drafts) := by
    rw [← (numberFields_ok hnone hnumber).2]
    exact List.mem_map_of_mem (List.mem_filterMap.mpr ⟨f, hf, htag⟩)
  obtain hfixed | ⟨hpos, hfree⟩ := mem_fillGaps hgap
  · obtain ⟨tag', htag', heq⟩ := mem_tagSlots.mp hfixed
    exact UInt32.toNat_inj.mp heq ▸ hnew tag' htag'
  · refine ⟨fun hzero => ?_, fun habove => ?_⟩
    · rw [hzero] at hpos
      contradiction
    · obtain ⟨entry, hentry, rfl⟩ := List.mem_map.mp ((hmem tag).mpr (.inr habove))
      exact hfree (List.mem_map.mpr ⟨entry, hentry, rfl⟩)

theorem items_fields (h : m.IsNumbered drafts id) (hnone : ∀ f ∈ drafts, f.tag = none) :
    itemsOfFields (m.message id).fields = itemsOfFields drafts := by
  have hitems : drafts.map (fun f => fieldItems f.name) =
      (m.message id).fields.map (fun f => fieldItems f.name) :=
    map_eq_of_forall₂ ((h.forall₂_isIdentified hnone).imp fun f f' hf => by rw [hf.same])
  rw [itemsOfFields, itemsOfFields, List.flatMap_def, List.flatMap_def, hitems]

theorem nodup_items (h : m.IsNumbered drafts id) (hnone : ∀ f ∈ drafts, f.tag = none) :
    (itemsOfFields (m.message id).fields).Nodup := by
  rw [h.items_fields hnone]
  obtain ⟨taken, hcheck, -⟩ := h
  exact (checkFields_items hcheck).1

/-- A field does not use an item again. -/
theorem items_above (h : m.IsNumbered drafts id) (hnone : ∀ f ∈ drafts, f.tag = none)
    (hitem : item ∈ itemsOfFields (m.message id).fields) :
    item ∉ (Taken.above m id).items.map Prod.fst := by
  rw [h.items_fields hnone] at hitem
  obtain ⟨taken, hcheck, -⟩ := h
  exact (checkFields_items hcheck).2 item hitem

end IsNumbered

/-! ## one message after another -/

/-- Models that differ at most in the fields of their messages. -/
structure SameUpToFields (m m' : Model) : Prop where
  enumerations : m'.enumerations = m.enumerations
  length : m'.messages.length = m.messages.length
  message : ∀ id, m'.message id = { m.message id with fields := (m'.message id).fields }

theorem SameUpToFields.lineage (h : SameUpToFields m m') : SameLineage m m' where
  length := h.length
  parent id := by rw [h.message]
  isAbstract id := by rw [h.message]

/-- What has been done after a number of messages, and what has not. -/
structure NumberedSoFar (m₀ : Model) (done : List MessageId) (m : Model) : Prop where
  same : SameUpToFields m₀ m
  numbered : ∀ id ∈ done, m.IsNumbered (m₀.message id).fields id
  rest : ∀ id ∉ done, m.message id = m₀.message id

/-- Numbering a message changes its fields and nothing else. -/
theorem identifyFields_ok (h : m.identifyFields id = .ok m') (hlt : id < m.messages.length) :
    ∃ fields, m.identifiedFields id = .ok fields ∧ m'.enumerations = m.enumerations ∧
      m'.messages.length = m.messages.length ∧
      ∀ x, m'.message x = if x = id then { m.message x with fields } else m.message x := by
  obtain ⟨fields, hfields, h'⟩ := Except.bind_eq_ok h
  cases h'
  refine ⟨fields, hfields, rfl, List.length_modify _ _ _, fun x => ?_⟩
  by_cases hx : x = id
  · subst hx
    simp [message, List.getD, hlt]
  · simp [message, List.getD, hx, Ne.symm hx]

/-- What is taken above a message depends only on the messages that it extends. -/
theorem above_congr (hanc : m'.ancestors id = m.ancestors id)
    (h : ∀ a ∈ m.ancestors id, m'.message a = m.message a) :
    Taken.above m' id = Taken.above m id := by
  rw [Taken.above, Taken.above, hanc]
  refine List.foldl_ext _ _ _ fun taken a ha => ?_
  rw [h a ha]

/-- Numbering one message keeps those numbered that were, and adds this one. -/
theorem NumberedSoFar.step (hm₀ : m₀.IsForest) (hs : NumberedSoFar m₀ done m)
    (hlt : id < m₀.messages.length) (hnew : id ∉ done)
    (hclosed : ∀ x ∈ done, id ∉ m₀.ascent x) (h : m.identifyFields id = .ok m') :
    NumberedSoFar m₀ (done ++ [id]) m' := by
  obtain ⟨fields, hfields, henums, hlength, hmessage⟩ :=
    identifyFields_ok h (by rw [hs.same.length]; exact hlt)
  have hsame : SameUpToFields m₀ m' := by
    refine ⟨henums.trans hs.same.enumerations, hlength.trans hs.same.length, fun x => ?_⟩
    rw [hmessage]
    split
    · rw [hs.same.message]
    · exact hs.same.message x
  -- What is taken above stays, for this message and for those that were numbered before.
  have habove : ∀ x, id ∉ m₀.ascent x → Taken.above m' x = Taken.above m x := by
    intro x hx
    refine above_congr (by rw [hsame.lineage.ancestors, hs.same.lineage.ancestors]) fun a ha => ?_
    rw [hs.same.lineage.ancestors, mem_ancestors] at ha
    rw [hmessage, if_neg fun (heq : a = id) => hx (heq ▸ ha)]
  refine ⟨hsame, fun x hx => ?_, fun x hx => ?_⟩
  · obtain hx | hx := List.mem_append.mp hx
    · have hne : x ≠ id := fun heq => hnew (heq ▸ hx)
      have hx' := hs.numbered x hx
      unfold IsNumbered at hx' ⊢
      rwa [habove x (hclosed x hx), hmessage, if_neg hne]
    · obtain rfl := List.mem_singleton.mp hx
      unfold IsNumbered
      rw [habove x (not_mem_ascent_self hm₀), hmessage, if_pos rfl]
      obtain ⟨taken, hcheck, h₁⟩ := Except.bind_eq_ok hfields
      obtain ⟨_, hkeys, hnumber⟩ := Except.bind_eq_ok h₁
      rw [hs.rest x hnew] at hcheck hkeys hnumber ⊢
      exact ⟨taken, hcheck, hkeys, hnumber⟩
  · rw [List.mem_append, List.mem_singleton, not_or] at hx
    rw [hmessage, if_neg hx.2]
    exact hs.rest x hx.1

/-! ## the order of numbering -/

theorem mem_generalFirst (hm : m.IsForest) : x ∈ m.generalFirst ↔ x < m.messages.length := by
  simp only [generalFirst, List.mem_flatMap, List.mem_range, List.mem_filter, mem_messageIds,
    beq_iff_eq]
  exact ⟨fun ⟨_, _, hx, _⟩ => hx, fun hx => ⟨_, hm x hx, hx, rfl⟩⟩

theorem nodup_generalFirst (m : Model) : m.generalFirst.Nodup := by
  refine List.nodup_flatMap.mpr ⟨fun depth _ => List.nodup_range.filter _, ?_⟩
  refine List.nodup_range.imp fun hne x hx hx' => hne ?_
  simp only [List.mem_filter, beq_iff_eq] at hx hx'
  exact hx.2.symm.trans hx'.2

/-- A message never comes before one that stands higher in its line. -/
theorem pairwise_generalFirst (m : Model) :
    m.generalFirst.Pairwise fun x y => (m.ascent x).length ≤ (m.ascent y).length := by
  refine List.pairwise_flatMap.mpr ⟨fun depth _ => ?_, ?_⟩
  · refine List.pairwise_of_forall_mem_list fun x hx y hy => ?_
    simp only [List.mem_filter, beq_iff_eq] at hx hy
    omega
  · refine List.pairwise_lt_range.imp fun hlt x hx y hy => ?_
    simp only [List.mem_filter, beq_iff_eq] at hx hy
    omega

/-- No message comes before one that it extends. -/
theorem not_mem_ascent_of_generalFirst (hm : m.IsForest) (h : m.generalFirst = done ++ id :: rest)
    (hx : x ∈ done) : id ∉ m.ascent x := by
  intro hid
  have hsorted := pairwise_generalFirst m
  rw [h, List.pairwise_append] at hsorted
  have hle := hsorted.2.2 x hx id (.head _)
  have hlt := length_ascent_lt hm hid
  omega

/-- **Every message is numbered** against the final fields of the messages that it extends. -/
theorem isNumbered_of_identify (hm : m.IsForest)
    (h : m.generalFirst.foldlM identifyFields m = .ok m') :
    SameUpToFields m m' ∧ ∀ id, m'.IsNumbered (m.message id).fields id := by
  have hall : NumberedSoFar m m.generalFirst m' := by
    refine Except.of_foldlM_eq_ok (fun done id rest s s' hsplit hs hstep => ?_) ?_ h
    · have hid : id ∈ m.generalFirst := by rw [hsplit]; simp
      have hnodup := nodup_generalFirst m
      rw [hsplit, List.nodup_append'] at hnodup
      exact hs.step hm ((mem_generalFirst hm).mp hid)
        (fun hdone => hnodup.2.2 hdone (.head _))
        (fun x hx => not_mem_ascent_of_generalFirst hm hsplit hx) hstep
    · exact ⟨⟨rfl, rfl, fun _ => rfl⟩, by simp, fun _ _ => rfl⟩
  refine ⟨hall.same, fun id => ?_⟩
  by_cases hid : id ∈ m.generalFirst
  · exact hall.numbered id hid
  · -- A number that no message has stands for a message without fields.
    have hle : m.messages.length ≤ id :=
      Nat.le_of_not_lt fun hlt => hid ((mem_generalFirst hm).mpr hlt)
    rw [IsNumbered, hall.rest id hid, message_of_le hle]
    exact ⟨_, rfl, rfl, rfl⟩

/-! ## lines of messages -/

theorem mem_allFields : (x, f) ∈ m.allFields id ↔
    (x ∈ m.ancestors id ∨ x = id) ∧ f ∈ (m.message x).fields := by
  simp only [allFields, List.mem_flatMap, List.mem_append, List.mem_singleton, List.mem_map,
    Prod.mk.injEq]
  constructor
  · rintro ⟨a, ha, f', hf', rfl, rfl⟩
    exact ⟨ha, hf'⟩
  · rintro ⟨ha, hf⟩
    exact ⟨x, ha, f, hf, rfl, rfl⟩

/-- What is distinct in each message, and not used again below, is distinct along each line. -/
theorem nodup_allFields {g : Field → Option β} (hm : m.IsForest)
    (hown : ∀ id, ((m.message id).fields.filterMap g).Nodup)
    (habove : ∀ id, ∀ f ∈ (m.message id).fields, ∀ y, g f = some y →
      ¬ ∃ a ∈ m.ancestors id, ∃ f' ∈ (m.message a).fields, g f' = some y)
    (id : MessageId) : ((m.allFields id).filterMap fun entry => g entry.2).Nodup := by
  have hmap : ∀ id,
      ((m.message id).fields.map fun f => (id, f)).filterMap (fun entry => g entry.2) =
      (m.message id).fields.filterMap g := by
    intro id
    rw [List.filterMap_map]
    rfl
  induction id using hm.induction with
  | root id hp =>
      rw [allFields_of_none hp, hmap]
      exact hown id
  | step id p hp ih =>
      rw [allFields_of_some hm hp, List.filterMap_append, hmap]
      refine List.nodup_append'.mpr ⟨ih, hown id, fun y hy hy' => ?_⟩
      obtain ⟨⟨a, f⟩, hf, hg⟩ := List.mem_filterMap.mp hy
      obtain ⟨f', hf', hg'⟩ := List.mem_filterMap.mp hy'
      obtain ⟨ha, hf⟩ := mem_allFields.mp hf
      refine habove id f' hf' y hg' ⟨a, ?_, f, hf, hg⟩
      rw [ancestors_of_some hm hp, List.mem_append, List.mem_singleton]
      exact ha

/-- All fields are numbered, and had no tags before. -/
def AllNumbered (m : Model) : Prop :=
  ∀ id, ∃ drafts, (∀ f ∈ drafts, f.tag = none) ∧ m.IsNumbered drafts id

theorem nodup_tags (hm : m.IsForest) (h : m.AllNumbered) (id : MessageId) :
    ((m.allFields id).filterMap fun entry => entry.2.tag).Nodup := by
  refine nodup_allFields hm (fun id => ?_) (fun id f hf tag htag => ?_) id
  · obtain ⟨drafts, hnone, hnum⟩ := h id
    exact hnum.nodup_tags hnone
  · obtain ⟨drafts, hnone, hnum⟩ := h id
    rw [← mem_tags_above]
    exact (hnum.tags_above hnone hf htag).2

theorem nodup_keys (hm : m.IsForest) (h : m.AllNumbered) (id : MessageId) :
    ((m.allFields id).map fun entry => entry.2.key).Nodup := by
  have hall : ((m.allFields id).filterMap fun entry => some entry.2.key).Nodup := by
    refine nodup_allFields (g := fun f => some f.key) hm (fun id => ?_)
      (fun id f hf key hkey => ?_) id
    · obtain ⟨drafts, hnone, hnum⟩ := h id
      rw [List.filterMap_eq_map']
      exact hnum.nodup_keys hnone
    · obtain ⟨drafts, hnone, hnum⟩ := h id
      obtain rfl := Option.some.inj hkey
      simp only [Option.some.injEq]
      rw [← mem_keys_above]
      exact hnum.keys_above hnone hf
  rwa [List.filterMap_eq_map'] at hall

theorem fieldName_mem_fieldItems (name : String) : Source.fieldName name ∈ fieldItems name :=
  .head _

theorem map_fieldName_sublist (fields : List Field) :
    (fields.map fun f => Source.fieldName f.name).Sublist (itemsOfFields fields) := by
  induction fields with
  | nil => exact .slnil
  | cons f rest ih => exact .cons_cons _ (.cons _ ih)

theorem nodup_getters (hm : m.IsForest) (h : m.AllNumbered) (id : MessageId) :
    ((m.allFields id).map fun entry => Source.fieldName entry.2.name).Nodup := by
  have hall : ((m.allFields id).filterMap fun entry =>
      some (Source.fieldName entry.2.name)).Nodup := by
    refine nodup_allFields (g := fun f => some (Source.fieldName f.name)) hm (fun id => ?_)
      (fun id f hf getter hgetter => ?_) id
    · obtain ⟨drafts, hnone, hnum⟩ := h id
      rw [List.filterMap_eq_map']
      exact (map_fieldName_sublist _).nodup (hnum.nodup_items hnone)
    · obtain ⟨drafts, hnone, hnum⟩ := h id
      rintro ⟨a, ha, f', hf', hgetter'⟩
      have hown : getter ∈ itemsOfFields (m.message id).fields := by
        rw [← Option.some.inj hgetter]
        exact (map_fieldName_sublist _).subset (List.mem_map_of_mem hf)
      refine hnum.items_above hnone hown (mem_items_above.mpr ⟨a, ha, f', hf', ?_⟩)
      rw [← Option.some.inj hgetter']
      exact fieldName_mem_fieldItems f'.name
  rwa [List.filterMap_eq_map'] at hall

end Missive.Model
