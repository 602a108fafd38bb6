import Missive.Proofs.Message.Catalog

/-!
# Missive.Proofs.Message.Slots

How the slots of a message are filled, whatever the format.

A message is read entry by entry, and an entry goes to the slot with its key (`slotsWith`).  In the
end a slot holds what is made of the last entry under its key, or what it started with (`slotOf`).
Entries under other keys, and the order of entries under different ones, have no part in it
(`holdsSlots_of_foldlM`).
-/

namespace Missive.Catalog

variable {c : Catalog} {κ β : Type} [BEq κ] {slots : List Slot} {key : Slot → Option κ}
  {read read' : Slot → β → Except ReadError Value} {entries entries' : List (κ × β)}

/-- The values of slots with one more entry.  Keys that are not known are skipped. -/
def slotsWith (slots : List Slot) (key : Slot → Option κ)
    (read : Slot → β → Except ReadError Value) (values : List Value) (entry : κ × β) :
    Except ReadError (List Value) :=
  match slots.find? (key · == some entry.1) with
  | some slot => return values.set slot.position (← read slot entry.2)
  | none => return values

/-- What becomes of a slot: what is made of the last entry under its key, or what it starts with. -/
def slotOf (key : Slot → Option κ) (read : Slot → β → Except ReadError Value)
    (entries : List (κ × β)) (slot : Slot) : Except ReadError Value :=
  match (key slot).bind (entries.reverse.lookup ·) with
  | some v => read slot v
  | none => .ok slot.plan.initial

/-- Values are what slots become. -/
def HoldsSlots (slots : List Slot) (key : Slot → Option κ)
    (read : Slot → β → Except ReadError Value) (entries : List (κ × β)) (values : List Value) :
    Prop :=
  slots.map (slotOf key read entries) = values.map .ok

/-- Slots that stand in the order of their positions and are told by their keys. -/
structure Keyed (slots : List Slot) (key : Slot → Option κ) : Prop where
  position : ∀ i (slot : Slot), slots[i]? = some slot → slot.position = i
  find? : ∀ slot ∈ slots, ∀ k, key slot = some k → slots.find? (key · == some k) = some slot

theorem Lawful.keyed_tag (hc : c.Lawful) (id : MessageId) :
    Keyed (c.slots id) (fun slot => slot.tag) where
  position := hc.position id
  find? _ hslot _ htag := hc.find?_tag hslot htag

theorem Lawful.keyed_key (hc : c.Lawful) (id : MessageId) :
    Keyed (c.slots id) (fun slot => some slot.key) where
  position := hc.position id
  find? _ hslot _ hkey := Option.some.inj hkey ▸ hc.find?_key hslot

/-! ## one more entry -/

theorem lookup_reverse_concat (entries : List (κ × β)) (entry : κ × β) (k : κ) :
    (entries ++ [entry]).reverse.lookup k =
      if k == entry.1 then some entry.2 else entries.reverse.lookup k := by
  rw [List.reverse_append, List.reverse_singleton, List.singleton_append, List.lookup_cons]
  cases k == entry.1 <;> rfl

theorem slotOf_nil (slot : Slot) : slotOf key read [] slot = .ok slot.plan.initial := by
  cases hkey : key slot <;> simp [slotOf, hkey]

variable [LawfulBEq κ]

theorem slotOf_concat_of_eq (hkey : key slot = some k) (entries : List (κ × β)) (v : β) :
    slotOf key read (entries ++ [(k, v)]) slot = read slot v := by
  simp only [slotOf, hkey, Option.bind_some, lookup_reverse_concat, beq_self_eq_true, if_true]

theorem slotOf_concat_of_ne (hkey : key slot ≠ some entry.1) (entries : List (κ × β)) :
    slotOf key read (entries ++ [entry]) slot = slotOf key read entries slot := by
  cases h : key slot with
  | none => simp [slotOf, h]
  | some k =>
      have hne : ¬ (k == entry.1) = true := fun heq => hkey (by rw [h, eq_of_beq heq])
      simp only [slotOf, h, Option.bind_some, lookup_reverse_concat, hne, if_false,
        Bool.false_eq_true]

/-- One more entry sets the slot with its key and leaves the others. -/
theorem HoldsSlots.slotsWith (hk : Keyed slots key) (h : HoldsSlots slots key read entries values)
    (hstep : slotsWith slots key read values entry = .ok values') :
    HoldsSlots slots key read (entries ++ [entry]) values' := by
  unfold Catalog.slotsWith at hstep
  unfold HoldsSlots at h ⊢
  cases hfind : slots.find? (key · == some entry.1) with
  | none =>
      simp only [hfind] at hstep
      cases hstep
      rw [← h]
      refine List.map_congr_left fun slot hslot => slotOf_concat_of_ne ?_ entries
      simpa using List.find?_eq_none.mp hfind slot hslot
  | some slot =>
      simp only [hfind] at hstep
      obtain ⟨value, hvalue, hset⟩ := Except.bind_eq_ok hstep
      cases hset
      have hslot := List.mem_of_find?_eq_some hfind
      have hkey : key slot = some entry.1 := by simpa using List.find?_some hfind
      obtain ⟨place, hget⟩ := List.mem_iff_getElem?.mp hslot
      obtain rfl := hk.position place slot hget
      rw [List.map_set, ← h]
      refine List.ext_getElem? fun i => ?_
      rw [List.getElem?_map, List.getElem?_set, List.length_map, List.getElem?_map]
      by_cases hi : slot.position = i
      · obtain ⟨hlt, -⟩ := List.getElem?_eq_some_iff.mp hget
        rw [← hi, if_pos rfl, if_pos hlt, hget, Option.map_some,
          slotOf_concat_of_eq hkey entries entry.2, hvalue]
      · rw [if_neg hi]
        refine Option.map_congr fun other hother => slotOf_concat_of_ne ?_ entries
        intro hkey'
        -- keys tell slots apart, and slots their places
        have hfind' := hk.find? other (List.mem_of_getElem? hother) _ hkey'
        obtain rfl : slot = other := Option.some.inj (hfind.symm.trans hfind')
        exact hi (hk.position i slot hother)

/-! ## all entries -/

/-- **Slots** hold what is made of the last entries under their keys. -/
theorem holdsSlots_of_foldlM (hk : Keyed slots key)
    (h : entries.foldlM (slotsWith slots key read) (slots.map (·.plan.initial)) = .ok values) :
    HoldsSlots slots key read entries values := by
  refine Except.of_foldlM_eq_ok ?_ ?_ h
  · intro done entry _ values values' _ hdone hstep
    exact hdone.slotsWith hk hstep
  · simp [HoldsSlots, slotOf_nil]

/-- Entries that come to the same in each slot come to the same values. -/
theorem eq_of_foldlM_slotsWith (hk : Keyed slots key)
    (hsame : ∀ slot ∈ slots, slotOf key read entries slot = slotOf key read' entries' slot)
    (h : entries.foldlM (slotsWith slots key read) (slots.map (·.plan.initial)) = .ok values)
    (h' : entries'.foldlM (slotsWith slots key read') (slots.map (·.plan.initial)) =
      .ok values') : values = values' := by
  have hmap : values.map (Except.ok (ε := ReadError)) = values'.map .ok := by
    rw [← holdsSlots_of_foldlM hk h, ← holdsSlots_of_foldlM hk h']
    exact List.map_congr_left hsame
  exact List.map_injective_iff.mpr (fun _ _ => Except.ok.inj) hmap

/-- Entries are read if each of them can be read in the slot with its key. -/
theorem exists_foldlM_slotsWith (hread : ∀ entry ∈ entries, ∀ slot ∈ slots,
    key slot = some entry.1 → ∃ v, read slot entry.2 = .ok v) (values : List Value) :
    ∃ values', entries.foldlM (slotsWith slots key read) values = .ok values' := by
  refine Except.exists_foldlM_eq_ok (fun entry hentry values => ?_) values
  unfold slotsWith
  split
  · next slot hfind =>
      obtain ⟨v, hv⟩ := hread entry hentry slot (List.mem_of_find?_eq_some hfind)
        (by simpa using List.find?_some hfind)
      exact ⟨values.set slot.position v, by simp [hv]⟩
  · exact ⟨values, rfl⟩

/-- An entry that cannot be read ends the reading, whatever follows. -/
theorem foldlM_slotsWith_error (hk : Keyed slots key) (hslot : slot ∈ slots)
    (hkey : key slot = some k) (hbefore : ∀ entry ∈ before, ∀ slot ∈ slots,
      key slot = some entry.1 → ∃ v, read slot entry.2 = .ok v)
    (herror : read slot v = .error e) (after : List (κ × β)) (values : List Value) :
    (before ++ (k, v) :: after).foldlM (slotsWith slots key read) values = .error e := by
  obtain ⟨values', hfold⟩ := exists_foldlM_slotsWith hbefore values
  rw [List.foldlM_append, hfold, Except.ok_bind, List.foldlM_cons]
  simp only [slotsWith, hk.find? slot hslot k hkey, herror]
  rfl

theorem lookup_reverse_of_last {after : List (κ × β)} (hafter : ∀ entry ∈ after, entry.1 ≠ k)
    (before : List (κ × β)) (v : β) : (before ++ (k, v) :: after).reverse.lookup k = some v := by
  have hnone : after.reverse.lookup k = none := by
    rw [List.lookup_eq_none_iff]
    exact fun entry hentry => by simpa using (hafter entry (List.mem_reverse.mp hentry)).symm
  simp [List.lookup_append, hnone]

/-- A slot holds what is made of the last entry under its key. -/
theorem getElem?_of_foldlM_slotsWith (hk : Keyed slots key) (hslot : slot ∈ slots)
    (hkey : key slot = some k) (hlast : entries.reverse.lookup k = some v)
    (hread : read slot v = .ok value)
    (h : entries.foldlM (slotsWith slots key read) (slots.map (·.plan.initial)) = .ok values) :
    values[slot.position]? = some value := by
  obtain ⟨place, hget⟩ := List.mem_iff_getElem?.mp hslot
  obtain rfl := hk.position place slot hget
  have hholds := congrArg (·[slot.position]?) (holdsSlots_of_foldlM hk h)
  simp only [List.getElem?_map, hget, Option.map_some, slotOf, hkey, Option.bind_some, hlast,
    hread] at hholds
  obtain ⟨found, hfound, heq⟩ := Option.map_eq_some_iff.mp hholds.symm
  rw [hfound, Except.ok.inj heq]

/-- An entry among others that can be read, of which none comes later under its key. -/
theorem exists_foldlM_slotsWith_last (hk : Keyed slots key) (hslot : slot ∈ slots)
    (hkey : key slot = some k) (hothers : ∀ entry ∈ before ++ after, ∀ slot ∈ slots,
      key slot = some entry.1 → ∃ v, read slot entry.2 = .ok v)
    (hafter : ∀ entry ∈ after, entry.1 ≠ k) (hread : read slot v = .ok value) :
    ∃ values, (before ++ (k, v) :: after).foldlM (slotsWith slots key read)
        (slots.map (·.plan.initial)) = .ok values ∧
      values[slot.position]? = some value := by
  have hall : ∀ entry ∈ before ++ (k, v) :: after, ∀ slot ∈ slots, key slot = some entry.1 →
      ∃ v, read slot entry.2 = .ok v := by
    intro entry hentry other hother hkey'
    rw [List.mem_append, List.mem_cons] at hentry
    obtain hentry | rfl | hentry := hentry
    · exact hothers entry (List.mem_append_left _ hentry) other hother hkey'
    · obtain rfl : slot = other := Option.some.inj
        ((hk.find? slot hslot k hkey).symm.trans (hk.find? other hother k hkey'))
      exact ⟨value, hread⟩
    · exact hothers entry (List.mem_append_right _ hentry) other hother hkey'
  obtain ⟨values, hfold⟩ := exists_foldlM_slotsWith hall (slots.map (·.plan.initial))
  exact ⟨values, hfold, getElem?_of_foldlM_slotsWith hk hslot hkey
    (lookup_reverse_of_last hafter before v) hread hfold⟩

end Missive.Catalog
