import Missive.Model.Identify
import Missive.Proofs.Model.Lineage

/-!
# Missive.Proofs.Model.Numbering

Numbers that are filled in never meet numbers that are fixed.

`firstFree` finds a number that is not used because there are more candidates than used numbers.
So `fillGaps` keeps apart what it is given (`nodup_fillGaps`), and the codes of an enumeration
(`nodup_codes`) and the discriminators of a family (`eq_of_typeIdOf?`) are pairwise distinct.
-/

namespace Missive

/-! ## free numbers -/

theorem le_freeFrom (used : List Nat) (fuel n : Nat) : n ≤ freeFrom used fuel n := by
  induction fuel generalizing n with
  | zero => exact Nat.le_refl n
  | succ fuel ih =>
      rw [freeFrom]
      split
      · exact Nat.le_trans (Nat.le_succ n) (ih (n + 1))
      · exact Nat.le_refl n

/-- Every number that the search passes over is used. -/
theorem mem_of_lt_freeFrom (hle : n ≤ k) (hlt : k < freeFrom used fuel n) : k ∈ used := by
  induction fuel generalizing n with
  | zero => rw [freeFrom] at hlt; omega
  | succ fuel ih =>
      rw [freeFrom] at hlt
      split at hlt
      · next hused =>
          by_cases hk : k = n
          · subst hk
            simpa using hused
          · exact ih (by omega) hlt
      · omega

/-- The search ends at a number that is not used, or uses up its bound. -/
theorem freeFrom_cases (used : List Nat) (fuel n : Nat) :
    freeFrom used fuel n ∉ used ∨ freeFrom used fuel n = n + fuel := by
  induction fuel generalizing n with
  | zero => exact .inr rfl
  | succ fuel ih =>
      rw [freeFrom]
      split
      · exact (ih (n + 1)).imp_right fun h => by omega
      · next hused => exact .inl (by simpa using hused)

theorem le_firstFree (used : List Nat) (n : Nat) : n ≤ firstFree used n := le_freeFrom used _ n

theorem firstFree_not_mem (used : List Nat) (n : Nat) : firstFree used n ∉ used := by
  obtain h | h := freeFrom_cases used used.length n
  · exact h
  · -- All of the numbers from `n` to `n + used.length` would be used, one more than there are.
    intro hmem
    have hsub : List.range' n (used.length + 1) ⊆ used := by
      intro k hk
      rw [List.mem_range'_1] at hk
      by_cases hlt : k < firstFree used n
      · exact mem_of_lt_freeFrom hk.1 hlt
      · have hk' : k = firstFree used n := by
          have : firstFree used n = n + used.length := h
          omega
        rwa [hk']
    have hlen := (List.subperm_of_subset List.nodup_range' hsub).length_le
    rw [List.length_range'] at hlen
    omega

/-! ## gaps -/

theorem length_fillGaps (used : List Nat) (next : Nat) (slots : List (Option Nat)) :
    (fillGaps used next slots).length = slots.length := by
  induction slots generalizing next with
  | nil => rfl
  | cons slot rest ih => cases slot <;> simp [fillGaps, ih]

/-- A number was there before, or it is new and comes after those given before. -/
theorem mem_fillGaps (h : k ∈ fillGaps used next slots) :
    some k ∈ slots ∨ (next ≤ k ∧ k ∉ used) := by
  induction slots generalizing next with
  | nil => contradiction
  | cons slot rest ih =>
      cases slot with
      | some n =>
          rw [fillGaps] at h
          obtain rfl | h := List.mem_cons.mp h
          · exact .inl (.head _)
          · exact (ih h).imp_left (.tail _)
      | none =>
          rw [fillGaps] at h
          obtain rfl | h := List.mem_cons.mp h
          · exact .inr ⟨le_firstFree used next, firstFree_not_mem used next⟩
          · obtain hold | ⟨hle, hnew⟩ := ih h
            · exact .inl (.tail _ hold)
            · have := le_firstFree used next
              exact .inr ⟨by omega, hnew⟩

/-- Distinct numbers stay distinct when the gaps between them are filled. -/
theorem nodup_fillGaps (hslots : (slots.filterMap id).Nodup)
    (hused : ∀ k, some k ∈ slots → k ∈ used)
    (next : Nat) : (fillGaps used next slots).Nodup := by
  induction slots generalizing next with
  | nil => exact .nil
  | cons slot rest ih =>
      have hused' : ∀ k, some k ∈ rest → k ∈ used := fun k hk => hused k (.tail _ hk)
      cases slot with
      | some n =>
          simp only [List.filterMap_cons, id_eq, List.nodup_cons] at hslots
          rw [fillGaps, List.nodup_cons]
          refine ⟨fun h => ?_, ih hslots.2 hused' next⟩
          obtain hold | ⟨-, hnew⟩ := mem_fillGaps h
          · exact hslots.1 (List.mem_filterMap.mpr ⟨some n, hold, rfl⟩)
          · exact hnew (hused n (.head _))
      | none =>
          simp only [List.filterMap_cons, id_eq] at hslots
          rw [fillGaps, List.nodup_cons]
          refine ⟨fun h => ?_, ih hslots hused' _⟩
          obtain hold | ⟨hle, -⟩ := mem_fillGaps h
          · exact firstFree_not_mem used next (hused' _ hold)
          · omega

/-- A number that was there before is kept, and a new one does not come before the first. -/
theorem forall₂_fillGaps (used : List Nat) (next : Nat) (slots : List (Option Nat)) :
    List.Forall₂ (fun slot n => slot = some n ∨ slot = none ∧ next ≤ n) slots
      (fillGaps used next slots) := by
  induction slots generalizing next with
  | nil => exact .nil
  | cons slot rest ih =>
      cases slot with
      | some n => exact .cons (.inl rfl) (ih next)
      | none =>
          have hle := le_firstFree used next
          refine .cons (.inr ⟨rfl, hle⟩) ((ih _).imp fun slot n hn => hn.imp_right fun hfree => ?_)
          exact ⟨hfree.1, by omega⟩

namespace Model

/-! ## codes -/

/-- Codes that are fixed are not negative, and none is fixed twice. -/
theorem checkConstants_ok (h : checkConstants name seen codes constants = .ok ()) :
    (constants.filterMap (·.explicitCode)).Nodup ∧
      ∀ code ∈ constants.filterMap (·.explicitCode),
        0 ≤ code.toInt ∧ code ∉ codes.map Prod.fst := by
  induction constants generalizing seen codes with
  | nil => exact ⟨.nil, by simp⟩
  | cons c rest ih =>
      rw [checkConstants] at h
      split at h
      · contradiction
      · cases hc : c.explicitCode with
        | none =>
            simp only [hc] at h
            simpa only [List.filterMap_cons, hc] using ih h
        | some code =>
            simp only [hc] at h
            split at h
            · contradiction
            · next hneg =>
                cases hl : codes.lookup code with
                | some other => simp only [hl] at h; contradiction
                | none =>
                    simp only [hl] at h
                    obtain ⟨hnodup, hrest⟩ := ih h
                    simp only [List.filterMap_cons, hc, List.nodup_cons, List.forall_mem_cons]
                    refine ⟨⟨fun hmem => ?_, hnodup⟩, ⟨?_, lookup_eq_none_iff_not_mem.mp hl⟩, ?_⟩
                    · exact (hrest code hmem).2 (.head _)
                    · rw [Int32.lt_iff_toInt_lt] at hneg
                      simpa using hneg
                    · intro code' h'
                      exact ⟨(hrest code' h').1, fun hm => (hrest code' h').2 (.tail _ hm)⟩

theorem length_constantCodes (constants : List Constant) :
    (constantCodes constants).length = constants.length := by
  simp [constantCodes, length_fillGaps]

theorem nodup_constantCodes (h : checkConstants name [] [] constants = .ok ()) :
    (constantCodes constants).Nodup := by
  obtain ⟨hnodup, hcodes⟩ := checkConstants_ok h
  have hslots :
      (constants.map fun c => c.explicitCode.map fun code => code.toInt.toNat).filterMap id =
      (constants.filterMap (·.explicitCode)).map fun code => code.toInt.toNat := by
    simp [List.filterMap_map, List.map_filterMap]
  refine nodup_fillGaps ?_ (fun k hk => List.mem_filterMap.mpr ⟨some k, hk, rfl⟩) 0
  rw [hslots]
  refine hnodup.map_on fun code h code' h' heq => Int32.toInt_inj.mp ?_
  have hpos := (hcodes code h).1
  have hpos' := (hcodes code' h').1
  omega

/-- What an enumeration passes that gets its codes, and what it becomes. -/
theorem identifyEnumeration_ok (h : identifyEnumeration e = .ok e') :
    e.constants ≠ [] ∧ checkConstants e.name [] [] e.constants = .ok () ∧
      (∀ code ∈ constantCodes e.constants, code < 2 ^ 31) ∧
      e' = { e with
        constants := List.zipWith Constant.identify e.constants (constantCodes e.constants) } := by
  unfold identifyEnumeration at h
  split at h
  · contradiction
  · next hempty =>
      obtain ⟨_, hcheck, h'⟩ := Except.bind_eq_ok h
      simp only at h'
      split at h'
      · contradiction
      · next hfind =>
          cases h'
          refine ⟨by simpa using hempty, hcheck, fun code hcode => ?_, rfl⟩
          have hsnd : (e.constants.zip (constantCodes e.constants)).map Prod.snd =
              constantCodes e.constants :=
            List.map_snd_zip (by rw [length_constantCodes])
          rw [← hsnd] at hcode
          obtain ⟨p, hp, rfl⟩ := List.mem_map.mp hcode
          have hp' := List.find?_eq_none.mp hfind p hp
          simpa [Int32.size] using hp'

/-- The constants of an enumeration have distinct codes. -/
theorem nodup_codes (h : identifyEnumeration e = .ok e') : (e'.constants.map (·.code)).Nodup := by
  obtain ⟨-, hcheck, hbound, rfl⟩ := identifyEnumeration_ok h
  have hsnd : (e.constants.zip (constantCodes e.constants)).map Prod.snd =
      constantCodes e.constants :=
    List.map_snd_zip (by rw [length_constantCodes])
  have hcodes : (List.zipWith Constant.identify e.constants (constantCodes e.constants)).map
      (·.code) = (constantCodes e.constants).map Int32.ofNat := by
    rw [← List.map_uncurry_zip_eq_zipWith, List.map_map]
    conv => rhs; rw [← hsnd, List.map_map]
    rfl
  rw [hcodes]
  refine (nodup_constantCodes hcheck).map_on fun code hc code' hc' heq => ?_
  have h₁ := Int32.toInt_ofNat_of_lt (hbound code hc)
  have h₂ := Int32.toInt_ofNat_of_lt (hbound code' hc')
  rw [heq, h₂] at h₁
  omega

/-- No name is declared twice. -/
theorem nodup_names_of_checkConstants (h : checkConstants name seen codes constants = .ok ()) :
    (constants.map (·.name)).Nodup ∧ ∀ name ∈ constants.map (·.name), name ∉ seen := by
  induction constants generalizing seen codes with
  | nil => exact ⟨.nil, by simp⟩
  | cons c rest ih =>
      rw [checkConstants] at h
      split at h
      · contradiction
      · next hseen =>
          -- whatever its code is, the name is seen from here on
          have hrest : ∃ codes', checkConstants name (c.name :: seen) codes' rest = .ok () := by
            split at h
            · exact ⟨_, h⟩
            · split at h
              · contradiction
              · split at h
                · contradiction
                · exact ⟨_, h⟩
          obtain ⟨_, hrest⟩ := hrest
          obtain ⟨hnodup, hnew⟩ := ih hrest
          rw [List.map_cons, List.nodup_cons, List.forall_mem_cons]
          exact ⟨⟨fun hmem => hnew _ hmem (.head _), hnodup⟩, by simpa using hseen,
            fun other hother hmem => hnew other hother (.tail _ hmem)⟩

/-- A constant `c` with its numbers and names, `c'`. -/
structure Constant.IsIdentified (c c' : Constant) : Prop where
  same : c' = { c with code := c'.code, jsonName := jsonNameOf c.options c.name }
  nonneg : 0 ≤ c'.code
  /-- A code that is fixed is kept. -/
  kept : ∀ code, c.explicitCode = some code → c'.code = code

theorem forall₂_constantCodes (constants : List Constant) :
    List.Forall₂ (fun (c : Constant) n => ∀ code, c.explicitCode = some code → code.toInt.toNat = n)
      constants (constantCodes constants) := by
  have hslots := forall₂_fillGaps
    ((constants.map fun c => c.explicitCode.map fun code => code.toInt.toNat).filterMap id) 0
    (constants.map fun c => c.explicitCode.map fun code => code.toInt.toNat)
  rw [List.forall₂_map_left_iff] at hslots
  refine hslots.imp fun c n hn code hcode => ?_
  rw [hcode] at hn
  simpa using hn

theorem forall₂_identifyEnumeration (h : identifyEnumeration e = .ok e') :
    List.Forall₂ Constant.IsIdentified e.constants e'.constants := by
  obtain ⟨-, hcheck, hbound, rfl⟩ := identifyEnumeration_ok h
  obtain ⟨-, hcodes⟩ := checkConstants_ok hcheck
  have hnumbers : List.Forall₂ (fun (c : Constant) n => c ∈ e.constants ∧ n < 2 ^ 31 ∧
      ∀ code, c.explicitCode = some code → code.toInt.toNat = n) e.constants
      (constantCodes e.constants) := by
    refine List.forall₂_iff_zip.mpr ⟨(length_constantCodes _).symm, fun hmem => ?_⟩
    obtain ⟨hc, hn⟩ := List.of_mem_zip hmem
    exact ⟨hc, hbound _ hn, List.forall₂_zip (forall₂_constantCodes _) hmem⟩
  refine forall₂_zipWith ?_ (List.forall₂_same.mpr fun _ _ => rfl) hnumbers
  rintro c _ n rfl ⟨hmem, hlt, hfixed⟩
  have hn := Int32.toInt_ofNat_of_lt hlt
  refine ⟨rfl, ?_, fun code hcode => Int32.toInt_inj.mp ?_⟩
  · rw [Int32.le_iff_toInt_le]
    simp [Constant.identify, hn]
  · have hpos := (hcodes code (List.mem_filterMap.mpr ⟨c, hmem, hcode⟩)).1
    have hcode' := hfixed code hcode
    simp only [Constant.identify, hn]
    omega

/-! ## discriminators -/

/-- The members of the family of a root. -/
def membersBelow (m : Model) (root : MessageId) : List MessageId :=
  m.familyMembers.filter fun id => m.root id == root

/-- The numbers that are fixed in the family of a root. -/
def familySlots (m : Model) (root : MessageId) : List (Option Nat) :=
  (m.membersBelow root).map fun id => (m.message id).explicitId.map UInt32.toNat

/-- The numbers that the members of a family have. -/
def familyNumbers (m : Model) (root : MessageId) : List Nat :=
  fillGaps ((m.familySlots root).filterMap id) 1 (m.familySlots root)

variable {m : Model} {id id' : MessageId}

/-- In a family no discriminator is fixed twice. -/
theorem checkTypeIds_ok (h : m.checkTypeIds seen ids = .ok ()) (root : MessageId) :
    ((ids.filter (m.root · == root)).filterMap fun id => (m.message id).explicitId).Nodup ∧
      ∀ typeId ∈ (ids.filter (m.root · == root)).filterMap fun id => (m.message id).explicitId,
        (root, typeId) ∉ seen.map Prod.fst := by
  induction ids generalizing seen with
  | nil => exact ⟨.nil, by simp⟩
  | cons id rest ih =>
      rw [checkTypeIds] at h
      cases he : (m.message id).explicitId with
      | none =>
          simp only [he] at h
          by_cases hr : m.root id = root <;>
            simpa [List.filter_cons, hr, he] using ih h
      | some typeId =>
          simp only [he] at h
          split at h
          · contradiction
          · cases hl : seen.lookup (m.root id, typeId) with
            | some other => simp only [hl] at h; contradiction
            | none =>
                simp only [hl] at h
                obtain ⟨hnodup, hrest⟩ := ih h
                by_cases hr : m.root id = root
                · subst hr
                  rw [List.filter_cons_of_pos (by simp)]
                  simp only [List.filterMap_cons, he, List.nodup_cons, List.forall_mem_cons]
                  exact ⟨⟨fun hm => hrest typeId hm (.head _), hnodup⟩,
                    lookup_eq_none_iff_not_mem.mp hl,
                    fun typeId' h' hm => hrest typeId' h' (.tail _ hm)⟩
                · rw [List.filter_cons_of_neg (by simpa using hr)]
                  exact ⟨hnodup, fun typeId' h' hm => hrest typeId' h' (.tail _ hm)⟩

theorem length_familyNumbers (m : Model) (root : MessageId) :
    (m.familyNumbers root).length = (m.membersBelow root).length := by
  simp [familyNumbers, familySlots, length_fillGaps]

theorem nodup_familyNumbers (h : m.checkTypeIds [] m.familyMembers = .ok ()) (root : MessageId) :
    (m.familyNumbers root).Nodup := by
  obtain ⟨hnodup, -⟩ := checkTypeIds_ok h root
  refine nodup_fillGaps ?_ (fun k hk => List.mem_filterMap.mpr ⟨some k, hk, rfl⟩) 1
  rw [familySlots, List.filterMap_map]
  simp only [Function.comp_def, id_eq]
  rw [← List.map_filterMap]
  exact hnodup.map_on fun n _ n' _ heq => UInt32.toNat_inj.mp heq

theorem mem_membersBelow : id ∈ m.membersBelow (m.root id) ↔ id ∈ m.familyMembers := by
  simp [membersBelow]

/-- The messages that have a number are the members of families. -/
theorem familyNumber?_isSome : (m.familyNumber? id).isSome ↔ id ∈ m.familyMembers := by
  have hfst : (m.familyTypeIds (m.root id)).map Prod.fst = m.membersBelow (m.root id) :=
    List.map_fst_zip (length_familyNumbers m (m.root id)).ge
  rw [familyNumber?, List.lookup_isSome_iff, ← mem_membersBelow, ← hfst, List.mem_map]
  simp only [beq_iff_eq, @eq_comm _ id]

/-- Two members of a family with the same number are the same. -/
theorem eq_of_familyNumber? (h : m.checkTypeIds [] m.familyMembers = .ok ())
    (hroot : m.root id = m.root id') (hn : m.familyNumber? id = some n)
    (hn' : m.familyNumber? id' = some n) : id = id' := by
  have hsnd : (m.familyTypeIds (m.root id)).map Prod.snd = m.familyNumbers (m.root id) :=
    List.map_snd_zip (length_familyNumbers m (m.root id)).le
  have hnodup := hsnd ▸ nodup_familyNumbers h (m.root id)
  have hmem := mem_of_lookup hn
  have hmem' := mem_of_lookup hn'
  rw [← hroot] at hmem'
  have heq := List.inj_on_of_nodup_map hnodup hmem hmem' rfl
  exact congrArg Prod.fst heq

theorem familyNumber?_lt (hw : m.checkFamilyNumbers = .ok ()) (hn : m.familyNumber? id = some n) :
    n < UInt32.size := by
  have hmem : id ∈ m.familyMembers := familyNumber?_isSome.mp (by rw [hn]; rfl)
  unfold checkFamilyNumbers at hw
  split at hw
  · contradiction
  · next hfind =>
      have hid := List.find?_eq_none.mp hfind id hmem
      simpa [hn] using hid

/-- No discriminator is fixed as zero. -/
theorem ne_zero_of_checkTypeIds (h : m.checkTypeIds seen ids = .ok ()) (hid : id ∈ ids)
    (he : (m.message id).explicitId = some typeId) : typeId ≠ 0 := by
  induction ids generalizing seen with
  | nil => contradiction
  | cons first rest ih =>
      rw [checkTypeIds] at h
      obtain rfl | hid := List.mem_cons.mp hid
      · simp only [he] at h
        split at h
        · contradiction
        · next hzero => simpa using hzero
      · split at h
        · exact ih h hid
        · split at h
          · contradiction
          · split at h
            · contradiction
            · exact ih h hid

/-- The number of a member is the one that it fixes, or not zero. -/
theorem familyNumber?_cases (hn : m.familyNumber? id = some n) :
    (m.message id).explicitId.map UInt32.toNat = some n ∨
      (m.message id).explicitId = none ∧ 1 ≤ n := by
  have hslots : List.Forall₂ _ (m.familySlots (m.root id)) (m.familyNumbers (m.root id)) :=
    forall₂_fillGaps _ 1 _
  rw [familySlots, List.forall₂_map_left_iff] at hslots
  simpa using List.forall₂_zip hslots (mem_of_lookup hn)

/-- A discriminator is not zero, and one that is fixed is kept. -/
theorem typeIdOf?_kept (h : m.checkTypeIds [] m.familyMembers = .ok ())
    (hw : m.checkFamilyNumbers = .ok ()) (hn : m.typeIdOf? id = some n) :
    n ≠ 0 ∧ ∀ fixed, (m.message id).explicitId = some fixed → n = fixed := by
  obtain ⟨k, hk, rfl⟩ := Option.map_eq_some_iff.mp hn
  obtain hfixed | ⟨hfree, hpos⟩ := familyNumber?_cases hk
  · obtain ⟨fixed, he, rfl⟩ := Option.map_eq_some_iff.mp hfixed
    have hmem : id ∈ m.familyMembers := familyNumber?_isSome.mp (by rw [hk]; rfl)
    have hne := ne_zero_of_checkTypeIds h hmem he
    simp [he, hne]
  · refine ⟨fun hzero => ?_, by simp [hfree]⟩
    have hlt := familyNumber?_lt hw hk
    have hk' : k = 0 := by
      simpa [Nat.toUInt32, UInt32.toNat_ofNat_of_lt' hlt] using congrArg UInt32.toNat hzero
    omega

/-- **Discriminators are distinct**: two members of a family with the same one are the same. -/
theorem eq_of_typeIdOf? (h : m.checkTypeIds [] m.familyMembers = .ok ())
    (hw : m.checkFamilyNumbers = .ok ()) (hroot : m.root id = m.root id')
    (hn : m.typeIdOf? id = some n) (hn' : m.typeIdOf? id' = some n) : id = id' := by
  obtain ⟨k, hk, rfl⟩ := Option.map_eq_some_iff.mp hn
  obtain ⟨k', hk', heq⟩ := Option.map_eq_some_iff.mp hn'
  have hlt := familyNumber?_lt hw hk
  have hlt' := familyNumber?_lt hw hk'
  have hkk : k = k' := by
    have := congrArg UInt32.toNat heq
    simp only [Nat.toUInt32, UInt32.toNat_ofNat_of_lt' hlt, UInt32.toNat_ofNat_of_lt' hlt'] at this
    exact this.symm
  exact eq_of_familyNumber? h hroot hk (hkk ▸ hk')

theorem typeIdOf?_isSome : (m.typeIdOf? id).isSome ↔ id ∈ m.familyMembers := by
  rw [typeIdOf?, Option.isSome_map, familyNumber?_isSome]

end Model

end Missive
