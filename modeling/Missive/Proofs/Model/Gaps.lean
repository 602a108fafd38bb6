import Missive.Proofs.Model.Identifiers

/-!
# Missive.Proofs.Model.Gaps

Which numbers are given where a schema leaves them open.

The search for a free number ends by itself at the least one (`firstFree_least`), and the numbers
that `fillGaps` gives, taken in order, are the free numbers taken in order (`eq_nth_of_fillGaps`).
`FillsGaps` says so of the codes, discriminators and tags of a model.  As many numbers as are used
and given are enough to find them in (`nth_free_lt`), so no number is ever too wide where there are
fewer than `2 ^ 31` of them.
-/

namespace Missive

/-! ## the search -/

/-- A search that has found a free number does not go on. -/
theorem freeFrom_of_not_mem (h : freeFrom used fuel n ∉ used) (hle : fuel ≤ fuel') :
    freeFrom used fuel' n = freeFrom used fuel n := by
  induction fuel generalizing n fuel' with
  | zero =>
      have hn : ¬ used.contains n := by simpa [freeFrom] using h
      cases fuel' with
      | zero => rfl
      | succ fuel' => simp only [freeFrom, if_neg hn]
  | succ fuel ih =>
      obtain ⟨fuel', rfl⟩ : ∃ k, fuel' = k + 1 := ⟨fuel' - 1, by omega⟩
      rw [freeFrom] at h ⊢
      rw [freeFrom]
      split
      · next hn =>
          rw [if_pos hn] at h
          exact ih h (by omega)
      · rfl

/-- The search ends at the least free number, however long it may look. -/
theorem firstFree_least (used : List Nat) (next : Nat) :
    (∀ fuel, used.length ≤ fuel → freeFrom used fuel next = firstFree used next) ∧
      IsLeast {n | next ≤ n ∧ n ∉ used} (firstFree used next) := by
  have hfree := firstFree_not_mem used next
  refine ⟨fun fuel hfuel => freeFrom_of_not_mem hfree hfuel, ⟨le_firstFree used next, hfree⟩, ?_⟩
  rintro n ⟨hle, hn⟩
  by_contra hlt
  exact hn (mem_of_lt_freeFrom hle (Nat.lt_of_not_le hlt))

/-! ## numbers in order -/

section

variable {used : List Nat} {first next : Nat}

/-- There are as many free numbers below the one that is found as below the start of the search. -/
theorem count_firstFree (used : List Nat) (first next : Nat) :
    Nat.count (fun n => first ≤ n ∧ n ∉ used) (firstFree used next) =
      Nat.count (fun n => first ≤ n ∧ n ∉ used) next := by
  obtain ⟨d, hd⟩ := Nat.exists_eq_add_of_le (le_firstFree used next)
  rw [hd, Nat.count_add, Nat.add_eq_left, Nat.count_iff_forall_not]
  rintro k hk ⟨-, hfree⟩
  exact hfree (mem_of_lt_freeFrom (Nat.le_add_right next k) (by
    show next + k < firstFree used next
    omega))

/-- The gaps of a list get the free numbers in order; `j` free numbers are passed before. -/
theorem eq_nth_of_fillGaps {slot : α → Option Nat} {number : α → Nat} {xs : List α}
    (h : xs.map number = fillGaps used next (xs.map slot)) (hle : first ≤ next)
    (hcount : Nat.count (fun n => first ≤ n ∧ n ∉ used) next = j)
    (hx : (xs.filter fun x => (slot x).isNone)[k]? = some x) :
    number x = Nat.nth (fun n => first ≤ n ∧ n ∉ used) (j + k) := by
  induction xs generalizing next j k with
  | nil => simp at hx
  | cons y xs ih =>
      cases hy : slot y with
      | some n =>
          rw [List.map_cons, List.map_cons, hy, fillGaps, List.cons.injEq] at h
          rw [List.filter_cons_of_neg (by simp [hy])] at hx
          exact ih h.2 hle hcount hx
      | none =>
          rw [List.map_cons, List.map_cons, hy, fillGaps, List.cons.injEq] at h
          rw [List.filter_cons_of_pos (by simp [hy])] at hx
          have hfound : first ≤ firstFree used next ∧ firstFree used next ∉ used :=
            ⟨hle.trans (le_firstFree used next), firstFree_not_mem used next⟩
          have hpassed := (count_firstFree used first next).trans hcount
          cases k with
          | zero =>
              obtain rfl : y = x := by simpa using hx
              rw [h.1, Nat.add_zero, ← hpassed, Nat.nth_count hfound]
          | succ k =>
              rw [List.getElem?_cons_succ] at hx
              have hnext := ih h.2 (Nat.le_succ_of_le hfound.1)
                (by rw [Nat.count_succ, hpassed, if_pos hfound]) hx
              rw [hnext, Nat.add_right_comm, Nat.add_assoc]

theorem count_first (used : List Nat) (first : Nat) :
    Nat.count (fun n => first ≤ n ∧ n ∉ used) first = 0 := by
  rw [Nat.count_iff_forall_not]
  rintro n hlt ⟨hle, -⟩
  omega

/-- A number that fills a gap is one of the first free ones, as many as there are gaps. -/
theorem mem_fillGaps_cases {slots : List (Option Nat)} (h : n ∈ fillGaps used first slots) :
    some n ∈ slots ∨ ∃ k < slots.countP (·.isNone),
      n = Nat.nth (fun n => first ≤ n ∧ n ∉ used) k := by
  let pairs := slots.zip (fillGaps used first slots)
  have hslots : pairs.map Prod.fst = slots := List.map_fst_zip (length_fillGaps ..).ge
  have hnumbers : pairs.map Prod.snd = fillGaps used first slots :=
    List.map_snd_zip (length_fillGaps ..).le
  rw [← hnumbers] at h
  obtain ⟨⟨slot, number⟩, hmem, rfl⟩ := List.mem_map.mp h
  cases slot with
  | some fixed =>
      have hfixed := List.forall₂_zip (forall₂_fillGaps used first slots) hmem
      refine .inl ?_
      have hmem' := List.mem_map_of_mem (f := Prod.fst) hmem
      rw [hslots] at hmem'
      simpa using hfixed.resolve_right (by simp) ▸ hmem'
  | none =>
      have hgap : (none, number) ∈ pairs.filter fun pair => pair.1.isNone :=
        List.mem_filter.mpr ⟨hmem, rfl⟩
      obtain ⟨k, hk⟩ := List.getElem?_of_mem hgap
      have hlt : k < slots.countP (·.isNone) := by
        have hlength := (List.getElem?_eq_some_iff.mp hk).1
        rw [← hslots, List.countP_map, List.countP_eq_length_filter]
        exact hlength
      have hnth := eq_nth_of_fillGaps (hnumbers.trans (by rw [hslots])) le_rfl
        (count_first used first) hk
      exact .inr ⟨k, hlt, by rw [hnth, Nat.zero_add]⟩

/-- The free numbers come soon: only used ones are passed over. -/
theorem nth_free_lt (used : List Nat) (first k : Nat) :
    Nat.nth (fun n => first ≤ n ∧ n ∉ used) k < first + used.length + (k + 1) := by
  refine Nat.nth_lt_of_lt_count ?_
  -- of the numbers from `first` up to the bound, no more than are used are not free
  have hsub : Finset.Ico first (first + used.length + (k + 1)) \ used.toFinset ⊆
      (Finset.range (first + used.length + (k + 1))).filter fun n => first ≤ n ∧ n ∉ used := by
    intro n hn
    simp only [Finset.mem_sdiff, Finset.mem_Ico, List.mem_toFinset] at hn
    simp only [Finset.mem_filter, Finset.mem_range]
    exact ⟨hn.1.2, hn.1.1, hn.2⟩
  have hcard := Finset.card_le_card hsub
  have hdiff := Finset.le_card_sdiff used.toFinset
    (Finset.Ico first (first + used.length + (k + 1)))
  have hused := used.toFinset_card_le
  rw [Nat.card_Ico] at hdiff
  rw [Nat.count_eq_card_filter_range]
  omega

end

/-- A slot is a gap, or it has a number. -/
theorem countP_add_length (slots : List (Option Nat)) :
    slots.countP (·.isNone) + (slots.filterMap id).length = slots.length := by
  rw [List.length_filterMap_eq_countP, List.length_eq_countP_add_countP (p := (·.isNone))]
  congr 1
  refine List.countP_congr fun slot _ => ?_
  cases slot <;> simp

namespace Model

variable {m draft : Model} {schema : Schema} {root x : MessageId}

/-! ## codes -/

/-- No constant fixes this code. -/
def Enumeration.FreeCode (e : Enumeration) (n : Nat) : Prop :=
  ∀ c ∈ e.constants, c.explicitCode.map Int32.toInt ≠ some (n : Int)

/-- The codes that constants fix, with gaps for those that fix none. -/
def codeSlot (c : Constant) : Option Nat := c.explicitCode.map fun code => code.toInt.toNat

theorem map_code_of_identifyEnumeration (h : identifyEnumeration e = .ok e') :
    e'.constants.map (fun c => c.code.toInt.toNat) =
      fillGaps ((e'.constants.map codeSlot).filterMap id) 0 (e'.constants.map codeSlot) := by
  have hslots : e.constants.map codeSlot = e'.constants.map codeSlot :=
    map_eq_of_forall₂ ((forall₂_identifyEnumeration h).imp fun c c' hc => by
      rw [codeSlot, codeSlot, hc.same])
  obtain ⟨-, -, hbound, rfl⟩ := identifyEnumeration_ok h
  have hsnd : (e.constants.zip (constantCodes e.constants)).map Prod.snd =
      constantCodes e.constants := List.map_snd_zip (length_constantCodes _).le
  calc (List.zipWith Constant.identify e.constants (constantCodes e.constants)).map
        (fun c => c.code.toInt.toNat)
      = (e.constants.zip (constantCodes e.constants)).map
          (fun pair => (Int32.ofNat pair.2).toInt.toNat) := by
        rw [← List.map_uncurry_zip_eq_zipWith, List.map_map]
        rfl
    _ = (e.constants.zip (constantCodes e.constants)).map Prod.snd := by
        refine List.map_congr_left fun pair hpair => ?_
        have hmem := List.mem_map_of_mem (f := Prod.snd) hpair
        rw [hsnd] at hmem
        rw [Int32.toInt_ofNat_of_lt (hbound _ hmem), Int.toNat_natCast]
    _ = constantCodes e.constants := hsnd
    _ = _ := by rw [← hslots]; rfl

theorem freeCode_iff {e : Enumeration}
    (hpos : ∀ c ∈ e.constants, ∀ code, c.explicitCode = some code → 0 ≤ code.toInt) (n : Nat) :
    e.FreeCode n ↔ 0 ≤ n ∧ n ∉ (e.constants.map codeSlot).filterMap id := by
  have hslot : ∀ c ∈ e.constants, c.explicitCode.map Int32.toInt = some (n : Int) ↔
      codeSlot c = some n := by
    intro c hc
    cases hcode : c.explicitCode with
    | none => simp [codeSlot, hcode]
    | some code =>
        have hcode' := hpos c hc code hcode
        simp only [codeSlot, hcode, Option.map_some, Option.some.injEq]
        omega
  simp only [Enumeration.FreeCode, Nat.zero_le, true_and, List.filterMap_map, List.mem_filterMap,
    Function.comp_apply, id_eq, not_exists, not_and]
  exact forall₂_congr fun c hc => not_congr (hslot c hc)

/-- The constants that fix no code get the free codes in order. -/
theorem code_eq_nth (h : identifyEnumeration e = .ok e')
    (hc : (e'.constants.filter (·.explicitCode.isNone))[k]? = some c) :
    c.code.toInt = (Nat.nth e'.FreeCode k : Int) := by
  have hall := forall₂_identifyEnumeration h
  have hpos : ∀ c ∈ e'.constants, ∀ code, c.explicitCode = some code → 0 ≤ code.toInt := by
    intro c' hc' code hcode
    obtain ⟨c₀, -, hc₀⟩ := exists_of_forall₂ hall hc'
    rw [hc₀.same] at hcode
    have hnonneg := hc₀.nonneg
    rw [hc₀.kept code hcode, Int32.le_iff_toInt_le] at hnonneg
    simpa using hnonneg
  have hfree : e'.FreeCode = fun n => 0 ≤ n ∧ n ∉ (e'.constants.map codeSlot).filterMap id :=
    funext fun n => propext (freeCode_iff hpos n)
  have hgap : (e'.constants.filter fun c => (codeSlot c).isNone)[k]? = some c := by
    simpa only [codeSlot, Option.isNone_map] using hc
  have hnth := eq_nth_of_fillGaps (map_code_of_identifyEnumeration h) le_rfl
    (count_first _ 0) hgap
  have hnonneg : 0 ≤ c.code.toInt := by
    obtain ⟨c₀, -, hc₀⟩ := exists_of_forall₂ hall
      (List.mem_of_mem_filter (List.mem_of_getElem? hc))
    have hcode := hc₀.nonneg
    rw [Int32.le_iff_toInt_le] at hcode
    simpa using hcode
  rw [hfree]
  rw [Nat.zero_add] at hnth
  omega

/-- Fewer than `2 ^ 31` constants get their codes if they pass the checks. -/
theorem exists_identifyEnumeration_iff {e : Enumeration} (hcount : e.constants.length < 2 ^ 31) :
    (∃ e', identifyEnumeration e = .ok e') ↔
      e.constants ≠ [] ∧ checkConstants e.name [] [] e.constants = .ok () := by
  constructor
  · rintro ⟨e', h⟩
    obtain ⟨hne, hcheck, -⟩ := identifyEnumeration_ok h
    exact ⟨hne, hcheck⟩
  · rintro ⟨hne, hcheck⟩
    have hbound : ∀ n ∈ constantCodes e.constants, n < 2 ^ 31 := by
      intro n hn
      obtain hfixed | ⟨k, hk, rfl⟩ := mem_fillGaps_cases hn
      · obtain ⟨c, -, hc⟩ := List.mem_map.mp hfixed
        obtain ⟨code, -, rfl⟩ := Option.map_eq_some_iff.mp hc
        have := code.toInt_lt
        omega
      · have hlt := nth_free_lt ((e.constants.map codeSlot).filterMap id) 0 k
        have hlength := countP_add_length (e.constants.map codeSlot)
        rw [List.length_map] at hlength
        have hk : k < (e.constants.map codeSlot).countP (·.isNone) := hk
        refine lt_of_lt_of_le hlt ?_
        omega
    unfold identifyEnumeration
    rw [if_neg (by simpa using hne), hcheck]
    simp only [Except.ok_bind]
    split
    · next c code hfind =>
        have hlt := hbound code (List.of_mem_zip (List.mem_of_find?_eq_some hfind)).2
        have hge : 2 ^ 31 ≤ code := by simpa [Int32.size] using List.find?_some hfind
        omega
    · exact ⟨_, rfl⟩

/-! ## discriminators -/

/-- The concrete messages that extend a message, in the order of their declarations. -/
def family (m : Model) (root : MessageId) : List MessageId :=
  m.messageIds.filter fun id => (m.ancestors id).contains root && !(m.message id).isAbstract

/-- No member of a family fixes this discriminator. -/
def FreeTypeId (m : Model) (root : MessageId) (n : Nat) : Prop :=
  0 < n ∧ ∀ id ∈ m.family root, (m.message id).explicitId.map UInt32.toNat ≠ some n

/-- The family of an abstract root is what has its number from there. -/
theorem membersBelow_eq_family (hm : m.IsForest) (hparent : (m.message root).parent = none)
    (habstract : (m.message root).isAbstract = true) : m.membersBelow root = m.family root := by
  rw [membersBelow, familyMembers, List.filter_filter, family]
  refine List.filter_congr fun id _ => ?_
  rw [Bool.eq_iff_iff]
  simp only [Bool.and_eq_true, beq_iff_eq, List.contains_iff_mem, mem_ancestors,
    Bool.not_eq_true']
  constructor
  · rintro ⟨hroot, -, hconcrete⟩
    refine ⟨?_, hconcrete⟩
    obtain hself | habove := root_eq_or_mem_ascent hm id
    · rw [← hself, hroot, habstract] at hconcrete
      contradiction
    · rwa [hroot] at habove
  · rintro ⟨habove, hconcrete⟩
    refine ⟨?_, inFamily_of_mem_ascent habove habstract, hconcrete⟩
    rw [← root_of_mem_ascent hm habove, root_of_none hparent]

theorem map_familyNumber? (m : Model) (root : MessageId) :
    (m.membersBelow root).map (fun id => (m.familyNumber? id).getD 0) = m.familyNumbers root := by
  have hfst : (m.familyTypeIds root).map Prod.fst = m.membersBelow root :=
    List.map_fst_zip (length_familyNumbers m root).ge
  have hsnd : (m.familyTypeIds root).map Prod.snd = m.familyNumbers root :=
    List.map_snd_zip (length_familyNumbers m root).le
  have hnodup : ((m.familyTypeIds root).map Prod.fst).Nodup := by
    rw [hfst]
    exact (List.nodup_range.filter _).filter _
  rw [← hfst, ← hsnd, List.map_map]
  refine List.map_congr_left fun ⟨id, n⟩ hentry => ?_
  have hroot : m.root id = root := by
    have hmem := List.mem_map_of_mem (f := Prod.fst) hentry
    rw [hfst] at hmem
    simpa using (List.mem_filter.mp hmem).2
  have hlookup := (lookup_eq_some_iff_mem hnodup).mpr hentry
  rw [Function.comp_apply, familyNumber?, hroot, hlookup, Option.getD_some]

/-- The members of a family that fix no discriminator get the free ones in order. -/
theorem familyNumber?_eq_nth
    (hx : ((m.membersBelow root).filter fun id => (m.message id).explicitId.isNone)[k]? = some x) :
    m.familyNumber? x =
      some (Nat.nth (fun n => 1 ≤ n ∧ n ∉ (m.familySlots root).filterMap id) k) := by
  have hgap : ((m.membersBelow root).filter fun id =>
      ((m.message id).explicitId.map UInt32.toNat).isNone)[k]? = some x := by
    simpa only [Option.isNone_map] using hx
  have hnth := eq_nth_of_fillGaps (m.map_familyNumber? root) le_rfl (count_first _ 1) hgap
  have hmem := List.mem_filter.mp (List.mem_of_mem_filter (List.mem_of_getElem? hx))
  obtain ⟨n, hn⟩ := Option.isSome_iff_exists.mp (familyNumber?_isSome.mpr hmem.1)
  rw [hn, Option.getD_some, Nat.zero_add] at hnth
  rw [hn, hnth, familySlots]

theorem mem_familySlots : n ∈ (m.familySlots root).filterMap id ↔
    ∃ x ∈ m.membersBelow root, (m.message x).explicitId.map UInt32.toNat = some n := by
  simp [familySlots, List.filterMap_map]

/-- Families of fewer than `2 ^ 31` members get their discriminators. -/
theorem checkFamilyNumbers_ok (hcount : ∀ root, (m.membersBelow root).length < 2 ^ 31) :
    m.checkFamilyNumbers = .ok () := by
  have hbound : ∀ x n, m.familyNumber? x = some n → n < UInt32.size := by
    intro x n hn
    have hmem : n ∈ m.familyNumbers (m.root x) := (List.of_mem_zip (mem_of_lookup hn)).2
    obtain hfixed | ⟨k, hk, rfl⟩ := mem_fillGaps_cases hmem
    · obtain ⟨y, -, hy⟩ := List.mem_map.mp hfixed
      obtain ⟨typeId, -, rfl⟩ := Option.map_eq_some_iff.mp hy
      exact typeId.toNat_lt
    · have hlt := nth_free_lt ((m.familySlots (m.root x)).filterMap id) 1 k
      have hlength := countP_add_length (m.familySlots (m.root x))
      have hmembers := hcount (m.root x)
      rw [familySlots, List.length_map] at hlength
      rw [familySlots] at hlt hk
      have hsize : UInt32.size = 2 ^ 32 := rfl
      refine lt_of_lt_of_le hlt ?_
      omega
  unfold checkFamilyNumbers
  split
  · next x hfind =>
      have hwide := List.find?_some hfind
      cases hn : m.familyNumber? x with
      | none => simp [hn] at hwide
      | some n =>
          have hlt := hbound x n hn
          simp only [hn, Option.any_some, decide_eq_true_eq] at hwide
          omega
  · rfl

/-! ## tags -/

/-- The tags of the fields that a message inherits. -/
def tagsAbove (m : Model) (x : MessageId) : List UInt32 :=
  (m.ancestors x).flatMap fun a => (m.message a).fields.filterMap (·.tag)

/-- No field of a message fixes this tag, and none that it inherits has it. -/
def FreeTag (m : Model) (x : MessageId) (n : Nat) : Prop :=
  0 < n ∧ (∀ f ∈ (m.message x).fields, f.transient = false →
    f.explicitTag.map UInt32.toNat ≠ some n) ∧ ∀ tag ∈ m.tagsAbove x, tag.toNat ≠ n

theorem mem_tagsAbove : tag ∈ m.tagsAbove x ↔ tag ∈ (Taken.above m x).tags.map Prod.fst := by
  simp [tagsAbove, mem_tags_above]

/-- The numbers that are used are the fixed tags and those above. -/
theorem mem_used {fields : List Field}
    (h : checkFields name (Taken.above m x) fields = .ok taken) (n : Nat) :
    n ∈ taken.tags.map (fun (tag, _) => tag.toNat) ↔
      n ∈ (fixedTags fields ++ m.tagsAbove x).map UInt32.toNat := by
  obtain ⟨-, -, hmem⟩ := checkFields_ok h
  have hsame : ∀ tag, tag ∈ taken.tags.map Prod.fst ↔ tag ∈ fixedTags fields ++ m.tagsAbove x := by
    intro tag
    rw [hmem, List.mem_append, mem_tagsAbove]
  rw [List.mem_map (f := UInt32.toNat)]
  simp only [← hsame]
  simp only [List.mem_map, exists_exists_and_eq_and]

theorem tagSlots_of_forall₂ (h : List.Forall₂ Field.IsIdentified drafts fields) :
    tagSlots fields = tagSlots drafts := by
  induction h with
  | nil => rfl
  | @cons f f' _ _ hf _ ih =>
      have htransient : f'.transient = f.transient := by rw [hf.same]
      have htag : f'.explicitTag = f.explicitTag := by rw [hf.same]
      cases ht : f.transient with
      | true => simpa [tagSlots, htransient, ht] using ih
      | false => simpa [tagSlots, htransient, htag, ht] using ih

theorem freeTag_iff (hslots : tagSlots (m.message x).fields = tagSlots drafts) (n : Nat) :
    m.FreeTag x n ↔ 1 ≤ n ∧ n ∉ (fixedTags drafts ++ m.tagsAbove x).map UInt32.toNat := by
  have hfixed : (∀ f ∈ (m.message x).fields, f.transient = false →
      f.explicitTag.map UInt32.toNat ≠ some n) ↔ n ∉ (fixedTags drafts).map UInt32.toNat := by
    rw [List.mem_map, ← mem_tagSlots, ← hslots]
    simp [tagSlots]
  rw [FreeTag, hfixed, List.map_append, List.mem_append, not_or]
  simp [Nat.lt_iff_add_one_le]

/-- The tags of the fields that travel, in order. -/
theorem map_tag {fields : List Field} (h : ∀ f ∈ fields, f.tag = none ↔ f.transient = true) :
    (fields.filter fun f => !f.transient).map (fun f => (f.tag.map UInt32.toNat).getD 0) =
      (fields.filterMap (·.tag)).map UInt32.toNat := by
  rw [List.map_filterMap, ← List.filterMap_eq_map', List.filterMap_filter]
  refine List.filterMap_congr fun f hf => ?_
  have hf := h f hf
  cases htag : f.tag with
  | none => simp [hf.mp htag]
  | some tag =>
      have htransient : f.transient = false := by
        rw [← Bool.not_eq_true, ← hf, htag]
        exact Option.some_ne_none _
      simp [htransient]

/-- The fields that travel and fix no tag get the free ones in order. -/
theorem IsNumbered.tag_eq_nth {drafts : List Field} (h : m.IsNumbered drafts x)
    (hnone : ∀ f ∈ drafts, f.tag = none)
    (hf : ((m.message x).fields.filter fun f => !f.transient && f.explicitTag.isNone)[k]? =
      some f) :
    f.tag.map UInt32.toNat = some (Nat.nth (m.FreeTag x) k) := by
  have hslots := tagSlots_of_forall₂ (h.forall₂_isIdentified hnone)
  have htag : ∀ f ∈ (m.message x).fields, f.tag = none ↔ f.transient = true :=
    fun f hf => h.tag_eq_none_iff hnone hf
  obtain ⟨taken, hcheck, -, hnumber⟩ := h
  have hfree : m.FreeTag x =
      fun n => 1 ≤ n ∧ n ∉ taken.tags.map (fun (tag, _) => tag.toNat) :=
    funext fun n => propext (by rw [freeTag_iff hslots, mem_used hcheck])
  have hnumbers := (map_tag htag).trans (numberFields_ok hnone hnumber).2
  rw [← hslots, tagSlots] at hnumbers
  have hgap : (((m.message x).fields.filter fun f => !f.transient).filter fun f =>
      (f.explicitTag.map UInt32.toNat).isNone)[k]? = some f := by
    rw [List.filter_filter]
    simpa only [Option.isNone_map, Bool.and_comm] using hf
  have hnth := eq_nth_of_fillGaps hnumbers le_rfl (count_first _ 1) hgap
  obtain ⟨hmem, htravels⟩ := List.mem_filter.mp (List.mem_of_getElem? hf)
  cases hsome : f.tag with
  | none =>
      rw [(htag f hmem).mp hsome] at htravels
      contradiction
  | some tag =>
      rw [hsome, Option.map_some, Option.getD_some, Nat.zero_add] at hnth
      rw [Option.map_some, hnth, hfree]

/-- Numbering succeeds where all numbers are narrow enough. -/
theorem exists_numberFields (name : String) {next : Nat} {fields : List Field}
    (h : ∀ n ∈ fillGaps used next (tagSlots fields), n < UInt32.size) :
    ∃ fields', numberFields name used next fields = .ok fields' := by
  induction fields generalizing next with
  | nil => exact ⟨[], rfl⟩
  | cons f rest ih =>
      rw [numberFields]
      cases htransient : f.transient with
      | true =>
          obtain ⟨rest', hrest⟩ := ih (by simpa [tagSlots, htransient] using h)
          exact ⟨_, by simp [hrest]; rfl⟩
      | false =>
          cases htag : f.explicitTag with
          | some tag =>
              obtain ⟨rest', hrest⟩ := ih fun n hn =>
                h n (by simpa [tagSlots, htransient, htag, fillGaps] using .inr hn)
              exact ⟨_, by simp [hrest]; rfl⟩
          | none =>
              have hfirst : firstFree used next < UInt32.size :=
                h _ (by simp [tagSlots, htransient, htag, fillGaps])
              obtain ⟨rest', hrest⟩ := ih fun n hn =>
                h n (by simpa [tagSlots, htransient, htag, fillGaps] using .inr hn)
              simp only [Bool.false_eq_true, if_false, Nat.not_le.mpr hfirst]
              exact ⟨_, by simp [hrest]; rfl⟩

/-- The fields of a message get their tags if they pass the checks and there are, with those above,
fewer than `2 ^ 31` tags. -/
theorem exists_identifiedFields_iff
    (hcount : (m.tagsAbove x).length + (m.message x).fields.countP (!·.transient) < 2 ^ 31) :
    (∃ fields, m.identifiedFields x = .ok fields) ↔
      (∃ taken, checkFields (m.message x).name (Taken.above m x) (m.message x).fields =
        .ok taken) ∧
      checkKeys (m.message x).name (Taken.above m x).keys (m.message x).fields = .ok () := by
  constructor
  · rintro ⟨fields, h⟩
    obtain ⟨taken, hcheck, h₁⟩ := Except.bind_eq_ok h
    obtain ⟨_, hkeys, -⟩ := Except.bind_eq_ok h₁
    exact ⟨⟨taken, hcheck⟩, hkeys⟩
  · rintro ⟨⟨taken, hcheck⟩, hkeys⟩
    have hfree : (fun n => 1 ≤ n ∧ n ∉ taken.tags.map fun (tag, _) => tag.toNat) = fun n =>
        1 ≤ n ∧ n ∉ (fixedTags (m.message x).fields ++ m.tagsAbove x).map UInt32.toNat :=
      funext fun n => propext (by rw [mem_used hcheck])
    have hbound : ∀ n ∈ fillGaps (taken.tags.map fun (tag, _) => tag.toNat) 1
        (tagSlots (m.message x).fields), n < UInt32.size := by
      intro n hn
      obtain hfixed | ⟨k, hk, rfl⟩ := mem_fillGaps_cases hn
      · obtain ⟨tag, -, rfl⟩ := mem_tagSlots.mp hfixed
        exact tag.toNat_lt
      · have hlt := nth_free_lt
          ((fixedTags (m.message x).fields ++ m.tagsAbove x).map UInt32.toNat) 1 k
        have hlength := countP_add_length (tagSlots (m.message x).fields)
        rw [filterMap_tagSlots] at hlength
        rw [List.countP_eq_length_filter] at hcount
        simp only [tagSlots, List.length_map, List.length_append] at hk hlt hlength
        have hsize : UInt32.size = 2 ^ 32 := rfl
        rw [hfree]
        refine lt_of_lt_of_le hlt ?_
        omega
    obtain ⟨fields, hfields⟩ := exists_numberFields (m.message x).name hbound
    refine ⟨fields, ?_⟩
    simp only [identifiedFields, hcheck, hkeys, Except.ok_bind, hfields]

/-! ## accepted schemas -/

/-- What a schema leaves open is numbered in the order of the declarations, each time with the least
numbers that are free. -/
structure FillsGaps (schema : Schema) (m : Model) : Prop where
  /-- The model has the numbers that its schema fixes. -/
  fixedCodes : m.enumerations.map (fun e => e.constants.map (·.explicitCode)) =
    (enumerationHeads schema).map fun e => e.constants.map (·.index)
  fixedIds : m.messages.map (·.explicitId) = (heads schema).map (·.id)
  fixedTags : m.messages.map (fun message => message.fields.map fun f =>
      (f.transient, f.explicitTag)) =
    (heads schema).map fun head => head.fields.map fun f => (f.transient, f.index)
  codes : ∀ enum k c, ((m.enumeration enum).constants.filter (·.explicitCode.isNone))[k]? =
    some c → c.code.toInt = (Nat.nth (m.enumeration enum).FreeCode k : Int)
  /-- Discriminators are numbered in the family of each abstract message that extends none. -/
  typeIds : ∀ root, (m.message root).isAbstract = true → (m.message root).parent = none →
    ∀ k x, ((m.family root).filter fun x => (m.message x).explicitId.isNone)[k]? = some x →
      (m.message x).typeId.map UInt32.toNat = some (Nat.nth (m.FreeTypeId root) k)
  tags : ∀ x k f,
    ((m.message x).fields.filter fun f => !f.transient && f.explicitTag.isNone)[k]? = some f →
      f.tag.map UInt32.toNat = some (Nat.nth (m.FreeTag x) k)

namespace Passes

theorem map_fixedCodes (h : Passes schema draft m) :
    m.enumerations.map (fun e => e.constants.map (·.explicitCode)) =
      (enumerationHeads schema).map fun e => e.constants.map (·.index) := by
  obtain ⟨m₀, hresolve, -, henums⟩ := h.resolved
  have hall := forall₂_trans (T := fun declared e =>
      declared.constants.map (·.index) = e.constants.map (·.explicitCode))
    (fun declared e e' hd he => ?_) (forall₂_resolve hresolve).2
    (Except.forall₂_of_mapM_eq_ok henums)
  · exact (map_eq_of_forall₂ hall).symm
  · refine map_eq_of_forall₂ (forall₂_trans (fun _ _ _ hc hc' => ?_) hd.constants
      (forall₂_identifyEnumeration he))
    rw [hc'.same, hc.explicitCode]

/-- A message keeps what its declaration fixes. -/
theorem forall₂_fixed (h : Passes schema draft m) :
    List.Forall₂ (fun (head : Schema.MessageHead) (message : Message) =>
      head.id = message.explicitId ∧ head.fields.map (fun f => (f.transient, f.index)) =
        message.fields.map fun f => (f.transient, f.explicitTag)) (heads schema) m.messages := by
  obtain ⟨m₀, hresolve, hsame, -⟩ := h.resolved
  have hdeclared := hsame ▸ (forall₂_resolve hresolve).1
  refine forall₂_trans (fun head message message' hd hk => ?_) hdeclared h.forall₂_message
  obtain ⟨x, rfl, rfl⟩ := hk
  have hfields := (h.fields x).forall₂_isIdentified (h.untagged x)
  refine ⟨by rw [h.message, hd.explicitId], map_eq_of_forall₂ ?_⟩
  refine forall₂_trans (fun _ _ _ hf hf' => ?_) hd.fields hfields
  rw [hf'.same, hf.transient, hf.explicitTag]

theorem typeId_eq_nth (h : Passes schema draft m) (habstract : (m.message root).isAbstract = true)
    (hparent : (m.message root).parent = none)
    (hx : ((m.family root).filter fun x => (m.message x).explicitId.isNone)[k]? = some x) :
    (m.message x).typeId.map UInt32.toNat = some (Nat.nth (m.FreeTypeId root) k) := by
  have hexplicit : ∀ x, (m.message x).explicitId = (draft.message x).explicitId := fun x => by
    rw [h.message]
  have hfamily : m.family root = draft.membersBelow root := by
    rw [← membersBelow_eq_family h.isForest hparent habstract]
    simp only [membersBelow, h.lineage.familyMembers, h.lineage.root]
  have hfree : m.FreeTypeId root =
      fun n => 1 ≤ n ∧ n ∉ (draft.familySlots root).filterMap id := by
    funext n
    rw [FreeTypeId, hfamily, mem_familySlots]
    simp [hexplicit, Nat.lt_iff_add_one_le]
  simp only [hfamily, hexplicit] at hx
  have hn := familyNumber?_eq_nth hx
  rw [h.typeId_eq, typeIdOf?, hn, Option.map_some, Option.map_some, hfree, Nat.toUInt32_eq,
    UInt32.toNat_ofNat_of_lt' (familyNumber?_lt h.checkFamilyNumbers hn)]

theorem fillsGaps (h : Passes schema draft m) : FillsGaps schema m where
  fixedCodes := h.map_fixedCodes
  fixedIds := (map_eq_of_forall₂ (h.forall₂_fixed.imp fun _ _ hfixed => hfixed.1)).symm
  fixedTags := (map_eq_of_forall₂ (h.forall₂_fixed.imp fun _ _ hfixed => hfixed.2)).symm
  codes enum k c hc := by
    obtain ⟨m₀, -, -, henums⟩ := h.resolved
    obtain ⟨e, he⟩ | hnone := enumeration_of_mapM henums enum
    · exact code_eq_nth he hc
    · simp [hnone, default] at hc
  typeIds root habstract hparent k x hx := h.typeId_eq_nth habstract hparent hx
  tags x k f hf := (h.fields x).tag_eq_nth (h.untagged x) hf

end Passes

/-- **Numbers that are left open** are the least free ones, in the order of the declarations, in the
model of every schema that is accepted.  The search for a number ends by itself at the least free
one.  Where there are fewer than `2 ^ 31` numbers, none is too wide: an enumeration, the families
of a model and the fields of a message are refused only if they do not pass the checks. -/
theorem numbers_fill_gaps (schema : Schema) :
    (∀ m, ofSchema schema = .ok m → FillsGaps schema m) ∧
    (∀ used next, (∀ fuel, used.length ≤ fuel → freeFrom used fuel next = firstFree used next) ∧
      IsLeast {n | next ≤ n ∧ n ∉ used} (firstFree used next)) ∧
    (∀ e : Enumeration, e.constants.length < 2 ^ 31 →
      ((∃ e', identifyEnumeration e = .ok e') ↔
        e.constants ≠ [] ∧ checkConstants e.name [] [] e.constants = .ok ())) ∧
    (∀ m : Model, (∀ root, (m.membersBelow root).length < 2 ^ 31) →
      m.checkFamilyNumbers = .ok ()) ∧
    ∀ (m : Model) (x : MessageId),
      (m.tagsAbove x).length + (m.message x).fields.countP (!·.transient) < 2 ^ 31 →
      ((∃ fields, m.identifiedFields x = .ok fields) ↔
        (∃ taken, checkFields (m.message x).name (Taken.above m x) (m.message x).fields =
          .ok taken) ∧
        checkKeys (m.message x).name (Taken.above m x).keys (m.message x).fields = .ok ()) := by
  refine ⟨fun m h => ?_, firstFree_least, fun e => exists_identifyEnumeration_iff,
    fun m => checkFamilyNumbers_ok, fun m x => exists_identifiedFields_iff⟩
  obtain ⟨draft, hpasses⟩ := passes_of_ofSchema h
  exact hpasses.fillsGaps

open Schema Schema.Field Schema.Definition in
/-- Two families, of which the members alternate, with numbers fixed here and there. -/
def nursery : Schema := .ofDefinitions
  [ofFamily "Plant" [], ofFamily "Animal" [ofPrimitive "name" .string,
     (ofPrimitive "age" .uint32).withIndex 3],
   (ofFields "Oak" []).extending "Plant", ((ofFields "Cat" []).extending "Animal").withId 2,
   ((ofFields "Elm" []).extending "Plant").withId 1,
   (ofFields "Dog" [((ofPrimitive "mood" .string).withIndex 2).asTransient,
     ofPrimitive "bark" .string, (ofPrimitive "bite" .bool).withIndex 4,
     ofPrimitive "bones" .uint32]).extending "Animal",
   (ofFields "Ash" []).extending "Plant",
   ofConstants "Size" [.of "SMALL" none, .of "LARGE" (some 1), .of "TINY" none,
     .of "HUGE" (some 2)]]

theorem numbers_fill_gaps_nursery : ∃ m, ofSchema nursery = .ok m ∧ FillsGaps nursery m ∧
    (m.enumeration 0).constants.map (·.code) = [0, 1, 3, 2] ∧
    (Nat.nth (m.enumeration 0).FreeCode 1 : Int) = 3 ∧
    m.messages.map (·.typeId) = [none, none, some 2, some 2, some 1, some 1, some 3] ∧
    some (Nat.nth (m.FreeTypeId 0) 1) = some 3 ∧
    (m.message 5).fields.map (·.tag) = [none, some 2, some 4, some 5] ∧
    some (Nat.nth (m.FreeTag 5) 1) = some 5 ∧
    (∃ e', identifyEnumeration (m.enumeration 0) = .ok e') ∧ m.checkFamilyNumbers = .ok () ∧
    ∃ fields, m.identifiedFields 5 = .ok fields := by
  have hmodel : (ofSchema nursery).toOption.any (fun m => decide (
      (m.enumeration 0).constants.map (·.code) = [0, 1, 3, 2] ∧
      m.messages.map (·.typeId) = [none, none, some 2, some 2, some 1, some 1, some 3] ∧
      (m.message 5).fields.map (·.tag) = [none, some 2, some 4, some 5] ∧
      ((m.enumeration 0).constants.filter (·.explicitCode.isNone))[1]?.map (·.code) = some 3 ∧
      ((m.message 0).isAbstract = true ∧ (m.message 0).parent = none) ∧
      ((m.family 0).filter fun x => (m.message x).explicitId.isNone)[1]? = some 6 ∧
      (m.message 6).typeId = some 3 ∧
      (((m.message 5).fields.filter fun f =>
        !f.transient && f.explicitTag.isNone)[1]?.map (·.tag)) = some (some 5) ∧
      (m.enumeration 0).constants.length = 4 ∧ m.messages.length = 7 ∧
      (m.enumeration 0).name = "Size" ∧
      (checkConstants "Size" [] [] (m.enumeration 0).constants).toOption = some () ∧
      (m.tagsAbove 5).length + (m.message 5).fields.countP (!·.transient) = 5 ∧
      (checkFields (m.message 5).name (Taken.above m 5) (m.message 5).fields).toOption.isSome ∧
      (checkKeys (m.message 5).name (Taken.above m 5).keys
        (m.message 5).fields).toOption = some ())) = true := by
    decide +kernel
  obtain ⟨m, hm, hfacts⟩ := (Option.any_eq_true _ _).mp hmodel
  obtain ⟨hcodes, htypeIds, htags, hconstant, ⟨habstract, hparent⟩, hmember, htypeId, hfield,
    hlength, hmessages, hname, hconstants, hcount, hfields, hkeys⟩ := of_decide_eq_true hfacts
  have hm := Except.toOption_eq_some.mp hm
  obtain ⟨hfills, -, henums, hfamilies, hmessage⟩ := numbers_fill_gaps nursery
  have hgaps := hfills m hm
  obtain ⟨c, hc, hcode⟩ := Option.map_eq_some_iff.mp hconstant
  obtain ⟨f, hf, htag⟩ := Option.map_eq_some_iff.mp hfield
  refine ⟨m, hm, hgaps, hcodes, ?_, htypeIds, ?_, htags, ?_, ?_, hfamilies m fun root => ?_, ?_⟩
  · rw [← hgaps.codes 0 1 c hc, hcode]
    rfl
  · rw [← hgaps.typeIds 0 habstract hparent 1 6 hmember, htypeId]
    rfl
  · rw [← hgaps.tags 5 1 f hf, htag]
    rfl
  · refine (henums _ (by omega)).mpr ⟨fun hnil => by simp [hnil] at hlength, ?_⟩
    rw [hname]
    exact Except.toOption_eq_some.mp hconstants
  · have hle : (m.membersBelow root).length ≤ m.messages.length := by
      have hsub : (m.membersBelow root).Sublist m.messageIds :=
        List.filter_sublist.trans List.filter_sublist
      simpa [messageIds] using hsub.length_le
    omega
  · obtain ⟨taken, htaken⟩ := Option.isSome_iff_exists.mp hfields
    exact (hmessage m 5 (by omega)).mpr
      ⟨⟨taken, Except.toOption_eq_some.mp htaken⟩, Except.toOption_eq_some.mp hkeys⟩

end Model

end Missive
