import Missive.Example
import Missive.Message.Access
import Missive.Proofs.Message.JsonProperties
import Missive.Proofs.Message.LastValue
import Missive.Proofs.Message.Tolerance

/-!
# Missive.Proofs.Message.MapEntries

The entries of map fields, in both formats.

An entry consists of parts, each under a tag or a name.  The last part for the key counts, and so
does the last one for the value; parts under other names are skipped, and a missing part stands for
the value that a field starts with (`MakesEntry`).  Entries without a message are dropped.  The
others are taken in order, up to the first key that is there already (`Settles`).
-/

namespace Missive

open Wire Json

theorem Key.ofValue?_toValue (k : Key) : Key.ofValue? k.toValue = some k := by
  cases k <;> rfl

/-- The entry of a new key goes to the end. -/
theorem Entries.set_of_not_mem {k : Key} (item : Value) :
    ∀ {entries : List (Key × Value)}, k ∉ entries.map Prod.fst →
      Entries.set k item entries = entries ++ [(k, item)]
  | [], _ => rfl
  | (other, old) :: rest, hk => by
      rw [List.map_cons, List.mem_cons, not_or] at hk
      rw [Entries.set, if_neg (by simpa using Ne.symm hk.1), Entries.set_of_not_mem item hk.2,
        List.cons_append]

namespace Catalog

variable {c : Catalog}

/-! ## taking entries in order -/

section Settles

variable {property : String} {key : ValuePlan} {entries : List (Key × Value)}
  {result : Except ReadError (List (Key × Value))}

/-- What becomes of entries: all of them if no key comes twice, and else an error that names the
first key that is there already. -/
inductive Settles (c : Catalog) (property : String) (key : ValuePlan) :
    List (Key × Value) → Except ReadError (List (Key × Value)) → Prop where
  | kept {entries : List (Key × Value)} (h : (entries.map Prod.fst).Nodup) :
      Settles c property key entries (.ok entries)
  | clash {before after : List (Key × Value)} {entry : Key × Value}
      (hbefore : (before.map Prod.fst).Nodup) (hold : entry.1 ∈ before.map Prod.fst) :
      Settles c property key (before ++ entry :: after)
        (.error (.duplicateKey property (c.keyText key entry.1)))

/-- One more entry. -/
theorem Settles.concat (h : c.Settles property key entries result) (entry : Key × Value) :
    c.Settles property key (entries ++ [entry])
      (result >>= c.putEntry property key entry.1 entry.2) := by
  cases h with
  | kept hnodup =>
      rw [Except.ok_bind]
      by_cases hk : entry.1 ∈ entries.map Prod.fst
      · rw [putEntry_old hk]
        exact .clash hnodup hk
      · rw [putEntry_new hk]
        refine .kept ?_
        rw [List.map_append, List.map_singleton]
        exact List.nodup_append'.mpr ⟨hnodup, List.nodup_singleton _, by simpa using hk⟩
  | @clash before after old hbefore hold =>
      rw [List.append_assoc, List.cons_append]
      exact .clash hbefore hold

theorem settles_foldlM (property : String) (key : ValuePlan) (entries : List (Key × Value)) :
    c.Settles property key entries
      (entries.foldlM (fun done entry => c.putEntry property key entry.1 entry.2 done) []) := by
  induction entries using List.reverseRecOn with
  | nil => exact .kept List.nodup_nil
  | append_singleton entries entry ih =>
      simp only [List.foldlM_append, List.foldlM_cons, List.foldlM_nil, bind_pure]
      exact ih.concat entry

theorem foldlM_putEntry_of_nodup (h : (entries.map Prod.fst).Nodup) (property : String)
    (key : ValuePlan) :
    entries.foldlM (fun done entry => c.putEntry property key entry.1 entry.2 done) [] =
      .ok entries := by
  have hsettles := settles_foldlM (c := c) property key entries
  generalize entries.foldlM (fun done entry => c.putEntry property key entry.1 entry.2 done) [] =
    result at hsettles ⊢
  cases hsettles with
  | kept _ => rfl
  | @clash before after entry _ hold =>
      rw [List.map_append, List.map_cons, List.nodup_append'] at h
      exact absurd (.head _) (h.2.2 hold)

/-- What becomes of entries is no matter of choice. -/
theorem Settles.eq_foldlM (h : c.Settles property key entries result) :
    result =
      entries.foldlM (fun done entry => c.putEntry property key entry.1 entry.2 done) [] := by
  cases h with
  | kept hnodup => rw [foldlM_putEntry_of_nodup hnodup]
  | clash hbefore hold =>
      rw [List.foldlM_append, foldlM_putEntry_of_nodup hbefore, Except.ok_bind, List.foldlM_cons,
        putEntry_old hold]
      rfl

end Settles

/-! ## the parts of an entry -/

section Parts

variable {κ β : Type} [BEq κ] {reads : ValuePlan → β → Option Value → Prop}
  {read : ValuePlan → β → Except ReadError (Option Value)} {keyName valueName name : κ}
  {plan key value : ValuePlan} {parts : List (κ × β)} {part : κ × β}

/-- What is found under a name: what the last part there is read as, if there is one.  `reads` says
what is read; nothing comes of a message that is `null` or not known. -/
def LastFound (reads : ValuePlan → β → Option Value → Prop) (plan : ValuePlan) (name : κ)
    (parts : List (κ × β)) (found : Option Value) : Prop :=
  match parts.reverse.lookup name with
  | some part => reads plan part found
  | none => found = none

/-- Parts that are read as an entry: all that are looked at can be read, and what is not found
stands for the value that a field starts with. -/
structure MakesEntry (reads : ValuePlan → β → Option Value → Prop) (keyName valueName : κ)
    (key value : ValuePlan) (parts : List (κ × β)) (entry : Key × Value) : Prop where
  readableKey : ∀ part ∈ parts, part.1 = keyName → ∃ found, reads key part.2 found
  readableValue : ∀ part ∈ parts, part.1 = valueName → ∃ found, reads value part.2 found
  key : ∃ found, LastFound reads key keyName parts found ∧
    entry.1.toValue = found.getD key.initial
  value : ∃ found, LastFound reads value valueName parts found ∧
    entry.2 = found.getD value.initial

/-- An entry with one more of its parts. -/
def partsWith (read : ValuePlan → β → Except ReadError (Option Value)) (keyName valueName : κ)
    (key value : ValuePlan) (entry : Option Key × Option Value) (part : κ × β) :
    Except ReadError (Option Key × Option Value) := do
  if part.1 == keyName then return ((← read key part.2).bind Key.ofValue?, entry.2)
  else if part.1 == valueName then return (entry.1, ← read value part.2)
  else return entry

variable [LawfulBEq κ]

theorem LastFound.concat (h : reads plan part.2 found) (parts : List (κ × β)) :
    LastFound reads plan part.1 (parts ++ [part]) found := by
  simpa only [LastFound, lookup_reverse_concat, beq_self_eq_true, if_true] using h

theorem LastFound.concat_other (h : LastFound reads plan name parts found) (hne : name ≠ part.1) :
    LastFound reads plan name (parts ++ [part]) found := by
  rwa [LastFound, lookup_reverse_concat, if_neg (by simpa using hne)]

/-- One more part, if it can be read. -/
theorem LastFound.partsWith (hne : keyName ≠ valueName)
    (hkey : part.1 = keyName → ∃ found, reads key part.2 found ∧ read key part.2 = .ok found)
    (hvalue : part.1 = valueName → ∃ found, reads value part.2 found ∧
      read value part.2 = .ok found)
    (hk : LastFound reads key keyName parts foundKey)
    (hv : LastFound reads value valueName parts foundValue) :
    ∃ foundKey' foundValue',
      Catalog.partsWith read keyName valueName key value
        (foundKey.bind Key.ofValue?, foundValue) part =
          .ok (foundKey'.bind Key.ofValue?, foundValue') ∧
      LastFound reads key keyName (parts ++ [part]) foundKey' ∧
      LastFound reads value valueName (parts ++ [part]) foundValue' := by
  obtain ⟨name, part⟩ := part
  by_cases hname : name = keyName
  · subst hname
    obtain ⟨found, hreads, hread⟩ := hkey rfl
    exact ⟨found, foundValue, by simp [Catalog.partsWith, hread], .concat hreads parts,
      hv.concat_other hne.symm⟩
  · by_cases hname' : name = valueName
    · subst hname'
      obtain ⟨found, hreads, hread⟩ := hvalue rfl
      exact ⟨foundKey, found, by simp [Catalog.partsWith, hname, hread], hk.concat_other hne,
        .concat hreads parts⟩
    · exact ⟨foundKey, foundValue, by simp [Catalog.partsWith, hname, hname'],
        hk.concat_other (Ne.symm hname), hv.concat_other (Ne.symm hname')⟩

/-- All parts, if each of them can be read. -/
theorem foldlM_partsWith (hne : keyName ≠ valueName)
    (hkey : ∀ part ∈ parts, part.1 = keyName →
      ∃ found, reads key part.2 found ∧ read key part.2 = .ok found)
    (hvalue : ∀ part ∈ parts, part.1 = valueName →
      ∃ found, reads value part.2 found ∧ read value part.2 = .ok found) :
    ∃ foundKey foundValue,
      parts.foldlM (partsWith read keyName valueName key value) (none, none) =
        .ok (foundKey.bind Key.ofValue?, foundValue) ∧
      LastFound reads key keyName parts foundKey ∧
      LastFound reads value valueName parts foundValue := by
  induction parts using List.reverseRecOn with
  | nil => exact ⟨none, none, rfl, rfl, rfl⟩
  | append_singleton parts part ih =>
      rw [List.forall_mem_append, List.forall_mem_singleton] at hkey hvalue
      obtain ⟨foundKey, foundValue, hfold, hk, hv⟩ := ih hkey.1 hvalue.1
      obtain ⟨foundKey', foundValue', hstep, hk', hv'⟩ :=
        LastFound.partsWith hne hkey.2 hvalue.2 hk hv
      exact ⟨foundKey', foundValue', by simp [List.foldlM_append, hfold, hstep], hk', hv'⟩

end Parts

/-! ## entries in order -/

/-- An entry comes of what is found, where a missing part is what a field starts with. -/
def ComesTo (key value : ValuePlan) (found : Except ReadError (Option Key × Option Value))
    (entry : Key × Value) : Prop :=
  ∃ made, found = .ok made ∧ (made.1.getD key.initialKey, made.2.getD value.initial) = entry

/-- Entries are taken in order; those without a message are dropped. -/
theorem foldlM_addEntry {τ : Type} {xs : List τ} {decoded : List (Key × Value)}
    {find : τ → Except ReadError (Option Key × Option Value)}
    {key value : ValuePlan} (h : List.Forall₂ (fun x => ComesTo key value (find x)) xs decoded)
    (c : Catalog) (property : String) (done : List (Key × Value)) :
    xs.foldlM (fun done x => do c.addEntry property key value (← find x) done) done =
      (decoded.filter (!·.2.isAbsent)).foldlM
        (fun done entry => c.putEntry property key entry.1 entry.2 done) done := by
  induction h generalizing done with
  | nil => rfl
  | cons hentry _ ih =>
      obtain ⟨made, hmade, rfl⟩ := hentry
      rw [List.foldlM_cons, hmade, Except.ok_bind, addEntry_eq, List.filter_cons]
      by_cases habsent : (made.2.getD value.initial).isAbsent = true
      · simp only [habsent, if_true, Bool.not_true, Bool.false_eq_true, if_false, Except.ok_bind]
        exact ih done
      · simp only [habsent, if_false, Bool.not_false, if_true, List.foldlM_cons,
          Bool.false_eq_true]
        exact congrArg _ (funext ih)

/-! ## reading deep enough -/

section Depth

variable {κ β : Type} {reads : ValuePlan → β → Option Value → Prop}
  {read : Nat → ValuePlan → β → Except ReadError (Option Value)} {keyName valueName : κ}
  {key value : ValuePlan} {parts : List (κ × β)} {entries : List (List (κ × β))}
  {decoded : List (Key × Value)}

/-- What can be read comes of reading, once messages may be nested deep enough. -/
def Reliable (reads : ValuePlan → β → Option Value → Prop)
    (read : Nat → ValuePlan → β → Except ReadError (Option Value)) : Prop :=
  ∀ plan part found, reads plan part found →
    ∀ᶠ depth in Filter.atTop, read depth plan part = .ok found

theorem Reliable.unique (hr : Reliable reads read) (h : reads plan part found)
    (h' : reads plan part found') : found = found' := by
  obtain ⟨depth, hread, hread'⟩ := ((hr _ _ _ h).and (hr _ _ _ h')).exists
  exact Except.ok.inj (hread.symm.trans hread')

theorem Reliable.forall_mem (hr : Reliable reads read) {P : κ × β → Prop} {plan : ValuePlan}
    (h : ∀ part ∈ parts, P part → ∃ found, reads plan part.2 found) :
    ∀ᶠ depth in Filter.atTop, ∀ part ∈ parts, P part →
      ∃ found, reads plan part.2 found ∧ read depth plan part.2 = .ok found := by
  refine (Filter.eventually_all_finite parts.finite_toSet).mpr fun part hpart => ?_
  refine Filter.eventually_imp_distrib_left.mpr fun hP => ?_
  obtain ⟨found, hfound⟩ := h part hpart hP
  exact (hr _ _ _ hfound).mono fun depth hread => ⟨found, hfound, hread⟩

variable [BEq κ]

theorem LastFound.unique (hr : Reliable reads read) (h : LastFound reads plan name parts found)
    (h' : LastFound reads plan name parts found') : found = found' := by
  unfold LastFound at h h'
  split at h
  · next part hpart => exact hr.unique h (by simpa only [hpart] using h')
  · next hpart => rw [h, show found' = none by simpa only [hpart] using h']

variable [LawfulBEq κ]

/-- An entry comes of its parts. -/
theorem MakesEntry.foldlM (hr : Reliable reads read) (hne : keyName ≠ valueName)
    (h : MakesEntry reads keyName valueName key value parts entry) :
    ∀ᶠ depth in Filter.atTop, ComesTo key value
      (parts.foldlM (partsWith (read depth) keyName valueName key value) (none, none)) entry := by
  refine ((hr.forall_mem h.readableKey).and (hr.forall_mem h.readableValue)).mono ?_
  rintro depth ⟨hkeys, hvalues⟩
  obtain ⟨foundKey, foundValue, hfold, hk, hv⟩ := foldlM_partsWith hne hkeys hvalues
  refine ⟨_, hfold, Prod.ext ?_ ?_⟩
  · obtain ⟨found, hk', hkey⟩ := h.key
    obtain rfl := hk.unique hr hk'
    cases foundKey with
    | none => simp [ValuePlan.initialKey, ← show _ = key.initial from hkey, Key.ofValue?_toValue]
    | some v => simp [← show _ = v from hkey, Key.ofValue?_toValue]
  · obtain ⟨found, hv', hvalue⟩ := h.value
    obtain rfl := hv.unique hr hv'
    exact hvalue.symm

theorem eventually_comesTo (hr : Reliable reads read) (hne : keyName ≠ valueName)
    (h : List.Forall₂ (MakesEntry reads keyName valueName key value) entries decoded) :
    ∀ᶠ depth in Filter.atTop, List.Forall₂ (fun parts => ComesTo key value
      (parts.foldlM (partsWith (read depth) keyName valueName key value) (none, none)))
      entries decoded := by
  induction h with
  | nil => exact .of_forall fun _ => .nil
  | cons hentry _ ih =>
      exact ((hentry.foldlM hr hne).and ih).mono fun _ ⟨hentry, hrest⟩ => .cons hentry hrest

end Depth

variable {slot : Slot} {key value : ValuePlan} {decoded : List (Key × Value)}
  {id type : MessageId}

/-! ## the binary format -/

/-- A value of a plan is read from the bytes after its header. -/
def ReadsTree (c : Catalog) (plan : ValuePlan) (t : Tree) (found : Option Value) : Prop :=
  ∃ bs r, Spells t bs ∧
    c.readValue c.readMessage plan ⟨bs, some t.kind, [.object]⟩ = .ok found r

theorem reliable_readsTree :
    Reliable c.ReadsTree fun depth => c.valueOfTree (c.nestedOfTree depth) := by
  rintro plan t found ⟨bs, r, hs, hread⟩
  refine eventually_of_read (fun nested => c.readValue nested plan)
    (fun nested => c.valueOfTree nested plan) ?_ ?_ hs hread
  · exact fun n nested nested' hn h => readValue_agree hn h plan
  · exact fun nested nestedTree hn => readValue_reads hn plan

theorem entryWith_eq (nested : NestedTree) (key value : ValuePlan) :
    c.entryWith nested key value = partsWith (c.valueOfTree nested) keyTag valueTag key value := rfl

theorem fieldOfTree_entries
    (h : List.Forall₂ (MakesEntry c.ReadsTree keyTag valueTag key value) entries decoded)
    (property : String) (kind : Kind) :
    ∀ᶠ depth in Filter.atTop,
      c.fieldOfTree (c.nestedOfTree depth) property (.map key value)
          (.array kind (entries.map .object)) =
        Value.map <$> (decoded.filter (!·.2.isAbsent)).foldlM
          (fun done entry => c.putEntry property key entry.1 entry.2 done) [] := by
  refine (eventually_comesTo reliable_readsTree (by decide) h).mono fun depth hentries => ?_
  rw [← foldlM_addEntry hentries c property [], map_eq_pure_bind, fieldOfTree, List.foldlM_map]
  simp only [entriesWith, entryOfTree, entryWith_eq]

theorem nestedOfTree_openFields (hopen : c.openFields id fields = .ok (some type, rest)) :
    c.nestedOfTree (depth + 1) id (.object fields) =
      (fun values => some ⟨type, values⟩) <$> rest.foldlM
        (slotsWith (c.slots type) (fun slot => slot.tag)
          fun slot => c.fieldOfTree (c.nestedOfTree depth) slot.key slot.plan)
        ((c.slots type).map (·.plan.initial)) := by
  simp only [nestedOfTree, hopen, Except.ok_bind, messageOfFields, fieldsWith_eq, Catalog.new,
    map_eq_pure_bind, bind_assoc, pure_bind]

/-! ## JSON -/

/-- A value of a plan is read from a JSON value. -/
def ReadsJson (c : Catalog) (plan : ValuePlan) (v : Json) (found : Option Value) : Prop :=
  (c.readValueJson (c.readNestedJson v.weight) plan).on v = .ok found

/-- A JSON value is read without error as the value of a slot. -/
def DecodesJson (c : Catalog) (slot : Slot) (v : Json) : Prop :=
  ∃ value, (c.readFieldJson (c.readNestedJson v.weight) slot).on v = .ok value

theorem agreeUpTo_nestedOfJson (hd : n ≤ depth) (hd' : n ≤ depth') :
    AgreeUpTo n (c.nestedOfJson depth) (c.nestedOfJson depth') := fun id isNamed _ hv =>
  nestedOfJson_eq id isNamed (hv.trans hd) (hv.trans hd')

theorem ReadsJson.valueOfJson (h : c.ReadsJson plan v found) (hd : v.weight ≤ depth) :
    c.valueOfJson (c.nestedOfJson depth) plan v = .ok found := by
  rw [ReadsJson, (readValueJson_reads (readNestedJson_reads v.weight) plan).on_eq] at h
  rw [← h]
  exact (agreeUpTo_nestedOfJson hd le_rfl).valueOfJson plan le_rfl

theorem reliable_readsJson :
    Reliable c.ReadsJson fun depth => c.valueOfJson (c.nestedOfJson depth) := fun _ v _ h =>
  (Filter.eventually_ge_atTop v.weight).mono fun _ hd => h.valueOfJson hd

theorem DecodesJson.fieldOfJson (h : c.DecodesJson slot v) (hd : v.weight ≤ depth) :
    ∃ value, c.fieldOfJson (c.nestedOfJson depth) slot.key slot.plan v = .ok value := by
  obtain ⟨value, h⟩ := h
  rw [(readFieldJson_reads (readNestedJson_reads v.weight) slot).on_eq] at h
  exact ⟨value, ((agreeUpTo_nestedOfJson hd le_rfl).fieldOfJson _ _ le_rfl).trans h⟩

theorem recordWith_eq (nested : NestedValue) (key value : ValuePlan) :
    c.recordWith nested key value =
      partsWith (c.valueOfJson nested) Json.keyName Json.valueName key value := rfl

theorem fieldOfJson_entries
    (h : List.Forall₂ (MakesEntry c.ReadsJson Json.keyName Json.valueName key value) entries
      decoded)
    (hnames : FieldPlan.keysAreNames key = false) (property : String)
    (hd : (Json.array (entries.map .object)).weight ≤ depth) :
    c.fieldOfJson (c.nestedOfJson depth) property (.map key value)
        (.array (entries.map .object)) =
      Value.map <$> (decoded.filter (!·.2.isAbsent)).foldlM
        (fun done entry => c.putEntry property key entry.1 entry.2 done) [] := by
  obtain ⟨depth', hentries, hd'⟩ := ((eventually_comesTo reliable_readsJson (by decide) h).and
    (Filter.eventually_ge_atTop depth)).exists
  rw [(agreeUpTo_nestedOfJson hd (hd.trans hd')).fieldOfJson property _ le_rfl,
    ← foldlM_addEntry hentries c property [], map_eq_pure_bind, fieldOfJson]
  simp only [hnames, Bool.false_eq_true, if_false, foldArray, List.foldlM_map, recordsWith,
    recordOfJson, foldObject, recordWith_eq]

theorem contentOfJson_object (nested : NestedValue) (members : List (String × Json)) :
    c.contentOfJson nested type (.object members) =
      (fun values => ⟨type, values⟩) <$> members.foldlM
        (slotsWith (c.slots type) (fun slot => some slot.key)
          fun slot => c.fieldOfJson nested slot.key slot.plan)
        ((c.slots type).map (·.plan.initial)) := by
  simp only [contentOfJson, foldObject, propertiesWith_eq, Catalog.new, map_eq_pure_bind]

/-! ## fields of messages -/

/-- A message to which an entry cannot be added is left as it was. -/
theorem storeEntry_eq (hc : c.Lawful) (hslot : slot ∈ c.slots message.type)
    (hplan : slot.plan = .map key value)
    (hentries : message.fields[slot.position]? = some (.map entries)) (k : Key) (item : Value) :
    c.storeEntry slot.key k item message =
      match c.putEntry slot.key key k item entries with
      | .ok entries =>
        .ok () { message with fields := message.fields.set slot.position (.map entries) }
      | .error e => .error e message := by
  have hfind : c.property? message.type slot.key = some slot := hc.find?_key hslot
  rw [storeEntry, get_bind]
  simp only [hfind, hplan, List.getD_eq_getElem?_getD, hentries, Option.getD_some]
  by_cases hk : k ∈ entries.map Prod.fst
  · rw [putEntry_old hk, if_pos (isSome_lookup_iff_mem.mpr hk)]
    rfl
  · rw [putEntry_new hk, if_neg (isSome_lookup_iff_mem.not.mpr hk), Entries.set_of_not_mem item hk]
    rfl

theorem weight_le_of_mem {members : List (String × Json)} {depth : Nat}
    (hweight : (Json.object members).weight ≤ depth) {member : String × Json}
    (hmember : member ∈ members) : member.2.weight ≤ depth := by
  have hlt := weight_lt_members hmember
  rw [weight] at hweight
  omega

/-- What can be read on its own can be read among the members of an object. -/
theorem exists_fieldOfJson {members : List (String × Json)} {depth : Nat}
    (hweight : (Json.object members).weight ≤ depth) {member : String × Json}
    (hmember : member ∈ members)
    (hdecodes : ∀ other ∈ c.slots type, other.key = member.1 → c.DecodesJson other member.2) :
    ∀ other ∈ c.slots type, some other.key = some member.1 → ∃ v,
      c.fieldOfJson (c.nestedOfJson depth) other.key other.plan member.2 = .ok v :=
  fun other hother hkey =>
    (hdecodes other hother (Option.some.inj hkey)).fieldOfJson (weight_le_of_mem hweight hmember)

section Read

variable (hc : c.Lawful) (hslot : slot ∈ c.slots type) (hplan : slot.plan = .map key value)

include hc hslot hplan

section Binary

variable {tag : UInt32} {id : MessageId} {fields before after : List (UInt32 × Tree)} {kind : Kind}
  {entries : List (List (UInt32 × Tree))} {bs : List UInt8} {pending : Option Kind}
  {frames frames' : List Frame}
  (htag : slot.tag = some tag)
  (hopen : c.openFields id fields =
    .ok (some type, before ++ (tag, .array kind (entries.map .object)) :: after))
  (hbefore : ∀ field ∈ before, ∀ other ∈ c.slots type, other.tag = some field.1 →
    c.Decodes other field.2)
  (hentries : List.Forall₂ (MakesEntry c.ReadsTree keyTag valueTag key value) entries decoded)
  (hs : Spells (.object fields) bs) (hb : BeforeMessage pending frames frames')

include htag hopen hbefore hentries hs hb

/-- A message whose map settles is read, if no later field is the map again. -/
theorem readMessage_of_kept {kept : List (Key × Value)}
    (hkept : (decoded.filter (!·.2.isAbsent)).foldlM
      (fun done entry => c.putEntry slot.key key entry.1 entry.2 done) [] = .ok kept)
    (hafter : ∀ field ∈ after, field.1 ≠ tag ∧ ∀ other ∈ c.slots type,
      other.tag = some field.1 → c.Decodes other field.2) (suffix : List UInt8) :
    ∃ values, c.readMessage id ⟨bs ++ suffix, pending, frames⟩ =
        .ok (some ⟨type, values⟩) ⟨suffix, none, frames'⟩ ∧
      values[slot.position]? = some (.map kept) := by
  have hothers := eventually_of_decodes
    (List.forall_mem_append.mpr ⟨hbefore, fun field h => (hafter field h).2⟩)
  obtain ⟨depth, hd, hfield, hothers⟩ := ((Filter.eventually_gt_atTop (bs ++ suffix).length).and
    ((fieldOfTree_entries hentries slot.key kind).and hothers)).exists
  obtain ⟨values, hfold, hvalue⟩ := exists_foldlM_slotsWith_last (hc.keyed_tag type)
    hslot htag hothers (fun field h => (hafter field h).1)
    (show c.fieldOfTree _ slot.key slot.plan _ = .ok (.map kept) by
      rw [hplan, hfield, hkept]; rfl)
  have hyields := readMessage_yields_of_lt (c := c) id hs hb suffix (Nat.lt_succ_of_lt hd)
  rw [nestedOfTree_openFields hopen, hfold] at hyields
  exact ⟨values, hyields, hvalue⟩

/-- A key that comes twice fails the message, whatever follows. -/
theorem readMessage_of_clash {e : ReadError}
    (hclash : (decoded.filter (!·.2.isAbsent)).foldlM
      (fun done entry => c.putEntry slot.key key entry.1 entry.2 done) [] = .error e)
    (suffix : List UInt8) :
    ∃ r, c.readMessage id ⟨bs ++ suffix, pending, frames⟩ = .error e r := by
  obtain ⟨depth, hd, hfield, hothers⟩ := ((Filter.eventually_gt_atTop (bs ++ suffix).length).and
    ((fieldOfTree_entries hentries slot.key kind).and (eventually_of_decodes hbefore))).exists
  have hyields := readMessage_yields_of_lt (c := c) id hs hb suffix (Nat.lt_succ_of_lt hd)
  rw [nestedOfTree_openFields hopen, foldlM_slotsWith_error (hc.keyed_tag type) hslot htag hothers
    (show c.fieldOfTree _ slot.key slot.plan _ = .error e by
      rw [hplan, hfield, hclash]; rfl)] at hyields
  exact hyields

end Binary

section Json

variable {before after : List (String × Json)} {entries : List (List (String × Json))}
  {depth : Nat} {pending : Option Json} {frames frames' : List Json.Reader.Frame}
  (hnames : FieldPlan.keysAreNames key = false)
  (hbefore : ∀ member ∈ before, ∀ other ∈ c.slots type, other.key = member.1 →
    c.DecodesJson other member.2)
  (hentries : List.Forall₂ (MakesEntry c.ReadsJson Json.keyName Json.valueName key value) entries
    decoded)
  (hweight : (Json.object (before ++ (slot.key, .array (entries.map .object)) :: after)).weight ≤
    depth)
  (hb : Json.Before (.object (before ++ (slot.key, .array (entries.map .object)) :: after))
    pending frames frames')

include hnames hbefore hentries hweight hb

theorem readContentJson_of_kept {kept : List (Key × Value)}
    (hkept : (decoded.filter (!·.2.isAbsent)).foldlM
      (fun done entry => c.putEntry slot.key key entry.1 entry.2 done) [] = .ok kept)
    (hafter : ∀ member ∈ after, member.1 ≠ slot.key ∧ ∀ other ∈ c.slots type,
      other.key = member.1 → c.DecodesJson other member.2) :
    ∃ values, c.readContentJson (c.readNestedJson depth) type ⟨pending, frames⟩ =
        .ok ⟨type, values⟩ ⟨none, frames'⟩ ∧
      values[slot.position]? = some (.map kept) := by
  have hothers : ∀ member ∈ before ++ after, ∀ other ∈ c.slots type,
      some other.key = some member.1 → ∃ v,
        c.fieldOfJson (c.nestedOfJson depth) other.key other.plan member.2 = .ok v :=
    List.forall_mem_append.mpr ⟨fun member hmember => exists_fieldOfJson hweight
      (List.mem_append_left _ hmember) (hbefore member hmember), fun member hmember =>
      exists_fieldOfJson hweight (List.mem_append_right _ (.tail _ hmember))
        (hafter member hmember).2⟩
  have hfield := fieldOfJson_entries hentries hnames slot.key
    (weight_le_of_mem hweight (List.mem_append_right _ (.head _)))
  obtain ⟨values, hfold, hvalue⟩ := exists_foldlM_slotsWith_last (hc.keyed_key type)
    hslot rfl hothers (fun member h => (hafter member h).1)
    (show c.fieldOfJson _ slot.key slot.plan _ = .ok (.map kept) by
      rw [hplan, hfield, hkept]; rfl)
  have hyields := readContentJson_nested_reads (c := c) depth type _ _ _ _ hb
  rw [contentOfJson_object, hfold] at hyields
  exact ⟨values, hyields, hvalue⟩

theorem readContentJson_of_clash {e : ReadError}
    (hclash : (decoded.filter (!·.2.isAbsent)).foldlM
      (fun done entry => c.putEntry slot.key key entry.1 entry.2 done) [] = .error e) :
    ∃ r, c.readContentJson (c.readNestedJson depth) type ⟨pending, frames⟩ = .error e r := by
  have hothers := fun member hmember => exists_fieldOfJson hweight
    (List.mem_append_left _ hmember) (hbefore member hmember)
  have hfield := fieldOfJson_entries hentries hnames slot.key
    (weight_le_of_mem hweight (List.mem_append_right _ (.head _)))
  have hyields := readContentJson_nested_reads (c := c) depth type _ _ _ _ hb
  rw [contentOfJson_object, foldlM_slotsWith_error (hc.keyed_key type) hslot rfl hothers
    (show c.fieldOfJson _ slot.key slot.plan _ = .error e by
      rw [hplan, hfield, hclash]; rfl)] at hyields
  exact hyields

end Json

end Read

/-- **Map fields**: the entries of a map are taken in order, up to the first key that is there
already, whatever the field held before.  The same holds of entries that are put one by one. -/
theorem readMessage_mapEntries (hm : Model.ofSchema schema = .ok m) (hc : ofModel m = .ok c)
    (hslot : slot ∈ c.slots type) (hplan : slot.plan = .map key value) :
    (∀ tag id fields before kind entries after decoded bs pending frames frames' suffix,
      slot.tag = some tag →
      c.openFields id fields =
        .ok (some type, before ++ (tag, .array kind (entries.map .object)) :: after) →
      (∀ field ∈ before, ∀ other ∈ c.slots type, other.tag = some field.1 →
        c.Decodes other field.2) →
      List.Forall₂ (MakesEntry c.ReadsTree keyTag valueTag key value) entries decoded →
      Spells (.object fields) bs → BeforeMessage pending frames frames' →
      ∃ result, c.Settles slot.key key (decoded.filter (!·.2.isAbsent)) result ∧
        match result with
        | .ok kept =>
          (∀ field ∈ after, field.1 ≠ tag ∧ ∀ other ∈ c.slots type, other.tag = some field.1 →
            c.Decodes other field.2) →
          ∃ values, c.readMessage id ⟨bs ++ suffix, pending, frames⟩ =
              .ok (some ⟨type, values⟩) ⟨suffix, none, frames'⟩ ∧
            values[slot.position]? = some (.map kept)
        | .error e => ∃ r, c.readMessage id ⟨bs ++ suffix, pending, frames⟩ = .error e r) ∧
    (FieldPlan.keysAreNames key = false →
      ∀ before entries after decoded depth pending frames frames',
      (∀ member ∈ before, ∀ other ∈ c.slots type, other.key = member.1 →
        c.DecodesJson other member.2) →
      List.Forall₂ (MakesEntry c.ReadsJson Json.keyName Json.valueName key value) entries
        decoded →
      let whole := Json.object (before ++ (slot.key, .array (entries.map .object)) :: after)
      whole.weight ≤ depth → Json.Before whole pending frames frames' →
      ∃ result, c.Settles slot.key key (decoded.filter (!·.2.isAbsent)) result ∧
        match result with
        | .ok kept =>
          (∀ member ∈ after, member.1 ≠ slot.key ∧ ∀ other ∈ c.slots type,
            other.key = member.1 → c.DecodesJson other member.2) →
          ∃ values, c.readContentJson (c.readNestedJson depth) type ⟨pending, frames⟩ =
              .ok ⟨type, values⟩ ⟨none, frames'⟩ ∧
            values[slot.position]? = some (.map kept)
        | .error e =>
          ∃ r, c.readContentJson (c.readNestedJson depth) type ⟨pending, frames⟩ = .error e r) ∧
    ∀ message entries k item, message.type = type →
      message.fields[slot.position]? = some (.map entries) →
      (k ∈ entries.map Prod.fst →
        let e := .duplicateKey slot.key (c.keyText key k)
        c.put message slot.key k item = .error e ∧
          c.storeEntry slot.key k item message = .error e message) ∧
      (k ∉ entries.map Prod.fst →
        let message' := { message with
          fields := message.fields.set slot.position (.map (entries ++ [(k, item)])) }
        c.put message slot.key k item = .ok message' ∧
          c.storeEntry slot.key k item message = .ok () message') := by
  have hlawful := lawful_of_ofSchema hm hc
  refine ⟨?_, ?_, ?_⟩
  · intro tag id fields before kind entries after decoded bs pending frames frames' suffix htag
      hopen hbefore hentries hs hb
    refine ⟨_, settles_foldlM slot.key key _, ?_⟩
    split
    · next kept hkept =>
        exact fun hafter => readMessage_of_kept hlawful hslot hplan htag hopen hbefore hentries hs
          hb hkept hafter suffix
    · next e hclash =>
        exact readMessage_of_clash hlawful hslot hplan htag hopen hbefore hentries hs hb hclash
          suffix
  · intro hnames before entries after decoded depth pending frames frames' hbefore hentries whole
      hweight hb
    refine ⟨_, settles_foldlM slot.key key _, ?_⟩
    split
    · next kept hkept =>
        exact readContentJson_of_kept hlawful hslot hplan hnames hbefore hentries hweight hb hkept
    · next e hclash =>
        exact readContentJson_of_clash hlawful hslot hplan hnames hbefore hentries hweight hb hclash
  · rintro message entries k item rfl hentries
    have hstore := storeEntry_eq hlawful hslot hplan hentries k item
    rw [put]
    refine ⟨fun hold => ?_, fun hnew => ?_⟩
    · rw [putEntry_old hold] at hstore
      rw [hstore]
      exact ⟨rfl, rfl⟩
    · rw [putEntry_new hnew] at hstore
      rw [hstore]
      exact ⟨rfl, rfl⟩

/-- A coin among items. -/
def coinTree : Tree := .object [(0, .int 1), (1, .sint 10)]

/-- Entries with items: a strange part and the key behind the value, the same key with a member that
is not known, and no key. -/
def itemEntries : List (List (UInt32 × Tree)) :=
  [[(2, coinTree), (7, .string [0xff]), (1, .int 5)], [(1, .int 5), (2, newerItem)],
    [(2, coinTree)]]

/-- Two values for the items of maps, of which the second counts. -/
def itemMaps : List (UInt32 × Tree) :=
  [(14, .array .object [.object [(2, coinTree)]]),
    (14, .array .object (itemEntries.map .object))]

theorem spells_coinTree : Spells coinTree [1, 1, 0x12, 10, 0] :=
  .object (.cons (isVarint_varint _) (.int (isVarint_varint _))
    (.cons (isVarint_varint _) (.sint (isVarint_varint _)) .nil))

theorem spells_newerItem : Spells newerItem [1, 9, 0x39, 1, 0xff, 0] :=
  .object (.cons (isVarint_varint _) (.int (isVarint_varint _))
    (.cons (isVarint_varint _) (.string (isVarint_varint 1) rfl) .nil))

theorem spells_coinArray : Spells (.array .object [.object [(2, coinTree)]])
    [0x0b, 1, 0x2b, 1, 1, 0x12, 10, 0, 0, 0] :=
  .array (isVarint_varint 1) rfl (by simp [Tree.kind])
    (.cons (.object (.cons (isVarint_varint _) spells_coinTree .nil)) .nil)

theorem spells_itemMaps : ∃ bs, Spells (.object itemMaps) bs := by
  have hv := isVarint_varint
  have hcoin := spells_coinTree
  have hsecond : Spells (.array .object (itemEntries.map .object)) _ :=
    .array (hv 3) rfl (by simp [itemEntries, Tree.kind])
      (.cons (.object (.cons (hv _) hcoin (.cons (hv _) (.string (hv 1) rfl)
        (.cons (hv _) (.int (hv _)) .nil))))
      (.cons (.object (.cons (hv _) (.int (hv _)) (.cons (hv _) spells_newerItem .nil)))
      (.cons (.object (.cons (hv _) hcoin .nil)) .nil)))
  exact ⟨_, .object (.cons (hv _) spells_coinArray (.cons (hv _) hsecond .nil))⟩

/-- Records with tones: no value, the parts in any order, and nothing. -/
def toneRecords : List (List (String × Json)) :=
  [[("key", .string "NATURAL")], [("value", .string "#"), ("key", .string "FLAT")], []]

/-- Whether a message comes of a step. -/
def holdsMessage (x : EStateM.Result ReadError σ (Option Value)) : Bool :=
  match x with
  | .ok (some v) _ => !v.isAbsent
  | _ => false

theorem exists_of_holdsMessage {x : EStateM.Result ReadError σ (Option Value)}
    (h : holdsMessage x = true) : ∃ v r, x = .ok (some v) r ∧ v.isAbsent = false := by
  unfold holdsMessage at h
  split at h
  · next v r => exact ⟨v, r, rfl, by simpa using h⟩
  · contradiction

/-- Whether a step takes a value of which nothing comes. -/
def holdsNothing (x : EStateM.Result ReadError σ (Option Value)) : Bool :=
  match x with
  | .ok none _ => true
  | _ => false

theorem exists_of_holdsNothing {x : EStateM.Result ReadError σ (Option Value)}
    (h : holdsNothing x = true) : ∃ r, x = .ok none r := by
  unfold holdsNothing at h
  split at h
  · next r => exact ⟨r, rfl⟩
  · contradiction

theorem readMessage_mapEntries_items : ∃ m c bs, Model.ofSchema Example.maps = .ok m ∧
    ofModel m = .ok c ∧ Spells (.object itemMaps) bs ∧
    (∃ slot coin values, slot ∈ c.slots 3 ∧ slot.key = "items" ∧ coin.isAbsent = false ∧
      c.readMessage 3 ⟨bs ++ [7], none, []⟩ = .ok (some ⟨3, values⟩) ⟨[7], none, []⟩ ∧
      values[slot.position]? =
        some (.map [(.scalar (.int 5), coin), (.scalar (.int 0), coin)]) ∧
      c.put ⟨3, values⟩ "items" (.scalar (.int 0)) coin = .error (.duplicateKey "items" "0") ∧
      c.storeEntry "items" (.scalar (.int 0)) coin ⟨3, values⟩ =
        .error (.duplicateKey "items" "0") ⟨3, values⟩) ∧
    ∃ r, c.readContentJson (c.readNestedJson 20) 3
        ⟨some (.object [("by_tone", .array (toneRecords.map .object))]), []⟩ =
      .error (.duplicateKey "by_tone" "Flat") r := by
  have hcatalog : (ofSchema? Example.maps).any (fun c => decide
      (c.model.inFamily 3 = false ∧
        c.constantOfName 0 "NATURAL" = 2 ∧ c.constantOfName 0 "#" = 1 ∧
        c.constantOfName 0 "FLAT" = 0 ∧
        c.keyText (.enumeration 0) (.constant 0) = "Flat" ∧
        holdsMessage (c.readValue c.readMessage (.message 0 true)
          ⟨[1, 1, 0x12, 10, 0], some .object, [.object]⟩) = true ∧
        holdsNothing (c.readValue c.readMessage (.message 0 true)
          ⟨[1, 9, 0x39, 1, 0xff, 0], some .object, [.object]⟩) = true ∧
        (∃ slot ∈ c.slots 3, slot.key = "items" ∧ slot.tag = some 14 ∧
          slot.plan = .map (.primitive .int32) (.message 0 true)) ∧
        (∀ slot ∈ c.slots 3, slot.tag = some 14 → leaves (c.readField c.readMessage slot
          ⟨[0x0b, 1, 0x2b, 1, 1, 0x12, 10, 0, 0, 0], some .array, [.object]⟩)
          ⟨[], none, [.object]⟩ = true) ∧
        ∃ slot ∈ c.slots 3, slot.key = "by_tone" ∧
          slot.plan = .map (.enumeration 0) (.enumeration 0))) = true := by
    decide +kernel
  obtain ⟨m, c, hm, hc, hfacts⟩ := exists_of_any hcatalog
  obtain ⟨hplain, hnatural, hsharp, hflat, htext, hcoin, hnewer, ⟨items, hitems, hkey, htag, hplan⟩,
    hfirst, tones, htones, hkey', hplan'⟩ := of_decide_eq_true hfacts
  obtain ⟨bs, hs⟩ := spells_itemMaps
  obtain ⟨coin, r, hcoin, hpresent⟩ := exists_of_holdsMessage hcoin
  obtain ⟨r', hnewer⟩ := exists_of_holdsNothing hnewer
  have hreads : c.ReadsTree (.message 0 true) coinTree (some coin) :=
    ⟨_, r, spells_coinTree, hcoin⟩
  have hnothing : c.ReadsTree (.message 0 true) newerItem none := ⟨_, r', spells_newerItem, hnewer⟩
  have hfive : c.ReadsTree (.primitive .int32) (.int 5) (some (.scalar (.int 5))) :=
    ⟨_, _, .int (isVarint_varint 5), rfl⟩
  refine ⟨m, c, bs, hm, hc, hs, ?_, ?_⟩
  · obtain ⟨hbinary, -, hput⟩ := readMessage_mapEntries hm hc hitems hplan
    have hbefore : ∀ field ∈ [((14 : UInt32), Tree.array .object [.object [(2, coinTree)]])],
        ∀ other ∈ c.slots 3, other.tag = some field.1 → c.Decodes other field.2 := by
      rw [List.forall_mem_singleton]
      intro other hother htag
      obtain ⟨value, hread⟩ := exists_of_leaves (hfirst other hother htag)
      exact ⟨_, value, _, spells_coinArray, hread⟩
    have hentries : List.Forall₂ (MakesEntry c.ReadsTree keyTag valueTag (.primitive .int32)
        (.message 0 true)) itemEntries
        [(.scalar (.int 5), coin), (.scalar (.int 5), .absent), (.scalar (.int 0), coin)] := by
      refine .cons ?_ (.cons ?_ (.cons ?_ .nil))
      · refine ⟨?_, ?_, ⟨_, hfive, rfl⟩, _, hreads, rfl⟩
        · simpa [keyTag] using ⟨_, hfive⟩
        · simpa [valueTag] using ⟨_, hreads⟩
      · refine ⟨?_, ?_, ⟨_, hfive, rfl⟩, _, hnothing, rfl⟩
        · simpa [keyTag] using ⟨_, hfive⟩
        · simpa [valueTag] using ⟨_, hnothing⟩
      · refine ⟨?_, ?_, ⟨none, rfl, rfl⟩, _, hreads, rfl⟩
        · simp [keyTag]
        · simpa [valueTag] using ⟨_, hreads⟩
    obtain ⟨result, hsettles, hread⟩ := hbinary 14 3 itemMaps _ .object itemEntries [] _ bs none []
      [] [7] htag (by simp [openFields, hplain, itemMaps]) hbefore hentries hs .outermost
    have hfilter : [(Key.scalar (.int 5), coin), (.scalar (.int 5), .absent),
        (.scalar (.int 0), coin)].filter (!·.2.isAbsent) =
        [(.scalar (.int 5), coin), (.scalar (.int 0), coin)] := by
      simp [hpresent, show Value.absent.isAbsent = true from rfl]
    rw [hfilter] at hsettles
    rw [hsettles.eq_foldlM, foldlM_putEntry_of_nodup (by simp)] at hread
    obtain ⟨values, hmessage, hfield⟩ := hread (by simp)
    have hold := (hput ⟨3, values⟩ _ (.scalar (.int 0)) coin rfl hfield).1 (by simp)
    rw [hkey] at hold
    exact ⟨items, coin, values, hitems, hkey, hpresent, hmessage, hfield, hold⟩
  · obtain ⟨-, hjson, -⟩ := readMessage_mapEntries hm hc htones hplan'
    have hname : ∀ name, c.ReadsJson (.enumeration 0) (.string name)
        (some (.constant (c.constantOfName 0 name))) := fun _ => rfl
    have hentries : List.Forall₂ (MakesEntry c.ReadsJson Json.keyName Json.valueName
        (.enumeration 0) (.enumeration 0)) toneRecords
        [(.constant 2, .constant 0), (.constant 0, .constant 1), (.constant 0, .constant 0)] := by
      refine .cons ?_ (.cons ?_ (.cons ?_ .nil))
      · refine ⟨?_, ?_, ⟨_, hname "NATURAL", by rw [hnatural]; rfl⟩, none, rfl, rfl⟩
        · simpa [Json.keyName] using ⟨_, hname "NATURAL"⟩
        · simp [Json.valueName]
      · refine ⟨?_, ?_, ⟨_, hname "FLAT", by rw [hflat]; rfl⟩, _, hname "#", by rw [hsharp]; rfl⟩
        · simpa [Json.keyName] using ⟨_, hname "FLAT"⟩
        · simpa [Json.valueName] using ⟨_, hname "#"⟩
      · exact ⟨by simp, by simp, ⟨none, rfl, rfl⟩, none, rfl, rfl⟩
    obtain ⟨result, hsettles, hread⟩ := hjson rfl [] toneRecords [] _ 20 _ [] _ (by simp) hentries
      (by rw [hkey']; decide) (.name [])
    have hclash : c.Settles tones.key (.enumeration 0)
        [(.constant 2, .constant 0), (.constant 0, .constant 1), (.constant 0, .constant 0)]
        (.error (.duplicateKey tones.key (c.keyText (.enumeration 0) (.constant 0)))) :=
      @Settles.clash c _ _ [(.constant 2, .constant 0), (.constant 0, .constant 1)] []
        (.constant 0, .constant 0) (by decide) (by decide)
    rw [hsettles.eq_foldlM.trans hclash.eq_foldlM.symm, hkey', htext] at hread
    exact hread

end Catalog

end Missive
