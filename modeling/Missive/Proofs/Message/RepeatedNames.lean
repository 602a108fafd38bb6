import Missive.Example
import Missive.Proofs.Json.Repeated
import Missive.Proofs.Message.MapEntries

/-!
# Missive.Proofs.Message.RepeatedNames

Names that a JSON text repeats in a map.

A map whose keys are texts is an object in JSON, and the keys are the names of its properties.
Repeated properties are merged before the map is read, so that no key comes twice: the map has each
name once, in the order of the first places, with the last value (`ofJsonText_repeatedNames`).
-/

namespace Missive.Catalog

open Json

variable {c : Catalog} {text : String} {v : Json} {slot : Slot} {id type : MessageId}
  {value : ValuePlan} {members entries : List (String × Json)} {decoded : List (Key × Value)}

/-! ## messages as they are written -/

/-- A value is written as a message of a type: as an object, or in a family as an array of the name
of a member and an object. -/
inductive OpensJson (c : Catalog) :
    MessageId → Json → MessageId → List (String × Json) → Prop where
  | plain {id : MessageId} {members : List (String × Json)} (h : c.model.inFamily id = false) :
      OpensJson c id (.object members) id members
  | named {id type : MessageId} {name : String} {members : List (String × Json)}
      {rest : List Json} (h : c.model.inFamily id = true)
      (hmember : c.memberOfJsonType? id name = some type) :
      OpensJson c id (.array (.string name :: .object members :: rest)) type members

/-- A message is made of its properties once repeated ones are merged. -/
theorem OpensJson.nestedOfJson (h : c.OpensJson id v type members) (depth : Nat) :
    c.nestedOfJson (depth + 1) id (c.model.inFamily id) v.merged =
      some <$>
        c.contentOfJson (c.nestedOfJson depth) type (.object (mergedMembers [] members)) := by
  cases h with
  | plain h =>
      simp only [Catalog.nestedOfJson, h, merged, isNull, Bool.false_eq_true, if_false,
        map_eq_pure_bind]
  | named h hmember =>
      have hname : ∀ name, Read.string.on (.string name) = .ok name := fun _ => rfl
      simp only [Catalog.nestedOfJson, h, merged, mergedItems, isNull, Bool.false_eq_true, if_false,
        if_true, namedOfJson, hname, Except.ok_bind, hmember, map_eq_pure_bind]

theorem OpensJson.weight_lt (h : c.OpensJson id v type members) {member : String × Json}
    (hmember : member ∈ mergedMembers [] members) : member.2.weight < v.merged.weight := by
  have hlt := weight_lt_members hmember
  cases h with
  | plain => simp only [merged, weight]; omega
  | named => simp only [merged, mergedItems, weight, weightItems]; omega

theorem mem_mergedMembers {members : List (String × Json)} {name : String} {v : Json} :
    (name, v) ∈ mergedMembers [] members ↔
      ∃ w, members.reverse.lookup name = some w ∧ w.merged = v := by
  rw [← lookup_eq_some_iff_mem (nodup_mergedMembers members), lookup_mergedMembers,
    Option.map_eq_some_iff]

/-! ## maps with names as keys -/

/-- An entry of a map: a name, with what is read from the last value under it. -/
def LastNamed (c : Catalog) (value : ValuePlan) (entries : List (String × Json)) (name : String)
    (entry : Key × Value) : Prop :=
  entry.1 = .scalar (.string name) ∧ ∃ w found, entries.reverse.lookup name = some w ∧
    c.ReadsJson value w.merged found ∧ entry.2 = found.getD value.initial

theorem exists_lastNamed (h : ∀ name w, entries.reverse.lookup name = some w →
      ∃ found, c.ReadsJson value w.merged found) :
    ∃ decoded, List.Forall₂ (c.LastNamed value entries) (entries.map Prod.fst).eraseDups
      decoded := by
  have hentry : ∀ name ∈ (entries.map Prod.fst).eraseDups,
      ∃ entry, c.LastNamed value entries name entry := by
    rw [← map_fst_mergedMembers]
    intro name hname
    obtain ⟨⟨_, v⟩, hmember, rfl⟩ := List.mem_map.mp hname
    obtain ⟨w, hlast, -⟩ := mem_mergedMembers.mp hmember
    obtain ⟨found, hfound⟩ := h _ w hlast
    exact ⟨(.scalar (.string _), found.getD value.initial), rfl, w, found, hlast, hfound, rfl⟩
  have : Nonempty (Key × Value) := ⟨.constant 0, .absent⟩
  choose! entry hentry using hentry
  exact ⟨_, List.forall₂_map_right_iff.mpr (List.forall₂_same.mpr hentry)⟩

/-- No name is there twice. -/
theorem nodup_of_lastNamed (h : List.Forall₂ (c.LastNamed value entries)
    (entries.map Prod.fst).eraseDups decoded) : (decoded.map Prod.fst).Nodup := by
  have hkeys : (entries.map Prod.fst).eraseDups.map (fun name => Key.scalar (.string name)) =
      decoded.map Prod.fst := map_eq_of_forall₂ (h.imp fun _ _ hentry => hentry.1.symm)
  rw [← hkeys, ← map_fst_mergedMembers]
  exact (nodup_mergedMembers entries).map fun _ _ heq => by simpa using heq

/-- What is found of an entry that is a property: the name is its key. -/
def namedEntry (c : Catalog) (nested : NestedValue) (value : ValuePlan) (member : String × Json) :
    Except ReadError (Option Key × Option Value) := do
  return (some (.scalar (.string member.1)), ← c.valueOfJson nested value member.2)

theorem namesWith_eq (nested : NestedValue) (property : String) (key value : ValuePlan) :
    c.namesWith nested property key value = fun done member => (do
      c.addEntry property key value (← c.namedEntry nested value member) done) := by
  funext done member
  simp only [namesWith, namedEntry, bind_assoc, pure_bind]

/-- What an object is as a map: of no name is there more than the last value. -/
theorem fieldOfJson_names (h : List.Forall₂ (c.LastNamed value entries)
      (entries.map Prod.fst).eraseDups decoded)
    (property : String) (hd : (Json.object entries).merged.weight ≤ depth) :
    c.fieldOfJson (c.nestedOfJson depth) property (.map (.primitive .string) value)
        (Json.object entries).merged =
      .ok (.map (decoded.filter (!·.2.isAbsent))) := by
  have hfound : ∀ member entry, member ∈ mergedMembers [] entries ∧
      c.LastNamed value entries member.1 entry →
      ComesTo (.primitive .string) value (c.namedEntry (c.nestedOfJson depth) value member)
        entry := by
    rintro ⟨name, v⟩ ⟨k, item⟩ ⟨hmember, rfl, w, found, hlast, hread, rfl⟩
    have hweight := weight_lt_members hmember
    rw [merged, weight] at hd
    obtain ⟨_, hlast', rfl⟩ := mem_mergedMembers.mp hmember
    obtain rfl := Option.some.inj (hlast.symm.trans hlast')
    have hd' : w.merged.weight ≤ depth := by dsimp only at hweight; omega
    exact ⟨_, by rw [namedEntry, hread.valueOfJson hd']; rfl, rfl⟩
  have hnodup := (nodup_of_lastNamed h).sublist
    ((List.filter_sublist (p := (!·.2.isAbsent))).map Prod.fst)
  rw [← map_fst_mergedMembers, List.forall₂_map_left_iff] at h
  have hcomes := ((List.forall₂_and_left _ _).mpr ⟨fun _ hmember => hmember, h⟩).imp hfound
  have hnames : FieldPlan.keysAreNames (.primitive .string) = true := rfl
  simp only [fieldOfJson, merged, foldObject, hnames, if_true, namesWith_eq, foldlM_addEntry hcomes,
    foldlM_putEntry_of_nodup hnodup]
  rfl

/-- **Repeated names**: a name that comes more than once in a map is no error.  It stands where it
came first, with the value that came last. -/
theorem ofJsonText_repeatedNames (hm : Model.ofSchema schema = .ok m) (hc : ofModel m = .ok c)
    (hslot : slot ∈ c.slots type) (hplan : slot.plan = .map (.primitive .string) value)
    (htext : parseEvery? text = some v) (hopen : c.OpensJson id v type members)
    (hlast : members.reverse.lookup slot.key = some (.object entries))
    (hothers : ∀ other ∈ c.slots type, other ≠ slot →
      ∀ w, members.reverse.lookup other.key = some w → c.DecodesJson other w.merged)
    (hentries : ∀ name w, entries.reverse.lookup name = some w →
      ∃ found, c.ReadsJson value w.merged found) :
    ∃ values decoded, c.ofJsonText id text = .ok (some ⟨type, values⟩) ∧
      values[slot.position]? = some (.map (decoded.filter (!·.2.isAbsent))) ∧
      List.Forall₂ (c.LastNamed value entries) (entries.map Prod.fst).eraseDups decoded := by
  obtain ⟨decoded, hdecoded⟩ := exists_lastNamed hentries
  have hlast' : (slot.key, (Json.object entries).merged) ∈ mergedMembers [] members :=
    mem_mergedMembers.mpr ⟨_, hlast, rfl⟩
  have hfield := fieldOfJson_names hdecoded slot.key (hopen.weight_lt hlast').le
  rw [← hplan] at hfield
  have hread : ∀ member ∈ mergedMembers [] members, ∀ other ∈ c.slots type,
      some other.key = some member.1 → ∃ item,
        c.fieldOfJson (c.nestedOfJson v.merged.weight) other.key other.plan member.2 =
          .ok item := by
    rintro ⟨name, v'⟩ hmember other hother hkey
    obtain rfl : other.key = name := Option.some.inj hkey
    by_cases hsame : other = slot
    · subst hsame
      have hnodup := nodup_mergedMembers members
      have hlast := (lookup_eq_some_iff_mem hnodup).mpr hlast'
      obtain rfl : _ = v' := Option.some.inj
        (hlast.symm.trans ((lookup_eq_some_iff_mem hnodup).mpr hmember))
      exact ⟨_, hfield⟩
    · obtain ⟨w, hw, rfl⟩ := mem_mergedMembers.mp hmember
      exact (hothers other hother hsame w hw).fieldOfJson (hopen.weight_lt hmember).le
  obtain ⟨values, hvalues⟩ := exists_foldlM_slotsWith hread ((c.slots type).map (·.plan.initial))
  refine ⟨values, decoded, ?_, ?_, hdecoded⟩
  · simp only [ofJsonText, parse?_eq_merged, htext, Option.map_some, ofJson_eq,
      hopen.nestedOfJson, contentOfJson_object, hvalues]
    rfl
  · refine getElem?_of_foldlM_slotsWith ((lawful_of_ofSchema hm hc).keyed_key type) hslot rfl ?_
      hfield hvalues
    rw [lookup_reverse (nodup_mergedMembers members), lookup_mergedMembers, hlast]
    rfl

theorem ofJsonText_repeatedNames_tones : ∃ m c slot values,
    Model.ofSchema Example.maps = .ok m ∧ ofModel m = .ok c ∧
    slot ∈ c.slots 3 ∧ slot.key = "tones" ∧
    c.ofJsonText 3
      "\x7b\"tones\":null,\"tones\":\x7b\"a\":\"FLAT\",\"b\":\"#\",\"a\":\"NATURAL\"\x7d\x7d" =
        .ok (some ⟨3, values⟩) ∧
    values[slot.position]? = some
      (.map [(.scalar (.string "a"), .constant 2), (.scalar (.string "b"), .constant 1)]) := by
  have hcatalog : (ofSchema? Example.maps).any (fun c => decide
      (c.model.inFamily 3 = false ∧ c.constantOfName 0 "NATURAL" = 2 ∧
        c.constantOfName 0 "#" = 1 ∧ ∃ slot ∈ c.slots 3, slot.key = "tones" ∧
          slot.plan = .map (.primitive .string) (.enumeration 0))) = true := by
    decide +kernel
  obtain ⟨m, c, hm, hc, hfacts⟩ := exists_of_any hcatalog
  obtain ⟨hplain, hnatural, hsharp, slot, hslot, hkey, hplan⟩ := of_decide_eq_true hfacts
  have htext : parseEvery?
      "\x7b\"tones\":null,\"tones\":\x7b\"a\":\"FLAT\",\"b\":\"#\",\"a\":\"NATURAL\"\x7d\x7d" =
        some (.object [("tones", .null), ("tones", .object
          [("a", .string "FLAT"), ("b", .string "#"), ("a", .string "NATURAL")])]) := by
    cbv
  have hname : ∀ name, c.ReadsJson (.enumeration 0) (.string name)
      (some (.constant (c.constantOfName 0 name))) := fun _ => rfl
  have honly : ∀ other ∈ c.slots 3, other ≠ slot → other.key ≠ "tones" := by
    intro other hother hne hkey'
    have hlawful := lawful_of_ofSchema hm hc
    have hfind := hlawful.find?_key hother
    rw [hkey', ← hkey, hlawful.find?_key hslot] at hfind
    exact hne (Option.some.inj hfind).symm
  obtain ⟨values, decoded, hread, hvalue, hdecoded⟩ := ofJsonText_repeatedNames hm hc hslot hplan
    htext (.plain hplain) (by rw [hkey]; rfl)
    (fun other hother hne w hw => by
      have hmem := mem_of_lookup hw
      simp [honly other hother hne] at hmem)
    (fun name w hw => by
      have hmem := mem_of_lookup hw
      simp only [List.reverse_cons, List.reverse_nil, List.nil_append, List.cons_append,
        List.mem_cons, Prod.mk.injEq, List.not_mem_nil, or_false] at hmem
      obtain ⟨-, rfl⟩ | ⟨-, rfl⟩ | ⟨-, rfl⟩ := hmem <;> exact ⟨_, hname _⟩)
  have hentry : ∀ name entry tone,
      [("a", Json.string "NATURAL"), ("b", .string "#"), ("a", .string "FLAT")].lookup name =
        some (.string tone) →
      c.LastNamed (.enumeration 0)
        [("a", .string "FLAT"), ("b", .string "#"), ("a", .string "NATURAL")] name entry →
      entry = (.scalar (.string name), .constant (c.constantOfName 0 tone)) := by
    rintro name ⟨_, _⟩ tone htone ⟨rfl, w, found, hlast, hfound, rfl⟩
    obtain rfl : w = .string tone := Option.some.inj (hlast.symm.trans htone)
    obtain rfl := Except.ok.inj (hfound.symm.trans (hname tone))
    rfl
  refine ⟨m, c, slot, values, hm, hc, hslot, hkey, hread, ?_⟩
  cases hdecoded with
  | cons ha hrest =>
      cases hrest with
      | cons hb hrest =>
          cases hrest
          rw [hvalue, hentry "a" _ "NATURAL" rfl ha, hentry "b" _ "#" rfl hb, hnatural, hsharp]
          rfl

/-- Whether a message comes of a text, and a field of it is a map with one entry. -/
def holdsEntry (position : Nat) (name : String) (number : Int32)
    (x : Except ReadError (Option Message)) : Bool :=
  match x with
  | .ok (some message) =>
    match message.fields[position]? with
    | some (.map [(key, .scalar value)]) =>
      decide (key = .scalar (.string name) ∧ value = .int number)
    | _ => false
  | _ => false

/-- A key comes twice, and the second value is taken. -/
theorem ofJsonText_keeps_last_count : ∃ m c message, Model.ofSchema Example.scenarios = .ok m ∧
    ofModel m = .ok c ∧
    c.ofJsonText 3 "\x7b\"counts\":\x7b\"a\":1,\"a\":2\x7d\x7d" = .ok (some message) ∧
    message.fields[2]? = some (.map [(.scalar (.string "a"), .scalar (.int 2))]) := by
  have hcatalog : (ofSchema? Example.scenarios).any (fun c => holdsEntry 2 "a" 2
      (c.ofJsonText 3 "\x7b\"counts\":\x7b\"a\":1,\"a\":2\x7d\x7d")) = true := by
    decide +kernel
  obtain ⟨m, c, hm, hc, hholds⟩ := exists_of_any hcatalog
  unfold holdsEntry at hholds
  split at hholds
  · next message hread =>
      split at hholds
      · next key value hentry =>
          obtain ⟨rfl, rfl⟩ := of_decide_eq_true hholds
          exact ⟨m, c, message, hm, hc, hread, hentry⟩
      · contradiction
  · contradiction

end Missive.Catalog
