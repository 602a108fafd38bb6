import Missive.Model.Resolve
import Missive.Proofs.Json.Number
import Missive.Schema.Document

/-!
# Missive.Proofs.Schema.Document

Schema documents: a schema is read back from the document that it is written to.

The reader undoes the writer record by record, so every kind of record has its own
`ofJson?_toJson`.  Types and definitions nest; there the induction is on the value, and the weight
of its document bounds the levels that the reader goes down.

An option that is an infinity or a NaN is all that a document cannot hold.  `IsFinite` excludes
such options, and reading never finds one (`isFinite_of_ofJson?`): a number in a document is finite,
and it stays so as a double.
-/

namespace Missive

/-! ## parts of documents -/

/-- Elements that are read back one by one are read back together. -/
theorem mapM_map_eq_some {read : β → Option α} {write : α → β} {xs : List α}
    (h : ∀ x ∈ xs, read (write x) = some x) : (xs.map write).mapM read = some xs := by
  induction xs with
  | nil => rfl
  | cons x rest ih =>
      have hrest := ih fun y hy => h y (.tail _ hy)
      rw [List.map_cons, List.mapM_cons, h x (.head _), hrest]
      rfl

/-- What holds of every element that is read holds of the whole list. -/
theorem forall_of_mapM_eq_some {read : β → Option α} {P : α → Prop} {ys : List β} {xs : List α}
    (hread : ∀ y x, read y = some x → P x) (h : ys.mapM read = some xs) : ∀ x ∈ xs, P x := by
  induction ys generalizing xs with
  | nil => cases h; simp
  | cons y ys ih =>
      simp only [List.mapM_cons, Option.bind_eq_bind, Option.bind_eq_some_iff, Option.pure_def,
        Option.some.injEq] at h
      obtain ⟨x, hx, rest, hrest, rfl⟩ := h
      simpa using ⟨hread _ _ hx, ih hrest⟩

namespace Json

variable {α : Type}

/-- A value is read back, and so is its absence. -/
theorem nullable?_ofNullable (read : Json → Option α) (write : α → Json)
    (hnull : read .null = none) (h : ∀ a, read (write a) = some a) (x : Option α) :
    nullable? read (ofNullable write x) = some x := by
  cases x with
  | none => rfl
  | some a =>
      have ha := h a
      cases hj : write a <;> simp_all [ofNullable, nullable?]

theorem list?_map {read : Json → Option α} {write : α → Json} {xs : List α}
    (h : ∀ x ∈ xs, read (write x) = some x) :
    list? read (.array (xs.map write)) = some xs :=
  mapM_map_eq_some h

theorem wholeIn?_ofNat {n : Nat} (hwide : n < 2 ^ 64) (hlimit : (n : Int) < limit) :
    wholeIn? least limit (ofNat n) = some (n : Int) := by
  have hnumber : n.toUInt64.toNat = n := by
    rw [Nat.toUInt64_eq, UInt64.toNat_ofNat_of_lt' hwide]
  simp [wholeIn?, ofNat, JsonNumber.heldIn?, hnumber, hlimit]

theorem wholeIn?_ofInt {n : Int} (hwide : -2 ^ 63 ≤ n ∧ n < 2 ^ 63) (hleast : least ≤ n)
    (hlimit : n < limit) : wholeIn? least limit (ofInt n) = some n := by
  have hnumber : (Int64.ofInt n).toInt = n :=
    Int64.toInt_ofInt_of_le hwide.1 hwide.2
  rw [ofInt, wholeIn?, JsonNumber.heldIn?_ofInt64 (by rwa [hnumber]) (by rwa [hnumber]), hnumber]

@[simp]
theorem nullable?_string? (x : Option String) :
    nullable? string? (ofNullable .string x) = some x :=
  nullable?_ofNullable string? .string rfl (fun _ => rfl) x

@[simp]
theorem nullable?_uint32? (x : Option UInt32) :
    nullable? uint32? (ofNullable (fun n => ofNat n.toNat) x) = some x := by
  apply nullable?_ofNullable uint32? (fun n => ofNat n.toNat) rfl
  intro n
  have hlt : n.toNat < 2 ^ 32 := n.toNat_lt
  have hlimit : (n.toNat : Int) < UInt32.size := by exact_mod_cast hlt
  rw [uint32?, wholeIn?_ofNat (by omega) hlimit, Option.map_some, Int.toNat_natCast,
    Nat.toUInt32_eq, UInt32.ofNat_toNat]

@[simp]
theorem nullable?_int32? (x : Option Int32) :
    nullable? int32? (ofNullable (fun n => ofInt n.toInt) x) = some x := by
  apply nullable?_ofNullable int32? (fun n => ofInt n.toInt) rfl
  intro n
  have hlow : -(Int32.size / 2 : Int) ≤ n.toInt := n.le_toInt
  have hhigh : n.toInt < (Int32.size / 2 : Int) := n.toInt_lt
  have hwide : -2 ^ 63 ≤ n.toInt ∧ n.toInt < 2 ^ 63 := by
    simp only [Int32.size] at hlow hhigh
    omega
  rw [int32?, wholeIn?_ofInt hwide hlow hhigh, Option.map_some, Int32.ofInt_toInt]

/-- What holds of every value that is read, and of the default, holds of a property. -/
theorem of_property {read : Json → Option α} {P : α → Prop} (hread : ∀ j a, read j = some a → P a)
    (hd : P d) (h : property members name read d = some a) : P a := by
  unfold property at h
  split at h
  · exact hread _ _ h
  · cases h
    exact hd

theorem of_list? {read : Json → Option α} {P : α → Prop} (hread : ∀ j a, read j = some a → P a)
    (h : list? read j = some xs) : ∀ x ∈ xs, P x := by
  unfold list? at h
  split at h
  · exact forall_of_mapM_eq_some hread h
  · contradiction

theorem of_property_list? {read : Json → Option α} {P : α → Prop}
    (hread : ∀ j a, read j = some a → P a)
    (h : property members name (list? read) [] = some xs) : ∀ x ∈ xs, P x :=
  of_property (P := fun xs => ∀ x ∈ xs, P x) (fun _ _ => of_list? hread) (by simp) h

end Json

namespace FieldType

theorem ofJsonWithin?_toJson {depth : Nat} (t : FieldType) (h : t.toJson.weight ≤ depth) :
    ofJsonWithin? depth t.toJson = some t := by
  induction t generalizing depth with
  | primitive p =>
      cases depth with
      | zero => simp [toJson, Json.weight] at h
      | succ depth =>
          simp [ofJsonWithin?, toJson, Json.single?, Primitive.ofJson?, p.ofKeyword?_keyword]
  | custom reference =>
      cases depth with
      | zero => simp [toJson, Json.weight] at h
      | succ depth => rfl
  | map key value hkey hvalue =>
      cases depth with
      | zero => simp [toJson, Json.weight] at h
      | succ depth =>
          simp only [toJson, Json.weight, Json.weightMembers] at h
          have hkey : ofJsonWithin? depth key.toJson = some key := hkey (by omega)
          have hvalue : ofJsonWithin? depth value.toJson = some value := hvalue (by omega)
          simp [ofJsonWithin?, toJson, Json.single?, Json.required, List.lookup, hkey, hvalue]

@[simp]
theorem ofJson?_toJson (t : FieldType) : ofJson? t.toJson = some t :=
  t.ofJsonWithin?_toJson le_rfl

end FieldType

/-! ## options -/

/-- Whether JSON can write a value. -/
def OptionValue.isFinite : OptionValue → Bool
  | .number x => x.isFinite
  | _ => true

theorem OptionValue.ofJson?_toJson {value : OptionValue} (h : value.isFinite) :
    ofJson? value.toJson = some value := by
  cases value with
  | flag b => rfl
  | number x => simp_all [isFinite, toJson, ofJson?, JsonNumber.toDouble]
  | text s => rfl

theorem OptionValue.isFinite_of_ofJson? {j : Json} {value : OptionValue}
    (h : ofJson? j = some value) : value.isFinite := by
  cases j with
  | bool b => cases h; rfl
  | string s => cases h; rfl
  | number n =>
      cases h
      cases n with
      | natural n => exact Double.isFinite_ofInt n.toNat_lt
      | negative n _ => exact Double.isFinite_ofInt (by have := n.le_toInt; have := n.toInt_lt; omega)
      | real x finite => exact finite
  | null => cases h
  | array items => cases h
  | object members => cases h

namespace Options

/-- Whether JSON can write every option. -/
def IsFinite (options : Options) : Prop := ∀ entry ∈ options.entries, entry.2.isFinite

instance : DecidablePred IsFinite := fun options =>
  inferInstanceAs (Decidable (∀ entry ∈ options.entries, entry.2.isFinite))

/-- An entry whose name is after the others comes last. -/
theorem insertEntry_append {name : String} {value : OptionValue}
    {entries : List (String × OptionValue)} (h : ∀ entry ∈ entries, entry.1 < name) :
    insertEntry name value entries = entries ++ [(name, value)] := by
  induction entries with
  | nil => rfl
  | cons first rest ih =>
      have hfirst := h first (.head _)
      have hne : (name == first.1) = false := by
        simp only [beq_eq_false_iff_ne, ne_eq]
        rintro rfl
        exact String.lt_irrefl _ hfirst
      have hnot : ¬ name < first.1 := String.lt_asymm hfirst
      simp [insertEntry, hne, hnot, ih fun entry hentry => h entry (.tail _ hentry)]

theorem foldl_insert {rest : List (String × OptionValue)} {options : Options}
    (h : (options.entries ++ rest).Pairwise (fun a b => a.1 < b.1)) :
    (rest.foldl (fun options (name, value) => options.insert name value) options).entries =
      options.entries ++ rest := by
  induction rest generalizing options with
  | nil => simp
  | cons first rest ih =>
      have hbefore : ∀ entry ∈ options.entries, entry.1 < first.1 := fun entry hentry =>
        (List.pairwise_append.mp h).2.2 entry hentry first (.head _)
      have hinsert : (options.insert first.1 first.2).entries = options.entries ++ [first] :=
        insertEntry_append hbefore
      rw [List.foldl_cons, ih (by simpa [hinsert] using h), hinsert]
      simp

theorem ofList_entries (options : Options) : ofList options.entries = options := by
  have hentries : (ofList options.entries).entries = options.entries :=
    foldl_insert options.ordered
  cases h : ofList options.entries
  cases options
  simp_all

theorem ofJson?_toJson {options : Options} (h : options.IsFinite) :
    ofJson? options.toJson = some options := by
  rw [toJson, ofJson?, mapM_map_eq_some]
  · simp [ofList_entries]
  · intro entry hentry
    simp [OptionValue.ofJson?_toJson (h entry hentry)]

theorem isFinite_insert {options : Options} (h : options.IsFinite) (hvalue : value.isFinite) :
    (options.insert name value).IsFinite := by
  intro entry hentry
  obtain rfl | hentry := eq_or_mem_of_mem_insertEntry hentry
  · exact hvalue
  · exact h entry hentry

theorem isFinite_foldl_insert {rest : List (String × OptionValue)} {options : Options}
    (h : options.IsFinite) (hrest : ∀ entry ∈ rest, entry.2.isFinite) :
    (rest.foldl (fun options (name, value) => options.insert name value) options).IsFinite := by
  induction rest generalizing options with
  | nil => exact h
  | cons first rest ih =>
      exact ih (isFinite_insert h (hrest first (.head _)))
        fun entry hentry => hrest entry (.tail _ hentry)

theorem isFinite_empty : empty.IsFinite := by simp [IsFinite, empty]

theorem isFinite_of_ofJson? {j : Json} {options : Options} (h : ofJson? j = some options) :
    options.IsFinite := by
  unfold ofJson? at h
  split at h
  · next members =>
      simp only [Option.bind_eq_bind, Option.bind_eq_some_iff, Option.pure_def,
        Option.some.injEq] at h
      obtain ⟨entries, hentries, rfl⟩ := h
      refine isFinite_foldl_insert isFinite_empty (forall_of_mapM_eq_some ?_ hentries)
      rintro member entry hentry
      simp only [Option.bind_eq_some_iff, Option.some.injEq] at hentry
      obtain ⟨value, hvalue, rfl⟩ := hentry
      exact OptionValue.isFinite_of_ofJson? hvalue
  · contradiction

theorem isFinite_of_property {options : Options}
    (h : Json.property members name ofJson? empty = some options) : options.IsFinite :=
  Json.of_property (fun _ _ => isFinite_of_ofJson?) isFinite_empty h

end Options

/-! ## definitions -/

namespace Schema

namespace Field

theorem ofJson?_toJson {f : Field} (h : f.options.IsFinite) : ofJson? f.toJson = some f := by
  simp [ofJson?, toJson, Json.record?, Json.required, Json.property, List.lookup, Json.string?,
    Json.bool?, Options.ofJson?_toJson h]

theorem isFinite_of_ofJson? {j : Json} {f : Field} (h : ofJson? j = some f) :
    f.options.IsFinite := by
  simp only [ofJson?, Option.bind_eq_bind, Option.bind_eq_some_iff, Option.pure_def,
    Option.some.injEq] at h
  obtain ⟨members, -, _, -, _, -, _, -, _, -, _, -, _, -, options, hoptions, rfl⟩ := h
  exact Options.isFinite_of_property hoptions

end Field

namespace Constant

theorem ofJson?_toJson {c : Constant} (h : c.options.IsFinite) : ofJson? c.toJson = some c := by
  simp [ofJson?, toJson, Json.record?, Json.property, List.lookup, Json.string?,
    Options.ofJson?_toJson h]

theorem isFinite_of_ofJson? {j : Json} {c : Constant} (h : ofJson? j = some c) :
    c.options.IsFinite := by
  simp only [ofJson?, Option.bind_eq_bind, Option.bind_eq_some_iff, Option.pure_def,
    Option.some.injEq] at h
  obtain ⟨members, -, _, -, _, -, _, -, options, hoptions, rfl⟩ := h
  exact Options.isFinite_of_property hoptions

end Constant

namespace Enumeration

/-- Whether JSON can write the options of an enumeration and of its constants. -/
def IsFinite (e : Enumeration) : Prop :=
  e.options.IsFinite ∧ ∀ c ∈ e.constants, c.options.IsFinite

theorem ofJson?_toJson {e : Enumeration} (h : e.IsFinite) : ofJson? e.toJson = some e := by
  have hconstants : Json.list? Constant.ofJson? (.array (e.constants.map Constant.toJson)) =
      some e.constants := Json.list?_map fun c hc => Constant.ofJson?_toJson (h.2 c hc)
  simp [ofJson?, toJson, Json.record?, Json.property, List.lookup, Json.string?,
    Options.ofJson?_toJson h.1, hconstants]

theorem isFinite_of_ofJson? {j : Json} {e : Enumeration} (h : ofJson? j = some e) :
    e.IsFinite := by
  simp only [ofJson?, Option.bind_eq_bind, Option.bind_eq_some_iff, Option.pure_def,
    Option.some.injEq] at h
  obtain ⟨members, -, _, -, _, -, options, hoptions, constants, hconstants, rfl⟩ := h
  exact ⟨Options.isFinite_of_property hoptions,
    Json.of_property_list? (fun _ _ => Constant.isFinite_of_ofJson?) hconstants⟩

end Enumeration

namespace Definition

/-- The options that a definition declares itself, those of its fields or constants included. -/
def ownOptions : Definition → List Options
  | .message head _ => head.options :: head.fields.map Field.options
  | .enumeration e => e.options :: e.constants.map Constant.options

/-- Whether JSON can write the options of a definition and of all definitions inside it. -/
def IsFinite (d : Definition) : Prop :=
  ∀ part ∈ d.preorder, ∀ options ∈ part.ownOptions, options.IsFinite

instance : DecidablePred IsFinite := fun d =>
  inferInstanceAs (Decidable (∀ part ∈ d.preorder, ∀ options ∈ part.ownOptions, options.IsFinite))

theorem mem_preorderAll {part : Definition} {ds : List Definition} :
    part ∈ preorderAll ds ↔ ∃ d ∈ ds, part ∈ d.preorder := by
  induction ds with
  | nil => simp [preorderAll]
  | cons d ds ih => simp [preorderAll, ih]

theorem isFinite_message : (message head nested).IsFinite ↔
    head.options.IsFinite ∧ (∀ f ∈ head.fields, f.options.IsFinite) ∧
      ∀ d ∈ nested, d.IsFinite := by
  constructor
  · intro h
    have hown := h (message head nested) (by simp [preorder])
    simp only [ownOptions, List.forall_mem_cons, List.forall_mem_map] at hown
    exact ⟨hown.1, hown.2, fun d hd part hpart =>
      h part (.tail _ (mem_preorderAll.mpr ⟨d, hd, hpart⟩))⟩
  · rintro ⟨hoptions, hfields, hnested⟩ part hpart
    obtain rfl | hpart := List.mem_cons.mp hpart
    · simpa [ownOptions] using ⟨hoptions, hfields⟩
    · obtain ⟨d, hd, hpart⟩ := mem_preorderAll.mp hpart
      exact hnested d hd part hpart

theorem isFinite_enumeration : (enumeration e).IsFinite ↔ e.IsFinite := by
  simp [IsFinite, preorder, ownOptions, Enumeration.IsFinite]

mutual

theorem ofJsonWithin?_toJson {depth : Nat} : (d : Definition) → d.IsFinite →
    d.toJson.weight ≤ depth → ofJsonWithin? depth d.toJson = some d
  | .message head nested, hfinite, h => by
      obtain ⟨hoptions, hfields, hnested⟩ := isFinite_message.mp hfinite
      cases depth with
      | zero => simp [toJson, Json.weight] at h
      | succ depth =>
          have hfields : Json.list? Field.ofJson? (.array (head.fields.map Field.toJson)) =
              some head.fields := Json.list?_map fun f hf => Field.ofJson?_toJson (hfields f hf)
          simp only [toJson, Json.weight, Json.weightMembers] at h
          have hnested : Json.list? (ofJsonWithin? depth) (.array (listToJson nested)) =
              some nested := mapM_listToJson nested hnested (by omega)
          simp [ofJsonWithin?, toJson, Json.single?, Json.record?, headOfMembers?, Json.property,
            List.lookup, Json.string?, Json.bool?, Options.ofJson?_toJson hoptions, hfields,
            hnested]
  | .enumeration e, hfinite, h => by
      cases depth with
      | zero => simp [toJson, Json.weight] at h
      | succ depth =>
          simp [ofJsonWithin?, toJson, Json.single?,
            Enumeration.ofJson?_toJson (isFinite_enumeration.mp hfinite)]

theorem mapM_listToJson {depth : Nat} : (ds : List Definition) → (∀ d ∈ ds, d.IsFinite) →
    Json.weightItems (listToJson ds) ≤ depth →
      (listToJson ds).mapM (ofJsonWithin? depth) = some ds
  | [], _, _ => rfl
  | d :: rest, hfinite, h => by
      rw [listToJson, Json.weightItems] at h
      have hd : ofJsonWithin? depth d.toJson = some d :=
        ofJsonWithin?_toJson d (hfinite d (.head _)) (by omega)
      have hrest : (listToJson rest).mapM (ofJsonWithin? depth) = some rest :=
        mapM_listToJson rest (fun d hd => hfinite d (.tail _ hd)) (by omega)
      rw [listToJson, List.mapM_cons, hd, hrest]
      rfl

end

theorem ofJson?_toJson {d : Definition} (h : d.IsFinite) : ofJson? d.toJson = some d :=
  d.ofJsonWithin?_toJson h le_rfl

theorem isFinite_of_ofJsonWithin? {depth : Nat} {j : Json} {d : Definition}
    (h : ofJsonWithin? depth j = some d) : d.IsFinite := by
  induction depth generalizing j d with
  | zero => contradiction
  | succ depth ih =>
      simp only [ofJsonWithin?, Option.bind_eq_bind, Option.bind_eq_some_iff] at h
      obtain ⟨member, -, h⟩ := h
      split at h
      · simp only [headOfMembers?, Option.bind_eq_bind, Option.bind_eq_some_iff, Option.pure_def,
          Option.some.injEq] at h
        obtain ⟨members, -, head, ⟨_, -, _, -, options, hoptions, _, -, _, -, _, -, fields, hfields,
          rfl⟩, nested, hnested, rfl⟩ := h
        exact isFinite_message.mpr ⟨Options.isFinite_of_property hoptions,
          Json.of_property_list? (fun _ _ => Field.isFinite_of_ofJson?) hfields,
          Json.of_property_list? (fun _ _ => ih) hnested⟩
      · simp only [Option.bind_eq_some_iff, Option.pure_def, Option.some.injEq] at h
        obtain ⟨e, he, rfl⟩ := h
        exact isFinite_enumeration.mpr (Enumeration.isFinite_of_ofJson? he)
      · contradiction

end Definition

/-! ## files and schemas -/

namespace File

/-- Whether JSON can write the options of a file and of all its definitions. -/
def IsFinite (f : File) : Prop := f.options.IsFinite ∧ ∀ d ∈ f.definitions, d.IsFinite

instance : DecidablePred IsFinite := fun f =>
  inferInstanceAs (Decidable (f.options.IsFinite ∧ ∀ d ∈ f.definitions, d.IsFinite))

theorem ofJson?_toJson {f : File} (h : f.IsFinite) : ofJson? f.toJson = some f := by
  have hdefinitions : Json.list? Definition.ofJson? (.array (f.definitions.map Definition.toJson)) =
      some f.definitions := Json.list?_map fun d hd => Definition.ofJson?_toJson (h.2 d hd)
  simp [ofJson?, toJson, Json.record?, Json.property, List.lookup, Json.string?,
    Options.ofJson?_toJson h.1, hdefinitions]

theorem isFinite_of_ofJson? {j : Json} {f : File} (h : ofJson? j = some f) : f.IsFinite := by
  simp only [ofJson?, Option.bind_eq_bind, Option.bind_eq_some_iff, Option.pure_def,
    Option.some.injEq] at h
  obtain ⟨members, -, _, -, _, -, _, -, options, hoptions, definitions, hdefinitions, rfl⟩ := h
  exact ⟨Options.isFinite_of_property hoptions,
    Json.of_property_list? (fun _ _ => Definition.isFinite_of_ofJsonWithin?) hdefinitions⟩

end File

namespace OptionSet

theorem ofJson?_toJson {set : OptionSet} (h : set.options.IsFinite) :
    ofJson? set.toJson = some set := by
  simp [ofJson?, toJson, Json.record?, Json.property, List.lookup, Json.string?,
    Options.ofJson?_toJson h]

theorem isFinite_of_ofJson? {j : Json} {set : OptionSet} (h : ofJson? j = some set) :
    set.options.IsFinite := by
  simp only [ofJson?, Option.bind_eq_bind, Option.bind_eq_some_iff, Option.pure_def,
    Option.some.injEq] at h
  obtain ⟨members, -, _, -, _, -, options, hoptions, rfl⟩ := h
  exact Options.isFinite_of_property hoptions

end OptionSet

/-- Whether JSON can write all options of a schema. -/
def IsFinite (s : Schema) : Prop :=
  (∀ file ∈ s.files, file.IsFinite) ∧ ∀ set ∈ s.options, set.options.IsFinite

instance : DecidablePred IsFinite := fun s =>
  inferInstanceAs (Decidable
    ((∀ file ∈ s.files, file.IsFinite) ∧ ∀ set ∈ s.options, set.options.IsFinite))

theorem ofJson?_toJson {s : Schema} (h : s.IsFinite) : ofJson? s.toJson = some s := by
  have hfiles : Json.list? File.ofJson? (.array (s.files.map File.toJson)) = some s.files :=
    Json.list?_map fun file hfile => File.ofJson?_toJson (h.1 file hfile)
  have hsets : Json.list? OptionSet.ofJson? (.array (s.options.map OptionSet.toJson)) =
      some s.options := Json.list?_map fun set hset => OptionSet.ofJson?_toJson (h.2 set hset)
  simp [ofJson?, toJson, Json.member?, List.lookup, hfiles, hsets]

theorem isFinite_of_ofJson? {j : Json} {s : Schema} (h : ofJson? j = some s) : s.IsFinite := by
  unfold ofJson? at h
  split at h
  · simp only [Option.bind_eq_bind, Option.bind_eq_some_iff, Option.pure_def,
      Option.some.injEq] at h
    obtain ⟨files, hfiles, sets, hsets, rfl⟩ := h
    refine ⟨Json.of_list? (fun _ _ => File.isFinite_of_ofJson?) hfiles, ?_⟩
    cases hmember : j.member? "options" with
    | none =>
        rw [hmember] at hsets
        cases hsets
        simp
    | some value =>
        rw [hmember] at hsets
        exact Json.of_list? (fun _ _ => OptionSet.isFinite_of_ofJson?) hsets
  · obtain ⟨file, hfile, rfl⟩ := Option.map_eq_some_iff.mp h
    simpa [IsFinite] using File.isFinite_of_ofJson? hfile

/-- A schema is read back from its document if JSON can write its options, and only then; every
schema that comes from a document is such. -/
theorem documents_round_trip (s : Schema) :
    (ofJson? s.toJson = some s ↔ s.IsFinite) ∧
      ∀ j, ofJson? j = some s → ofJson? s.toJson = some s :=
  ⟨⟨isFinite_of_ofJson?, ofJson?_toJson⟩, fun _ h => ofJson?_toJson (isFinite_of_ofJson? h)⟩

/-- A schema of two files, with definitions inside definitions, a map of maps and options of every
kind. -/
def library : Schema where
  files := [
    { name := "catalogue"
      package := some "books"
      options := .ofList [("weight", .number (.ofInt (-3))), ("cached", .flag true)]
      definitions := [
        .message { name := "Shelf", docs := some "A row of books.", isAbstract := true }
          [.message
            { name := "Slot", extends? := some "Shelf", id := some 7
              fields := [
                { name := "index", index := some 3
                  type := .map (.primitive .string)
                    (.map (.primitive .int32) (.custom "Slot"))
                  options := .ofList [("label", .text "by title")] },
                { name := "notes", type := .primitive .bytes, repeated := true
                  transient := true }] }
            [.enumeration { name := "State", constants := [
              { name := "free" }, { name := "lent", index := some (-1), docs := some "" }] }]]] },
    { name := "loans" }]
  options := [{ name := "defaults", options := .ofList [("strict", .flag false)] }]

/-- A document of a single file, whose last properties are missing. -/
def pamphlet : Json :=
  .object [("name", .string "pamphlet"), ("options", .object [("pages", .ofNat 12)]),
    ("definitions", .array [.object [("message", .array [.string "Page"])]])]

theorem documents_round_trip_library :
    library.IsFinite ∧ ofJson? library.toJson = some library ∧
      ∃ s, ofJson? pamphlet = some s ∧ ofJson? s.toJson = some s := by
  have hfinite : library.IsFinite := by decide +kernel
  have hread : (ofJson? pamphlet).isSome := by decide +kernel
  obtain ⟨s, hs⟩ := Option.isSome_iff_exists.mp hread
  exact ⟨hfinite, (documents_round_trip library).1.mpr hfinite, s, hs,
    (documents_round_trip s).2 pamphlet hs⟩

end Schema

end Missive
