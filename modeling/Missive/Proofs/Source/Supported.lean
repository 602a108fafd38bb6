import Missive.Compile
import Missive.Proofs.Source.Generation

/-!
# Missive.Proofs.Source.Supported

Which schemas can be compiled.

`Supported config schema` says in terms of the settings and the declarations what can be compiled
with the plugins that come with the library: the schema is accepted, the plugins are known, and the
maps have keys and values that can travel; where XML is wanted there are no maps.  Exactly these
schemas are compiled (`compile_iff_supported`).

The types of a schema and the kinds of its model belong together (`Passes.exists_kinds`), so each
condition on fields is first one on kinds: `exists_planField_iff` for planning and
`xmlPlugin_takes_iff` for XML.
-/

namespace Missive

/-! ## types of fields -/

namespace Model

open Schema

variable {m linked : Model} {schema : Schema} {type : FieldType} {kind : Kind}

/-- A type that the keys of a map may have: neither a message nor a floating-point number, bytes or
a map. -/
def SupportedKey (schema : Schema) : FieldType → Prop
  | .primitive p => p ≠ .float ∧ p ≠ .double ∧ p ≠ .bytes
  | .custom reference => ∀ head nested, ¬ Names schema reference (.message head nested)
  | .map .. => False

/-- A type that a field may have. -/
def SupportedType (schema : Schema) (type : FieldType) : Prop :=
  ∀ key value, type = .map key value → SupportedKey schema key ∧ value.isMap = false

def Kind.isMap : Kind → Bool
  | .map .. => true
  | _ => false

theorem exists_planValue_iff : (∃ plan, m.planValue kind = .ok plan) ↔ kind.isMap = false := by
  cases kind <;> simp [planValue, Kind.isMap]

theorem exists_planKey_primitive_iff {p : Primitive} :
    (∃ plan, m.planKey (.primitive p) = .ok plan) ↔ p ≠ .float ∧ p ≠ .double ∧ p ≠ .bytes := by
  cases p <;> simp [planKey, planValue]

/-- A field can travel if it is no map, or one that is not repeated and whose keys and values can
travel. -/
theorem exists_planField_iff {f : Field} : (∃ plan, m.planField f = .ok plan) ↔
    ∀ key value, f.kind = .map key value → f.repeated = false ∧
      (∃ plan, m.planKey key = .ok plan) ∧ ∃ plan, m.planValue value = .ok plan := by
  unfold planField planKind
  cases hkind : f.kind with
  | map key value =>
      cases f.repeated with
      | true => simp
      | false =>
          simp only [Kind.map.injEq, true_and, Except.exists_bind_eq_ok_iff, Except.pure_eq_ok,
            Except.ok.injEq, exists_eq', and_true, exists_and_right]
          constructor
          · rintro hplans _ _ ⟨rfl, rfl⟩
            exact hplans
          · intro hplans
            exact hplans key value ⟨rfl, rfl⟩
  | primitive p => cases f.repeated <;> simp [planValue]
  | message id => cases f.repeated <;> simp [planValue]
  | enumeration id => cases f.repeated <;> simp [planValue]

theorem isMap_of_kind (h : linked.resolveType name field type = .ok kind) :
    kind.isMap = type.isMap := by
  rw [Bool.eq_iff_iff, isMap_of_resolveType h]
  cases kind <;> simp [Kind.isMap]

/-- The keys of a map can travel if their type is one of those that keys may have. -/
theorem exists_planKey_iff (hlinked : IsLinked schema linked)
    (h : linked.resolveType name field type = .ok kind) :
    (∃ plan, m.planKey kind = .ok plan) ↔ SupportedKey schema type := by
  cases type with
  | primitive p =>
      cases h
      exact exists_planKey_primitive_iff
  | custom reference =>
      have hmessage : ∀ id, linked.lookup reference = some (.message id) ↔
          ∃ head nested, (heads schema)[id]? = some head ∧
            Names schema reference (.message head nested) := by
        intro id
        rw [hlinked.lookup_eq, lookup_register_message hlinked.nodup]
      rw [resolveType] at h
      split at h
      · next id hlookup =>
          cases h
          obtain ⟨head, nested, -, hnames⟩ := (hmessage id).mp hlookup
          refine iff_of_false (by simp [planKey]) fun hnone => hnone head nested hnames
      · next id hlookup =>
          cases h
          refine iff_of_true ⟨_, rfl⟩ fun head nested hnames => ?_
          obtain ⟨id', hid'⟩ := exists_getElem?_heads hnames.1
          have hfound := (hmessage id').mpr ⟨head, nested, hid', hnames⟩
          rw [hlookup] at hfound
          cases hfound
      · contradiction
  | map key value =>
      obtain ⟨k, -, h'⟩ := Except.bind_eq_ok h
      obtain ⟨v, -, h''⟩ := Except.bind_eq_ok h'
      cases h''
      simp [planKey, planValue, SupportedKey]

/-! ## declared fields and their kinds -/

/-- A field `f` has the kind that its declared type stands for. -/
structure Field.HasKind (linked : Model) (declared : Schema.Field) (f : Field) : Prop where
  kind : ∃ name, linked.resolveType name declared.name declared.type = .ok f.kind
  repeated : f.repeated = true → f.kind.isMap = false

theorem hasKind_of_resolveField {f : Schema.Field} {f' : Field}
    (h : linked.resolveField name f = .ok f') : f'.HasKind linked f := by
  obtain ⟨kind, hkind, h'⟩ := Except.bind_eq_ok h
  split at h'
  · contradiction
  · next hmap =>
      cases h'
      refine ⟨⟨name, hkind⟩, fun hrepeated => ?_⟩
      rw [← Bool.not_eq_true]
      intro hkindMap
      obtain ⟨key, value, heq⟩ := (isMap_of_resolveType hkind).mp (isMap_of_kind hkind ▸ hkindMap)
      exact hmap key value hrepeated heq

/-- The fields of an accepted schema have the kinds that their types stand for. -/
theorem Passes.exists_kinds (h : Passes schema draft m) : ∃ linked, IsLinked schema linked ∧
    List.Forall₂ (fun head message =>
      List.Forall₂ (Field.HasKind linked) head.fields message.fields)
      (heads schema) m.messages := by
  obtain ⟨m₀, hresolve, hsame, -⟩ := h.resolved
  obtain ⟨linked, fields, hlinked, -, -, hfields, rfl⟩ := resolve_eq_ok_iff.mp hresolve
  refine ⟨linked, hlinked, ?_⟩
  have hkinds : List.Forall₂ (fun head message =>
      List.Forall₂ (Field.HasKind linked) head.fields message.fields) (heads schema)
        draft.messages := by
    rw [hsame]
    refine forall₂_zipWith (R := fun _ _ => True) (fun head _ resolved _ hresolved => ?_)
      (hlinked.forall₂_isRegistered.imp fun _ _ _ => trivial)
      (Except.forall₂_of_mapM_eq_ok hfields)
    exact (Except.forall₂_of_mapM_eq_ok hresolved).imp fun _ _ => hasKind_of_resolveField
  -- numbering gives fields their tags and keys, and nothing else
  refine forall₂_trans (fun head message message' hkind hnumbered => ?_) hkinds h.forall₂_message
  obtain ⟨id, rfl, rfl⟩ := hnumbered
  refine forall₂_trans (fun f₀ f f' hf hf' => ?_) hkind
    ((h.fields id).forall₂_isIdentified (h.untagged id))
  rw [hf'.same]
  exact ⟨hf.kind, hf.repeated⟩

theorem Field.HasKind.isMap {f₀ : Schema.Field} {f : Field} (h : f.HasKind linked f₀) :
    f.kind.isMap = f₀.type.isMap := by
  obtain ⟨name, hkind⟩ := h.kind
  exact isMap_of_kind hkind

/-- A field can travel if its type is one that fields may have. -/
theorem Field.HasKind.exists_planField_iff {f₀ : Schema.Field} {f : Field}
    (hlinked : IsLinked schema linked) (h : f.HasKind linked f₀) :
    (∃ plan, m.planField f = .ok plan) ↔ SupportedType schema f₀.type := by
  rw [Model.exists_planField_iff, SupportedType]
  obtain ⟨name, hkind⟩ := h.kind
  cases htype : f₀.type with
  | map key value =>
      rw [htype] at hkind
      obtain ⟨k, hk, h'⟩ := Except.bind_eq_ok hkind
      obtain ⟨v, hv, h''⟩ := Except.bind_eq_ok h'
      have hmap : f.kind = .map k v := (Except.ok.inj h'').symm
      have hsingle : f.repeated = false := by
        rw [← Bool.not_eq_true]
        intro hrepeated
        have hnot := h.repeated hrepeated
        rw [hmap] at hnot
        contradiction
      rw [hmap, hsingle]
      simp only [Kind.map.injEq, FieldType.map.injEq, and_imp, true_and]
      constructor
      · rintro hplans _ _ rfl rfl
        obtain ⟨hplan, hplan'⟩ := hplans k v rfl rfl
        rw [exists_planKey_iff hlinked hk] at hplan
        rw [exists_planValue_iff, isMap_of_kind hv] at hplan'
        exact ⟨hplan, hplan'⟩
      · rintro hsupported _ _ rfl rfl
        obtain ⟨hkey, hvalue⟩ := hsupported key value rfl rfl
        rw [exists_planKey_iff hlinked hk, exists_planValue_iff, isMap_of_kind hv]
        exact ⟨hkey, hvalue⟩
  | _ =>
      have hnot := h.isMap
      rw [htype] at hnot
      refine iff_of_true (fun key value hmap => ?_) (by simp)
      rw [hmap] at hnot
      contradiction

/-- What holds of all fields of a model, said of the fields that its schema declares. -/
theorem forall_fields_iff {P : Schema.Field → Prop} {Q : Field → Prop}
    (h : ofSchema schema = .ok m)
    (hPQ : ∀ linked f₀ f, IsLinked schema linked → Field.HasKind linked f₀ f → (P f₀ ↔ Q f)) :
    (∀ id, ∀ f ∈ (m.message id).fields, Q f) ↔ ∀ head ∈ heads schema, ∀ f ∈ head.fields, P f := by
  obtain ⟨draft, hpasses⟩ := passes_of_ofSchema h
  obtain ⟨linked, hlinked, hkinds⟩ := hpasses.exists_kinds
  have hall : (∀ head ∈ heads schema, ∀ f ∈ head.fields, P f) ↔
      ∀ message ∈ m.messages, ∀ f ∈ message.fields, Q f :=
    forall_mem_iff_of_forall₂ (fun head message hfields =>
      forall_mem_iff_of_forall₂ (fun f₀ f hf => hPQ linked f₀ f hlinked hf) hfields) hkinds
  rw [hall]
  constructor
  · intro hid message hmessage
    obtain ⟨id, hlt, rfl⟩ := List.getElem_of_mem hmessage
    rw [← message_of_lt hlt]
    exact hid id
  · intro hmessages id
    by_cases hlt : id < m.messages.length
    · rw [message_of_lt hlt]
      exact hmessages _ (List.getElem_mem hlt)
    · intro f hf
      rw [message_of_le (Nat.le_of_not_lt hlt)] at hf
      contradiction

end Model

/-! ## the plugin for XML -/

namespace Source

variable {m : Model} {ctx : Context} {id : MessageId}

theorem isMap_of_planField {f : Model.Field} (h : m.planField f = .ok plan) :
    plan.isMap = f.kind.isMap := by
  unfold Model.planField Model.planKind at h
  split at h
  · contradiction
  · next hkind _ =>
      obtain ⟨key, -, h'⟩ := Except.bind_eq_ok h
      obtain ⟨value, -, h''⟩ := Except.bind_eq_ok h'
      cases h''
      rw [hkind]
      rfl
  · next hmap _ =>
      obtain ⟨value, hvalue, h'⟩ := Except.bind_eq_ok h
      cases h'
      exact (Model.exists_planValue_iff.mp ⟨value, hvalue⟩).symm
  · next hmap _ =>
      obtain ⟨value, hvalue, h'⟩ := Except.bind_eq_ok h
      cases h'
      exact (Model.exists_planValue_iff.mp ⟨value, hvalue⟩).symm

/-- The plugin for XML refuses the messages that declare a map. -/
theorem xmlPlugin_takes_iff (h : ownFields ctx.model id = .ok fields) :
    xmlPlugin.Takes (viewOf ctx id fields inherited) ↔
      ∀ f ∈ (ctx.model.message id).fields, f.kind.isMap = false := by
  have hplans : (∀ f ∈ (ctx.model.message id).fields, f.kind.isMap = false) ↔
      ∀ field ∈ fields, field.plan.isMap = false := by
    refine forall_mem_iff_of_forall₂ (fun f field hfield => ?_) (Except.forall₂_of_mapM_eq_ok h)
    unfold fieldView at hfield
    split at hfield
    · next plan hplan =>
        cases hfield
        rw [isMap_of_planField hplan]
    · contradiction
  have hstorage : (∃ code, xmlPlugin.storageSurface (viewOf ctx id fields inherited) = .ok code) ↔
      ∀ field ∈ fields, field.plan.isMap = false := by
    show (∃ code, xmlStorageSurface _ = _) ↔ _
    unfold xmlStorageSurface
    split
    · next field hfound =>
        have hmem := List.mem_of_find?_eq_some hfound
        have hmap := List.find?_some hfound
        refine iff_of_false (by simp) fun hall => ?_
        have hnot := hall field hmem
        cases hplan : field.plan <;> simp_all [FieldPlan.isMap]
    · next hnone =>
        refine iff_of_true ⟨_, rfl⟩ fun field hfield => ?_
        have hnot := List.find?_eq_none.mp hnone field hfield
        cases hplan : field.plan <;> simp_all [FieldPlan.isMap]
  rw [Plugin.Takes, hstorage, hplans]
  exact and_iff_left ⟨_, rfl⟩

theorem find?_builtinPlugins {name : String} {plugin : Plugin} :
    builtinPlugins.find? name = some plugin ↔ name = "xml" ∧ plugin = xmlPlugin := by
  rw [builtinPlugins, Registry.find?, List.find?_singleton]
  by_cases hname : name = "xml"
  · rw [if_pos (by rw [hname]; rfl), Option.some.injEq, eq_comm, and_iff_right hname]
  · have hne : (xmlPlugin.name == name) = false := beq_false_of_ne (Ne.symm hname)
    simp [hne, hname]

/-- With the plugins that come with the library, only XML can be chosen. -/
theorem exists_of_select_builtinPlugins {features : Features} {names : List String}
    {plugins : List Plugin} (h : builtinPlugins.select features names = .ok plugins) :
    ∃ found, List.Forall₂ (fun name p => name = "xml" ∧ p = xmlPlugin) names found ∧
      plugins = found.filter (·.enabled features) := by
  obtain ⟨found, hfound, h'⟩ := Except.bind_eq_ok h
  cases h'
  refine ⟨found, (Except.forall₂_of_mapM_eq_ok hfound).imp fun name p hp => ?_, rfl⟩
  split at hp
  · next p' hp' =>
      cases hp
      exact find?_builtinPlugins.mp hp'
  · contradiction

/-- XML runs where it is chosen and the features have it. -/
theorem select_builtinPlugins {features : Features} {names : List String} {plugins : List Plugin}
    (h : builtinPlugins.select features names = .ok plugins) {plugin : Plugin} :
    plugin ∈ plugins ↔ plugin = xmlPlugin ∧ "xml" ∈ names ∧ features.xml = true := by
  obtain ⟨found, hxml, rfl⟩ := exists_of_select_builtinPlugins h
  rw [List.mem_filter]
  constructor
  · rintro ⟨hplugin, henabled⟩
    obtain ⟨name, hname, rfl, rfl⟩ := exists_of_forall₂ hxml hplugin
    exact ⟨rfl, hname, henabled⟩
  · rintro ⟨rfl, hname, henabled⟩
    obtain ⟨p, hp, -, rfl⟩ := exists_of_forall₂ hxml.flip hname
    exact ⟨hp, henabled⟩

theorem exists_select_builtinPlugins_iff {features : Features} {names : List String} :
    (∃ plugins, builtinPlugins.select features names = .ok plugins) ↔
      ∀ name ∈ names, name = "xml" := by
  rw [exists_select_iff]
  simp [find?_builtinPlugins]

end Source

/-! ## compiling -/

open Model (heads SupportedKey SupportedType)

/-- Code for XML is wanted, and nothing turns it off. -/
def WantsXml (config : Config) (schema : Schema) : Prop :=
  "xml" ∈ config.plugins ∧ config.noXml = false ∧
    (∀ file ∈ schema.files, file.options.flag "NoXml" = false) ∧
    ∀ set ∈ schema.options, set.options.flag "NoXml" = false

/-- What can be compiled with the plugins that come with the library. -/
structure Supported (config : Config) (schema : Schema) : Prop where
  accepted : ∃ m, analyze schema = .ok m
  plugins : ∀ name ∈ config.plugins, name = "xml"
  /-- The maps, in messages at any depth, have keys and values that can travel. -/
  maps : ∀ head ∈ heads schema, ∀ f ∈ head.fields, ∀ key value, f.type = .map key value →
    SupportedKey schema key ∧ value.isMap = false
  /-- Maps have no form in XML. -/
  xml : WantsXml config schema → ∀ head ∈ heads schema, ∀ f ∈ head.fields, f.type.isMap = false

theorem analyze_eq_ok_iff {schema : Schema} {m : Model} :
    analyze schema = .ok m ↔ Model.ofSchema schema = .ok m := by
  unfold analyze
  cases Model.ofSchema schema <;> simp

theorem xml_resolve_iff {config : Config} {schema : Schema} {m : Model}
    (h : Model.SameOutline (Model.register schema) m) :
    (Features.resolve config m).xml = true ↔ config.noXml = false ∧
      (∀ file ∈ schema.files, file.options.flag "NoXml" = false) ∧
      ∀ set ∈ schema.options, set.options.flag "NoXml" = false := by
  simp [Features.resolve, Model.globalFlag, h.files, h.options, Model.register]

/-- Code comes of a model if its fields have plans and, where XML is wanted, none is a map. -/
theorem exists_generate_builtinPlugins_iff_fields {config : Config} {schema : Schema} {m : Model}
    (h : Model.SameOutline (Model.register schema) m) :
    (∃ code, Source.generate Source.builtinPlugins config m = .ok code) ↔
      (∀ name ∈ config.plugins, name = "xml") ∧ (∀ id, Source.Plannable m id) ∧
      (WantsXml config schema → ∀ id, ∀ f ∈ (m.message id).fields, f.kind.isMap = false) := by
  rw [Source.exists_generate_iff _ _ h]
  constructor
  · rintro ⟨plugins, hselect, hplan, htakes⟩
    refine ⟨Source.exists_select_builtinPlugins_iff.mp ⟨plugins, hselect⟩, hplan, ?_⟩
    rintro ⟨hlisted, hon⟩ id
    have hchosen : Source.xmlPlugin ∈ plugins := (Source.select_builtinPlugins hselect).mpr
      ⟨rfl, hlisted, (xml_resolve_iff h).mpr hon⟩
    by_cases hid : id < m.messages.length
    · obtain ⟨fields, hfields⟩ := Source.exists_ownFields_iff.mpr (hplan id)
      obtain ⟨inherited, hinherited⟩ := Source.exists_inheritedFields_iff.mpr fun a _ => hplan a
      exact (Source.xmlPlugin_takes_iff hfields).mp
        (htakes id hid fields inherited hfields hinherited _ hchosen)
    · rw [Model.message_of_le (Nat.le_of_not_lt hid)]
      exact fun f hf => nomatch hf
  · rintro ⟨hnames, hplan, hxml⟩
    obtain ⟨plugins, hselect⟩ := Source.exists_select_builtinPlugins_iff.mpr hnames
    refine ⟨plugins, hselect, hplan, ?_⟩
    intro id hid fields inherited hfields hinherited plugin hplugin
    obtain ⟨rfl, hlisted, hon⟩ := (Source.select_builtinPlugins hselect).mp hplugin
    rw [Source.xmlPlugin_takes_iff hfields]
    exact hxml ⟨hlisted, (xml_resolve_iff h).mp hon⟩ id

/-- For an accepted schema, each condition on the model is one on the declarations. -/
theorem exists_generate_builtinPlugins_iff {config : Config} {schema : Schema} {m : Model}
    (h : Model.ofSchema schema = .ok m) :
    (∃ code, Source.generate Source.builtinPlugins config m = .ok code) ↔
      (∀ name ∈ config.plugins, name = "xml") ∧
      (∀ head ∈ heads schema, ∀ f ∈ head.fields, SupportedType schema f.type) ∧
      (WantsXml config schema →
        ∀ head ∈ heads schema, ∀ f ∈ head.fields, f.type.isMap = false) := by
  have hplans : (∀ id, Source.Plannable m id) ↔
      ∀ head ∈ heads schema, ∀ f ∈ head.fields, SupportedType schema f.type :=
    Model.forall_fields_iff h fun linked f₀ f hlinked hf => (hf.exists_planField_iff hlinked).symm
  have hmaps : (∀ id, ∀ f ∈ (m.message id).fields, f.kind.isMap = false) ↔
      ∀ head ∈ heads schema, ∀ f ∈ head.fields, f.type.isMap = false :=
    Model.forall_fields_iff h fun linked f₀ f _ hf => by rw [hf.isMap]
  rw [exists_generate_builtinPlugins_iff_fields (Model.sameOutline_of_ofSchema h), hplans, hmaps]

/-- **Compiling** succeeds exactly on the schemas that are supported: an accepted schema, plugins
that are known, maps whose keys and values can travel and, where XML is wanted, no maps. -/
theorem compile_iff_supported (config : Config) (schema : Schema) :
    (∃ code, compile Source.builtinPlugins config schema = .ok code) ↔
      Supported config schema := by
  rw [compile, Except.exists_bind_eq_ok_iff]
  simp only [Except.exists_bind_eq_ok_iff, Except.pure_eq_ok, Except.ok.injEq, exists_eq', and_true]
  constructor
  · rintro ⟨m, hm, hcode⟩
    obtain ⟨hnames, hmaps, hxml⟩ :=
      (exists_generate_builtinPlugins_iff (analyze_eq_ok_iff.mp hm)).mp hcode
    exact ⟨⟨m, hm⟩, hnames, hmaps, hxml⟩
  · rintro ⟨⟨m, hm⟩, hnames, hmaps, hxml⟩
    exact ⟨m, hm, (exists_generate_builtinPlugins_iff (analyze_eq_ok_iff.mp hm)).mpr
      ⟨hnames, hmaps, hxml⟩⟩

end Missive
