import Missive.Proofs.Model.Units
import Missive.Proofs.Source.Block
import Missive.Source.Module

/-!
# Missive.Proofs.Source.Generation

When the code of a model can be generated, and what it consists of.

Generating fails where a plugin is not known, where a field cannot travel, or where a plugin refuses
a message.  One statement a function says when it succeeds, up to the whole model
(`exists_generate_iff`): every message is reached, because the units list every definition.  Another
one a function says what parts its code has (`messageCode_ok`, `unitOf_ok`).
-/

namespace Missive.Source

open Model (Reference)

variable {m : Model} {ctx : Context} {view : MessageView} {id : MessageId}

/-! ## plugins -/

theorem exists_select_iff {registry : Registry} {features : Features} {names : List String} :
    (∃ plugins, registry.select features names = .ok plugins) ↔
      ∀ name ∈ names, ∃ plugin, registry.find? name = some plugin := by
  unfold Registry.select
  rw [Except.exists_bind_eq_ok_iff]
  simp only [Except.pure_eq_ok, Except.ok.injEq, exists_eq', and_true,
    Except.exists_mapM_eq_ok_iff]
  refine forall₂_congr fun name _ => ?_
  cases registry.find? name <;> simp

theorem exists_runPlugins_iff {plugins : List Plugin}
    {surface : Plugin → MessageView → Except String Code} :
    (∃ code, runPlugins plugins surface view = .ok code) ↔
      ∀ plugin ∈ plugins, ∃ code, surface plugin view = .ok code := by
  unfold runPlugins
  rw [Except.exists_bind_eq_ok_iff]
  simp only [Except.pure_eq_ok, Except.ok.injEq, exists_eq', and_true,
    Except.exists_mapM_eq_ok_iff]
  refine forall₂_congr fun plugin _ => ?_
  cases surface plugin view <;> simp

/-! ## fields -/

theorem exists_fieldView_iff {owner : String} {f : Model.Field} :
    (∃ field, fieldView m owner f = .ok field) ↔ ∃ plan, m.planField f = .ok plan := by
  unfold fieldView
  cases m.planField f <;> simp

/-- The fields that a message declares can travel. -/
def Plannable (m : Model) (id : MessageId) : Prop :=
  ∀ f ∈ (m.message id).fields, ∃ plan, m.planField f = .ok plan

theorem exists_ownFields_iff : (∃ fields, ownFields m id = .ok fields) ↔ Plannable m id := by
  rw [ownFields, Except.exists_mapM_eq_ok_iff]
  simp only [exists_fieldView_iff, Plannable]

theorem exists_inheritedFields_iff :
    (∃ fields, inheritedFields m id = .ok fields) ↔ ∀ a ∈ m.ancestors id, Plannable m a := by
  rw [inheritedFields, Except.exists_bind_eq_ok_iff]
  simp only [Except.pure_eq_ok, Except.ok.injEq, exists_eq', and_true,
    Except.exists_mapM_eq_ok_iff, exists_ownFields_iff]

/-! ## messages -/

theorem exists_dataCode_iff : (∃ code, dataCode ctx view = .ok code) ↔
    ∀ plugin ∈ ctx.plugins, ∃ code, plugin.storageSurface view = .ok code := by
  rw [dataCode, Except.exists_bind_eq_ok_iff]
  simp only [Except.pure_eq_ok, Except.ok.injEq, exists_eq', and_true, exists_runPlugins_iff]

/-- The view of a message that plugins get for its public type. -/
def MessageView.public (view : MessageView) : MessageView :=
  { view with typeName := Source.typeName view.message.name }

/-- A plugin refuses a message neither with its fields nor with its public type. -/
def Plugin.Takes (plugin : Plugin) (view : MessageView) : Prop :=
  (∃ code, plugin.storageSurface view = .ok code) ∧
    ∃ code, plugin.publicSurface view.public = .ok code

theorem exists_familyCode_iff (hmodel : view.model = ctx.model) :
    (∃ code, familyCode ctx view = .ok code) ↔ ∀ plugin ∈ ctx.plugins, plugin.Takes view := by
  have hname : (Cases.of ctx.model view.id).typeName = typeName view.message.name := by
    rw [MessageView.message, hmodel, Cases.of]
  have hpublic : { view with typeName := (Cases.of ctx.model view.id).typeName } = view.public := by
    rw [MessageView.public, hname]
  rw [familyCode, Except.exists_bind_eq_ok_iff]
  simp only [hpublic, Except.exists_bind_eq_ok_iff, Except.pure_eq_ok, Except.ok.injEq,
    exists_eq', and_true, exists_dataCode_iff, exists_and_right, exists_runPlugins_iff]
  simp only [Plugin.Takes, forall_and, and_comm]

theorem exists_concreteCode_iff (hname : view.typeName = typeName view.message.name) :
    (∃ code, concreteCode ctx view = .ok code) ↔ ∀ plugin ∈ ctx.plugins, plugin.Takes view := by
  have hpublic : view.public = view := by
    rw [MessageView.public, ← hname]
  rw [concreteCode, Except.exists_bind_eq_ok_iff]
  simp only [Except.exists_bind_eq_ok_iff, Except.pure_eq_ok, Except.ok.injEq, exists_eq', and_true,
    exists_and_right, exists_dataCode_iff, exists_runPlugins_iff]
  simp only [Plugin.Takes, forall_and, hpublic]

/-- The view of a message with its fields. -/
def viewOf (ctx : Context) (id : MessageId) (fields inherited : List FieldView) : MessageView :=
  { model := ctx.model, id, typeName := dataName ctx.model id, runtime := ctx.runtime, fields,
    inherited }

/-- The code of a message can be generated if its fields can travel, inherited or its own, and no
plugin refuses it. -/
theorem exists_messageCode_iff : (∃ code, messageCode ctx id = .ok code) ↔
    ∃ fields, ownFields ctx.model id = .ok fields ∧
      ∃ inherited, inheritedFields ctx.model id = .ok inherited ∧
        ∀ plugin ∈ ctx.plugins, plugin.Takes (viewOf ctx id fields inherited) := by
  rw [messageCode, Except.exists_bind_eq_ok_iff]
  simp only [Except.exists_bind_eq_ok_iff]
  refine exists_congr fun fields => and_congr_right fun _ => exists_congr fun inherited =>
    and_congr_right fun _ => ?_
  split
  · exact exists_familyCode_iff rfl
  · next hconcrete =>
      refine exists_concreteCode_iff ?_
      exact if_neg hconcrete

/-! ## the parts of a message -/

/-- What plugins add is the code of one after another. -/
theorem exists_of_runPlugins {plugins : List Plugin}
    {surface : Plugin → MessageView → Except String Code}
    (h : runPlugins plugins surface view = .ok code) :
    ∃ codes, List.Forall₂ (fun plugin added => surface plugin view = .ok added) plugins codes ∧
      code = codes.flatten := by
  obtain ⟨codes, hcodes, h'⟩ := Except.bind_eq_ok h
  refine ⟨codes, (Except.forall₂_of_mapM_eq_ok hcodes).imp fun plugin added hran => ?_,
    (Except.ok.inj h').symm⟩
  split at hran
  · next hsurface =>
      cases hran
      exact hsurface
  · cases hran

theorem dataCode_ok (h : dataCode ctx view = .ok code) :
    ∃ added, runPlugins ctx.plugins Plugin.storageSurface view = .ok added ∧
      code = structureCode ctx.model ctx.runtime view ++
        item s!"impl {view.typeName}" (storageMembers ctx view added) := by
  obtain ⟨added, hadded, h'⟩ := Except.bind_eq_ok h
  refine ⟨added, hadded, ?_⟩
  rw [← Except.ok.inj h', item, block]
  simp only [List.append_assoc]

theorem concreteCode_ok (h : concreteCode ctx view = .ok code) :
    ∃ data added, dataCode ctx view = .ok data ∧
      runPlugins ctx.plugins Plugin.publicSurface view = .ok added ∧
      code = data ++ traits ctx view.typeName ++ added := by
  obtain ⟨data, hdata, h'⟩ := Except.bind_eq_ok h
  obtain ⟨added, hadded, h''⟩ := Except.bind_eq_ok h'
  exact ⟨data, added, hdata, hadded, (Except.ok.inj h'').symm⟩

theorem typeName_public (view : MessageView) :
    view.public.typeName = typeName view.message.name := by
  rw [MessageView.public]

theorem familyCode_ok (h : familyCode ctx view = .ok code) (hmodel : view.model = ctx.model) :
    ∃ cases added data, cases = Cases.of ctx.model view.id ∧
      cases.typeName = typeName view.message.name ∧
      runPlugins ctx.plugins Plugin.publicSurface view.public = .ok added ∧
      dataCode ctx view = .ok data ∧
      code = when ctx.features.interfaces (visitorTrait ctx.model ctx.generics view.id cases)
        ++ casesType view.message cases ++ upcasts ctx.model view.id cases
        ++ familyMembers ctx view cases ++ traits ctx cases.typeName ++ added ++ data := by
  have hname : (Cases.of ctx.model view.id).typeName = typeName view.message.name := by
    rw [MessageView.message, hmodel, Cases.of]
  obtain ⟨added, hadded, h'⟩ := Except.bind_eq_ok h
  obtain ⟨data, hdata, h''⟩ := Except.bind_eq_ok h'
  rw [hname] at hadded
  exact ⟨_, added, data, rfl, hname, hadded, hdata, (Except.ok.inj h'').symm⟩

/-- The code of a message from its view. -/
theorem messageCode_ok (h : messageCode ctx id = .ok code) :
    ∃ fields inherited, ownFields ctx.model id = .ok fields ∧
      inheritedFields ctx.model id = .ok inherited ∧
      (if (ctx.model.message id).isAbstract then familyCode ctx (viewOf ctx id fields inherited)
        else concreteCode ctx (viewOf ctx id fields inherited)) = .ok code := by
  obtain ⟨fields, hfields, h⟩ := Except.bind_eq_ok h
  obtain ⟨inherited, hinherited, h⟩ := Except.bind_eq_ok h
  exact ⟨fields, inherited, hfields, hinherited, h⟩

/-! ## units and models -/

/-- The code of a definition; nothing if it has none. -/
def itemsOf (ctx : Context) (r : Reference) : Code := (definitionCode ctx r).toOption.getD []

/-- The code of definitions, one after another. -/
theorem mapM_definitionCode {rs : List Reference}
    (h : rs.mapM (definitionCode ctx) = .ok codes) :
    (∀ r ∈ rs, definitionCode ctx r = .ok (itemsOf ctx r)) ∧
      codes.flatten = rs.flatMap (itemsOf ctx) := by
  have hitems : ∀ r code, definitionCode ctx r = .ok code → itemsOf ctx r = code := by
    intro r code hcode
    rw [itemsOf, hcode]
    rfl
  have hall := Except.forall₂_of_mapM_eq_ok h
  refine ⟨fun r hr => ?_, ?_⟩
  · obtain ⟨code, hcode⟩ := Except.exists_mapM_eq_ok_iff.mp ⟨codes, h⟩ r hr
    rw [hcode, hitems r code hcode]
  · have hcodes : rs.map (itemsOf ctx) = codes.map id :=
      map_eq_of_forall₂ (hall.imp fun r code hcode => hitems r code hcode)
    rw [List.flatMap_def, hcodes, List.map_id]

/-- A unit has the name of its definition, and the code of what it collects. -/
theorem unitOf_ok (h : unitOf ctx root = .ok unit) :
    unit.name = ctx.model.nameOf root ∧
      unit.text = Code.render ((ctx.model.unitMembers root).flatMap (itemsOf ctx)) ∧
      ∀ r ∈ ctx.model.unitMembers root, definitionCode ctx r = .ok (itemsOf ctx r) := by
  obtain ⟨codes, hcodes, hunit⟩ := Except.bind_eq_ok h
  obtain ⟨hall, hflat⟩ := mapM_definitionCode hcodes
  cases hunit
  exact ⟨rfl, by rw [hflat], hall⟩

/-- What the definitions of a model are emitted with. -/
def contextOf (config : Config) (m : Model) (plugins : List Plugin) : Context :=
  { model := m, features := Features.resolve config m, runtime := config.runtimeCrate, plugins,
    generics := Generics.of m }

theorem generate_eq_ok_iff {registry : Registry} {config : Config} {code : CodeModule} :
    generate registry config m = .ok code ↔
      ∃ plugins, registry.select (Features.resolve config m) config.plugins = .ok plugins ∧
        m.roots.mapM (unitOf (contextOf config m plugins)) = .ok code.units := by
  constructor
  · intro h
    obtain ⟨plugins, hplugins, h'⟩ := Except.bind_eq_ok h
    obtain ⟨units, hunits, hcode⟩ := Except.bind_eq_ok h'
    cases hcode
    exact ⟨plugins, hplugins, hunits⟩
  · rintro ⟨plugins, hplugins, hunits⟩
    rw [contextOf] at hunits
    simp only [generate, hplugins, Except.ok_bind, hunits]
    rfl

theorem exists_unitOf_iff : (∃ unit, unitOf ctx root = .ok unit) ↔
    ∀ r ∈ ctx.model.unitMembers root, ∃ code, definitionCode ctx r = .ok code := by
  rw [unitOf, Except.exists_bind_eq_ok_iff]
  simp only [Except.pure_eq_ok, Except.ok.injEq, exists_eq', and_true,
    Except.exists_mapM_eq_ok_iff]

/-- All units can be made if the code of every message can be generated, wherever it is
declared. -/
theorem exists_units_iff (config : Config) (plugins : List Plugin)
    (h : Model.SameOutline (Model.register schema) m) :
    (∃ units, m.roots.mapM (unitOf (contextOf config m plugins)) = .ok units) ↔
      ∀ id < m.messages.length, ∃ code, messageCode (contextOf config m plugins) id = .ok code := by
  simp only [Except.exists_mapM_eq_ok_iff, exists_unitOf_iff]
  constructor
  · intro hall id hid
    have hlisted : Reference.message id ∈ m.roots.flatMap m.unitMembers :=
      (Model.mem_units h).mpr hid
    obtain ⟨root, hroot, hr⟩ := List.mem_flatMap.mp hlisted
    exact hall root hroot (.message id) hr
  · intro hall root hroot r hr
    have hhas : m.Has r := (Model.mem_units h).mp (List.mem_flatMap.mpr ⟨root, hroot, hr⟩)
    cases r with
    | message id => exact hall id hhas
    | enumeration id => exact ⟨_, rfl⟩

theorem plannable_of_le (h : m.messages.length ≤ id) : Plannable m id := by
  intro f hf
  rw [Model.message_of_le h] at hf
  contradiction

/-- **Generating** succeeds if the plugins are known, all fields can travel, and no plugin refuses a
message. -/
theorem exists_generate_iff (registry : Registry) (config : Config)
    (h : Model.SameOutline (Model.register schema) m) :
    (∃ code, generate registry config m = .ok code) ↔
      ∃ plugins, registry.select (Features.resolve config m) config.plugins = .ok plugins ∧
        (∀ id, Plannable m id) ∧
        ∀ id < m.messages.length, ∀ fields inherited, ownFields m id = .ok fields →
          inheritedFields m id = .ok inherited → ∀ plugin ∈ plugins,
            plugin.Takes (viewOf (contextOf config m plugins) id fields inherited) := by
  constructor
  · rintro ⟨code, hcode⟩
    obtain ⟨plugins, hplugins, hunits⟩ := generate_eq_ok_iff.mp hcode
    have hall := (exists_units_iff config plugins h).mp ⟨_, hunits⟩
    simp only [exists_messageCode_iff] at hall
    refine ⟨plugins, hplugins, fun id => ?_, fun id hid fields inherited hfields hinherited => ?_⟩
    · by_cases hid : id < m.messages.length
      · obtain ⟨fields, hfields, -⟩ := hall id hid
        exact exists_ownFields_iff.mp ⟨fields, hfields⟩
      · exact plannable_of_le (Nat.le_of_not_lt hid)
    · obtain ⟨fields', hfields', inherited', hinherited', htakes⟩ := hall id hid
      obtain rfl : fields' = fields := Except.ok.inj (hfields'.symm.trans hfields)
      obtain rfl : inherited' = inherited := Except.ok.inj (hinherited'.symm.trans hinherited)
      exact htakes
  · rintro ⟨plugins, hplugins, hplan, htakes⟩
    have hall : ∀ id < m.messages.length,
        ∃ code, messageCode (contextOf config m plugins) id = .ok code := by
      intro id hid
      obtain ⟨fields, hfields⟩ := exists_ownFields_iff.mpr (hplan id)
      obtain ⟨inherited, hinherited⟩ := exists_inheritedFields_iff.mpr fun a _ => hplan a
      exact exists_messageCode_iff.mpr ⟨fields, hfields, inherited, hinherited,
        htakes id hid fields inherited hfields hinherited⟩
    obtain ⟨units, hunits⟩ := (exists_units_iff config plugins h).mpr hall
    exact ⟨⟨units⟩, generate_eq_ok_iff.mpr ⟨plugins, hplugins, hunits⟩⟩

end Missive.Source
