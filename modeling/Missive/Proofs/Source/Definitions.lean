import Missive.Proofs.Source.Items
import Missive.Schema.Build

/-!
# Missive.Proofs.Source.Definitions

Every definition is emitted once.

The units of a model list its definitions, each in one place, and a unit has the code of what it
lists.  That code declares the type of its definition, whatever plugins add to it
(`typeName_mem_itemNames`).
-/

namespace Missive.Source

open Model (Reference)

variable {m : Model} {ctx : Context} {view : MessageView} {code : Code}

theorem typeName_mem_of_dataCode (h : dataCode ctx view = .ok code) (hname : IsName view.typeName)
    (rest : Code) : view.typeName ∈ itemNames (code ++ rest) := by
  obtain ⟨added, -, rfl⟩ := dataCode_ok h
  rw [List.append_assoc, itemNames_append (by simp), itemNames_structureCode hname]
  exact List.mem_append_left _ (.head _)

/-- The type stands before anything that plugins add, so it is declared whatever they add. -/
theorem typeName_mem_itemNames {r : Reference} (h : definitionCode ctx r = .ok code) :
    typeName (ctx.model.nameOf r) ∈ itemNames code := by
  cases r with
  | enumeration id =>
      have hcode : enumerationCode (ctx.model.enumeration id) = code := Except.ok.inj h
      rw [← hcode, itemNames_enumerationCode]
      exact .head _
  | message id =>
      obtain ⟨fields, inherited, -, -, h⟩ := messageCode_ok h
      split at h
      · obtain ⟨cases, added, data, -, htype, -, -, rfl⟩ := familyCode_ok h rfl
        have hcases := htype ▸ isName_typeName _
        simp only [List.append_assoc]
        rw [itemNames_append (by simp), itemNames_append (by simp), itemNames_casesType hcases,
          htype]
        exact List.mem_append_right _ (List.mem_append_left _ (.head _))
      · next hconcrete =>
          have hname : typeName (ctx.model.nameOf (.message id)) =
            (viewOf ctx id fields inherited).typeName := (if_neg hconcrete).symm
          obtain ⟨data, added, hdata, -, rfl⟩ := concreteCode_ok h
          rw [List.append_assoc, hname]
          exact typeName_mem_of_dataCode hdata (hname ▸ isName_typeName _) _

/-- The code of a model, put together from the code of its definitions.  There is a unit for each
definition that stands outside of any message, and each definition is in the unit of one place; its
code declares its type. -/
structure EmitsEach (schema : Schema) (m : Model) (items : Reference → Code) (code : CodeModule) :
    Prop where
  names : code.units.map (·.name) =
    (schema.files.flatMap (·.definitions)).map Schema.Definition.name
  texts : code.units.map (·.text) =
    m.roots.map fun root => Code.render ((m.unitMembers root).flatMap items)
  once : ∀ r, m.Has r → ∃! i : Nat, ∃ root, m.roots[i]? = some root ∧ r ∈ m.unitMembers root
  declared : ∀ r, m.Has r → typeName (m.nameOf r) ∈ itemNames (items r)

/-- Units are made of the definitions that they list, one after another. -/
theorem emitsEach_of_generate {registry : Registry} {config : Config} {code : CodeModule}
    (h : Model.resolve schema = .ok m₀) (hm : Model.SameOutline m₀ m)
    (hcode : generate registry config m = .ok code) :
    ∃ plugins, registry.select (Features.resolve config m) config.plugins = .ok plugins ∧
      (∀ r, m.Has r → definitionCode (contextOf config m plugins) r =
        .ok (itemsOf (contextOf config m plugins) r)) ∧
      EmitsEach schema m (itemsOf (contextOf config m plugins)) code := by
  have houtline := (Model.sameOutline_of_resolve h).trans hm
  obtain ⟨plugins, hplugins, hunits⟩ := generate_eq_ok_iff.mp hcode
  have hall := Except.forall₂_of_mapM_eq_ok hunits
  have hitems : ∀ r, m.Has r → definitionCode (contextOf config m plugins) r =
      .ok (itemsOf (contextOf config m plugins) r) := by
    intro r hr
    obtain ⟨root, hroot, hr⟩ := List.mem_flatMap.mp ((Model.mem_units houtline).mpr hr)
    obtain ⟨unit, hunit⟩ := Except.exists_mapM_eq_ok_iff.mp ⟨_, hunits⟩ root hroot
    exact (unitOf_ok hunit).2.2 r hr
  refine ⟨plugins, hplugins, hitems, ?_, ?_, fun r hr => ?_, fun r hr => ?_⟩
  · have hnames : m.roots.map m.nameOf = code.units.map (·.name) :=
      map_eq_of_forall₂ (hall.imp fun root unit hunit => (unitOf_ok hunit).1.symm)
    rw [← hnames, ← Model.map_nameOf_roots h, hm.roots]
    exact congrArg (List.map · _) (funext hm.nameOf)
  · exact (map_eq_of_forall₂ (hall.imp fun root unit hunit => (unitOf_ok hunit).2.1.symm)).symm
  · exact Model.existsUnique_unit houtline hr
  · exact (typeName_mem_itemNames (hitems r hr) :)

/-- **Every definition is emitted once.**  The units of a schema that resolves list its definitions
in the order of the document, messages and enumerations by their numbers.  So whatever is generated
for it, with or without identifiers, has one unit for each definition outside of any message, in
order, and the code of each definition in one of them.  That code declares the type; if no plugin
runs but the one for XML, it declares the items of the definition and nothing else. -/
theorem definitions_emitted_once (h : Model.resolve schema = .ok m) :
    List.Forall₂ m.Represents (Model.definitions schema) (m.roots.flatMap m.unitMembers) ∧
      (m.roots.flatMap m.unitMembers).filterMap Reference.message? = m.messageIds ∧
      (m.roots.flatMap m.unitMembers).filterMap Reference.enumeration? = m.enumIds ∧
      ∀ m', m' = m ∨ m.identify = .ok m' →
        ∀ registry config code, generate registry config m' = .ok code →
          ∃ plugins, registry.select (Features.resolve config m') config.plugins = .ok plugins ∧
            (∀ r, m'.Has r → definitionCode (contextOf config m' plugins) r =
              .ok (itemsOf (contextOf config m' plugins) r)) ∧
            EmitsEach schema m' (itemsOf (contextOf config m' plugins)) code ∧
            ((∀ plugin ∈ plugins, plugin = xmlPlugin) → ∀ r, m'.Has r →
              itemNames (itemsOf (contextOf config m' plugins) r) =
                namesOfItems m' (Features.resolve config m').interfaces r) := by
  obtain ⟨hmessages, henums⟩ := Model.filterMap_units (Model.sameOutline_of_resolve h)
  refine ⟨Model.forall₂_units h, hmessages, henums, ?_⟩
  intro m' hm' registry config code hcode
  have houtline : Model.SameOutline m m' := by
    obtain rfl | hidentify := hm'
    · exact .refl m'
    · exact Model.sameOutline_of_identify hidentify
  obtain ⟨plugins, hplugins, hitems, hemits⟩ := emitsEach_of_generate h houtline hcode
  exact ⟨plugins, hplugins, hitems, hemits, fun hxml r hr =>
    itemNames_definitionCode hxml (hitems r hr)⟩

open Schema Schema.Definition Schema.Field in
/-- Two files; definitions inside others to the third level, before and after further ones. -/
def drawers : Schema :=
  { files := [
      { definitions := [
          ((ofFields "Chest" [ofCustom "top" "Drawer"]).withNested
            (((ofFields "Drawer" [ofPrimitive "width" .int32]).withNested
              (ofNames "Lining" ["FELT"])).withNested (ofFields "Lock" []))).withNested
            (ofNames "Wood" ["OAK"]),
          ofNames "Colour" ["RED"]] },
      { definitions := [ofFields "Shelf" [ofCustom "wood" "Wood"]] }] }

theorem definitions_emitted_once_drawers : ∃ m m' code, Model.resolve drawers = .ok m ∧
    m.identify = .ok m' ∧ generate builtinPlugins {} m' = .ok code ∧
    List.Forall₂ m.Represents (Model.definitions drawers) (m.roots.flatMap m.unitMembers) ∧
    m.roots.flatMap m.unitMembers =
      [.message 0, .message 1, .enumeration 0, .message 2, .enumeration 1, .enumeration 2,
        .message 3] ∧
    code.units.map (·.name) = ["Chest", "Colour", "Shelf"] := by
  have hmodel : (Model.resolve drawers).toOption.any (fun m => decide (
      m.roots.flatMap m.unitMembers =
        [.message 0, .message 1, .enumeration 0, .message 2, .enumeration 1, .enumeration 2,
          .message 3]) && m.identify.toOption.any fun m' =>
      m'.messageIds.all fun id => (m'.message id).fields.all fun f =>
        (m'.planField f).toOption.isSome) = true := by
    decide +kernel
  obtain ⟨m, hm, hfacts⟩ := (Option.any_eq_true _ _).mp hmodel
  obtain ⟨hlisted, hfacts⟩ := Bool.and_eq_true_iff.mp hfacts
  obtain ⟨m', hm', hplans⟩ := (Option.any_eq_true _ _).mp hfacts
  have hm := Except.toOption_eq_some.mp hm
  have hm' := Except.toOption_eq_some.mp hm'
  have houtline := (Model.sameOutline_of_resolve hm).trans (Model.sameOutline_of_identify hm')
  have hplan : ∀ id, Plannable m' id := by
    intro id
    by_cases hid : id < m'.messages.length
    · intro f hf
      have hsome := List.all_eq_true.mp (List.all_eq_true.mp hplans id
        (Model.mem_messageIds.mpr hid)) f hf
      obtain ⟨plan, hplan⟩ := Option.isSome_iff_exists.mp hsome
      exact ⟨plan, Except.toOption_eq_some.mp hplan⟩
    · exact plannable_of_le (Nat.le_of_not_lt hid)
  obtain ⟨code, hcode⟩ := (exists_generate_iff builtinPlugins {} houtline).mpr
    ⟨[], rfl, hplan, by simp⟩
  obtain ⟨hall, -, -, hgenerate⟩ := definitions_emitted_once hm
  obtain ⟨plugins, -, -, hemits, -⟩ := hgenerate m' (.inr hm') _ _ code hcode
  exact ⟨m, m', code, hm, hm', hcode, hall, of_decide_eq_true hlisted, hemits.names⟩

end Missive.Source
