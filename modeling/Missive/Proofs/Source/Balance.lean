import Missive.Proofs.Source.Generation

/-!
# Missive.Proofs.Source.Balance

The blocks of emitted code: what is opened is closed.

Every part of the emitted code begins and ends its blocks piece by piece, on each of its branches.
One lemma a part counts them: the part leaves the count of open blocks as it was, so that it can be
put anywhere.  The lemmas are `simp` lemmas, and the count of a part follows from its own pieces and
from the counts of the parts inside it.
-/

namespace Missive.Source

variable {m : Model} {ctx : Context} {view : MessageView} {runtime : String}
  {code code' : Code} {fields : List FieldView} {f : FieldView} {cases : Cases} {id : MessageId}
  {hasBase : Bool} {depth : Nat}

@[simp ↓]
theorem openAfter_when_append {condition : Bool} : openAfter (when condition code ++ code') depth =
    if condition then openAfter (code ++ code') depth else openAfter code' depth :=
  openAfter_ite_append

@[simp ↓]
theorem openAfter_when {condition : Bool} : openAfter (when condition code) depth =
    if condition then openAfter code depth else some depth := openAfter_ite

@[simp]
theorem balanced_when {condition : Bool} :
    Balanced (when condition code) ↔ (condition = true → Balanced code) := by
  cases condition <;> simp [when]

@[simp]
theorem balanced_dispatch {arm : Case → String} {last : Option String} :
    Balanced (cases.dispatch arm last) := by
  unfold Cases.dispatch
  simp

/-! ## parts of code -/

@[simp]
theorem balanced_jsonWriteField : Balanced (jsonWriteField f) := by
  unfold jsonWriteField
  split <;> simp [statement]

@[simp]
theorem balanced_jsonReadField : Balanced (jsonReadField m f) := by
  unfold jsonReadField
  split <;> simp

@[simp]
theorem balanced_jsonFieldWriter : Balanced (jsonFieldWriter runtime fields hasBase) := by
  unfold jsonFieldWriter
  simp

@[simp]
theorem balanced_jsonFieldReader : Balanced (jsonFieldReader m runtime fields hasBase) := by
  unfold jsonFieldReader
  simp

@[simp]
theorem balanced_jsonMethods {inFamily : Bool} : Balanced (jsonMethods runtime inFamily) := by
  unfold jsonMethods
  simp

@[simp]
theorem balanced_jsonFamilyMethods : Balanced (jsonFamilyMethods m runtime id cases) := by
  unfold jsonFamilyMethods
  simp

@[simp]
theorem balanced_binaryWriteField : Balanced (binaryWriteField runtime f) := by
  unfold binaryWriteField
  split <;> simp [statement]

@[simp]
theorem balanced_binaryReadField : Balanced (binaryReadField m f) := by
  unfold binaryReadField
  split <;> simp

@[simp]
theorem balanced_binaryFieldWriter : Balanced (binaryFieldWriter runtime fields hasBase) := by
  unfold binaryFieldWriter
  simp

@[simp]
theorem balanced_binaryFieldReader : Balanced (binaryFieldReader m runtime fields hasBase) := by
  unfold binaryFieldReader
  simp

@[simp]
theorem balanced_binaryMethods {discriminated : Bool} :
    Balanced (binaryMethods runtime discriminated) := by
  unfold binaryMethods
  simp

@[simp]
theorem balanced_binaryFamilyMethods : Balanced (binaryFamilyMethods m runtime id cases) := by
  unfold binaryFamilyMethods
  simp

@[simp]
theorem balanced_propertyEntry : Balanced (propertyEntry m runtime f) := by
  unfold propertyEntry
  simp

@[simp]
theorem balanced_propertyTable : Balanced (propertyTable m runtime fields hasBase) := by
  unfold propertyTable
  simp

@[simp]
theorem balanced_propertyMethods : Balanced propertyMethods := by
  unfold propertyMethods
  simp

@[simp]
theorem balanced_propertyFamilyMethods : Balanced (propertyFamilyMethods runtime cases) := by
  unfold propertyFamilyMethods
  simp

@[simp]
theorem balanced_onStorage {a : Accessor} : Balanced (a.onStorage f) := by
  unfold Accessor.onStorage Accessor.comment
  simp

@[simp]
theorem balanced_forwarded {a : Accessor} : Balanced (a.forwarded f) := by
  unfold Accessor.forwarded Accessor.comment
  simp

@[simp]
theorem balanced_dispatched {a : Accessor} : Balanced (a.dispatched cases f) := by
  unfold Accessor.dispatched Accessor.comment
  simp

@[simp]
theorem balanced_visitFamilyMethod {g : Generics} : Balanced (visitFamilyMethod m g id cases) := by
  unfold visitFamilyMethod
  simp

@[simp]
theorem balanced_visitMethodCode {g : Generics} : Balanced (visitMethodCode m g id) := by
  unfold visitMethodCode
  split <;> simp

/-! ## code for XML -/

@[simp]
theorem balanced_xmlElementArm : Balanced (xmlElementArm view f) := by
  unfold xmlElementArm
  split <;> simp

@[simp]
theorem balanced_xmlAttributeReader : Balanced (xmlAttributeReader view) := by
  unfold xmlAttributeReader
  simp

@[simp]
theorem balanced_xmlElementReader : Balanced (xmlElementReader view) := by
  unfold xmlElementReader
  simp

@[simp]
theorem balanced_xmlFamilyMethods : Balanced (xmlFamilyMethods view) := by
  unfold xmlFamilyMethods
  simp

@[simp]
theorem balanced_xmlMethods : Balanced (xmlMethods view) := by
  unfold xmlMethods
  simp

theorem balanced_xmlStorageSurface (h : xmlStorageSurface view = .ok code) : Balanced code := by
  unfold xmlStorageSurface at h
  split at h
  · cases h
  · cases h
    simp

theorem balanced_xmlPublicSurface (h : xmlPublicSurface view = .ok code) : Balanced code := by
  cases h
  simp

/-! ## members and types -/

@[simp]
theorem balanced_structureCode : Balanced (structureCode m runtime view) := by
  unfold structureCode
  simp

@[simp]
theorem balanced_constants {features : Features} : Balanced (constants features view) := by
  unfold constants
  simp [propertyNames]

@[simp]
theorem balanced_fieldAccessors : Balanced (fieldAccessors m runtime view) := by
  unfold fieldAccessors
  simp

@[simp]
theorem balanced_discriminators {features : Features} {message : Model.Message} :
    Balanced (discriminators features message) := by
  unfold discriminators
  simp

theorem balanced_storageMembers (h : Balanced code) : Balanced (storageMembers ctx view code) := by
  unfold storageMembers
  simp [h]

@[simp]
theorem balanced_propertyTrait {typeName : String} : Balanced (propertyTrait runtime typeName) := by
  unfold propertyTrait
  simp

@[simp]
theorem balanced_traits {typeName : String} : Balanced (traits ctx typeName) := by
  unfold traits
  simp

@[simp]
theorem balanced_visitorTrait {g : Generics} : Balanced (visitorTrait m g id cases) := by
  unfold visitorTrait
  simp

@[simp]
theorem balanced_casesType {message : Model.Message} : Balanced (casesType message cases) := by
  unfold casesType
  simp

@[simp]
theorem balanced_upcasts : Balanced (upcasts m id cases) := by
  unfold upcasts
  simp

@[simp]
theorem balanced_familyMembers : Balanced (familyMembers ctx view cases) := by
  unfold familyMembers
  simp

@[simp]
theorem balanced_enumerationCode {e : Model.Enumeration} : Balanced (enumerationCode e) := by
  unfold enumerationCode
  simp

/-! ## plugins -/

/-- A plugin whose code closes the blocks that it opens. -/
structure Plugin.IsBalanced (plugin : Plugin) : Prop where
  storage : ∀ view code, plugin.storageSurface view = .ok code → Balanced code
  publicType : ∀ view code, plugin.publicSurface view = .ok code → Balanced code

theorem isBalanced_xmlPlugin : xmlPlugin.IsBalanced where
  storage _ _ h := balanced_xmlStorageSurface h
  publicType _ _ h := balanced_xmlPublicSurface h

theorem isBalanced_of_xml {plugins : List Plugin} (h : ∀ plugin ∈ plugins, plugin = xmlPlugin) :
    ∀ plugin ∈ plugins, plugin.IsBalanced := fun plugin hplugin =>
  h plugin hplugin ▸ isBalanced_xmlPlugin

theorem balanced_runPlugins {plugins : List Plugin}
    {surface : Plugin → MessageView → Except String Code}
    (hsurface : ∀ plugin ∈ plugins, ∀ code, surface plugin view = .ok code → Balanced code)
    (h : runPlugins plugins surface view = .ok code) : Balanced code := by
  obtain ⟨codes, hcodes, rfl⟩ := exists_of_runPlugins h
  refine balanced_flatten fun added hadded => ?_
  obtain ⟨plugin, hplugin, hran⟩ := exists_of_forall₂ hcodes hadded
  exact hsurface plugin hplugin added hran

/-! ## definitions -/

section Definitions

variable (hplugins : ∀ plugin ∈ ctx.plugins, plugin.IsBalanced)

include hplugins

theorem balanced_storageSurface
    (h : runPlugins ctx.plugins Plugin.storageSurface view = .ok code) : Balanced code :=
  balanced_runPlugins (fun plugin hplugin => (hplugins plugin hplugin).storage view) h

theorem balanced_publicSurface
    (h : runPlugins ctx.plugins Plugin.publicSurface view = .ok code) : Balanced code :=
  balanced_runPlugins (fun plugin hplugin => (hplugins plugin hplugin).publicType view) h

theorem balanced_dataCode (h : dataCode ctx view = .ok code) : Balanced code := by
  obtain ⟨added, hadded, rfl⟩ := dataCode_ok h
  have hmembers : Balanced (storageMembers ctx view added) :=
    balanced_storageMembers (balanced_storageSurface hplugins hadded)
  simp [hmembers]

/-- The code of a definition closes the blocks that it opens, and no others. -/
theorem balanced_definitionCode {r : Model.Reference} (h : definitionCode ctx r = .ok code) :
    Balanced code := by
  cases r with
  | enumeration id =>
      have hcode : enumerationCode (ctx.model.enumeration id) = code := Except.ok.inj h
      exact hcode ▸ balanced_enumerationCode
  | message id =>
      obtain ⟨fields, inherited, -, -, h⟩ := messageCode_ok h
      split at h
      · obtain ⟨cases, added, data, -, -, hadded, hdata, rfl⟩ := familyCode_ok h rfl
        simp [balanced_publicSurface hplugins hadded, balanced_dataCode hplugins hdata]
      · obtain ⟨data, added, hdata, hadded, rfl⟩ := concreteCode_ok h
        simp [balanced_publicSurface hplugins hadded, balanced_dataCode hplugins hdata]

end Definitions

end Missive.Source
