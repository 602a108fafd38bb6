import Missive.Proofs.Source.Members
import Missive.Proofs.Source.Supported

/-!
# Missive.Proofs.Source.Distinct

The functions that the code of a message declares on its types, and when they are distinct.

A message has a public type and a structure that holds its fields; for a concrete message they are
the same.  Of the blocks that are emitted only those for the members of a type declare functions on
it, and the heads of all others are longer or begin with another word.  So each type has the
accessors of all fields, inherited or not, and the methods that the features and the plugins give it
(`functionsOn_messageCode`).  The accessors of accepted fields keep apart from the methods, but not
always from each other, nor from `default` and `from`, and a plugin that is chosen twice adds its
methods twice (`members_distinct_iff`).
-/

namespace Missive.Source

variable {m : Model} {ctx : Context} {view : MessageView} {id : MessageId} {cases : Cases}
  {head name type runtime : String} {body code code' : Code} {plugins : List Plugin}

/-! ## code without members -/

/-- The blocks for members begin with another letter. -/
theorem functionsOn_eq_nil_of_head (h : ∀ head ∈ outer code, head.toList.head? ≠ some 'i') :
    functionsOn type code = [] := by
  refine functionsOn_eq_nil ?_
  rintro head hhead rfl
  have hhead := h _ hhead
  simp at hhead

theorem functionsOn_structureCode : functionsOn type (structureCode m runtime view) = [] := by
  refine functionsOn_eq_nil_of_head ?_
  unfold structureCode
  dsimp only
  split <;> simp

theorem functionsOn_visitorTrait {g : Generics} :
    functionsOn type (visitorTrait m g id cases) = [] := by
  refine functionsOn_eq_nil_of_head ?_
  unfold visitorTrait
  dsimp only
  by_cases hempty : (cases.items.filter (!·.isAbstract)).isEmpty <;>
    simp [hempty, String.append_assoc]

theorem functionsOn_casesType {message : Model.Message} :
    functionsOn type (casesType message cases) = [] := by
  refine functionsOn_eq_nil_of_head ?_
  unfold casesType
  split <;> simp

/-- The block for a trait of a type is not for its members, nor for those of the structure that
belongs to the type. -/
theorem trait_ne_impl {trait : String} (h : type.length ≤ name.length + 4)
    (htrait : 4 < trait.length) : ¬ "impl " ++ runtime ++ trait ++ name = "impl " ++ type := by
  intro heq
  have hlength := congrArg String.length heq
  simp only [String.length_append] at hlength
  omega

theorem functionsOn_traits (h : type.length ≤ name.length + 4) :
    functionsOn type (traits ctx name) = [] := by
  have hjson := @trait_ne_impl name type ctx.runtime "::JsonMessage for " h (by decide)
  have hbinary := @trait_ne_impl name type ctx.runtime "::BinaryMessage for " h (by decide)
  have hreflective := @trait_ne_impl name type ctx.runtime "::Reflective for " h (by decide)
  refine functionsOn_eq_nil ?_
  unfold traits propertyTrait when
  cases ctx.features.binary <;> cases ctx.features.reflection <;>
    simp [hjson, hbinary, hreflective]

theorem functionsOn_upcasts (h : type.length ≤ cases.typeName.length + 4) :
    functionsOn type (upcasts m id cases) = [] := by
  have hconversion : ∀ name, ¬ "impl From<" ++ name ++ "> for " ++ cases.typeName =
      "impl " ++ type := by
    intro name heq
    have hwords : "impl From<".length = 10 ∧ "impl ".length = 5 := by decide
    have hlength := congrArg String.length heq
    simp only [String.length_append] at hlength
    omega
  refine functionsOn_eq_nil ?_
  unfold upcasts
  intro head hhead
  rw [outer_flatMap (by simp)] at hhead
  obtain ⟨other, -, hhead⟩ := List.mem_flatMap.mp hhead
  rw [outer_flatMap (by simp)] at hhead
  obtain ⟨value, -, hhead⟩ := List.mem_flatMap.mp hhead
  obtain rfl := by simpa using hhead
  exact hconversion _

theorem functionsOn_when {condition : Bool} :
    functionsOn type (when condition code) = given condition (functionsOn type code) := by
  cases condition <;> rfl

@[simp]
theorem given_nil {condition : Bool} : given condition [] = [] := by
  cases condition <;> rfl

/-- Of the code of a family, its members, the plugins and the structure with the fields declare
functions on the types of the message. -/
theorem functionsOn_family_parts {message : Model.Message} {g : Generics} {condition : Bool}
    {added data : Code} (hadded : Balanced added) (h : type.length ≤ cases.typeName.length + 4) :
    functionsOn type (when condition (visitorTrait m g id cases) ++ casesType message cases
        ++ upcasts m id cases ++ familyMembers ctx view cases ++ traits ctx cases.typeName
        ++ added ++ data) =
      functionsOn type (familyMembers ctx view cases) ++ functionsOn type added ++
        functionsOn type data := by
  rw [functionsOn_append (by simp [hadded]), functionsOn_append (by simp),
    functionsOn_append (by simp), functionsOn_append (by simp), functionsOn_append (by simp),
    functionsOn_append (by simp), functionsOn_when, functionsOn_visitorTrait,
    functionsOn_casesType, functionsOn_upcasts h, functionsOn_traits h]
  simp

/-! ## plugins -/

/-- Where all plugins add the same functions, those are there once for each. -/
theorem functions_runPlugins {surface : Plugin → MessageView → Except String Code}
    {blocks names : List String}
    (hsurface : ∀ plugin ∈ plugins, ∀ added, surface plugin view = .ok added →
      Balanced added ∧ (linesIn blocks [] added).filterMap functionName? = names)
    (h : runPlugins plugins surface view = .ok code) :
    (linesIn blocks [] code).filterMap functionName? = plugins.flatMap fun _ => names := by
  obtain ⟨codes, hcodes, rfl⟩ := exists_of_runPlugins h
  clear h
  induction hcodes with
  | nil => rfl
  | cons hran _ ih =>
      rw [List.forall_mem_cons] at hsurface
      obtain ⟨hbalanced, hnames⟩ := hsurface.1 _ hran
      rw [List.flatten_cons, linesIn_append, pathAfter_of_balanced hbalanced,
        List.filterMap_append, hnames, ih hsurface.2, List.flatMap_cons]

/-- The methods that the plugin for XML adds to the structure of a message. -/
def xmlStorageMethods : List String := ["read_xml_attribute", "read_xml_element"]

/-- The methods that the plugin for XML adds to the public type of a message. -/
def xmlPublicMethods (isAbstract : Bool) : List String :=
  given (!isAbstract) ["read_xml_content"] ++ ["read_xml"]

theorem xmlPublicSurface_ok (h : xmlPublicSurface view = .ok code) :
    ∃ forwarded, Balanced forwarded ∧
      code = item s!"impl {view.typeName}"
          (if view.message.isAbstract then xmlFamilyMethods view else xmlMethods view) ++
        item s!"impl {view.runtime}::XmlMessage for {view.typeName}" forwarded := by
  refine ⟨enter s!"fn read_xml(node: {xmlNode view.runtime}) -> {view.runtime}::Result<Option<Self>>"
    ++ line "Self::read_xml(node)" ++ leave, by simp, ?_⟩
  rw [← Except.ok.inj h]
  simp only [item, block, List.append_assoc]

section Plugins

variable (hplugins : ∀ plugin ∈ plugins, plugin = xmlPlugin)

include hplugins

theorem functionNames_storageSurface
    (h : runPlugins plugins Plugin.storageSurface view = .ok code) :
    functionNames code = plugins.flatMap fun _ => xmlStorageMethods := by
  refine functions_runPlugins (fun plugin hplugin added hadded => ?_) h
  rw [hplugins plugin hplugin] at hadded
  exact ⟨balanced_xmlStorageSurface hadded, functionNames_xmlStorageSurface hadded⟩

theorem functionsOn_publicSurface
    (h : runPlugins plugins Plugin.publicSurface view = .ok code) :
    functionsOn view.typeName code =
      plugins.flatMap fun _ => xmlPublicMethods view.message.isAbstract := by
  refine functions_runPlugins (fun plugin hplugin added hadded => ?_) h
  rw [hplugins plugin hplugin] at hadded
  refine ⟨balanced_xmlPublicSurface hadded, ?_⟩
  obtain ⟨forwarded, hforwarded, rfl⟩ := xmlPublicSurface_ok hadded
  have htrait := @trait_ne_impl view.typeName view.typeName view.runtime "::XmlMessage for "
    (by simp) (by decide)
  have hmembers : functionNames (if view.message.isAbstract then xmlFamilyMethods view
      else xmlMethods view) = xmlPublicMethods view.message.isAbstract := by
    cases view.message.isAbstract
    · exact functionNames_xmlMethods
    · exact functionNames_xmlFamilyMethods
  calc functionsOn view.typeName _
      = xmlPublicMethods view.message.isAbstract ++ [] := by
        rw [functionsOn_append (by simp), functionsOn_item (by simp), hmembers,
          functionsOn_eq_nil (by simp [item, block, hforwarded, htrait])]
    _ = xmlPublicMethods view.message.isAbstract := List.append_nil _

end Plugins

theorem length_baseName (name : String) :
    (baseName name).length = (typeName name).length + 4 := by
  rw [baseName, String.length_append]
  rfl

theorem functionsOn_publicSurface_base (hplugins : ∀ plugin ∈ plugins, plugin = xmlPlugin)
    (h : runPlugins plugins Plugin.publicSurface view = .ok code)
    (hname : view.typeName = typeName name) : functionsOn (baseName name) code = [] := by
  have htrait := @trait_ne_impl (typeName name) (baseName name) view.runtime "::XmlMessage for "
    (length_baseName name).le (by decide)
  have hnone : functionsOn (baseName name) code = plugins.flatMap fun _ => [] := by
    refine functions_runPlugins (fun plugin hplugin added hadded => ?_) h
    rw [hplugins plugin hplugin] at hadded
    refine ⟨balanced_xmlPublicSurface hadded, ?_⟩
    obtain ⟨forwarded, hforwarded, rfl⟩ := xmlPublicSurface_ok hadded
    refine functionsOn_eq_nil ?_
    rw [hname]
    simp [item, block, hforwarded, htrait, baseName_ne_typeName.symm]
  rw [hnone, List.flatMap_eq_nil_iff]
  exact fun _ _ => rfl

/-! ## messages -/

/-- The methods of a type of a message: of the structure that holds its fields, and of its public
type.  For a concrete message they are the same type. -/
def ownMethods (ctx : Context) (id : MessageId) (type : String) : List String :=
  let message := ctx.model.message id
  given (type == dataName ctx.model id)
    (storageMethods ctx id ++ ctx.plugins.flatMap fun _ => xmlStorageMethods)
  ++ given (type == typeName message.name)
    (given message.isAbstract (familyMethods ctx)
      ++ ctx.plugins.flatMap fun _ => xmlPublicMethods message.isAbstract)

section Messages

variable (hplugins : ∀ plugin ∈ ctx.plugins, plugin = xmlPlugin) (hmodel : view.model = ctx.model)
  (hfields : ∀ f ∈ view.fields, f.IsNamed) (hinherited : ∀ f ∈ view.inherited, f.IsNamed)

include hplugins

theorem functionsOn_dataCode_of_ne (h : dataCode ctx view = .ok code)
    (hne : view.typeName ≠ type) : functionsOn type code = [] := by
  obtain ⟨added, hadded, rfl⟩ := dataCode_ok h
  have hmembers : Balanced (storageMembers ctx view added) :=
    balanced_storageMembers (balanced_storageSurface (isBalanced_of_xml hplugins) hadded)
  rw [functionsOn_append (by simp), functionsOn_structureCode,
    functionsOn_eq_nil (by simp [item, block, hmembers, hne])]
  rfl

include hmodel hfields hinherited

theorem functionsOn_dataCode (h : dataCode ctx view = .ok code) :
    (functionsOn view.typeName code).Perm
      ((view.inherited ++ view.fields).flatMap FieldView.accessorNames ++
        (storageMethods ctx view.id ++ ctx.plugins.flatMap fun _ => xmlStorageMethods)) := by
  obtain ⟨added, hadded, rfl⟩ := dataCode_ok h
  have hmembers : Balanced (storageMembers ctx view added) :=
    balanced_storageMembers (balanced_storageSurface (isBalanced_of_xml hplugins) hadded)
  rw [functionsOn_append (by simp), functionsOn_structureCode, List.nil_append,
    functionsOn_item hmembers, functionNames_storageMembers hmodel hfields hinherited,
    functionNames_storageSurface hplugins hadded, storageMethods, List.append_assoc]
  exact List.perm_append_comm_assoc ..

theorem functionsOn_concreteCode (h : concreteCode ctx view = .ok code)
    (hconcrete : view.message.isAbstract = false) :
    (functionsOn view.typeName code).Perm
      ((view.inherited ++ view.fields).flatMap FieldView.accessorNames ++
        (storageMethods ctx view.id ++ ctx.plugins.flatMap fun _ => xmlStorageMethods) ++
        ctx.plugins.flatMap fun _ => xmlPublicMethods false) := by
  obtain ⟨data, added, hdata, hadded, rfl⟩ := concreteCode_ok h
  have hbalanced := balanced_dataCode (isBalanced_of_xml hplugins) hdata
  rw [functionsOn_append (by simp [hbalanced]), functionsOn_append hbalanced,
    functionsOn_traits (by simp), List.append_nil, functionsOn_publicSurface hplugins hadded,
    hconcrete]
  exact (functionsOn_dataCode hplugins hmodel hfields hinherited hdata).append_right _

variable (hname : view.typeName = baseName view.message.name)

include hname

/-- The public type of an abstract message. -/
theorem functionsOn_familyCode (h : familyCode ctx view = .ok code)
    (habstract : view.message.isAbstract = true) :
    functionsOn (typeName view.message.name) code =
      (view.inherited ++ view.fields).flatMap FieldView.accessorNames ++
        (familyMethods ctx ++ ctx.plugins.flatMap fun _ => xmlPublicMethods true) := by
  obtain ⟨cases, added, data, -, hcases, hadded, hdata, rfl⟩ := familyCode_ok h hmodel
  have hdata : functionsOn cases.typeName data = [] := by
    refine functionsOn_dataCode_of_ne hplugins hdata ?_
    rw [hname, hcases]
    exact baseName_ne_typeName
  have hpublic : functionsOn cases.typeName added =
      ctx.plugins.flatMap fun _ => xmlPublicMethods true := by
    have hmessage : view.public.message = view.message := by
      rw [MessageView.public, MessageView.message, MessageView.message]
    rw [hcases, ← typeName_public, functionsOn_publicSurface hplugins hadded, hmessage, habstract]
  have hbalanced := balanced_publicSurface (isBalanced_of_xml hplugins) hadded
  rw [← hcases, functionsOn_family_parts hbalanced (Nat.le_add_right _ _),
    functionsOn_familyMembers hfields hinherited, hpublic, hdata, List.append_nil,
    List.append_assoc]

/-- The structure with the fields that an abstract message declares. -/
theorem functionsOn_familyCode_base (h : familyCode ctx view = .ok code) :
    (functionsOn view.typeName code).Perm
      ((view.inherited ++ view.fields).flatMap FieldView.accessorNames ++
        (storageMethods ctx view.id ++ ctx.plugins.flatMap fun _ => xmlStorageMethods)) := by
  obtain ⟨cases, added, data, -, hcases, hadded, hdata, rfl⟩ := familyCode_ok h hmodel
  have hlength : view.typeName.length ≤ cases.typeName.length + 4 := by
    rw [hname, hcases, length_baseName]
  have hpublic : functionsOn view.typeName added = [] := by
    rw [hname]
    exact functionsOn_publicSurface_base hplugins hadded (typeName_public view)
  have hfamily : functionsOn view.typeName (familyMembers ctx view cases) = [] := by
    rw [hname]
    refine functionsOn_eq_nil ?_
    unfold familyMembers
    simp [hcases, baseName_ne_typeName.symm]
  have hbalanced := balanced_publicSurface (isBalanced_of_xml hplugins) hadded
  rw [functionsOn_family_parts hbalanced hlength, hfamily, hpublic]
  exact functionsOn_dataCode hplugins hmodel hfields hinherited hdata

end Messages

/-- The methods of the public type of a family, of its structure, and of the one type of a concrete
message. -/
theorem ownMethods_cases
    (htype : type = typeName (ctx.model.message id).name ∨ type = dataName ctx.model id) :
    ((ctx.model.message id).isAbstract = true ∧ type = typeName (ctx.model.message id).name ∧
      ownMethods ctx id type =
        familyMethods ctx ++ ctx.plugins.flatMap fun _ => xmlPublicMethods true) ∨
    ((ctx.model.message id).isAbstract = true ∧ type = dataName ctx.model id ∧
      ownMethods ctx id type =
        storageMethods ctx id ++ ctx.plugins.flatMap fun _ => xmlStorageMethods) ∨
    ((ctx.model.message id).isAbstract = false ∧ type = dataName ctx.model id ∧
      ownMethods ctx id type =
        storageMethods ctx id ++ (ctx.plugins.flatMap fun _ => xmlStorageMethods) ++
          ctx.plugins.flatMap fun _ => xmlPublicMethods false) := by
  cases habstract : (ctx.model.message id).isAbstract with
  | true =>
      have hname : dataName ctx.model id = baseName (ctx.model.message id).name :=
        if_pos habstract
      obtain htype | htype := htype
      · simp [ownMethods, given, hname, htype, habstract, baseName_ne_typeName.symm]
      · simp [ownMethods, given, hname, htype, baseName_ne_typeName]
  | false =>
      have hname : dataName ctx.model id = typeName (ctx.model.message id).name :=
        if_neg (Bool.eq_false_iff.mp habstract)
      have htype : type = dataName ctx.model id := htype.elim (·.trans hname.symm) fun h => h
      simp [ownMethods, given, hname, htype, habstract]

/-- The code of a message declares on its public type, and on the one that holds its fields, the
accessors of all fields and the methods of the type. -/
theorem functionsOn_messageCode (hplugins : ∀ plugin ∈ ctx.plugins, plugin = xmlPlugin)
    (h : messageCode ctx id = .ok code)
    (htype : type = typeName (ctx.model.message id).name ∨ type = dataName ctx.model id) :
    ∃ fields inherited, ownFields ctx.model id = .ok fields ∧
      inheritedFields ctx.model id = .ok inherited ∧
      (functionsOn type code).Perm
        ((inherited ++ fields).flatMap FieldView.accessorNames ++ ownMethods ctx id type) := by
  obtain ⟨fields, inherited, hfields, hinherited, h⟩ := messageCode_ok h
  refine ⟨fields, inherited, hfields, hinherited, ?_⟩
  have hnamed := (ownFields_ok hfields).2
  have hnamed' := (inheritedFields_ok hinherited).2
  obtain ⟨habstract, htype, hown⟩ | ⟨habstract, htype, hown⟩ | ⟨hconcrete, htype, hown⟩ :=
    ownMethods_cases htype
  · rw [if_pos habstract] at h
    rw [hown, htype]
    exact .of_eq (@functionsOn_familyCode ctx (viewOf ctx id fields inherited) code hplugins rfl
      hnamed hnamed' (if_pos habstract) h habstract)
  · rw [if_pos habstract] at h
    rw [hown, htype]
    exact @functionsOn_familyCode_base ctx (viewOf ctx id fields inherited) code hplugins rfl
      hnamed hnamed' (if_pos habstract) h
  · rw [if_neg (Bool.eq_false_iff.mp hconcrete)] at h
    rw [hown, htype, ← List.append_assoc]
    exact @functionsOn_concreteCode ctx (viewOf ctx id fields inherited) code hplugins rfl
      hnamed hnamed' h hconcrete

/-! ## distinct members -/

/-- All methods that the structure of a message may have, but for those that plugins add. -/
def everyStorageMethod : List String :=
  ["new", "json_type", "type_id", "write_json_fields", "read_json_field", "read_json",
    "read_json_content", "write_json", "write_json_content", "write_binary_fields",
    "read_binary_field", "read_binary", "read_binary_fields", "write_binary", "reflect_get",
    "reflect_set", "property_names", "visit"]

/-- All methods that the public type of a family may have, but for those that plugins add. -/
def everyFamilyMethod : List String :=
  ["read_json", "write_json", "write_json_content", "json_type", "read_binary", "write_binary",
    "type_id", "property_names", "reflect_get", "reflect_set", "visit"]

theorem given_sublist {condition : Bool} {names : List String} :
    (given condition names).Sublist names := by
  cases condition
  · exact List.nil_sublist _
  · exact List.Sublist.refl _

theorem storageMethods_sublist : (storageMethods ctx id).Sublist everyStorageMethod :=
  given_sublist.append ((((((((given_sublist.append given_sublist).append (.refl _)).append
    given_sublist).append given_sublist).append given_sublist).append given_sublist).append
    given_sublist).append given_sublist)

theorem familyMethods_sublist : (familyMethods ctx).Sublist everyFamilyMethod :=
  (((List.Sublist.refl _).append given_sublist).append given_sublist).append given_sublist

/-- The methods of a type are distinct ones of those that messages have, and what each plugin adds
to them. -/
theorem exists_ownMethods
    (htype : type = typeName (ctx.model.message id).name ∨ type = dataName ctx.model id) :
    ∃ methods added, (ownMethods ctx id type).Perm (methods ++ ctx.plugins.flatMap fun _ => added) ∧
      (methods ++ added).Nodup ∧ methods ++ added ⊆ messageMethods ∧ added ≠ [] := by
  have hstorage : (everyStorageMethod ++ (xmlStorageMethods ++ xmlPublicMethods false)).Nodup ∧
      everyStorageMethod ++ (xmlStorageMethods ++ xmlPublicMethods false) ⊆ messageMethods := by
    decide +kernel
  have hfamily : (everyFamilyMethod ++ xmlPublicMethods true).Nodup ∧
      everyFamilyMethod ++ xmlPublicMethods true ⊆ messageMethods := by
    decide +kernel
  have hnonempty : ∀ isAbstract, xmlPublicMethods isAbstract ≠ [] := by decide
  obtain ⟨-, -, hown⟩ | ⟨-, -, hown⟩ | ⟨-, -, hown⟩ := ownMethods_cases htype
  · have hsublist := (@familyMethods_sublist ctx).append_right (xmlPublicMethods true)
    exact ⟨_, _, .of_eq hown, hsublist.nodup hfamily.1,
      List.Subset.trans hsublist.subset hfamily.2, hnonempty true⟩
  · have hsublist := (@storageMethods_sublist ctx id).append
      (List.sublist_append_left xmlStorageMethods (xmlPublicMethods false))
    exact ⟨_, _, .of_eq hown, hsublist.nodup hstorage.1,
      List.Subset.trans hsublist.subset hstorage.2, List.cons_ne_nil _ _⟩
  · have hsublist := (@storageMethods_sublist ctx id).append_right
      (xmlStorageMethods ++ xmlPublicMethods false)
    refine ⟨_, _, ?_, hsublist.nodup hstorage.1,
      List.Subset.trans hsublist.subset hstorage.2, List.cons_ne_nil _ _⟩
    rw [hown, List.append_assoc]
    exact (List.flatMap_append_perm ..).append_left _

theorem ownMethods_subset
    (htype : type = typeName (ctx.model.message id).name ∨ type = dataName ctx.model id) :
    ownMethods ctx id type ⊆ messageMethods := by
  obtain ⟨methods, added, hperm, -, hsubset, -⟩ := exists_ownMethods htype
  intro word hword
  obtain hword | hword := List.mem_append.mp (hperm.subset hword)
  · exact hsubset (List.mem_append_left _ hword)
  · obtain ⟨plugin, -, hword⟩ := List.mem_flatMap.mp hword
    exact hsubset (List.mem_append_right _ hword)

/-- No method is there twice if no more than one plugin runs. -/
theorem nodup_ownMethods_iff
    (htype : type = typeName (ctx.model.message id).name ∨ type = dataName ctx.model id) :
    (ownMethods ctx id type).Nodup ↔ ctx.plugins.length ≤ 1 := by
  obtain ⟨methods, added, hperm, hnodup, -, hne⟩ := exists_ownMethods htype
  rw [hperm.nodup_iff]
  match ctx.plugins with
  | [] => simpa using hnodup.of_append_left
  | [_] => simpa using hnodup
  | _ :: _ :: _ =>
      obtain ⟨word, hword⟩ := List.exists_mem_of_ne_nil added hne
      have hrepeated : ¬ added.Disjoint added := fun hdisjoint => hdisjoint hword hword
      simp [List.nodup_append', hrepeated]

/-- **The members of a type are distinct** exactly if its fields keep apart and no plugin is chosen
twice.  Checking a schema gives no more than distinct getters: for a field `x`, a field `set_x` is
accepted. -/
theorem members_distinct_iff {config : Config} (h : Model.ofSchema schema = .ok m)
    (hselect : builtinPlugins.select (Features.resolve config m) config.plugins = .ok plugins)
    (hcode : messageCode (contextOf config m plugins) id = .ok code)
    (htype : type = typeName (m.message id).name ∨ type = dataName m id) :
    ∃ fields inherited, ownFields m id = .ok fields ∧ inheritedFields m id = .ok inherited ∧
      (functionsOn type code).Perm ((inherited ++ fields).flatMap FieldView.accessorNames ++
        ownMethods (contextOf config m plugins) id type) ∧
      ((functionsOn type code ++ typeFunctions).Nodup ↔
        KeepApart (inherited ++ fields) ∧ plugins.length ≤ 1) := by
  have hplugins : ∀ plugin ∈ plugins, plugin = xmlPlugin := fun plugin hplugin =>
    ((select_builtinPlugins hselect).mp hplugin).1
  obtain ⟨fields, inherited, hfields, hinherited, hperm⟩ :=
    functionsOn_messageCode hplugins hcode htype
  refine ⟨fields, inherited, hfields, hinherited, hperm, ?_⟩
  have hsubset := @ownMethods_subset (contextOf config m plugins) id type htype
  have hnodup := @nodup_ownMethods_iff (contextOf config m plugins) id type htype
  rw [(hperm.append_right _).nodup_iff, List.append_assoc, ← memberNames,
    nodup_memberNames_of_ofSchema h hfields hinherited hsubset, hnodup, contextOf]

open Schema Schema.Definition Schema.Field in
/-- Fields with the names of methods, of words of the language, and of what would be an accessor of
another field. -/
def crates : Schema :=
  { files := [
      { definitions := [
          ofFamily "Parcel" [ofPrimitive "type" .string, ofPrimitive "self" .int32],
          (ofFields "Crate" [ofPrimitive "new" .int32, ofPrimitive "set_size" .int64,
            (ofCustom "parts" "Parcel").many, ofCustom "lid" "Crate"]).extending "Parcel"] }] }

theorem members_distinct_iff_crates : ∃ m plugins code, Model.ofSchema crates = .ok m ∧
    builtinPlugins.select (Features.resolve { plugins := ["xml"] } m) ["xml"] = .ok plugins ∧
    messageCode (contextOf { plugins := ["xml"] } m plugins) 1 = .ok code ∧
    "read_xml" ∈ functionsOn "Crate" code ∧ (functionsOn "Crate" code ++ typeFunctions).Nodup := by
  have hmodel : (Model.ofSchema crates).toOption.any (fun m =>
      (builtinPlugins.select (Features.resolve { plugins := ["xml"] } m) ["xml"]).toOption.any
        (fun plugins =>
          (messageCode (contextOf { plugins := ["xml"] } m plugins) 1).toOption.isSome &&
          decide ("read_xml" ∈ ownMethods (contextOf { plugins := ["xml"] } m plugins) 1 "Crate" ∧
            plugins.length ≤ 1)) &&
      decide (typeName (m.message 1).name = "Crate") &&
      (ownFields m 1).toOption.any fun fields => (inheritedFields m 1).toOption.any
        fun inherited => decide (KeepApart (inherited ++ fields))) = true := by
    decide +kernel
  obtain ⟨m, hm, hfacts⟩ := (Option.any_eq_true _ _).mp hmodel
  obtain ⟨hfacts, hfields⟩ := Bool.and_eq_true_iff.mp hfacts
  obtain ⟨hplugins, hname⟩ := Bool.and_eq_true_iff.mp hfacts
  obtain ⟨plugins, hselect, hfacts⟩ := (Option.any_eq_true _ _).mp hplugins
  obtain ⟨hcode, hxml⟩ := Bool.and_eq_true_iff.mp hfacts
  obtain ⟨hmethod, hlength⟩ := of_decide_eq_true hxml
  obtain ⟨code, hcode⟩ := Option.isSome_iff_exists.mp hcode
  obtain ⟨fields, hown, hinherited⟩ := (Option.any_eq_true _ _).mp hfields
  obtain ⟨inherited, habove, hapart⟩ := (Option.any_eq_true _ _).mp hinherited
  have hm := Except.toOption_eq_some.mp hm
  have hselect := Except.toOption_eq_some.mp hselect
  have hcode := Except.toOption_eq_some.mp hcode
  obtain ⟨fields', inherited', hown', habove', hperm, hiff⟩ :=
    members_distinct_iff hm hselect hcode (.inl (of_decide_eq_true hname).symm)
  rw [Except.toOption_eq_some.mp hown, Except.ok.injEq] at hown'
  rw [Except.toOption_eq_some.mp habove, Except.ok.injEq] at habove'
  rw [← hown', ← habove'] at hiff
  exact ⟨m, plugins, code, hm, hselect, hcode, hperm.mem_iff.mpr (List.mem_append_right _ hmethod),
    hiff.mpr ⟨of_decide_eq_true hapart, hlength⟩⟩

open Schema Schema.Definition Schema.Field in
/-- A field with the name that the other one's setter has. -/
def circle : Schema :=
  { files := [
      { definitions := [
          ofFields "Circle" [ofPrimitive "radius" .int32, ofPrimitive "set_radius" .int32]] }] }

theorem circle_members_collide : ∃ m code, Model.ofSchema circle = .ok m ∧
    messageCode (contextOf {} m []) 0 = .ok code ∧
    (functionsOn "Circle" code).count "set_radius" = 2 := by
  have hmodel : (Model.ofSchema circle).toOption.any (fun m =>
      (messageCode (contextOf {} m []) 0).toOption.isSome &&
      decide (typeName (m.message 0).name = "Circle") &&
      (ownFields m 0).toOption.any fun fields => (inheritedFields m 0).toOption.any
        fun inherited => decide (((inherited ++ fields).flatMap FieldView.accessorNames ++
          ownMethods (contextOf {} m []) 0 "Circle").count "set_radius" = 2)) = true := by
    decide +kernel
  obtain ⟨m, hm, hfacts⟩ := (Option.any_eq_true _ _).mp hmodel
  obtain ⟨hfacts, hfields⟩ := Bool.and_eq_true_iff.mp hfacts
  obtain ⟨hcode, hname⟩ := Bool.and_eq_true_iff.mp hfacts
  obtain ⟨code, hcode⟩ := Option.isSome_iff_exists.mp hcode
  obtain ⟨fields, hown, hinherited⟩ := (Option.any_eq_true _ _).mp hfields
  obtain ⟨inherited, habove, hcount⟩ := (Option.any_eq_true _ _).mp hinherited
  have hcode := Except.toOption_eq_some.mp hcode
  obtain ⟨fields', inherited', hown', habove', hperm⟩ :=
    functionsOn_messageCode (fun _ hplugin => absurd hplugin List.not_mem_nil) hcode
      (.inl (of_decide_eq_true hname).symm)
  have hown' : ownFields m 0 = .ok fields' := hown'
  have habove' : inheritedFields m 0 = .ok inherited' := habove'
  rw [Except.toOption_eq_some.mp hown, Except.ok.injEq] at hown'
  rw [Except.toOption_eq_some.mp habove, Except.ok.injEq] at habove'
  rw [← hown', ← habove'] at hperm
  exact ⟨m, code, Except.toOption_eq_some.mp hm, hcode,
    (hperm.count_eq _).trans (of_decide_eq_true hcount)⟩

end Missive.Source
