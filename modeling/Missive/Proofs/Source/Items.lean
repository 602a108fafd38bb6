import Missive.Proofs.Source.Balance
import Missive.Proofs.Source.Identifier
import Missive.Proofs.Source.Visitor

/-!
# Missive.Proofs.Source.Items

The items of emitted code.

Of balanced code, `outer` keeps what stands outside of all blocks: lines and the heads of blocks.
A line or a head that begins like a structure, an enumeration or a trait is an item, and its name is
what follows (`nameAfter?`), which `IsName` tells from what stands behind it.  So the items of a
definition are read off its code, whatever else the code has (`itemNames_definitionCode`).
-/

namespace Missive.Source

open Text
open Model (Reference)

variable {m : Model} {ctx : Context} {view : MessageView} {cases : Cases} {id : MessageId}
  {head name text runtime start rest : String} {body code code' : Code} {depth n : Nat}

/-! ## names in lines -/

/-- The name of the type or trait that a line or the head of a block declares. -/
def itemName? (head : String) : Option String :=
  nameAfter? ["pub struct ", "struct ", "pub enum ", "pub trait "] ['<', ' '] head

/-- The name of the method that a line declares. -/
def methodName? (head : String) : Option String := nameAfter? ["fn "] ['('] head

/-- The name of the variant that a line declares; attributes declare none. -/
def variantName? (text : String) : Option String :=
  if text.toList.head? = some '#' then none else nameAfter? [""] [','] text

/-- The names of the items of code. -/
def itemNames (code : Code) : List String := (outer code).filterMap itemName?

theorem itemName?_eq (start rest : String) (h : IsName name)
    (hstart : start ∈ ["pub struct ", "struct ", "pub enum ", "pub trait "])
    (hrest : ∀ c ∈ rest.toList.head?, c = '<' ∨ c = ' ') :
    itemName? (start ++ name ++ rest) = some name := by
  have hname : ∀ c ∈ name.toList, c ∉ ['<', ' '] := h.not_mem (by simp [Runs.start])
  simp only [List.mem_cons, List.not_mem_nil, or_false] at hstart
  obtain rfl | rfl | rfl | rfl := hstart <;>
    exact nameAfter?_eq hname (by simp) rfl (by simpa using hrest)

/-- A line that begins with another letter declares no item. -/
theorem itemName?_eq_none (h : text.toList.head?.all (fun c => c != 's' && c != 'p') = true) :
    itemName? text = none := by
  cases htext : text.toList with
  | nil => simp [itemName?, nameAfter?, htext]
  | cons c cs =>
      rw [htext, List.head?_cons, Option.all_some, Bool.and_eq_true, bne_iff_ne, bne_iff_ne] at h
      simp [itemName?, nameAfter?, htext, h.1.symm, h.2.symm]

theorem itemNames_append (h : Balanced code) :
    itemNames (code ++ code') = itemNames code ++ itemNames code' := by
  rw [itemNames, outer_append h, List.filterMap_append]
  rfl

theorem itemNames_flatMap {emit : α → Code} {xs : List α} (h : ∀ x ∈ xs, Balanced (emit x)) :
    itemNames (xs.flatMap emit) = xs.flatMap fun x => itemNames (emit x) := by
  rw [itemNames, outer_flatMap h, List.filterMap_flatMap]
  rfl

theorem itemNames_when {condition : Bool} :
    itemNames (when condition code) = if condition then itemNames code else [] := by
  cases condition <;> rfl

/-! ## the items of definitions -/

theorem itemNames_structureCode (h : IsName view.typeName) :
    itemNames (structureCode m runtime view) = [view.typeName] := by
  have hstruct := itemName?_eq "struct " "" h (by simp) (by simp)
  have hpublic := itemName?_eq "pub struct " "" h (by simp) (by simp)
  rw [String.append_empty] at hstruct hpublic
  unfold itemNames structureCode
  dsimp only
  split <;> simp [itemName?_eq_none, hstruct, hpublic]

theorem itemNames_traits {typeName : String} : itemNames (traits ctx typeName) = [] := by
  unfold itemNames traits propertyTrait when
  cases ctx.features.binary <;> cases ctx.features.reflection <;> simp [itemName?_eq_none]

theorem itemNames_upcasts : itemNames (upcasts m id cases) = [] := by
  unfold upcasts
  rw [itemNames_flatMap (by simp), List.flatMap_eq_nil_iff]
  intro other _
  rw [itemNames_flatMap (by simp), List.flatMap_eq_nil_iff]
  intro value _
  unfold itemNames
  simp [itemName?_eq_none]

theorem itemNames_familyMembers : itemNames (familyMembers ctx view cases) = [] := by
  unfold itemNames familyMembers
  simp [itemName?_eq_none]

theorem itemNames_casesType {message : Model.Message} (h : IsName cases.typeName) :
    itemNames (casesType message cases) = [cases.typeName] := by
  have hempty := itemName?_eq "pub enum " " \x7b\x7d" h (by simp) (by simp)
  have hname := itemName?_eq "pub enum " "" h (by simp) (by simp)
  rw [String.append_empty] at hname
  unfold itemNames casesType
  split <;> simp [itemName?_eq_none, hempty, hname]

/-- The head of a visitor: its name, and the visitors that it inherits. -/
def visitorHead (m : Model) (g : Generics) (id : MessageId) (inherited : List MessageId) : String :=
  let bounds := inherited.map (visitorBound m g)
  let bounds := if bounds.isEmpty then "" else ": " ++ " + ".intercalate bounds
  s!"pub trait {visitorName (m.message id).name}<{g.result}, {g.argument}>{bounds}"

theorem visitorTrait_eq_head (m : Model) (g : Generics) (id : MessageId) :
    visitorTrait m g id (Cases.of m id) = blank
      ++ line s!"/// Exhaustive dispatch over the concrete members of [`{typeName (m.message id).name}`]."
      ++ if (declaredCases m id).isEmpty then
          line s!"{visitorHead m g id (inheritedVisitors m id)} \x7b\x7d"
        else block (visitorHead m g id (inheritedVisitors m id))
          ((declaredCases m id).flatMap (caseCode m g)) :=
  visitorTrait_eq m g id

theorem itemName?_visitorHead {g : Generics} {inherited : List MessageId} (rest : String) :
    itemName? (visitorHead m g id inherited ++ rest) = some (visitorName (m.message id).name) := by
  have hname : ∀ rest, itemName? ("pub trait " ++ visitorName (m.message id).name ++ ("<" ++ rest))
      = some (visitorName (m.message id).name) := fun rest =>
    itemName?_eq _ _ (isName_visitorName _) (by simp) (by simp)
  simp only [visitorHead, toString_self, String.append_assoc] at hname ⊢
  exact hname _

@[simp]
theorem balanced_caseCode {g : Generics} : Balanced (caseCode m g id) := balanced_line

theorem itemNames_visitorTrait {g : Generics} :
    itemNames (visitorTrait m g id (Cases.of m id)) = [visitorName (m.message id).name] := by
  have hname := @itemName?_visitorHead m id g (inheritedVisitors m id) ""
  rw [String.append_empty] at hname
  unfold itemNames
  rw [visitorTrait_eq_head]
  split <;> simp [block, itemName?_eq_none, itemName?_visitorHead, hname]

theorem itemNames_enumerationCode {e : Model.Enumeration} :
    itemNames (enumerationCode e) = [typeName e.name] := by
  have hname := itemName?_eq "pub enum " "" (isName_typeName e.name) (by simp) (by simp)
  rw [String.append_empty] at hname
  unfold itemNames enumerationCode
  simp [itemName?_eq_none, hname]

theorem itemNames_xmlPublicSurface (h : xmlPublicSurface view = .ok code) :
    itemNames code = [] := by
  rw [← Except.ok.inj h]
  unfold itemNames
  simp [itemName?_eq_none]

section Plugins

variable (hplugins : ∀ plugin ∈ ctx.plugins, plugin = xmlPlugin)

include hplugins

/-- What plugins add after a public type are no items. -/
theorem itemNames_publicSurface
    (h : runPlugins ctx.plugins Plugin.publicSurface view = .ok code) : itemNames code = [] := by
  obtain ⟨codes, hcodes, rfl⟩ := exists_of_runPlugins h
  have hxml : ∀ code ∈ codes, xmlPublicSurface view = .ok code := by
    intro code hcode
    obtain ⟨plugin, hplugin, hadded⟩ := exists_of_forall₂ hcodes hcode
    rwa [hplugins plugin hplugin] at hadded
  rw [← List.flatMap_id', itemNames_flatMap fun code hcode =>
    balanced_xmlPublicSurface (hxml code hcode), List.flatMap_eq_nil_iff]
  exact fun code hcode => itemNames_xmlPublicSurface (hxml code hcode)

theorem itemNames_dataCode (h : dataCode ctx view = .ok code) (hname : IsName view.typeName) :
    itemNames code = [view.typeName] := by
  obtain ⟨added, hadded, rfl⟩ := dataCode_ok h
  have hmembers : Balanced (storageMembers ctx view added) :=
    balanced_storageMembers (balanced_storageSurface (isBalanced_of_xml hplugins) hadded)
  rw [itemNames_append (by simp), itemNames_structureCode hname, itemNames]
  simp [item, block, hmembers, itemName?_eq_none]

theorem itemNames_concreteCode (h : concreteCode ctx view = .ok code)
    (hname : IsName view.typeName) : itemNames code = [view.typeName] := by
  obtain ⟨data, added, hdata, hadded, rfl⟩ := concreteCode_ok h
  have hbalanced := balanced_dataCode (isBalanced_of_xml hplugins) hdata
  rw [itemNames_append (by simp [hbalanced]), itemNames_append hbalanced,
    itemNames_dataCode hplugins hdata hname, itemNames_traits,
    itemNames_publicSurface hplugins hadded]
  rfl

theorem itemNames_familyCode (h : familyCode ctx view = .ok code) (hmodel : view.model = ctx.model)
    (hname : view.typeName = baseName view.message.name) :
    itemNames code = (if ctx.features.interfaces then [visitorName view.message.name] else []) ++
      [typeName view.message.name, baseName view.message.name] := by
  obtain ⟨cases, added, data, hcases, htype, hadded, hdata, rfl⟩ := familyCode_ok h hmodel
  have hvisitor : itemNames (visitorTrait ctx.model ctx.generics view.id cases) =
      [visitorName view.message.name] := by
    rw [hcases, itemNames_visitorTrait, MessageView.message, hmodel]
  have hbalanced := balanced_publicSurface (isBalanced_of_xml hplugins) hadded
  rw [itemNames_append (by simp [hbalanced]), itemNames_append (by simp),
    itemNames_append (by simp), itemNames_append (by simp), itemNames_append (by simp),
    itemNames_append (by simp), itemNames_when, hvisitor,
    itemNames_casesType (htype ▸ isName_typeName _), itemNames_upcasts, itemNames_familyMembers,
    itemNames_traits, itemNames_publicSurface hplugins hadded,
    itemNames_dataCode hplugins hdata (hname ▸ isName_baseName _), htype, hname]
  simp

end Plugins

/-- Whether a definition is an abstract message. -/
def isFamily (m : Model) : Reference → Bool
  | .message id => (m.message id).isAbstract
  | .enumeration _ => false

/-- The names of the items of a definition: its type and, for a family, the structure with the
fields that it declares and its visitor. -/
def namesOfItems (m : Model) (interfaces : Bool) (r : Reference) : List String :=
  (if isFamily m r && interfaces then [visitorName (m.nameOf r)] else [])
    ++ typeName (m.nameOf r) :: if isFamily m r then [baseName (m.nameOf r)] else []

/-- The items of a definition. -/
theorem itemNames_definitionCode (hplugins : ∀ plugin ∈ ctx.plugins, plugin = xmlPlugin)
    {r : Reference} (h : definitionCode ctx r = .ok code) :
    itemNames code = namesOfItems ctx.model ctx.features.interfaces r := by
  cases r with
  | enumeration id =>
      have hcode : enumerationCode (ctx.model.enumeration id) = code := Except.ok.inj h
      exact hcode ▸ itemNames_enumerationCode
  | message id =>
      obtain ⟨fields, inherited, -, -, h⟩ := messageCode_ok h
      split at h
      · next habstract =>
          rw [itemNames_familyCode hplugins h rfl (if_pos habstract), namesOfItems, isFamily,
            habstract, Bool.true_and]
          rfl
      · next hconcrete =>
          have hname : (viewOf ctx id fields inherited).typeName =
            typeName (ctx.model.message id).name := if_neg hconcrete
          rw [itemNames_concreteCode hplugins h (hname ▸ isName_typeName _), hname, namesOfItems,
            isFamily, eq_false_of_ne_true hconcrete]
          rfl

end Missive.Source
