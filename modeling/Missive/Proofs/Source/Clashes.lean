import Missive.Proofs.Model.Identifiers
import Missive.Proofs.Source.Definitions
import Missive.Proofs.Source.Supported

/-!
# Missive.Proofs.Source.Clashes

When names of emitted code clash.

A schema is checked for definitions and constants of the same name, but names that differ may become
one when they are put into another case, and a definition may have the name that a family has for
its structure or its visitor.

* `nodup_items_iff`, `nodup_variants_iff`, `nodup_visits_iff`: when items of a module, variants of
  an enumeration and methods of a visitor are distinct, said about names of the schema.
* `itemsApart_iff_of_settled`, `visitsApart_of_settled`: names that are those of their types.
* `items_distinct_iff`: the same of the text that a schema compiles to.
-/

namespace Missive.Source

open Text
open Model (Reference)

variable {m : Model} {ctx : Context} {a b id : MessageId} {r r' : Reference} {interfaces : Bool}
  {head name name' text : String} {body code : Code} {depth : Nat} {schema : Schema}

/-! ## names of families -/

theorem visitorName_ne_typeName : visitorName name ≠ typeName name := by
  intro heq
  have hlength := congrArg String.length heq
  simp [visitorName] at hlength

theorem baseName_ne_visitorName : baseName name ≠ visitorName name' := by
  intro heq
  have hlast := congrArg (fun text => text.toList.getLast?) heq
  simp [baseName, visitorName] at hlast

theorem baseName_eq_iff : baseName name = baseName name' ↔ typeName name = typeName name' := by
  rw [baseName, baseName, String.append_left_inj]

theorem visitorName_eq_iff :
    visitorName name = visitorName name' ↔ typeName name = typeName name' := by
  rw [visitorName, visitorName, String.append_left_inj]

/-! ## items -/

/-- The definitions of a model, in the order of their code. -/
def definitionsOf (m : Model) : List Reference := m.roots.flatMap m.unitMembers

/-- No two definitions have one type, and none has the name that a family has for its structure or
its visitor. -/
@[mk_iff]
structure ItemsApart (m : Model) (interfaces : Bool) : Prop where
  types : ∀ r ∈ definitionsOf m, ∀ r' ∈ definitionsOf m,
    beginWith "T" (camelCase (m.nameOf r)) = beginWith "T" (camelCase (m.nameOf r')) → r = r'
  bases : ∀ r ∈ definitionsOf m, isFamily m r = true → ∀ r' ∈ definitionsOf m,
    typeName (m.nameOf r') ≠ baseName (m.nameOf r)
  visitors : interfaces = true → ∀ r ∈ definitionsOf m, isFamily m r = true →
    ∀ r' ∈ definitionsOf m, typeName (m.nameOf r') ≠ visitorName (m.nameOf r)

instance : Decidable (ItemsApart m interfaces) :=
  decidable_of_iff' _ (itemsApart_iff m interfaces)

theorem mem_namesOfItems : name ∈ namesOfItems m interfaces r ↔
    name = typeName (m.nameOf r) ∨ isFamily m r = true ∧ name = baseName (m.nameOf r) ∨
      interfaces = true ∧ isFamily m r = true ∧ name = visitorName (m.nameOf r) := by
  unfold namesOfItems
  cases isFamily m r <;> cases interfaces <;> simp
  grind

theorem nodup_namesOfItems : (namesOfItems m interfaces r).Nodup := by
  unfold namesOfItems
  cases isFamily m r <;> cases interfaces <;>
    simp [baseName_ne_typeName.symm, visitorName_ne_typeName, baseName_ne_visitorName.symm]

/-- Definitions with an item in common. -/
theorem ItemsApart.disjoint (h : ItemsApart m interfaces) (hr : r ∈ definitionsOf m)
    (hr' : r' ∈ definitionsOf m) (hne : r ≠ r') :
    (namesOfItems m interfaces r).Disjoint (namesOfItems m interfaces r') := by
  have htype : typeName (m.nameOf r) ≠ typeName (m.nameOf r') := fun heq =>
    hne (h.types r hr r' hr' (typeName_eq_iff.mp heq))
  intro name hname hname'
  rw [mem_namesOfItems] at hname hname'
  obtain hitem | ⟨hfamily, hitem⟩ | ⟨hon, hfamily, hitem⟩ := hname <;> rw [hitem] at hname'
  · obtain heq | ⟨hfamily', heq⟩ | ⟨hon, hfamily', heq⟩ := hname'
    · exact htype heq
    · exact h.bases r' hr' hfamily' r hr heq
    · exact h.visitors hon r' hr' hfamily' r hr heq
  · obtain heq | ⟨-, heq⟩ | ⟨-, -, heq⟩ := hname'
    · exact h.bases r hr hfamily r' hr' heq.symm
    · exact htype (baseName_eq_iff.mp heq)
    · exact baseName_ne_visitorName heq
  · obtain heq | ⟨-, heq⟩ | ⟨-, -, heq⟩ := hname'
    · exact h.visitors hon r hr hfamily r' hr' heq.symm
    · exact baseName_ne_visitorName heq.symm
    · exact htype (visitorName_eq_iff.mp heq)

/-- Items are distinct where definitions keep apart, and only there. -/
theorem nodup_items_iff (hnodup : (definitionsOf m).Nodup) :
    ((definitionsOf m).flatMap (namesOfItems m interfaces)).Nodup ↔ ItemsApart m interfaces := by
  have htype : ∀ r, typeName (m.nameOf r) ∈ namesOfItems m interfaces r := fun r =>
    mem_namesOfItems.mpr (.inl rfl)
  rw [List.nodup_flatMap, and_iff_right fun _ _ => nodup_namesOfItems]
  constructor
  · intro hpairwise
    have : Std.Symm (Function.onFun List.Disjoint (namesOfItems m interfaces)) :=
      ⟨fun _ _ h => h.symm⟩
    have hdisjoint : ∀ r ∈ definitionsOf m, ∀ r' ∈ definitionsOf m, r ≠ r' →
        (namesOfItems m interfaces r).Disjoint (namesOfItems m interfaces r') := fun r hr r' hr' =>
      hpairwise.forall hr hr'
    refine ⟨fun r hr r' hr' heq => ?_, fun r hr hfamily r' hr' heq => ?_,
      fun hon r hr hfamily r' hr' heq => ?_⟩
    · by_contra hne
      refine hdisjoint r hr r' hr' hne (htype r) ?_
      rw [typeName_eq_iff.mpr heq]
      exact htype r'
    · refine hdisjoint r' hr' r hr ?_ (htype r') (mem_namesOfItems.mpr (.inr (.inl ⟨hfamily, heq⟩)))
      rintro rfl
      exact baseName_ne_typeName heq.symm
    · refine hdisjoint r' hr' r hr ?_ (htype r')
        (mem_namesOfItems.mpr (.inr (.inr ⟨hon, hfamily, heq⟩)))
      rintro rfl
      exact visitorName_ne_typeName heq.symm
  · intro hapart
    exact hnodup.pairwise_of_forall_ne fun r hr r' hr' => hapart.disjoint hr hr'

/-- With settled names, only a definition that is named like the structure or the visitor of a
family can clash. -/
theorem itemsApart_iff_of_settled (hnames : ((definitionsOf m).map m.nameOf).Nodup)
    (hsettled : ∀ r ∈ definitionsOf m, Settled (m.nameOf r)) :
    ItemsApart m interfaces ↔ ∀ r ∈ definitionsOf m, isFamily m r = true →
      ∀ r' ∈ definitionsOf m, m.nameOf r' ≠ m.nameOf r ++ "Base" ∧
        (interfaces = true → m.nameOf r' ≠ m.nameOf r ++ "Visitor") := by
  constructor
  · intro hapart r hr hfamily r' hr'
    have hbase := hapart.bases r hr hfamily r' hr'
    have hvisitor := fun hon => hapart.visitors hon r hr hfamily r' hr'
    rw [baseName, (hsettled r hr).2, (hsettled r' hr').2] at hbase
    simp only [visitorName, (hsettled r hr).2, (hsettled r' hr').2] at hvisitor
    exact ⟨hbase, hvisitor⟩
  · intro hapart
    refine ⟨fun r hr r' hr' heq => ?_, fun r hr hfamily r' hr' => ?_,
      fun hon r hr hfamily r' hr' => ?_⟩
    · have hname := typeName_eq_iff.mpr heq
      rw [(hsettled r hr).2, (hsettled r' hr').2] at hname
      exact List.inj_on_of_nodup_map hnames hr hr' hname
    · rw [baseName, (hsettled r hr).2, (hsettled r' hr').2]
      exact (hapart r hr hfamily r' hr').1
    · rw [visitorName, (hsettled r hr).2, (hsettled r' hr').2]
      exact (hapart r hr hfamily r' hr').2 hon

/-! ## parts of items -/

/-- A block of code outside of all others; an empty one may stand in a line. -/
def HasItem (code : Code) (head : String) (body : Code) : Prop :=
  ∃ before after, Balanced before ∧ Balanced body ∧
    (code = before ++ block head body ++ after ∨
      body = [] ∧ code = before ++ line s!"{head} \x7b\x7d" ++ after)

theorem hasItem_block {before : Code} (hbefore : Balanced before) (hbody : Balanced body) :
    HasItem (before ++ block head body) head body :=
  ⟨before, [], hbefore, hbody, .inl (List.append_nil _).symm⟩

theorem hasItem_line {before : Code} (hbefore : Balanced before) :
    HasItem (before ++ line s!"{head} \x7b\x7d") head [] :=
  ⟨before, [], hbefore, fun _ => rfl, .inr ⟨rfl, (List.append_nil _).symm⟩⟩

theorem HasItem.append (h : HasItem code head body) (code' : Code) :
    HasItem (code ++ code') head body := by
  obtain ⟨before, after, hbefore, hbody, rfl | ⟨hnil, rfl⟩⟩ := h
  · exact ⟨before, after ++ code', hbefore, hbody, .inl (by simp)⟩
  · exact ⟨before, after ++ code', hbefore, hbody, .inr ⟨hnil, by simp⟩⟩

/-- The variants that the body of an enumeration declares. -/
def variantNames (body : Code) : List String := (outer body).filterMap variantName?

/-- The methods that the body of a trait declares. -/
def methodNames (body : Code) : List String := (outer body).filterMap methodName?

/-! ## variants -/

theorem variantName?_eq (name : String) :
    variantName? (variantName name ++ ",") = some (variantName name) := by
  have hname : ∀ c ∈ (variantName name).toList, c ∉ [','] :=
    (isName_variantName name).not_mem (by simp [Runs.start])
  have htext : variantName name ++ "," = "" ++ variantName name ++ "," := by simp
  have hstart : ([""].find? fun start => start.toList.isPrefixOf (variantName name ++ ",").toList) =
      some "" := by simp
  have hhead : (variantName name ++ ",").toList.head? ≠ some '#' := by
    rw [String.toList_append]
    cases hlist : (variantName name).toList with
    | nil => simp
    | cons c cs =>
        rw [List.cons_append, List.head?_cons, ne_eq, Option.some.injEq]
        rintro rfl
        obtain hin | heq := isName_variantName name '#' (by simp [hlist])
        · exact absurd (hin (by decide)) (by decide)
        · exact absurd heq (by decide)
  rw [variantName?, if_neg hhead]
  exact nameAfter?_eq hname hstart htext (by simp)

/-- The code of a constant among the variants; the first one is the default. -/
def constantCode (c : Model.Constant) (index : Nat) : Code :=
  docs c.docs ++ (if index == 0 then line "#[default]" else []) ++ line s!"{variantName c.name},"

@[simp]
theorem balanced_constantCode {c : Model.Constant} {index : Nat} :
    Balanced (constantCode c index) := by
  simp [constantCode]

theorem variantNames_constantCode (c : Model.Constant) (index : Nat) :
    variantNames (constantCode c index) = [variantName c.name] := by
  have hdefault : variantName? "#[default]" = none := by simp [variantName?]
  rw [variantNames, constantCode, outer_append (by simp), outer_append (by simp)]
  split <;> simp [hdefault, variantName?_eq]

/-- The code of an enumeration begins with its constants. -/
theorem exists_enumerationCode (e : Model.Enumeration) : ∃ rest, enumerationCode e =
    blank ++ docs e.docs
      ++ line "#[derive(Debug, Clone, Copy, PartialEq, Eq, Hash, PartialOrd, Ord, Default)]"
      ++ block s!"pub enum {typeName e.name}"
        (e.constants.zipIdx.flatMap fun entry => constantCode entry.1 entry.2) ++ rest := by
  have hcode : ∀ code : (Model.Constant × String) × Nat → Code,
      (∀ c index, code ((c, variantName c.name), index) = constantCode c index) →
      (e.constants.map fun c => (c, variantName c.name)).zipIdx.flatMap code =
        e.constants.zipIdx.flatMap fun entry => constantCode entry.1 entry.2 := by
    intro code hcode
    rw [List.zipIdx_map, List.flatMap_map]
    simp only [Prod.map, hcode, id]
  unfold enumerationCode
  dsimp only
  rw [hcode _ fun c index => by rw [constantCode]]
  simp only [block, List.append_assoc]
  exact ⟨_, rfl⟩

/-- The variants of an enumeration are those of its constants. -/
theorem exists_variants (e : Model.Enumeration) :
    ∃ body, HasItem (enumerationCode e) s!"pub enum {typeName e.name}" body ∧
      variantNames body = e.constants.map fun c => variantName c.name := by
  obtain ⟨rest, hcode⟩ := exists_enumerationCode e
  refine ⟨e.constants.zipIdx.flatMap fun entry => constantCode entry.1 entry.2, ?_, ?_⟩
  · rw [hcode]
    exact (hasItem_block (by simp) (by simp)).append rest
  · rw [variantNames, outer_flatMap (by simp), List.filterMap_flatMap]
    calc e.constants.zipIdx.flatMap (fun entry => variantNames (constantCode entry.1 entry.2))
        = (e.constants.zipIdx.map Prod.fst).map fun c => variantName c.name := by
          simp only [variantNames_constantCode, List.map_map, ← List.map_eq_flatMap,
            Function.comp_def]
      _ = e.constants.map fun c => variantName c.name := by rw [List.zipIdx_map_fst]

/-- No two constants have one variant. -/
def VariantsApart (e : Model.Enumeration) : Prop :=
  ∀ c ∈ e.constants, ∀ c' ∈ e.constants,
    beginWith "V" (camelCase c.name) = beginWith "V" (camelCase c'.name) → c = c'

instance {e : Model.Enumeration} : Decidable (VariantsApart e) :=
  inferInstanceAs (Decidable (∀ c ∈ e.constants, ∀ c' ∈ e.constants,
    beginWith "V" (camelCase c.name) = beginWith "V" (camelCase c'.name) → c = c'))

theorem nodup_variants_iff {e : Model.Enumeration} (h : (e.constants.map (·.name)).Nodup) :
    (e.constants.map fun c => variantName c.name).Nodup ↔ VariantsApart e := by
  rw [List.nodup_map_iff_inj_on (List.Nodup.of_map _ h)]
  simp only [variantName_eq_iff, VariantsApart]

/-! ## visitors -/

/-- `Visits ctx id methods`: the visitor of a message declares and inherits the methods `methods`.
Its head names the visitors that it inherits. -/
inductive Visits (ctx : Context) : MessageId → List String → Prop where
  | visitor {id : MessageId} {inherited : List MessageId} {body : Code}
      (methods : MessageId → List String) :
      HasItem (itemsOf ctx (.message id)) (visitorHead ctx.model ctx.generics id inherited) body →
      (∀ other ∈ inherited, Visits ctx other (methods other)) →
      Visits ctx id (methodNames body ++ inherited.flatMap methods)

theorem methodName?_eq {rest : String} (hname : IsName name)
    (hrest : rest.toList.head? = some '(') : methodName? ("fn " ++ (name ++ rest)) = some name := by
  have hplain : ∀ c ∈ name.toList, c ∉ ['('] := hname.not_mem (by simp [Runs.start])
  exact nameAfter?_eq hplain (by simp) (String.append_assoc ..).symm (by simp [hrest])

theorem methodNames_caseCode (m : Model) (g : Generics) (c : MessageId) :
    methodNames (caseCode m g c) = [visitMethod (m.message c).name] := by
  simp [methodNames, caseCode, String.append_assoc, methodName?_eq (isName_visitMethod _)]

theorem methodNames_cases (m : Model) (g : Generics) (cs : List MessageId) :
    methodNames (cs.flatMap (caseCode m g)) = cs.map fun c => visitMethod (m.message c).name := by
  rw [methodNames, outer_flatMap (by simp), List.filterMap_flatMap, List.map_eq_flatMap]
  exact List.flatMap_congr fun c _ => methodNames_caseCode m g c

/-- The visitor of a family stands in its code. -/
theorem hasItem_visitor (hon : ctx.features.interfaces = true)
    (ha : (ctx.model.message a).isAbstract = true)
    (h : definitionCode ctx (.message a) = .ok code) :
    HasItem code (visitorHead ctx.model ctx.generics a (inheritedVisitors ctx.model a))
      ((declaredCases ctx.model a).flatMap (caseCode ctx.model ctx.generics)) := by
  obtain ⟨fields, inherited, -, -, h⟩ := messageCode_ok h
  rw [if_pos ha] at h
  obtain ⟨cases, added, data, rfl, -, -, -, rfl⟩ := familyCode_ok h rfl
  have htrait : HasItem (visitorTrait ctx.model ctx.generics a (Cases.of ctx.model a))
      (visitorHead ctx.model ctx.generics a (inheritedVisitors ctx.model a))
      ((declaredCases ctx.model a).flatMap (caseCode ctx.model ctx.generics)) := by
    rw [visitorTrait_eq_head]
    split
    · next hnone =>
        rw [List.isEmpty_iff.mp hnone]
        exact hasItem_line (by simp)
    · exact hasItem_block (by simp) (by simp)
  rw [when, if_pos hon]
  exact (((((htrait.append _).append _).append _).append _).append _).append _

section Families

variable (hm : ctx.model.IsForest) (habs : ctx.model.AbstractAbove)
  (hcode : ∀ r, ctx.model.Has r → definitionCode ctx r = .ok (itemsOf ctx r))
  (hon : ctx.features.interfaces = true) (ha : (ctx.model.message a).isAbstract = true)

include hm habs hcode hon ha

/-- A visitor has a method for each of its cases where those that it inherits have. -/
theorem visits_of_inherited (hinherited : ∀ b ∈ inheritedVisitors ctx.model a,
      Visits ctx b ((visitorCases ctx.model b).map fun c =>
        visitMethod (ctx.model.message c).name)) :
    Visits ctx a ((visitorCases ctx.model a).map fun c =>
      visitMethod (ctx.model.message c).name) := by
  have hlt : a < ctx.model.messages.length := by
    by_contra hle
    rw [Model.message_of_le (Nat.le_of_not_lt hle)] at ha
    contradiction
  rw [visitorCases_eq hm habs, List.map_append, List.map_flatMap,
    ← methodNames_cases ctx.model ctx.generics]
  exact .visitor _ (hasItem_visitor hon ha (hcode (.message a) hlt)) hinherited

/-- The visitor of a message has a method for each of its cases. -/
theorem visits_visitorCases (hdepth : DeepEnough ctx.model depth a) :
    Visits ctx a ((visitorCases ctx.model a).map fun c =>
      visitMethod (ctx.model.message c).name) := by
  induction depth generalizing a with
  | zero =>
      refine visits_of_inherited hm habs hcode hon ha fun b hb => ?_
      have habove := Model.mem_ascent_of_mem_variants hm (mem_inheritedVisitors.mp hb).1
      exact absurd (hdepth b habove) (Nat.not_le.mpr (Model.length_ascent_lt hm habove))
  | succ depth ih =>
      exact visits_of_inherited hm habs hcode hon ha fun b hb =>
        ih (mem_inheritedVisitors.mp hb).2 (hdepth.inherited hm habs hb)

end Families

/-- No two concrete messages below a message have one method. -/
def VisitsApart (m : Model) (id : MessageId) : Prop :=
  ∀ c ∈ m.concreteDescendants id, ∀ c' ∈ m.concreteDescendants id,
    snakeCase (typeName (m.message c).name) = snakeCase (typeName (m.message c').name) → c = c'

instance : Decidable (VisitsApart m id) :=
  inferInstanceAs (Decidable (∀ c ∈ m.concreteDescendants id, ∀ c' ∈ m.concreteDescendants id,
    snakeCase (typeName (m.message c).name) = snakeCase (typeName (m.message c').name) → c = c'))

theorem mem_visitorCases_iff (hm : m.IsForest) (habs : m.AbstractAbove) {c : MessageId} :
    c ∈ visitorCases m a ↔ c ∈ m.concreteDescendants a := by
  rw [mem_visitorCases hm habs, Model.mem_ancestors, Model.mem_concreteDescendants_iff hm]

theorem nodup_visits_iff (hm : m.IsForest) (habs : m.AbstractAbove) :
    ((visitorCases m a).map fun c => visitMethod (m.message c).name).Nodup ↔ VisitsApart m a := by
  rw [List.nodup_map_iff_inj_on (nodup_visitorCases hm habs a)]
  simp only [visitMethod_eq_iff, mem_visitorCases_iff hm habs, VisitsApart]

/-- With settled names, visitors have distinct methods. -/
theorem visitsApart_of_settled (hm : m.IsForest) (hnames : ((definitionsOf m).map m.nameOf).Nodup)
    (hall : ∀ r, r ∈ definitionsOf m ↔ m.Has r)
    (hsettled : ∀ r ∈ definitionsOf m, Settled (m.nameOf r)) (a : MessageId) : VisitsApart m a := by
  have hmem : ∀ c ∈ m.concreteDescendants a, .message c ∈ definitionsOf m := by
    intro c hc
    rw [hall]
    exact Model.lt_of_mem_ascent ((Model.mem_concreteDescendants_iff hm).mp hc).1
  intro c hc c' hc' heq
  have hname : m.nameOf (.message c) = m.nameOf (.message c') :=
    (hsettled _ (hmem c hc)).eq_of_visitMethod (hsettled _ (hmem c' hc'))
      (visitMethod_eq_iff.mpr heq)
  exact Reference.message.inj (List.inj_on_of_nodup_map hnames (hmem c hc) (hmem c' hc') hname)

/-! ## the module of a schema -/

/-- The code of the definitions of a schema. -/
def unitCodes (ctx : Context) : List Code :=
  ctx.model.roots.map fun root => (ctx.model.unitMembers root).flatMap (itemsOf ctx)

/-- A context in which every definition of a schema has code. -/
structure Emits (schema : Schema) (ctx : Context) : Prop where
  model : Model.ofSchema schema = .ok ctx.model
  plugins : ∀ plugin ∈ ctx.plugins, plugin = xmlPlugin
  code : ∀ r, ctx.model.Has r → definitionCode ctx r = .ok (itemsOf ctx r)

/-- What a schema compiles to is the text of the code of its definitions. -/
theorem exists_emits {config : Config} (h : compile builtinPlugins config schema = .ok text) :
    ∃ ctx, Emits schema ctx ∧ ctx.features = Features.resolve config ctx.model ∧
      text = ((unitCodes ctx).map Code.render).foldl (· ++ ·) (header ++ "\n") := by
  obtain ⟨m, hanalyze, h'⟩ := Except.bind_eq_ok h
  obtain ⟨code, hgenerate, htext⟩ := Except.bind_eq_ok h'
  cases htext
  have hmodel := analyze_eq_ok_iff.mp hanalyze
  obtain ⟨m₀, hresolve, hidentify⟩ := Except.bind_eq_ok hmodel
  obtain ⟨plugins, hselect, hcode, hemits⟩ := emitsEach_of_generate hresolve
    (Model.sameOutline_of_identify hidentify) hgenerate
  have htexts : code.units.map (·.text) =
      (unitCodes (contextOf config m plugins)).map Code.render := by
    rw [hemits.texts, unitCodes, List.map_map]
    rfl
  refine ⟨contextOf config m plugins, ⟨hmodel, fun plugin hplugin =>
    ((select_builtinPlugins hselect).mp hplugin).1, hcode⟩, rfl, ?_⟩
  rw [CodeModule.render, ← htexts, List.foldl_map]

namespace Emits

variable (h : Emits schema ctx)

include h

theorem sameOutline : Model.SameOutline (Model.register schema) ctx.model :=
  Model.sameOutline_of_ofSchema h.model

theorem mem_definitionsOf : r ∈ definitionsOf ctx.model ↔ ctx.model.Has r :=
  Model.mem_units h.sameOutline

/-- Definitions have names of their own. -/
theorem nodup_nameOf : ((definitionsOf ctx.model).map ctx.model.nameOf).Nodup := by
  obtain ⟨m₀, hresolve, hidentify⟩ := Except.bind_eq_ok h.model
  obtain ⟨linked, -, hlinked, -⟩ := Model.resolve_eq_ok_iff.mp hresolve
  have hsame := Model.sameOutline_of_identify hidentify
  have hdefinitions : definitionsOf ctx.model = m₀.roots.flatMap m₀.unitMembers := by
    rw [definitionsOf, hsame.roots]
    exact List.flatMap_congr fun root _ => hsame.unitMembers root
  have hnames : (Model.definitions schema).map Schema.Definition.name =
      (definitionsOf ctx.model).map ctx.model.nameOf := by
    rw [hdefinitions]
    refine map_eq_of_forall₂ ((Model.forall₂_units hresolve).imp fun d r hd => ?_)
    rw [hsame.nameOf, hd.nameOf_eq]
  rw [← hnames]
  exact hlinked.nodup

/-- The items of a module are those of its definitions. -/
theorem itemNames_eq : (unitCodes ctx).flatMap itemNames =
    (definitionsOf ctx.model).flatMap (namesOfItems ctx.model ctx.features.interfaces) := by
  have hcode : ∀ r ∈ definitionsOf ctx.model, definitionCode ctx r = .ok (itemsOf ctx r) :=
    fun r hr => h.code r (h.mem_definitionsOf.mp hr)
  have hbalanced : ∀ r ∈ definitionsOf ctx.model, Balanced (itemsOf ctx r) := fun r hr =>
    balanced_definitionCode (isBalanced_of_xml h.plugins) (hcode r hr)
  rw [unitCodes, definitionsOf, List.flatMap_map, List.flatMap_assoc]
  refine List.flatMap_congr fun root hroot => ?_
  have hmem : ∀ r ∈ ctx.model.unitMembers root, r ∈ definitionsOf ctx.model := fun r hr =>
    List.mem_flatMap.mpr ⟨root, hroot, hr⟩
  rw [itemNames_flatMap fun r hr => hbalanced r (hmem r hr)]
  exact List.flatMap_congr fun r hr => itemNames_definitionCode h.plugins (hcode r (hmem r hr))

theorem nodup_itemNames_iff : ((unitCodes ctx).flatMap itemNames).Nodup ↔
    ItemsApart ctx.model ctx.features.interfaces := by
  rw [h.itemNames_eq]
  exact nodup_items_iff (Model.nodup_units h.sameOutline)

theorem variants_iff (enum : EnumId) (hid : ctx.model.Has (.enumeration enum)) :
    ∃ body, HasItem (itemsOf ctx (.enumeration enum))
        s!"pub enum {typeName (ctx.model.enumeration enum).name}" body ∧
      ((variantNames body).Nodup ↔ VariantsApart (ctx.model.enumeration enum)) := by
  obtain ⟨draft, hpasses⟩ := Model.passes_of_ofSchema h.model
  obtain ⟨body, hbody, hvariants⟩ := exists_variants (ctx.model.enumeration enum)
  rw [← Except.ok.inj (h.code _ hid)]
  refine ⟨body, hbody, ?_⟩
  rw [hvariants]
  exact nodup_variants_iff (hpasses.constants enum).1

theorem visits_iff (hon : ctx.features.interfaces = true)
    (ha : (ctx.model.message a).isAbstract = true) :
    ∃ methods, Visits ctx a methods ∧ (methods.Nodup ↔ VisitsApart ctx.model a) := by
  obtain ⟨draft, hpasses⟩ := Model.passes_of_ofSchema h.model
  have hm := hpasses.isForest
  have habs := hpasses.abstractAbove
  exact ⟨_, visits_visitorCases hm habs h.code hon ha (deepEnough_length hm a),
    nodup_visits_iff hm habs⟩

theorem visitsApart (hsettled : ∀ r ∈ definitionsOf ctx.model, Settled (ctx.model.nameOf r)) :
    VisitsApart ctx.model a := by
  obtain ⟨draft, hpasses⟩ := Model.passes_of_ofSchema h.model
  exact visitsApart_of_settled hpasses.isForest h.nodup_nameOf (fun _ => h.mem_definitionsOf)
    hsettled a

end Emits

/-- **Names of emitted code clash where they become one.**  The items of a module are the types of
its definitions, and for each family the structure with its fields and its visitor.  They are
distinct where no two definitions have one name after it is put into camel case, and none has the
name that a family has for one of these.  So it is with the constants of an enumeration, and with
the methods that a visitor declares and inherits, whose names go through two cases.  Where all names
are those of their types already, only definitions that are named like the structure or the visitor
of a family clash. -/
theorem items_distinct_iff {config : Config} (h : compile builtinPlugins config schema = .ok text) :
    ∃ ctx : Context, Model.ofSchema schema = .ok ctx.model ∧
      ctx.features = Features.resolve config ctx.model ∧
      text = ((unitCodes ctx).map Code.render).foldl (· ++ ·) (header ++ "\n") ∧
      (unitCodes ctx).flatMap itemNames =
        (definitionsOf ctx.model).flatMap (namesOfItems ctx.model ctx.features.interfaces) ∧
      (((unitCodes ctx).flatMap itemNames).Nodup ↔
        ItemsApart ctx.model ctx.features.interfaces) ∧
      (∀ enum, ctx.model.Has (.enumeration enum) →
        ∃ body, HasItem (itemsOf ctx (.enumeration enum))
            s!"pub enum {typeName (ctx.model.enumeration enum).name}" body ∧
          ((variantNames body).Nodup ↔ VariantsApart (ctx.model.enumeration enum))) ∧
      (ctx.features.interfaces = true → ∀ id, (ctx.model.message id).isAbstract = true →
        ∃ methods, Visits ctx id methods ∧ (methods.Nodup ↔ VisitsApart ctx.model id)) ∧
      ((∀ r ∈ definitionsOf ctx.model, Settled (ctx.model.nameOf r)) →
        (∀ id, VisitsApart ctx.model id) ∧
        (ItemsApart ctx.model ctx.features.interfaces ↔
          ∀ r ∈ definitionsOf ctx.model, isFamily ctx.model r = true →
            ∀ r' ∈ definitionsOf ctx.model,
              ctx.model.nameOf r' ≠ ctx.model.nameOf r ++ "Base" ∧
              (ctx.features.interfaces = true →
                ctx.model.nameOf r' ≠ ctx.model.nameOf r ++ "Visitor"))) := by
  obtain ⟨ctx, hemits, hfeatures, htext⟩ := exists_emits h
  refine ⟨ctx, hemits.model, hfeatures, htext, hemits.itemNames_eq, hemits.nodup_itemNames_iff,
    hemits.variants_iff, fun hon id => hemits.visits_iff hon, fun hsettled => ?_⟩
  exact ⟨fun id => hemits.visitsApart hsettled,
    itemsApart_iff_of_settled hemits.nodup_nameOf hsettled⟩

theorem items_distinct_iff_zoo : ∃ text ctx,
    compile builtinPlugins { plugins := ["xml"] } Example.zoo = .ok text ∧
    text = ((unitCodes ctx).map Code.render).foldl (· ++ ·) (header ++ "\n") ∧
    ((unitCodes ctx).flatMap itemNames).Nodup ∧
    (∃ body, HasItem (itemsOf ctx (.enumeration 0)) "pub enum Level" body ∧
      (variantNames body).Nodup) ∧
    ∃ methods, Visits ctx 0 methods ∧ methods.Nodup := by
  have hcompile : (compile builtinPlugins { plugins := ["xml"] } Example.zoo).toOption.isSome := by
    decide +kernel
  have hmodel : (Model.ofSchema Example.zoo).toOption.any (fun m =>
      decide ((Features.resolve { plugins := ["xml"] } m).interfaces = true ∧
        (m.message 0).isAbstract = true ∧ 0 < m.enumerations.length ∧
        typeName (m.enumeration 0).name = "Level" ∧ ItemsApart m true ∧
        VariantsApart (m.enumeration 0) ∧ VisitsApart m 0)) = true := by
    decide +kernel
  obtain ⟨text, htext⟩ := Option.isSome_iff_exists.mp hcompile
  have htext := Except.toOption_eq_some.mp htext
  obtain ⟨ctx, hctx, hfeatures, hrender, -, hitems, hvariants, hvisits, -⟩ :=
    items_distinct_iff htext
  obtain ⟨m, hm, hfacts⟩ := (Option.any_eq_true _ _).mp hmodel
  have heq : ctx.model = m :=
    Except.ok.inj (hctx.symm.trans (Except.toOption_eq_some.mp hm))
  obtain ⟨hon, habstract, hlt, hname, hitems', hvariants', hvisits'⟩ := of_decide_eq_true hfacts
  rw [← heq] at hon habstract hlt hname hitems' hvariants' hvisits'
  rw [← hfeatures] at hon
  obtain ⟨body, hbody, hbody'⟩ := hvariants 0 hlt
  obtain ⟨methods, hmethods, hmethods'⟩ := hvisits hon 0 habstract
  rw [hname] at hbody
  rw [hon] at hitems
  exact ⟨text, ctx, htext, hrender, hitems.mpr hitems', ⟨body, hbody, hbody'.mpr hvariants'⟩,
    methods, hmethods, hmethods'.mpr hvisits'⟩

open Schema Schema.Definition in
/-- Messages, constants and members of a family with names of their own, which become one. -/
def echoes : Schema := .ofDefinitions
  [ofFields "Shape" [], ofFields "shape" [], ofNames "Tone" ["RED", "red"], ofFamily "Node" [],
    (ofFields "a_b" []).extending "Node", (ofFields "ab" []).extending "Node"]

theorem echoes_items_collide : ∃ text ctx, compile builtinPlugins {} echoes = .ok text ∧
    text = ((unitCodes ctx).map Code.render).foldl (· ++ ·) (header ++ "\n") ∧
    ¬ ((unitCodes ctx).flatMap itemNames).Nodup ∧
    (∃ body, HasItem (itemsOf ctx (.enumeration 0)) "pub enum Tone" body ∧
      ¬ (variantNames body).Nodup) ∧
    ∃ methods, Visits ctx 2 methods ∧ ¬ methods.Nodup := by
  have hcompile : (compile builtinPlugins {} echoes).toOption.isSome := by
    decide +kernel
  have hmodel : (Model.ofSchema echoes).toOption.any (fun m =>
      decide ((Features.resolve {} m).interfaces = true ∧ (m.message 2).isAbstract = true ∧
        0 < m.enumerations.length ∧ typeName (m.enumeration 0).name = "Tone" ∧
        ¬ ItemsApart m true ∧ ¬ VariantsApart (m.enumeration 0) ∧ ¬ VisitsApart m 2)) = true := by
    decide +kernel
  obtain ⟨text, htext⟩ := Option.isSome_iff_exists.mp hcompile
  have htext := Except.toOption_eq_some.mp htext
  obtain ⟨ctx, hemits, hfeatures, hrender⟩ := exists_emits htext
  obtain ⟨m, hm, hfacts⟩ := (Option.any_eq_true _ _).mp hmodel
  have heq : ctx.model = m :=
    Except.ok.inj (hemits.model.symm.trans (Except.toOption_eq_some.mp hm))
  obtain ⟨hon, habstract, hlt, hname, hitems, hvariants, hvisits⟩ := of_decide_eq_true hfacts
  rw [← heq] at hon habstract hlt hname hitems hvariants hvisits
  rw [← hfeatures] at hon
  obtain ⟨body, hbody, hbody'⟩ := hemits.variants_iff 0 hlt
  obtain ⟨methods, hmethods, hmethods'⟩ := hemits.visits_iff hon habstract
  rw [hname] at hbody
  rw [← hon] at hitems
  exact ⟨text, ctx, htext, hrender, mt hemits.nodup_itemNames_iff.mp hitems,
    ⟨body, hbody, mt hbody'.mp hvariants⟩, methods, hmethods, mt hmethods'.mp hvisits⟩

end Missive.Source
