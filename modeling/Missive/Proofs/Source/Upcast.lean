import Missive.Proofs.Message.Catalog
import Missive.Proofs.Source.Generation
import Missive.Proofs.Source.Instance

/-!
# Missive.Proofs.Source.Upcast

The emitted conversions to abstract messages, and what is left of a value behind them.

A conversion makes a value a case of its own, or converts it to the abstract message of a case and
makes that the case (`Route`).  Whatever way is taken, the content stays what it was, and there is
one value of an abstract message with that content.  Therefore it does not matter by which messages
a value comes to an abstract one, and nothing that a method can find out changes
(`upcast_transparent`).
-/

namespace Missive.Source

open Model (ofSchema)

variable {schema : Schema} {m : Model} {a b x : MessageId} {depth : Nat}

/-! ## conversions -/

/-- How a value becomes one of an abstract message: as a case of its own, or inside the abstract
case that stands between. -/
inductive Route where
  | own
  | through (holder : MessageId)

/-- The expression of a conversion. -/
def Route.code (m : Model) (a x : MessageId) : Route → String
  | .own => s!"{typeName (m.message a).name}::{typeName (m.message x).name}(value)"
  | .through holder =>
    let type := typeName (m.message holder).name
    s!"{typeName (m.message a).name}::{type}({type}::from(value))"

/-- How a message that extends an abstract message becomes a value of it. -/
def route? (m : Model) (a x : MessageId) : Option Route :=
  if x ∈ m.variants a then some .own
  else
    ((m.variants a).find? fun b =>
      (m.message b).isAbstract && (m.descendants b).contains x).map Route.through

theorem upcast?_eq (m : Model) (a x : MessageId) :
    upcast? m (Cases.of m a) x = (route? m a x).map (Route.code m a x) := by
  have hany : (Cases.of m a).items.any (·.id == x) = decide (x ∈ m.variants a) := by
    rw [Bool.eq_iff_iff]
    simp [Cases.of]
  rw [upcast?, hany, route?]
  by_cases hx : x ∈ m.variants a
  · simp only [hx, decide_true, if_true, Option.map_some, Route.code, Cases.of]
  · simp only [hx, decide_false, Bool.false_eq_true, if_false, Cases.of, List.find?_map,
      Option.map_map, Function.comp_def, Route.code]

/-- A message that becomes a value of another extends it. -/
theorem mem_ascent_of_route (hm : m.IsForest) (h : route? m a x = some route) :
    a ∈ m.ascent x := by
  rw [route?] at h
  split at h
  · next hx => exact Model.mem_ascent_of_mem_variants hm hx
  · obtain ⟨holder, hfind, rfl⟩ := Option.map_eq_some_iff.1 h
    have hholder := Model.mem_ascent_of_mem_variants hm (List.mem_of_find?_eq_some hfind)
    have hbelow := List.find?_some hfind
    rw [Bool.and_eq_true, List.contains_iff_mem, Model.mem_descendants_iff hm] at hbelow
    exact Model.mem_ascent_trans hm hholder (.tail _ hbelow.2)

/-- A message below another is a case of it, or below the abstract case that its route goes
through. -/
theorem route?_cases (hm : m.IsForest) (h : a ∈ m.ascent x) :
    (route? m a x = some .own ∧ x ∈ m.variants a) ∨
    ∃ holder, route? m a x = some (.through holder) ∧ holder ∈ inheritedVisitors m a ∧
      holder ∈ m.ascent x := by
  by_cases hx : x ∈ m.variants a
  · exact .inl ⟨if_pos hx, hx⟩
  · obtain hcase | ⟨b, hb, hbabs, hbelow⟩ := Model.mem_variants_or_below hm h
    · contradiction
    · have hsome : ((m.variants a).find? fun b =>
          (m.message b).isAbstract && (m.descendants b).contains x).isSome = true := by
        rw [List.find?_isSome]
        exact ⟨b, hb, by simp [hbabs, Model.mem_descendants_iff hm, hbelow]⟩
      obtain ⟨holder, hfind⟩ := Option.isSome_iff_exists.1 hsome
      have hholder := List.find?_some hfind
      rw [Bool.and_eq_true, List.contains_iff_mem, Model.mem_descendants_iff hm] at hholder
      refine .inr ⟨holder, ?_, mem_inheritedVisitors.2 ⟨List.mem_of_find?_eq_some hfind,
        hholder.1⟩, hholder.2⟩
      rw [route?, if_neg hx, hfind, Option.map_some]

namespace Instance

/-- A value as a case of an abstract message, if there is a case for it. -/
def wrap? (a : MessageId) (v : Instance m b) : Option (Instance m a) :=
  if h : (m.message a).isAbstract = true ∧ b ∈ m.variants a then some (.case h.1 h.2 v) else none

/-- Convert a value to an abstract message, over at most `depth` messages. -/
def intoWithin : Nat → (a : MessageId) → Instance m x → Option (Instance m a)
  | 0, _, _ => none
  | depth + 1, a, v =>
    match route? m a x with
    | some .own => v.wrap? a
    | some (.through holder) => (intoWithin depth holder v).bind (wrap? a)
    | none => none

/-- Convert a value to an abstract message; nothing comes of it if there is no conversion. -/
def into? (a : MessageId) (v : Instance m x) : Option (Instance m a) :=
  intoWithin m.messages.length a v

theorem content_wrap? {v : Instance m b} {w : Instance m a} (h : v.wrap? a = some w) :
    w.content = v.content := by
  rw [wrap?] at h
  split at h
  · cases h; rfl
  · contradiction

theorem exists_wrap? (ha : (m.message a).isAbstract = true) (hb : b ∈ m.variants a)
    (v : Instance m b) : ∃ w : Instance m a, v.wrap? a = some w :=
  ⟨.case ha hb v, dif_pos ⟨ha, hb⟩⟩

/-- A conversion keeps the content. -/
theorem content_intoWithin {v : Instance m x} {w : Instance m a}
    (h : intoWithin depth a v = some w) : w.content = v.content := by
  induction depth generalizing a with
  | zero => contradiction
  | succ depth ih =>
      rw [intoWithin] at h
      split at h
      · exact content_wrap? h
      · obtain ⟨u, hu, hw⟩ := Option.bind_eq_some_iff.1 h
        rw [content_wrap? hw, ih hu]
      · contradiction

/-- There are conversions only to abstract messages that the message of the value extends. -/
theorem of_intoWithin (hm : m.IsForest) {v : Instance m x} {w : Instance m a}
    (h : intoWithin depth a v = some w) :
    (m.message a).isAbstract = true ∧ a ∈ m.ascent x := by
  cases depth with
  | zero => contradiction
  | succ depth =>
      rw [intoWithin] at h
      have hwrap : ∀ {b} {u : Instance m b}, u.wrap? a = some w →
          (m.message a).isAbstract = true := by
        intro b u hu
        rw [wrap?] at hu
        split at hu
        · next hab => exact hab.1
        · contradiction
      split at h
      · next hroute => exact ⟨hwrap h, mem_ascent_of_route hm hroute⟩
      · next hroute =>
          obtain ⟨u, -, hw⟩ := Option.bind_eq_some_iff.1 h
          exact ⟨hwrap hw, mem_ascent_of_route hm hroute⟩
      · contradiction

/-- There are conversions to all abstract messages that the message of the value extends. -/
theorem exists_intoWithin (hm : m.IsForest) (habs : m.AbstractAbove)
    (hdepth : DeepEnough m depth a) (ha : (m.message a).isAbstract = true)
    (habove : a ∈ m.ascent x) (v : Instance m x) :
    ∃ w : Instance m a, intoWithin depth a v = some w := by
  induction depth generalizing a with
  | zero => exact absurd (hdepth x habove) (Nat.not_le.mpr (Model.length_ascent_lt hm habove))
  | succ depth ih =>
      obtain ⟨hroute, hx⟩ | ⟨holder, hroute, hholder, hbelow⟩ := route?_cases hm habove
      · rw [intoWithin, hroute]
        exact exists_wrap? ha hx v
      · obtain ⟨hcase, hholderAbs⟩ := mem_inheritedVisitors.1 hholder
        obtain ⟨u, hu⟩ := ih (hdepth.inherited hm habs hholder) hholderAbs hbelow
        rw [intoWithin, hroute]
        simp only [hu, Option.bind_some]
        exact exists_wrap? ha hcase u

/-- A greater depth changes nothing where no line is that long. -/
theorem intoWithin_succ (hm : m.IsForest) (habs : m.AbstractAbove) (hdepth : DeepEnough m depth a)
    (v : Instance m x) : intoWithin (depth + 1) a v = intoWithin depth a v := by
  have hdepth' : DeepEnough m (depth + 1) a := fun y hy => (hdepth y hy).trans (Nat.le_succ _)
  by_cases h : (m.message a).isAbstract = true ∧ a ∈ m.ascent x
  · obtain ⟨w, hw⟩ := exists_intoWithin hm habs hdepth h.1 h.2 v
    obtain ⟨w', hw'⟩ := exists_intoWithin hm habs hdepth' h.1 h.2 v
    rw [hw, hw', eq_of_content hm habs w w']
    rw [content_intoWithin hw, content_intoWithin hw']
  · have hnone : ∀ depth, intoWithin depth a v = none := fun depth =>
      Option.eq_none_iff_forall_ne_some.2 fun w hw => h (of_intoWithin hm hw)
    rw [hnone, hnone]

/-- A conversion goes the way of its route. -/
theorem into?_eq (hm : m.IsForest) (habs : m.AbstractAbove) (a : MessageId) (v : Instance m x) :
    v.into? a = match route? m a x with
      | some .own => v.wrap? a
      | some (.through holder) => (v.into? holder).bind (wrap? a)
      | none => none := by
  rw [into?, ← intoWithin_succ hm habs (deepEnough_length hm a)]
  rfl

theorem content_into? {v : Instance m x} {w : Instance m a} (h : v.into? a = some w) :
    w.content = v.content := content_intoWithin h

theorem exists_into? (hm : m.IsForest) (habs : m.AbstractAbove)
    (ha : (m.message a).isAbstract = true) (habove : a ∈ m.ascent x) (v : Instance m x) :
    ∃ w : Instance m a, v.into? a = some w :=
  exists_intoWithin hm habs (deepEnough_length hm a) ha habove v

end Instance

/-! ## visitors -/

/-- What a visitor does in each of its cases, with a state of its own. -/
structure Visitor (cases : List MessageId) (σ A R : Type) where
  call : (x : MessageId) → x ∈ cases → Message → A → StateM σ R

/-- A visitor is a visitor of the messages whose visitors it inherits. -/
def Visitor.inherited {cases cases' : List MessageId} {σ A R : Type} (visitor : Visitor cases σ A R)
    (h : cases' ⊆ cases) : Visitor cases' σ A R where
  call x hx := visitor.call x (h hx)

theorem mem_visitorCases_of_declared (hm : m.IsForest) (habs : m.AbstractAbove)
    (hb : b ∈ m.variants a) (hconcrete : (m.message b).isAbstract = false) :
    b ∈ visitorCases m a := by
  rw [visitorCases_eq hm habs, List.mem_append]
  exact .inl (mem_declaredCases.2 ⟨hb, hconcrete⟩)

theorem visitorCases_subset_of_inherited (hm : m.IsForest) (habs : m.AbstractAbove)
    (hb : b ∈ m.variants a) (habstract : (m.message b).isAbstract = true) :
    visitorCases m b ⊆ visitorCases m a := by
  intro x hx
  rw [visitorCases_eq hm habs, List.mem_append]
  exact .inr (List.mem_flatMap.2 ⟨b, mem_inheritedVisitors.2 ⟨hb, habstract⟩, hx⟩)

namespace Instance

/-- Visit a value of an abstract message: the case of a concrete message is visited, that of an
abstract one forwards to what it holds. -/
def visit {σ A R : Type} (hm : m.IsForest) (habs : m.AbstractAbove) : {a : MessageId} →
    Instance m a → (m.message a).isAbstract = true → Visitor (visitorCases m a) σ A R → A →
    StateM σ R
  | _, .plain hx _, ha, _, _ => absurd ha (by rw [hx]; decide)
  | _, @case _ _ b _ hb inner, _, visitor, arg =>
    if habstract : (m.message b).isAbstract = true then
      inner.visit hm habs habstract
        (visitor.inherited (visitorCases_subset_of_inherited hm habs hb habstract)) arg
    else
      visitor.call b (mem_visitorCases_of_declared hm habs hb (by simpa using habstract))
        inner.content arg

/-- The type of the content is one of the cases of a visitor. -/
theorem type_content_mem (hm : m.IsForest) (habs : m.AbstractAbove) (v : Instance m a)
    (ha : (m.message a).isAbstract = true) : v.content.type ∈ visitorCases m a := by
  rw [mem_visitorCases hm habs, Model.mem_ancestors]
  refine ⟨?_, v.isAbstract_content⟩
  obtain heq | habove := Model.mem_line_iff.1 (v.mem_line_content hm)
  · rw [heq, v.isAbstract_content] at ha
    contradiction
  · exact habove

/-- A visit is one call, of the case of the content. -/
theorem visit_eq {σ A R : Type} (hm : m.IsForest) (habs : m.AbstractAbove) (v : Instance m a)
    (ha : (m.message a).isAbstract = true) (visitor : Visitor (visitorCases m a) σ A R) (arg : A) :
    v.visit hm habs ha visitor arg =
      visitor.call v.content.type (v.type_content_mem hm habs ha) v.content arg := by
  induction v with
  | plain hx fields => rw [hx] at ha; contradiction
  | @case a b _ hb inner ih =>
      by_cases habstract : (m.message b).isAbstract = true
      · rw [visit, dif_pos habstract, ih habstract]
        rfl
      · rw [visit, dif_neg habstract]
        cases inner with
        | plain hx fields => rfl
        | case hb' _ _ => contradiction

end Instance

/-! ## the emitted code -/

/-- What `visit` does in the case of a message. -/
def visitArm (m : Model) (b : MessageId) : String :=
  if (m.message b).isAbstract then "inner.visit(visitor, arg)"
  else s!"visitor.{visitMethod (m.message b).name}(inner, arg)"

/-- The code of a method that calls the same method on what the case holds. -/
def forwarding (m : Model) (a : MessageId) (call : String) : Code :=
  (Cases.of m a).dispatch (fun _ => call) none

/-- The conversion of a message to an abstract one, on a route. -/
def conversionCode (m : Model) (a x : MessageId) (route : Route) : Code :=
  item s!"impl From<{typeName (m.message x).name}> for {typeName (m.message a).name}"
    (block s!"fn from(value: {typeName (m.message x).name}) -> Self" (line (route.code m a x)))

/-- The emitted code of an abstract message converts by routes, visits by arms, and forwards all
other methods. -/
structure IsEmitted (m : Model) (g : Generics) (runtime : String) (a : MessageId) : Prop where
  conversion : ∀ x, upcast? m (Cases.of m a) x = (route? m a x).map (Route.code m a x)
  conversions : upcasts m a (Cases.of m a) = (m.descendants a).flatMap fun x =>
    (route? m a x).toList.flatMap (conversionCode m a x)
  visit : (Cases.of m a).dispatch (fun c => visitArm m c.id) none <:+:
    visitFamilyMethod m g a (Cases.of m a)
  json : ∀ call ∈ ["inner.json_type()", "inner.write_json_content(writer)"],
    forwarding m a call <:+: jsonFamilyMethods m runtime a (Cases.of m a)
  /-- The name of the type, and then the properties. -/
  namedJson : line "writer.write_str(self.json_type());" ++ line "self.write_json_content(writer);"
    <:+: jsonFamilyMethods m runtime a (Cases.of m a)
  binary : ∀ call ∈ ["inner.type_id()", "inner.write_binary(writer)"],
    forwarding m a call <:+: binaryFamilyMethods m runtime a (Cases.of m a)
  properties : ∀ call ∈ ["inner.property_names()", "inner.reflect_get(name)",
      "inner.reflect_set(name, value)"],
    forwarding m a call <:+: propertyFamilyMethods runtime (Cases.of m a)

/-- The code of an abstract message has its conversions, and the methods that its features ask
for. -/
structure HasParts (ctx : Context) (a : MessageId) (code : Code) : Prop where
  conversions : upcasts ctx.model a (Cases.of ctx.model a) <:+: code
  json : jsonFamilyMethods ctx.model ctx.runtime a (Cases.of ctx.model a) <:+: code
  binary : ctx.features.binary = true →
    binaryFamilyMethods ctx.model ctx.runtime a (Cases.of ctx.model a) <:+: code
  properties : ctx.features.reflection = true →
    propertyFamilyMethods ctx.runtime (Cases.of ctx.model a) <:+: code
  visit : ctx.features.interfaces = true →
    visitFamilyMethod ctx.model ctx.generics a (Cases.of ctx.model a) <:+: code

theorem infix_append {body code : Code} (h : body <:+: code) (rest : Code) :
    body <:+: code ++ rest := h.trans (List.prefix_append _ _).isInfix

theorem infix_last (before body : Code) : body <:+: before ++ body :=
  (List.suffix_append _ _).isInfix

theorem infix_last_two (before body body' : Code) : body ++ body' <:+: before ++ body ++ body' := by
  rw [List.append_assoc]
  exact infix_last before (body ++ body')

theorem infix_when {condition : Bool} (h : condition = true) (before body : Code) :
    body <:+: before ++ when condition body := by
  rw [when, if_pos h]
  exact infix_last before body

theorem upcasts_eq (m : Model) (a : MessageId) :
    upcasts m a (Cases.of m a) = (m.descendants a).flatMap fun x =>
      (route? m a x).toList.flatMap (conversionCode m a x) := by
  have htype : (Cases.of m a).typeName = typeName (m.message a).name := by rw [Cases.of]
  refine List.flatMap_congr fun x _ => ?_
  rw [upcast?_eq, Option.toList_map, List.flatMap_map]
  refine List.flatMap_congr fun route _ => ?_
  simp only [conversionCode, item, block, List.append_assoc, htype]

theorem dispatch_visitArm (m : Model) (g : Generics) (a : MessageId) :
    (Cases.of m a).dispatch (fun c => visitArm m c.id) none <:+:
      visitFamilyMethod m g a (Cases.of m a) := by
  have harm : ∀ c ∈ (Cases.of m a).items, visitArm m c.id =
      if c.isAbstract then "inner.visit(visitor, arg)"
      else s!"visitor.{visitMethod (m.message c.id).name}(inner, arg)" := by
    intro c hc
    obtain ⟨b, -, rfl⟩ := List.mem_map.1 hc
    rfl
  rw [visitFamilyMethod, Cases.dispatch, Cases.dispatch,
    List.flatMap_congr fun c hc => by rw [harm c hc]]
  exact infix_append (infix_last _ _) _

theorem isEmitted (m : Model) (g : Generics) (runtime : String) (a : MessageId) :
    IsEmitted m g runtime a where
  conversion := upcast?_eq m a
  conversions := upcasts_eq m a
  visit := dispatch_visitArm m g a
  json := by
    simp only [List.forall_mem_cons, List.not_mem_nil, false_implies, implies_true, and_true]
    unfold jsonFamilyMethods
    constructor
    · exact infix_append (infix_last _ _) _
    · iterate 6 refine infix_append ?_ _
      exact infix_last _ _
  namedJson := by
    unfold jsonFamilyMethods
    iterate 11 refine infix_append ?_ _
    exact infix_last_two _ _ _
  binary := by
    simp only [List.forall_mem_cons, List.not_mem_nil, false_implies, implies_true, and_true]
    unfold binaryFamilyMethods
    constructor
    · exact infix_append (infix_last _ _) _
    · iterate 6 refine infix_append ?_ _
      exact infix_last _ _
  properties := by
    simp only [List.forall_mem_cons, List.not_mem_nil, false_implies, implies_true, and_true]
    unfold propertyFamilyMethods
    refine ⟨?_, ?_, ?_⟩
    · iterate 9 refine infix_append ?_ _
      exact infix_last _ _
    · iterate 5 refine infix_append ?_ _
      exact infix_last _ _
    · exact infix_append (infix_last _ _) _

theorem hasParts_of_definitionCode {ctx : Context} {code : Code}
    (ha : (ctx.model.message a).isAbstract = true)
    (h : definitionCode ctx (.message a) = .ok code) : HasParts ctx a code := by
  obtain ⟨fields, inherited, -, -, h⟩ := messageCode_ok h
  rw [if_pos ha] at h
  obtain ⟨cases, added, data, rfl, -, -, -, hcode⟩ := familyCode_ok h rfl
  have hmembers : familyMembers ctx (viewOf ctx a fields inherited) (Cases.of ctx.model a) <:+:
      code := by
    rw [hcode]
    iterate 3 refine infix_append ?_ _
    exact infix_last _ _
  constructor
  case conversions =>
    rw [hcode]
    iterate 4 refine infix_append ?_ _
    exact infix_last _ _
  case json =>
    refine .trans ?_ hmembers
    unfold familyMembers
    iterate 4 refine infix_append ?_ _
    exact infix_last _ _
  case binary =>
    intro hon
    refine .trans ?_ hmembers
    unfold familyMembers
    iterate 3 refine infix_append ?_ _
    exact infix_when hon _ _
  case properties =>
    intro hon
    refine .trans ?_ hmembers
    unfold familyMembers
    iterate 2 refine infix_append ?_ _
    exact infix_when hon _ _
  case visit =>
    intro hon
    refine .trans ?_ hmembers
    unfold familyMembers
    exact infix_append (infix_when hon _ _) _

/-! ## transparency -/

/-- A value of an abstract message cannot be told from the message that it stands for. -/
structure Transparent (c : Catalog) (v : Message) (u : Instance m a) : Prop where
  jsonType : u.jsonType c = c.jsonType v.type
  typeId : u.typeId? c = c.typeId? v.type ∧ (c.typeId? v.type).isSome = true
  json : u.toJson c = c.toJson v
  binary : u.encode c = c.encode v
  properties : u.properties c = c.properties v
  get : ∀ name, u.get c name = c.get v name
  /-- A visit is one call of the case of the message, with the message and the argument. -/
  visit : ∀ (hm : m.IsForest) (habs : m.AbstractAbove) (ha : (m.message a).isAbstract = true),
    ∃ hx : v.type ∈ visitorCases m a,
      ∀ {σ A R : Type} (visitor : Visitor (visitorCases m a) σ A R) (arg : A),
        u.visit hm habs ha visitor arg = visitor.call v.type hx v arg

theorem transparent_content {c : Catalog} (hc : c.Lawful) (hmodel : c.model = m)
    (ha : (m.message a).isAbstract = true) (u : Instance m a) : Transparent c u.content u := by
  subst hmodel
  obtain ⟨habove, hconcrete⟩ := (mem_visitorCases hc.model.forest hc.model.abstractAbove).1
    (u.type_content_mem hc.model.forest hc.model.abstractAbove ha)
  have hfamily := Model.inFamily_of_mem_ascent (Model.mem_ancestors.1 habove) ha
  constructor
  case jsonType => exact u.dispatch_eq _
  case typeId =>
    refine ⟨u.dispatch_eq _, (hc.model.typeId_isSome _).2 ?_⟩
    exact Model.mem_familyMembers.2 ⟨Model.lt_of_inFamily hfamily, hfamily, hconcrete⟩
  case json =>
    rw [Catalog.toJson, if_pos hfamily, Catalog.named]
    cases u with
    | plain hx fields => rw [hx] at ha; contradiction
    | case ha hb inner =>
        simp only [Instance.toJson, Instance.jsonType, Instance.contentJson, Instance.dispatch_eq]
  case binary => exact u.dispatch_eq _
  case properties => exact u.dispatch_eq _
  case get => exact fun name => u.dispatch_eq _
  case visit =>
    exact fun hm habs ha => ⟨u.type_content_mem hm habs ha, fun visitor arg =>
      u.visit_eq hm habs ha visitor arg⟩

/-- **Upcasts are transparent.**  In the code of an accepted schema, all of whose fields can travel,
a value comes to the same value of an abstract message by way of an abstract message in between as
without it; and what a concrete message becomes has its discriminators, its JSON, its bytes and its
properties, and is visited as the message itself. -/
theorem upcast_transparent {c : Catalog} (hm : ofSchema schema = .ok m)
    (hc : Catalog.ofModel m = .ok c) (g : Generics) (runtime : String) :
    (∀ a, IsEmitted m g runtime a ∧
      (∀ ctx code, ctx.model = m → (m.message a).isAbstract = true →
        definitionCode ctx (.message a) = .ok code → HasParts ctx a code) ∧
      ∀ {x} (v : Instance m x), v.into? a = match route? m a x with
        | some .own => v.wrap? a
        | some (.through holder) => (v.into? holder).bind (Instance.wrap? a)
        | none => none) ∧
    (∀ a b x, (m.message a).isAbstract = true → (m.message b).isAbstract = true →
      a ∈ m.ancestors b → b ∈ m.ancestors x → ∀ v : Instance m x,
      ∃ (w : Instance m b) (u : Instance m a),
        v.into? b = some w ∧ w.into? a = some u ∧ v.into? a = some u) ∧
    ∀ a x, (m.message a).isAbstract = true → (hx : (m.message x).isAbstract = false) →
      a ∈ m.ancestors x → ∀ fields,
      ∃ u, Instance.into? a (.plain hx fields) = some u ∧ Transparent c ⟨x, fields⟩ u := by
  have hlawful := Catalog.lawful_of_ofSchema hm hc
  have hmodel := Catalog.model_of_ofModel hc
  obtain ⟨hforest, habs⟩ : m.IsForest ∧ m.AbstractAbove :=
    hmodel ▸ ⟨hlawful.model.forest, hlawful.model.abstractAbove⟩
  refine ⟨fun a => ⟨isEmitted m g runtime a, ?_, Instance.into?_eq hforest habs a⟩, ?_, ?_⟩
  · rintro ctx code rfl ha hcode
    exact hasParts_of_definitionCode ha hcode
  · intro a b x ha hb hab hbx v
    rw [Model.mem_ancestors] at hab hbx
    have hax := Model.mem_ascent_trans hforest hab (.tail _ hbx)
    obtain ⟨w, hw⟩ := v.exists_into? hforest habs hb hbx
    obtain ⟨u, hu⟩ := w.exists_into? hforest habs ha hab
    obtain ⟨u', hu'⟩ := v.exists_into? hforest habs ha hax
    have hcontent : u'.content = u.content := by
      rw [Instance.content_into? hu', Instance.content_into? hu, Instance.content_into? hw]
    exact ⟨w, u, hw, hu, hu'.trans (congrArg some (u'.eq_of_content hforest habs u hcontent))⟩
  · intro a x ha hx hax fields
    obtain ⟨u, hu⟩ := Instance.exists_into? hforest habs ha (Model.mem_ancestors.1 hax)
      (.plain hx fields)
    have hcontent : u.content = ⟨x, fields⟩ := Instance.content_into? hu
    exact ⟨u, hu, hcontent ▸ transparent_content hlawful hmodel ha u⟩

/-- A wolf is an animal by way of the wild ones, or at once. -/
theorem upcast_transparent_zoo : ∃ m c, ofSchema Example.zoo = .ok m ∧
    Catalog.ofModel m = .ok c ∧
    ∃ (hx : (m.message 4).isAbstract = false) (w : Instance m 3) (u : Instance m 0),
      Instance.into? 3 (.plain hx (c.new 4).fields) = some w ∧ w.into? 0 = some u ∧
      Instance.into? 0 (.plain hx (c.new 4).fields) = some u ∧ Transparent c (c.new 4) u := by
  have hcatalog : (Catalog.ofSchema? Example.zoo).any (fun c => decide
      ((c.model.message 0).isAbstract = true ∧ (c.model.message 3).isAbstract = true ∧
        (c.model.message 4).isAbstract = false ∧ 0 ∈ c.model.ancestors 3 ∧
        3 ∈ c.model.ancestors 4 ∧ 0 ∈ c.model.ancestors 4)) = true := by
    decide +kernel
  obtain ⟨m, c, hm, hc, hfacts⟩ := Catalog.exists_of_any hcatalog
  obtain ⟨hanimal, hwild, hwolf, hwildAnimal, hwolfWild, hwolfAnimal⟩ := of_decide_eq_true hfacts
  obtain rfl := Catalog.model_of_ofModel hc
  obtain ⟨-, hpaths, htransparent⟩ := upcast_transparent hm hc (.of c.model) "rt"
  obtain ⟨w, u, hw, hu, hdirect⟩ :=
    hpaths 0 3 4 hanimal hwild hwildAnimal hwolfWild (.plain hwolf (c.new 4).fields)
  obtain ⟨u', hu', htrans⟩ := htransparent 0 4 hanimal hwolf hwolfAnimal (c.new 4).fields
  obtain rfl := Option.some.inj (hdirect.symm.trans hu')
  exact ⟨c.model, c, hm, hc, hwolf, w, u, hw, hu, hdirect, htrans⟩

end Missive.Source
