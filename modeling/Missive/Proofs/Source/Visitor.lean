import Missive.Example
import Missive.Proofs.Model.Accepted
import Missive.Proofs.Model.Variants
import Missive.Proofs.Source.Block
import Missive.Source.Message

/-!
# Missive.Proofs.Source.Visitor

The cases of a family in the emitted code.

A visitor declares the cases of the concrete variants of its message and inherits the visitors of
the abstract ones (`visitorTrait_eq`).  With all that it inherits it has each concrete message below
its message once (`nodup_visitorCases`, `mem_visitorCases`).  In the same way each message below an
abstract one has a conversion to it (`isSome_upcast?`).
-/

namespace Missive.Source

open Model (resolve)

variable {schema : Schema} {m : Model} {g : Generics} {a b c x : MessageId} {depth : Nat}

/-! ## visitors -/

/-- The concrete messages whose cases a visitor declares. -/
def declaredCases (m : Model) (id : MessageId) : List MessageId :=
  (m.variants id).filter fun other => !(m.message other).isAbstract

/-- The abstract messages whose visitors a visitor inherits. -/
def inheritedVisitors (m : Model) (id : MessageId) : List MessageId :=
  (m.variants id).filter fun other => (m.message other).isAbstract

/-- The declaration of the case of a message. -/
def caseCode (m : Model) (g : Generics) (id : MessageId) : Code :=
  let method := visitMethod (m.message id).name
  let type := typeName (m.message id).name
  line s!"fn {method}(&mut self, value: &{type}, arg: {g.argument}) -> {g.result};"

/-- The visitor of a message as a bound. -/
def visitorBound (m : Model) (g : Generics) (id : MessageId) : String :=
  s!"{visitorName (m.message id).name}<{g.result}, {g.argument}>"

/-- The visitor of a message with the visitors that it inherits and the cases that it declares. -/
def visitorCode (m : Model) (g : Generics) (id : MessageId) (inherited declared : List MessageId) :
    Code :=
  let name := (m.message id).name
  let bounds := inherited.map (visitorBound m g)
  let bounds := if bounds.isEmpty then "" else ": " ++ " + ".intercalate bounds
  let head := s!"pub trait {visitorName name}<{g.result}, {g.argument}>{bounds}"
  blank
  ++ line s!"/// Exhaustive dispatch over the concrete members of [`{typeName name}`]."
  ++ if declared.isEmpty then line s!"{head} \x7b\x7d"
    else block head (declared.flatMap (caseCode m g))

theorem visitorTrait_eq (m : Model) (g : Generics) (id : MessageId) :
    visitorTrait m g id (Cases.of m id) =
      visitorCode m g id (inheritedVisitors m id) (declaredCases m id) := by
  simp only [visitorTrait, visitorCode, Cases.of, inheritedVisitors, declaredCases, List.filter_map,
    List.map_map, List.flatMap_map, List.isEmpty_map, Function.comp_def]
  rfl

/-- The cases that a visitor has, with those that it inherits over at most `depth` visitors. -/
def casesWithin (m : Model) : Nat → MessageId → List MessageId
  | 0, _ => []
  | depth + 1, id =>
    declaredCases m id ++ (inheritedVisitors m id).flatMap (casesWithin m depth)

/-- The cases that a visitor has, with those that it inherits. -/
def visitorCases (m : Model) (id : MessageId) : List MessageId :=
  casesWithin m m.messages.length id

/-! ## the cases of a visitor -/

theorem mem_declaredCases :
    c ∈ declaredCases m a ↔ c ∈ m.variants a ∧ (m.message c).isAbstract = false := by
  simp [declaredCases]

theorem mem_inheritedVisitors :
    b ∈ inheritedVisitors m a ↔ b ∈ m.variants a ∧ (m.message b).isAbstract = true := by
  simp [inheritedVisitors]

/-- An inherited visitor is one step further down. -/
theorem parent_of_inherited (hm : m.IsForest) (habs : m.AbstractAbove)
    (hb : b ∈ inheritedVisitors m a) : (m.message b).parent = some a := by
  obtain ⟨hcase, habstract⟩ := mem_inheritedVisitors.mp hb
  exact (Model.mem_variants_iff_parent hm habs habstract).mp hcase

theorem of_mem_casesWithin (hm : m.IsForest) (habs : m.AbstractAbove)
    (hc : c ∈ casesWithin m depth a) : a ∈ m.ascent c ∧ (m.message c).isAbstract = false := by
  induction depth generalizing a with
  | zero => contradiction
  | succ depth ih =>
      rw [casesWithin, List.mem_append, List.mem_flatMap] at hc
      obtain hc | ⟨b, hb, hc⟩ := hc
      · obtain ⟨hcase, hconcrete⟩ := mem_declaredCases.mp hc
        exact ⟨Model.mem_ascent_of_mem_variants hm hcase, hconcrete⟩
      · obtain ⟨habove, hconcrete⟩ := ih hc
        have hchild : a ∈ m.ascent b := by
          rw [Model.ascent_of_some hm (parent_of_inherited hm habs hb)]
          exact .head _
        exact ⟨Model.mem_ascent_trans hm hchild (.tail _ habove), hconcrete⟩

/-- No case is inherited twice, nor declared and inherited. -/
theorem nodup_casesWithin (hm : m.IsForest) (habs : m.AbstractAbove) (depth : Nat)
    (a : MessageId) : (casesWithin m depth a).Nodup := by
  induction depth generalizing a with
  | zero => exact List.nodup_nil
  | succ depth ih =>
      refine List.nodup_append'.mpr ⟨(Model.nodup_variants hm a).filter _,
        List.nodup_flatMap.mpr ⟨fun b _ => ih b, ?_⟩, fun c hc hinherited => ?_⟩
      · have hnodup : (inheritedVisitors m a).Nodup := (Model.nodup_variants hm a).filter _
        refine hnodup.imp_of_mem fun {b b'} hb hb' hne c hcb hcb' => hne ?_
        obtain ⟨hb, hbabs⟩ := mem_inheritedVisitors.mp hb
        obtain ⟨hb', -⟩ := mem_inheritedVisitors.mp hb'
        exact Model.eq_of_variants_above hm habs hb hbabs
          (.tail _ (of_mem_casesWithin hm habs hcb).1) hb'
          (.tail _ (of_mem_casesWithin hm habs hcb').1)
      · obtain ⟨hcase, hconcrete⟩ := mem_declaredCases.mp hc
        obtain ⟨b, hb, hcb⟩ := List.mem_flatMap.mp hinherited
        obtain ⟨hb, hbabs⟩ := mem_inheritedVisitors.mp hb
        obtain rfl := Model.eq_of_variants_above hm habs hb hbabs
          (.tail _ (of_mem_casesWithin hm habs hcb).1) hcase (.head _)
        rw [hbabs] at hconcrete
        contradiction

/-- A depth that no line below a message exceeds. -/
def DeepEnough (m : Model) (depth : Nat) (a : MessageId) : Prop :=
  ∀ x, a ∈ m.ascent x → (m.ascent x).length ≤ (m.ascent a).length + depth

theorem deepEnough_length (hm : m.IsForest) (a : MessageId) :
    DeepEnough m m.messages.length a := by
  intro x hx
  have hlt : x < m.messages.length := Model.lt_of_mem_ascent hx
  exact (hm x hlt).le.trans (Nat.le_add_left _ _)

theorem DeepEnough.inherited (hm : m.IsForest) (habs : m.AbstractAbove)
    (h : DeepEnough m (depth + 1) a) (hb : b ∈ inheritedVisitors m a) :
    DeepEnough m depth b := by
  intro x hx
  have hascent := Model.ascent_of_some hm (parent_of_inherited hm habs hb)
  have hchild : a ∈ m.ascent b := by rw [hascent]; exact .head _
  have hle := h x (Model.mem_ascent_trans hm hchild (.tail _ hx))
  rw [hascent, List.length_cons]
  omega

/-- Every concrete message below a message is one of the cases. -/
theorem mem_casesWithin (hm : m.IsForest) (habs : m.AbstractAbove) (hdepth : DeepEnough m depth a)
    (habove : a ∈ m.ascent c) (hc : (m.message c).isAbstract = false) :
    c ∈ casesWithin m depth a := by
  induction depth generalizing a with
  | zero => exact absurd (hdepth c habove) (Nat.not_le.mpr (Model.length_ascent_lt hm habove))
  | succ depth ih =>
      rw [casesWithin, List.mem_append, List.mem_flatMap]
      obtain hcase | ⟨b, hb, hbabs, hbelow⟩ := Model.mem_variants_or_below hm habove
      · exact .inl (mem_declaredCases.mpr ⟨hcase, hc⟩)
      · have hb := mem_inheritedVisitors.mpr ⟨hb, hbabs⟩
        exact .inr ⟨b, hb, ih (hdepth.inherited hm habs hb) hbelow⟩

/-- A greater depth adds nothing where no line is that long. -/
theorem casesWithin_succ (hm : m.IsForest) (habs : m.AbstractAbove)
    (hdepth : DeepEnough m depth a) : casesWithin m (depth + 1) a = casesWithin m depth a := by
  induction depth generalizing a with
  | zero =>
      have hnone : m.variants a = [] := by
        refine List.eq_nil_iff_forall_not_mem.mpr fun x hx => ?_
        have habove := Model.mem_ascent_of_mem_variants hm hx
        exact absurd (hdepth x habove) (Nat.not_le.mpr (Model.length_ascent_lt hm habove))
      simp [casesWithin, declaredCases, inheritedVisitors, hnone]
  | succ depth ih =>
      have hinherited : ∀ b ∈ inheritedVisitors m a,
          casesWithin m (depth + 1) b = casesWithin m depth b :=
        fun b hb => ih (hdepth.inherited hm habs hb)
      exact congrArg (declaredCases m a ++ ·) (List.flatMap_congr hinherited)

/-- A visitor has the cases that it declares and those of the visitors that it inherits. -/
theorem visitorCases_eq (hm : m.IsForest) (habs : m.AbstractAbove) (a : MessageId) :
    visitorCases m a =
      declaredCases m a ++ (inheritedVisitors m a).flatMap (visitorCases m) :=
  (casesWithin_succ hm habs (deepEnough_length hm a)).symm

theorem nodup_visitorCases (hm : m.IsForest) (habs : m.AbstractAbove) (a : MessageId) :
    (visitorCases m a).Nodup := nodup_casesWithin hm habs _ a

/-- The cases of a visitor are the concrete messages below its message. -/
theorem mem_visitorCases (hm : m.IsForest) (habs : m.AbstractAbove) :
    c ∈ visitorCases m a ↔ a ∈ m.ancestors c ∧ (m.message c).isAbstract = false := by
  rw [Model.mem_ancestors]
  exact ⟨of_mem_casesWithin hm habs,
    fun ⟨habove, hc⟩ => mem_casesWithin hm habs (deepEnough_length hm a) habove hc⟩

/-! ## conversions -/

theorem isSome_upcast? (hm : m.IsForest) (hx : x ∈ m.descendants a) :
    (upcast? m (Cases.of m a) x).isSome = true := by
  rw [upcast?]
  split
  · rfl
  · next hnone =>
      have habove := (Model.mem_descendants_iff hm).mp hx
      obtain hcase | ⟨b, hb, hbabs, hbelow⟩ := Model.mem_variants_or_below hm habove
      · refine absurd ?_ hnone
        simp [Cases.of, hcase]
      · rw [Option.isSome_map, List.find?_isSome]
        refine ⟨_, List.mem_map_of_mem hb, ?_⟩
        simp [hbabs, Model.mem_descendants_iff hm, hbelow]

/-! ## families -/

/-- How the cases of an abstract message divide what is below it. -/
structure Divides (m : Model) (a : MessageId) : Prop where
  nodup : (m.variants a).Nodup
  abstract_iff : ∀ x, (m.message x).isAbstract = true →
    (x ∈ m.variants a ↔ x ∈ m.specializations a)
  concrete_iff : ∀ c, (m.message c).isAbstract = false →
    (c ∈ m.variants a ↔ m.abstractParent? c = some a)
  /-- A concrete message below is a case, or below exactly one abstract case. -/
  below : ∀ c ∈ m.concreteDescendants a,
    (c ∈ m.variants a ∧
      ∀ b ∈ m.variants a, (m.message b).isAbstract = true → c ∉ m.descendants b) ∨
    (c ∉ m.variants a ∧
      ∃! b, b ∈ m.variants a ∧ (m.message b).isAbstract = true ∧ c ∈ m.descendants b)

/-- How the visitors of a model and the conversions to its abstract messages cover its families. -/
structure Covers (m : Model) (g : Generics) : Prop where
  /-- The code of a visitor has one bound and one case for each of the messages it lists. -/
  code : ∀ a, visitorTrait m g a (Cases.of m a) =
    visitorCode m g a (inheritedVisitors m a) (declaredCases m a)
  cases_eq : ∀ a, visitorCases m a =
    declaredCases m a ++ (inheritedVisitors m a).flatMap (visitorCases m)
  /-- The one visitor that declares a case is the one that the message asks for. -/
  declared : ∀ c ∈ m.familyMembers, ∃ family, (m.message family).isAbstract = true ∧
    visitMethodCode m g c =
      item (g.visitSignature (visitorName (m.message family).name) "visitor" "arg")
        (line s!"visitor.{visitMethod (m.message c).name}(self, arg)") ∧
    ∀ a, (m.message a).isAbstract = true →
      (declaredCases m a).count c = if a = family then 1 else 0
  /-- A visitor has the case of a message once if it is above it, and else not at all. -/
  inherited : ∀ c ∈ m.familyMembers, ∀ a, (m.message a).isAbstract = true →
    (visitorCases m a).count c = if a ∈ m.ancestors c then 1 else 0
  /-- No message below an abstract one is left out of its conversions. -/
  upcasts : ∀ a, (m.message a).isAbstract = true →
    ∀ x ∈ m.descendants a, (upcast? m (Cases.of m a) x).isSome = true

theorem divides (hm : m.IsForest) (habs : m.AbstractAbove)
    (ha : (m.message a).isAbstract = true) : Divides m a where
  nodup := Model.nodup_variants hm a
  abstract_iff x hx := by
    rw [Model.mem_variants_iff_parent hm habs hx, Model.mem_specializations]
  concrete_iff c hc := Model.mem_variants_iff_abstractParent? hm habs ha hc
  below c hc := by
    obtain ⟨habove, hconcrete⟩ := (Model.mem_concreteDescendants_iff hm).mp hc
    by_cases hcase : c ∈ m.variants a
    · refine .inl ⟨hcase, fun b hb hbabs hbelow => ?_⟩
      rw [Model.mem_descendants_iff hm] at hbelow
      obtain rfl :=
        Model.eq_of_variants_above hm habs hb hbabs (.tail _ hbelow) hcase (.head _)
      exact Model.not_mem_ascent_self hm hbelow
    · obtain h | ⟨b, hb, hbabs, hbelow⟩ := Model.mem_variants_or_below hm habove
      · exact absurd h hcase
      · refine .inr ⟨hcase, b, ⟨hb, hbabs, (Model.mem_descendants_iff hm).mpr hbelow⟩, ?_⟩
        rintro b' ⟨hb', hbabs', hbelow'⟩
        rw [Model.mem_descendants_iff hm] at hbelow'
        exact Model.eq_of_variants_above hm habs hb' hbabs' (.tail _ hbelow') hb (.tail _ hbelow)

theorem covers (hm : m.IsForest) (habs : m.AbstractAbove) (g : Generics) : Covers m g where
  code := visitorTrait_eq m g
  cases_eq := visitorCases_eq hm habs
  declared c hc := by
    obtain ⟨-, hfamily, hconcrete⟩ := Model.mem_familyMembers.mp hc
    obtain ⟨family, hparent⟩ := Model.exists_abstractParent? hfamily hconcrete
    have hcode : visitMethodCode m g c =
        item (g.visitSignature (visitorName (m.message family).name) "visitor" "arg")
          (line s!"visitor.{visitMethod (m.message c).name}(self, arg)") := by
      rw [visitMethodCode, hparent]
      rfl
    refine ⟨family, (Model.of_abstractParent? hparent).2, hcode, ?_⟩
    intro a ha
    have hnodup : (declaredCases m a).Nodup := (Model.nodup_variants hm a).filter _
    rw [hnodup.count]
    refine if_congr ?_ rfl rfl
    rw [mem_declaredCases, Model.mem_variants_iff_abstractParent? hm habs ha hconcrete, hparent,
      Option.some.injEq, and_iff_left hconcrete, eq_comm]
  inherited c hc a _ := by
    obtain ⟨-, -, hconcrete⟩ := Model.mem_familyMembers.mp hc
    rw [(nodup_visitorCases hm habs a).count]
    refine if_congr ?_ rfl rfl
    rw [mem_visitorCases hm habs, and_iff_left hconcrete]
  upcasts _ _ _ hx := isSome_upcast? hm hx

/-- **Exhaustive families**: when references resolve, before numbers are assigned and after it, the
cases of every abstract message divide what is below it, and visitors and conversions cover it. -/
theorem families_exhaustive (h : resolve schema = .ok m) (g : Generics) :
    (∀ a, (m.message a).isAbstract = true → Divides m a) ∧ Covers m g ∧
      ∀ m', m.identify = .ok m' →
        (∀ a, (m'.message a).isAbstract = true → Divides m' a) ∧ Covers m' g := by
  obtain ⟨hm, habs⟩ := Model.resolve_ok h
  refine ⟨fun a ha => divides hm habs ha, covers hm habs g, fun m' hm' => ?_⟩
  have hschema : Model.ofSchema schema = .ok m' := by
    rw [Model.ofSchema, h]
    exact hm'
  obtain ⟨draft, hpasses⟩ := Model.passes_of_ofSchema hschema
  exact ⟨fun a ha => divides hpasses.isForest hpasses.abstractAbove ha,
    covers hpasses.isForest hpasses.abstractAbove g⟩

/-- In the zoo the visitor of animals declares dogs and puppies, and inherits wolves. -/
theorem families_exhaustive_zoo : ∃ m, resolve Example.zoo = .ok m ∧
    m.variants 0 = [1, 2, 3] ∧ declaredCases m 0 = [1, 2] ∧ inheritedVisitors m 0 = [3] ∧
    m.abstractParent? 4 = some 3 ∧
    Divides m 0 ∧ (visitorCases m 0).count 4 = 1 ∧
    (upcast? m (Cases.of m 0) 4).isSome = true := by
  have hmodel : (resolve Example.zoo).toOption.any (fun m => decide
      ((m.message 0).isAbstract = true ∧ m.variants 0 = [1, 2, 3] ∧
        declaredCases m 0 = [1, 2] ∧ inheritedVisitors m 0 = [3] ∧
        m.abstractParent? 4 = some 3 ∧ 4 ∈ m.familyMembers ∧ 0 ∈ m.ancestors 4 ∧
        4 ∈ m.descendants 0)) = true := by
    decide +kernel
  obtain ⟨m, hm, hfacts⟩ := (Option.any_eq_true _ _).mp hmodel
  obtain ⟨habstract, hvariants, hdeclared, hinherited, hparent, hmember, habove, hbelow⟩ :=
    of_decide_eq_true hfacts
  have hm := Except.toOption_eq_some.mp hm
  obtain ⟨hdivides, hcovers, -⟩ := families_exhaustive hm (.of m)
  refine ⟨m, hm, hvariants, hdeclared, hinherited, hparent, hdivides 0 habstract, ?_,
    hcovers.upcasts 0 habstract 4 hbelow⟩
  rw [hcovers.inherited 4 hmember 0 habstract, if_pos habove]

end Missive.Source
