import Missive.Model.Resolve
import Missive.Proofs.Except

/-!
# Missive.Proofs.Model.Registration

What resolving takes over from a schema.

Messages and enumerations are numbered in the order of their declarations, so the two lists belong
together, element by element.  `Message.IsDeclared` and `Enumeration.IsDeclared` say what an element
takes over: names, options and the identifiers that are fixed.

* `resolve_eq_ok_iff`: the steps of resolving, in a row;
* `forall₂_resolve`: resolving loses no declaration and adds none;
* `nodup_names_of_resolve`: no two messages have one name.
-/

namespace Missive

namespace Schema.Definition

/-- What a message declares. -/
def head? : Definition → Option MessageHead
  | .message head _ => some head
  | .enumeration _ => none

/-- What an enumeration declares. -/
def enumeration? : Definition → Option Enumeration
  | .message .. => none
  | .enumeration e => some e

end Schema.Definition

namespace Model

open Schema

variable {m : Model} {schema : Schema}

/-! ## definitions in order -/

/-- The definitions of a schema, each before those inside it. -/
def definitions (schema : Schema) : List Definition :=
  schema.files.flatMap fun file => Definition.preorderAll file.definitions

/-- The enumerations of a schema as they are declared. -/
def enumerationHeads (schema : Schema) : List Schema.Enumeration :=
  (definitions schema).filterMap Definition.enumeration?

theorem map_snd_declared (schema : Schema) :
    (declared schema).map Prod.snd = definitions schema := by
  -- the numbers of the files do not matter, so the first may be any
  have hfiles : ∀ start (files : List Schema.File),
      ((files.zipIdx start).flatMap fun entry =>
        (Definition.preorderAll entry.1.definitions).map fun d => (entry.2, d)).map Prod.snd =
      files.flatMap fun file => Definition.preorderAll file.definitions := by
    intro start files
    induction files generalizing start with
    | nil => rfl
    | cons file files ih =>
        rw [List.zipIdx_cons, List.flatMap_cons, List.flatMap_cons, List.map_append, ih,
          List.map_map]
        simp [Function.comp_def]
  exact hfiles 0 schema.files

theorem heads_eq (schema : Schema) :
    heads schema = (definitions schema).filterMap Definition.head? := by
  rw [← map_snd_declared, List.filterMap_map, heads]
  congr 1
  funext ⟨file, d⟩
  cases d <;> rfl

/-! ## names -/

theorem map_fst_nameTable (firstMessage firstEnum : Nat) (ds : List Definition) :
    (nameTable firstMessage firstEnum ds).map Prod.fst = ds.map Definition.name := by
  induction ds generalizing firstMessage firstEnum with
  | nil => rfl
  | cons d rest ih =>
      cases d with
      | message head nested => rw [nameTable, List.map_cons, List.map_cons, ih, Definition.name]
      | enumeration e => rw [nameTable, List.map_cons, List.map_cons, ih, Definition.name]

theorem firstRepeated?_eq_none_iff {seen names : List String} :
    firstRepeated? seen names = none ↔ names.Nodup ∧ ∀ name ∈ names, name ∉ seen := by
  induction names generalizing seen with
  | nil => simp [firstRepeated?]
  | cons name rest ih =>
      rw [firstRepeated?, List.nodup_cons, List.forall_mem_cons]
      split
      · next hseen => simpa using fun _ _ hnot => absurd (by simpa using hseen) hnot
      · next hseen =>
          rw [ih]
          simp only [List.mem_cons, not_or]
          constructor
          · rintro ⟨hnodup, hnew⟩
            exact ⟨⟨fun hmem => (hnew name hmem).1 rfl, hnodup⟩, by simpa using hseen,
              fun other hother => (hnew other hother).2⟩
          · rintro ⟨⟨hname, hnodup⟩, -, hnew⟩
            exact ⟨hnodup, fun other hother =>
              ⟨fun heq => hname (heq ▸ hother), hnew other hother⟩⟩

theorem sublist_heads (ds : List Definition) :
    ((ds.filterMap Definition.head?).map (·.name)).Sublist (ds.map Definition.name) := by
  induction ds with
  | nil => exact .slnil
  | cons d rest ih =>
      cases d with
      | message head nested => exact ih.cons_cons head.name
      | enumeration e => exact ih.cons e.name

theorem names_register (schema : Schema) :
    (register schema).names = nameTable 0 0 (definitions schema) := by
  rw [register, map_snd_declared]

theorem map_fst_names (schema : Schema) :
    (register schema).names.map Prod.fst = (definitions schema).map Definition.name := by
  rw [names_register, map_fst_nameTable]

/-! ## the steps in a row -/

/-- The model of a schema once its names are found to be distinct and the parents are known. -/
structure IsLinked (schema : Schema) (linked : Model) : Prop where
  nodup : ((definitions schema).map Definition.name).Nodup
  parents : ∃ parents, (heads schema).mapM (register schema).parentOf = .ok parents ∧
    linked = (register schema).setParents parents

/-- What a schema passes that resolves, and what it becomes. -/
theorem resolve_eq_ok_iff : resolve schema = .ok m ↔ ∃ linked fields, IsLinked schema linked ∧
    linked.checkCycles = .ok () ∧ linked.checkAbstract = .ok () ∧
    ((heads schema).mapM fun head => head.fields.mapM (linked.resolveField head.name)) =
      .ok fields ∧
    m = linked.setFields fields := by
  have hnames : firstRepeated? [] ((register schema).names.map Prod.fst) = none ↔
      ((definitions schema).map Definition.name).Nodup := by
    rw [firstRepeated?_eq_none_iff, map_fst_names]
    simp
  unfold resolve
  simp only
  constructor
  · intro h
    split at h
    · contradiction
    · next hrepeated =>
        obtain ⟨parents, hparents, h₁⟩ := Except.bind_eq_ok h
        obtain ⟨_, hcycles, h₂⟩ := Except.bind_eq_ok h₁
        obtain ⟨_, habstract, h₃⟩ := Except.bind_eq_ok h₂
        obtain ⟨fields, hfields, h₄⟩ := Except.bind_eq_ok h₃
        exact ⟨_, fields, ⟨hnames.mp hrepeated, parents, hparents, rfl⟩, hcycles, habstract,
          hfields, (Except.ok.inj h₄).symm⟩
  · rintro ⟨_, fields, ⟨hnodup, parents, hparents, rfl⟩, hcycles, habstract, hfields, rfl⟩
    simp only [hnames.mpr hnodup, hparents, hcycles, habstract, hfields, Except.ok_bind,
      Except.pure_eq_ok]

/-! ## enumerations -/

/-- A constant `c` as it is declared. -/
structure Constant.IsDeclared (declared : Schema.Constant) (c : Constant) : Prop where
  name : c.name = declared.name
  options : c.options = declared.options
  explicitCode : c.explicitCode = declared.index

/-- An enumeration `e` as it is declared. -/
structure Enumeration.IsDeclared (declared : Schema.Enumeration) (e : Enumeration) : Prop where
  name : e.name = declared.name
  constants : List.Forall₂ Constant.IsDeclared declared.constants e.constants

theorem forall₂_enumerationsOf (schema : Schema) :
    List.Forall₂ Enumeration.IsDeclared (enumerationHeads schema) (enumerationsOf schema) := by
  rw [enumerationHeads, ← map_snd_declared, enumerationsOf, List.filterMap_map]
  induction declared schema with
  | nil => exact .nil
  | cons entry rest ih =>
      obtain ⟨file, d⟩ := entry
      cases d with
      | message head nested => exact ih
      | enumeration e =>
          refine .cons ⟨rfl, ?_⟩ ih
          rw [Enumeration.ofDeclared, List.forall₂_map_right_iff, List.forall₂_same]
          exact fun c _ => ⟨rfl, rfl, rfl⟩

/-! ## messages -/

/-- A message that is numbered and may have a parent, but has no fields yet. -/
def IsRegistered (head : MessageHead) (message : Message) : Prop :=
  ∃ file nested parent, message = { Message.ofHead head file nested with parent }

mutual

theorem forall₂_messagesOf (file firstMessage firstEnum : Nat) : (d : Definition) →
    List.Forall₂ IsRegistered (d.preorder.filterMap Definition.head?)
      (messagesOf file firstMessage firstEnum d)
  | .message head nested => by
      rw [Definition.preorder, messagesOf]
      exact .cons ⟨_, _, _, rfl⟩ (forall₂_messagesOfAll file _ _ nested)
  | .enumeration e => .nil

theorem forall₂_messagesOfAll (file firstMessage firstEnum : Nat) : (ds : List Definition) →
    List.Forall₂ IsRegistered ((Definition.preorderAll ds).filterMap Definition.head?)
      (messagesOfAll file firstMessage firstEnum ds)
  | [] => .nil
  | d :: rest => by
      rw [Definition.preorderAll, List.filterMap_append, messagesOfAll]
      exact List.rel_append (forall₂_messagesOf file _ _ d) (forall₂_messagesOfAll file _ _ rest)

end

theorem forall₂_numberFiles (firstFile firstMessage firstEnum : Nat) (files : List Schema.File) :
    List.Forall₂ IsRegistered
      ((files.flatMap fun file => Definition.preorderAll file.definitions).filterMap
        Definition.head?)
      (numberFiles firstFile firstMessage firstEnum files) := by
  induction files generalizing firstFile firstMessage firstEnum with
  | nil => exact .nil
  | cons file rest ih =>
      rw [List.flatMap_cons, List.filterMap_append, numberFiles]
      exact List.rel_append (forall₂_messagesOfAll _ _ _ file.definitions) (ih _ _ _)

theorem forall₂_register (schema : Schema) :
    List.Forall₂ IsRegistered (heads schema) (register schema).messages := by
  rw [heads_eq]
  exact forall₂_numberFiles 0 0 0 schema.files

theorem IsLinked.forall₂_isRegistered (h : IsLinked schema m) :
    List.Forall₂ IsRegistered (heads schema) m.messages := by
  obtain ⟨-, parents, hparents, rfl⟩ := h
  refine forall₂_zipWith ?_ (forall₂_register schema) (Except.forall₂_of_mapM_eq_ok hparents)
  rintro head _ parent ⟨file, nested, _, rfl⟩ -
  exact ⟨file, nested, parent, rfl⟩

/-- A field `f` as it is declared, before it has a tag. -/
structure Field.IsDeclared (declared : Schema.Field) (f : Field) : Prop where
  name : f.name = declared.name
  options : f.options = declared.options
  transient : f.transient = declared.transient
  explicitTag : f.explicitTag = declared.index
  tag : f.tag = none

/-- A message as it is declared, before it has a discriminator. -/
structure Message.IsDeclared (head : MessageHead) (message : Message) : Prop where
  name : message.name = head.name
  options : message.options = head.options
  isAbstract : message.isAbstract = head.isAbstract
  explicitId : message.explicitId = head.id
  fields : List.Forall₂ Field.IsDeclared head.fields message.fields

theorem isDeclared_of_resolveField {f : Schema.Field} {f' : Field}
    (h : m.resolveField name f = .ok f') : f'.IsDeclared f := by
  obtain ⟨kind, -, h'⟩ := Except.bind_eq_ok h
  split at h'
  · contradiction
  · cases h'
    exact ⟨rfl, rfl, rfl, rfl, rfl⟩

/-- The messages and the enumerations of a resolved schema are those that it declares. -/
theorem forall₂_resolve (h : resolve schema = .ok m) :
    List.Forall₂ Message.IsDeclared (heads schema) m.messages ∧
      List.Forall₂ Enumeration.IsDeclared (enumerationHeads schema) m.enumerations := by
  obtain ⟨linked, fields, hlinked, -, -, hfields, rfl⟩ := resolve_eq_ok_iff.mp h
  constructor
  · refine forall₂_zipWith ?_ hlinked.forall₂_isRegistered (Except.forall₂_of_mapM_eq_ok hfields)
    rintro head _ resolved ⟨file, nested, parent, rfl⟩ hresolved
    refine ⟨rfl, rfl, rfl, rfl, ?_⟩
    exact (Except.forall₂_of_mapM_eq_ok hresolved).imp fun _ _ => isDeclared_of_resolveField
  · obtain ⟨-, parents, -, rfl⟩ := hlinked
    exact forall₂_enumerationsOf schema

theorem IsLinked.nodup_heads (h : IsLinked schema m) : ((heads schema).map (·.name)).Nodup := by
  rw [heads_eq]
  exact h.nodup.sublist (sublist_heads _)

/-- The messages of a schema that resolves have distinct names. -/
theorem nodup_names_of_resolve (h : resolve schema = .ok m) :
    ((heads schema).map (·.name)).Nodup := by
  obtain ⟨linked, -, hlinked, -⟩ := resolve_eq_ok_iff.mp h
  exact hlinked.nodup_heads

end Model

end Missive
