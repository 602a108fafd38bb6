import Missive.Proofs.Model.Lineage
import Missive.Proofs.Model.Registration

/-!
# Missive.Proofs.Model.Resolution

When each step of resolving a schema succeeds.

One statement a step says what it finds or when it passes: looking up a name
(`lookup_register_message`), finding a parent (`parentOf_eq_ok_some`), the check for cycles
(`checkCycles_eq_ok_iff`) and for abstract messages (`checkAbstract_eq_ok_iff`), and the type of a
field (`exists_resolveField_iff`).
-/

namespace Missive

/-- The names that a field type refers to. -/
def FieldType.references : FieldType → List String
  | .primitive _ => []
  | .custom reference => [reference]
  | .map key value => key.references ++ value.references

def FieldType.isMap : FieldType → Bool
  | .map .. => true
  | _ => false

namespace Model

open Schema

variable {m : Model} {schema : Schema} {id p : MessageId}

/-! ## names -/

theorem mem_of_getElem?_heads {head : MessageHead} (h : (heads schema)[id]? = some head) :
    ∃ nested, .message head nested ∈ definitions schema := by
  have hmem := List.mem_of_getElem? h
  rw [heads_eq] at hmem
  obtain ⟨d, hd, hhead⟩ := List.mem_filterMap.mp hmem
  cases d with
  | message head' nested => cases hhead; exact ⟨nested, hd⟩
  | enumeration e => contradiction

theorem exists_getElem?_heads {head : MessageHead} {nested : List Definition}
    (h : .message head nested ∈ definitions schema) :
    ∃ id : Nat, (heads schema)[id]? = some head := by
  rw [heads_eq]
  exact List.mem_iff_getElem?.mp (List.mem_filterMap.mpr ⟨_, h, rfl⟩)

/-- Messages stand in the table in the order of their declarations. -/
theorem mem_nameTable_message {firstMessage firstEnum id : Nat} {ds : List Definition} :
    (name, .message id) ∈ nameTable firstMessage firstEnum ds ↔
      ∃ k head, (ds.filterMap Definition.head?)[k]? = some head ∧ head.name = name ∧
        id = firstMessage + k := by
  induction ds generalizing firstMessage firstEnum with
  | nil => simp [nameTable]
  | cons d rest ih =>
      cases d with
      | enumeration e =>
          simp only [nameTable, List.mem_cons, Prod.mk.injEq, reduceCtorEq, and_false, false_or, ih]
          rfl
      | message head nested =>
          simp only [nameTable, List.mem_cons, Prod.mk.injEq, Reference.message.injEq, ih,
            List.filterMap_cons, Definition.head?]
          constructor
          · rintro (⟨rfl, rfl⟩ | ⟨k, other, hk, hname, rfl⟩)
            · exact ⟨0, head, rfl, rfl, rfl⟩
            · exact ⟨k + 1, other, hk, hname, by omega⟩
          · rintro ⟨k, other, hk, hname, rfl⟩
            cases k with
            | zero =>
                obtain rfl : head = other := by simpa using hk
                exact .inl ⟨hname.symm, rfl⟩
            | succ k => exact .inr ⟨k, other, hk, hname, by omega⟩

/-- What a name stands for: the entry of that name or, where there is none, that of its last
segment. -/
theorem lookup_eq_some_iff {r : Reference} (h : (m.names.map Prod.fst).Nodup) :
    m.lookup reference = some r ↔ ∃ name, (name, r) ∈ m.names ∧
      (name = reference ∨
        reference ∉ m.names.map Prod.fst ∧ lastSegment? reference = some name) := by
  unfold lookup
  split
  · next found hfound =>
      have hmem := mem_of_lookup hfound
      constructor
      · intro heq
        cases heq
        exact ⟨reference, hmem, .inl rfl⟩
      · rintro ⟨name, hname, rfl | ⟨hnot, -⟩⟩
        · rw [← hfound, lookup_eq_some_iff_mem h]
          exact hname
        · exact absurd (List.mem_map_of_mem hmem) hnot
  · next hnone =>
      have hnot := lookup_eq_none_iff_not_mem.mp hnone
      constructor
      · intro hfound
        obtain ⟨segment, hsegment, hfound⟩ := Option.bind_eq_some_iff.mp hfound
        exact ⟨segment, mem_of_lookup hfound, .inr ⟨hnot, hsegment⟩⟩
      · rintro ⟨name, hname, rfl | ⟨-, hsegment⟩⟩
        · exact absurd (List.mem_map_of_mem hname) hnot
        · exact Option.bind_eq_some_iff.mpr ⟨name, hsegment, (lookup_eq_some_iff_mem h).mpr hname⟩

/-- A name stands for a definition: it is that one's name or, where no definition has it, its last
segment is. -/
def Names (schema : Schema) (reference : String) (d : Definition) : Prop :=
  d ∈ definitions schema ∧ (d.name = reference ∨
    reference ∉ (definitions schema).map Definition.name ∧ lastSegment? reference = some d.name)

theorem mem_names_register : (name, .message id) ∈ (register schema).names ↔
    ∃ head, (heads schema)[id]? = some head ∧ head.name = name := by
  rw [names_register, mem_nameTable_message, ← heads_eq]
  simp [and_comm]

theorem lookup_register_message (h : ((definitions schema).map Definition.name).Nodup) :
    (register schema).lookup reference = some (.message id) ↔
      ∃ head nested, (heads schema)[id]? = some head ∧
        Names schema reference (.message head nested) := by
  rw [lookup_eq_some_iff (map_fst_names schema ▸ h), map_fst_names]
  constructor
  · rintro ⟨_, hentry, hname⟩
    obtain ⟨head, hhead, rfl⟩ := mem_names_register.mp hentry
    obtain ⟨nested, hd⟩ := mem_of_getElem?_heads hhead
    exact ⟨head, nested, hhead, hd, hname⟩
  · rintro ⟨head, nested, hhead, -, hname⟩
    exact ⟨head.name, mem_names_register.mpr ⟨head, hhead, rfl⟩, hname⟩

theorem exists_lookup_register (h : ((definitions schema).map Definition.name).Nodup) :
    (∃ r, (register schema).lookup reference = some r) ↔ ∃ d, Names schema reference d := by
  simp only [lookup_eq_some_iff (map_fst_names schema ▸ h), map_fst_names]
  have hentry : ∀ name, (∃ r, (name, r) ∈ (register schema).names) ↔
      ∃ d ∈ definitions schema, d.name = name := by
    intro name
    rw [← List.mem_map, ← map_fst_names]
    simp
  constructor
  · rintro ⟨r, name, hr, hname⟩
    obtain ⟨d, hd, rfl⟩ := (hentry name).mp ⟨r, hr⟩
    exact ⟨d, hd, hname⟩
  · rintro ⟨d, hd, hname⟩
    obtain ⟨r, hr⟩ := (hentry d.name).mpr ⟨d, hd, rfl⟩
    exact ⟨r, d.name, hr, hname⟩

/-! ## parents -/

theorem parentOf_eq_ok_some {head : MessageHead} : m.parentOf head = .ok (some id) ↔
    ∃ parent, head.extends? = some parent ∧ m.lookup parent = some (.message id) := by
  unfold parentOf
  cases head.extends? with
  | none => simp
  | some parent =>
      simp only [Option.some.injEq, exists_eq_left']
      split <;> simp_all

theorem exists_parentOf_iff {head : MessageHead} : (∃ parent, m.parentOf head = .ok parent) ↔
    ∀ parent, head.extends? = some parent → ∃ id, m.lookup parent = some (.message id) := by
  unfold parentOf
  cases head.extends? with
  | none => simp
  | some parent =>
      simp only [Option.some.injEq, forall_eq']
      split <;> simp_all

/-- A message has the parent that its declaration names. -/
theorem IsLinked.parentOf (h : IsLinked schema m) (hhead : (heads schema)[id]? = some head) :
    (register schema).parentOf head = .ok (m.message id).parent := by
  obtain ⟨-, parents, hparents, rfl⟩ := h
  have hall := Except.forall₂_of_mapM_eq_ok hparents
  have hlength := (forall₂_register schema).length_eq
  obtain ⟨hid, rfl⟩ := List.getElem?_eq_some_iff.mp hhead
  have hid' : id < parents.length := hall.length_eq ▸ hid
  have hparent : (((register schema).setParents parents).message id).parent = parents[id] := by
    simp [message, setParents, List.getD, hid', hlength ▸ hid]
  rw [hparent]
  exact hall.get hid hid'

/-! ## cycles -/

/-- A message extends another directly. -/
def ParentIs (m : Model) (id p : MessageId) : Prop := (m.message id).parent = some p

theorem isChain_climb (m : Model) (fuel : Nat) (id : MessageId) :
    (id :: m.climb fuel (m.message id).parent).IsChain m.ParentIs := by
  induction fuel generalizing id with
  | zero => exact .singleton id
  | succ fuel ih =>
      cases hp : (m.message id).parent with
      | none => exact .singleton id
      | some p => exact List.isChain_cons_cons.mpr ⟨hp, ih p⟩

/-- Where no message extends itself, none occurs twice in a line. -/
theorem nodup_climb (h : ∀ id, ¬ Relation.TransGen m.ParentIs id id) (fuel : Nat) (id : MessageId) :
    (id :: m.climb fuel (m.message id).parent).Nodup := by
  have hchain := (isChain_climb m fuel id).imp fun _ _ => Relation.TransGen.single
  refine (List.isChain_iff_pairwise.mp hchain).imp fun {a b} hab heq => ?_
  exact h a (heq ▸ hab)

theorem lt_of_mem_climb (hbound : ∀ id p, m.ParentIs id p → p < m.messages.length)
    (hstart : ∀ p, start = some p → p < m.messages.length) (hx : x ∈ m.climb fuel start) :
    x < m.messages.length := by
  induction fuel generalizing start with
  | zero => contradiction
  | succ fuel ih =>
      cases start with
      | none => contradiction
      | some p =>
          obtain rfl | hx := List.mem_cons.mp hx
          · exact hstart x rfl
          · exact ih (fun p' hp' => hbound p p' hp') hx

/-- The check for cycles passes exactly where no message is met again along the parents.  A line
that were as long as there are messages would meet one of them again. -/
theorem checkCycles_eq_ok_iff (hbound : ∀ id p, m.ParentIs id p → p < m.messages.length) :
    m.checkCycles = .ok () ↔ ∀ id, ¬ Relation.TransGen m.ParentIs id id := by
  constructor
  · intro hcheck id hcycle
    have hforest := isForest_of_checkCycles hcheck
    have hshorter : ∀ a b, Relation.TransGen m.ParentIs a b →
        (m.ascent b).length < (m.ascent a).length := by
      intro a b hab
      induction hab with
      | single hp => rw [ascent_of_some hforest hp, List.length_cons]; exact Nat.lt_succ_self _
      | tail _ hp ih =>
          rw [ascent_of_some hforest hp, List.length_cons] at ih
          exact Nat.lt_of_succ_lt ih
    exact Nat.lt_irrefl _ (hshorter id id hcycle)
  · intro hacyclic
    have hnone : m.messageIds.find? m.isCyclic = none := by
      refine List.find?_eq_none.mpr fun id hid => ?_
      rw [mem_messageIds] at hid
      have hsub : id :: m.climb m.messages.length (m.message id).parent ⊆
          List.range m.messages.length := by
        intro x hx
        rw [List.mem_range]
        obtain rfl | hx := List.mem_cons.mp hx
        · exact hid
        · exact lt_of_mem_climb hbound (hbound id) hx
      have hlen := (List.subperm_of_subset (nodup_climb hacyclic _ id) hsub).length_le
      rw [List.length_cons, List.length_range] at hlen
      simpa [isCyclic] using hlen
    rw [checkCycles, hnone]

/-! ## abstract messages -/

theorem checkAbstract_eq_ok_iff : m.checkAbstract = .ok () ↔ m.AbstractAbove := by
  refine ⟨abstractAbove_of_checkAbstract, fun h => ?_⟩
  refine Except.forM_eq_ok_iff.mpr fun message hmessage => ?_
  obtain ⟨id, hid, rfl⟩ := List.getElem_of_mem hmessage
  split
  · next p hp =>
      rw [← message_of_lt hid] at hp ⊢
      refine if_neg fun hbad => ?_
      obtain ⟨ha, hpa⟩ := Bool.and_eq_true_iff.mp hbad
      rw [h id p hp ha] at hpa
      contradiction
  · rfl

/-! ## fields -/

theorem exists_resolveType_iff (name field : String) {type : FieldType} :
    (∃ kind, m.resolveType name field type = .ok kind) ↔
      ∀ reference ∈ type.references, ∃ r, m.lookup reference = some r := by
  induction type with
  | primitive p => simp [resolveType, FieldType.references]
  | custom reference =>
      simp only [resolveType, FieldType.references, List.forall_mem_singleton]
      split <;> simp_all
  | map key value ihk ihv =>
      rw [FieldType.references, List.forall_mem_append, ← ihk, ← ihv]
      constructor
      · rintro ⟨kind, h⟩
        obtain ⟨k, hk, h'⟩ := Except.bind_eq_ok h
        obtain ⟨v, hv, -⟩ := Except.bind_eq_ok h'
        exact ⟨⟨k, hk⟩, v, hv⟩
      · rintro ⟨⟨k, hk⟩, v, hv⟩
        exact ⟨.map k v, by rw [resolveType, hk, Except.ok_bind, hv, Except.ok_bind]; rfl⟩

/-- A type is a map where it is declared as one. -/
theorem isMap_of_resolveType {type : FieldType} (h : m.resolveType name field type = .ok kind) :
    type.isMap = true ↔ ∃ k v, kind = .map k v := by
  cases type with
  | primitive p => cases h; simp [FieldType.isMap]
  | custom reference =>
      rw [resolveType] at h
      split at h
      · cases h; simp [FieldType.isMap]
      · cases h; simp [FieldType.isMap]
      · contradiction
  | map key value =>
      obtain ⟨k, -, h'⟩ := Except.bind_eq_ok h
      obtain ⟨v, -, h''⟩ := Except.bind_eq_ok h'
      cases h''
      simp [FieldType.isMap]

theorem exists_resolveField_iff {f : Schema.Field} : (∃ f', m.resolveField name f = .ok f') ↔
    (∀ reference ∈ f.type.references, ∃ r, m.lookup reference = some r) ∧
      (f.repeated = true → f.type.isMap = false) := by
  rw [← exists_resolveType_iff name f.name]
  constructor
  · rintro ⟨f', h⟩
    obtain ⟨kind, hkind, h'⟩ := Except.bind_eq_ok h
    refine ⟨⟨kind, hkind⟩, fun hrepeated => ?_⟩
    rw [Bool.eq_false_iff, Ne, isMap_of_resolveType hkind]
    rintro ⟨k, v, rfl⟩
    rw [hrepeated] at h'
    contradiction
  · rintro ⟨⟨kind, hkind⟩, hmap⟩
    rw [resolveField, hkind, Except.ok_bind]
    split
    · next k v hrepeated =>
        have hnot := (isMap_of_resolveType hkind).mpr ⟨k, v, rfl⟩
        rw [hmap hrepeated] at hnot
        contradiction
    · exact ⟨_, rfl⟩

end Model

end Missive
