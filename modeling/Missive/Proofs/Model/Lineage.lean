import Mathlib
import Missive.Model.Resolve
import Missive.Proofs.Except

/-!
# Missive.Proofs.Model.Lineage

The forest that the messages of a model form.

`IsForest m` is what the check for cycles establishes.  In a forest the bounds of the walks in
`Missive.Model.Lineage` are never met: a line of ancestors is its first message and the line of
that one (`ascent_of_some`), so facts about lines are proved along them (`IsForest.induction`), and
the walk down meets exactly the messages whose line holds its beginning (`mem_descendants_iff`),
each of them once (`nodup_concreteDescendants`).
-/

namespace Missive.Model

/-- Every line of ancestors is shorter than the number of messages. -/
def IsForest (m : Model) : Prop :=
  ∀ id < m.messages.length, (m.ascent id).length < m.messages.length

variable {m m' : Model} {id a p x : MessageId}

theorem message_of_le (h : m.messages.length ≤ id) : m.message id = default := by
  simp [message, List.getD, List.getElem?_eq_none h]

theorem message_of_lt (h : id < m.messages.length) : m.message id = m.messages[id] := by
  rw [message, List.getD_eq_getElem _ _ h]

theorem lt_of_parent (h : (m.message id).parent = some p) : id < m.messages.length := by
  by_contra hlt
  rw [message_of_le (Nat.le_of_not_lt hlt)] at h
  contradiction

theorem mem_messageIds : id ∈ m.messageIds ↔ id < m.messages.length := List.mem_range

/-! ## lines of ancestors -/

theorem climb_none (fuel : Nat) : m.climb fuel none = [] := by
  cases fuel <;> rfl

/-- A line that ends before its bound has the same messages under any larger bound. -/
theorem climb_of_length_lt (h : (m.climb fuel start).length < fuel) (hle : fuel ≤ fuel') :
    m.climb fuel' start = m.climb fuel start := by
  induction fuel generalizing start fuel' with
  | zero => contradiction
  | succ fuel ih =>
      obtain ⟨fuel', rfl⟩ : ∃ k, fuel' = k + 1 := ⟨fuel' - 1, by omega⟩
      cases start with
      | none => rfl
      | some id =>
          simp only [climb, List.length_cons] at h ⊢
          rw [ih (by omega) (by omega)]

theorem isForest_of_checkCycles (h : m.checkCycles = .ok ()) : m.IsForest := by
  intro id hid
  have hfind : m.messageIds.find? m.isCyclic = none := by
    unfold checkCycles at h
    split at h
    · contradiction
    · assumption
  have hacyclic := List.find?_eq_none.mp hfind id (mem_messageIds.mpr hid)
  simp only [isCyclic, decide_eq_true_eq, not_le] at hacyclic
  rw [ascent, climb_of_length_lt hacyclic (Nat.le_succ _)]
  exact hacyclic

theorem ascent_of_none (h : (m.message id).parent = none) : m.ascent id = [] := by
  rw [ascent, h, climb_none]

theorem ascent_of_some (hm : m.IsForest) (h : (m.message id).parent = some p) :
    m.ascent id = p :: m.ascent p := by
  have hlen := hm id (lt_of_parent h)
  rw [ascent, h] at hlen ⊢
  simp only [climb, List.length_cons] at hlen ⊢
  rw [ascent, climb_of_length_lt (by omega) (Nat.le_succ _)]

/-- What holds of the messages that extend none, and of a message if it holds of the one that it
extends, holds of all. -/
theorem IsForest.induction (hm : m.IsForest) {motive : MessageId → Prop}
    (root : ∀ id, (m.message id).parent = none → motive id)
    (step : ∀ id p, (m.message id).parent = some p → motive p → motive id) (id : MessageId) :
    motive id := by
  induction hn : (m.ascent id).length generalizing id with
  | zero =>
      cases hp : (m.message id).parent with
      | none => exact root id hp
      | some p => rw [ascent_of_some hm hp] at hn; contradiction
  | succ n ih =>
      cases hp : (m.message id).parent with
      | none => exact root id hp
      | some p =>
          rw [ascent_of_some hm hp, List.length_cons] at hn
          exact step id p hp (ih p (by omega))

theorem length_ascent_lt (hm : m.IsForest) (h : a ∈ m.ascent id) :
    (m.ascent a).length < (m.ascent id).length := by
  induction id using hm.induction with
  | root id hp => rw [ascent_of_none hp] at h; contradiction
  | step id p hp ih =>
      rw [ascent_of_some hm hp] at h ⊢
      rw [List.length_cons]
      obtain rfl | h := List.mem_cons.mp h
      · exact Nat.lt_succ_self _
      · exact Nat.lt_succ_of_lt (ih h)

theorem not_mem_ascent_self (hm : m.IsForest) : id ∉ m.ascent id := fun h =>
  Nat.lt_irrefl _ (length_ascent_lt hm h)

theorem lt_of_mem_ascent (h : a ∈ m.ascent id) : id < m.messages.length := by
  cases hp : (m.message id).parent with
  | none => rw [ascent_of_none hp] at h; contradiction
  | some p => exact lt_of_parent hp

theorem ancestors_of_none (h : (m.message id).parent = none) : m.ancestors id = [] := by
  rw [ancestors, ascent_of_none h, List.reverse_nil]

theorem ancestors_of_some (hm : m.IsForest) (h : (m.message id).parent = some p) :
    m.ancestors id = m.ancestors p ++ [p] := by
  rw [ancestors, ascent_of_some hm h, List.reverse_cons, ancestors]

theorem mem_ancestors : a ∈ m.ancestors id ↔ a ∈ m.ascent id := List.mem_reverse

theorem allFields_of_none (h : (m.message id).parent = none) :
    m.allFields id = (m.message id).fields.map fun f => (id, f) := by
  simp [allFields, ancestors_of_none h]

theorem allFields_of_some (hm : m.IsForest) (h : (m.message id).parent = some p) :
    m.allFields id = m.allFields p ++ (m.message id).fields.map fun f => (id, f) := by
  simp [allFields, ancestors_of_some hm h]

/-! ## roots -/

theorem root_of_none (h : (m.message id).parent = none) : m.root id = id := by
  rw [root, ancestors_of_none h, List.headD_nil]

theorem root_of_some (hm : m.IsForest) (h : (m.message id).parent = some p) :
    m.root id = m.root p := by
  rw [root, root, ancestors_of_some hm h]
  cases m.ancestors p <;> rfl

theorem parent_root (hm : m.IsForest) (id : MessageId) : (m.message (m.root id)).parent = none := by
  induction id using hm.induction with
  | root id hp => rw [root_of_none hp, hp]
  | step id p hp ih => rw [root_of_some hm hp, ih]

theorem root_of_mem_ascent (hm : m.IsForest) (h : a ∈ m.ascent id) : m.root a = m.root id := by
  induction id using hm.induction with
  | root id hp => rw [ascent_of_none hp] at h; contradiction
  | step id p hp ih =>
      rw [root_of_some hm hp]
      rw [ascent_of_some hm hp] at h
      obtain rfl | h := List.mem_cons.mp h
      · rfl
      · exact ih h

/-- A message is its own root, or extends it. -/
theorem root_eq_or_mem_ascent (hm : m.IsForest) (id : MessageId) :
    m.root id = id ∨ m.root id ∈ m.ascent id := by
  induction id using hm.induction with
  | root id hp => exact .inl (root_of_none hp)
  | step id p hp ih =>
      rw [root_of_some hm hp, ascent_of_some hm hp]
      obtain h | h := ih
      · exact .inr (List.mem_cons.mpr (.inl h))
      · exact .inr (List.mem_cons_of_mem _ h)

/-! ## descendants -/

theorem mem_specializations : x ∈ m.specializations id ↔ (m.message x).parent = some id := by
  simp only [specializations, List.mem_filter, mem_messageIds, beq_iff_eq, and_iff_right_iff_imp]
  exact lt_of_parent

/-- The messages that extend those of one depth directly stand at the next. -/
theorem length_ascent_specializations {level : List MessageId} (hm : m.IsForest)
    (hlevel : ∀ y ∈ level, (m.ascent y).length = depth) :
    ∀ x ∈ level.flatMap m.specializations, (m.ascent x).length = depth + 1 := by
  intro x hx
  obtain ⟨y, hy, hxy⟩ := List.mem_flatMap.mp hx
  rw [ascent_of_some hm (mem_specializations.mp hxy), List.length_cons, hlevel y hy]

/-- A message and the messages that it extends, nearest first. -/
def line (m : Model) (id : MessageId) : List MessageId := id :: m.ascent id

/-- Each message of a line is followed by the one that it extends. -/
theorem line_getElem?_succ (hm : m.IsForest) (id : MessageId) (k : Nat) :
    (m.line id)[k + 1]? = (m.line id)[k]?.bind fun a => (m.message a).parent := by
  induction k generalizing id with
  | zero =>
      cases hp : (m.message id).parent with
      | none => simp [line, ascent_of_none hp, hp]
      | some p => simp [line, ascent_of_some hm hp, hp]
  | succ k ih =>
      cases hp : (m.message id).parent with
      | none => simp [line, ascent_of_none hp]
      | some p =>
          have hline : m.line id = id :: m.line p := by rw [line, ascent_of_some hm hp, line]
          rw [hline, List.getElem?_cons_succ, List.getElem?_cons_succ, ih p]

/-- A walk down meets the messages that have a message of its first generation so many steps up. -/
theorem mem_generations (hm : m.IsForest) :
    x ∈ m.generations fuel level ↔ ∃ k < fuel, ∃ y ∈ level, (m.line x)[k]? = some y := by
  induction fuel generalizing level with
  | zero => simp [generations]
  | succ fuel ih =>
      rw [generations, List.mem_append, ih]
      constructor
      · rintro (hx | ⟨k, hk, z, hz, hline⟩)
        · exact ⟨0, by omega, x, hx, rfl⟩
        · obtain ⟨y, hy, hzy⟩ := List.mem_flatMap.mp hz
          refine ⟨k + 1, by omega, y, hy, ?_⟩
          rw [line_getElem?_succ hm, hline]
          exact mem_specializations.mp hzy
      · rintro ⟨k, hk, y, hy, hline⟩
        cases k with
        | zero =>
            cases hline
            exact .inl hy
        | succ k =>
            rw [line_getElem?_succ hm, Option.bind_eq_some_iff] at hline
            obtain ⟨z, hz, hp⟩ := hline
            exact .inr ⟨k, by omega, z,
              List.mem_flatMap.mpr ⟨y, hy, mem_specializations.mpr hp⟩, hz⟩

/-- The messages below a message are those that extend it. -/
theorem mem_descendants_iff (hm : m.IsForest) : x ∈ m.descendants id ↔ id ∈ m.ascent x := by
  rw [descendants, mem_generations hm]
  constructor
  · rintro ⟨k, -, y, hy, hline⟩
    have hnext : (m.line x)[k + 1]? = some id := by
      rw [line_getElem?_succ hm, hline]
      exact mem_specializations.mp hy
    exact List.mem_of_getElem? hnext
  · intro h
    obtain ⟨k, hk⟩ := List.getElem?_of_mem h
    have hnext : (m.line x)[k + 1]? = some id := hk
    rw [line_getElem?_succ hm, Option.bind_eq_some_iff] at hnext
    obtain ⟨y, hy, hp⟩ := hnext
    have hx : x < m.messages.length := by
      by_contra hx
      rw [ascent_of_none (by rw [message_of_le (Nat.le_of_not_lt hx)]; rfl)] at h
      contradiction
    have hlt := hm x hx
    have hlen : k < (m.ascent x).length := (List.getElem?_eq_some_iff.mp hk).1
    exact ⟨k, by omega, y, mem_specializations.mpr hp, hy⟩

/-- The messages of a generation stand at one depth, and those after it below. -/
theorem length_ascent_of_mem_generations (hm : m.IsForest)
    (hlevel : ∀ y ∈ level, (m.ascent y).length = depth) (h : x ∈ m.generations fuel level) :
    depth ≤ (m.ascent x).length := by
  induction fuel generalizing level depth with
  | zero => contradiction
  | succ fuel ih =>
      rw [generations, List.mem_append] at h
      obtain h | h := h
      · exact (hlevel x h).ge
      · exact Nat.le_of_succ_le (ih (length_ascent_specializations hm hlevel) h)

theorem nodup_generations (hm : m.IsForest) (hnodup : level.Nodup)
    (hlevel : ∀ y ∈ level, (m.ascent y).length = depth) : (m.generations fuel level).Nodup := by
  induction fuel generalizing level depth with
  | zero => exact .nil
  | succ fuel ih =>
      have hnext := length_ascent_specializations hm hlevel
      have hnodup' : (level.flatMap m.specializations).Nodup := by
        refine List.nodup_flatMap.mpr ⟨fun y _ => List.nodup_range.filter _, ?_⟩
        refine hnodup.imp fun hne x hx hx' => hne ?_
        have hparent := mem_specializations.mp hx
        rw [mem_specializations.mp hx', Option.some.injEq] at hparent
        exact hparent.symm
      rw [generations, List.nodup_append']
      refine ⟨hnodup, ih hnodup' hnext, fun x hx hx' => ?_⟩
      have hdepth := hlevel x hx
      have hbelow := length_ascent_of_mem_generations hm hnext hx'
      omega

/-- A walk down meets no message twice. -/
theorem nodup_descendants (hm : m.IsForest) (id : MessageId) : (m.descendants id).Nodup := by
  have hlevel : ∀ y ∈ m.specializations id, (m.ascent y).length = (m.ascent id).length + 1 := by
    intro y hy
    rw [ascent_of_some hm (mem_specializations.mp hy), List.length_cons]
  exact nodup_generations hm (List.nodup_range.filter _) hlevel

theorem nodup_concreteDescendants (hm : m.IsForest) (id : MessageId) :
    (m.concreteDescendants id).Nodup := (nodup_descendants hm id).filter _

theorem mem_concreteDescendants_iff (hm : m.IsForest) :
    x ∈ m.concreteDescendants id ↔ id ∈ m.ascent x ∧ (m.message x).isAbstract = false := by
  rw [concreteDescendants, List.mem_filter, mem_descendants_iff hm, Bool.not_eq_true']

/-! ## abstract messages -/

/-- An abstract message extends only abstract ones. -/
def AbstractAbove (m : Model) : Prop :=
  ∀ id p, (m.message id).parent = some p → (m.message id).isAbstract = true →
    (m.message p).isAbstract = true

theorem abstractAbove_of_checkAbstract (h : m.checkAbstract = .ok ()) : m.AbstractAbove := by
  intro id p hp ha
  have hlt := lt_of_parent hp
  have hcheck := Except.of_forM_eq_ok h (List.getElem_mem hlt)
  rw [← message_of_lt hlt] at hcheck
  simp only [hp, ha, Bool.true_and] at hcheck
  split at hcheck
  · contradiction
  · next hpa => simpa using hpa

theorem isAbstract_of_mem_ascent (hm : m.IsForest) (habs : m.AbstractAbove) (h : a ∈ m.ascent id)
    (ha : (m.message id).isAbstract = true) : (m.message a).isAbstract = true := by
  induction id using hm.induction with
  | root id hp => rw [ascent_of_none hp] at h; contradiction
  | step id p hp ih =>
      have hpa := habs id p hp ha
      rw [ascent_of_some hm hp] at h
      obtain rfl | h := List.mem_cons.mp h
      · exact hpa
      · exact ih h hpa

/-- A message that extends an abstract one is in its family. -/
theorem inFamily_of_mem_ascent (h : a ∈ m.ascent id) (ha : (m.message a).isAbstract = true) :
    m.inFamily id = true := by
  rw [inFamily, Bool.or_eq_true, List.any_eq_true]
  exact .inr ⟨a, h, ha⟩

theorem lt_of_inFamily (h : m.inFamily id = true) : id < m.messages.length := by
  by_contra hlt
  have hnone := message_of_le (Nat.le_of_not_lt hlt)
  rw [inFamily, ascent_of_none (by rw [hnone]; rfl), hnone] at h
  contradiction

/-! ## models with the same lineage -/

/-- Models whose messages extend each other in the same way. -/
structure SameLineage (m m' : Model) : Prop where
  length : m'.messages.length = m.messages.length
  parent : ∀ id, (m'.message id).parent = (m.message id).parent
  isAbstract : ∀ id, (m'.message id).isAbstract = (m.message id).isAbstract

namespace SameLineage

theorem trans (h : SameLineage m m') (h' : SameLineage m' m'') : SameLineage m m'' where
  length := h'.length.trans h.length
  parent id := (h'.parent id).trans (h.parent id)
  isAbstract id := (h'.isAbstract id).trans (h.isAbstract id)

theorem climb (h : SameLineage m m') (fuel : Nat) (start : Option MessageId) :
    m'.climb fuel start = m.climb fuel start := by
  induction fuel generalizing start with
  | zero => rfl
  | succ fuel ih =>
      cases start with
      | none => rfl
      | some id => rw [Model.climb, Model.climb, ih, h.parent]

theorem ascent (h : SameLineage m m') (id : MessageId) : m'.ascent id = m.ascent id := by
  rw [Model.ascent, h.climb, h.length, h.parent, Model.ascent]

theorem ancestors (h : SameLineage m m') (id : MessageId) : m'.ancestors id = m.ancestors id := by
  rw [Model.ancestors, h.ascent, Model.ancestors]

theorem root (h : SameLineage m m') (id : MessageId) : m'.root id = m.root id := by
  rw [Model.root, h.ancestors, Model.root]

theorem messageIds (h : SameLineage m m') : m'.messageIds = m.messageIds := by
  rw [Model.messageIds, h.length, Model.messageIds]

theorem inFamily (h : SameLineage m m') (id : MessageId) : m'.inFamily id = m.inFamily id := by
  simp only [Model.inFamily, h.ascent, h.isAbstract]

theorem specializations (h : SameLineage m m') (id : MessageId) :
    m'.specializations id = m.specializations id := by
  simp only [Model.specializations, h.messageIds, h.parent]

theorem isForest (h : SameLineage m m') (hm : m.IsForest) : m'.IsForest := by
  intro id hid
  rw [h.ascent, h.length]
  exact hm id (h.length ▸ hid)

theorem abstractAbove (h : SameLineage m m') (hm : m.AbstractAbove) : m'.AbstractAbove := by
  intro id p hp ha
  rw [h.parent] at hp
  rw [h.isAbstract] at ha ⊢
  exact hm id p hp ha

end SameLineage

end Missive.Model
