import Missive.Proofs.Model.Accepted
import Missive.Proofs.Model.Variants
import Missive.Schema.Build

/-!
# Missive.Proofs.Model.Descent

The order in which the messages below a message are listed.

A message is found by the way down to it from the root of its line (`way`).  The messages below a
message are listed by these ways, shorter ones first and ways of one length by the numbers on them,
that is, in the order of the declarations (`pairwise_descendants`).  So the list is breadth-first,
which `IsBreadthFirst` says without ways, and a walk with a queue gives the same list
(`walkQueue_eq_descendants`).  The walk finds the messages that extend one in the list that linking
the messages one after the other makes (`link_eq`).
-/

namespace Missive.Model

variable {m : Model} {a p q x y : MessageId}

/-! ## ways down -/

/-- How many steps up from a message `x` the message `a` is. -/
def steps (m : Model) (a x : MessageId) : Nat := (m.line x).idxOf a

/-- The messages from the root of a line down to a message. -/
def way (m : Model) (x : MessageId) : List MessageId := m.ancestors x ++ [x]

theorem length_way (m : Model) (x : MessageId) : (m.way x).length = (m.ascent x).length + 1 := by
  simp [way, ancestors]

theorem way_of_some (hm : m.IsForest) (h : (m.message x).parent = some p) :
    m.way x = m.way p ++ [x] := by
  rw [way, ancestors_of_some hm h, way]

theorem line_of_some (hm : m.IsForest) (h : (m.message x).parent = some p) :
    m.line x = x :: m.line p := by
  rw [line, ascent_of_some hm h, line]

/-- The way to a message begins with the way to any message of its line. -/
theorem way_of_mem_line (hm : m.IsForest) (h : p ∈ m.line x) : m.way p <+: m.way x := by
  induction x using hm.induction with
  | root x hp =>
      rw [line, ascent_of_none hp, List.mem_singleton] at h
      rw [h]
  | step x parent hp ih =>
      rw [line_of_some hm hp] at h
      obtain rfl | h := List.mem_cons.mp h
      · exact List.prefix_rfl
      · rw [way_of_some hm hp]
        exact (ih h).trans (List.prefix_append _ _)

/-- The steps between two messages of a line are the difference of their depths. -/
theorem steps_add_length (hm : m.IsForest) (h : a ∈ m.line x) :
    m.steps a x + (m.ascent a).length = (m.ascent x).length := by
  induction x using hm.induction with
  | root x hp =>
      rw [line, ascent_of_none hp, List.mem_singleton] at h
      simp [h, steps, line]
  | step x parent hp ih =>
      rw [line_of_some hm hp] at h
      obtain rfl | h := List.mem_cons.mp h
      · simp [steps, line]
      · have hne : x ≠ a := by
          rintro rfl
          rw [line, ← ascent_of_some hm hp] at h
          exact not_mem_ascent_self hm h
        have hsteps : m.steps a x = m.steps a parent + 1 := by
          rw [steps, line_of_some hm hp, List.idxOf_cons_ne _ hne, steps]
        rw [hsteps, ascent_of_some hm hp, List.length_cons, ← ih h]
        omega

/-! ## ways in order -/

/-- Two lists in order stay in order with anything behind them, if they are of one length. -/
theorem lex_append {r : α → α → Prop} {l l' : List α} (h : List.Lex r l l')
    (hlength : l.length = l'.length) (t t' : List α) : List.Lex r (l ++ t) (l' ++ t') := by
  induction h with
  | nil => simp at hlength
  | cons h ih => exact .cons (ih (by simpa using hlength))
  | rel h => exact .rel h

/-- One message is reached before another: by a shorter way, or by one with lesser numbers. -/
def Before (m : Model) (x y : MessageId) : Prop := List.Shortlex (· < ·) (m.way x) (m.way y)

theorem before_iff : m.Before x y ↔ (m.ascent x).length < (m.ascent y).length ∨
    (m.ascent x).length = (m.ascent y).length ∧ List.Lex (· < ·) (m.way x) (m.way y) := by
  simp [Before, List.shortlex_def, length_way]

theorem not_before_self (m : Model) (x : MessageId) : ¬ m.Before x x := by
  rw [before_iff]
  rintro (h | ⟨-, h⟩)
  · exact Nat.lt_irrefl _ h
  · exact List.lt_irrefl (m.way x) h

theorem Before.asymm (h : m.Before x y) : ¬ m.Before y x := by
  rw [before_iff] at h ⊢
  rintro (h' | ⟨hlength, h'⟩)
  · omega
  · obtain h | ⟨-, h⟩ := h
    · omega
    · exact List.lt_asymm (show m.way x < m.way y from h) h'

/-- The messages that extend one message directly come in the order of their declarations. -/
theorem before_of_siblings (hm : m.IsForest) (hx : (m.message x).parent = some p)
    (hy : (m.message y).parent = some p) (h : x < y) : m.Before x y := by
  refine List.Shortlex.of_lex ?_ ?_
  · rw [length_way, length_way, ascent_of_some hm hx, ascent_of_some hm hy]
  · rw [way_of_some hm hx, way_of_some hm hy]
    exact .append_left _ (.rel h) _

/-- What is below one message comes before what is so far below a later one of its depth. -/
theorem before_of_line (hm : m.IsForest) (h : m.Before p q)
    (hdepth : (m.ascent p).length = (m.ascent q).length) (hx : p ∈ m.line x) (hy : q ∈ m.line y)
    (hlength : (m.ascent x).length = (m.ascent y).length) : m.Before x y := by
  have hlex : List.Lex (· < ·) (m.way p) (m.way q) := by
    obtain hlt | ⟨-, hlex⟩ := before_iff.mp h
    · omega
    · exact hlex
  obtain ⟨t, ht⟩ := way_of_mem_line hm hx
  obtain ⟨t', ht'⟩ := way_of_mem_line hm hy
  refine before_iff.mpr (.inr ⟨hlength, ?_⟩)
  rw [← ht, ← ht']
  exact lex_append hlex (by rw [length_way, length_way, hdepth]) t t'

/-! ## generations in order -/

/-- The messages that extend those of one generation come in the order of the generation. -/
theorem pairwise_next {level : List MessageId} (hm : m.IsForest) (h : level.Pairwise m.Before)
    (hlevel : ∀ y ∈ level, (m.ascent y).length = depth) :
    (level.flatMap m.specializations).Pairwise m.Before := by
  refine List.pairwise_flatMap.mpr ⟨fun p _ => ?_, ?_⟩
  · have hsorted : (m.specializations p).Pairwise (· < ·) := List.pairwise_lt_range.filter _
    refine hsorted.imp_of_mem fun hx hy hlt => ?_
    exact before_of_siblings hm (mem_specializations.mp hx) (mem_specializations.mp hy) hlt
  · refine h.imp_of_mem fun {p q} hp hq hbefore x hx y hy => ?_
    rw [mem_specializations] at hx hy
    have hdepth := (hlevel p hp).trans (hlevel q hq).symm
    refine before_of_line hm hbefore hdepth ?_ ?_ ?_
    · rw [line_of_some hm hx]
      exact .tail _ (.head _)
    · rw [line_of_some hm hy]
      exact .tail _ (.head _)
    · rw [ascent_of_some hm hx, ascent_of_some hm hy, List.length_cons, List.length_cons, hdepth]

/-- A walk down goes through the generations in order, and the later ones are reached later. -/
theorem pairwise_generations {level : List MessageId} (hm : m.IsForest)
    (h : level.Pairwise m.Before) (hlevel : ∀ y ∈ level, (m.ascent y).length = depth) :
    (m.generations fuel level).Pairwise m.Before := by
  induction fuel generalizing level depth with
  | zero => exact .nil
  | succ fuel ih =>
      have hnext := length_ascent_specializations hm hlevel
      refine List.pairwise_append.mpr ⟨h, ih (pairwise_next hm h hlevel) hnext, ?_⟩
      intro x hx y hy
      have hdeeper := length_ascent_of_mem_generations hm hnext hy
      have hdepth := hlevel x hx
      exact before_iff.mpr (.inl (by omega))

theorem length_ascent_of_mem_specializations (hm : m.IsForest) (a : MessageId) :
    ∀ y ∈ m.specializations a, (m.ascent y).length = (m.ascent a).length + 1 := by
  intro y hy
  rw [ascent_of_some hm (mem_specializations.mp hy), List.length_cons]

/-- The messages below a message are listed in the order of the ways to them. -/
theorem pairwise_descendants (hm : m.IsForest) (a : MessageId) :
    (m.descendants a).Pairwise m.Before := by
  refine pairwise_generations hm ?_ (length_ascent_of_mem_specializations hm a)
  rw [← List.flatMap_singleton m.specializations a]
  exact pairwise_next hm (List.pairwise_singleton _ _) (List.forall_mem_singleton.mpr rfl)

/-- Of two messages below a message, the one that is reached before comes before. -/
theorem sublist_descendants (hm : m.IsForest) (hx : x ∈ m.descendants a)
    (hy : y ∈ m.descendants a) (h : m.Before x y) : [x, y].Sublist (m.descendants a) := by
  have hsorted := pairwise_descendants hm a
  obtain ⟨front, back, hsplit⟩ := List.append_of_mem hx
  rw [hsplit] at hsorted hy ⊢
  rw [List.pairwise_append] at hsorted
  obtain hfront | hback := List.mem_append.mp hy
  · exact absurd (hsorted.2.2 y hfront x (.head _)) h.asymm
  · obtain rfl | hback := List.mem_cons.mp hback
    · exact absurd h (m.not_before_self y)
    · exact ((List.singleton_sublist.mpr hback).cons_cons x).trans (List.sublist_append_right _ _)

/-! ## linking -/

section Linking

open Schema

variable {schema : Schema}

/-- What links a message to others: its parent, and the messages that extend it. -/
structure Links where
  parent : Option MessageId := none
  below : List MessageId := []

/-- Link a message and its parent with each other. -/
def addLink (links : List Links) (x : MessageId) : Option MessageId → List Links
  | none => links
  | some p =>
    (links.modify x fun link => { link with parent := some p }).modify p
      fun link => { link with below := link.below ++ [x] }

/-- Link messages with their parents, one after the other. -/
def link (m : Model) (heads : List MessageHead) : Except SchemaError (List Links) :=
  heads.zipIdx.foldlM (fun links (head, x) => do return addLink links x (← m.parentOf head))
    (List.replicate heads.length {})

/-- The links of a message when the parents of the first messages are known. -/
def linksAt (parents : List (Option MessageId)) (a : MessageId) : Links :=
  ⟨parents[a]?.join, (List.range parents.length).filter fun x => parents[x]? == some (some a)⟩

/-- One more message. -/
theorem linksAt_concat (parents : List (Option MessageId)) (parent : Option MessageId)
    (a : MessageId) :
    linksAt (parents ++ [parent]) a =
      ⟨if a = parents.length then parent else (linksAt parents a).parent,
        (linksAt parents a).below ++ if parent = some a then [parents.length] else []⟩ := by
  simp only [linksAt, Links.mk.injEq]
  constructor
  · grind
  · rw [List.length_append, List.length_singleton, List.range_succ, List.filter_append]
    congr 1
    · refine List.filter_congr fun x hx => ?_
      rw [List.getElem?_append_left (List.mem_range.mp hx)]
    · simp [List.filter_cons]

theorem addLink_linksAt (count : Nat) (parents : List (Option MessageId))
    (parent : Option MessageId) :
    addLink ((List.range count).map (linksAt parents)) parents.length parent =
      (List.range count).map (linksAt (parents ++ [parent])) := by
  have hlast : (linksAt parents parents.length).parent = none := by simp [linksAt]
  refine List.ext_getElem (by cases parent <;> simp [addLink]) fun a ha ha' => ?_
  cases parent with
  | none =>
      simp only [addLink, List.getElem_map, List.getElem_range, linksAt_concat]
      have hparent : (if a = parents.length then none else (linksAt parents a).parent) =
          (linksAt parents a).parent := by split <;> simp_all
      simp [hparent]
  | some p =>
      simp only [addLink, List.getElem_modify, List.getElem_map, List.getElem_range, linksAt_concat]
      by_cases ha : parents.length = a <;> by_cases hp : p = a <;> simp_all [eq_comm]

theorem foldlM_addLink (m : Model) (heads : List MessageHead) (parents : List (Option MessageId)) :
    (heads.zipIdx parents.length).foldlM
        (fun links (head, x) => do return addLink links x (← m.parentOf head))
        ((List.range count).map (linksAt parents)) =
      (fun more => (List.range count).map (linksAt (parents ++ more))) <$>
        heads.mapM m.parentOf := by
  induction heads generalizing parents with
  | nil => simp
  | cons head heads ih =>
      have hnext : ∀ parent, _ := fun parent => ih (parents ++ [parent])
      simp only [List.length_append, List.length_singleton, List.append_assoc,
        List.singleton_append] at hnext
      simp only [List.zipIdx_cons, List.foldlM_cons, bind_assoc, pure_bind, addLink_linksAt, hnext,
        List.mapM_cons, map_eq_pure_bind]

/-- The parents of a model are those that the schema declares. -/
theorem mapM_parentOf (h : resolve schema = .ok m) :
    (heads schema).mapM (register schema).parentOf = .ok (m.messages.map (·.parent)) := by
  obtain ⟨linked, fields, ⟨-, parents, hparents, rfl⟩, -, -, hfields, rfl⟩ := resolve_eq_ok_iff.mp h
  have hlength := (Except.forall₂_of_mapM_eq_ok hparents).length_eq
  have hlength' := (Except.forall₂_of_mapM_eq_ok hfields).length_eq
  have hregister := (forall₂_register schema).length_eq
  rw [hparents]
  refine congrArg Except.ok (List.ext_getElem ?_ fun a ha ha' => ?_)
  · simp [setParents, setFields]
    omega
  · simp [setParents, setFields]

theorem linksAt_parents (m : Model) (a : MessageId) :
    linksAt (m.messages.map (·.parent)) a = ⟨(m.message a).parent, m.specializations a⟩ := by
  have hparent : ∀ x, (m.messages.map (·.parent))[x]?.join = (m.message x).parent := by
    intro x
    rw [message, List.getElem?_map, List.getD_eq_getElem?_getD]
    cases m.messages[x]? <;> rfl
  rw [linksAt, Links.mk.injEq]
  refine ⟨hparent a, ?_⟩
  · rw [specializations, messageIds, List.length_map]
    refine List.filter_congr fun x hx => ?_
    rw [← hparent, List.getElem?_map, List.getElem?_eq_getElem (List.mem_range.mp hx)]
    rfl

/-- Linking messages with their parents, one after the other, links each with the messages that
extend it, in the order of the declarations. -/
theorem link_eq (h : resolve schema = .ok m) :
    (register schema).link (heads schema) =
      .ok (m.messageIds.map fun a => ⟨(m.message a).parent, m.specializations a⟩) := by
  have hparents := mapM_parentOf h
  have hlength : (heads schema).length = m.messages.length := by
    rw [(Except.forall₂_of_mapM_eq_ok hparents).length_eq, List.length_map]
  have hnone : List.replicate (heads schema).length {} =
      (List.range (heads schema).length).map (linksAt []) := by
    rw [show linksAt [] = fun _ => {} from rfl, List.map_const', List.length_range]
  rw [link, hnone]
  refine (foldlM_addLink (register schema) (heads schema) []).trans ?_
  rw [hparents, hlength, ← funext (linksAt_parents m)]
  rfl

end Linking

/-! ## walking with a queue -/

/-- Take messages from a queue, and put those that extend each one at its end.  A message that was
seen before is left out, and at most `fuel` are taken. -/
def walkQueue (m : Model) : Nat → List MessageId → List MessageId → List MessageId
  | 0, _, _ => []
  | _ + 1, _, [] => []
  | fuel + 1, seen, x :: queue =>
    if x ∈ seen then m.walkQueue fuel seen queue
    else x :: m.walkQueue fuel (x :: seen) (queue ++ m.specializations x)

/-- Taking a generation from the front of a queue puts the next one at its end. -/
theorem walkQueue_level {level : List MessageId} (hnodup : level.Nodup)
    (hseen : ∀ x ∈ level, x ∉ seen) (fuel : Nat) (queue : List MessageId) :
    m.walkQueue (level.length + fuel) seen (level ++ queue) =
      level ++ m.walkQueue fuel (level.reverse ++ seen)
        (queue ++ level.flatMap m.specializations) := by
  induction level generalizing seen queue with
  | nil => simp
  | cons x level ih =>
      obtain ⟨hx, hnodup⟩ := List.nodup_cons.mp hnodup
      have hnew : ∀ y ∈ level, y ∉ x :: seen := by
        intro y hy hmem
        obtain rfl | hmem := List.mem_cons.mp hmem
        · exact hx hy
        · exact hseen y (.tail _ hy) hmem
      rw [List.length_cons, Nat.add_right_comm, List.cons_append, walkQueue,
        if_neg (hseen x (.head _)), List.append_assoc, ih hnodup hnew]
      simp

/-- A walk with a queue goes through the generations.  `seen` is above the first of them, and the
last of them is empty. -/
theorem walkQueue_eq_generations {level : List MessageId} (hm : m.IsForest)
    (hnodup : level.Nodup) (hlevel : ∀ y ∈ level, (m.ascent y).length = depth)
    (hseen : ∀ y ∈ seen, (m.ascent y).length < depth) (hlast : m.messages.length ≤ depth + count)
    (hbound : ∀ y ∈ level, y < m.messages.length)
    (hfuel : (m.generations count level).length ≤ fuel) :
    m.walkQueue fuel seen level = m.generations count level := by
  induction count generalizing level depth seen fuel with
  | zero =>
      have hempty : level = [] := by
        refine List.eq_nil_iff_forall_not_mem.mpr fun y hy => ?_
        have hlt := hm y (hbound y hy)
        rw [hlevel y hy] at hlt
        omega
      rw [hempty]
      cases fuel <;> rfl
  | succ count ih =>
      rw [generations, List.length_append] at hfuel
      have hnext := length_ascent_specializations hm hlevel
      have hdisjoint : ∀ y ∈ level, y ∉ seen := fun y hy hmem => by
        have hlt := hseen y hmem
        rw [hlevel y hy] at hlt
        exact Nat.lt_irrefl _ hlt
      have hnodup' : (level.flatMap m.specializations).Nodup := by
        have htwo : (m.generations 2 level).Nodup := nodup_generations hm hnodup hlevel
        exact htwo.sublist (by simp [generations])
      obtain ⟨rest, rfl⟩ := Nat.exists_eq_add_of_le (Nat.le_of_add_right_le hfuel)
      have hlevel' := walkQueue_level (m := m) hnodup hdisjoint rest []
      rw [List.append_nil, List.nil_append] at hlevel'
      rw [hlevel', generations, ih hnodup' hnext]
      · intro y hy
        obtain hy | hy := List.mem_append.mp hy
        · rw [hlevel y (List.mem_reverse.mp hy)]
          exact Nat.lt_succ_self _
        · exact Nat.lt_succ_of_lt (hseen y hy)
      · omega
      · intro y hy
        obtain ⟨p, -, hp⟩ := List.mem_flatMap.mp hy
        exact lt_of_parent (mem_specializations.mp hp)
      · omega

theorem lt_of_mem_descendants (hm : m.IsForest) (h : x ∈ m.descendants a) :
    x < m.messages.length := lt_of_mem_ascent ((mem_descendants_iff hm).mp h)

/-- A walk that may take as many messages as there are lists all messages below. -/
theorem walkQueue_eq_descendants (hm : m.IsForest) (a : MessageId)
    (hfuel : m.messages.length ≤ fuel) :
    m.walkQueue fuel [] (m.specializations a) = m.descendants a := by
  have hlength : (m.descendants a).length ≤ m.messages.length := by
    have hsub : m.descendants a ⊆ m.messageIds := fun x hx =>
      mem_messageIds.mpr (lt_of_mem_descendants hm hx)
    have hle := (List.subperm_of_subset (nodup_descendants hm a) hsub).length_le
    rwa [messageIds, List.length_range] at hle
  refine walkQueue_eq_generations hm (List.nodup_range.filter _)
    (length_ascent_of_mem_specializations hm a) (by simp) (Nat.le_add_left _ _) (fun y hy => ?_)
    (hlength.trans hfuel)
  exact lt_of_parent (mem_specializations.mp hy)

/-! ## breadth-first lists -/

/-- A list of messages below a message is breadth-first. -/
structure IsBreadthFirst (m : Model) (a : MessageId) (below : List MessageId) : Prop where
  nodup : below.Nodup
  /-- No message comes before one that is nearer. -/
  nearer : below.Pairwise fun x y => m.steps a x ≤ m.steps a y
  /-- Messages that extend the same one come in the order of their declarations. -/
  siblings : below.Pairwise fun x y => (m.message x).parent = (m.message y).parent → x < y
  /-- Where `p` comes before `q`, what is below `p` comes before what is as far below `q`. -/
  subtrees : ∀ p q x y, [p, q].Sublist below → m.steps a p = m.steps a q → p ∈ m.line x →
    q ∈ m.line y → m.steps a x = m.steps a y → [x, y].Sublist below

theorem isBreadthFirst_descendants (hm : m.IsForest) (a : MessageId) :
    m.IsBreadthFirst a (m.descendants a) := by
  have hsorted := pairwise_descendants hm a
  have hbelow : ∀ {x}, x ∈ m.descendants a → a ∈ m.ascent x := (mem_descendants_iff hm).mp
  have hsteps : ∀ {x}, x ∈ m.descendants a → m.steps a x + (m.ascent a).length =
      (m.ascent x).length := fun hx => steps_add_length hm (.tail _ (hbelow hx))
  refine ⟨nodup_descendants hm a, ?_, ?_, ?_⟩
  · refine hsorted.imp_of_mem fun hx hy h => ?_
    have hx := hsteps hx
    have hy := hsteps hy
    obtain h | ⟨h, -⟩ := before_iff.mp h <;> omega
  · refine hsorted.imp_of_mem fun {x y} hx hy h hparent => ?_
    cases hp : (m.message x).parent with
    | none =>
        have hmem := hbelow hx
        rw [ascent_of_none hp] at hmem
        contradiction
    | some p =>
        obtain hlt | rfl | hgt := Nat.lt_trichotomy x y
        · exact hlt
        · exact absurd h (m.not_before_self x)
        · exact absurd (before_of_siblings hm (hparent ▸ hp) hp hgt) h.asymm
  · intro p q x y hpq hlevel hx hy heq
    have hp : p ∈ m.descendants a := hpq.subset (by simp)
    have hq : q ∈ m.descendants a := hpq.subset (by simp)
    have hbefore := List.pairwise_iff_forall_sublist.mp hsorted hpq
    have hx' : x ∈ m.descendants a :=
      (mem_descendants_iff hm).mpr (mem_ascent_trans hm (hbelow hp) hx)
    have hy' : y ∈ m.descendants a :=
      (mem_descendants_iff hm).mpr (mem_ascent_trans hm (hbelow hq) hy)
    have hdepths := hsteps hp
    have hdepths' := hsteps hq
    have hlengths := hsteps hx'
    have hlengths' := hsteps hy'
    refine sublist_descendants hm hx' hy' (before_of_line hm hbefore ?_ hx hy ?_) <;> omega

/-- **Descendants.**  In the model of a schema the messages listed below a message are those that
have it among their ancestors.  They are listed breadth-first, as by a walk with a queue over the
lists that linking makes. -/
theorem descendants_breadthFirst {schema : Schema} (h : resolve schema = .ok m) (a : MessageId) :
    (∀ x, x ∈ m.descendants a ↔ a ∈ m.ancestors x) ∧ m.IsBreadthFirst a (m.descendants a) ∧
      (∀ fuel, m.messages.length ≤ fuel →
        m.walkQueue fuel [] (m.specializations a) = m.descendants a) ∧
      (register schema).link (heads schema) =
        .ok (m.messageIds.map fun b => ⟨(m.message b).parent, m.specializations b⟩) := by
  have hm := (resolve_ok h).1
  refine ⟨fun x => ?_, isBreadthFirst_descendants hm a, fun fuel => walkQueue_eq_descendants hm a,
    link_eq h⟩
  rw [mem_descendants_iff hm, mem_ancestors]

open Schema.Definition in
/-- Three generations, declared from the last to the first. -/
def pedigree : Schema := .ofDefinitions
  [(ofFields "Foal" []).extending "Mare", (ofFields "Colt" []).extending "Stallion",
   (ofFields "Filly" []).extending "Mare", (ofFamily "Stallion" []).extending "Horse",
   (ofFields "Pony" []).extending "Horse", (ofFamily "Mare" []).extending "Horse",
   ofFamily "Horse" []]

theorem descendants_breadthFirst_pedigree : ∃ m, resolve pedigree = .ok m ∧
    m.descendants 6 = [3, 4, 5, 1, 0, 2] ∧ m.IsBreadthFirst 6 [3, 4, 5, 1, 0, 2] ∧
    m.walkQueue 7 [] (m.specializations 6) = [3, 4, 5, 1, 0, 2] ∧
    (register pedigree).link (heads pedigree) =
      .ok (m.messageIds.map fun b => ⟨(m.message b).parent, m.specializations b⟩) := by
  have hmodel : (resolve pedigree).toOption.any (fun m => decide
      (m.messages.length ≤ 7 ∧ m.descendants 6 = [3, 4, 5, 1, 0, 2])) = true := by
    decide +kernel
  obtain ⟨m, hm, hfacts⟩ := (Option.any_eq_true _ _).mp hmodel
  obtain ⟨hlength, hbelow⟩ := of_decide_eq_true hfacts
  have hm := Except.toOption_eq_some.mp hm
  obtain ⟨-, hfirst, hqueue, hlink⟩ := descendants_breadthFirst hm 6
  rw [hbelow] at hfirst hqueue
  exact ⟨m, hm, hbelow, hfirst, hqueue 7 hlength, hlink⟩

end Missive.Model
