import Missive.Proofs.Model.Lineage

/-!
# Missive.Proofs.Model.Variants

The cases of an abstract message.

Abstract messages extend only abstract ones, so a line goes down through abstract messages first and
through concrete ones from there on.  The cases of an abstract message are what a line meets behind
it: an abstract message, or all of the concrete part.  Hence no message is a case twice
(`nodup_variants`), a concrete message is a case of the nearest abstract message above it
(`mem_variants_iff_abstractParent?`), and what is below an abstract message is a case of it or below
one of its abstract cases (`mem_variants_or_below`), of which there is only one
(`eq_of_variants_above`).
-/

namespace Missive.Model

variable {m : Model} {a b id p x y : MessageId}

/-! ## lines -/

theorem mem_line_iff : a ∈ m.line x ↔ a = x ∨ a ∈ m.ascent x := List.mem_cons

/-- A line has one message at each depth. -/
theorem eq_of_mem_line (hm : m.IsForest) (ha : a ∈ m.line x) (hb : b ∈ m.line x)
    (hdepth : (m.ascent a).length = (m.ascent b).length) : a = b := by
  induction x using hm.induction with
  | root x hp =>
      rw [line, ascent_of_none hp, List.mem_singleton] at ha hb
      rw [ha, hb]
  | step x p hp ih =>
      have habove : ∀ {c}, c ∈ m.line x → c = x ∨ c ∈ m.line p := by
        intro c hc
        rwa [line, ascent_of_some hm hp, List.mem_cons] at hc
      have hshorter : ∀ {c}, c ∈ m.line p → (m.ascent c).length < (m.ascent x).length := by
        intro c hc
        refine length_ascent_lt hm ?_
        rwa [ascent_of_some hm hp]
      obtain rfl | hap := habove ha
      · obtain rfl | hbp := habove hb
        · rfl
        · exact absurd hdepth (hshorter hbp).ne'
      · obtain rfl | hbp := habove hb
        · exact absurd hdepth (hshorter hap).ne
        · exact ih hap hbp

/-- A line goes through one of the messages that extend a message directly. -/
theorem eq_of_siblings (hm : m.IsForest) (ha : (m.message a).parent = some p)
    (hb : (m.message b).parent = some p) (hax : a ∈ m.line x) (hbx : b ∈ m.line x) : a = b := by
  refine eq_of_mem_line hm hax hbx ?_
  rw [ascent_of_some hm ha, ascent_of_some hm hb, List.length_cons]

/-- A line that holds a message above its beginning goes through one that extends it directly. -/
theorem exists_child_of_mem_ascent (hm : m.IsForest) (h : a ∈ m.ascent x) :
    ∃ y, (m.message y).parent = some a ∧ y ∈ m.line x := by
  induction x using hm.induction with
  | root x hp => rw [ascent_of_none hp] at h; contradiction
  | step x p hp ih =>
      rw [ascent_of_some hm hp] at h
      obtain rfl | h := List.mem_cons.mp h
      · exact ⟨x, hp, .head _⟩
      · obtain ⟨y, hy, hline⟩ := ih h
        refine ⟨y, hy, ?_⟩
        rw [line, ascent_of_some hm hp]
        exact .tail _ hline

theorem mem_ascent_trans (hm : m.IsForest) (hab : a ∈ m.ascent b) (hbx : b ∈ m.line x) :
    a ∈ m.ascent x := by
  induction x using hm.induction with
  | root x hp =>
      rw [line, ascent_of_none hp, List.mem_singleton] at hbx
      exact hbx ▸ hab
  | step x p hp ih =>
      obtain rfl | hbx := mem_line_iff.mp hbx
      · exact hab
      · rw [ascent_of_some hm hp] at hbx ⊢
        exact .tail _ (ih hbx)

/-! ## cases -/

/-- The cases of a message are met on lines that go through a message that extends it directly: that
one or, if it is concrete, any behind it. -/
theorem mem_variants_iff (hm : m.IsForest) : x ∈ m.variants a ↔
    ∃ y, (m.message y).parent = some a ∧ y ∈ m.line x ∧
      ((m.message y).isAbstract = true → x = y) := by
  simp only [variants, List.mem_flatMap, mem_specializations]
  constructor
  · rintro ⟨y, hy, hx⟩
    refine ⟨y, hy, ?_⟩
    split at hx
    · obtain rfl := List.mem_singleton.mp hx
      exact ⟨.head _, fun _ => rfl⟩
    · next hconcrete =>
        rw [List.mem_cons, mem_descendants_iff hm] at hx
        exact ⟨mem_line_iff.mpr (hx.imp_left Eq.symm), fun ha => absurd ha hconcrete⟩
  · rintro ⟨y, hy, hline, habstract⟩
    refine ⟨y, hy, ?_⟩
    split
    · next ha => exact List.mem_singleton.mpr (habstract ha)
    · rw [List.mem_cons, mem_descendants_iff hm]
      exact (mem_line_iff.mp hline).imp_left Eq.symm

theorem mem_ascent_of_mem_variants (hm : m.IsForest) (h : x ∈ m.variants a) : a ∈ m.ascent x := by
  obtain ⟨y, hy, hline, -⟩ := (mem_variants_iff hm).mp h
  refine mem_ascent_trans hm ?_ hline
  rw [ascent_of_some hm hy]
  exact .head _

theorem nodup_variants (hm : m.IsForest) (a : MessageId) : (m.variants a).Nodup := by
  have hline : ∀ y x, x ∈ (if (m.message y).isAbstract then [y] else y :: m.descendants y) →
      y ∈ m.line x := by
    intro y x hx
    split at hx
    · obtain rfl := List.mem_singleton.mp hx
      exact .head _
    · rw [List.mem_cons, mem_descendants_iff hm] at hx
      exact mem_line_iff.mpr (hx.imp_left Eq.symm)
  refine List.nodup_flatMap.mpr ⟨fun y _ => ?_, ?_⟩
  · split
    · exact List.nodup_singleton y
    · refine List.nodup_cons.mpr ⟨fun hy => ?_, nodup_descendants hm y⟩
      exact not_mem_ascent_self hm ((mem_descendants_iff hm).mp hy)
  · have hspec : (m.specializations a).Nodup := List.nodup_range.filter _
    refine hspec.imp_of_mem fun {y z} hy hz hne x hxy hxz => hne ?_
    exact eq_of_siblings hm (mem_specializations.mp hy) (mem_specializations.mp hz)
      (hline y x hxy) (hline z x hxz)

/-- The abstract cases are the abstract messages that extend a message directly. -/
theorem mem_variants_iff_parent (hm : m.IsForest) (habs : m.AbstractAbove)
    (hx : (m.message x).isAbstract = true) :
    x ∈ m.variants a ↔ (m.message x).parent = some a := by
  rw [mem_variants_iff hm]
  constructor
  · rintro ⟨y, hy, hline, habstract⟩
    have hya : (m.message y).isAbstract = true := by
      obtain rfl | hline := mem_line_iff.mp hline
      · exact hx
      · exact isAbstract_of_mem_ascent hm habs hline hx
    rw [habstract hya]
    exact hy
  · exact fun hp => ⟨x, hp, .head _, fun _ => rfl⟩

/-! ## the nearest abstract message -/

theorem abstractParent?_of_some (hm : m.IsForest) (hp : (m.message id).parent = some p) :
    m.abstractParent? id =
      if (m.message p).isAbstract then some p else m.abstractParent? p := by
  rw [abstractParent?, ascent_of_some hm hp, List.find?_cons]
  cases (m.message p).isAbstract <;> rfl

theorem of_abstractParent? (h : m.abstractParent? id = some a) :
    a ∈ m.ascent id ∧ (m.message a).isAbstract = true := by
  rw [abstractParent?] at h
  exact ⟨List.mem_of_find?_eq_some h, by simpa using List.find?_some h⟩

theorem exists_abstractParent? (h : m.inFamily id = true)
    (hconcrete : (m.message id).isAbstract = false) : ∃ a, m.abstractParent? id = some a := by
  rw [inFamily, hconcrete, Bool.false_or] at h
  exact Option.isSome_iff_exists.mp (List.find?_isSome.mpr (List.any_eq_true.mp h))

/-- A concrete message is a case of the nearest abstract message above it, and of no other. -/
theorem mem_variants_iff_abstractParent? (hm : m.IsForest) (habs : m.AbstractAbove)
    (ha : (m.message a).isAbstract = true) (hx : (m.message x).isAbstract = false) :
    x ∈ m.variants a ↔ m.abstractParent? x = some a := by
  rw [mem_variants_iff hm]
  induction x using hm.induction with
  | root x hp =>
      have hnone : m.abstractParent? x = none := by rw [abstractParent?, ascent_of_none hp]; rfl
      simp only [line, ascent_of_none hp, List.mem_singleton, hnone, reduceCtorEq, iff_false]
      rintro ⟨y, hy, rfl, -⟩
      rw [hp] at hy
      contradiction
  | step x p hp ih =>
      rw [abstractParent?_of_some hm hp]
      have hline : ∀ {y}, y ∈ m.line x ↔ y = x ∨ y ∈ m.line p := by
        intro y
        rw [line, ascent_of_some hm hp, List.mem_cons]
        rfl
      cases hpa : (m.message p).isAbstract with
      | true =>
          simp only [if_true, Option.some.injEq]
          constructor
          · rintro ⟨y, hy, hxy, habstract⟩
            obtain rfl | hyp := hline.mp hxy
            · exact Option.some.inj (hp.symm.trans hy)
            · -- what is above an abstract message is abstract, but `x` is not
              have hya : (m.message y).isAbstract = true := by
                obtain rfl | hyp := mem_line_iff.mp hyp
                · exact hpa
                · exact isAbstract_of_mem_ascent hm habs hyp hpa
              rw [habstract hya, hya] at hx
              contradiction
          · rintro rfl
            exact ⟨x, hp, .head _, fun _ => rfl⟩
      | false =>
          simp only [Bool.false_eq_true, if_false]
          rw [← ih hpa]
          constructor
          · rintro ⟨y, hy, hxy, habstract⟩
            obtain rfl | hyp := hline.mp hxy
            · rw [hp, Option.some.injEq] at hy
              rw [hy, ha] at hpa
              contradiction
            · refine ⟨y, hy, hyp, fun hya => ?_⟩
              rw [habstract hya, hya] at hx
              contradiction
          · rintro ⟨y, hy, hyp, habstract⟩
            refine ⟨y, hy, hline.mpr (.inr hyp), fun hya => ?_⟩
            rw [habstract hya, hya] at hpa
            contradiction

/-! ## below an abstract message -/

/-- What is below a message is a case of it, or below one of its abstract cases. -/
theorem mem_variants_or_below (hm : m.IsForest) (h : a ∈ m.ascent x) :
    x ∈ m.variants a ∨ ∃ b ∈ m.variants a, (m.message b).isAbstract = true ∧ b ∈ m.ascent x := by
  obtain ⟨y, hy, hline⟩ := exists_child_of_mem_ascent hm h
  cases hya : (m.message y).isAbstract with
  | false => exact .inl ((mem_variants_iff hm).mpr ⟨y, hy, hline, by simp [hya]⟩)
  | true =>
      have hcase : y ∈ m.variants a := (mem_variants_iff hm).mpr ⟨y, hy, .head _, fun _ => rfl⟩
      obtain rfl | hline := mem_line_iff.mp hline
      · exact .inl hcase
      · exact .inr ⟨y, hcase, hya, hline⟩

/-- A message is not below two abstract cases, nor is a case below another abstract one. -/
theorem eq_of_variants_above (hm : m.IsForest) (habs : m.AbstractAbove)
    (hb : b ∈ m.variants a) (hba : (m.message b).isAbstract = true) (hbx : b ∈ m.line x)
    (hy : y ∈ m.variants a) (hyx : y ∈ m.line x) : b = y := by
  have hparent := (mem_variants_iff_parent hm habs hba).mp hb
  obtain ⟨z, hz, hzy, hzabstract⟩ := (mem_variants_iff hm).mp hy
  have hzx : z ∈ m.line x := by
    obtain rfl | hzy := mem_line_iff.mp hzy
    · exact hyx
    · exact .tail _ (mem_ascent_trans hm hzy hyx)
  obtain rfl := eq_of_siblings hm hparent hz hbx hzx
  exact (hzabstract hba).symm

end Missive.Model
