import Missive.Example
import Missive.Proofs.Source.Balance
import Missive.Proofs.Source.Supported

/-!
# Missive.Proofs.Source.Indentation

The indentation of emitted code grows and shrinks with its blocks.

A layout does not count below zero, so it would pass over the end of a block that was never begun.
`openAfter` stops there, and where it does not stop the layout has the same count
(`Layout.indent_foldl`).  Every end of a block then has a beginning of its own, with balanced code
between the two (`exists_opening`).  The code of each definition is balanced, so the units of a
model are (`units_nested`).
-/

namespace Missive.Source

variable {m : Model} {ctx : Context} {code before : Code} {codes : List Code} {depth n : Nat}

/-! ## the count of a layout -/

namespace Layout

variable {layout : Layout} {piece : Piece}

@[simp]
theorem indent_addLine (text : String) : (layout.addLine text).indent = layout.indent := rfl

@[simp]
theorem indent_addBlank : layout.addBlank.indent = layout.indent := by
  unfold addBlank
  split <;> rfl

/-- Lines leave the count as it is. -/
theorem indent_foldl_addLine (write : String → String) (texts : List String) (layout : Layout) :
    (texts.foldl (fun layout text => layout.addLine (write text)) layout).indent =
      layout.indent := by
  induction texts generalizing layout with
  | nil => rfl
  | cons text texts ih => rw [List.foldl_cons, ih, indent_addLine]

/-- A piece of code that closes nothing which is not open. -/
theorem indent_add (h : openAfter [piece] layout.indent = some n) :
    (layout.add piece).indent = n := by
  cases piece with
  | line text => exact Option.some.inj h
  | blank => exact indent_addBlank.trans (Option.some.inj h)
  | opening head => exact Option.some.inj h
  | closing after =>
      cases hindent : layout.indent with
      | zero => rw [hindent] at h; contradiction
      | succ depth =>
          rw [hindent] at h
          have hcount : depth = n := Option.some.inj h
          rw [add, indent_addLine, hindent, Nat.add_sub_cancel, hcount]
  | docs text =>
      cases text with
      | none => exact Option.some.inj h
      | some text => exact (indent_foldl_addLine docLine _ layout).trans (Option.some.inj h)
  | raw text => exact (indent_foldl_addLine id _ layout).trans (Option.some.inj h)

/-- **The indentation** is the number of open blocks. -/
theorem indent_foldl (h : openAfter code layout.indent = some n) :
    (code.foldl add layout).indent = n := by
  induction code generalizing layout with
  | nil => exact Option.some.inj h
  | cons piece code ih =>
      rw [← List.singleton_append, openAfter_append, Option.bind_eq_some_iff] at h
      obtain ⟨depth, hpiece, hcode⟩ := h
      exact ih (indent_add hpiece ▸ hcode)

end Layout

/-- How far the line after code is indented. -/
def indentAfter (code : Code) : Nat := (code.foldl Layout.add {}).indent

theorem indentAfter_eq (h : openAfter code 0 = some n) : indentAfter code = n :=
  Layout.indent_foldl h

/-! ## beginnings and ends -/

/-- Where blocks are open, the last of them has a beginning, and the blocks that began later are
closed. -/
theorem exists_opening (h : openAfter before 0 = some (depth + 1)) :
    ∃ outer head inner, before = outer ++ .opening head :: inner ∧
      openAfter outer 0 = some depth ∧ Balanced inner := by
  -- by the last piece: where it closes a block, what comes before that block is shorter
  induction hlength : before.length using Nat.strong_induction_on generalizing before depth with
  | _ length ih =>
      obtain rfl | ⟨before, piece, rfl⟩ := before.eq_nil_or_concat'
      · simp at h
      rw [openAfter_append, Option.bind_eq_some_iff] at h
      obtain ⟨count, hbefore, hpiece⟩ := h
      have hlt : before.length < length := by
        rw [← hlength, List.length_append]
        exact Nat.lt_succ_self _
      -- a piece that is neither beginning nor end belongs to the open block
      have hplain (hcount : count = depth + 1) (hbalanced : Balanced [piece]) :
          ∃ outer head inner, before ++ [piece] = outer ++ .opening head :: inner ∧
            openAfter outer 0 = some depth ∧ Balanced inner := by
        obtain ⟨outer, head, inner, rfl, houter, hinner⟩ :=
          ih before.length hlt (hcount ▸ hbefore) rfl
        exact ⟨outer, head, inner ++ [piece], by simp, houter, hinner.append hbalanced⟩
      cases piece with
      | line text => exact hplain (Option.some.inj hpiece) fun _ => rfl
      | blank => exact hplain (Option.some.inj hpiece) fun _ => rfl
      | docs text => exact hplain (Option.some.inj hpiece) fun _ => rfl
      | raw text => exact hplain (Option.some.inj hpiece) fun _ => rfl
      | opening head =>
          obtain rfl : count = depth := Nat.succ.inj (Option.some.inj hpiece)
          exact ⟨before, head, [], rfl, hbefore, fun _ => rfl⟩
      | closing after =>
          cases count with
          | zero => contradiction
          | succ count =>
              obtain rfl : count = depth + 1 := Option.some.inj hpiece
              obtain ⟨middle, head', inner', rfl, hmiddle, hinner'⟩ :=
                ih before.length hlt hbefore rfl
              have hlt' : middle.length < length := by
                rw [List.length_append] at hlt
                omega
              obtain ⟨outer, head, inner, rfl, houter, hinner⟩ :=
                ih middle.length hlt' hmiddle rfl
              refine ⟨outer, head, inner ++ (enter head' ++ inner' ++ leaveWith after), ?_, houter,
                hinner.append hinner'.enclosed⟩
              simp [enter, leaveWith]

/-! ## units -/

/-- Pieces of code, laid out one after another, whose blocks are nested. -/
structure Nested (codes : List Code) : Prop where
  /-- The end of a block has its beginning before it, indented like it, with balanced code between
  the two.  So something is open where the block is closed. -/
  closing : ∀ before text after, codes.flatten = before ++ .closing text :: after →
    ∃ outer head inner, before = outer ++ .opening head :: inner ∧ Balanced inner ∧
      indentAfter before = indentAfter outer + 1 ∧
      indentAfter (before ++ [.closing text]) = indentAfter outer
  /-- After each of the pieces nothing is indented. -/
  settled : ∀ n, indentAfter (codes.take n).flatten = 0

theorem nested_of_balanced (h : ∀ code ∈ codes, Balanced code) : Nested codes where
  closing before text after hsplit := by
    have hcount := balanced_flatten h 0
    rw [hsplit, openAfter_append, Option.bind_eq_some_iff] at hcount
    obtain ⟨count, hbefore, hafter⟩ := hcount
    cases count with
    | zero => contradiction
    | succ depth =>
        obtain ⟨outer, head, inner, rfl, houter, hinner⟩ := exists_opening hbefore
        refine ⟨outer, head, inner, rfl, hinner, ?_, ?_⟩
        · rw [indentAfter_eq hbefore, indentAfter_eq houter]
        · rw [indentAfter_eq houter]
          refine indentAfter_eq ?_
          rw [openAfter_append, hbefore]
          rfl
  settled n := indentAfter_eq <|
    balanced_flatten (fun code hcode => h code (List.mem_of_mem_take hcode)) 0

/-- **Emitted code is nested**: whatever the features are and whether XML is chosen or not, the text
of a unit is that of the code of its definitions, in which every block that is closed was begun, and
where nothing is open after a definition. -/
theorem units_nested {config : Config} {emitted : CodeModule}
    (h : generate builtinPlugins config m = .ok emitted) :
    ∃ plugins, builtinPlugins.select (Features.resolve config m) config.plugins = .ok plugins ∧
      List.Forall₂ (fun root (unit : CodeUnit) => ∃ codes,
        (m.unitMembers root).mapM (definitionCode (contextOf config m plugins)) = .ok codes ∧
        unit.name = m.nameOf root ∧ unit.text = Code.render codes.flatten ∧ Nested codes)
        m.roots emitted.units := by
  obtain ⟨plugins, hselect, hunits⟩ := generate_eq_ok_iff.mp h
  refine ⟨plugins, hselect, (Except.forall₂_of_mapM_eq_ok hunits).imp fun root unit hunit => ?_⟩
  obtain ⟨codes, hcodes, hunit⟩ := Except.bind_eq_ok hunit
  cases hunit
  refine ⟨codes, hcodes, rfl, rfl, nested_of_balanced fun code hcode => ?_⟩
  obtain ⟨r, -, hr⟩ := Except.exists_of_mapM_eq_ok hcodes hcode
  refine balanced_definitionCode (fun plugin hplugin => ?_) hr
  rw [((select_builtinPlugins hselect).mp hplugin).1]
  exact isBalanced_xmlPlugin

theorem units_nested_zoo : ∃ m emitted unit codes, Model.ofSchema Example.zoo = .ok m ∧
    generate builtinPlugins { plugins := ["xml"] } m = .ok emitted ∧ unit ∈ emitted.units ∧
    unit.name = "Animal" ∧ unit.text = Code.render codes.flatten ∧ Nested codes := by
  have hcompile : (compile builtinPlugins { plugins := ["xml"] } Example.zoo).toOption.isSome := by
    decide +kernel
  have hmodel : (Model.ofSchema Example.zoo).toOption.any (fun m =>
      decide ((m.roots[1]?).map m.nameOf = some "Animal")) = true := by
    decide +kernel
  obtain ⟨text, htext⟩ := Option.isSome_iff_exists.mp hcompile
  obtain ⟨m, hanalyze, hgenerate⟩ := Except.bind_eq_ok (Except.toOption_eq_some.mp htext)
  obtain ⟨emitted, hgenerate, -⟩ := Except.bind_eq_ok hgenerate
  have hm := analyze_eq_ok_iff.mp hanalyze
  rw [hm] at hmodel
  obtain ⟨root, hroot, hname⟩ := Option.map_eq_some_iff.mp (of_decide_eq_true hmodel)
  obtain ⟨plugins, -, hunits⟩ := units_nested hgenerate
  obtain ⟨unit, hunit, codes, -, hunitName, htext, hnested⟩ :=
    exists_of_forall₂ hunits.flip (List.mem_of_getElem? hroot)
  exact ⟨m, emitted, unit, codes, hm, hgenerate, hunit, hunitName.trans hname, htext, hnested⟩

end Missive.Source
