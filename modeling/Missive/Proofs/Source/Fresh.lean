import Missive.Model.Identify
import Missive.Proofs.Except
import Missive.Schema.Build
import Missive.Source.Visitor

/-!
# Missive.Proofs.Source.Fresh

Names that are free, and the type parameters of visitors.

A search for a free name tries numbers in order.  Different numbers give different names, so it
passes over fewer numbers than names are taken (`AllTaken.lt_card`).  It therefore comes to a free
name, which is the first one (`fresh_of_mem`), and its counter stays small (`finds_fresh`).  The
type parameters of visitors are chosen one after the other in this way, and keep apart from each
other and from all types (`Generics.names_free`).
-/

namespace Missive

/-! ## numbers in names -/

/-- The number that a decimal text writes is read off its digits. -/
theorem decimalText_injective : Function.Injective decimalText :=
  Function.LeftInverse.injective (g := fun text => Nat.ofDigitChars 10 text.toList 0)
    fun n => by simp [decimalText, decimalDigits]

theorem decimalText_ne_empty (n : Nat) : decimalText n ≠ "" := by
  intro h
  have hdigits : Nat.toDigits 10 n = [] := by
    simpa [decimalText, decimalDigits] using congrArg String.toList h
  exact Nat.toDigits_ne_nil hdigits

namespace Source

section Search

variable {base name : String} {taken : List String} {n i fuel : Nat}

theorem numbered_injective (base : String) : Function.Injective (base ++ decimalText ·) := by
  intro a b h
  exact decimalText_injective (by simpa using h)

/-! ## the search -/

/-- All names with a number from `i` up to `n` are taken. -/
def AllTaken (base : String) (taken : List String) (i n : Nat) : Prop :=
  ∀ k ∈ Finset.Ico i n, base ++ decimalText k ∈ taken

namespace AllTaken

theorem cons (h : base ++ decimalText i ∈ taken) (hrest : AllTaken base taken (i + 1) n) :
    AllTaken base taken i n := by
  intro k hk
  rw [Finset.mem_Ico] at hk
  by_cases hki : k = i
  · rwa [hki]
  · exact hrest k (Finset.mem_Ico.mpr (by omega))

/-- The names that are passed over are taken, and so is the name without a number. -/
theorem lt_card (h : AllTaken base taken i n) (hbase : base ∈ taken) :
    n - i < taken.toFinset.card := by
  let passed := (Finset.Ico i n).image (base ++ decimalText ·)
  have hnew : base ∉ passed := by
    simp [passed, decimalText_ne_empty]
  have hsub : insert base passed ⊆ taken.toFinset := by
    intro name hname
    simp only [passed, Finset.mem_insert, Finset.mem_image] at hname
    obtain rfl | ⟨k, hk, rfl⟩ := hname
    · exact List.mem_toFinset.mpr hbase
    · exact List.mem_toFinset.mpr (h k hk)
  calc n - i = passed.card := by
        rw [Finset.card_image_of_injective _ (numbered_injective base), Nat.card_Ico]
    _ < (insert base passed).card := by
        rw [Finset.card_insert_of_notMem hnew]
        exact Nat.lt_succ_self _
    _ ≤ taken.toFinset.card := Finset.card_le_card hsub

end AllTaken

theorem of_numbered?_eq_some (h : numbered? base taken fuel i = some name) :
    ∃ n, i ≤ n ∧ name = base ++ decimalText n ∧ name ∉ taken ∧ AllTaken base taken i n := by
  fun_induction numbered? base taken fuel i with
  | case1 => contradiction
  | case2 fuel i candidate htaken ih =>
      obtain ⟨n, hin, hname, hfree, hall⟩ := ih h
      exact ⟨n, by omega, hname, hfree, hall.cons (by simpa using htaken)⟩
  | case3 fuel i candidate hfree =>
      obtain rfl := Option.some.inj h
      exact ⟨i, Nat.le_refl i, rfl, by simpa using hfree, by simp [AllTaken]⟩

theorem allTaken_of_numbered? (h : numbered? base taken fuel i = none) :
    AllTaken base taken i (i + fuel) := by
  fun_induction numbered? base taken fuel i with
  | case1 => simp [AllTaken]
  | case2 fuel i candidate htaken ih =>
      have hrest := ih h
      rw [Nat.add_right_comm] at hrest
      exact hrest.cons (by simpa using htaken)
  | case3 => contradiction

/-! ## names that are free -/

theorem fresh_of_not_mem (h : base ∉ taken) : fresh base taken = base := by
  simp [fresh, h]

/-- The search never runs out of numbers: it comes to the first one that is free. -/
theorem fresh_of_mem (h : base ∈ taken) :
    ∃ n, 2 ≤ n ∧ fresh base taken = base ++ decimalText n ∧ fresh base taken ∉ taken ∧
      AllTaken base taken 2 n := by
  have hfresh : fresh base taken = (numbered? base taken (taken.length + 1) 2).getD base := by
    simp [fresh, h]
  cases hsearch : numbered? base taken (taken.length + 1) 2 with
  | some name =>
      rw [hfresh, hsearch]
      exact of_numbered?_eq_some hsearch
  | none =>
      have hlt := (allTaken_of_numbered? hsearch).lt_card h
      have hle := taken.toFinset_card_le
      omega

theorem fresh_not_mem (base : String) (taken : List String) : fresh base taken ∉ taken := by
  by_cases h : base ∈ taken
  · obtain ⟨n, -, -, hfree, -⟩ := fresh_of_mem h
    exact hfree
  · rwa [fresh_of_not_mem h]

theorem isLeast_of_allTaken (hn : i ≤ n) (hfree : base ++ decimalText n ∉ taken)
    (hall : AllTaken base taken i n) :
    IsLeast {n | i ≤ n ∧ base ++ decimalText n ∉ taken} n := by
  refine ⟨⟨hn, hfree⟩, ?_⟩
  rintro k ⟨hik, hk⟩
  by_contra hlt
  exact hk (hall k (Finset.mem_Ico.mpr (by omega)))

/-! ## counting in 32 bits -/

/-- A search that counts in 32 bits, from a number on, comes to an end with a name.  The counter has
moved on when its number is tried, so the last number that it could hold is not tried. -/
inductive Finds (base : String) (taken : List String) : Nat → String → Prop where
  | free {n : Nat} (hroom : n + 1 < 2 ^ 31) (hfree : base ++ decimalText n ∉ taken) :
      Finds base taken n (base ++ decimalText n)
  | next {n : Nat} {name : String} (hroom : n + 1 < 2 ^ 31)
      (htaken : base ++ decimalText n ∈ taken) (hfinds : Finds base taken (n + 1) name) :
      Finds base taken n name

theorem finds_of_allTaken (hin : i ≤ n) (hroom : n + 1 < 2 ^ 31)
    (hfree : base ++ decimalText n ∉ taken) (hall : AllTaken base taken i n) :
    Finds base taken i (base ++ decimalText n) := by
  induction hin using Nat.decreasingInduction with
  | self => exact .free hroom hfree
  | of_succ i hlt ih =>
      have htaken : base ++ decimalText i ∈ taken := hall i (Finset.mem_Ico.mpr (by omega))
      refine .next (by omega) htaken (ih fun k hk => hall k ?_)
      rw [Finset.mem_Ico] at hk ⊢
      omega

/-- A counter of 32 bits is enough where fewer than `2 ^ 31 - 2` names are taken. -/
theorem finds_fresh (h : base ∈ taken) (hfew : taken.toFinset.card < 2 ^ 31 - 2) :
    Finds base taken 2 (fresh base taken) := by
  obtain ⟨n, hn, hname, hfree, hall⟩ := fresh_of_mem h
  have hlt := hall.lt_card h
  rw [hname] at hfree ⊢
  exact finds_of_allTaken hn (by omega) hfree hall

end Search

/-! ## type parameters -/

namespace Generics

/-- The names of the type parameters. -/
def names (g : Generics) : List String := [g.result, g.argument, g.visitor]

theorem not_mem_taken_iff {m : Model} {name : String} : name ∉ taken m ↔
    (∀ message ∈ m.messages, name ≠ typeName message.name ∧
      name ≠ baseName message.name ∧ name ≠ visitorName message.name) ∧
    ∀ e ∈ m.enumerations, name ≠ typeName e.name := by
  simp [taken, eq_comm]

/-- Each type parameter is chosen against all types and the parameters before it. -/
theorem names_free (m : Model) : (of m).names.Nodup ∧ (of m).names.Disjoint (taken m) := by
  have hresult : (of m).result ∉ taken m := fresh_not_mem _ _
  have hargument : (of m).argument ∉ (of m).result :: taken m := fresh_not_mem _ _
  have hvisitor : (of m).visitor ∉ (of m).argument :: (of m).result :: taken m :=
    fresh_not_mem _ _
  simp only [List.mem_cons, not_or] at hargument hvisitor
  obtain ⟨hargumentResult, hargument⟩ := hargument
  obtain ⟨hvisitorArgument, hvisitorResult, hvisitor⟩ := hvisitor
  constructor
  · simp [names, Ne.symm hargumentResult, Ne.symm hvisitorArgument, Ne.symm hvisitorResult]
  · simp [names, hresult, hargument, hvisitor]

end Generics

/-- **Type parameters hide no type.**  A fresh name is not taken: it is the name itself where that
is free, and otherwise the name with the first free number from two on, which a counter of 32 bits
finds as long as fewer than `2 ^ 31 - 2` names are taken.  So the type parameters of visitors differ
from each other and from every type, every structure of declared fields and every visitor. -/
theorem type_parameters_free :
    (∀ (base : String) (taken : List String),
      fresh base taken ∉ taken ∧
      (base ∉ taken → fresh base taken = base) ∧
      (base ∈ taken → ∃ n, fresh base taken = base ++ decimalText n ∧
        IsLeast {n | 2 ≤ n ∧ base ++ decimalText n ∉ taken} n) ∧
      (base ∈ taken → taken.toFinset.card < 2 ^ 31 - 2 →
        Finds base taken 2 (fresh base taken))) ∧
    ∀ m : Model, (Generics.of m).names.Nodup ∧
      ∀ name ∈ (Generics.of m).names,
        (∀ message ∈ m.messages, name ≠ typeName message.name ∧
          name ≠ baseName message.name ∧ name ≠ visitorName message.name) ∧
        ∀ e ∈ m.enumerations, name ≠ typeName e.name := by
  constructor
  · intro base taken
    refine ⟨fresh_not_mem base taken, fresh_of_not_mem, fun h => ?_, finds_fresh⟩
    obtain ⟨n, hn, hname, hfree, hall⟩ := fresh_of_mem h
    exact ⟨n, hname, isLeast_of_allTaken hn (hname ▸ hfree) hall⟩
  · intro m
    obtain ⟨hnodup, hdisjoint⟩ := Generics.names_free m
    refine ⟨hnodup, fun name hname => ?_⟩
    exact Generics.not_mem_taken_iff.mp (hdisjoint hname)

open Schema Schema.Definition in
/-- Definitions with the names that type parameters have where they are free. -/
def letters : Schema := .ofDefinitions
  [ofFamily "r" [], (ofFields "a" []).extending "r", ofNames "A2" ["FIRST"]]

theorem type_parameters_free_letters :
    (fresh "R" ["R", "R4", "R2"] = "R3" ∧ "R3" ∉ ["R", "R4", "R2"] ∧
      ["R", "R4", "R2"].toFinset.card < 2 ^ 31 - 2 ∧ Finds "R" ["R", "R4", "R2"] 2 "R3") ∧
    ∃ m, Model.ofSchema letters = .ok m ∧ (Generics.of m).names = ["R2", "A3", "V"] ∧
      ["R2", "A3", "V"].Nodup ∧ ∀ e ∈ m.enumerations, "A3" ≠ typeName e.name := by
  obtain ⟨hfresh, hgenerics⟩ := type_parameters_free
  have hname : fresh "R" ["R", "R4", "R2"] = "R3" := by decide +kernel
  have hfew : ["R", "R4", "R2"].toFinset.card < 2 ^ 31 - 2 := by decide
  obtain ⟨hfree, -, -, hfinds⟩ := hfresh "R" ["R", "R4", "R2"]
  have hmodel : (Model.ofSchema letters).toOption.any (fun m =>
      (Generics.of m).names == ["R2", "A3", "V"]) = true := by
    decide +kernel
  obtain ⟨m, hm, hnames⟩ := (Option.any_eq_true _ _).mp hmodel
  rw [beq_iff_eq] at hnames
  obtain ⟨hnodup, hdiffer⟩ := hgenerics m
  rw [hnames] at hnodup hdiffer
  rw [hname] at hfree hfinds
  exact ⟨⟨hname, hfree, hfew, hfinds (by decide) hfew⟩, m, Except.toOption_eq_some.mp hm, hnames,
    hnodup, (hdiffer "A3" (by decide)).2⟩

end Source

end Missive
