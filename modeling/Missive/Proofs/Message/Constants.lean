import Missive.Proofs.Message.Catalog
import Missive.Proofs.Model.Identifiers

/-!
# Missive.Proofs.Message.Constants

Constants on the wire: as codes in binary, as names in JSON.

Codes are distinct, so a constant is found by its code.  Names are not checked where an option gives
them, and of several constants with one name the first is found (`constantOfName_nameOf_iff`).  So a
constant survives JSON if no constant before it has its name.
-/

namespace Missive

/-- An enumeration of an accepted schema has a first constant. -/
theorem Model.constants_ne_nil {m : Model} {enum : EnumId} (h : ofSchema schema = .ok m)
    (henum : enum ∈ m.enumIds) : (m.enumeration enum).constants ≠ [] := by
  have hlt : enum < m.enumerations.length := List.mem_range.mp henum
  obtain ⟨draft, hpasses⟩ := passes_of_ofSchema h
  obtain ⟨m₀, -, -, henums⟩ := hpasses.resolved
  obtain ⟨e, -, he⟩ := Except.exists_of_mapM_eq_ok henums (List.getElem_mem hlt)
  rw [enumeration, List.getD_eq_getElem _ _ hlt]
  intro hnil
  have hlength := (forall₂_identifyEnumeration he).length_eq
  rw [hnil, List.length_nil, List.length_eq_zero_iff] at hlength
  exact (identifyEnumeration_ok he).1 hlength

namespace Catalog

variable {c : Catalog} {m : Model} {enum : EnumId}

theorem nameOf_of_getElem? {i : Nat} (h : (c.constants enum)[i]? = some constant) :
    c.nameOf enum i = constant.jsonName := by
  rw [nameOf, h, Option.map_some, Option.getD_some]

theorem constantOfCode_of_unknown (h : ∀ constant ∈ c.constants enum, constant.code ≠ code) :
    c.constantOfCode enum code = 0 := by
  have hnone : (c.constants enum).findIdx? (·.code == code) = none := by
    simpa [List.findIdx?_eq_none_iff] using h
  rw [constantOfCode, hnone, Option.getD_none]

theorem constantOfName_of_unknown (h : ∀ constant ∈ c.constants enum, constant.jsonName ≠ name) :
    c.constantOfName enum name = 0 := by
  have hnone : (c.constants enum).findIdx? (·.jsonName == name) = none := by
    simpa [List.findIdx?_eq_none_iff] using h
  rw [constantOfName, hnone, Option.getD_none]

/-- A constant is found by its name if no constant before it has that name. -/
theorem constantOfName_nameOf_iff (hi : i < (c.constants enum).length) :
    c.constantOfName enum (c.nameOf enum i) = i ↔ ∀ j < i, c.nameOf enum j ≠ c.nameOf enum i := by
  have hget := List.getElem?_eq_getElem hi
  have hfirst := findIdx?_eq_some_iff_first (f := (·.jsonName)) hget
  -- the name is that of a constant, so the search does not fall back to the first
  have hfound : ((c.constants enum).findIdx?
      (·.jsonName == (c.constants enum)[i].jsonName)).isSome := by
    rw [List.findIdx?_isSome, List.any_eq_true]
    exact ⟨_, List.getElem_mem hi, beq_self_eq_true _⟩
  obtain ⟨k, hk⟩ := Option.isSome_iff_exists.mp hfound
  rw [nameOf_of_getElem? hget, constantOfName, hk, Option.getD_some]
  rw [hk, Option.some.injEq] at hfirst
  rw [hfirst]
  constructor
  · intro h j hj
    have hget' := List.getElem?_eq_getElem (Nat.lt_trans hj hi)
    rw [nameOf_of_getElem? hget']
    exact h j hj _ hget'
  · intro h j hj constant hconstant
    rw [← nameOf_of_getElem? hconstant]
    exact h j hj

/-- All constants are found by their names if these are distinct, and only then. -/
theorem constantOfName_nameOf_iff_nodup :
    (∀ i < (c.constants enum).length, c.constantOfName enum (c.nameOf enum i) = i) ↔
      ((c.constants enum).map (·.jsonName)).Nodup := by
  rw [List.Nodup, List.pairwise_iff_getElem]
  simp only [List.length_map, List.getElem_map]
  constructor
  · intro h j i hj hi hlt
    have hne := (constantOfName_nameOf_iff hi).mp (h i hi) j hlt
    rwa [nameOf_of_getElem? (List.getElem?_eq_getElem hi),
      nameOf_of_getElem? (List.getElem?_eq_getElem hj)] at hne
  · intro h i hi
    rw [constantOfName_nameOf_iff hi]
    intro j hj
    have hj' := Nat.lt_trans hj hi
    rw [nameOf_of_getElem? (List.getElem?_eq_getElem hi),
      nameOf_of_getElem? (List.getElem?_eq_getElem hj')]
    exact h j i hj' hi hj

/-- **Constants on the wire**: every enumeration of an accepted schema has a first constant, which
stands for all codes and names that are not known.  A constant is found by its code, and by its name
if no constant before it has that name, so that all are found if their names are distinct, and only
then.  Two constants have one name only if an option gives it to one of them. -/
theorem constants_survive (hm : Model.ofSchema schema = .ok m) (hmodel : c.model = m)
    (henum : enum ∈ m.enumIds) :
    0 < (c.constants enum).length ∧
    (∀ i < (c.constants enum).length, c.constantOfCode enum (c.codeOf enum i) = i) ∧
    (∀ code, (∀ constant ∈ c.constants enum, constant.code ≠ code) →
      c.constantOfCode enum code = 0) ∧
    (∀ i < (c.constants enum).length, c.constantOfName enum (c.nameOf enum i) = i ↔
      ∀ j < i, c.nameOf enum j ≠ c.nameOf enum i) ∧
    ((∀ i < (c.constants enum).length, c.constantOfName enum (c.nameOf enum i) = i) ↔
      ((c.constants enum).map (·.jsonName)).Nodup) ∧
    (∀ name, (∀ constant ∈ c.constants enum, constant.jsonName ≠ name) →
      c.constantOfName enum name = 0) ∧
    ∀ (i j : Nat) (constant constant' : Model.Constant), (c.constants enum)[i]? = some constant →
      (c.constants enum)[j]? = some constant' → i ≠ j → constant.jsonName = constant'.jsonName →
      (constant.options.text? Model.nameOption).isSome ∨
        (constant'.options.text? Model.nameOption).isSome := by
  subst hmodel
  refine ⟨?_, fun i hi => ?_, fun code => constantOfCode_of_unknown,
    fun i => constantOfName_nameOf_iff, constantOfName_nameOf_iff_nodup,
    fun name => constantOfName_of_unknown, fun i j constant constant' hi hj => ?_⟩
  · exact List.length_pos_iff.mpr (Model.constants_ne_nil hm henum)
  · exact constantOfCode_codeOf (Model.unambiguous_of_ofSchema hm) enum hi
  · exact Model.isSome_name_of_jsonName_eq hm hi hj

open Schema in
/-- Levels with codes fixed out of order, and a name that an option gives. -/
def levels : Schema := .ofDefinitions
  [.ofConstants "Level" [.of "LOW" (some 1),
    (Constant.of "MID" none).withOption "Name" (.text "medium"), .of "HIGH" none]]

theorem constants_survive_levels : ∃ m c, Model.ofSchema levels = .ok m ∧ ofModel m = .ok c ∧
    0 ∈ m.enumIds ∧ (c.constants 0).map (·.code) = [1, 0, 2] ∧
    (c.constants 0).map (·.jsonName) = ["LOW", "medium", "HIGH"] ∧
    (∀ i < 3, c.constantOfCode 0 (c.codeOf 0 i) = i) ∧ c.constantOfCode 0 7 = 0 ∧
    (∀ i < 3, c.constantOfName 0 (c.nameOf 0 i) = i) ∧ c.constantOfName 0 "MID" = 0 := by
  have hcatalog : (ofSchema? levels).any (fun c => decide
      (0 ∈ c.model.enumIds ∧ (c.constants 0).length = 3 ∧
        (c.constants 0).map (·.code) = [1, 0, 2] ∧
        (c.constants 0).map (·.jsonName) = ["LOW", "medium", "HIGH"] ∧
        ((c.constants 0).map (·.jsonName)).Nodup ∧
        (∀ constant ∈ c.constants 0, constant.code ≠ 7) ∧
        ∀ constant ∈ c.constants 0, constant.jsonName ≠ "MID")) = true := by
    decide +kernel
  obtain ⟨m, c, hm, hc, hfacts⟩ := exists_of_any hcatalog
  obtain ⟨henum, hlength, hcodes, hnames, hnodup, hcode, hname⟩ := of_decide_eq_true hfacts
  obtain rfl := model_of_ofModel hc
  obtain ⟨-, hbinary, hunknown, -, hjson, hunknown', -⟩ := constants_survive hm rfl henum
  rw [hlength] at hbinary hjson
  exact ⟨_, c, hm, hc, henum, hcodes, hnames, hbinary, hunknown 7 hcode, hjson.mpr hnodup,
    hunknown' "MID" hname⟩

open Schema in
/-- Two constants that go by one name. -/
def homonyms : Schema := .ofDefinitions
  [.ofConstants "Side" [.of "LEFT" none,
    (Constant.of "RIGHT" none).withOption "Name" (.text "LEFT")]]

/-- The schema is accepted, and the second constant comes back as the first. -/
theorem homonyms_misread : ∃ m c, Model.ofSchema homonyms = .ok m ∧ ofModel m = .ok c ∧
    0 ∈ m.enumIds ∧ (c.constants 0).length = 2 ∧ c.nameOf 0 1 = "LEFT" ∧
    c.constantOfName 0 (c.nameOf 0 1) = 0 := by
  have hcatalog : (ofSchema? homonyms).any (fun c => decide
      (0 ∈ c.model.enumIds ∧ (c.constants 0).length = 2 ∧ c.nameOf 0 1 = "LEFT" ∧
        c.constantOfName 0 (c.nameOf 0 1) = 0)) = true := by
    decide +kernel
  obtain ⟨m, c, hm, hc, hfacts⟩ := exists_of_any hcatalog
  obtain rfl := model_of_ofModel hc
  exact ⟨_, c, hm, hc, of_decide_eq_true hfacts⟩

end Catalog

end Missive
