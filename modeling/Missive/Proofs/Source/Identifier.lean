import Missive.Proofs.Text.Words
import Missive.Source.Identifier

/-!
# Missive.Proofs.Source.Identifier

The names of emitted code: what they are made of, and which names of a schema they tell apart.

Names are put into a case, get a letter in front of a digit and an underscore behind a name that is
taken.  The underscore makes no two names alike, since a name in camel case has none
(`typeName_eq_iff`, `variantName_eq_iff`).
-/

namespace Missive.Source

open Text

variable {name name' letter ident ident' : String} {c : Char}

/-! ## characters of names -/

/-- Of ASCII a name has letters, digits and underscores only. -/
def IsName (text : String) : Prop := ∀ c ∈ text.toList, InWord c ∨ c = '_'

theorem mem_beginWith (h : c ∈ (beginWith letter name).toList) :
    c ∈ letter.toList ∨ c ∈ name.toList := by
  unfold beginWith at h
  split at h
  · exact .inl h
  · split at h
    · simpa using h
    · exact .inr h

theorem inWord_beginWith (hletter : ∀ c ∈ letter.toList, InWord c) (name : String) :
    ∀ c ∈ (beginWith letter (camelCase name)).toList, InWord c := fun c h =>
  (mem_beginWith h).elim (hletter c) inWord_camelCase

theorem inWord_typeName (name : String) :
    ∀ c ∈ (beginWith "T" (camelCase name)).toList, InWord c :=
  inWord_beginWith (by simp [InWord]) name

theorem inWord_variantName (name : String) :
    ∀ c ∈ (beginWith "V" (camelCase name)).toList, InWord c :=
  inWord_beginWith (by simp [InWord]) name

theorem isName_of_inWord (h : ∀ c ∈ ident.toList, InWord c) : IsName ident :=
  fun c hc => .inl (h c hc)

theorem IsName.append (h : IsName ident) (h' : IsName ident') : IsName (ident ++ ident') := by
  intro c hc
  rw [String.toList_append, List.mem_append] at hc
  exact hc.elim (h c) (h' c)

/-- A name that consists of ASCII is looked through. -/
theorem isName_of_decide (h : ident.toList.all (fun c => c.isAlphanum || c == '_') = true) :
    IsName ident := by
  intro c hc
  have hchar := List.all_eq_true.mp h c hc
  simp only [Bool.or_eq_true, beq_iff_eq] at hchar
  exact hchar.imp_left fun halnum _ => halnum

theorem isName_escape {taken : Bool} (h : ∀ c ∈ ident.toList, InWord c) :
    IsName (if taken then ident ++ "_" else ident) := by
  split
  · exact (isName_of_inWord h).append (isName_of_decide (by decide))
  · exact isName_of_inWord h

theorem isName_typeName (name : String) : IsName (typeName name) := by
  unfold typeName
  exact isName_escape (inWord_typeName name)

theorem baseName_ne_typeName {name : String} : baseName name ≠ typeName name := by
  intro heq
  have hlength := congrArg String.length heq
  simp [baseName] at hlength

theorem isName_baseName (name : String) : IsName (baseName name) :=
  (isName_typeName name).append (isName_of_decide (by decide))

theorem isName_visitorName (name : String) : IsName (visitorName name) :=
  (isName_typeName name).append (isName_of_decide (by decide))

theorem isName_variantName (name : String) : IsName (variantName name) := by
  unfold variantName
  exact isName_escape (inWord_variantName name)

theorem isName_visitMethod (name : String) : IsName (visitMethod name) :=
  (isName_of_decide (by decide)).append fun _ hc => inWord_snakeCase hc

theorem isName_fieldStem (name : String) : IsName (fieldStem name) := by
  have hmark : IsName "f" := isName_of_decide (by decide)
  have hstem : IsName (beginWith "f" (snakeCase name)) := fun c hc =>
    (mem_beginWith hc).elim (hmark c) inWord_snakeCase
  unfold fieldStem
  simp only
  split
  · exact hstem.append (isName_of_decide (by decide))
  · exact hstem

/-- A name has no other character of ASCII. -/
theorem IsName.not_mem {stops : List Char} (h : IsName ident)
    (hstops : ∀ c ∈ stops, c.toNat < Runs.start ∧ c.isAlphanum = false ∧ c ≠ '_') :
    ∀ c ∈ ident.toList, c ∉ stops := by
  intro c hc hstop
  obtain ⟨hascii, halnum, hunderscore⟩ := hstops c hstop
  obtain hin | rfl := h c hc
  · simp [hin hascii] at halnum
  · contradiction

/-! ## names that are alike -/

/-- An underscore behind the names that are taken keeps names apart that have none. -/
theorem escape_eq_iff (taken : String → Bool) (h : ∀ c ∈ ident.toList, InWord c)
    (h' : ∀ c ∈ ident'.toList, InWord c) :
    ((if taken ident then ident ++ "_" else ident) =
      if taken ident' then ident' ++ "_" else ident') ↔ ident = ident' := by
  have hplain : ∀ {x y : String}, (∀ c ∈ y.toList, InWord c) → x ++ "_" ≠ y := by
    rintro x y hy rfl
    exact not_inWord_underscore (hy '_' (by simp))
  constructor
  · intro heq
    split at heq <;> split at heq
    · exact String.append_left_inj "_" |>.mp heq
    · exact absurd heq (hplain h')
    · exact absurd heq.symm (hplain h)
    · exact heq
  · rintro rfl
    rfl

/-- Types are alike if their names are in camel case, up to the letter in front of digits. -/
theorem typeName_eq_iff : typeName name = typeName name' ↔
    beginWith "T" (camelCase name) = beginWith "T" (camelCase name') := by
  unfold typeName
  exact escape_eq_iff preludeNames.contains (inWord_typeName name) (inWord_typeName name')

theorem variantName_eq_iff : variantName name = variantName name' ↔
    beginWith "V" (camelCase name) = beginWith "V" (camelCase name') := by
  unfold variantName
  exact escape_eq_iff (· == "Self") (inWord_variantName name) (inWord_variantName name')

theorem visitMethod_eq_iff : visitMethod name = visitMethod name' ↔
    snakeCase (typeName name) = snakeCase (typeName name') :=
  String.append_right_inj _

/-- A name of ASCII that is the name of its type already. -/
def Settled (name : String) : Prop := IsAscii name ∧ typeName name = name

/-- Visitors tell settled names apart. -/
theorem Settled.eq_of_visitMethod (h : Settled name) (h' : Settled name')
    (heq : visitMethod name = visitMethod name') : name = name' := by
  have hsnake := visitMethod_eq_iff.mp heq
  rw [h.2, h'.2] at hsnake
  have hcamel := camelCase_eq_of_snakeCase_eq h.1 h'.1 hsnake
  rw [← h.2, ← h'.2, typeName_eq_iff, hcamel]

end Missive.Source
