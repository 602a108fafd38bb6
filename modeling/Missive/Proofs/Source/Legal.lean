import Missive.Proofs.Source.Accessors
import Missive.Proofs.Source.Identifier

/-!
# Missive.Proofs.Source.Legal

Every name of emitted code is one that the language allows, whatever ASCII a schema has for it.

`languageWords` are the words that the language keeps for itself; they are listed here apart from
those that names are checked against.  Three facts about them are enough: none has an underscore,
only `Self` begins with a capital letter, and all of them are among the words that the stem of a
field is checked against (`of_mem_languageWords`).

A name that is taken gets an underscore at its end, and no name that is taken has one there, so one
step is enough (`typeName_not_mem`, `fieldStem_not_mem_reservedWords`).
-/

namespace Missive.Source

open Text

variable {name text text' letter action role : String} {c : Char}

/-! ## identifiers -/

/-- The words that the language keeps for itself, in any of its editions. -/
def languageWords : List String :=
  ["as", "async", "await", "break", "const", "continue", "crate", "dyn", "else", "enum", "extern",
   "false", "fn", "for", "if", "impl", "in", "let", "loop", "match", "mod", "move", "mut", "pub",
   "ref", "return", "self", "Self", "static", "struct", "super", "trait", "true", "type", "unsafe",
   "use", "where", "while",
   -- without a meaning so far
   "abstract", "become", "box", "do", "final", "gen", "macro", "override", "priv", "try", "typeof",
   "unsized", "virtual", "yield"]

/-- Words that a path may begin with.  They are no names in the raw form either. -/
def pathWords : List String := ["crate", "self", "super", "Self"]

/-- Letters, digits and underscores of ASCII. -/
def IsAsciiWord (text : String) : Prop := ∀ c ∈ text.toList, c.isAlphanum = true ∨ c = '_'

/-- A name that the language allows: letters, digits and underscores of ASCII, of which the first is
no digit; no underscore alone, and no word of the language. -/
structure IsIdentifier (text : String) : Prop where
  plain : IsAsciiWord text
  start : ∃ c ∈ text.toList.head?, c.isDigit = false
  notLone : text ≠ "_"
  notWord : text ∉ languageWords

/-- A word of the language in the raw form, in which it is a name. -/
def IsRawIdentifier (text : String) : Prop :=
  ∃ word ∈ languageWords, word ∉ pathWords ∧ text = "r#" ++ word

/-! ## words of the language -/

theorem of_mem_languageWords : ∀ word ∈ languageWords, '_' ∉ word.toList ∧
    (word ≠ "Self" → word.toList.head?.all Char.isLower = true) ∧
    (word ∈ keywords ∨ word ∈ reservedWords) := by
  decide +kernel

theorem not_mem_languageWords_of_underscore (h : '_' ∈ text.toList) : text ∉ languageWords :=
  fun hmem => (of_mem_languageWords text hmem).1 h

theorem not_mem_languageWords_of_head (hc : c ∈ text.toList.head?) (hlower : c.isLower = false)
    (hself : text ≠ "Self") : text ∉ languageWords := by
  intro hmem
  have hall := (of_mem_languageWords text hmem).2.1 hself
  rw [Option.mem_def.mp hc, Option.all_some, hlower] at hall
  exact Bool.false_ne_true hall

/-! ## characters and beginnings -/

theorem isAsciiWord_underscore : IsAsciiWord "_" := by simp [IsAsciiWord]

theorem IsAsciiWord.append (h : IsAsciiWord text) (h' : IsAsciiWord text') :
    IsAsciiWord (text ++ text') := by
  intro c hc
  rw [String.toList_append, List.mem_append] at hc
  exact hc.elim (h c) (h' c)

theorem IsAsciiWord.isAscii (h : IsAsciiWord text) : IsAscii text := by
  intro c hc
  obtain halnum | rfl := h c hc
  · simp only [Char.isAlphanum, Char.isAlpha, Char.isUpper, Char.isLower, Char.isDigit,
      Bool.or_eq_true, Bool.and_eq_true, decide_eq_true_eq, ge_iff_le, UInt32.le_iff_toNat_le]
      at halnum
    have hlast : 'Z'.val.toNat = 90 ∧ 'z'.val.toNat = 122 ∧ '9'.val.toNat = 57 := by decide
    simp only [Runs.start, Char.toNat]
    omega
  · decide

/-- A name of ASCII has plain characters only. -/
theorem IsName.isAsciiWord (h : IsName text) (hascii : IsAscii text) : IsAsciiWord text :=
  fun c hc => (h c hc).imp_left fun hin => hin (hascii c hc)

theorem isAsciiWord_beginWith (hletter : IsAsciiWord letter) (h : IsAsciiWord text) :
    IsAsciiWord (beginWith letter text) := fun c hc => (mem_beginWith hc).elim (hletter c) (h c)

theorem head_append (h : c ∈ text.toList.head?) (text' : String) :
    c ∈ (text ++ text').toList.head? := by
  rw [String.toList_append, List.head?_append, Option.mem_def.mp h]
  rfl

/-- A name begins with the letter, or with its own first character, which is then no digit. -/
theorem head_beginWith (hletter : c ∈ letter.toList.head?) (hdigit : c.isDigit = false)
    (text : String) : ∃ d ∈ (beginWith letter text).toList.head?,
      d.isDigit = false ∧ (d = c ∨ d ∈ text.toList.head?) := by
  unfold beginWith
  split
  · exact ⟨c, hletter, hdigit, .inl rfl⟩
  · next d rest htext =>
      split
      · exact ⟨c, head_append hletter text, hdigit, .inl rfl⟩
      · next hd => exact ⟨d, by simp [htext], by simpa using hd, .inr (by simp [htext])⟩

/-- Names with an underscore among other characters. -/
theorem isIdentifier_of_underscore (hplain : IsAsciiWord text)
    (hstart : ∃ c ∈ text.toList.head?, c.isDigit = false) (hmem : '_' ∈ text.toList)
    (hother : ∃ c ∈ text.toList, c ≠ '_') : IsIdentifier text where
  plain := hplain
  start := hstart
  notLone := by
    rintro rfl
    simp at hother
  notWord := not_mem_languageWords_of_underscore hmem

/-! ## types and variants -/

/-- A plain name with a capital letter in front. -/
structure IsCapital (text : String) : Prop where
  plain : IsAsciiWord text
  start : ∃ c ∈ text.toList.head?, c.isUpper = true

namespace IsCapital

theorem append (h : IsCapital text) (h' : IsAsciiWord text') : IsCapital (text ++ text') := by
  obtain ⟨c, hc, hupper⟩ := h.start
  exact ⟨h.plain.append h', c, head_append hc text', hupper⟩

theorem isIdentifier (h : IsCapital text) (hself : text ≠ "Self") : IsIdentifier text := by
  obtain ⟨c, hc, hupper⟩ := h.start
  have hother : c.isDigit = false ∧ c.isLower = false ∧ c ≠ '_' :=
    forall_ascii (P := fun c => c.isUpper = true → c.isDigit = false ∧ c.isLower = false ∧ c ≠ '_')
      (by decide) (h.plain.isAscii c (List.mem_of_mem_head? hc)) hupper
  refine ⟨h.plain, ⟨c, hc, hother.1⟩, ?_, not_mem_languageWords_of_head hc hother.2.1 hself⟩
  rintro rfl
  exact hother.2.2 (Option.some.inj hc).symm

/-- A name with something behind it that `Self` does not end with. -/
theorem isIdentifier_append (h : IsCapital text) (h' : IsAsciiWord text')
    (hself : ¬ text'.toList <:+ "Self".toList) : IsIdentifier (text ++ text') := by
  refine (h.append h').isIdentifier fun heq => hself ?_
  rw [← heq, String.toList_append]
  exact List.suffix_append _ _

/-- An underscore behind the names that are taken. -/
theorem escape (h : IsCapital text) (taken : Bool) :
    IsCapital (if taken then text ++ "_" else text) := by
  split
  · exact h.append isAsciiWord_underscore
  · exact h

end IsCapital

theorem isCapital_beginWith (h : IsAscii name) (hletter : c ∈ letter.toList.head?)
    (hupper : c.isUpper = true) (hplain : IsAsciiWord letter) :
    IsCapital (beginWith letter (camelCase name)) := by
  have hdigit : c.isDigit = false :=
    forall_ascii (P := fun c => c.isUpper = true → c.isDigit = false) (by decide)
      (hplain.isAscii c (List.mem_of_mem_head? hletter)) hupper
  have hcamel : IsName (camelCase name) := isName_of_inWord fun _ => inWord_camelCase
  refine ⟨isAsciiWord_beginWith hplain (hcamel.isAsciiWord (isAscii_camelCase h)), ?_⟩
  obtain ⟨d, hd, hnot, hcase⟩ := head_beginWith hletter hdigit (camelCase name)
  refine ⟨d, hd, ?_⟩
  obtain rfl | hhead := hcase
  · exact hupper
  · have hmem := List.mem_of_mem_head? hhead
    have hascii := isAscii_camelCase h d hmem
    exact forall_ascii (P := fun d => d.isAlphanum = true → d.isDigit = false →
      d.isLower = false → d.isUpper = true) (by decide) hascii (inWord_camelCase hmem hascii) hnot
      (head_camelCase h hhead)

theorem isCapital_typeName (h : IsAscii name) : IsCapital (typeName name) := by
  have hident : IsCapital (beginWith "T" (camelCase name)) :=
    isCapital_beginWith h rfl rfl (by simp [IsAsciiWord])
  unfold typeName
  exact hident.escape _

theorem isCapital_variantName (h : IsAscii name) : IsCapital (variantName name) := by
  have hident : IsCapital (beginWith "V" (camelCase name)) :=
    isCapital_beginWith h rfl rfl (by simp [IsAsciiWord])
  unfold variantName
  exact hident.escape _

/-- No name that an underscore was put behind is taken again. -/
theorem typeName_not_mem (name : String) : typeName name ∉ preludeNames := by
  have hplain : ∀ word ∈ preludeNames, ¬ ['_'] <:+ word.toList := by decide
  unfold typeName
  simp only
  split
  · intro hmem
    exact hplain _ hmem ⟨_, by rw [String.toList_append]; rfl⟩
  · next hfree => simpa using hfree

theorem variantName_ne_self (name : String) : variantName name ≠ "Self" := by
  unfold variantName
  simp only
  split
  · intro heq
    have hlast := congrArg (fun text : String => text.toList.getLast?) heq
    simp at hlast
  · next hfree => simpa using hfree

/-! ## fields -/

section Fields

variable (h : IsAscii name)

include h

theorem isAsciiWord_stem : IsAsciiWord (beginWith "f" (snakeCase name)) := by
  have hname : IsName (snakeCase name) := fun _ => inWord_snakeCase
  exact isAsciiWord_beginWith (by simp [IsAsciiWord]) (hname.isAsciiWord (isAscii_snakeCase h))

theorem isAsciiWord_fieldStem : IsAsciiWord (fieldStem name) := by
  unfold fieldStem
  simp only
  split
  · exact (isAsciiWord_stem h).append isAsciiWord_underscore
  · exact isAsciiWord_stem h

end Fields

theorem start_stem (name : String) :
    ∃ c ∈ (beginWith "f" (snakeCase name)).toList.head?, c.isDigit = false := by
  obtain ⟨c, hc, hdigit, -⟩ := head_beginWith (show 'f' ∈ "f".toList.head? from rfl) rfl
    (snakeCase name)
  exact ⟨c, hc, hdigit⟩

theorem start_fieldStem (name : String) :
    ∃ c ∈ (fieldStem name).toList.head?, c.isDigit = false := by
  obtain ⟨c, hc, hdigit⟩ := start_stem name
  refine ⟨c, ?_, hdigit⟩
  unfold fieldStem
  simp only
  split
  · exact head_append hc "_"
  · exact hc

theorem fieldStem_not_mem_reservedWords (name : String) : fieldStem name ∉ reservedWords := by
  have hplain : ∀ word ∈ reservedWords, ['_'] <:+ word.toList → word = "_" := by decide
  unfold fieldStem
  simp only
  split
  · intro hmem
    have hlone := hplain _ hmem ⟨_, by rw [String.toList_append]; rfl⟩
    -- there is something in front of the underscore
    obtain ⟨c, hc, -⟩ := start_stem name
    have hempty := congrArg String.toList hlone
    rw [String.toList_append] at hempty
    have hnil : (beginWith "f" (snakeCase name)).toList = [] :=
      List.append_left_eq_self.mp hempty
    simp [hnil] at hc
  · next hfree =>
      rw [Bool.or_eq_true, not_or, List.contains_iff_mem, List.contains_iff_mem] at hfree
      exact hfree.2

/-- The getter of a field: its stem, or the raw form of a word that the stem is. -/
theorem isIdentifier_fieldName (h : IsAscii name) :
    IsIdentifier (fieldName name) ∨ IsRawIdentifier (fieldName name) := by
  have hraw : ∀ word ∈ keywords, word ∈ languageWords ∧ word ∉ pathWords := by decide +kernel
  have hreserved := fieldStem_not_mem_reservedWords name
  unfold fieldName
  simp only
  split
  · next hkeyword =>
      obtain ⟨hword, hpath⟩ := hraw _ (by simpa using hkeyword)
      exact .inr ⟨_, hword, hpath, rfl⟩
  · next hkeyword =>
      refine .inl ⟨isAsciiWord_fieldStem h, start_fieldStem name, ?_, fun hword => ?_⟩
      · rintro heq
        rw [heq] at hreserved
        exact hreserved (by decide)
      · exact (of_mem_languageWords _ hword).2.2.elim (by simpa using hkeyword) hreserved

theorem fieldName_not_mem (name : String) : fieldName name ∉ messageMethods := by
  intro hmem
  have hstem : fieldStem name = fieldName name :=
    (fieldName_eq_iff_of_mem (List.mem_append_left _ hmem)).mp rfl
  exact fieldStem_not_mem name (hstem ▸ hmem)

theorem isIdentifier_accessorName (h : IsAscii name) (haction : action ∈ actionWords) :
    IsIdentifier (accessorName action name) := by
  have hactions : ∀ action ∈ actionWords, IsAsciiWord action ∧
      ∃ c ∈ action.toList.head?, c.isDigit = false ∧ c ≠ '_' := by simp [IsAsciiWord, actionWords]
  obtain ⟨hplain, c, hc, hdigit, hother⟩ := hactions action haction
  have hhead : c ∈ (accessorName action name).toList.head? := head_append (head_append hc "_") _
  refine isIdentifier_of_underscore
    ((hplain.append isAsciiWord_underscore).append (isAsciiWord_fieldStem h))
    ⟨c, hhead, hdigit⟩ ?_ ⟨c, List.mem_of_mem_head? hhead, hother⟩
  simp [accessorName]

theorem accessorName_not_mem (name : String) (haction : action ∈ actionWords) :
    accessorName action name ∉ messageMethods := by
  intro hmem
  exact (isUnmarked_of_mem _ (List.mem_append_left _ hmem)).ne_accessorName haction name rfl

theorem isIdentifier_mutableName (h : IsAscii name) : IsIdentifier (mutableName name) := by
  obtain ⟨c, hc, hdigit⟩ := start_fieldStem name
  refine isIdentifier_of_underscore ((isAsciiWord_fieldStem h).append (by simp [IsAsciiWord]))
    ⟨c, head_append hc _, hdigit⟩ ?_ ⟨'m', ?_, by decide⟩
  all_goals simp [mutableName]

theorem mutableName_not_mem (name : String) : mutableName name ∉ messageMethods := by
  intro hmem
  exact (isUnmarked_of_mem _ (List.mem_append_left _ hmem)).ne_mutableName name rfl

theorem isIdentifier_constantName (h : IsAscii name) (hrole : IsAsciiWord role)
    (hother : ∃ c ∈ role.toList, c ≠ '_') : IsIdentifier (constantName name role) := by
  have hname : IsName (shoutyCase name) := fun _ => inWord_shoutyCase
  have hplain : IsAsciiWord (beginWith "F" (shoutyCase name)) :=
    isAsciiWord_beginWith (by simp [IsAsciiWord]) (hname.isAsciiWord (isAscii_shoutyCase h))
  obtain ⟨c, hc, hdigit, -⟩ := head_beginWith (show 'F' ∈ "F".toList.head? from rfl) rfl
    (shoutyCase name)
  obtain ⟨other, hmem, hne⟩ := hother
  refine isIdentifier_of_underscore ((hplain.append isAsciiWord_underscore).append hrole)
    ⟨c, head_append (head_append hc _) _, hdigit⟩ ?_ ⟨other, ?_, hne⟩
  · simp [constantName]
  · simp [constantName, hmem]

theorem isIdentifier_visitMethod (h : IsAscii name) : IsIdentifier (visitMethod name) := by
  have hascii : IsAscii (snakeCase (typeName name)) :=
    isAscii_snakeCase (isCapital_typeName h).plain.isAscii
  have hsnake : IsName (snakeCase (typeName name)) := fun _ => inWord_snakeCase
  have hplain : IsAsciiWord "visit_" := by simp [IsAsciiWord]
  refine isIdentifier_of_underscore (hplain.append (hsnake.isAsciiWord hascii))
    ⟨'v', head_append rfl _, rfl⟩ ?_ ⟨'v', ?_, by decide⟩
  all_goals simp [visitMethod]

/-- **Names are legal.**  From any text of ASCII, also from none, come identifiers of the language:
for types and what belongs to them, for constants, and for fields and their accessors.  The getter
of a field may be the raw form of a word.  No type has a name that every module uses, and no
accessor that of a method which every message has. -/
theorem names_legal (h : IsAscii name) :
    IsIdentifier (typeName name) ∧ typeName name ∉ preludeNames ∧
    IsIdentifier (baseName name) ∧ IsIdentifier (visitorName name) ∧
    IsIdentifier (visitMethod name) ∧ IsIdentifier (variantName name) ∧
    (∀ role ∈ ["PROP", "TAG", "XML"], IsIdentifier (constantName name role)) ∧
    (IsIdentifier (fieldName name) ∨ IsRawIdentifier (fieldName name)) ∧
    fieldName name ∉ messageMethods ∧
    (∀ action ∈ actionWords, IsIdentifier (accessorName action name) ∧
      accessorName action name ∉ messageMethods) ∧
    IsIdentifier (mutableName name) ∧ mutableName name ∉ messageMethods := by
  have htype := isCapital_typeName h
  have hroles : ∀ role ∈ ["PROP", "TAG", "XML"],
      IsAsciiWord role ∧ ∃ c ∈ role.toList, c ≠ '_' := by simp [IsAsciiWord]
  refine ⟨htype.isIdentifier fun heq => typeName_not_mem name ?_, typeName_not_mem name,
    htype.isIdentifier_append (by simp [IsAsciiWord]) (by decide),
    htype.isIdentifier_append (by simp [IsAsciiWord]) (by decide), isIdentifier_visitMethod h,
    (isCapital_variantName h).isIdentifier (variantName_ne_self name), ?_,
    isIdentifier_fieldName h, fieldName_not_mem name, ?_, isIdentifier_mutableName h,
    mutableName_not_mem name⟩
  · rw [heq]
    decide
  · intro role hrole
    exact isIdentifier_constantName h (hroles role hrole).1 (hroles role hrole).2
  · intro action haction
    exact ⟨isIdentifier_accessorName h haction, accessorName_not_mem name haction⟩

theorem names_legal_self : IsAscii "self" ∧
    typeName "self" = "Self_" ∧ IsIdentifier "Self_" ∧ "Self_" ∉ preludeNames ∧
    fieldName "self" = "self_" ∧ (IsIdentifier "self_" ∨ IsRawIdentifier "self_") := by
  have hascii : IsAscii "self" := by
    simp [IsAscii, Runs.start]
  have htype : typeName "self" = "Self_" := by decide +kernel
  have hfield : fieldName "self" = "self_" := by decide +kernel
  obtain ⟨hlegal, hfree, -, -, -, -, -, hgetter, -⟩ := names_legal hascii
  rw [htype] at hlegal hfree
  rw [hfield] at hgetter
  exact ⟨hascii, htype, hlegal, hfree, hfield, hgetter⟩

end Missive.Source
