import Missive.Proofs.Except
import Missive.Text.Words

/-!
# Missive.Proofs.Text.Words

What the words of a name are made of, and what joining them keeps.

Words are not empty, and of ASCII they hold letters and digits only; their upper and lower case is
the same in this (`inWord_upperOf`, `inWord_lowerOf`), for which the tables are looked through once.
So separators stand between words and nowhere else, and it does not matter which separator joins the
words (`kebabCase_eq_iff`).  Names of ASCII that are the same in snake case are the same in camel
case (`camelCase_eq_of_snakeCase_eq`).
-/

namespace Missive.Text

variable {c d : Char} {name name' : String} {word word' : List Char}

/-! ## characters of words -/

/-- A letter or a digit, or a character beyond ASCII. -/
def InWord (c : Char) : Prop := c.toNat < Runs.start → c.isAlphanum = true

theorem inWord_of_isAlphanumeric (h : isAlphanumeric c = true) : InWord c := by
  intro hascii
  rwa [isAlphanumeric, if_pos hascii] at h

/-- What holds of the first code points holds of the characters of ASCII. -/
theorem forall_ascii {P : Char → Prop} (h : ∀ n < Runs.start, P (Char.ofNat n))
    (hc : c.toNat < Runs.start) : P c := by
  have hP := h c.toNat hc
  rwa [Char.ofNat_toNat] at hP

/-- Whether a code point is that of a letter or a digit, or one beyond ASCII. -/
def codeInWord (n : Nat) : Bool :=
  decide n.isValidChar && (decide (Runs.start ≤ n) || (Char.ofNat n).isAlphanum)

theorem inWord_ofNat {n : Nat} (h : codeInWord n = true) : InWord (Char.ofNat n) := by
  simp only [codeInWord, Bool.and_eq_true, Bool.or_eq_true, decide_eq_true_eq] at h
  intro hascii
  rw [Char.toNat_ofNat, if_pos h.1] at hascii
  exact h.2.resolve_left (by omega)

/-- Whether the rows of a table move characters to such code points. -/
def movesInWord : List Nat → Bool
  | first :: last :: _ :: target :: rest =>
    (decide (Runs.start ≤ target ∧ target + (last - first) < 0xd800 ∨
        0xdfff < target ∧ target + (last - first) < 0x110000) ||
      decide (last ≤ first) && codeInWord target) && movesInWord rest
  | _ => true

theorem codeInWord_of_moveBy {moves : List Nat} {n k : Nat} (hmoves : movesInWord moves = true)
    (h : moveBy moves n = some k) : codeInWord k = true := by
  fun_induction moveBy moves n with
  | case1 first last step target rest n hrow =>
      simp only [movesInWord, Bool.and_eq_true, Bool.or_eq_true, decide_eq_true_eq] at hmoves hrow
      cases h
      obtain hrange | ⟨hsingle, hcode⟩ := hmoves.1
      · have hvalid : (target + (n - first)).isValidChar := by
          unfold Nat.isValidChar
          omega
        have hstart : Runs.start ≤ target + (n - first) := by
          unfold Runs.start at *
          omega
        simp [codeInWord, hvalid, hstart]
      · rwa [show n - first = 0 by omega]
  | case2 first last step target rest n hrow ih =>
      simp only [movesInWord, Bool.and_eq_true] at hmoves
      exact ih hmoves.2 h
  | case3 => contradiction

/-- Whether the spellings of a table are not empty and are made of such code points. -/
def spellingsInWord (spellings : List (Nat × List Nat)) : Bool :=
  spellings.all fun entry => !entry.2.isEmpty && entry.2.all codeInWord

theorem inWord_mapCase {spellings : List (Nat × List Nat)} {moves : List Nat}
    (hspellings : spellingsInWord spellings = true) (hmoves : movesInWord moves = true)
    (hc : InWord c) :
    mapCase spellings moves c ≠ [] ∧ ∀ d ∈ mapCase spellings moves c, InWord d := by
  unfold mapCase
  split
  · next codes hcodes =>
      have hentry := List.all_eq_true.mp hspellings _ (mem_of_lookup hcodes)
      simp only [Bool.and_eq_true, Bool.not_eq_true', List.isEmpty_eq_false_iff,
        List.all_eq_true] at hentry
      refine ⟨by simpa using hentry.1, fun d hd => ?_⟩
      obtain ⟨n, hn, rfl⟩ := List.mem_map.mp hd
      exact inWord_ofNat (hentry.2 n hn)
  · split
    · next n hn =>
        exact ⟨by simp, by simpa using inWord_ofNat (codeInWord_of_moveBy hmoves hn)⟩
    · exact ⟨by simp, by simpa using hc⟩

/-- The upper case of a character of words. -/
theorem inWord_upperOf (hc : InWord c) : upperOf c ≠ [] ∧ ∀ d ∈ upperOf c, InWord d := by
  unfold upperOf
  split
  · next hascii =>
      refine ⟨by simp, ?_⟩
      have hupper := forall_ascii (P := fun c => c.isAlphanum = true → c.toUpper.isAlphanum = true)
        (by decide) hascii (hc hascii)
      simpa [InWord] using fun _ => hupper
  · exact inWord_mapCase (by decide +kernel) (by decide +kernel) hc

/-- The lower case of a character of words. -/
theorem inWord_lowerOf (hc : InWord c) : lowerOf c ≠ [] ∧ ∀ d ∈ lowerOf c, InWord d := by
  unfold lowerOf
  split
  · next hascii =>
      refine ⟨by simp, ?_⟩
      have hlower := forall_ascii (P := fun c => c.isAlphanum = true → c.toLower.isAlphanum = true)
        (by decide) hascii (hc hascii)
      simpa [InWord] using fun _ => hlower
  · exact inWord_mapCase (by decide +kernel) (by decide +kernel) hc

/-! ## words -/

theorem mem_consWord {words : List (List Char)} :
    word' ∈ consWord word words ↔ word' = word ∧ word ≠ [] ∨ word' ∈ words := by
  unfold consWord
  cases word <;> simp

/-- A piece of a name is not empty, and its characters are alphanumeric ones of the name. -/
theorem of_mem_pieces {piece cs p : List Char} (h : p ∈ pieces piece cs) :
    p ≠ [] ∧ ∀ c ∈ p, c ∈ piece ∨ isAlphanumeric c = true ∧ c ∈ cs := by
  fun_induction pieces piece cs with
  | case1 piece =>
      rw [mem_consWord] at h
      obtain ⟨rfl, hne⟩ | h := h
      · exact ⟨hne, fun c hc => .inl (List.mem_reverse.mp hc)⟩
      · contradiction
  | case2 piece c rest halnum ih =>
      obtain ⟨hne, hall⟩ := ih h
      grind
  | case3 piece c rest halnum ih =>
      rw [mem_consWord] at h
      obtain ⟨rfl, hne⟩ | h := h
      · exact ⟨hne, fun c hc => .inl (List.mem_reverse.mp hc)⟩
      · obtain ⟨hne, hall⟩ := ih h
        grind

/-- Words are cut out of a piece without a rest. -/
theorem flatten_pieceWords (mode : WordMode) (word cs : List Char) :
    (pieceWords mode word cs).flatten = word.reverse ++ cs := by
  fun_induction pieceWords mode word cs with
  | case1 mode word => cases word <;> simp [consWord]
  | case2 mode word c => simp
  | case3 mode word c next rest mode' hlower ih => simp [ih]
  | case4 mode word c next rest mode' _ hupper ih => simp [ih]
  | case5 mode word c next rest mode' _ _ ih => simp [ih]

/-- No word is empty: the case of a character is remembered only while there is a word. -/
theorem nil_not_mem_pieceWords {mode : WordMode} {word cs : List Char}
    (h : mode ≠ .none → word ≠ []) : [] ∉ pieceWords mode word cs := by
  fun_induction pieceWords mode word cs with
  | case1 mode word => simp [mem_consWord]
  | case2 mode word c => simp
  | case3 mode word c next rest mode' hlower ih => simpa using ih (by simp)
  | case4 mode word c next rest mode' _ hupper ih =>
      simp only [Bool.and_eq_true, beq_iff_eq] at hupper
      have hword := h (by simp [hupper.1.1])
      simpa [hword] using ih (by simp)
  | case5 mode word c next rest mode' _ _ ih => exact ih (by simp)

/-- A word is not empty, and its characters are alphanumeric ones of the name. -/
theorem of_mem_words (h : word ∈ words name) :
    word ≠ [] ∧ ∀ c ∈ word, isAlphanumeric c = true ∧ c ∈ name.toList := by
  obtain ⟨piece, hpiece, hword⟩ := List.mem_flatMap.mp h
  obtain ⟨-, hall⟩ := of_mem_pieces hpiece
  refine ⟨?_, fun c hc => ?_⟩
  · rintro rfl
    exact nil_not_mem_pieceWords (by simp) hword
  · have hflat := flatten_pieceWords .none [] piece
    rw [List.reverse_nil, List.nil_append] at hflat
    exact (hall c (hflat ▸ List.mem_flatten_of_mem hword hc)).resolve_left (by simp)

theorem inWord_of_mem_words (h : word ∈ words name) (hc : c ∈ word) : InWord c :=
  inWord_of_isAlphanumeric ((of_mem_words h).2 c hc).1

/-! ## words in lower case and with capitals -/

/-- A word in lower case is not empty, and still made of characters of words. -/
theorem inWord_lowerWord (h : ∀ c ∈ word, InWord c) :
    (word ≠ [] → lowerWord word ≠ []) ∧ ∀ d ∈ lowerWord word, InWord d := by
  fun_induction lowerWord word with
  | case1 => simp
  | case2 c hsigma => simp [InWord, Runs.start]
  | case3 c hsigma =>
      obtain ⟨hne, hall⟩ := inWord_lowerOf (h c (.head _))
      exact ⟨fun _ => hne, hall⟩
  | case4 c rest _ ih =>
      obtain ⟨hne, hall⟩ := inWord_lowerOf (h c (.head _))
      have hrest := (ih fun d hd => h d (.tail _ hd)).2
      simp only [List.mem_append]
      exact ⟨fun _ => by simp [hne], fun d hd => hd.elim (hall d) (hrest d)⟩

theorem inWord_upperWord (h : ∀ c ∈ word, InWord c) : ∀ d ∈ upperWord word, InWord d := by
  intro d hd
  obtain ⟨c, hc, hd⟩ := List.mem_flatMap.mp hd
  exact (inWord_upperOf (h c hc)).2 d hd

theorem inWord_capitalWord (h : ∀ c ∈ word, InWord c) : ∀ d ∈ capitalWord word, InWord d := by
  cases word with
  | nil => simp [capitalWord]
  | cons c rest =>
      simp only [capitalWord, List.mem_append]
      exact fun d hd => hd.elim ((inWord_upperOf (h c (.head _))).2 d)
        ((inWord_lowerWord fun d hd => h d (.tail _ hd)).2 d)

/-- A name in camel case has no separators. -/
theorem inWord_camelCase (h : c ∈ (camelCase name).toList) : InWord c := by
  rw [camelCase, String.toList_ofList] at h
  obtain ⟨word, hword, hc⟩ := List.mem_flatMap.mp h
  exact inWord_capitalWord (fun d hd => inWord_of_mem_words hword hd) c hc

/-! ## snake case and camel case -/

theorem mem_intercalate {sep : List Char} {parts : List (List Char)}
    (h : c ∈ sep.intercalate parts) : c ∈ sep ∨ ∃ part ∈ parts, c ∈ part := by
  induction parts using List.twoStepInduction with
  | nil => contradiction
  | singleton part => exact .inr ⟨part, .head _, by simpa using h⟩
  | cons_cons part part' parts _ ih =>
      rw [List.intercalate_cons_cons, List.mem_append, List.mem_append] at h
      grind

/-- Words in lower case are joined by the separator and hold no other. -/
theorem inWord_joinLower {sep : Char} (h : c ∈ (joinLower [sep] name).toList) :
    InWord c ∨ c = sep := by
  rw [joinLower, String.toList_ofList] at h
  obtain hsep | ⟨lower, hlower, hc⟩ := mem_intercalate h
  · exact .inr (List.mem_singleton.mp hsep)
  · obtain ⟨word, hword, rfl⟩ := List.mem_map.mp hlower
    exact .inl ((inWord_lowerWord fun d hd => inWord_of_mem_words hword hd).2 c hc)

/-- A name in snake case has no separators but underscores. -/
theorem inWord_snakeCase (h : c ∈ (snakeCase name).toList) : InWord c ∨ c = '_' :=
  inWord_joinLower h

/-- A name in shouty case has no separators but underscores. -/
theorem inWord_shoutyCase (h : c ∈ (shoutyCase name).toList) : InWord c ∨ c = '_' := by
  rw [shoutyCase, String.toList_ofList] at h
  obtain hsep | ⟨upper, hupper, hc⟩ := mem_intercalate h
  · exact .inr (List.mem_singleton.mp hsep)
  · obtain ⟨word, hword, rfl⟩ := List.mem_map.mp hupper
    exact .inl (inWord_upperWord (fun d hd => inWord_of_mem_words hword hd) c hc)

theorem not_inWord_underscore : ¬ InWord '_' := fun h => absurd (h (by decide)) (by decide)

theorem not_inWord_hyphen : ¬ InWord '-' := fun h => absurd (h (by decide)) (by decide)

section Joined

variable {sep : Char} (hsep : ¬ InWord sep)

include hsep

/-- The words of a name in lower case are what stands between the separators. -/
theorem splitOn_joinLower (h : words name ≠ []) :
    (joinLower [sep] name).toList.splitOn sep = (words name).map lowerWord := by
  rw [joinLower, String.toList_ofList]
  refine List.splitOn_intercalate sep (fun lower hlower hmem => ?_) (by simpa using h)
  obtain ⟨word, hword, rfl⟩ := List.mem_map.mp hlower
  exact hsep ((inWord_lowerWord fun c hc => inWord_of_mem_words hword hc).2 sep hmem)

theorem words_eq_nil_of_joinLower_eq (h : joinLower [sep] name = joinLower [sep] name')
    (hname : words name = []) : words name' = [] := by
  by_contra hname'
  have hsplit := splitOn_joinLower hsep hname'
  have hempty : (joinLower [sep] name).toList = [] := by
    rw [joinLower, hname]
    rfl
  rw [← h, hempty] at hsplit
  have hmem : [] ∈ (words name').map lowerWord := by
    rw [← hsplit]
    simp
  obtain ⟨word, hword, hnil⟩ := List.mem_map.mp hmem
  exact (inWord_lowerWord fun c hc => inWord_of_mem_words hword hc).1 (of_mem_words hword).1 hnil

/-- Names that are joined to the same text have the same words, up to case. -/
theorem joinLower_eq_iff : joinLower [sep] name = joinLower [sep] name' ↔
    (words name).map lowerWord = (words name').map lowerWord := by
  refine ⟨fun h => ?_, fun h => by rw [joinLower, h, joinLower]⟩
  by_cases hname : words name = []
  · rw [hname, words_eq_nil_of_joinLower_eq hsep h hname]
  · have hname' : words name' ≠ [] := fun hnil =>
      hname (words_eq_nil_of_joinLower_eq hsep h.symm hnil)
    rw [← splitOn_joinLower hsep hname, ← splitOn_joinLower hsep hname', h]

end Joined

/-- Kebab case and snake case tell the same names apart. -/
theorem kebabCase_eq_iff : kebabCase name = kebabCase name' ↔ snakeCase name = snakeCase name' :=
  (joinLower_eq_iff not_inWord_hyphen).trans (joinLower_eq_iff not_inWord_underscore).symm

/-- A text of ASCII. -/
def IsAscii (text : String) : Prop := ∀ c ∈ text.toList, c.toNat < Runs.start

theorem lowerWord_of_ascii (h : ∀ c ∈ word, c.toNat < Runs.start) :
    lowerWord word = word.map Char.toLower := by
  fun_induction lowerWord word with
  | case1 => rfl
  | case2 c hsigma =>
      obtain rfl : c = 'Σ' := by simpa using hsigma
      exact absurd (h 'Σ' (.head _)) (by decide)
  | case3 c hsigma => simp [lowerOf, h c (.head _)]
  | case4 c rest _ ih =>
      rw [lowerOf, if_pos (h c (.head _)), ih fun d hd => h d (.tail _ hd)]
      rfl

/-- A word of ASCII has the same letters with a capital, also from its lower case. -/
theorem capitalWord_lowerWord (h : ∀ c ∈ word, c.toNat < Runs.start) :
    capitalWord (lowerWord word) = capitalWord word := by
  have hlower : ∀ c ∈ word, c.toLower.toNat < Runs.start ∧ c.toLower.toLower = c.toLower ∧
      c.toLower.toUpper = c.toUpper := fun c hc =>
    forall_ascii (P := fun c => c.toLower.toNat < Runs.start ∧ c.toLower.toLower = c.toLower ∧
      c.toLower.toUpper = c.toUpper) (by decide) (h c hc)
  rw [lowerWord_of_ascii h]
  cases word with
  | nil => rfl
  | cons c rest =>
      rw [List.forall_mem_cons] at h hlower
      rw [List.map_cons, capitalWord, capitalWord, lowerWord_of_ascii h.2,
        lowerWord_of_ascii (by simpa using fun c hc => (hlower.2 c hc).1), upperOf, upperOf,
        if_pos hlower.1.1, if_pos h.1, hlower.1.2.2, List.map_map]
      exact congrArg (_ ++ ·) (List.map_congr_left fun c hc => (hlower.2 c hc).2.1)

/-- **Snake case and camel case** tell the same names of ASCII apart. -/
theorem camelCase_eq_of_snakeCase_eq (hname : IsAscii name) (hname' : IsAscii name')
    (h : snakeCase name = snakeCase name') : camelCase name = camelCase name' := by
  have hcamel : ∀ {name}, IsAscii name →
      (words name).flatMap capitalWord = ((words name).map lowerWord).flatMap capitalWord := by
    intro name hname
    rw [List.flatMap_map]
    refine List.flatMap_congr fun word hword => (capitalWord_lowerWord fun c hc => ?_).symm
    exact hname c ((of_mem_words hword).2 c hc).2
  rw [camelCase, camelCase, hcamel hname, hcamel hname',
    (joinLower_eq_iff not_inWord_underscore).mp h]

/-! ## names of ASCII -/

theorem ascii_toLower (h : c.toNat < Runs.start) : c.toLower.toNat < Runs.start :=
  forall_ascii (P := fun c => c.toLower.toNat < Runs.start) (by decide) h

/-- An upper-case character of ASCII is of ASCII and no lower-case letter. -/
theorem ascii_toUpper (h : c.toNat < Runs.start) :
    c.toUpper.toNat < Runs.start ∧ c.toUpper.isLower = false :=
  forall_ascii (P := fun c => c.toUpper.toNat < Runs.start ∧ c.toUpper.isLower = false)
    (by decide) h

theorem ascii_lowerWord (h : ∀ c ∈ word, c.toNat < Runs.start) :
    ∀ d ∈ lowerWord word, d.toNat < Runs.start := by
  rw [lowerWord_of_ascii h]
  intro d hd
  obtain ⟨c, hc, rfl⟩ := List.mem_map.mp hd
  exact ascii_toLower (h c hc)

theorem ascii_upperWord (h : ∀ c ∈ word, c.toNat < Runs.start) :
    ∀ d ∈ upperWord word, d.toNat < Runs.start := by
  intro d hd
  obtain ⟨c, hc, hd⟩ := List.mem_flatMap.mp hd
  rw [upperOf, if_pos (h c hc), List.mem_singleton] at hd
  exact hd ▸ (ascii_toUpper (h c hc)).1

theorem ascii_capitalWord (h : ∀ c ∈ word, c.toNat < Runs.start) :
    ∀ d ∈ capitalWord word, d.toNat < Runs.start := by
  cases word with
  | nil => simp [capitalWord]
  | cons c rest =>
      rw [List.forall_mem_cons] at h
      rw [capitalWord, upperOf, if_pos h.1, List.singleton_append, List.forall_mem_cons]
      exact ⟨(ascii_toUpper h.1).1, ascii_lowerWord h.2⟩

section Ascii

variable (h : IsAscii name)

include h

theorem ascii_of_mem_words (hword : word ∈ words name) : ∀ c ∈ word, c.toNat < Runs.start :=
  fun c hc => h c ((of_mem_words hword).2 c hc).2

theorem isAscii_snakeCase : IsAscii (snakeCase name) := by
  intro c hc
  rw [snakeCase, joinLower, String.toList_ofList] at hc
  obtain hsep | ⟨lower, hlower, hc⟩ := mem_intercalate hc
  · rw [List.mem_singleton.mp hsep]
    decide
  · obtain ⟨word, hword, rfl⟩ := List.mem_map.mp hlower
    exact ascii_lowerWord (ascii_of_mem_words h hword) c hc

theorem isAscii_shoutyCase : IsAscii (shoutyCase name) := by
  intro c hc
  rw [shoutyCase, String.toList_ofList] at hc
  obtain hsep | ⟨upper, hupper, hc⟩ := mem_intercalate hc
  · rw [List.mem_singleton.mp hsep]
    decide
  · obtain ⟨word, hword, rfl⟩ := List.mem_map.mp hupper
    exact ascii_upperWord (ascii_of_mem_words h hword) c hc

theorem isAscii_camelCase : IsAscii (camelCase name) := by
  intro c hc
  rw [camelCase, String.toList_ofList] at hc
  obtain ⟨word, hword, hc⟩ := List.mem_flatMap.mp hc
  exact ascii_capitalWord (ascii_of_mem_words h hword) c hc

/-- A name in camel case begins with a capital letter or a digit. -/
theorem head_camelCase (hc : c ∈ (camelCase name).toList.head?) : c.isLower = false := by
  rw [camelCase, String.toList_ofList] at hc
  cases hwords : words name with
  | nil => rw [hwords] at hc; contradiction
  | cons word rest =>
      have hword : word ∈ words name := hwords ▸ .head _
      cases word with
      | nil => exact absurd rfl (of_mem_words hword).1
      | cons d word =>
          have hd := ascii_of_mem_words h hword d (.head _)
          rw [hwords, List.flatMap_cons, capitalWord, upperOf, if_pos hd] at hc
          obtain rfl : d.toUpper = c := Option.some.inj hc
          exact (ascii_toUpper hd).2

end Ascii

end Missive.Text
