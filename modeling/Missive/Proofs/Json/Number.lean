import Missive.Proofs.Json.Reader
import Missive.Proofs.Number.Value

/-!
# Missive.Proofs.Json.Number

Whole numbers in JSON: which numbers the reader takes for them.

A number that is not held as a whole number in the range is compared as a double, and so are the
bounds, so that both sides of the comparison may have been rounded.  `IsTold` says of a range what
makes this harmless, and `JsonNumber.toIntIn?_eq_some` that the numbers taken are then exactly those
in the range.
-/

namespace Missive

namespace JsonNumber

variable {least limit i : Int}

/-! ## numbers that are held as whole ones -/

theorem heldIn?_ofInt64 {n : Int64} (hleast : least ≤ n.toInt) (hlimit : n.toInt < limit) :
    (ofInt64 n).heldIn? least limit = some n.toInt := by
  unfold ofInt64
  split
  · exact if_pos hleast
  · next h =>
      have hle : 0 ≤ n := Int64.not_lt.mp h
      have hpos : 0 ≤ n.toInt := by simpa [Int64.le_iff_toInt_le] using hle
      have hnatural : (n.toUInt64.toNat : Int) = n.toInt := by
        rw [Int64.toNat_toUInt64_of_le hle, Int64.toNatClampNeg, Int.toNat_of_nonneg hpos]
      rw [heldIn?, hnatural, if_pos hlimit]

theorem toIntIn?_of_heldIn? {n : JsonNumber} (h : n.heldIn? least limit = some i) :
    n.toIntIn? least limit = some i := by
  rw [toIntIn?, h, Option.some_or]

/-! ## numbers in a range -/

/-- The number itself, not rounded. -/
def value : JsonNumber → ℚ
  | .natural n => n.toNat
  | .negative n _ => n.toInt
  | .real x _ => x.value

theorem toInt?_eq_some {n : JsonNumber} : n.toInt? = some i ↔ n.value = i := by
  cases n with
  | natural n => simp only [toInt?, value, Option.some_inj]; norm_cast
  | negative n below => simp only [toInt?, value, Option.some_inj]; norm_cast
  | real x finite => exact Double.toInt?_eq_some finite

/-- Doubles tell a range: its bounds are what the doubles for them are, and no number below comes to
the lower bound by rounding. -/
structure IsTold (least limit : Int) : Prop where
  nonpos : least ≤ 0
  nonneg : 0 ≤ limit
  isFinite_least : (Double.ofInt least).isFinite
  value_least : (Double.ofInt least).value = least
  isFinite_last : (Double.ofInt (limit - 1)).isFinite
  value_last : (Double.ofInt (limit - 1)).value = limit
  below : ∀ n : Int64, n.toInt < least → (Double.ofInt n.toInt).value < least

theorem isFinite_toDouble (n : JsonNumber) : n.toDouble.isFinite := by
  cases n with
  | natural n => exact Double.isFinite_ofInt n.toNat_lt
  | negative n below =>
      have := n.le_toInt
      have := n.toInt_lt
      exact Double.isFinite_ofInt (by omega)
  | real x finite => exact finite

/-- The comparison of doubles, as numbers. -/
theorem IsTold.toIntIn?_eq (h : IsTold least limit) (n : JsonNumber) :
    n.toIntIn? least limit = (n.heldIn? least limit).or
      (if least ≤ n.toDouble.value ∧ n.toDouble.value < limit then n.toDouble.toInt?
        else none) := by
  have hleast := Double.le_iff h.isFinite_least n.isFinite_toDouble
  have hlimit := Double.lt_iff n.isFinite_toDouble h.isFinite_last
  rw [h.value_least] at hleast
  rw [h.value_last] at hlimit
  simp only [toIntIn?, Bool.and_eq_true, hleast, hlimit]

/-- The numbers that are taken are those in the range. -/
theorem toIntIn?_eq_some (h : IsTold least limit) {n : JsonNumber} :
    n.toIntIn? least limit = some i ↔ n.value = i ∧ least ≤ i ∧ i < limit := by
  have hnonpos := h.nonpos
  have hnonneg := h.nonneg
  rw [h.toIntIn?_eq]
  cases n with
  | natural n =>
      have hvalue : (natural n).value = ((n.toNat : Int) : ℚ) := by simp [value]
      rw [hvalue, Int.cast_inj]
      by_cases hlt : (n.toNat : Int) < limit
      · rw [heldIn?, if_pos hlt, Option.some_or, Option.some_inj]
        omega
      · -- a number above the range does not get below the upper bound by rounding
        have hge : (limit : ℚ) ≤ (Double.ofInt n.toNat).value := by
          rw [← h.value_last]
          refine Double.le_ofInt n.toNat_lt h.isFinite_last ?_
          rw [h.value_last]
          exact_mod_cast not_lt.mp hlt
        rw [heldIn?, if_neg hlt, Option.none_or, if_neg fun hin => not_lt.mpr hge hin.2]
        refine iff_of_false (by simp) fun hi => hlt ?_
        omega
  | negative n below =>
      have hvalue : (negative n below).value = (n.toInt : ℚ) := rfl
      have hneg : n.toInt < 0 := by simpa [Int64.lt_iff_toInt_lt] using below
      rw [hvalue, Int.cast_inj]
      by_cases hle : least ≤ n.toInt
      · rw [heldIn?, if_pos hle, Option.some_or, Option.some_inj]
        omega
      · have hlt := h.below n (not_le.mp hle)
        rw [heldIn?, if_neg hle, Option.none_or, if_neg fun hin => not_le.mpr hlt hin.1]
        refine iff_of_false (by simp) fun hi => hle ?_
        omega
  | real x finite =>
      rw [heldIn?, Option.none_or]
      have hvalue : x.toInt? = some i ↔ x.value = i := Double.toInt?_eq_some finite
      rw [toDouble, value, Option.ite_none_right_eq_some, hvalue]
      constructor
      · rintro ⟨hin, hi⟩
        rw [hi] at hin
        exact ⟨hi, by exact_mod_cast hin⟩
      · rintro ⟨hi, hin⟩
        rw [hi]
        exact ⟨by exact_mod_cast hin, rfl⟩

/-- Of the signed numbers of 64 bits, the greatest becomes the bound itself. -/
theorem isTold_long : IsTold (-(Int64.size / 2)) (Int64.size / 2) where
  nonpos := by decide
  nonneg := by decide
  isFinite_least := by decide
  value_least := by
    have hdatum : (Double.ofInt (-(Int64.size / 2))).datum = .finite true (2 ^ 52) 11 := by decide
    rw [Double.value, hdatum]
    norm_num [Datum.value, Int64.size]
  isFinite_last := by decide
  value_last := by
    have hdatum : (Double.ofInt (Int64.size / 2 - 1)).datum = .finite false (2 ^ 52) 11 := by decide
    rw [Double.value, hdatum]
    norm_num [Datum.value, Int64.size]
  below n hn := absurd n.le_toInt (not_le.mpr hn)

theorem isTold_ulong : IsTold 0 UInt64.size where
  nonpos := le_rfl
  nonneg := by decide
  isFinite_least := by decide
  value_least := by
    have hdatum : (Double.ofInt 0).datum = .finite false 0 (-1074) := by decide
    norm_num [Double.value, hdatum, Datum.value]
  isFinite_last := by decide
  value_last := by
    have hdatum : (Double.ofInt (UInt64.size - 1)).datum = .finite false (2 ^ 52) 12 := by decide
    rw [Double.value, hdatum]
    norm_num [Datum.value, UInt64.size]
  below n hn := by
    -- what is below zero is not above the double for minus one
    have hdatum : (Double.ofInt (-1)).datum = .finite true (2 ^ 52) (-52) := by decide
    have hone : (Double.ofInt (-1)).value = -1 := by norm_num [Double.value, hdatum, Datum.value]
    have hle : (n.toInt : ℚ) ≤ (Double.ofInt (-1)).value := by
      rw [hone]
      exact_mod_cast Int.le_sub_one_of_lt hn
    have := n.le_toInt
    have := Double.ofInt_le (by omega) (by decide) hle
    rw [hone] at this
    push_cast
    linarith

end JsonNumber

namespace Json

/-! ## whole numbers as values -/

/-- A value is this whole number. -/
def IsWhole (value : Json) (k : Int) : Prop := ∃ n, value = .number n ∧ n.value = k

theorem isWhole_number {n : JsonNumber} {k : Int} : (number n).IsWhole k ↔ n.toInt? = some k := by
  rw [JsonNumber.toInt?_eq_some]
  constructor
  · rintro ⟨_, heq, hn⟩
    cases heq
    exact hn
  · exact fun hn => ⟨n, rfl, hn⟩

instance (value : Json) (k : Int) : Decidable (value.IsWhole k) :=
  match value with
  | .number _ => decidable_of_iff _ isWhole_number.symm
  | .null | .bool _ | .string _ | .array _ | .object _ => .isFalse fun ⟨_, h, _⟩ => nomatch h

/-- A step takes the whole numbers of a range, each for exactly itself, and refuses every other
value. -/
structure ReadsWholes (p : Read α) (toInt : α → Int) (least limit : Int) : Prop where
  ok_iff : ∀ {value pending frames frames'} (k : Int), Before value pending frames frames' →
    ((∃ a, toInt a = k ∧ p ⟨pending, frames⟩ = .ok a ⟨none, frames'⟩) ↔
      value.IsWhole k ∧ least ≤ k ∧ k < limit)
  fails : ∀ {value pending frames frames'}, Before value pending frames frames' →
    (¬ ∃ k, value.IsWhole k ∧ least ≤ k ∧ k < limit) →
    ∃ fault, p ⟨pending, frames⟩ = .error (.json fault) ⟨none, frames'⟩

namespace ReadsWholes

variable {p : Read α} {toInt : α → Int} {least limit : Int}

/-- As a step ends in one way only, the numbers that it takes and the values that it refuses say
all. -/
theorem intro
    (ok : ∀ {value pending frames frames' k}, Before value pending frames frames' →
      value.IsWhole k → least ≤ k → k < limit →
      ∃ a, toInt a = k ∧ p ⟨pending, frames⟩ = .ok a ⟨none, frames'⟩)
    (fails : ∀ {value pending frames frames'}, Before value pending frames frames' →
      (¬ ∃ k, value.IsWhole k ∧ least ≤ k ∧ k < limit) →
      ∃ fault, p ⟨pending, frames⟩ = .error (.json fault) ⟨none, frames'⟩) :
    ReadsWholes p toInt least limit := by
  refine ⟨fun {value pending frames frames'} k hb => ⟨?_, fun ⟨hk, hleast, hlimit⟩ =>
    ok hb hk hleast hlimit⟩, fails⟩
  rintro ⟨a, rfl, ha⟩
  by_cases hex : ∃ k, value.IsWhole k ∧ least ≤ k ∧ k < limit
  · obtain ⟨k, hk, hleast, hlimit⟩ := hex
    obtain ⟨a', rfl, ha'⟩ := ok hb hk hleast hlimit
    obtain rfl : a = a' := by
      rw [ha] at ha'
      injection ha'
    exact ⟨hk, hleast, hlimit⟩
  · obtain ⟨fault, hfault⟩ := fails hb hex
    rw [ha] at hfault
    contradiction

/-- A step may go on with a narrower range. -/
theorem bind {next : α → Read β} {toInt' : β → Int} {least' limit' : Int}
    (hp : ReadsWholes p toInt least limit) (hleast : least ≤ least') (hlimit : limit' ≤ limit)
    (hin : ∀ a r, least' ≤ toInt a → toInt a < limit' →
      ∃ b, toInt' b = toInt a ∧ next a r = .ok b r)
    (hout : ∀ a r, least ≤ toInt a ∧ toInt a < limit → ¬ (least' ≤ toInt a ∧ toInt a < limit') →
      ∃ fault, next a r = .error (.json fault) r) :
    ReadsWholes (p >>= next) toInt' least' limit' := by
  apply intro
  · intro value pending frames frames' k hb hk hleast' hlimit'
    obtain ⟨a, rfl, ha⟩ := (hp.ok_iff k hb).mpr ⟨hk, hleast.trans hleast', hlimit'.trans_le hlimit⟩
    obtain ⟨b, hb', hnext⟩ := hin a ⟨none, frames'⟩ hleast' hlimit'
    exact ⟨b, hb', (bind_of_ok next ha).trans hnext⟩
  · intro value pending frames frames' hb hnone
    by_cases hex : ∃ k, value.IsWhole k ∧ least ≤ k ∧ k < limit
    · obtain ⟨k, hk⟩ := hex
      obtain ⟨a, rfl, ha⟩ := (hp.ok_iff k hb).mpr hk
      obtain ⟨fault, hfault⟩ := hout a ⟨none, frames'⟩ hk.2 fun hrange => hnone ⟨_, hk.1, hrange⟩
      exact ⟨fault, (bind_of_ok next ha).trans hfault⟩
    · obtain ⟨fault, hfault⟩ := hp.fails hb hex
      exact ⟨fault, bind_of_error next hfault⟩

end ReadsWholes

namespace Read

variable {least limit : Int}

theorem whole_readsWholes (h : JsonNumber.IsTold least limit) (wanted : JsonExpectation) :
    ReadsWholes (whole wanted least limit) (fun i => i) least limit := by
  apply ReadsWholes.intro
  · rintro value pending frames frames' k hb ⟨n, rfl, hn⟩ hleast hlimit
    have hint := (JsonNumber.toIntIn?_eq_some h).mpr ⟨hn, hleast, hlimit⟩
    refine ⟨k, rfl, (bind_of_ok _ (next_reads _ _ _ _ hb)).trans ?_⟩
    simp only [hint]
    rfl
  · intro value pending frames frames' hb hnone
    rw [whole, bind_of_ok _ (next_reads _ _ _ _ hb)]
    cases value with
    | number n =>
        cases hint : n.toIntIn? least limit with
        | none => exact ⟨_, by simp only [hint]; rfl⟩
        | some i =>
            obtain ⟨hi, hrange⟩ := (JsonNumber.toIntIn?_eq_some h).mp hint
            exact absurd ⟨i, ⟨n, rfl, hi⟩, hrange⟩ hnone
    | null | bool _ | string _ | array _ | object _ => exact ⟨_, rfl⟩

theorem long_readsWholes : ReadsWholes long Int64.toInt (-2 ^ 63) (2 ^ 63) := by
  refine (whole_readsWholes JsonNumber.isTold_long .integer).bind le_rfl le_rfl ?_ ?_
  · intro i r hleast hlimit
    exact ⟨.ofInt i, Int64.toInt_ofInt_of_le hleast hlimit, rfl⟩
  · intro i r hin hout
    exact absurd hin hout

theorem ulong_readsWholes : ReadsWholes ulong (fun n => n.toNat) 0 (2 ^ 64) := by
  refine (whole_readsWholes JsonNumber.isTold_ulong .unsignedInteger).bind le_rfl le_rfl ?_ ?_
  · intro i r (hleast : 0 ≤ i) (hlimit : i < 2 ^ 64)
    refine ⟨i.toNat.toUInt64, ?_, rfl⟩
    have hlt : i.toNat < 2 ^ 64 := by omega
    rw [Nat.toUInt64_eq, UInt64.toNat_ofNat_of_lt' hlt, Int.toNat_of_nonneg hleast]
  · intro i r hin hout
    exact absurd hin hout

theorem int_readsWholes : ReadsWholes int Int32.toInt (-2 ^ 31) (2 ^ 31) := by
  refine long_readsWholes.bind (by decide) (by decide) ?_ ?_
  · intro n r hleast hlimit
    refine ⟨.ofInt n.toInt, Int32.toInt_ofInt_of_le hleast hlimit, ?_⟩
    rw [if_pos (by simpa [Int32.size] using ⟨hleast, hlimit⟩)]
    rfl
  · intro n r _ hout
    refine ⟨.tooWide n.toInt, ?_⟩
    rw [if_neg (by simpa [Int32.size] using hout)]
    rfl

theorem uint_readsWholes : ReadsWholes uint (fun n => n.toNat) 0 (2 ^ 32) := by
  refine ulong_readsWholes.bind le_rfl (by decide) ?_ ?_
  · intro n r _ hlimit
    have hlt : n.toNat < UInt32.size := by exact_mod_cast hlimit
    refine ⟨n.toNat.toUInt32, by rw [Nat.toUInt32_eq, UInt32.toNat_ofNat_of_lt' hlt], ?_⟩
    rw [if_pos hlt]
    rfl
  · intro n r _ hout
    have hge : ¬ n.toNat < UInt32.size := fun hlt =>
      hout ⟨Int.natCast_nonneg _, by exact_mod_cast hlt⟩
    refine ⟨.tooWide n.toNat, ?_⟩
    rw [if_neg hge]
    rfl

/-- Whole numbers are read as they are or not at all, however they are held: the four steps take
exactly the numbers of their widths. -/
theorem whole_numbers_exact :
    ReadsWholes long Int64.toInt (-2 ^ 63) (2 ^ 63) ∧
      ReadsWholes ulong (fun n => n.toNat) 0 (2 ^ 64) ∧
      ReadsWholes int Int32.toInt (-2 ^ 31) (2 ^ 31) ∧
      ReadsWholes uint (fun n => n.toNat) 0 (2 ^ 32) :=
  ⟨long_readsWholes, ulong_readsWholes, int_readsWholes, uint_readsWholes⟩

/-- The last double below the bound is taken, and neither the bound as a double nor as a whole
number, which are the same number. -/
example :
    let last := Json.number (.real ⟨0x43dfffffffffffff⟩ rfl)
    let bound := Json.number (.real ⟨0x43e0000000000000⟩ rfl)
    let held := Json.number (.natural 0x8000000000000000)
    last.IsWhole (2 ^ 63 - 1024) ∧ bound.IsWhole (2 ^ 63) ∧ held.IsWhole (2 ^ 63) ∧
      [last, bound, held].map (fun value => (long.on value).toOption.map Int64.toInt) =
        [some (2 ^ 63 - 1024), none, none] := by decide +kernel

end Read

end Json

end Missive
