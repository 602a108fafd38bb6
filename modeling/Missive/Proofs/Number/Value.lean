import Missive.Proofs.Number.Format

/-!
# Missive.Proofs.Number.Value

The numbers that data are, as rational numbers.

Comparison is the order of the numbers (`Double.lt_iff` and `Double.le_iff`), and `toInt?` finds the
whole ones (`Datum.toInt?_eq_some`).  `Format.nearest` gives a datum than which none is nearer to
the quotient (`Format.exists_nearest`), so a whole number that becomes a double does not pass
a number that is one (`Double.le_ofInt` and `Double.ofInt_le`).
-/

namespace Missive

/-! ## data as numbers -/

namespace Datum

variable {negative : Bool} {m : Nat} {e : Int}

/-- The number that a finite datum is. -/
def value : Datum → ℚ
  | .finite negative m e => (if negative then -(m : ℚ) else m) * 2 ^ e
  | _ => 0

theorem abs_value (negative : Bool) (m : Nat) (e : Int) :
    |(finite negative m e).value| = m * 2 ^ e := by
  have hpow : (0 : ℚ) < 2 ^ e := by positivity
  cases negative <;> simp [value, abs_mul, abs_of_pos hpow]

/-- Units of any power of two up to the exponent give the same number. -/
theorem units_mul (h : low ≤ e) (negative : Bool) (m : Nat) :
    (units low negative m e : ℚ) * 2 ^ low = (finite negative m e).value := by
  have hpow : (2 : ℚ) ^ e = 2 ^ (e - low).toNat * 2 ^ low := by
    rw [← zpow_natCast, Int.toNat_of_nonneg (by omega), ← zpow_add₀ (by norm_num), sub_add_cancel]
  cases negative <;> simp [units, value, hpow, Nat.shiftLeft_eq, mul_assoc]

/-- A whole number is found exactly where the number is one. -/
theorem toInt?_eq_some {i : Int} :
    (finite negative m e).toInt? = some i ↔ (finite negative m e).value = i := by
  by_cases he : e < 0
  · have hpow : (2 : ℚ) ^ e = ((2 ^ (-e).toNat : Nat) : ℚ)⁻¹ := by
      rw [Nat.cast_pow, Nat.cast_ofNat, ← zpow_natCast, ← zpow_neg]
      congr 1
      omega
    have hunit : ((2 ^ (-e).toNat : Nat) : ℚ) ≠ 0 := by positivity
    simp only [toInt?, if_pos he, Nat.one_shiftLeft, value, hpow]
    generalize 2 ^ (-e).toNat = unit at hunit
    by_cases hdvd : unit ∣ m
    · obtain ⟨k, rfl⟩ := hdvd
      have hpos : 0 < unit := Nat.pos_of_ne_zero (by exact_mod_cast hunit)
      have hk : ((unit * k : Nat) : ℚ) * (unit : ℚ)⁻¹ = k := by
        push_cast
        field_simp
      rw [Nat.mul_mod_right, Nat.mul_div_cancel_left k hpos]
      cases negative <;> simp only [Bool.false_eq_true, if_true, if_false, neg_mul, hk] <;>
        simp <;> norm_cast
    · have hmod : (m % unit == 0) = false := by
        rw [beq_eq_false_iff_ne]
        exact fun hmod => hdvd (Nat.dvd_of_mod_eq_zero hmod)
      simp only [hmod]
      refine iff_of_false (by simp) fun hi => hdvd ?_
      -- a whole quotient would divide
      rw [← div_eq_mul_inv, div_eq_iff hunit] at hi
      refine Int.natCast_dvd_natCast.mp ?_
      cases negative with
      | false => exact ⟨i, by rw [mul_comm]; exact_mod_cast hi⟩
      | true =>
          refine (Int.dvd_neg).mp ⟨i, ?_⟩
          rw [mul_comm]
          exact_mod_cast hi
  · have hpow : (2 : ℚ) ^ e = ((2 ^ e.toNat : Nat) : ℚ) := by
      rw [Nat.cast_pow, Nat.cast_ofNat, ← zpow_natCast]
      congr 1
      omega
    simp only [toInt?, if_neg he, Nat.shiftLeft_eq, value, hpow]
    cases negative <;> simp <;> norm_cast

end Datum

namespace Double

variable {x y : Double}

/-- The number that a finite double is. -/
def value (x : Double) : ℚ := x.datum.value

theorem exists_finite (h : x.isFinite) : ∃ negative m e, x.datum = .finite negative m e := by
  unfold isFinite at h
  cases hx : x.datum with
  | nan => simp [hx] at h
  | infinite negative => simp [hx] at h
  | finite negative m e => exact ⟨negative, m, e, rfl⟩

theorem toInt?_eq_some (h : x.isFinite) {i : Int} : x.toInt? = some i ↔ x.value = i := by
  obtain ⟨negative, m, e, hx⟩ := exists_finite h
  rw [toInt?, value, hx, Datum.toInt?_eq_some]

/-- Finite data are compared as numbers, in units of the lower exponent. -/
theorem exists_compare? (hx : x.isFinite) (hy : y.isFinite) :
    ∃ a b : Int, ∃ unit : ℚ, 0 < unit ∧ x.value = a * unit ∧ y.value = b * unit ∧
      x.datum.compare? y.datum = some (compare a b) := by
  obtain ⟨s, m, e, hx⟩ := exists_finite hx
  obtain ⟨t, n, d, hy⟩ := exists_finite hy
  refine ⟨_, _, 2 ^ min e d, by positivity, ?_, ?_, by rw [hx, hy, Datum.compare?]⟩
  · rw [value, hx, Datum.units_mul (min_le_left e d)]
  · rw [value, hy, Datum.units_mul (min_le_right e d)]

theorem lt_iff (hx : x.isFinite) (hy : y.isFinite) : x.lt y ↔ x.value < y.value := by
  obtain ⟨a, b, unit, hunit, ha, hb, hcompare⟩ := exists_compare? hx hy
  rw [lt, hcompare, ha, hb, mul_lt_mul_iff_left₀ hunit, Int.cast_lt, Option.any_some,
    Ordering.isLT_iff_eq_lt, compare_lt_iff_lt]

theorem le_iff (hx : x.isFinite) (hy : y.isFinite) : x.le y ↔ x.value ≤ y.value := by
  obtain ⟨a, b, unit, hunit, ha, hb, hcompare⟩ := exists_compare? hx hy
  rw [le, hcompare, ha, hb, mul_le_mul_iff_left₀ hunit, Int.cast_le, Option.any_some,
    ← Ordering.ne_gt_iff_isLE]
  exact compare_le_iff_le

end Double

/-! ## rounding -/

namespace Format

variable {f : Format} {num den m : Nat} {e : Int}

/-- A quotient is rounded up or down. -/
theorem roundQuotient_bounds (num den : Nat) :
    num / den ≤ roundQuotient num den ∧ roundQuotient num den ≤ num / den + 1 := by
  simp only [roundQuotient]
  split <;> omega

theorem abs_roundQuotient_sub_le_half (hden : 0 < den) (num : Nat) :
    |(roundQuotient num den : ℚ) - num / den| ≤ 1 / 2 := by
  have hdenq : (0 : ℚ) < den := by exact_mod_cast hden
  have hparts : (num : ℚ) / den = (num / den : Nat) + ((num % den : Nat) : ℚ) / den := by
    rw [div_eq_iff hdenq.ne', add_mul, div_mul_cancel₀ _ hdenq.ne', mul_comm]
    exact_mod_cast (Nat.div_add_mod num den).symm
  have hrest : num % den < den := Nat.mod_lt num hden
  simp only [roundQuotient, hparts]
  generalize num / den = q
  generalize num % den = r at hrest
  split
  · next hup =>
      have hup : (den : ℚ) ≤ 2 * r := by
        simp only [Bool.or_eq_true, Bool.and_eq_true, decide_eq_true_eq, beq_iff_eq] at hup
        exact_mod_cast (by omega : den ≤ 2 * r)
      have hone : (r : ℚ) / den < 1 := (div_lt_one hdenq).mpr (by exact_mod_cast hrest)
      have hge : 1 / 2 ≤ (r : ℚ) / den := (le_div_iff₀ hdenq).mpr (by linarith)
      rw [abs_le]
      push_cast
      constructor <;> linarith
  · next hdown =>
      have hdown : 2 * (r : ℚ) ≤ den := by
        simp only [Bool.or_eq_true, decide_eq_true_eq] at hdown
        exact_mod_cast (by omega : 2 * r ≤ den)
      have hle : (r : ℚ) / den ≤ 1 / 2 := (div_le_iff₀ hdenq).mpr (by linarith)
      have hnonneg : (0 : ℚ) ≤ r / den := by positivity
      rw [abs_le]
      constructor <;> linarith

/-- No whole number is nearer to a quotient than the one it is rounded to. -/
theorem abs_roundQuotient_sub_le (hden : 0 < den) (num k : Nat) :
    |(roundQuotient num den : ℚ) - num / den| ≤ |(k : ℚ) - num / den| := by
  have hhalf := abs_roundQuotient_sub_le_half hden num
  rcases eq_or_ne k (roundQuotient num den) with rfl | hne
  · rfl
  · have hone : (1 : ℚ) ≤ |(k : ℚ) - roundQuotient num den| := by
      have : (1 : Int) ≤ |(k : Int) - roundQuotient num den| := Int.one_le_abs (by omega)
      exact_mod_cast this
    have htriangle := abs_sub_le (k : ℚ) (num / den) (roundQuotient num den)
    rw [abs_sub_comm ((num : ℚ) / den)] at htriangle
    linarith

/-- A significand that rounding has brought to the next power of two is that of the next
exponent. -/
theorem decode_assemble_rounded (hlow : 2 ^ f.fractionBits ≤ m ∨ e = f.leastExponent)
    (hhigh : m ≤ 2 ^ (f.fractionBits + 1)) (hleast : f.leastExponent ≤ e)
    (hgreatest : e + 3 < f.leastExponent + (2 ^ f.exponentBits : Nat)) (negative : Bool) :
    ∃ m' e', f.decode (f.assemble negative m e) = .finite negative m' e' ∧
      (m' : ℚ) * 2 ^ e' = m * 2 ^ e := by
  obtain hlt | rfl := hhigh.lt_or_eq
  · exact ⟨m, e, decode_assemble ⟨hlt, hleast, by omega, hlow⟩ negative, rfl⟩
  · have hcarry : f.assemble negative (2 ^ (f.fractionBits + 1)) e =
        f.assemble negative (2 ^ f.fractionBits) (e + 1) := by
      have hnext : (e + 1 - f.leastExponent).toNat = (e - f.leastExponent).toNat + 1 := by omega
      have hlarge : ¬ 2 ^ f.fractionBits * 2 < 2 ^ f.fractionBits := by omega
      simp only [assemble, Nat.shiftLeft_eq, Nat.one_mul, hnext, pow_succ, hlarge, lt_irrefl,
        if_false]
      congr 2
      ring
    refine ⟨2 ^ f.fractionBits, e + 1, ?_, ?_⟩
    · rw [hcarry]
      have hlt : 2 ^ f.fractionBits < 2 ^ (f.fractionBits + 1) :=
        Nat.pow_lt_pow_right (by decide) (Nat.lt_succ_self _)
      exact decode_assemble ⟨hlt, by omega, by omega, .inl le_rfl⟩ negative
    · rw [zpow_add_one₀ (by norm_num), pow_succ]
      push_cast
      ring

/-- A quotient scaled by an exponent and rounded. -/
def significandFor (num den : Nat) (e : Int) : Nat :=
  roundQuotient (scaleDown num den e).1 (scaleDown num den e).2

/-- Among the multiples of a power of two, rounding finds the nearest. -/
theorem abs_significandFor_sub_le (hden : 0 < den) (num : Nat) (e : Int) (k : Nat) :
    |(significandFor num den e : ℚ) * 2 ^ e - num / den| ≤ |(k : ℚ) * 2 ^ e - num / den| := by
  obtain ⟨hd, hq⟩ := scaleDown_eq hden num e
  have hpow : (0 : ℚ) < 2 ^ e := by positivity
  have hscale : ∀ x : ℚ, |x * 2 ^ e - num / den| = |x - num / den / 2 ^ e| * 2 ^ e := by
    intro x
    rw [← abs_of_pos hpow, ← abs_mul, abs_of_pos hpow, sub_mul, div_mul_cancel₀ _ hpow.ne']
  rw [hscale, hscale, ← hq]
  exact mul_le_mul_of_nonneg_right (abs_roundQuotient_sub_le hd _ k) hpow.le

/-- A datum of a lesser exponent is not above the normal significands of this one. -/
theorem IsDatum.mul_le (h : f.IsDatum n d) (hlt : d < e) :
    (n : ℚ) * 2 ^ d ≤ 2 ^ f.fractionBits * 2 ^ e := by
  have hn : (n : ℚ) ≤ 2 ^ (f.fractionBits + 1) := by exact_mod_cast h.significand_lt.le
  calc (n : ℚ) * 2 ^ d ≤ 2 ^ (f.fractionBits + 1) * 2 ^ d := by gcongr
    _ = 2 ^ (f.fractionBits + (d + 1)) := by
        rw [two_pow_mul_zpow]
        congr 1
        push_cast
        ring
    _ ≤ 2 ^ (f.fractionBits + e) := zpow_le_zpow_right₀ (by norm_num) (by omega)
    _ = 2 ^ f.fractionBits * 2 ^ e := (two_pow_mul_zpow _ e).symm

/-- No datum is nearer to a quotient than the one with the exponent for it. -/
theorem IsDatum.abs_sub_le (h : f.IsDatum n d) (hnum : 0 < num) (hden : 0 < den) :
    |(significandFor num den (f.exponentFor num den) : ℚ) * 2 ^ f.exponentFor num den - num / den| ≤
      |(n : ℚ) * 2 ^ d - num / den| := by
  obtain ⟨-, -, hnormal⟩ := f.exponentFor_spec hnum hden
  generalize f.exponentFor num den = e at hnormal
  by_cases hle : e ≤ d
  · have hmultiple : (n : ℚ) * 2 ^ d = (n * 2 ^ (d - e).toNat : Nat) * 2 ^ e := by
      push_cast
      rw [mul_assoc, two_pow_mul_zpow, Int.toNat_of_nonneg (by omega), sub_add_cancel]
    rw [hmultiple]
    exact abs_significandFor_sub_le hden num e _
  · have hnormal : 2 ^ f.fractionBits * 2 ^ e ≤ (num : ℚ) / den :=
      hnormal.resolve_right (by have := h.least_le; omega)
    have hbelow := h.mul_le (not_le.mp hle)
    calc |(significandFor num den e : ℚ) * 2 ^ e - num / den|
        ≤ |2 ^ f.fractionBits * 2 ^ e - (num : ℚ) / den| := by
          exact_mod_cast abs_significandFor_sub_le hden num e (2 ^ f.fractionBits)
      _ = num / den - 2 ^ f.fractionBits * 2 ^ e := by
          rw [abs_of_nonpos (sub_nonpos.mpr hnormal), neg_sub]
      _ ≤ num / den - n * 2 ^ d := by gcongr
      _ ≤ |(n : ℚ) * 2 ^ d - num / den| := by
          rw [abs_sub_comm]
          exact le_abs_self _

/-- A quotient becomes a datum than which none is nearer. -/
theorem exists_nearest (hnum : 0 < num) (hden : 0 < den)
    (hgreatest : f.exponentFor num den + 3 < f.leastExponent + (2 ^ f.exponentBits : Nat))
    (negative : Bool) :
    ∃ m e, f.decode (f.nearest negative num den) = .finite negative m e ∧
      ∀ n d, f.IsDatum n d → |(m : ℚ) * 2 ^ e - num / den| ≤ |(n : ℚ) * 2 ^ d - num / den| := by
  obtain ⟨hleast, hlt, hnormal⟩ := f.exponentFor_spec hnum hden
  have hnearest : f.nearest negative num den = f.assemble negative
      (significandFor num den (f.exponentFor num den)) (f.exponentFor num den) :=
    if_neg (by simpa using hnum.ne')
  obtain ⟨hdown, hup⟩ := roundQuotient_bounds (scaleDown num den (f.exponentFor num den)).1
    (scaleDown num den (f.exponentFor num den)).2
  rw [← scaleDown_div_lt hden] at hlt
  rw [← not_lt, ← scaleDown_div_lt hden, not_lt] at hnormal
  obtain ⟨m, e, hdatum, hvalue⟩ := decode_assemble_rounded (hnormal.imp_left (·.trans hdown))
    (hup.trans hlt) hleast hgreatest negative
  refine ⟨m, e, hnearest ▸ hdatum, fun n d h => ?_⟩
  rw [hvalue]
  exact h.abs_sub_le hnum hden

end Format

namespace Double

variable {x y : Double}

theorem datum_ofQuotient (negative : Bool) (num den : Nat) :
    (ofQuotient negative num den).datum =
      Format.double.decode (Format.double.nearest negative num den) := by
  rw [ofQuotient, Format.nearest]
  split
  · cases negative <;> decide
  · exact datum_toUInt64 ..

/-- A whole number of 64 bits becomes a double than which none is nearer. -/
theorem exists_ofInt {n : Int} (h : n.natAbs < 2 ^ 64) :
    ∃ m e, (ofInt n).datum = .finite (n < 0) m e ∧ ∀ m' e', Format.double.IsDatum m' e' →
      |(m : ℚ) * 2 ^ e - n.natAbs| ≤ |(m' : ℚ) * 2 ^ e' - n.natAbs| := by
  rcases eq_or_ne n 0 with rfl | hn
  · refine ⟨0, -1074, by decide, fun m' e' _ => ?_⟩
    rw [Nat.cast_zero, zero_mul, Int.natAbs_zero, Nat.cast_zero, sub_self, abs_zero]
    exact abs_nonneg _
  · have hpos : 0 < n.natAbs := Int.natAbs_pos.mpr hn
    have hgreatest : Format.double.exponentFor n.natAbs 1 + 3 < -1074 + (2 ^ 11 : Nat) := by
      obtain ⟨-, -, hnormal | hleast⟩ := Format.double.exponentFor_spec hpos Nat.one_pos
      · rw [Nat.cast_one, div_one, Format.two_pow_mul_zpow] at hnormal
        have hlt : (2 : ℚ) ^ ((52 : Int) + Format.double.exponentFor n.natAbs 1) < 2 ^ (64 : Int) :=
          hnormal.trans_lt (by exact_mod_cast h)
        have := (zpow_lt_zpow_iff_right₀ (by norm_num)).mp hlt
        omega
      · rw [hleast]
        decide
    obtain ⟨m, e, hdatum, hnearest⟩ :=
      Format.exists_nearest hpos Nat.one_pos hgreatest (decide (n < 0))
    exact ⟨m, e, (datum_ofQuotient ..).trans hdatum, by simpa using hnearest⟩

/-- A whole number of 64 bits is within range. -/
theorem isFinite_ofInt {n : Int} (h : n.natAbs < 2 ^ 64) : (ofInt n).isFinite := by
  obtain ⟨m, e, hdatum, -⟩ := exists_ofInt h
  rw [isFinite, hdatum]

/-- No double is nearer to a whole number of 64 bits than the one that it becomes. -/
theorem abs_ofInt_sub_le {n : Int} (h : n.natAbs < 2 ^ 64) (hy : y.isFinite) :
    |(ofInt n).value - n| ≤ |y.value - n| := by
  obtain ⟨m, e, hdatum, hnearest⟩ := exists_ofInt h
  obtain ⟨negative, m', e', hy⟩ := exists_finite hy
  have hisDatum := (Format.assemble_of_decode (f := .double) (by decide) y.bits_lt hy).1
  calc |(ofInt n).value - n| = |(m : ℚ) * 2 ^ e - n.natAbs| := by
        rw [value, hdatum, Nat.cast_natAbs, Int.cast_abs]
        by_cases hneg : n < 0
        · have hneg' : (n : ℚ) < 0 := by exact_mod_cast hneg
          rw [abs_of_neg hneg', sub_neg_eq_add, ← abs_neg]
          simp only [Datum.value, hneg, decide_true, if_true]
          congr 1
          ring
        · have hpos : (0 : ℚ) ≤ n := by exact_mod_cast not_lt.mp hneg
          rw [abs_of_nonneg hpos]
          simp only [Datum.value, hneg, decide_false, Bool.false_eq_true, if_false]
    _ ≤ |(m' : ℚ) * 2 ^ e' - n.natAbs| := hnearest m' e' hisDatum
    _ = |(|y.value| - |(n : ℚ)|)| := by
        rw [value, hy, Datum.abs_value, Nat.cast_natAbs, Int.cast_abs]
    _ ≤ |y.value - n| := abs_abs_sub_abs_le_abs_sub _ _

/-- Rounding does not take a whole number below a double that is not above it. -/
theorem le_ofInt {n : Int} (h : n.natAbs < 2 ^ 64) (hy : y.isFinite) (hle : y.value ≤ n) :
    y.value ≤ (ofInt n).value := by
  have hnearest := abs_ofInt_sub_le h hy
  by_contra hlt
  rw [abs_sub_comm y.value, abs_of_nonneg (sub_nonneg.mpr hle), abs_sub_comm] at hnearest
  have := le_abs_self ((n : ℚ) - (ofInt n).value)
  linarith

/-- Rounding does not take a whole number above a double that is not below it. -/
theorem ofInt_le {n : Int} (h : n.natAbs < 2 ^ 64) (hy : y.isFinite) (hle : n ≤ y.value) :
    (ofInt n).value ≤ y.value := by
  have hnearest := abs_ofInt_sub_le h hy
  by_contra hlt
  rw [abs_of_nonneg (sub_nonneg.mpr hle)] at hnearest
  have := le_abs_self ((ofInt n).value - n)
  linarith

end Double

end Missive
