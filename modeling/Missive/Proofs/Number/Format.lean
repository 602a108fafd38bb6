import Mathlib
import Missive.Number.Double

/-!
# Missive.Proofs.Number.Format

Binary formats: patterns and the data that they stand for.

`Format.IsDatum m e` says that `m * 2 ^ e` is a finite datum of a format, written as a pattern
writes it.  Such data and the finite patterns correspond (`Format.decode_assemble` and
`Format.assemble_of_decode`), and rounding leaves a datum as it is (`Format.nearestScaled_of_eq`),
however the number is given.  A narrow number can therefore be widened and narrowed again
(`Single.narrow_widen`).
-/

namespace Missive

namespace Format

variable {f : Format} {negative : Bool} {bits m num den : Nat} {e : Int}

/-! ## patterns -/

theorem signBit_eq (f : Format) (negative : Bool) :
    f.signBit negative = 2 ^ f.fractionBits * (2 ^ f.exponentBits * negative.toNat) := by
  cases negative <;> simp [signBit, Nat.shiftLeft_eq, pow_add]

theorem infinity_false (f : Format) :
    f.infinity false = (2 ^ f.exponentBits - 1) * 2 ^ f.fractionBits := by
  simp [infinity, signBit, Nat.shiftLeft_eq]

/-- The pattern of a sign, a biased exponent and a fraction. -/
def pattern (f : Format) (negative : Bool) (biased fraction : Nat) : Nat :=
  f.signBit negative + biased * 2 ^ f.fractionBits + fraction

/-- What the parts of a pattern stand for. -/
theorem decode_pattern (hb : biased < 2 ^ f.exponentBits) (hf : fraction < 2 ^ f.fractionBits) :
    f.decode (f.pattern negative biased fraction) =
      if biased = 2 ^ f.exponentBits - 1 then
        if fraction = 0 then .infinite negative else .nan
      else if biased = 0 then .finite negative fraction f.leastExponent
      else .finite negative (fraction + 2 ^ f.fractionBits)
        (f.leastExponent + (biased - 1 : Nat)) := by
  have hp : 0 < 2 ^ f.fractionBits := by positivity
  have hq : 0 < 2 ^ f.exponentBits := by positivity
  have hbits : f.pattern negative biased fraction =
      fraction + 2 ^ f.fractionBits * (biased + 2 ^ f.exponentBits * negative.toNat) := by
    rw [pattern, signBit_eq]
    ring
  have hfraction : f.pattern negative biased fraction % 2 ^ f.fractionBits = fraction := by
    rw [hbits, Nat.add_mul_mod_self_left, Nat.mod_eq_of_lt hf]
  have hrest : f.pattern negative biased fraction / 2 ^ f.fractionBits =
      biased + 2 ^ f.exponentBits * negative.toNat := by
    rw [hbits, Nat.add_mul_div_left _ _ hp, Nat.div_eq_of_lt hf, Nat.zero_add]
  have hbiased : f.pattern negative biased fraction / 2 ^ f.fractionBits % 2 ^ f.exponentBits =
      biased := by
    rw [hrest, Nat.add_mul_mod_self_left, Nat.mod_eq_of_lt hb]
  have hsign : f.pattern negative biased fraction / 2 ^ (f.fractionBits + f.exponentBits) =
      negative.toNat := by
    rw [pow_add, ← Nat.div_div_eq_div_mul, hrest, Nat.add_mul_div_left _ _ hq,
      Nat.div_eq_of_lt hb, Nat.zero_add]
  have hnegative : (negative.toNat % 2 == 1) = negative := by cases negative <;> rfl
  simp only [decode, Nat.shiftLeft_eq, Nat.one_mul, Nat.shiftRight_eq_div_pow, hfraction, hbiased,
    hsign, hnegative, beq_iff_eq]

/-- Every pattern has the parts. -/
theorem exists_pattern (h : bits < 2 ^ (f.fractionBits + f.exponentBits + 1)) :
    ∃ negative biased fraction, biased < 2 ^ f.exponentBits ∧ fraction < 2 ^ f.fractionBits ∧
      bits = f.pattern negative biased fraction := by
  have hp : 0 < 2 ^ f.fractionBits := by positivity
  have hq : 0 < 2 ^ f.exponentBits := by positivity
  have hsign : ∀ k < 2, (decide (k = 1)).toNat = k := by decide
  obtain ⟨upper, hupper⟩ : ∃ upper, bits / 2 ^ f.fractionBits = upper := ⟨_, rfl⟩
  have hlt : upper / 2 ^ f.exponentBits < 2 := by
    rw [← hupper, Nat.div_div_eq_div_mul, Nat.div_lt_iff_lt_mul (by positivity)]
    calc bits < 2 ^ (f.fractionBits + f.exponentBits + 1) := h
      _ = 2 * (2 ^ f.fractionBits * 2 ^ f.exponentBits) := by rw [pow_succ, pow_add]; ring
  refine ⟨decide (upper / 2 ^ f.exponentBits = 1), upper % 2 ^ f.exponentBits,
    bits % 2 ^ f.fractionBits, Nat.mod_lt _ hq, Nat.mod_lt _ hp, ?_⟩
  calc bits = 2 ^ f.fractionBits * upper + bits % 2 ^ f.fractionBits := by
        rw [← hupper, Nat.div_add_mod]
    _ = 2 ^ f.fractionBits * (2 ^ f.exponentBits * (upper / 2 ^ f.exponentBits) +
          upper % 2 ^ f.exponentBits) + bits % 2 ^ f.fractionBits := by rw [Nat.div_add_mod upper]
    _ = _ := by rw [pattern, signBit_eq, hsign _ hlt]; ring

/-! ## data -/

/-- A number `m * 2 ^ e` is a finite datum, written as a pattern writes it. -/
structure IsDatum (f : Format) (m : Nat) (e : Int) : Prop where
  significand_lt : m < 2 ^ (f.fractionBits + 1)
  least_le : f.leastExponent ≤ e
  exponent_lt : e + 2 < f.leastExponent + (2 ^ f.exponentBits : Nat)
  normal : 2 ^ f.fractionBits ≤ m ∨ e = f.leastExponent

/-- The pattern of a datum. -/
theorem IsDatum.assemble_eq (h : f.IsDatum m e) (negative : Bool) :
    ∃ biased fraction, f.assemble negative m e = f.pattern negative biased fraction ∧
      biased + 1 < 2 ^ f.exponentBits ∧ fraction < 2 ^ f.fractionBits ∧
      (if biased = 0 then m = fraction ∧ e = f.leastExponent
        else m = fraction + 2 ^ f.fractionBits ∧ e = f.leastExponent + (biased - 1 : Nat)) := by
  obtain ⟨hlt, hleast, hgreatest, hnormal⟩ := h
  rw [pow_succ] at hlt
  by_cases hm : m < 2 ^ f.fractionBits
  · have he : e = f.leastExponent := hnormal.resolve_left (by omega)
    refine ⟨0, m, ?_, by omega, hm, by simp [he]⟩
    have hmin : m ≤ f.infinity false := by
      rw [infinity_false]
      calc m ≤ 1 * 2 ^ f.fractionBits := by omega
        _ ≤ _ := Nat.mul_le_mul_right _ (by omega)
    simp [assemble, pattern, Nat.shiftLeft_eq, hm, hmin]
  · refine ⟨(e - f.leastExponent).toNat + 1, m - 2 ^ f.fractionBits, ?_, by omega, by omega, ?_⟩
    · have hmin : (e - f.leastExponent).toNat * 2 ^ f.fractionBits + m ≤ f.infinity false := by
        rw [infinity_false]
        calc (e - f.leastExponent).toNat * 2 ^ f.fractionBits + m
            ≤ ((e - f.leastExponent).toNat + 2) * 2 ^ f.fractionBits := by rw [Nat.add_mul]; omega
          _ ≤ _ := Nat.mul_le_mul_right _ (by omega)
      simp only [assemble, pattern, Nat.shiftLeft_eq, Nat.one_mul, hm, if_false,
        Nat.min_eq_left hmin, Nat.add_mul]
      omega
    · simp only [Nat.add_eq_zero_iff, one_ne_zero, and_false, if_false]
      omega

theorem decode_assemble (h : f.IsDatum m e) (negative : Bool) :
    f.decode (f.assemble negative m e) = .finite negative m e := by
  obtain ⟨biased, fraction, heq, hb, hf, hparts⟩ := h.assemble_eq negative
  rw [heq, decode_pattern (by omega) hf, if_neg (by omega)]
  split
  · next h0 =>
      rw [if_pos h0] at hparts
      rw [hparts.1, hparts.2]
  · next h0 =>
      rw [if_neg h0] at hparts
      rw [hparts.1, hparts.2]

/-- A finite pattern is the one of the datum that it stands for. -/
theorem assemble_of_decode (hwide : 1 < f.exponentBits)
    (hbits : bits < 2 ^ (f.fractionBits + f.exponentBits + 1))
    (h : f.decode bits = .finite negative m e) :
    f.IsDatum m e ∧ f.assemble negative m e = bits := by
  obtain ⟨negative', biased, fraction, hb, hf, rfl⟩ := exists_pattern hbits
  rw [decode_pattern hb hf] at h
  have hp : 2 ^ (f.fractionBits + 1) = 2 ^ f.fractionBits * 2 := pow_succ _ _
  have hq : 2 ^ 2 ≤ 2 ^ f.exponentBits := Nat.pow_le_pow_right (by decide) hwide
  have hmax : biased ≠ 2 ^ f.exponentBits - 1 := by
    rintro hmax
    rw [if_pos hmax] at h
    split at h <;> contradiction
  rw [if_neg hmax] at h
  have hdatum : f.IsDatum m e := by
    split at h
    · next h0 =>
        obtain ⟨rfl, rfl, rfl⟩ : negative' = negative ∧ fraction = m ∧ f.leastExponent = e := by
          simpa using h
        exact ⟨by omega, by omega, by omega, .inr rfl⟩
    · next h0 =>
        obtain ⟨rfl, rfl, rfl⟩ : negative' = negative ∧ fraction + 2 ^ f.fractionBits = m ∧
            f.leastExponent + (biased - 1 : Nat) = e := by
          simpa using h
        exact ⟨by omega, by omega, by omega, .inl (by omega)⟩
  refine ⟨hdatum, ?_⟩
  obtain ⟨biased', fraction', heq, hb', hf', hparts⟩ := hdatum.assemble_eq negative
  rw [heq]
  split at h <;> split at hparts
  all_goals
    simp only [Datum.finite.injEq] at h
    obtain ⟨rfl, hm, he⟩ := h
    obtain ⟨hm', he'⟩ := hparts
  · rw [show biased' = biased by omega, show fraction' = fraction by omega]
  · omega
  · omega
  · rw [show biased' = biased by omega, show fraction' = fraction by omega]

/-- An infinite pattern is the one of its sign. -/
theorem eq_infinity_of_decode (hbits : bits < 2 ^ (f.fractionBits + f.exponentBits + 1))
    (h : f.decode bits = .infinite negative) : bits = f.infinity negative := by
  obtain ⟨negative', biased, fraction, hb, hf, rfl⟩ := exists_pattern hbits
  rw [decode_pattern hb hf] at h
  split at h
  · next hmax =>
      split at h
      · next h0 =>
          obtain rfl : negative' = negative := by simpa using h
          rw [pattern, infinity, hmax, h0, Nat.shiftLeft_eq, Nat.shiftLeft_eq, Nat.one_mul,
            Nat.add_zero]
      · contradiction
  · split at h <;> contradiction

/-! ## rounding -/

theorem roundQuotient_mul (m : Nat) (hden : 0 < den) : roundQuotient (m * den) den = m := by
  simp only [roundQuotient, Nat.mul_div_cancel _ hden, Nat.mul_mod_left]
  rw [if_neg]
  simp
  omega

/-- Scaling divides a quotient by a power of two. -/
theorem scaleDown_eq (hden : 0 < den) (num : Nat) (e : Int) :
    0 < (scaleDown num den e).2 ∧
      ((scaleDown num den e).1 : ℚ) / (scaleDown num den e).2 = num / den / 2 ^ e := by
  unfold scaleDown
  split
  · next he =>
      refine ⟨hden, ?_⟩
      have hpow : (2 : ℚ) ^ e = (2 ^ (-e).toNat)⁻¹ := by
        rw [← zpow_natCast, ← zpow_neg]
        congr 1
        omega
      simp only [Nat.shiftLeft_eq, Nat.cast_mul, Nat.cast_pow, Nat.cast_ofNat, hpow]
      field_simp
  · next he =>
      refine ⟨by simp only [Nat.shiftLeft_eq]; positivity, ?_⟩
      have hpow : (2 : ℚ) ^ e = 2 ^ e.toNat := by
        rw [← zpow_natCast]
        congr 1
        omega
      simp only [Nat.shiftLeft_eq, Nat.cast_mul, Nat.cast_pow, Nat.cast_ofNat, hpow]
      rw [div_div]

/-- A scaled quotient has at most `k` bits where the quotient is below the power of two. -/
theorem scaleDown_div_lt (hden : 0 < den) (num : Nat) (e : Int) :
    (scaleDown num den e).1 / (scaleDown num den e).2 < 2 ^ k ↔
      (num : ℚ) / den < 2 ^ k * 2 ^ e := by
  obtain ⟨hd, hq⟩ := scaleDown_eq hden num e
  have hdq : (0 : ℚ) < (scaleDown num den e).2 := by exact_mod_cast hd
  rw [Nat.div_lt_iff_lt_mul hd, ← div_lt_iff₀ (by positivity), ← hq, div_lt_iff₀ hdq]
  norm_cast

/-- A quotient lies between two powers of two, which the logarithms of its parts tell. -/
theorem quotient_bounds (hnum : 0 < num) (hden : 0 < den) :
    2 ^ ((num.log2 : Int) - den.log2 - 1) ≤ (num : ℚ) / den ∧
      (num : ℚ) / den < 2 ^ ((num.log2 : Int) - den.log2 + 1) := by
  have hlow : ∀ n : Nat, 0 < n → (2 : ℚ) ^ (n.log2 : Int) ≤ n := fun n hn => by
    rw [zpow_natCast]
    exact_mod_cast Nat.log2_self_le hn.ne'
  have hhigh : ∀ n : Nat, (n : ℚ) < 2 ^ ((n.log2 : Int) + 1) := fun n => by
    have hlt := @Nat.lt_log2_self n
    rw [show ((n.log2 : Int) + 1) = ((n.log2 + 1 : Nat) : Int) by push_cast; rfl, zpow_natCast]
    exact_mod_cast hlt
  have hdenq : (0 : ℚ) < den := by exact_mod_cast hden
  constructor
  · rw [le_div_iff₀ hdenq]
    calc (2 : ℚ) ^ ((num.log2 : Int) - den.log2 - 1) * den
        ≤ 2 ^ ((num.log2 : Int) - den.log2 - 1) * 2 ^ ((den.log2 : Int) + 1) := by
          gcongr
          exact (hhigh den).le
      _ = 2 ^ (num.log2 : Int) := by
          rw [← zpow_add₀ (by norm_num)]
          congr 1
          ring
      _ ≤ num := hlow num hnum
  · rw [div_lt_iff₀ hdenq]
    calc (num : ℚ) < 2 ^ ((num.log2 : Int) + 1) := hhigh num
      _ = 2 ^ ((num.log2 : Int) - den.log2 + 1) * 2 ^ (den.log2 : Int) := by
          rw [← zpow_add₀ (by norm_num)]
          congr 1
          ring
      _ ≤ 2 ^ ((num.log2 : Int) - den.log2 + 1) * den := by
          gcongr
          exact hlow den hden

theorem two_pow_mul_zpow (k : Nat) (e : Int) : (2 : ℚ) ^ k * 2 ^ e = 2 ^ (k + e) := by
  rw [zpow_add₀ (by norm_num), zpow_natCast]

/-- Scaled by the exponent for it, a quotient has as many bits as a significand, or fewer if there
is no lesser exponent. -/
theorem exponentFor_spec (f : Format) (hnum : 0 < num) (hden : 0 < den) :
    f.leastExponent ≤ f.exponentFor num den ∧
      (num : ℚ) / den < 2 ^ (f.fractionBits + 1) * 2 ^ f.exponentFor num den ∧
      (2 ^ f.fractionBits * 2 ^ f.exponentFor num den ≤ (num : ℚ) / den ∨
        f.exponentFor num den = f.leastExponent) := by
  obtain ⟨hlow, hhigh⟩ := quotient_bounds hnum hden
  simp only [exponentFor, Nat.one_shiftLeft]
  generalize hguess : max f.leastExponent ((num.log2 : Int) - den.log2 - f.fractionBits) = guess
  split
  · next hshort =>
      simp only [Bool.and_eq_true, decide_eq_true_eq, scaleDown_div_lt hden] at hshort
      refine ⟨by omega, ?_, .inl ?_⟩
      · refine hshort.1.trans_eq ?_
        rw [two_pow_mul_zpow, two_pow_mul_zpow]
        congr 1
        push_cast
        ring
      · refine le_trans ?_ hlow
        rw [two_pow_mul_zpow]
        exact zpow_le_zpow_right₀ (by norm_num) (by omega)
  · next hlong =>
      simp only [Bool.and_eq_true, decide_eq_true_eq, scaleDown_div_lt hden] at hlong
      refine ⟨by omega, hhigh.trans_le ?_, ?_⟩
      · rw [two_pow_mul_zpow]
        exact zpow_le_zpow_right₀ (by norm_num) (by push_cast; omega)
      · by_cases hleast : f.leastExponent < guess
        · exact .inl (not_lt.mp fun hlt => hlong ⟨hlt, hleast⟩)
        · exact .inr (by omega)

/-- The quotient of a datum, scaled by its exponent, is its significand. -/
theorem scaleDown_datum (hden : 0 < den) (h : (num : ℚ) / den = m * 2 ^ e) :
    (scaleDown num den e).1 = m * (scaleDown num den e).2 := by
  obtain ⟨hd, hq⟩ := scaleDown_eq hden num e
  have hdq : ((scaleDown num den e).2 : ℚ) ≠ 0 := by exact_mod_cast hd.ne'
  rw [h, mul_div_cancel_right₀ _ (by positivity), div_eq_iff hdq] at hq
  exact_mod_cast hq

/-- The exponent for a datum is its own. -/
theorem exponentFor_datum (hdatum : f.IsDatum m e) (hm : 0 < m) (hden : 0 < den)
    (h : (num : ℚ) / den = m * 2 ^ e) : f.exponentFor num den = e := by
  have hpos : (0 : ℚ) < m * 2 ^ e := by positivity
  have hnum : 0 < num := by
    refine Nat.pos_of_ne_zero fun hzero => ?_
    rw [← h, hzero, Nat.cast_zero, zero_div] at hpos
    exact lt_irrefl _ hpos
  obtain ⟨hleast, hlt, hnormal⟩ := f.exponentFor_spec hnum hden
  generalize f.exponentFor num den = E at hleast hlt hnormal
  rw [h, two_pow_mul_zpow] at hlt hnormal
  -- of two exponents, the one that is not the least has its power of two below the number
  have hle : ∀ {a b : Int}, 2 ^ ((f.fractionBits : Int) + a) ≤ (m : ℚ) * 2 ^ e →
      (m : ℚ) * 2 ^ e < 2 ^ (((f.fractionBits + 1 : Nat) : Int) + b) → a ≤ b := fun ha hb => by
    have := (zpow_lt_zpow_iff_right₀ (by norm_num)).mp (ha.trans_lt hb)
    push_cast at this
    omega
  have hlt' : (m : ℚ) * 2 ^ e < 2 ^ (((f.fractionBits + 1 : Nat) : Int) + e) := by
    rw [← two_pow_mul_zpow]
    have hm' : (m : ℚ) < 2 ^ (f.fractionBits + 1) := by exact_mod_cast hdatum.significand_lt
    gcongr
  have hnormal' : 2 ^ ((f.fractionBits : Int) + e) ≤ (m : ℚ) * 2 ^ e ∨ e = f.leastExponent := by
    refine hdatum.normal.imp_left fun hm' => ?_
    rw [← two_pow_mul_zpow]
    have hm' : (2 : ℚ) ^ f.fractionBits ≤ m := by exact_mod_cast hm'
    gcongr
  have hleast' := hdatum.least_le
  apply le_antisymm
  · exact hnormal.elim (hle · hlt') (by omega)
  · exact hnormal'.elim (hle · hlt) (by omega)

/-- A datum is nearest to itself. -/
theorem nearest_of_eq (hdatum : f.IsDatum m e) (hden : 0 < den)
    (h : (num : ℚ) / den = m * 2 ^ e) : f.nearest negative num den = f.assemble negative m e := by
  have hdenq : (den : ℚ) ≠ 0 := by exact_mod_cast hden.ne'
  unfold nearest
  rcases Nat.eq_zero_or_pos m with rfl | hm
  · have hnum : num = 0 := by
      rw [Nat.cast_zero, zero_mul, div_eq_zero_iff] at h
      exact_mod_cast h.resolve_right hdenq
    simp [hnum, assemble, Nat.shiftLeft_eq]
  · have hnum : (num == 0) = false := by
      rw [beq_eq_false_iff_ne]
      rintro rfl
      have hpos : (0 : ℚ) < m * 2 ^ e := by positivity
      simp [← h] at hpos
    simp only [hnum, Bool.false_eq_true, if_false, exponentFor_datum hdatum hm hden h,
      scaleDown_datum hden h, roundQuotient_mul m (scaleDown_eq hden num e).1]

theorem nearestScaled_of_eq {significand : Nat} (hdatum : f.IsDatum m e)
    (h : (significand : ℚ) * 2 ^ exponent = m * 2 ^ e) :
    f.nearestScaled negative significand exponent = f.assemble negative m e := by
  unfold nearestScaled
  split
  · next hneg =>
      refine nearest_of_eq hdatum (by simp only [Nat.shiftLeft_eq]; positivity) ?_
      have hpow : (2 : ℚ) ^ exponent = (2 ^ (-exponent).toNat)⁻¹ := by
        rw [← zpow_natCast, ← zpow_neg]
        congr 1
        omega
      rw [← h, hpow, Nat.shiftLeft_eq, Nat.one_mul, Nat.cast_pow, Nat.cast_ofNat, div_eq_mul_inv]
  · next hpos =>
      refine nearest_of_eq hdatum Nat.one_pos ?_
      have hpow : (2 : ℚ) ^ exponent = 2 ^ exponent.toNat := by
        rw [← zpow_natCast]
        congr 1
        omega
      rw [← h, hpow, Nat.shiftLeft_eq, Nat.cast_mul, Nat.cast_pow, Nat.cast_ofNat, Nat.cast_one,
        div_one]

/-! ## widening -/

/-- A datum of the narrow format is one of the wide format, with another significand. -/
theorem IsDatum.widen (h : single.IsDatum m e) :
    ∃ m' e', double.IsDatum m' e' ∧ (m : ℚ) * 2 ^ e = m' * 2 ^ e' := by
  have hlt : m < 2 ^ 24 := h.significand_lt
  have hleast : -149 ≤ e := h.least_le
  have hgreatest : e + 2 < -149 + 256 := h.exponent_lt
  rcases Nat.eq_zero_or_pos m with rfl | hm
  · exact ⟨0, -1074, ⟨by decide, by decide, by decide, .inr rfl⟩, by simp⟩
  · have hlog : m.log2 < 24 := (Nat.log2_lt hm.ne').mpr hlt
    obtain ⟨k, hk⟩ : ∃ k, m.log2 + k = 52 := ⟨52 - m.log2, by omega⟩
    have hnormal : 2 ^ 52 ≤ m * 2 ^ k := by
      rw [← hk, pow_add]
      exact Nat.mul_le_mul_right _ (Nat.log2_self_le hm.ne')
    have hbounded : m * 2 ^ k < 2 ^ 53 := by
      rw [show 53 = (m.log2 + 1) + k by omega, pow_add]
      exact Nat.mul_lt_mul_of_pos_right Nat.lt_log2_self (by positivity)
    refine ⟨m * 2 ^ k, e - k, ⟨hbounded, ?_, ?_, .inl hnormal⟩, ?_⟩
    · change -1074 ≤ e - k
      omega
    · change e - k + 2 < -1074 + 2048
      omega
    · rw [zpow_sub₀ (by norm_num), zpow_natCast]
      push_cast
      field_simp

end Format

/-! ## the two types -/

/-- The number with one pattern for all NaNs. -/
def Double.plain (x : Double) : Double := if x.datum = .nan then .nan false else x

/-- The number with one pattern for all NaNs. -/
def Single.plain (x : Single) : Single := if x.datum = .nan then .nan false else x

theorem Single.bits_lt (x : Single) : x.bits.toNat < 2 ^ (23 + 8 + 1) := x.bits.toNat_lt

theorem Double.bits_lt (x : Double) : x.bits.toNat < 2 ^ (52 + 11 + 1) := x.bits.toNat_lt

theorem Single.eq_of_toNat {x : Single} (h : n = x.bits.toNat) : (⟨n.toUInt32⟩ : Single) = x := by
  rw [h, Nat.toUInt32_eq, UInt32.ofNat_toNat]

theorem Double.eq_of_toNat {x : Double} (h : n = x.bits.toNat) : (⟨n.toUInt64⟩ : Double) = x := by
  rw [h, Nat.toUInt64_eq, UInt64.ofNat_toNat]

/-- The pattern of a number fits into its type. -/
theorem Double.datum_toUInt64 (negative : Bool) (m : Nat) (e : Int) :
    (⟨(Format.double.assemble negative m e).toUInt64⟩ : Double).datum =
      Format.double.decode (Format.double.assemble negative m e) := by
  have hlt : Format.double.assemble negative m e < 2 ^ 64 := by
    have hsign : Format.double.signBit negative ≤ 2 ^ 63 := by cases negative <;> decide
    have hinfinity : Format.double.infinity false < 2 ^ 63 := by decide
    simp only [Format.assemble]
    omega
  rw [datum, Nat.toUInt64_eq, UInt64.toNat_ofNat_of_lt' hlt]

theorem Double.datum_assemble (h : Format.double.IsDatum m e) (negative : Bool) :
    (⟨(Format.double.assemble negative m e).toUInt64⟩ : Double).datum = .finite negative m e := by
  rw [datum_toUInt64]
  exact Format.decode_assemble h negative

/-- A narrow number is found again in the wide format. -/
theorem Single.narrow_widen (x : Single) (h : x.datum ≠ .nan) : x.widen.narrow = x := by
  cases hx : x.datum with
  | nan => exact absurd hx h
  | infinite negative =>
      have hbits := Format.eq_infinity_of_decode (f := .single) x.bits_lt hx
      have hwide : x.widen.datum = .infinite negative := by
        simp only [widen, hx]
        cases negative <;> decide
      simp only [Double.narrow, hwide]
      exact eq_of_toNat hbits.symm
  | finite negative m e =>
      obtain ⟨hdatum, hbits⟩ := Format.assemble_of_decode (f := .single) (by decide) x.bits_lt hx
      obtain ⟨m', e', hdatum', hvalue⟩ := hdatum.widen
      have hwide : x.widen.datum = .finite negative m' e' := by
        simp only [widen, hx, Format.nearestScaled_of_eq hdatum' hvalue]
        exact Double.datum_assemble hdatum' negative
      simp only [Double.narrow, hwide, Format.nearestScaled_of_eq hdatum hvalue.symm]
      exact eq_of_toNat hbits

theorem Single.narrow_plain_widen (x : Single) : x.widen.plain.narrow = x.plain := by
  unfold Double.plain Single.plain
  by_cases hx : x.datum = .nan
  · have hwide : x.widen.datum = .nan := by
      simp only [widen, hx]
      decide
    rw [if_pos hwide, if_pos hx]
    decide
  · have hwide : x.widen.datum ≠ .nan := by
      -- narrowing a NaN gives a NaN, and narrowing here gives `x`
      intro hwide
      have hnarrow := x.narrow_widen hx
      rw [Double.narrow, hwide] at hnarrow
      exact hx (hnarrow ▸ by decide)
    rw [if_neg hwide, if_neg hx, x.narrow_widen hx]

end Missive
