import Mathlib
import Missive.Wire.Reader

/-!
# Missive.Proofs.Wire.Varint

Variable-length integers, written and read back.

A number may be spelled by more groups than it needs; `IsVarint n bs` says that `bs` is one of the
spellings of `n`.  The writer gives one of them (`isVarint_varint`), and the reader takes any of
them in front of any suffix (`Read.varint_append`).
-/

namespace Missive.Wire

/-! ## spellings of a number -/

/-- The number that groups of seven bits write, lowest first. -/
def groupsValue : List UInt8 → Nat
  | [] => 0
  | b :: rest => b.toNat % 128 + 128 * groupsValue rest

/-- Bytes that end where a number ends: the top bit is set in all of them but the last. -/
inductive IsGroups : List UInt8 → Prop where
  | last {b : UInt8} (h : b < 128) : IsGroups [b]
  | more {b : UInt8} {rest : List UInt8} (h : ¬ b < 128) (hrest : IsGroups rest) :
      IsGroups (b :: rest)

/-- A spelling of a number of 64 bits. -/
structure IsVarint (n : UInt64) (bs : List UInt8) : Prop where
  groups : IsGroups bs
  value : groupsValue bs = n.toNat
  short : bs.length ≤ 10

theorem IsGroups.length_pos (h : IsGroups bs) : 0 < bs.length := by
  cases h <;> simp

theorem IsVarint.length_pos (h : IsVarint n bs) : 0 < bs.length := h.groups.length_pos

/-- The spelling of a number other than zero does not begin with the end mark. -/
theorem IsVarint.head_ne_zero (h : IsVarint n bs) (hn : n ≠ 0) :
    ∃ b rest, bs = b :: rest ∧ b ≠ 0 := by
  obtain ⟨hg, hv, -⟩ := h
  cases hg with
  | @last b hb =>
      refine ⟨b, [], rfl, fun h0 => hn ?_⟩
      subst h0
      exact UInt64.toNat_inj.mp (by simpa [groupsValue] using hv.symm)
  | @more b rest hb hrest =>
      refine ⟨b, rest, rfl, fun h0 => hb ?_⟩
      subst h0
      decide

/-! ## writing -/

theorem isGroups_groups (more n : Nat) (h : n < 128 ^ (more + 1)) :
    IsGroups (groups more n) := by
  induction more generalizing n with
  | zero =>
      have hn : n < 128 := by simpa using h
      exact .last (by rw [UInt8.lt_iff_toNat_lt]; simp; omega)
  | succ more ih =>
      unfold groups
      split
      · next hn => exact .last (by rw [UInt8.lt_iff_toNat_lt]; simp; omega)
      · next hn =>
          have hq : n / 128 < 128 ^ (more + 1) := by
            rw [Nat.div_lt_iff_lt_mul (by decide)]
            rwa [pow_succ] at h
          refine .more ?_ (ih _ hq)
          rw [UInt8.lt_iff_toNat_lt]
          simp
          omega

theorem groupsValue_groups (more n : Nat) (h : n < 128 ^ (more + 1)) :
    groupsValue (groups more n) = n := by
  induction more generalizing n with
  | zero =>
      have hn : n < 128 := by simpa using h
      simp [groups, groupsValue]
      omega
  | succ more ih =>
      unfold groups
      split
      · next hn => simp [groupsValue]; omega
      · next hn =>
          have hq : n / 128 < 128 ^ (more + 1) := by
            rw [Nat.div_lt_iff_lt_mul (by decide)]
            rwa [pow_succ] at h
          simp only [groupsValue, ih _ hq, Nat.toUInt8_eq, UInt8.toNat_ofNat']
          omega

theorem length_groups_le (more n : Nat) : (groups more n).length ≤ more + 1 := by
  induction more generalizing n with
  | zero => simp [groups]
  | succ more ih =>
      unfold groups
      split
      · simp
      · have := ih (n / 128)
        simp only [List.length_cons]
        omega

/-- What the writer gives is a spelling of the number. -/
theorem isVarint_varint (n : UInt64) : IsVarint n (varint n) := by
  have hn : n.toNat < 128 ^ (9 + 1) := Nat.lt_trans n.toNat_lt (by decide)
  exact ⟨isGroups_groups 9 _ hn, groupsValue_groups 9 _ hn, length_groups_le 9 _⟩

/-! ## reading -/

/-- The reader in the middle of a number: `k` groups are read, and those to come fit. -/
theorem varintFrom_append (hg : IsGroups bs) (k value : Nat) (rest : List UInt8)
    (hk : k + bs.length ≤ 10) (hv : groupsValue bs * 2 ^ (7 * k) < 2 ^ 64) :
    Read.varintFrom (7 * k) value (bs ++ rest) =
      .ok (value + groupsValue bs * 2 ^ (7 * k)) rest := by
  induction hg generalizing k value with
  | @last b hb =>
      have hb' : b.toNat < 128 := UInt8.lt_iff_toNat_lt.mp hb
      have hmod : b.toNat % 128 = b.toNat := Nat.mod_eq_of_lt hb'
      simp only [groupsValue, hmod, Nat.mul_zero, Nat.add_zero] at hv ⊢
      have htop : (7 * k == 63 && decide (1 < b)) = false := by
        rw [Bool.and_eq_false_iff]
        by_cases hs : 7 * k = 63
        · right
          rw [hs] at hv
          rw [decide_eq_false_iff_not, UInt8.lt_iff_toNat_lt]
          simp
          omega
        · left
          simpa using hs
      simp [Read.varintFrom, htop, hb, Nat.shiftLeft_eq]
  | @more b bs hb hbs ih =>
      have hpos := hbs.length_pos
      simp only [List.length_cons] at hk
      have hb' : 128 ≤ b.toNat := by
        rw [UInt8.lt_iff_toNat_lt] at hb
        simpa using hb
      have hlt : b.toNat < 256 := b.toNat_lt
      have htop : (7 * k == 63 && decide (1 < b)) = false := by
        rw [Bool.and_eq_false_iff]
        left
        simp
        omega
      have hmod : b.toNat % 128 = b.toNat - 128 := by omega
      have hpow : 2 ^ (7 * (k + 1)) = 128 * 2 ^ (7 * k) := by
        rw [Nat.mul_add, Nat.pow_add]; ring
      have hsum : groupsValue (b :: bs) * 2 ^ (7 * k) =
          (b.toNat - 128) * 2 ^ (7 * k) + groupsValue bs * 2 ^ (7 * (k + 1)) := by
        rw [groupsValue, hmod, hpow]; ring
      have hv' : groupsValue bs * 2 ^ (7 * (k + 1)) < 2 ^ 64 := by omega
      have hrec := ih (k + 1) (value + (b.toNat - 128) * 2 ^ (7 * k)) (by omega) hv'
      simp only [List.cons_append, Read.varintFrom, htop, Bool.false_eq_true, if_false, hb,
        Nat.shiftLeft_eq]
      rw [Nat.mul_add] at hrec
      rw [hrec, hsum, Nat.mul_add, Nat.add_assoc]

/-- The reader takes any spelling of a number from the front of the bytes. -/
theorem Read.varint_append (h : IsVarint n bs) (rest : List UInt8) (pending : Option Kind)
    (frames : List Frame) :
    Read.varint ⟨bs ++ rest, pending, frames⟩ = .ok n ⟨rest, pending, frames⟩ := by
  obtain ⟨hg, hv, hs⟩ := h
  have hlt : groupsValue bs * 2 ^ (7 * 0) < 2 ^ 64 := by
    have := n.toNat_lt
    simp only [hv, Nat.mul_zero, pow_zero, Nat.mul_one]
    exact this
  have hread := varintFrom_append hg 0 0 rest (by omega) hlt
  simp only [Nat.mul_zero, pow_zero, Nat.mul_one, Nat.zero_add, hv] at hread
  simp [Read.varint, hread]

end Missive.Wire
