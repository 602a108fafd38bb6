import Missive.Proofs.Wire.Recognition
import Missive.Proofs.Wire.Safety

/-!
# Missive.Proofs.Wire.Spelling

Variable-length integers on any bytes, and the spelling that is written.

Whatever the bytes are, the reader comes to one of three ends.  It finds a number where they begin
with a spelling of one, and a fault where they begin with ten groups that do not fit
(`IsOverlong`); on all other bytes it comes to their end.  Of the spellings of a number the writer
gives the shortest (`varint_shortest`).
-/

namespace Missive.Wire

/-! ## numbers that do not fit -/

/-- Ten bytes that spell no number of 64 bits: nine with the top bit set, and a tenth that carries
more than the lowest bit. -/
def IsOverlong (bs : List UInt8) : Prop :=
  ∃ gs b, bs = gs ++ [b] ∧ gs.length = 9 ∧ (∀ g ∈ gs, 128 ≤ g) ∧ 1 < b

/-- The reader in the middle of a number that does not fit: `k` groups are read. -/
theorem varintFrom_overlong (hk : k + gs.length = 9) (hgs : ∀ g ∈ gs, 128 ≤ g) (hb : 1 < b)
    (value : Nat) (rest : List UInt8) :
    Read.varintFrom (7 * k) value (gs ++ b :: rest) = .error (.wire .varintOverflow) rest := by
  induction gs generalizing k value with
  | nil =>
      have h9 : k = 9 := by simpa using hk
      simp [Read.varintFrom, h9, hb]
  | cons g gs ih =>
      simp only [List.length_cons, List.forall_mem_cons] at hk hgs
      have hshift : ¬ 7 * k = 63 := by omega
      have hmore : ¬ g < 128 := UInt8.not_lt.mpr hgs.1
      simp only [List.cons_append, Read.varintFrom, hshift, hmore, beq_iff_eq, Bool.and_eq_true,
        false_and, if_false]
      exact ih (k := k + 1) (by omega) hgs.2 _

/-- Where the reader in the middle of a number fails, the number does not fit or the bytes have
come to their end; `k` groups were read before. -/
theorem overlong_of_varintFrom (h : Read.varintFrom (7 * k) value bs = .error e rest)
    (hk : k ≤ 9) :
    (e = .wire .varintOverflow ∧ ∃ gs b, bs = gs ++ b :: rest ∧ k + gs.length = 9 ∧
      (∀ g ∈ gs, 128 ≤ g) ∧ 1 < b) ∨ e = .unexpectedEnd ∧ rest = [] := by
  induction bs generalizing k value with
  | nil =>
      cases h
      exact .inr ⟨rfl, rfl⟩
  | cons b bs ih =>
      rw [Read.varintFrom] at h
      by_cases htop : (7 * k == 63 && decide (1 < b)) = true
      · rw [if_pos htop] at h
        cases h
        simp only [Bool.and_eq_true, beq_iff_eq, decide_eq_true_eq] at htop
        exact .inl ⟨rfl, [], b, rfl, by simp only [List.length_nil]; omega, by simp, htop.2⟩
      · rw [if_neg htop] at h
        by_cases hb : b < 128
        · rw [if_pos hb] at h
          contradiction
        · rw [if_neg hb] at h
          have hb' : 128 ≤ b := UInt8.not_lt.mp hb
          -- A tenth byte with its top bit set has been turned away by the guard.
          have hk' : k + 1 ≤ 9 := by
            by_contra h9
            have h63 : 7 * k = 63 := by omega
            have hone : 1 < b := UInt8.lt_of_lt_of_le (by decide) hb'
            simp [h63, hone] at htop
          obtain ⟨he, gs, c, rfl, hlength, hgs, hc⟩ | hend := ih h hk'
          · exact .inl ⟨he, b :: gs, c, rfl, by simp only [List.length_cons]; omega,
              List.forall_mem_cons.mpr ⟨hb', hgs⟩, hc⟩
          · exact .inr hend

namespace Read

theorem varint_overlong (h : IsOverlong bs) (rest : List UInt8) (pending : Option Kind)
    (frames : List Frame) :
    varint ⟨bs ++ rest, pending, frames⟩ =
      .error (.wire .varintOverflow) ⟨rest, pending, frames⟩ := by
  obtain ⟨gs, b, rfl, hlength, hgs, hb⟩ := h
  have hread := varintFrom_overlong (k := 0) (by omega) hgs hb 0 rest
  simp only [Nat.mul_zero] at hread
  simp [varint, hread]

/-- Where the reader finds no number, it has taken bytes that spell none, or all bytes. -/
theorem overlong_of_varint (h : varint r = .error e r') :
    (e = .wire .varintOverflow ∧
      ∃ bs, IsOverlong bs ∧ r = ⟨bs ++ r'.rest, r'.pending, r'.frames⟩) ∨
      e = .unexpectedEnd ∧ r' = { r with rest := [] } := by
  unfold varint at h
  split at h
  · contradiction
  · next e rest hv =>
      cases h
      obtain ⟨he, gs, b, hrest, hlength, hgs, hb⟩ | ⟨he, rfl⟩ :=
        overlong_of_varintFrom (k := 0) hv (Nat.zero_le _)
      · exact .inl ⟨he, gs ++ [b], ⟨gs, b, rfl, by omega, hgs, hb⟩, by simp [← hrest]⟩
      · exact .inr ⟨he, rfl⟩

theorem varint_eq_ok_iff {r r' : Reader} :
    varint r = .ok n r' ↔ ∃ bs, IsVarint n bs ∧ r = ⟨bs ++ r'.rest, r'.pending, r'.frames⟩ := by
  constructor
  · exact isVarint_of_varint
  · rintro ⟨bs, hbs, rfl⟩
    exact varint_append hbs _ _ _

theorem varint_eq_overflow_iff {r r' : Reader} :
    varint r = .error (.wire .varintOverflow) r' ↔
      ∃ bs, IsOverlong bs ∧ r = ⟨bs ++ r'.rest, r'.pending, r'.frames⟩ := by
  constructor
  · intro h
    obtain ⟨-, hbs⟩ | ⟨he, -⟩ := overlong_of_varint h
    · exact hbs
    · contradiction
  · rintro ⟨bs, hbs, rfl⟩
    exact varint_overlong hbs _ _ _

/-- The bytes come to their end where they begin neither with a number nor with one that does not
fit. -/
theorem varint_eq_unexpectedEnd_iff {r r' : Reader} :
    varint r = .error .unexpectedEnd r' ↔
      (∀ bs, bs <+: r.rest → ¬ IsOverlong bs ∧ ∀ n, ¬ IsVarint n bs) ∧
        r' = { r with rest := [] } := by
  constructor
  · intro h
    constructor
    · rintro bs ⟨rest, hrest⟩
      have hr : r = ⟨bs ++ rest, r.pending, r.frames⟩ := by rw [hrest]
      rw [hr] at h
      constructor
      · intro hbs
        rw [varint_overlong hbs] at h
        simp at h
      · intro n hbs
        rw [varint_append hbs] at h
        contradiction
    · obtain ⟨he, -⟩ | ⟨-, hr'⟩ := overlong_of_varint h
      · contradiction
      · exact hr'
  · rintro ⟨hnone, rfl⟩
    cases h : varint r with
    | ok n r' =>
        obtain ⟨bs, hbs, hr⟩ := isVarint_of_varint h
        exact absurd hbs ((hnone bs (by simp [hr])).2 n)
    | error e r' =>
        obtain ⟨-, bs, hbs, hr⟩ | ⟨rfl, rfl⟩ := overlong_of_varint h
        · exact absurd hbs (hnone bs (by simp [hr])).1
        · rfl

end Read

/-! ## the shortest spelling -/

theorem groups_of_lt (more : Nat) (h : n < 128) : groups more n = [n.toUInt8] := by
  cases more with
  | zero => rfl
  | succ more => simp [groups, h]

/-- Groups spell a number as it is written, unless they go on after its last bit. -/
theorem groups_shortest (hg : IsGroups bs) (more : Nat)
    (hv : groupsValue bs < 128 ^ (more + 1)) :
    bs = groups more (groupsValue bs) ∨ (groups more (groupsValue bs)).length < bs.length := by
  induction hg generalizing more with
  | @last b hb =>
      have hb' : b.toNat < 128 := UInt8.lt_iff_toNat_lt.mp hb
      left
      simp [groupsValue, Nat.mod_eq_of_lt hb', groups_of_lt more hb']
  | @more b rest hb hrest ih =>
      have hb' : 128 ≤ b.toNat := UInt8.le_iff_toNat_le.mp (UInt8.not_lt.mp hb)
      have hlt := b.toNat_lt
      by_cases hzero : groupsValue rest = 0
      · right
        have hpos := hrest.length_pos
        rw [groupsValue, hzero, groups_of_lt more (by omega)]
        simpa using hpos
      · cases more with
        | zero =>
            simp only [groupsValue, Nat.zero_add, pow_one] at hv
            omega
        | succ more =>
            have hrestv : groupsValue rest < 128 ^ (more + 1) := by
              rw [groupsValue, pow_succ] at hv
              omega
            have hhead : ((b.toNat % 128 + 128 * groupsValue rest) % 128 + 128).toUInt8 = b := by
              rw [show (b.toNat % 128 + 128 * groupsValue rest) % 128 + 128 = b.toNat by omega]
              simp
            have htail : (b.toNat % 128 + 128 * groupsValue rest) / 128 = groupsValue rest := by
              omega
            have hlong : ¬ b.toNat % 128 + 128 * groupsValue rest < 128 := by omega
            rw [groupsValue, groups, if_neg hlong, hhead, htail]
            simpa using ih more hrestv

/-- Every spelling of a number but the one that is written is longer. -/
theorem varint_shortest (h : IsVarint n bs) : bs = varint n ∨ (varint n).length < bs.length := by
  have hv : groupsValue bs < 128 ^ (9 + 1) := by
    rw [h.value]
    exact Nat.lt_trans n.toNat_lt (by decide)
  rw [varint, ← h.value]
  exact groups_shortest h.groups 9 hv

/-- **Numbers of variable length are exact.**  On any bytes, the reader finds a number iff they
begin with a spelling of it, which is what it takes; it reports an overflow iff they begin with nine
bytes that go on and a tenth above one, and the end of the bytes iff they begin with neither.  On a
machine the loop is not stopped, its shifts stay within a word, and it comes to the same.  What is
written is the shortest spelling. -/
theorem varints_exact :
    (∀ (r r' : Reader) (n : UInt64), Read.varint r = .ok n r' ↔
      ∃ bs, IsVarint n bs ∧ r = ⟨bs ++ r'.rest, r'.pending, r'.frames⟩) ∧
    (∀ r r' : Reader, Read.varint r = .error (.wire .varintOverflow) r' ↔
      ∃ bs, IsOverlong bs ∧ r = ⟨bs ++ r'.rest, r'.pending, r'.frames⟩) ∧
    (∀ r r' : Reader, Read.varint r = .error .unexpectedEnd r' ↔
      (∀ bs, bs <+: r.rest → ¬ IsOverlong bs ∧ ∀ n, ¬ IsVarint n bs) ∧
        r' = { r with rest := [] }) ∧
    (∀ k : Cursor, k.InBounds → Machine.FollowsAt k Machine.varint Read.varint) ∧
    ∀ n : UInt64, IsVarint n (varint n) ∧
      ∀ bs, IsVarint n bs → bs = varint n ∨ (varint n).length < bs.length :=
  ⟨fun _ _ _ => Read.varint_eq_ok_iff, fun _ _ => Read.varint_eq_overflow_iff,
    fun _ _ => Read.varint_eq_unexpectedEnd_iff,
    fun k hk => Machine.varint_follows k hk (Nat.lt_succ_self _),
    fun n => ⟨isVarint_varint n, fun _ => varint_shortest⟩⟩

/-- At the tenth byte: one is the top bit of the largest number, two is too much, and without it the
bytes have come to their end.  Zero has a longer spelling, which is read as well. -/
theorem varints_exact_tenth :
    Read.varint (.ofBytes (List.replicate 9 0xff ++ [1, 7])) =
      .ok 0xffffffffffffffff (.ofBytes [7]) ∧
    Read.varint (.ofBytes (List.replicate 9 0xff ++ [2, 7])) =
      .error (.wire .varintOverflow) (.ofBytes [7]) ∧
    (∀ bs, bs <+: List.replicate 9 0xff → ¬ IsOverlong bs ∧ ∀ n, ¬ IsVarint n bs) ∧
    Machine.FollowsAt { data := List.replicate 9 0xff ++ [1, 7] } Machine.varint Read.varint ∧
    Read.varint (.ofBytes [0x80, 0]) = .ok 0 (.ofBytes []) ∧ (varint 0).length < 2 := by
  obtain ⟨hok, hoverflow, hend, hmachine, hwritten⟩ := varints_exact
  have htwo : IsOverlong (List.replicate 9 0xff ++ [2]) :=
    ⟨List.replicate 9 0xff, 2, rfl, rfl, by simp, by decide⟩
  have hzero : IsVarint 0 [0x80, 0] := ⟨.more (by decide) (.last (by decide)), rfl, by decide⟩
  have hlonger : [0x80, 0] ≠ varint 0 := by decide
  exact ⟨(hok _ _ _).mpr ⟨_, (hwritten _).1, by decide⟩,
    (hoverflow _ _).mpr ⟨_, htwo, rfl⟩,
    ((hend (.ofBytes (List.replicate 9 0xff)) (.ofBytes [])).mp rfl).1,
    hmachine _ ⟨by decide, by decide⟩, (hok _ _ _).mpr ⟨_, hzero, rfl⟩,
    ((hwritten 0).2 _ hzero).resolve_left hlonger⟩

end Missive.Wire
