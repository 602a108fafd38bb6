import Missive.Proofs.Message.Framing
import Missive.Proofs.Wire.Clock
import Missive.Proofs.Wire.Machine
import Missive.Proofs.Wire.Recognition

/-!
# Missive.Proofs.Wire.Safety

The binary reader on a machine is never stopped, whatever the bytes and the calls.

`Follows n q p` says that the step `q` of the machine, where fewer than `n` bytes are left, is not
stopped, comes to what the step `p` of the reader comes to, and leaves the position where it was or
further on, within the bytes.  Every call follows the call of the reader (`Machine.make_follows`),
and so does a session of calls (`session_safe`).
-/

namespace Missive.Wire

/-! ## bits of a word -/

theorem toNat_and_low (b : UInt8) : (b &&& 0x7f).toNat = b.toNat % 128 := by
  rw [UInt8.toNat_and]
  exact Nat.and_two_pow_sub_one_eq_mod b.toNat 7

theorem and_top_eq_zero_iff (b : UInt8) : b &&& 0x80 = 0 ↔ b < 128 := by
  have hb := b.toNat_lt
  have htop : (b &&& 0x80).toNat = (b.toNat.testBit 7).toNat * 128 := by
    rw [UInt8.toNat_and]
    exact Nat.and_two_pow b.toNat 7
  have hbit : b.toNat.testBit 7 = decide (128 ≤ b.toNat) := by
    rw [Nat.testBit_eq_decide_div_mod_eq]
    exact decide_eq_decide.2 (by omega)
  rw [← UInt8.toNat_inj, htop, hbit, UInt8.lt_iff_toNat_lt]
  by_cases h : 128 ≤ b.toNat
  · simp [h]
  · simp only [h, decide_false, Bool.toNat_false, Nat.zero_mul, UInt8.toNat_ofNat, true_iff]
    omega

/-- Seven bits stay within a word at every place but the last, which has room for one. -/
theorem group_mul_lt (b : UInt8) (hshift : shift ≤ 56 ∨ shift = 63)
    (hlast : shift = 63 → b.toNat ≤ 1) : (b &&& 0x7f).toNat * 2 ^ shift < 2 ^ 64 := by
  rw [toNat_and_low]
  obtain hle | rfl := hshift
  · have hpow : 2 ^ shift ≤ 2 ^ 56 := Nat.pow_le_pow_right (by omega) hle
    have hmul : b.toNat % 128 * 2 ^ shift ≤ 127 * 2 ^ 56 := Nat.mul_le_mul (by omega) hpow
    omega
  · have hone := hlast rfl
    omega

/-- A group of bits above all bits of a number is joined to it by adding. -/
theorem or_shiftLeft (value : UInt64) (group : UInt8) (hvalue : value.toNat < 2 ^ shift)
    (hshift : shift < 64) (hgroup : group.toNat * 2 ^ shift < 2 ^ 64) :
    (value ||| group.toUInt64 <<< shift.toUInt64).toNat =
      value.toNat + group.toNat <<< shift := by
  have hs : shift.toUInt64.toNat % 64 = shift := by
    rw [Nat.toUInt64, UInt64.toNat_ofNat']
    omega
  rw [UInt64.toNat_or, UInt64.toNat_shiftLeft, hs, UInt8.toNat_toUInt64, Nat.shiftLeft_eq,
    Nat.mod_eq_of_lt hgroup, Nat.or_comm, Nat.add_comm, Nat.mul_comm]
  exact (Nat.two_pow_add_eq_or_of_lt hvalue group.toNat).symm

/-- A folded number is unfolded by its lowest bit, which flips the others. -/
theorem shift_xor_neg (v : BitVec w) (hw : 0 < w) :
    (v >>> 1) ^^^ -(v &&& 1#w) = .ofInt w (unzigzag v.toNat) := by
  have hhalf : v >>> 1 = .ofInt w (v.toNat / 2 : Nat) := by
    apply BitVec.eq_of_toNat_eq
    have hv := v.isLt
    rw [BitVec.toNat_ushiftRight, Nat.shiftRight_eq_div_pow, BitVec.ofInt_natCast,
      BitVec.toNat_ofNat, Nat.mod_eq_of_lt (by omega)]
  have hlow : v &&& 1#w = .ofNat w (v.toNat % 2) := by
    apply BitVec.eq_of_toNat_eq
    have hone : 1 < 2 ^ w := Nat.one_lt_two_pow hw.ne'
    have hmod : v.toNat % 2 < 2 ^ w := by omega
    rw [BitVec.toNat_and, BitVec.toNat_ofNat, BitVec.toNat_ofNat, Nat.mod_eq_of_lt hone,
      Nat.and_one_is_mod, Nat.mod_eq_of_lt hmod]
  rw [hhalf, hlow, unzigzag]
  by_cases h : v.toNat % 2 = 0
  · simp [h]
  · rw [show v.toNat % 2 = 1 by omega, BitVec.neg_one_eq_allOnes, BitVec.xor_allOnes,
      BitVec.not_eq_neg_add, if_neg (by decide), Int.sub_eq_add_neg, BitVec.ofInt_add,
      BitVec.ofInt_neg, BitVec.ofInt_neg, BitVec.sub_eq_add_neg]
    rfl

/-! ## cursors -/

namespace Cursor

variable {k k' k'' : Cursor}

/-- The reader at the position of a cursor. -/
def reader (k : Cursor) : Reader := ⟨k.data.drop k.position, k.pending, k.frames⟩

/-- The position lies within the bytes, and a word can count them. -/
structure InBounds (k : Cursor) : Prop where
  inside : k.position ≤ k.data.length
  size : k.data.length < UInt64.size

/-- The bytes are the same; the position is no earlier, and not past their end. -/
structure Onward (k k' : Cursor) : Prop where
  data : k'.data = k.data
  forward : k.position ≤ k'.position
  inside : k'.position ≤ k.data.length

theorem Onward.trans (h : k.Onward k') (h' : k'.Onward k'') : k.Onward k'' where
  data := h'.data.trans h.data
  forward := h.forward.trans h'.forward
  inside := h.data ▸ h'.inside

instance : IsTrans Cursor Onward where
  trans _ _ _ := Onward.trans

theorem Onward.length_le (h : k.Onward k') :
    k'.reader.rest.length ≤ k.reader.rest.length := by
  have hforward := h.forward
  simp only [reader, List.length_drop, h.data]
  omega

theorem InBounds.onward (hk : k.InBounds) (h : k.Onward k') : k'.InBounds where
  inside := h.data ▸ h.inside
  size := h.data ▸ hk.size

/-- A cursor that only its pending kind and its frames tell from another is at the same place. -/
theorem InBounds.stays (hk : k.InBounds) (hdata : k'.data = k.data)
    (hposition : k'.position = k.position) : k.Onward k' where
  data := hdata
  forward := hposition ▸ Nat.le_refl _
  inside := hposition ▸ hk.inside

theorem reader_cons (h : k.data[k.position]? = some b) :
    k.reader.rest = b :: k.data.drop (k.position + 1) := by
  obtain ⟨hlt, rfl⟩ := List.getElem?_eq_some_iff.1 h
  exact List.drop_eq_getElem_cons hlt

theorem reader_nil (h : k.data[k.position]? = none) : k.reader.rest = [] :=
  List.drop_eq_nil_of_le (List.getElem?_eq_none_iff.1 h)

end Cursor

namespace Read

/-- The groups of a variable-length integer from the bit `shift` on. -/
def groupsFrom (shift value : Nat) : Read UInt64 := fun r =>
  match varintFrom shift value r.rest with
  | .ok n rest => .ok n.toUInt64 { r with rest }
  | .error e rest => .error e { r with rest }

theorem groupsFrom_eq (shift value : Nat) :
    groupsFrom shift value = (do
      let b ← byte
      if shift == 63 && 1 < b then fault .varintOverflow
      else if b < 128 then return (value + b.toNat <<< shift).toUInt64
      else groupsFrom (shift + 7) (value + (b.toNat - 128) <<< shift)) := by
  funext ⟨rest, pending, frames⟩
  cases rest with
  | nil => rfl
  | cons b rest =>
      have hbyte : byte ⟨b :: rest, pending, frames⟩ = .ok b ⟨rest, pending, frames⟩ := rfl
      rw [bind_of_ok _ hbyte, groupsFrom, varintFrom]
      by_cases hover : (shift == 63 && 1 < b) = true
      · rw [if_pos hover, if_pos hover]
        rfl
      · rw [if_neg hover, if_neg hover]
        by_cases hlast : b < 128
        · rw [if_pos hlast, if_pos hlast]
          rfl
        · rw [if_neg hlast, if_neg hlast]
          rfl

/-- An object that has just been opened is left without looking for it. -/
theorem pushFrame_endObject :
    (do pushFrame .object; endObject) = (do pushFrame .object; closeObject skipValue) := rfl

/-- An array that has just been opened is left without looking for it. -/
theorem openArray_endArray : (do openArray; endArray) = (do openArray; closeArray skipValue) := by
  funext r
  cases h : openArray r with
  | error e r' => rw [bind_of_error _ h, bind_of_error _ h]
  | ok u r' =>
      obtain ⟨_, kind, count, hf⟩ := openArray_ok h
      rw [bind_of_ok _ h, bind_of_ok _ h, endArray, get_bind, hf]

end Read

namespace Machine

/-! ## steps that are not stopped -/

/-- What comes of a step, as the reader sees it. -/
def seen : EStateM.Result ReadError Cursor α → EStateM.Result ReadError Reader α
  | .ok a k => .ok a k.reader
  | .error e k => .error e k.reader

theorem outcome_seen (result : EStateM.Result ReadError Cursor α) :
    outcome (seen result) = outcome result := by
  cases result <;> rfl

theorem left_seen (result : EStateM.Result ReadError Cursor α) :
    left (seen result) = (left result).reader := by
  cases result <;> rfl

/-- A step at a cursor is not stopped, comes to what a step of the reader comes to, and moves the
cursor onward. -/
def FollowsAt (k : Cursor) (q : Machine α) (p : Read α) : Prop :=
  ∃ result, q k = .ok result ∧ seen result = p k.reader ∧ k.Onward (left result)

/-- A step follows a step of the reader where fewer than `n` bytes are left. -/
def Follows (n : Nat) (q : Machine α) (p : Read α) : Prop :=
  ∀ k : Cursor, k.InBounds → k.reader.rest.length < n → FollowsAt k q p

namespace FollowsAt

variable {k : Cursor}

theorem pure (hk : k.InBounds) (a : α) : FollowsAt k (Pure.pure a) (Pure.pure a) :=
  ⟨.ok a k, rfl, rfl, hk.stays rfl rfl⟩

theorem fail (hk : k.InBounds) (e : ReadError) :
    FollowsAt k (Machine.fail e : Machine α) (throw e) :=
  ⟨.error e k, rfl, rfl, hk.stays rfl rfl⟩

/-- What follows has to be shown only where the first step can lead. -/
theorem andThen {q : Machine α} {g : α → Machine β} {p : Read α} {f : α → Read β}
    (h : FollowsAt k q p)
    (hf : ∀ a k', p k.reader = .ok a k'.reader → k.Onward k' → FollowsAt k' (g a) (f a)) :
    FollowsAt k (q >>= g) (p >>= f) := by
  obtain ⟨result, hq, hp, ho⟩ := h
  cases result with
  | error e k' =>
      refine ⟨.error e k', ?_, (bind_of_error f hp.symm).symm, ho⟩
      simp only [bind, hq]
  | ok a k' =>
      obtain ⟨result, hg, hresult, ho'⟩ := hf a k' hp.symm ho
      refine ⟨result, ?_, hresult.trans (bind_of_ok f hp.symm).symm, ho.trans ho'⟩
      simpa only [bind, hq] using hg

end FollowsAt

namespace Follows

theorem pure (n : Nat) (a : α) : Follows n (Pure.pure a) (Pure.pure a) := fun _ hk _ => .pure hk a

theorem fail (n : Nat) (e : ReadError) : Follows n (Machine.fail e : Machine α) (throw e) :=
  fun _ hk _ => .fail hk e

theorem fault (n : Nat) (f : WireFault) : Follows n (Machine.fault f : Machine α) (Read.fault f) :=
  .fail n _

theorem mono {q : Machine α} {p : Read α} (h : Follows n q p) (hle : m ≤ n) : Follows m q p :=
  fun k hk hlt => h k hk (by omega)

theorem bind {q : Machine α} {g : α → Machine β} {p : Read α} {f : α → Read β}
    (h : Follows n q p) (hf : ∀ a, Follows n (g a) (f a)) : Follows n (q >>= g) (p >>= f) := by
  refine fun k hk hlt => (h k hk hlt).andThen fun a k' _ ho => hf a k' (hk.onward ho) ?_
  have hle := ho.length_le
  omega

/-- A step that reads a byte leaves one byte less to what follows. -/
theorem after {q : Machine α} {g : α → Machine β} {p : Read α} {f : α → Read β}
    (h : Follows (n + 1) q p) (hp : Consumes 1 p) (hf : ∀ a, Follows n (g a) (f a)) :
    Follows (n + 1) (q >>= g) (p >>= f) := by
  refine fun k hk hlt => (h k hk hlt).andThen fun a k' hstep ho => hf a k' (hk.onward ho) ?_
  have hle := hp _ a _ hstep
  omega

theorem cursor_bind {g : Cursor → Machine β} {f : Reader → Read β}
    (hf : ∀ k : Cursor, k.InBounds → k.reader.rest.length < n → FollowsAt k (g k) (f k.reader)) :
    Follows n (cursor >>= g) (get >>= f) := fun k hk hlt => hf k hk hlt

theorem change {g : Cursor → Cursor} {f : Reader → Reader} (hdata : ∀ k, (g k).data = k.data)
    (hposition : ∀ k, (g k).position = k.position) (h : ∀ k, (g k).reader = f k.reader) :
    Follows n (change g) (modify f) := fun k hk _ =>
  ⟨.ok () (g k), rfl, congrArg (EStateM.Result.ok ()) (h k), hk.stays (hdata k) (hposition k)⟩

end Follows

/-! ## bytes -/

theorem byte_follows : Follows n byte Read.byte := by
  intro k hk _
  have hinside := hk.inside
  have hsize := hk.size
  cases h : k.data[k.position]? with
  | none =>
      refine ⟨.error .unexpectedEnd k, ?_, ?_, hk.stays rfl rfl⟩
      · simp only [byte, bind, cursor, h, fail]
      · simp only [Read.byte, Cursor.reader_nil h, seen]
  | some b =>
      obtain ⟨hlt, _⟩ := List.getElem?_eq_some_iff.1 h
      have hadd : add k.position 1 = Pure.pure (k.position + 1) := by
        simp only [add, checkedAdd, if_pos (show k.position + 1 < UInt64.size by omega)]
      refine ⟨.ok b { k with position := k.position + 1 }, ?_, ?_, rfl, by simp [left], hlt⟩
      · simp only [byte, bind, cursor, h, hadd, Machine.change, Pure.pure]
      · simp only [Read.byte, Cursor.reader_cons h, seen]
        rfl

theorem peekByte_follows : Follows n peekByte Read.peekByte := by
  intro k hk _
  cases h : k.data[k.position]? with
  | none =>
      refine ⟨.error .unexpectedEnd k, ?_, ?_, hk.stays rfl rfl⟩
      · simp only [peekByte, bind, cursor, h, fail]
      · simp only [Read.peekByte, Cursor.reader_nil h, seen]
  | some b =>
      refine ⟨.ok b k, ?_, ?_, hk.stays rfl rfl⟩
      · simp only [peekByte, bind, cursor, h, Pure.pure]
      · simp only [Read.peekByte, Cursor.reader_cons h, seen]

/-- Bytes that are not there are asked for without leaving the words. -/
theorem take_follows (count : Nat) : Follows n (take count) (Read.take count) := by
  intro k hk _
  have hinside := hk.inside
  have hsize := hk.size
  have hlength : k.reader.rest.length = k.data.length - k.position := List.length_drop
  by_cases h : count ≤ k.reader.rest.length
  · have hend : (checkedAdd k.position count).filter (· ≤ k.data.length) =
        some (k.position + count) := by
      rw [checkedAdd, if_pos (by omega)]
      simp only [Option.filter_some, decide_eq_true_eq]
      exact if_pos (by omega)
    refine ⟨.ok ((k.data.drop k.position).take count) { k with position := k.position + count },
      ?_, ?_, rfl, by simp [left], by simp only [left]; omega⟩
    · have hslice : slice k.data k.position (k.position + count) =
          Pure.pure ((k.data.drop k.position).take count) := by
        rw [slice, if_pos (by omega), Nat.add_sub_cancel_left]
      simp only [take, bind, cursor, hend, hslice, Machine.change, Pure.pure]
    · rw [Read.take, if_pos h]
      simp only [seen, Cursor.reader, List.drop_drop]
  · have hend : (checkedAdd k.position count).filter (· ≤ k.data.length) = none := by
      rw [Option.filter_eq_none_iff]
      intro stop hstop
      rw [checkedAdd] at hstop
      split at hstop
      · cases hstop
        simp only [decide_eq_true_eq]
        omega
      · contradiction
    refine ⟨.error .unexpectedEnd k, ?_, ?_, hk.stays rfl rfl⟩
    · simp only [take, bind, cursor, hend, fail]
    · simp only [Read.take, if_neg h, seen]

theorem fixed_follows (count : Nat) : Follows n (fixed count) (Read.fixed count) := by
  intro k hk hlt
  refine (take_follows count k hk hlt).andThen fun bytes k' hbytes ho => ?_
  rw [if_pos (Read.take_ok hbytes).1]
  exact .pure (hk.onward ho) _

/-- Up to the tenth group no shift reaches the width of a word, and no group loses a bit. -/
theorem varintFrom_follows {acc : UInt64} (hclock : shift + 7 * clock = 70) (hpos : 0 < clock)
    (hacc : acc.toNat < 2 ^ shift) :
    Follows n (varintFrom clock shift acc) (Read.groupsFrom shift acc.toNat) := by
  induction clock generalizing shift acc with
  | zero => omega
  | succ clock ih =>
      rw [Read.groupsFrom_eq, varintFrom]
      refine byte_follows.bind fun b => ?_
      have hb := b.toNat_lt
      by_cases hover : (shift == 63 && 1 < b) = true
      · rw [if_pos hover, if_pos hover]
        exact .fail n _
      · rw [if_neg hover, if_neg hover]
        simp only [Bool.and_eq_true, beq_iff_eq, decide_eq_true_eq, not_and, UInt8.lt_iff_toNat_lt]
          at hover
        have hlow := toNat_and_low b
        have hgroup : (b &&& 0x7f).toNat * 2 ^ shift < 2 ^ 64 :=
          group_mul_lt b (by omega) fun htop => by simpa using hover htop
        have hjoin := or_shiftLeft acc (b &&& 0x7f) hacc (by omega) hgroup
        rw [show shiftLeft (b &&& 0x7f).toUInt64 shift = _ from if_pos (by omega)]
        change Follows n (if b &&& 0x80 == 0 then _ else _) _
        by_cases hlast : b < 128
        · have hb' : b.toNat < 128 := UInt8.lt_iff_toNat_lt.1 hlast
          rw [if_pos (beq_iff_eq.2 ((and_top_eq_zero_iff b).2 hlast)), if_pos hlast,
            ← Nat.mod_eq_of_lt hb', ← hlow, ← hjoin, Nat.toUInt64, UInt64.ofNat_toNat]
          exact .pure n _
        · have hb' : 128 ≤ b.toNat := UInt8.le_iff_toNat_le.1 (UInt8.not_lt.1 hlast)
          have hsub : b.toNat - 128 = b.toNat % 128 := by omega
          have hmore : 0 < clock := by
            by_contra
            have hone := hover (by omega)
            simp at hone
            omega
          rw [if_neg (by simpa using mt (and_top_eq_zero_iff b).1 hlast), if_neg hlast, hsub,
            ← hlow, ← hjoin]
          refine ih (by omega) hmore ?_
          have hmul : b.toNat % 128 * 2 ^ shift ≤ 127 * 2 ^ shift :=
            Nat.mul_le_mul_right _ (by omega)
          rw [hjoin, hlow, Nat.shiftLeft_eq, Nat.pow_add]
          omega

theorem varint_follows : Follows n varint Read.varint :=
  varintFrom_follows (by omega) (by omega) (by decide)

theorem lengthPrefixed_follows : Follows n lengthPrefixed Read.lengthPrefixed :=
  varint_follows.bind fun _ => take_follows _

/-! ## headers and containers -/

/-- An array counts down only as long as elements remain. -/
theorem valueKind_follows : Follows n valueKind Read.valueKind := by
  intro k hk _
  match hp : k.pending, hf : k.frames with
  | some kind, frames =>
      refine ⟨.ok (some kind) { k with pending := none }, ?_, ?_, hk.stays rfl rfl⟩
      · simp only [valueKind, bind, cursor, hp, Machine.change, Pure.pure]
      · simp only [Read.valueKind, Cursor.reader, hp, seen]
  | none, [] =>
      refine ⟨.ok none k, ?_, ?_, hk.stays rfl rfl⟩
      · simp only [valueKind, bind, cursor, hp, hf, Pure.pure]
      · simp only [Read.valueKind, Cursor.reader, hp, hf, seen]
  | none, .object :: frames =>
      refine ⟨.error (.wire .missingHeader) k, ?_, ?_, hk.stays rfl rfl⟩
      · simp only [valueKind, bind, cursor, hp, hf, fault, fail]
      · simp only [Read.valueKind, Cursor.reader, hp, hf, seen]
  | none, .array kind 0 :: frames =>
      refine ⟨.error (.wire .pastArrayEnd) k, ?_, ?_, hk.stays rfl rfl⟩
      · simp [valueKind, bind, cursor, hp, hf, fault, fail]
      · simp [Read.valueKind, Cursor.reader, hp, hf, seen]
  | none, .array kind (remaining + 1) :: frames =>
      refine ⟨.ok (some kind) { k with frames := .array kind remaining :: frames }, ?_, ?_,
        hk.stays rfl rfl⟩
      · simp [valueKind, bind, cursor, hp, hf, subtract, Machine.change, Pure.pure]
      · simp [Read.valueKind, Cursor.reader, hp, hf, seen]

theorem expect_follows (kind : Kind) : Follows n (expect kind) (Read.expect kind) := by
  refine valueKind_follows.bind fun found => ?_
  cases found with
  | none => exact .pure n ()
  | some found =>
      by_cases h : (found == kind) = true
      · simpa only [if_pos h] using .pure n ()
      · simpa only [if_neg h] using .fault n _

theorem pushFrame_follows (frame : Frame) : Follows n (pushFrame frame) (Read.pushFrame frame) :=
  .change (fun _ => rfl) (fun _ => rfl) fun _ => rfl

theorem popFrame_follows : Follows n popFrame Read.popFrame :=
  .change (fun _ => rfl) (fun _ => rfl) fun _ => rfl

theorem hasNext_follows : Follows n hasNext Read.hasNext := by
  have hpeek : Follows n (do return (← peekByte) != 0) (do return (← Read.peekByte) != 0) :=
    peekByte_follows.bind fun _ => .pure n _
  refine .cursor_bind fun k hk hlt => ?_
  match hf : k.frames with
  | [] | .array _ _ :: _ => simpa only [Cursor.reader, hf] using .pure hk _
  | .object :: _ => simpa only [Cursor.reader, hf] using hpeek k hk hlt

theorem nextName_follows : Follows n nextName Read.nextName := by
  refine .cursor_bind fun k hk hlt => ?_
  match hf : k.frames with
  | [] | .array _ _ :: _ => simpa only [Cursor.reader, hf] using .fail hk _
  | .object :: _ =>
      simp only [Cursor.reader, hf]
      refine (varint_follows k hk hlt).andThen fun header k' _ ho => ?_
      have hk' := hk.onward ho
      cases Kind.ofCode? (header.toNat % 16) with
      | none => exact .fail hk' _
      | some kind =>
          by_cases hrange : UInt32.size ≤ header.toNat / 16
          · simpa only [if_pos hrange] using .fail hk' _
          · simp only [if_neg hrange]
            exact ⟨.ok _ { k' with pending := some kind }, rfl, rfl, hk'.stays rfl rfl⟩

theorem beginObject_follows : Follows n beginObject Read.beginObject :=
  (expect_follows _).bind fun _ => pushFrame_follows _

theorem openArray_follows : Follows n openArray Read.openArray := by
  refine byte_follows.bind fun code => ?_
  cases Kind.ofCode? code.toNat with
  | none => exact .fault n _
  | some kind => exact varint_follows.bind fun _ => pushFrame_follows _

theorem beginArray_follows : Follows n beginArray Read.beginArray :=
  (expect_follows _).bind fun _ => openArray_follows

/-! ## skipping -/

/-- A loop ends if its clock exceeds the bytes that are left: every step reads one. -/
theorem whileNext_follows {step : Machine Unit} {step' : Read Unit} (hs : Consumes 1 step')
    (h : Follows n step step') (hle : n ≤ clock) :
    Follows n (whileNext step clock) (Read.whileNext (fun _ => step') ()) := by
  induction clock generalizing n with
  | zero => intro k _ hlt; omega
  | succ clock ih =>
      rw [Read.whileNext_unfold fun _ => hs]
      refine hasNext_follows.bind fun more => ?_
      cases more with
      | false => exact .pure n ()
      | true =>
          intro k hk hlt
          refine (h k hk hlt).andThen fun _ k' hstep ho => ?_
          have hless := hs _ _ _ hstep
          exact ih (h.mono (Nat.sub_le n 1)) (by omega) k' (hk.onward ho) (by omega)

variable {skip : Machine Unit} {skip' : Read Unit}

theorem skipFields_follows (hs : Consumes 0 skip') (h : Follows n skip skip')
    (hle : n + 1 ≤ clock) :
    Follows (n + 1) (skipFields skip clock)
      (Read.whileNext (fun _ => do let _ ← Read.nextName; skip') ()) :=
  whileNext_follows (Read.nextName_consumes.bind fun _ => hs)
    (nextName_follows.after Read.nextName_consumes fun _ => h) hle

theorem leaveObject_follows (hs : Consumes 0 skip') (h : Follows n skip skip')
    (hle : n + 1 ≤ clock) :
    Follows (n + 1) (leaveObject skip clock) (do
      match (← get).frames with
      | .object :: _ => Read.closeObject skip'
      | _ => Read.fault .objectEndOutside) := by
  have hclose : Follows (n + 1) (do skipFields skip clock; popFrame; let _ ← byte)
      (Read.closeObject skip') :=
    (skipFields_follows hs h hle).bind fun _ =>
      popFrame_follows.bind fun _ => byte_follows.bind fun _ => .pure _ ()
  refine .cursor_bind fun k hk hlt => ?_
  match hf : k.frames with
  | [] | .array _ _ :: _ => simpa only [Cursor.reader, hf] using .fail hk _
  | .object :: _ => simpa only [Cursor.reader, hf] using hclose k hk hlt

theorem leaveArray_follows (hs : Consumes 1 skip') (h : Follows n skip skip') (hle : n ≤ clock) :
    Follows n (leaveArray skip clock) (do
      match (← get).frames with
      | .array .. :: _ => Read.closeArray skip'
      | _ => Read.fault .arrayEndOutside) := by
  have hmark : ∀ mark : UInt8,
      Follows n (if mark == 0 then return () else fault (.arrayEndExpected mark))
        (if mark == 0 then return () else Read.fault (.arrayEndExpected mark)) := by
    intro mark
    split
    · exact .pure n ()
    · exact .fault n _
  have hclose : Follows n
      (do
        whileNext skip clock
        popFrame
        let mark ← byte
        if mark == 0 then return () else fault (.arrayEndExpected mark))
      (Read.closeArray skip') :=
    (whileNext_follows hs h hle).bind fun _ => popFrame_follows.bind fun _ =>
      byte_follows.bind hmark
  refine .cursor_bind fun k hk hlt => ?_
  match hf : k.frames with
  | [] | .object :: _ => simpa only [Cursor.reader, hf] using .fail hk _
  | .array _ _ :: _ => simpa only [Cursor.reader, hf] using hclose k hk hlt

/-- Skipping ends if the clock exceeds the bytes that are left. -/
theorem skipValue_follows (clock : Nat) : Follows clock (skipValue clock) Read.skipValue := by
  -- a value inside another lies after at least one byte: the header of a field, or the element kind
  -- of an array
  induction clock with
  | zero => intro k _ hlt; omega
  | succ clock ih =>
      have hskip := Read.skipValue_consumes
      rw [Read.skipValue_unfold, skipValue]
      refine valueKind_follows.bind fun kind => ?_
      match kind with
      | none => exact .fault _ _
      | some .int | some .sint | some .long | some .slong =>
          exact varint_follows.bind fun _ => .pure _ ()
      | some .fint | some .float => exact (take_follows 4).bind fun _ => .pure _ ()
      | some .flong | some .double => exact (take_follows 8).bind fun _ => .pure _ ()
      | some .string | some .binary => exact lengthPrefixed_follows.bind fun _ => .pure _ ()
      | some .object =>
          change Follows _ _ (do Read.pushFrame .object; Read.closeObject Read.skipValue)
          rw [← Read.pushFrame_endObject]
          exact (pushFrame_follows _).bind fun _ =>
            leaveObject_follows (hskip.mono (Nat.zero_le _)) ih (Nat.le_refl _)
      | some .array =>
          change Follows _ _ (do Read.openArray; Read.closeArray Read.skipValue)
          rw [← Read.openArray_endArray]
          exact openArray_follows.after Read.openArray_consumes fun _ =>
            leaveArray_follows hskip ih (Nat.le_refl _)

theorem endObject_follows (clock : Nat) :
    Follows clock (leaveObject (skipValue clock) clock) Read.endObject := by
  intro k hk hlt
  have hskip := (skipValue_follows clock).mono (Nat.sub_le clock 1)
  exact leaveObject_follows (Read.skipValue_consumes.mono (Nat.zero_le _)) hskip
    (show clock - 1 + 1 ≤ clock by omega) k hk (by omega)

theorem endArray_follows (clock : Nat) :
    Follows clock (leaveArray (skipValue clock) clock) Read.endArray :=
  leaveArray_follows Read.skipValue_consumes (skipValue_follows clock) (Nat.le_refl _)

theorem skipRemaining_follows (clock : Nat) :
    Follows clock (skipFields (skipValue clock) clock) Read.skipRemaining := by
  intro k hk hlt
  have hskip := (skipValue_follows clock).mono (Nat.sub_le clock 1)
  exact skipFields_follows (Read.skipValue_consumes.mono (Nat.zero_le _)) hskip
    (show clock - 1 + 1 ≤ clock by omega) k hk (by omega)

/-! ## values -/

/-- The lowest bit of a number has a negative. -/
theorem unfoldInt_follows (v : UInt32) :
    Follows n (unfoldInt v) (pure (.ofInt (unzigzag v.toNat))) := by
  have hne : (v &&& 1).toInt32 ≠ .minValue := by
    intro h
    have htop : v &&& 1 = 0x80000000 := congrArg Int32.toUInt32 h
    have hle : (v &&& 1).toNat ≤ 1 := UInt32.toNat_and v 1 ▸ Nat.and_le_right
    simp [htop] at hle
  have hunfold : (v >>> 1).toInt32 ^^^ -(v &&& 1).toInt32 = .ofInt (unzigzag v.toNat) :=
    Int32.toBitVec_inj.1 (shift_xor_neg v.toBitVec (by decide))
  rw [unfoldInt, negateInt, if_neg hne, ← hunfold]
  exact .pure n _

theorem unfoldLong_follows (v : UInt64) :
    Follows n (unfoldLong v) (pure (.ofInt (unzigzag v.toNat))) := by
  have hne : (v &&& 1).toInt64 ≠ .minValue := by
    intro h
    have htop : v &&& 1 = 0x8000000000000000 := congrArg Int64.toUInt64 h
    have hle : (v &&& 1).toNat ≤ 1 := UInt64.toNat_and v 1 ▸ Nat.and_le_right
    simp [htop] at hle
  have hunfold : (v >>> 1).toInt64 ^^^ -(v &&& 1).toInt64 = .ofInt (unzigzag v.toNat) :=
    Int64.toBitVec_inj.1 (shift_xor_neg v.toBitVec (by decide))
  rw [unfoldLong, negateLong, if_neg hne, ← hunfold]
  exact .pure n _

theorem value_follows (type : Primitive) : Follows n (value type) type.read := by
  cases type with
  | bool | int32 | uint32 | int64 | uint64 =>
      simp only [Primitive.read, Read.bool, Read.int, Read.uint, Read.long, Read.ulong,
        map_eq_pure_bind, bind_assoc, pure_bind]
      exact (expect_follows _).bind fun _ => varint_follows.bind fun _ => .pure n _
  | fixed32 | sfixed32 | float =>
      simp only [Primitive.read, Read.fixedInt, Read.sfixedInt, Read.float, map_eq_pure_bind,
        bind_assoc, pure_bind]
      exact (expect_follows _).bind fun _ => (fixed_follows 4).bind fun _ => .pure n _
  | fixed64 | sfixed64 | double =>
      simp only [Primitive.read, Read.fixedLong, Read.sfixedLong, Read.double, map_eq_pure_bind,
        bind_assoc, pure_bind]
      exact (expect_follows _).bind fun _ => (fixed_follows 8).bind fun _ => .pure n _
  | sint32 =>
      simp only [Primitive.read, Read.sint, map_eq_pure_bind, bind_assoc]
      exact (expect_follows _).bind fun _ => varint_follows.bind fun v =>
        (unfoldInt_follows _).bind fun _ => .pure n _
  | sint64 =>
      simp only [Primitive.read, Read.slong, map_eq_pure_bind, bind_assoc]
      exact (expect_follows _).bind fun _ => varint_follows.bind fun v =>
        (unfoldLong_follows _).bind fun _ => .pure n _
  | bytes =>
      simp only [Primitive.read, Read.binary, map_eq_pure_bind, bind_assoc]
      exact (expect_follows _).bind fun _ => lengthPrefixed_follows.bind fun _ => .pure n _
  | string =>
      simp only [Primitive.read, Read.string, map_eq_pure_bind, bind_assoc]
      refine (expect_follows _).bind fun _ => lengthPrefixed_follows.bind fun bytes => ?_
      cases Utf8.decode? bytes with
      | some s => exact .pure n _
      | none => exact .fault n _

theorem typeId_follows : Follows n typeId Read.typeId := by
  refine hasNext_follows.bind fun more => ?_
  cases more with
  | false => exact .fail n _
  | true =>
      refine nextName_follows.bind fun tag => ?_
      by_cases h : (tag == 0) = true
      · rw [if_pos h, if_pos h]
        exact (expect_follows _).bind fun _ => varint_follows.bind fun _ => .pure n _
      · rw [if_neg h, if_neg h]
        exact .fail n _

/-! ## calls -/

/-- A call follows the call of the reader if the clock exceeds the bytes that are left. -/
theorem make_follows (clock : Nat) (call : Call) : Follows clock (make clock call) call.make := by
  cases call with
  | isFinished =>
      refine .cursor_bind fun k hk _ => ?_
      have hflag : k.reader.isFinished = decide (k.data.length ≤ k.position) := by
        rw [Bool.eq_iff_iff]
        simp [Reader.isFinished, Cursor.reader]
      simpa only [hflag] using .pure hk _
  | beginObject => exact beginObject_follows.bind fun _ => .pure _ _
  | endObject => exact (endObject_follows clock).bind fun _ => .pure _ _
  | beginArray => exact beginArray_follows.bind fun _ => .pure _ _
  | endArray => exact (endArray_follows clock).bind fun _ => .pure _ _
  | hasNext => exact hasNext_follows.bind fun _ => .pure _ _
  | nextName => exact nextName_follows.bind fun _ => .pure _ _
  | skipValue => exact (skipValue_follows clock).bind fun _ => .pure _ _
  | skipRemaining => exact (skipRemaining_follows clock).bind fun _ => .pure _ _
  | typeId => exact typeId_follows.bind fun _ => .pure _ _
  | value type => exact (value_follows type).bind fun _ => .pure _ _

/-- The states that calls leave: every one comes onward from the one before it. -/
theorem session_follows (calls : List Call) {k : Cursor} (hk : k.InBounds)
    (hclock : k.reader.rest.length < clock) :
    ∃ steps, session clock calls k = .ok steps ∧
      steps.map (fun step => (step.1, step.2.reader)) = Wire.session calls k.reader ∧
      (k :: steps.map (·.2)).IsChain Cursor.Onward := by
  induction calls generalizing k with
  | nil => exact ⟨[], rfl, rfl, .singleton k⟩
  | cons call calls ih =>
      obtain ⟨result, hmake, hseen, ho⟩ := make_follows clock call k hk hclock
      have hle := ho.length_le
      obtain ⟨steps, hsteps, hreaders, hchain⟩ := ih (hk.onward ho) (by omega)
      refine ⟨(outcome result, left result) :: steps, ?_, ?_, ?_⟩
      · simp only [session, hmake, hsteps, bind, Except.bind, pure, Except.pure]
      · simp only [Wire.session, ← hseen, outcome_seen, left_seen, List.map_cons, hreaders]
      · exact List.isChain_cons_cons.2 ⟨ho, hchain⟩

end Machine

/-- **The reader is safe under any use.**  On a machine that counts by words, no call stops the
reader, whatever the bytes are, whichever calls come before it, and whether or not they failed.
Every call ends before a clock that exceeds the bytes, and comes to what it comes to for the reader
of `Missive.Wire.Reader`.  The position never goes back, and never leaves the bytes. -/
theorem session_safe (bytes : List UInt8) (hsize : bytes.length < UInt64.size) (clock : Nat)
    (hclock : bytes.length < clock) (calls : List Call) :
    ∃ steps, Machine.session clock calls { data := bytes } = .ok steps ∧
      steps.map (fun step => (step.1, step.2.reader)) = session calls (.ofBytes bytes) ∧
      (0 :: steps.map (·.2.position)).IsChain (· ≤ ·) ∧
      ∀ step ∈ steps, step.2.data = bytes ∧ step.2.position ≤ bytes.length := by
  have hstart : Cursor.InBounds { data := bytes } := ⟨Nat.zero_le _, hsize⟩
  obtain ⟨steps, hsteps, hreaders, hchain⟩ := Machine.session_follows calls hstart hclock
  refine ⟨steps, hsteps, hreaders, ?_, fun step hstep => ?_⟩
  · have hpositions := (List.isChain_map Cursor.position).2 (hchain.imp fun _ _ ho => ho.forward)
    simpa [Function.comp_def] using hpositions
  · have ho := List.rel_of_pairwise_cons hchain.pairwise (List.mem_map_of_mem hstep)
    exact ⟨ho.data, ho.inside⟩

/-- A text of five bytes of which one is there: reading goes on behind it, after calls in the wrong
places. -/
theorem session_safe_truncated :
    ∃ steps, Machine.session 4 [.nextName, .beginObject, .nextName, .value .string, .skipRemaining,
        .endArray, .endObject, .isFinished] { data := [0x19, 0x05, 0x61] } = .ok steps ∧
      steps.map (·.1) = [.error (.wire .headerOutside), .ok .done, .ok (.number 1),
        .error .unexpectedEnd, .error .unexpectedEnd, .error (.wire .arrayEndOutside),
        .error .unexpectedEnd, .ok (.flag true)] ∧
      (0 :: steps.map (·.2.position)).IsChain (· ≤ ·) ∧
      ∀ step ∈ steps, step.2.data = [0x19, 0x05, 0x61] ∧ step.2.position ≤ 3 := by
  obtain ⟨steps, hsteps, hreaders, hchain, hwithin⟩ :=
    session_safe [0x19, 0x05, 0x61] (by decide) 4 (by decide) [.nextName, .beginObject, .nextName,
      .value .string, .skipRemaining, .endArray, .endObject, .isFinished]
  refine ⟨steps, hsteps, ?_, hchain, hwithin⟩
  have houtcomes := congrArg (List.map Prod.fst) hreaders
  rw [List.map_map] at houtcomes
  exact houtcomes.trans (by decide +kernel)

end Missive.Wire
