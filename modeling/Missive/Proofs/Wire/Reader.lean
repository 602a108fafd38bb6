import Missive.Proofs.Reading
import Missive.Proofs.Wire.Varint

/-!
# Missive.Proofs.Wire.Reader

What the steps of the binary reader do to a reader that stands in front of a value.

`Before` says where a reader stands: behind the header of a value, or at an element of an array.
-/

namespace Missive.Wire

/-! ## in front of a value -/

/-- A reader with this pending kind and these frames stands in front of a value of a kind; once
the value is begun, its frames are the last ones given. -/
inductive Before (kind : Kind) : Option Kind → List Frame → List Frame → Prop where
  | header (frames : List Frame) : Before kind (some kind) frames frames
  | item (remaining : Nat) (frames : List Frame) :
      Before kind none (.array kind (remaining + 1) :: frames) (.array kind remaining :: frames)

/-- A reader stands in front of a message: outermost, behind its header, or at an element of an
array of objects. -/
inductive BeforeMessage : Option Kind → List Frame → List Frame → Prop where
  | outermost : BeforeMessage none [] []
  | inside (h : Before .object pending frames frames') : BeforeMessage pending frames frames'

namespace Read

theorem valueKind_before (h : Before kind pending frames frames') (rest : List UInt8) :
    valueKind ⟨rest, pending, frames⟩ = .ok (some kind) ⟨rest, none, frames'⟩ := by
  cases h <;> simp [valueKind]

theorem expect_before (h : Before kind pending frames frames') (rest : List UInt8) :
    expect kind ⟨rest, pending, frames⟩ = .ok () ⟨rest, none, frames'⟩ := by
  unfold expect
  rw [bind_of_ok _ (valueKind_before h rest)]
  simp [pure, EStateM.pure]

theorem expect_mismatch (h : Before kind pending frames frames') (hne : kind ≠ wanted)
    (rest : List UInt8) :
    expect wanted ⟨rest, pending, frames⟩ =
      .error (.wire (.kindMismatch wanted kind)) ⟨rest, none, frames'⟩ := by
  unfold expect
  rw [bind_of_ok _ (valueKind_before h rest)]
  simp only [beq_eq_false_iff_ne.mpr hne]
  rfl

theorem beginObject_before (h : BeforeMessage pending frames frames') (rest : List UInt8) :
    beginObject ⟨rest, pending, frames⟩ = .ok () ⟨rest, none, .object :: frames'⟩ := by
  have hexpect : expect .object ⟨rest, pending, frames⟩ = .ok () ⟨rest, none, frames'⟩ := by
    cases h with
    | outermost => rfl
    | inside h => exact expect_before h rest
  unfold beginObject
  rw [bind_of_ok _ hexpect]
  rfl

theorem beginObject_mismatch (h : Before kind pending frames frames') (hne : kind ≠ .object)
    (rest : List UInt8) :
    beginObject ⟨rest, pending, frames⟩ =
      .error (.wire (.kindMismatch .object kind)) ⟨rest, none, frames'⟩ :=
  bind_of_error _ (expect_mismatch h hne rest)

theorem openArray_append (kind : Kind) (hs : IsVarint count start) (rest : List UInt8)
    (frames : List Frame) :
    openArray ⟨kind.code :: (start ++ rest), none, frames⟩ =
      .ok () ⟨rest, none, .array kind count.toNat :: frames⟩ := by
  have hbyte : byte ⟨kind.code :: (start ++ rest), none, frames⟩ =
      .ok kind.code ⟨start ++ rest, none, frames⟩ := rfl
  unfold openArray
  rw [bind_of_ok _ hbyte]
  simp only [Kind.ofCode?_code]
  rw [bind_of_ok _ (varint_append hs rest none frames)]
  rfl

theorem beginArray_before (h : Before .array pending frames frames') (kind : Kind)
    (hs : IsVarint count start) (rest : List UInt8) :
    beginArray ⟨kind.code :: (start ++ rest), pending, frames⟩ =
      .ok () ⟨rest, none, .array kind count.toNat :: frames'⟩ := by
  unfold beginArray
  rw [bind_of_ok _ (expect_before h _)]
  exact openArray_append kind hs rest frames'

theorem beginArray_mismatch (h : Before kind pending frames frames') (hne : kind ≠ .array)
    (rest : List UInt8) :
    beginArray ⟨rest, pending, frames⟩ =
      .error (.wire (.kindMismatch .array kind)) ⟨rest, none, frames'⟩ :=
  bind_of_error _ (expect_mismatch h hne rest)

theorem take_append {bs : List UInt8} (h : bs.length = count) (rest : List UInt8)
    (pending : Option Kind) (frames : List Frame) :
    take count ⟨bs ++ rest, pending, frames⟩ = .ok bs ⟨rest, pending, frames⟩ := by
  subst h
  simp [take]

theorem lengthPrefixed_append (hs : IsVarint count start) (h : bs.length = count.toNat)
    (rest : List UInt8) (pending : Option Kind) (frames : List Frame) :
    lengthPrefixed ⟨start ++ bs ++ rest, pending, frames⟩ = .ok bs ⟨rest, pending, frames⟩ := by
  unfold lengthPrefixed
  rw [List.append_assoc, bind_of_ok _ (varint_append hs _ pending frames)]
  exact take_append h rest pending frames

end Read

/-! ## headers -/

/-- The number that the header of a field spells. -/
def headerNumber (tag : UInt32) (kind : Kind) : UInt64 := tag.toUInt64 * 16 + kind.code.toUInt64

theorem Kind.code_toNat_lt (kind : Kind) : kind.code.toNat < 16 := by
  cases kind <;> decide

theorem Kind.code_toNat_pos (kind : Kind) : 0 < kind.code.toNat := by
  cases kind <;> decide

/-- A header has room for every tag of 32 bits. -/
theorem headerNumber_toNat (tag : UInt32) (kind : Kind) :
    (headerNumber tag kind).toNat = tag.toNat * 16 + kind.code.toNat := by
  have ht := tag.toNat_lt
  have hk := kind.code_toNat_lt
  have h16 : (16 : UInt64).toNat = 16 := rfl
  simp only [headerNumber, UInt64.toNat_add, UInt64.toNat_mul, UInt32.toNat_toUInt64,
    UInt8.toNat_toUInt64, h16]
  omega

/-- Kinds have codes above zero, so that no header is taken for an end mark. -/
theorem headerNumber_ne_zero (tag : UInt32) (kind : Kind) : headerNumber tag kind ≠ 0 := by
  intro h
  have hn := congrArg UInt64.toNat h
  have hk := kind.code_toNat_pos
  rw [headerNumber_toNat] at hn
  simp at hn
  omega

namespace Read

theorem nextName_append (hh : IsVarint (headerNumber tag kind) head) (rest : List UInt8)
    (pending : Option Kind) (frames : List Frame) :
    nextName ⟨head ++ rest, pending, .object :: frames⟩ =
      .ok tag ⟨rest, some kind, .object :: frames⟩ := by
  have hn := headerNumber_toNat tag kind
  have hk := kind.code_toNat_lt
  have ht := tag.toNat_lt
  have hcode : (headerNumber tag kind).toNat % 16 = kind.code.toNat := by omega
  have htag : (headerNumber tag kind).toNat / 16 = tag.toNat := by omega
  have hwide : ¬ UInt32.size ≤ tag.toNat := by simpa using ht
  unfold nextName
  rw [get_bind]
  simp only
  rw [bind_of_ok _ (varint_append hh rest pending _)]
  simp only [hcode, Kind.ofCode?_code, htag, hwide, if_false, modify_bind]
  simp [pure, EStateM.pure]

/-! ## the end of a container -/

theorem hasNext_object (b : UInt8) (rest : List UInt8) (pending : Option Kind)
    (frames : List Frame) :
    hasNext ⟨b :: rest, pending, .object :: frames⟩ =
      .ok (b != 0) ⟨b :: rest, pending, .object :: frames⟩ := rfl

theorem hasNext_header (hh : IsVarint (headerNumber tag kind) head) (rest : List UInt8)
    (pending : Option Kind) (frames : List Frame) :
    hasNext ⟨head ++ rest, pending, .object :: frames⟩ =
      .ok true ⟨head ++ rest, pending, .object :: frames⟩ := by
  obtain ⟨b, tail, rfl, hb⟩ := hh.head_ne_zero (headerNumber_ne_zero tag kind)
  rw [List.cons_append, hasNext_object, bne_iff_ne.mpr hb]

theorem hasNext_array (kind : Kind) (remaining : Nat) (rest : List UInt8)
    (pending : Option Kind) (frames : List Frame) :
    hasNext ⟨rest, pending, .array kind remaining :: frames⟩ =
      .ok (0 < remaining : Bool) ⟨rest, pending, .array kind remaining :: frames⟩ := rfl

theorem whileNext_eq (step : α → Read α) (a : α) (r : Reader) :
    whileNext step a r = repeatNext hasNext step (r.rest.length + 1) a r := rfl

end Read

end Missive.Wire
