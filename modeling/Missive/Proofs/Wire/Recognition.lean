import Missive.Proofs.Wire.Progress
import Missive.Proofs.Wire.Tree

/-!
# Missive.Proofs.Wire.Recognition

What the binary reader skips is a tree, on any bytes.

The lemmas of `Missive.Proofs.Wire.Tree` run the reader on the spelling of a tree.  Those here go
the other way: where a step of the reader succeeds, the bytes that it took are the spelling of a
number, of a header, of a tree, or of the fields of an object.  So skipping a value succeeds on
spellings of trees and on nothing else (`Read.spells_of_skipValue`), and leaving an object on
spellings of fields up to the end mark (`Read.spellsFields_of_endObject`).
-/

namespace Missive.Wire

/-! ## numbers -/

/-- Where the reader in the middle of a number comes to its end, it has taken groups that fit; `k`
groups were read before. -/
theorem isGroups_of_varintFrom (h : Read.varintFrom (7 * k) value bs = .ok n rest) (hk : k ≤ 9) :
    ∃ gs, bs = gs ++ rest ∧ IsGroups gs ∧ k + gs.length ≤ 10 ∧
      n = value + groupsValue gs * 2 ^ (7 * k) ∧ groupsValue gs < 2 ^ (64 - 7 * k) := by
  induction bs generalizing k value with
  | nil => contradiction
  | cons b bs ih =>
      rw [Read.varintFrom] at h
      split at h
      · contradiction
      next htop =>
      rw [Bool.and_eq_true, not_and, beq_iff_eq, decide_eq_true_iff, UInt8.lt_iff_toNat_lt] at htop
      have htop : k = 9 → b.toNat ≤ 1 := fun h9 => Nat.not_lt.mp (htop (by omega))
      split at h
      · next hb =>
          cases h
          have hlt : b.toNat < 128 := UInt8.lt_iff_toNat_lt.mp hb
          have hvalue : groupsValue [b] = b.toNat := by simp [groupsValue, Nat.mod_eq_of_lt hlt]
          refine ⟨[b], rfl, .last hb, by simp only [List.length_singleton]; omega, ?_, ?_⟩
          · rw [hvalue, Nat.shiftLeft_eq]
          · rw [hvalue]
            by_cases h9 : k = 9
            · have := htop h9
              subst h9
              omega
            · calc b.toNat < 2 ^ 7 := hlt
                _ ≤ 2 ^ (64 - 7 * k) := Nat.pow_le_pow_right (by decide) (by omega)
      · next hb =>
          have hge : 128 ≤ b.toNat := by
            rw [UInt8.lt_iff_toNat_lt] at hb
            simpa using hb
          have hlt := b.toNat_lt
          have hk' : k + 1 ≤ 9 := by
            by_contra h9
            have := htop (by omega)
            omega
          obtain ⟨gs, rfl, hgs, hlength, rfl, hfits⟩ := ih h hk'
          have hmod : b.toNat % 128 = b.toNat - 128 := by omega
          refine ⟨b :: gs, rfl, .more hb hgs, by simp only [List.length_cons]; omega, ?_, ?_⟩
          · rw [groupsValue, hmod, Nat.shiftLeft_eq, Nat.mul_add, Nat.pow_add]
            ring
          · have hpow : 2 ^ (64 - 7 * k) = 128 * 2 ^ (64 - 7 * (k + 1)) := by
              rw [show 64 - 7 * k = 64 - 7 * (k + 1) + 7 by omega, Nat.pow_add]
              ring
            rw [groupsValue, hpow]
            omega

/-- Where the reader finds a number, it has taken a spelling of it. -/
theorem Read.isVarint_of_varint (h : Read.varint r = .ok n r') :
    ∃ bs, IsVarint n bs ∧ r = ⟨bs ++ r'.rest, r'.pending, r'.frames⟩ := by
  unfold Read.varint at h
  split at h
  · next value rest hv =>
      cases h
      obtain ⟨gs, hrest, hgs, hlength, rfl, hfits⟩ :=
        isGroups_of_varintFrom (k := 0) hv (Nat.zero_le _)
      refine ⟨gs, ⟨hgs, ?_, by omega⟩, by rw [← hrest]⟩
      simpa using (Nat.mod_eq_of_lt hfits).symm
  · contradiction

/-- The bytes of a number of fixed width. -/
@[simp] theorem littleEndian_ofLittleEndian (bs : List UInt8) :
    littleEndian bs.length (ofLittleEndian bs) = bs := by
  induction bs with
  | nil => rfl
  | cons b bs ih =>
      have hlow : (b.toNat + 256 * ofLittleEndian bs) % 256 = b.toNat := by
        have := b.toNat_lt
        omega
      have hhigh : (b.toNat + 256 * ofLittleEndian bs) / 256 = ofLittleEndian bs := by
        have := b.toNat_lt
        omega
      rw [List.length_cons, ofLittleEndian, littleEndian, hlow, hhigh, ih]
      simp

theorem ofLittleEndian_lt (bs : List UInt8) : ofLittleEndian bs < 256 ^ bs.length := by
  induction bs with
  | nil => simp [ofLittleEndian]
  | cons b bs ih =>
      have := b.toNat_lt
      rw [ofLittleEndian, List.length_cons, Nat.pow_succ]
      omega

namespace Read

theorem take_ok (h : take count r = .ok bs r') :
    bs.length = count ∧ r = ⟨bs ++ r'.rest, r'.pending, r'.frames⟩ := by
  unfold take at h
  split at h
  · next hle =>
      cases h
      exact ⟨List.length_take_of_le hle, by simp⟩
  · contradiction

theorem lengthPrefixed_ok (h : lengthPrefixed r = .ok bs r') :
    ∃ count start, IsVarint count start ∧ bs.length = count.toNat ∧
      r = ⟨start ++ bs ++ r'.rest, r'.pending, r'.frames⟩ := by
  obtain ⟨count, r₁, hcount, htake⟩ := bind_eq_ok h
  obtain ⟨start, hstart, rfl⟩ := isVarint_of_varint hcount
  obtain ⟨hlength, rfl⟩ := take_ok htake
  exact ⟨count, start, hstart, hlength, by simp⟩

end Read

/-! ## headers -/

theorem Kind.eq_code_of_ofCode? (h : Kind.ofCode? n = some kind) : n = kind.code.toNat := by
  unfold Kind.ofCode? at h
  split at h <;> cases h <;> rfl

namespace Read

/-- A header that is read is the spelling of a tag and a kind; what was pending before is
forgotten. -/
theorem isVarint_of_nextName (h : nextName r = .ok tag r') :
    ∃ kind frames head, IsVarint (headerNumber tag kind) head ∧
      r = ⟨head ++ r'.rest, r.pending, .object :: frames⟩ ∧
      r' = ⟨r'.rest, some kind, .object :: frames⟩ := by
  unfold nextName at h
  rw [get_bind] at h
  match hf : r.frames with
  | [] | .array .. :: _ => simp only [hf] at h; contradiction
  | .object :: frames =>
      simp only [hf] at h
      obtain ⟨header, r₁, hv, h'⟩ := bind_eq_ok h
      obtain ⟨head, hhead, rfl⟩ := isVarint_of_varint hv
      obtain ⟨rest, pending, _⟩ := r₁
      obtain rfl : _ = Frame.object :: frames := hf
      cases hk : Kind.ofCode? (header.toNat % 16) with
      | none => simp only [hk] at h'; contradiction
      | some kind =>
          simp only [hk] at h'
          split at h'
          · contradiction
          next hwide =>
          cases h'
          have hcode := Kind.eq_code_of_ofCode? hk
          have hsize : header.toNat / 16 < UInt32.size := Nat.not_le.mp hwide
          have htag : (header.toNat / 16).toUInt32.toNat = header.toNat / 16 :=
            Nat.mod_eq_of_lt hsize
          have hnumber : headerNumber (header.toNat / 16).toUInt32 kind = header := by
            refine UInt64.toNat_inj.mp ?_
            rw [headerNumber_toNat, htag]
            omega
          exact ⟨kind, frames, head, hnumber.symm ▸ hhead, rfl, rfl⟩

/-! ## containers -/

/-- The bytes up to the reader `r'` are the spelling of a tree of a kind; nothing is pending. -/
def TookTree (kind : Kind) (xs : List UInt8) (frames : List Frame) (r' : Reader) : Prop :=
  ∃ t bs, t.kind = kind ∧ Spells t bs ∧ xs = bs ++ r'.rest ∧ r' = ⟨r'.rest, none, frames⟩

/-- A step that takes nothing but trees, wherever it succeeds in front of a value. -/
def TakesTrees (skip : Read Unit) : Prop :=
  ∀ r kind frames' r', Before kind r.pending r.frames frames' → skip r = .ok () r' →
    TookTree kind r.rest frames' r'

/-- A loop over fields takes the spelling of fields.  The kind that was pending before it is
forgotten with the first of them. -/
theorem spellsFields_of_repeatNext (hskip : TakesTrees skip)
    (h : repeatNext hasNext (fun _ => do let _ ← nextName; skip) fuel ()
      ⟨xs, pending, .object :: frames⟩ =
      .ok () r') :
    ∃ fields bs, SpellsFields fields bs ∧ xs = bs ++ r'.rest ∧
      r' = ⟨r'.rest, if fields.isEmpty then pending else none, .object :: frames⟩ := by
  induction fuel generalizing xs pending with
  | zero => cases h; exact ⟨[], [], .nil, rfl, rfl⟩
  | succ fuel ih =>
      obtain ⟨more, r₁, hnext, h'⟩ := bind_eq_ok h
      obtain rfl := hasNext_reader hnext
      cases more with
      | false => cases h'; exact ⟨[], [], .nil, rfl, rfl⟩
      | true =>
          obtain ⟨_, r₂, hstep, hrest⟩ := bind_eq_ok h'
          obtain ⟨tag, r₁, hname, hvalue⟩ := bind_eq_ok hstep
          obtain ⟨kind, frames', head, hhead, hr, hr₁⟩ := isVarint_of_nextName hname
          rw [Reader.mk.injEq] at hr
          obtain ⟨rfl, -, hframes⟩ := hr
          obtain rfl := (List.cons.inj hframes).2
          rw [hr₁] at hvalue
          obtain ⟨t, body, rfl, hbody, hbytes, hr₂⟩ := hskip _ _ _ _ (.header _) hvalue
          rw [hr₂] at hrest
          obtain ⟨fields, tail, htail, hleft, hr'⟩ := ih hrest
          refine ⟨(tag, t) :: fields, head ++ (body ++ tail), .cons hhead hbody htail, ?_, ?_⟩
          · rw [show r₁.rest = body ++ r₂.rest from hbytes, hleft]
            simp
          · simpa using hr'

/-- A loop over elements takes the spelling of as many as are then missing. -/
theorem spellsItems_of_repeatNext (hskip : TakesTrees skip)
    (h : repeatNext hasNext (fun _ => skip) fuel () ⟨xs, none, .array kind count :: frames⟩ =
      .ok () r') :
    ∃ items bs left, SpellsItems items bs ∧ (∀ t ∈ items, t.kind = kind) ∧
      items.length + left = count ∧ xs = bs ++ r'.rest ∧
      r' = ⟨r'.rest, none, .array kind left :: frames⟩ := by
  induction fuel generalizing xs count with
  | zero => cases h; exact ⟨[], [], count, .nil, by simp, by simp, rfl, rfl⟩
  | succ fuel ih =>
      obtain ⟨more, r₁, hnext, h'⟩ := bind_eq_ok h
      obtain rfl := hasNext_reader hnext
      cases more with
      | false => cases h'; exact ⟨[], [], count, .nil, by simp, by simp, rfl, rfl⟩
      | true =>
          obtain ⟨_, r₂, hstep, hrest⟩ := bind_eq_ok h'
          obtain ⟨count, rfl⟩ : ∃ k, count = k + 1 := by
            rw [hasNext_array] at hnext
            have hpos : (decide (0 < count)) = true := by injection hnext
            exact ⟨count - 1, by have := of_decide_eq_true hpos; omega⟩
          obtain ⟨t, body, hkind, hbody, hbytes, hr₂⟩ := hskip _ _ _ _ (.item count frames) hstep
          rw [hr₂] at hrest
          obtain ⟨items, tail, left, htail, hkinds, hcount, hleft, hr'⟩ := ih hrest
          refine ⟨t :: items, body ++ tail, left, .cons hbody htail, ?_, ?_, ?_, hr'⟩
          · exact List.forall_mem_cons.mpr ⟨hkind, hkinds⟩
          · simp only [List.length_cons]; omega
          · rw [show xs = body ++ r₂.rest from hbytes, hleft, List.append_assoc]

/-- Leaving an object takes the fields that are unread and the end mark. -/
theorem spellsFields_of_closeObject (hconsumes : Consumes 0 skip) (hskip : TakesTrees skip)
    (h : closeObject skip ⟨xs, pending, .object :: frames⟩ = .ok () r') :
    ∃ fields bs, SpellsFields fields bs ∧ xs = bs ++ (endMark ++ r'.rest) ∧
      r' = ⟨r'.rest, if fields.isEmpty then pending else none, frames⟩ := by
  obtain ⟨_, r₁, hloop, h'⟩ := bind_eq_ok h
  have hdone := whileNext_done (fun _ => nextName_consumes.bind fun _ => hconsumes) hloop
  rw [whileNext_eq] at hloop
  obtain ⟨fields, bs, hs, hxs, hr₁⟩ := spellsFields_of_repeatNext hskip hloop
  rw [hr₁] at hdone h'
  cases hrest : r₁.rest with
  | nil => rw [hrest] at hdone; contradiction
  | cons b rest =>
      rw [hrest] at hdone h' hxs
      rw [hasNext_object] at hdone
      obtain rfl : b = 0 := by
        have hb : (b != 0) = false := by injection hdone
        simpa using hb
      cases h'
      exact ⟨fields, bs, hs, hxs, rfl⟩

/-- Leaving an array takes the elements that are unread and the end mark. -/
theorem spellsItems_of_closeArray (hconsumes : Consumes 1 skip) (hskip : TakesTrees skip)
    (h : closeArray skip ⟨xs, none, .array kind count :: frames⟩ = .ok () r') :
    ∃ items bs, SpellsItems items bs ∧ (∀ t ∈ items, t.kind = kind) ∧ items.length = count ∧
      xs = bs ++ (endMark ++ r'.rest) ∧ r' = ⟨r'.rest, none, frames⟩ := by
  obtain ⟨_, r₁, hloop, h'⟩ := bind_eq_ok h
  have hdone := whileNext_done (fun _ => hconsumes) hloop
  rw [whileNext_eq] at hloop
  obtain ⟨items, bs, left, hs, hkinds, hcount, hxs, hr₁⟩ := spellsItems_of_repeatNext hskip hloop
  rw [hr₁] at hdone h'
  obtain rfl : left = 0 := by
    rw [hasNext_array] at hdone
    have hleft : (decide (0 < left)) = false := by injection hdone
    simpa using hleft
  cases hrest : r₁.rest with
  | nil => rw [hrest] at h'; contradiction
  | cons b rest =>
      rw [hrest] at h' hxs
      by_cases hb : b = 0
      · subst hb
        cases h'
        exact ⟨items, bs, hs, hkinds, hcount, hxs, rfl⟩
      · obtain ⟨_, _, hpop, hmark⟩ := bind_eq_ok h'
        cases hpop
        obtain ⟨_, _, hbyte, hfault⟩ := bind_eq_ok hmark
        cases hbyte
        simp only [beq_false_of_ne hb] at hfault
        contradiction

/-! ## single values -/

theorem tookTree_varint (tree : UInt64 → Tree) (hkind : ∀ n, (tree n).kind = kind)
    (hspells : ∀ n bs, IsVarint n bs → Spells (tree n) bs)
    (h : (do let _ ← varint) ⟨xs, none, frames⟩ = .ok () r') : TookTree kind xs frames r' := by
  obtain ⟨n, _, hv, h'⟩ := bind_eq_ok h
  cases h'
  obtain ⟨bs, hbs, hr⟩ := isVarint_of_varint hv
  rw [Reader.mk.injEq] at hr
  obtain ⟨hrest, hpending, hframes⟩ := hr
  exact ⟨tree n, bs, hkind n, hspells n bs hbs, hrest, by rw [hpending, hframes]⟩

/-- Bytes of a fixed number, which spell a tree whatever they are. -/
theorem tookTree_take (hspells : ∀ bs : List UInt8, bs.length = count →
      ∃ t : Tree, t.kind = kind ∧ Spells t bs)
    (h : (do let _ ← take count) ⟨xs, none, frames⟩ = .ok () r') : TookTree kind xs frames r' := by
  obtain ⟨bs, _, ht, h'⟩ := bind_eq_ok h
  cases h'
  obtain ⟨hlength, hr⟩ := take_ok ht
  obtain ⟨t, hkind, hs⟩ := hspells bs hlength
  rw [Reader.mk.injEq] at hr
  obtain ⟨hrest, hpending, hframes⟩ := hr
  exact ⟨t, bs, hkind, hs, hrest, by rw [hpending, hframes]⟩

theorem tookTree_lengthPrefixed (tree : List UInt8 → Tree) (hkind : ∀ bs, (tree bs).kind = kind)
    (hspells : ∀ count start bytes, IsVarint count start → bytes.length = count.toNat →
      Spells (tree bytes) (start ++ bytes))
    (h : (do let _ ← lengthPrefixed) ⟨xs, none, frames⟩ = .ok () r') :
    TookTree kind xs frames r' := by
  obtain ⟨bytes, _, hl, h'⟩ := bind_eq_ok h
  cases h'
  obtain ⟨count, start, hstart, hlength, hr⟩ := lengthPrefixed_ok hl
  rw [Reader.mk.injEq] at hr
  obtain ⟨hrest, hpending, hframes⟩ := hr
  exact ⟨tree bytes, start ++ bytes, hkind bytes, hspells count start bytes hstart hlength, hrest,
    by rw [hpending, hframes]⟩

/-- Four bytes are those of a number of 32 bits. -/
theorem exists_littleEndian4 (h : bs.length = 4) : ∃ n : UInt32, littleEndian 4 n.toNat = bs := by
  have hlt : ofLittleEndian bs < 2 ^ 32 := by
    simpa [h] using ofLittleEndian_lt bs
  refine ⟨(ofLittleEndian bs).toUInt32, ?_⟩
  rw [Nat.toUInt32_eq, UInt32.toNat_ofNat', Nat.mod_eq_of_lt hlt, ← h]
  exact littleEndian_ofLittleEndian bs

/-- Eight bytes are those of a number of 64 bits. -/
theorem exists_littleEndian8 (h : bs.length = 8) : ∃ n : UInt64, littleEndian 8 n.toNat = bs := by
  have hlt : ofLittleEndian bs < 2 ^ 64 := by
    simpa [h] using ofLittleEndian_lt bs
  refine ⟨(ofLittleEndian bs).toUInt64, ?_⟩
  rw [Nat.toUInt64_eq, UInt64.toNat_ofNat', Nat.mod_eq_of_lt hlt, ← h]
  exact littleEndian_ofLittleEndian bs

/-! ## values of any kind -/

/-- The beginning of an array that is read. -/
theorem openArray_eq_ok (h : openArray ⟨xs, none, frames⟩ = .ok () r') :
    ∃ kind count start rest, IsVarint count start ∧ xs = kind.code :: (start ++ rest) ∧
      r' = ⟨rest, none, .array kind count.toNat :: frames⟩ := by
  obtain ⟨code, r₁, hbyte, h'⟩ := bind_eq_ok h
  cases xs with
  | nil => contradiction
  | cons b xs =>
      cases hbyte
      cases hk : Kind.ofCode? code.toNat with
      | none => simp only [hk] at h'; contradiction
      | some kind =>
          simp only [hk] at h'
          obtain ⟨count, r₂, hv, hpush⟩ := bind_eq_ok h'
          obtain ⟨start, hstart, hr₂⟩ := isVarint_of_varint hv
          cases hpush
          rw [Reader.mk.injEq] at hr₂
          obtain ⟨rfl, hpending, hframes⟩ := hr₂
          obtain rfl : code = kind.code := UInt8.toNat_inj.mp (Kind.eq_code_of_ofCode? hk)
          exact ⟨kind, count, start, r₂.rest, hstart, rfl, by rw [hpending, hframes]⟩

theorem skipNested_takesTrees (depth : Nat) : TakesTrees (skipNested depth) := by
  induction depth with
  | zero => intro r kind frames' r' _ h; contradiction
  | succ depth ih =>
      intro r kind frames' r' hb h
      rw [skipNested, bind_of_ok _ (valueKind_before hb r.rest)] at h
      cases kind with
      | int => exact tookTree_varint .int (fun _ => rfl) (fun _ _ => .int) h
      | sint => exact tookTree_varint .sint (fun _ => rfl) (fun _ _ => .sint) h
      | long => exact tookTree_varint .long (fun _ => rfl) (fun _ _ => .long) h
      | slong => exact tookTree_varint .slong (fun _ => rfl) (fun _ _ => .slong) h
      | fint =>
          refine tookTree_take (fun bs hbs => ?_) h
          obtain ⟨n, rfl⟩ := exists_littleEndian4 hbs
          exact ⟨.fint n, rfl, .fint n⟩
      | float =>
          refine tookTree_take (fun bs hbs => ?_) h
          obtain ⟨n, rfl⟩ := exists_littleEndian4 hbs
          exact ⟨.float ⟨n⟩, rfl, .float ⟨n⟩⟩
      | flong =>
          refine tookTree_take (fun bs hbs => ?_) h
          obtain ⟨n, rfl⟩ := exists_littleEndian8 hbs
          exact ⟨.flong n, rfl, .flong n⟩
      | double =>
          refine tookTree_take (fun bs hbs => ?_) h
          obtain ⟨n, rfl⟩ := exists_littleEndian8 hbs
          exact ⟨.double ⟨n⟩, rfl, .double ⟨n⟩⟩
      | string =>
          exact tookTree_lengthPrefixed .string (fun _ => rfl) (fun _ _ _ => .string) h
      | binary =>
          exact tookTree_lengthPrefixed .binary (fun _ => rfl) (fun _ _ _ => .binary) h
      | object =>
          obtain ⟨_, _, hpush, hclose⟩ := bind_eq_ok h
          cases hpush
          obtain ⟨fields, bs, hs, hxs, hr'⟩ := spellsFields_of_closeObject
            ((skipNested_consumes depth).mono (Nat.zero_le 1)) ih hclose
          refine ⟨.object fields, bs ++ endMark, rfl, .object hs, ?_, by simpa using hr'⟩
          rw [List.append_assoc]
          exact hxs
      | array =>
          obtain ⟨_, r₁, hopen, hclose⟩ := bind_eq_ok h
          obtain ⟨kind, count, start, rest, hstart, hxs, rfl⟩ := openArray_eq_ok hopen
          obtain ⟨items, bs, hs, hkinds, hcount, rfl, hr'⟩ :=
            spellsItems_of_closeArray (skipNested_consumes depth) ih hclose
          refine ⟨.array kind items, _, rfl, .array hstart hcount hkinds hs, ?_, hr'⟩
          simpa using hxs

/-- **Skipping takes trees** and nothing else. -/
theorem spells_of_skipValue : TakesTrees skipValue := fun r kind frames' r' hb h =>
  skipNested_takesTrees _ r kind frames' r' hb h

/-- Leaving an object takes the spelling of fields, up to the end mark.  What was pending before
stays pending if there is no field, and is forgotten otherwise. -/
theorem spellsFields_of_endObject
    (h : endObject ⟨xs, pending, .object :: frames⟩ = .ok () r') :
    ∃ fields bs, SpellsFields fields bs ∧ xs = bs ++ (endMark ++ r'.rest) ∧
      r' = ⟨r'.rest, if fields.isEmpty then pending else none, frames⟩ :=
  spellsFields_of_closeObject (skipValue_consumes.mono (Nat.zero_le 1)) spells_of_skipValue h

end Read

end Missive.Wire
