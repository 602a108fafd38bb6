import Missive.Proofs.Wire.Progress

/-!
# Missive.Proofs.Wire.Incremental

What the steps of the binary reader do when more bytes arrive.

`Incremental n p` compares `p` on some bytes with `p` on the same bytes and more behind them.  What
succeeds goes on to succeed, in the same way and without touching what is behind.  What fails and
then succeeds has failed for want of bytes, and its success takes all the bytes that were there and
`n` more.  A step that may only look at the next byte has `n = 0`; a step that takes every byte that
it looks at has `n = 1`.
-/

namespace Missive.Wire

/-- The reader with more bytes behind its own. -/
def Reader.extend (r : Reader) (extra : List UInt8) : Reader := { r with rest := r.rest ++ extra }

namespace Reader

@[simp] theorem extend_rest (r : Reader) (extra : List UInt8) :
    (r.extend extra).rest = r.rest ++ extra := rfl

@[simp] theorem extend_pending (r : Reader) (extra : List UInt8) :
    (r.extend extra).pending = r.pending := rfl

@[simp] theorem extend_frames (r : Reader) (extra : List UInt8) :
    (r.extend extra).frames = r.frames := rfl

end Reader

/-- A step that goes on where it was left when more bytes arrive. -/
structure Incremental (n : Nat) (p : Read α) : Prop where
  consumes : Consumes 0 p
  /-- What succeeds does not depend on what is behind. -/
  ok : ∀ {r a r'}, p r = .ok a r' → ∀ extra, p (r.extend extra) = .ok a (r'.extend extra)
  /-- What succeeds only with more bytes had come to the end of the bytes. -/
  error : ∀ {r e r' extra a r''}, p r = .error e r' → p (r.extend extra) = .ok a r'' →
    e = .unexpectedEnd ∧ r''.rest.length + n ≤ extra.length

namespace Incremental

theorem mono (h : Incremental n p) (hle : k ≤ n) : Incremental k p where
  consumes := h.consumes
  ok := h.ok
  error hr hx := by
    obtain ⟨he, hlength⟩ := h.error hr hx
    exact ⟨he, by omega⟩

theorem pure (a : α) (n : Nat) : Incremental n (Pure.pure a : Read α) where
  consumes := .pure a
  ok h extra := by cases h; rfl
  error h := by contradiction

theorem throw (e : ReadError) (n : Nat) : Incremental n (MonadExcept.throw e : Read α) where
  consumes := .throw e 0
  ok h := by contradiction
  error _ h := by contradiction

/-- A success that comes only with more bytes takes `n` of them: those that the first step takes,
and those that the second step takes in any case. -/
theorem andThen {p : Read α} {f : α → Read β} (hp : Incremental k p)
    (hf : ∀ a, Incremental n (f a)) (hc : ∀ a, Consumes m (f a)) (hn : n ≤ k + m) :
    Incremental n (p >>= f) where
  consumes := hp.consumes.bind fun a => (hf a).consumes
  ok h extra := by
    obtain ⟨a, r₁, h₁, h₂⟩ := bind_eq_ok h
    rw [bind_of_ok f (hp.ok h₁ extra)]
    exact (hf a).ok h₂ extra
  error {r e r' extra b r''} h hx := by
    obtain ⟨a, r₁, hx₁, hx₂⟩ := bind_eq_ok hx
    cases hr : p r with
    | error e' r₂ =>
        rw [bind_of_error f hr] at h
        cases h
        obtain ⟨he, hlength⟩ := hp.error hr hx₁
        have hle := hc a r₁ b r'' hx₂
        exact ⟨he, by omega⟩
    | ok a' r₂ =>
        rw [bind_of_ok f hr] at h
        rw [hp.ok hr extra] at hx₁
        cases hx₁
        exact (hf _).error h hx₂

theorem bind {p : Read α} {f : α → Read β} (hp : Incremental n p)
    (hf : ∀ a, Incremental n (f a)) : Incremental n (p >>= f) :=
  hp.andThen hf (fun a => (hf a).consumes) (Nat.le_refl n)

/-- A look at the next byte, and then a step that takes it. -/
theorem after {p : Read α} {f : α → Read β} (hp : Incremental 0 p) (hf : ∀ a, Incremental 1 (f a))
    (hc : ∀ a, Consumes 1 (f a)) : Incremental 1 (p >>= f) :=
  hp.andThen hf hc (Nat.le_refl 1)

theorem map {p : Read α} (g : α → β) (hp : Incremental n p) : Incremental n (g <$> p) := by
  rw [map_eq_pure_bind]
  exact hp.bind fun a => .pure (g a) n

/-- A step that does not look at the bytes. -/
theorem of_blind {p : Read α} (hc : Consumes 0 p)
    (h : ∀ r extra, p (r.extend extra) = match p r with
      | .ok a r' => .ok a (r'.extend extra)
      | .error e r' => .error e (r'.extend extra)) (n : Nat) : Incremental n p where
  consumes := hc
  ok hr extra := by rw [h, hr]
  error hr hx := by
    rw [h, hr] at hx
    contradiction

theorem of_modify {g : Reader → Reader} (h : ∀ r, (g r).rest = r.rest)
    (hg : ∀ r extra, g (r.extend extra) = (g r).extend extra) (n : Nat) :
    Incremental n (modify g : Read Unit) :=
  .of_blind (.of_modify h) (fun r extra => congrArg (EStateM.Result.ok ()) (hg r extra)) n

/-- A step that goes by the open containers. -/
theorem of_frames {f : Reader → Read α} (hf : ∀ r r', r.frames = r'.frames → f r = f r')
    (h : ∀ r, Incremental n (f r)) : Incremental n (get >>= f) where
  consumes r := (h r).consumes r
  ok {r} _ _ hr extra := by
    rw [get_bind, hf (r.extend extra) r rfl]
    exact (h r).ok hr extra
  error {r} _ _ extra _ _ hr hx := by
    rw [get_bind, hf (r.extend extra) r rfl] at hx
    exact (h r).error hr hx

/-- A step that has succeeded succeeds on the bytes that it took alone. -/
theorem own_bytes {p : Read α} (hp : Incremental 1 p) (h : p r = .ok a r')
    (hn : n + r'.rest.length = r.rest.length) :
    r'.rest = r.rest.drop n ∧
      p { r with rest := r.rest.take n } = .ok a { r' with rest := [] } := by
  have hr : r = Reader.extend { r with rest := r.rest.take n } (r.rest.drop n) := by
    simp [Reader.extend]
  rw [hr] at h
  cases hown : p { r with rest := r.rest.take n } with
  | error e r₁ =>
      -- more bytes would have been taken than were
      have hshort := (hp.error hown h).2
      rw [List.length_drop] at hshort
      omega
  | ok b r₁ =>
      rw [hp.ok hown] at h
      cases h
      simp only [Reader.extend_rest, List.length_append, List.length_drop] at hn
      obtain ⟨rest, pending, frames⟩ := r₁
      obtain rfl : rest = [] := List.eq_nil_of_length_eq_zero (by simp only at hn; omega)
      exact ⟨rfl, rfl⟩

/-- A step that has succeeded comes to the end of fewer bytes than it took. -/
theorem too_short {p : Read α} (hp : Incremental 0 p) (h : p r = .ok a r')
    (hk : k + r'.rest.length < r.rest.length) :
    ∃ r'', p { r with rest := r.rest.take k } = .error .unexpectedEnd r'' := by
  have hr : r = Reader.extend { r with rest := r.rest.take k } (r.rest.drop k) := by
    simp [Reader.extend]
  rw [hr] at h
  cases hcut : p { r with rest := r.rest.take k } with
  | error e r₁ =>
      obtain ⟨rfl, -⟩ := hp.error hcut h
      exact ⟨r₁, rfl⟩
  | ok b r₁ =>
      -- the bytes behind the cut would not have been touched
      rw [hp.ok hcut] at h
      cases h
      simp only [Reader.extend_rest, List.length_append, List.length_drop] at hk
      omega

end Incremental

namespace Read

/-! ## bytes -/

theorem byte_incremental : Incremental 1 byte where
  consumes := byte_consumes.mono (Nat.zero_le 1)
  ok {r a r'} h extra := by
    unfold byte at h ⊢
    split at h
    · contradiction
    · next hr =>
        cases h
        rw [Reader.extend_rest, hr]
        rfl
  error {r e r' extra a r''} h hx := by
    unfold byte at h hx
    split at h
    · next hr =>
        cases h
        rw [Reader.extend_rest, hr, List.nil_append] at hx
        split at hx
        · contradiction
        · cases hx
          simp
    · contradiction

theorem peekByte_reader (h : peekByte r = .ok b r') : r' = r := by
  unfold peekByte at h
  split at h
  · contradiction
  · cases h; rfl

theorem peekByte_incremental : Incremental 0 peekByte where
  consumes r b r' h := by rw [peekByte_reader h]; exact Nat.le_refl _
  ok {r a r'} h extra := by
    unfold peekByte at h ⊢
    split at h
    · contradiction
    · next hr =>
        cases h
        rw [Reader.extend_rest, hr]
        rfl
  error {r e r' extra a r''} h hx := by
    obtain rfl := peekByte_reader hx
    unfold peekByte at h
    split at h
    · next hr =>
        cases h
        simp [hr]
    · contradiction

theorem take_incremental (count : Nat) : Incremental 1 (take count) where
  consumes := (take_consumes count).mono (Nat.zero_le count)
  ok {r a r'} h extra := by
    unfold take at h ⊢
    split at h
    · next hle =>
        cases h
        rw [if_pos (by simp; omega)]
        simp [Reader.extend, List.take_append_of_le_length hle, List.drop_append_of_le_length hle]
    · contradiction
  error {r e r' extra a r''} h hx := by
    unfold take at h hx
    split at h
    · contradiction
    · next hlt =>
        cases h
        split at hx
        · next hle =>
            cases hx
            rw [Reader.extend_rest, List.length_append] at hle
            refine ⟨rfl, ?_⟩
            rw [Reader.extend_rest, List.length_drop, List.length_append]
            omega
        · contradiction

/-- The groups of a number do not depend on what is behind them. -/
theorem varintFrom_extend (h : varintFrom shift value bs = .ok n rest) (extra : List UInt8) :
    varintFrom shift value (bs ++ extra) = .ok n (rest ++ extra) := by
  fun_induction varintFrom shift value bs with
  | case1 => contradiction
  | case2 => contradiction
  | case3 shift value b bs htop hb =>
      cases h
      simp [varintFrom, htop, hb]
  | case4 shift value b bs htop hb ih =>
      simpa [varintFrom, htop, hb] using ih h

/-- A number of which groups are missing ends in the bytes that are added. -/
theorem varintFrom_short (h : varintFrom shift value bs = .error e rest)
    (hx : varintFrom shift value (bs ++ extra) = .ok n rest') :
    e = .unexpectedEnd ∧ rest'.length < extra.length := by
  fun_induction varintFrom shift value bs with
  | case1 =>
      cases h
      exact ⟨rfl, varintFrom_length hx⟩
  | case2 shift value b bs htop => simp [varintFrom, htop] at hx
  | case3 => contradiction
  | case4 shift value b bs htop hb ih =>
      exact ih h (by simpa [varintFrom, htop, hb] using hx)

theorem varint_incremental : Incremental 1 varint where
  consumes := varint_consumes.mono (Nat.zero_le 1)
  ok {r a r'} h extra := by
    unfold varint at h ⊢
    split at h
    · next hv =>
        cases h
        rw [Reader.extend_rest, varintFrom_extend hv extra]
        rfl
    · contradiction
  error {r e r' extra a r''} h hx := by
    unfold varint at h hx
    split at h
    · contradiction
    · next hv =>
        cases h
        split at hx
        · next hv' =>
            cases hx
            exact varintFrom_short hv hv'
        · contradiction

theorem lengthPrefixed_incremental : Incremental 1 lengthPrefixed :=
  varint_incremental.bind fun _ => take_incremental _

theorem fixed_incremental (count : Nat) : Incremental 1 (fixed count) :=
  (take_incremental count).bind fun _ => .pure _ 1

/-! ## headers and containers -/

theorem valueKind_incremental (n : Nat) : Incremental n valueKind := by
  refine .of_blind valueKind_consumes (fun r extra => ?_) n
  unfold valueKind
  rw [Reader.extend_pending, Reader.extend_frames]
  match r.pending, r.frames with
  | some kind, _ => rfl
  | none, [] => rfl
  | none, .object :: _ => rfl
  | none, .array kind 0 :: frames => rfl
  | none, .array kind (remaining + 1) :: frames => rfl

theorem expect_incremental (kind : Kind) (n : Nat) : Incremental n (expect kind) := by
  refine (valueKind_incremental n).bind fun found => ?_
  split
  · split
    · exact .pure _ n
    · exact .throw _ n
  · exact .pure _ n

theorem pushFrame_incremental (frame : Frame) (n : Nat) : Incremental n (pushFrame frame) := by
  unfold pushFrame
  refine .of_modify ?_ ?_ n <;> intros <;> rfl

theorem popFrame_incremental (n : Nat) : Incremental n popFrame := by
  unfold popFrame
  refine .of_modify ?_ ?_ n <;> intros <;> rfl

theorem beginObject_incremental (n : Nat) : Incremental n beginObject :=
  (expect_incremental _ n).bind fun _ => pushFrame_incremental _ n

theorem openArray_incremental : Incremental 1 openArray := by
  refine byte_incremental.bind fun code => ?_
  split
  · exact .throw _ 1
  · exact varint_incremental.bind fun _ => pushFrame_incremental _ 1

theorem beginArray_incremental : Incremental 1 beginArray :=
  (expect_incremental _ 1).bind fun _ => openArray_incremental

theorem hasNext_incremental : Incremental 0 hasNext := by
  unfold hasNext
  refine .of_frames (fun r r' hr => by rw [hr]) fun r => ?_
  split
  · exact peekByte_incremental.bind fun _ => .pure _ 0
  · exact .pure _ 0
  · exact .pure _ 0

theorem nextName_incremental : Incremental 1 nextName := by
  unfold nextName
  refine .of_frames (fun r r' hr => by rw [hr]) fun r => ?_
  split
  · refine varint_incremental.bind fun header => ?_
    dsimp only
    split
    · exact .throw _ 1
    · split
      · exact .throw _ 1
      · refine .bind ?_ fun _ => .pure _ 1
        refine .of_modify ?_ ?_ 1 <;> intros <;> rfl
  · exact .throw _ 1

/-! ## loops -/

theorem repeatNext_incremental {step : α → Read α} (hs : ∀ a, Incremental 0 (step a)) (fuel : Nat)
    (a : α) : Incremental 0 (repeatNext hasNext step fuel a) := by
  induction fuel generalizing a with
  | zero => exact .pure a 0
  | succ fuel ih =>
      refine hasNext_incremental.bind fun more => ?_
      split
      · exact (hs a).bind ih
      · exact .pure a 0

theorem whileNext_incremental {step : α → Read α} (hs : ∀ a, Incremental 0 (step a))
    (hc : ∀ a, Consumes 1 (step a)) (a : α) : Incremental 0 (whileNext step a) := by
  -- the bytes bound the steps of the loop, and more bytes raise the bound; so both loops are taken
  -- by the bound of the longer bytes
  have hfuel : ∀ (r : Reader) (extra : List UInt8), whileNext step a r =
      repeatNext hasNext step ((r.extend extra).rest.length + 1) a r := fun r extra =>
    repeatNext_fuel hc (Nat.lt_succ_self _)
      (by rw [Reader.extend_rest, List.length_append]; omega) a
  refine ⟨whileNext_consumes (fun a => (hs a).consumes) a, ?_, ?_⟩
  · intro r b r' h extra
    rw [hfuel r extra] at h
    exact (repeatNext_incremental hs _ a).ok h extra
  · intro r e r' extra b r'' h hx
    rw [hfuel r extra] at h
    exact (repeatNext_incremental hs _ a).error h hx

/-! ## skipping -/

theorem closeObject_incremental (hs : Incremental 0 skip) : Incremental 1 (closeObject skip) := by
  have hstep : Incremental 0 (do let _ ← nextName; skip) :=
    (nextName_incremental.mono (Nat.zero_le 1)).bind fun _ => hs
  refine (whileNext_incremental (fun _ => hstep)
    (fun _ => nextName_consumes.bind fun _ => hs.consumes) ()).after (fun _ => ?_) fun _ => ?_
  · exact (popFrame_incremental 1).bind fun _ => byte_incremental.bind fun _ => .pure () 1
  · exact popFrame_consumes.after fun _ => byte_consumes.bind fun _ => .pure ()

theorem closeArray_incremental (hs : Incremental 0 skip) (hc : Consumes 1 skip) :
    Incremental 1 (closeArray skip) := by
  have hmark : ∀ mark : UInt8, Incremental 1 (if mark == 0 then Pure.pure () else
      fault (.arrayEndExpected mark) : Read Unit) := by
    intro mark
    split
    · exact .pure () 1
    · exact .throw _ 1
  refine (whileNext_incremental (fun _ => hs) (fun _ => hc) ()).after (fun _ => ?_) fun _ => ?_
  · exact (popFrame_incremental 1).bind fun _ => byte_incremental.bind hmark
  · exact popFrame_consumes.after fun _ => byte_consumes.bind fun mark => (hmark mark).consumes

theorem skipNested_incremental (depth : Nat) : Incremental 1 (skipNested depth) := by
  induction depth with
  | zero => exact .throw _ 1
  | succ depth ih =>
      have hskip := ih.mono (Nat.zero_le 1)
      refine (valueKind_incremental 1).bind fun kind => ?_
      match kind with
      | none => exact .throw _ 1
      | some .int | some .sint | some .long | some .slong =>
          exact varint_incremental.bind fun _ => .pure () 1
      | some .fint | some .float | some .flong | some .double =>
          exact (take_incremental _).bind fun _ => .pure () 1
      | some .string | some .binary => exact lengthPrefixed_incremental.bind fun _ => .pure () 1
      | some .object =>
          exact (pushFrame_incremental _ 1).bind fun _ => closeObject_incremental hskip
      | some .array =>
          exact openArray_incremental.bind fun _ =>
            closeArray_incremental hskip (skipNested_consumes depth)

/-- A step that takes its bound from the bytes, and for which every larger bound does as well. -/
theorem incremental_of_bound {p : Read α} {q : Nat → Read α} (hq : ∀ depth, Incremental n (q depth))
    (hp : ∀ r depth, r.rest.length < depth → p r = q depth r) : Incremental n p := by
  have hboth : ∀ (r : Reader) (extra : List UInt8),
      p r = q ((r.extend extra).rest.length + 1) r ∧
        p (r.extend extra) = q ((r.extend extra).rest.length + 1) (r.extend extra) :=
    fun r extra => ⟨hp r _ (by rw [Reader.extend_rest, List.length_append]; omega),
      hp _ _ (Nat.lt_succ_self _)⟩
  refine ⟨fun r a r' h => ?_, fun {r a r'} h extra => ?_, fun {r e r' extra a r''} h hx => ?_⟩
  · rw [hp r _ (Nat.lt_succ_self _)] at h
    exact (hq _).consumes r a r' h
  · obtain ⟨hr, hx⟩ := hboth r extra
    rw [hr] at h
    rw [hx]
    exact (hq _).ok h extra
  · obtain ⟨hr, hx'⟩ := hboth r extra
    rw [hr] at h
    rw [hx'] at hx
    exact (hq _).error h hx

theorem skipValue_incremental : Incremental 1 skipValue :=
  incremental_of_bound skipNested_incremental fun r depth hd =>
    (skipNested_agree_skipValue depth r hd).symm

end Read

end Missive.Wire
