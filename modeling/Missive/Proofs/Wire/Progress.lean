import Missive.Proofs.Wire.Reader

/-!
# Missive.Proofs.Wire.Progress

How far the steps of the binary reader go, on any bytes.

`Consumes n p` says that `p`, when it succeeds, reads at least `n` bytes.  A loop whose steps read
at least one byte each therefore runs to its end (`Read.whileNext_done`) and can be unrolled
(`Read.whileNext_cons`).

`Agree n p q` says that `p` and `q` do the same where fewer than `n` bytes are left.  A value is
skipped in the same way whatever bound its nesting is given, once the bound exceeds the bytes that
are left (`Read.skipNested_agree`).
-/

namespace Missive.Wire

/-! ## bytes read -/

/-- A step that succeeds reads at least `n` bytes. -/
def Consumes (n : Nat) (p : Read α) : Prop :=
  ∀ r a r', p r = .ok a r' → r'.rest.length + n ≤ r.rest.length

namespace Consumes

theorem mono (h : Consumes n p) (hle : k ≤ n) : Consumes k p := fun r a r' hp =>
  Nat.le_trans (Nat.add_le_add_left hle _) (h r a r' hp)

/-- The bytes of two steps add up. -/
theorem andThen {p : Read α} {f : α → Read β} (hp : Consumes n p) (hf : ∀ a, Consumes k (f a)) :
    Consumes (n + k) (p >>= f) := by
  intro r b r'' h
  obtain ⟨a, r', h₁, h₂⟩ := bind_eq_ok h
  have hn := hp r a r' h₁
  have hk := hf a r' b r'' h₂
  omega

theorem bind {p : Read α} {f : α → Read β} (hp : Consumes n p) (hf : ∀ a, Consumes 0 (f a)) :
    Consumes n (p >>= f) :=
  hp.andThen hf

theorem after {p : Read α} {f : α → Read β} (hp : Consumes 0 p) (hf : ∀ a, Consumes n (f a)) :
    Consumes n (p >>= f) :=
  (hp.andThen hf).mono (Nat.le_add_left n 0)

theorem pure (a : α) : Consumes 0 (Pure.pure a : Read α) := by
  intro r b r' h
  cases h
  exact Nat.le_refl _

theorem throw (e : ReadError) (n : Nat) : Consumes n (MonadExcept.throw e : Read α) := by
  intro r b r' h
  contradiction

theorem of_modify {g : Reader → Reader} (h : ∀ r, (g r).rest = r.rest) :
    Consumes 0 (modify g : Read Unit) := by
  intro r a r' hm
  cases hm
  simp [h]

end Consumes

/-- Two steps do the same on all readers that have fewer than `n` bytes. -/
def Agree (n : Nat) (p q : Read α) : Prop := ∀ r, r.rest.length < n → p r = q r

namespace Agree

theorem refl (n : Nat) (p : Read α) : Agree n p p := fun _ _ => rfl

/-- A step that reads `k` bytes leaves `k` bytes less to what follows. -/
theorem andThen {p q : Read α} {f g : α → Read β} (h : Agree (n + k) p q) (hp : Consumes k p)
    (hf : ∀ a, Agree n (f a) (g a)) : Agree (n + k) (p >>= f) (q >>= g) := by
  intro r hr
  have hpq := h r hr
  cases hr' : p r with
  | error e r' => rw [bind_of_error f hr', bind_of_error g (hpq ▸ hr')]
  | ok a r' =>
      have hle := hp r a r' hr'
      rw [bind_of_ok f hr', bind_of_ok g (hpq ▸ hr')]
      exact hf a r' (by omega)

theorem bind {p q : Read α} {f g : α → Read β} (h : Agree n p q) (hp : Consumes 0 p)
    (hf : ∀ a, Agree n (f a) (g a)) : Agree n (p >>= f) (q >>= g) :=
  andThen (k := 0) h hp hf

theorem after {p : Read α} {f g : α → Read β} (hp : Consumes 1 p)
    (hf : ∀ a, Agree n (f a) (g a)) : Agree (n + 1) (p >>= f) (p >>= g) :=
  (refl (n + 1) p).andThen hp hf

end Agree

namespace Read

theorem byte_consumes : Consumes 1 byte := by
  intro r b r' h
  unfold byte at h
  split at h
  · contradiction
  · next b rest hr =>
      cases h
      simp [hr]

theorem take_consumes (count : Nat) : Consumes count (take count) := by
  intro r bs r' h
  unfold take at h
  split at h
  · cases h
    simp only [List.length_drop]
    omega
  · contradiction

theorem varintFrom_length (h : varintFrom shift value bs = .ok n rest) :
    rest.length < bs.length := by
  fun_induction varintFrom shift value bs with
  | case1 => contradiction
  | case2 => contradiction
  | case3 => cases h; simp
  | case4 shift value b bs _ _ ih =>
      have := ih h
      simp only [List.length_cons]
      omega

theorem varint_consumes : Consumes 1 varint := by
  intro r n r' h
  unfold varint at h
  split at h
  · next hv =>
      cases h
      exact varintFrom_length hv
  · contradiction

theorem lengthPrefixed_consumes : Consumes 1 lengthPrefixed :=
  varint_consumes.bind fun _ => (take_consumes _).mono (Nat.zero_le _)

theorem fixed_consumes (count : Nat) : Consumes count (fixed count) :=
  (take_consumes count).bind fun _ => .pure _

/-- The kind of a value is found without reading a byte. -/
theorem valueKind_rest (h : valueKind r = .ok kind r') : r'.rest = r.rest := by
  unfold valueKind at h
  split at h
  · cases h; rfl
  · split at h
    · split at h
      · contradiction
      · cases h; rfl
    · contradiction
    · cases h; rfl

theorem valueKind_consumes : Consumes 0 valueKind := by
  intro r a r' h
  rw [valueKind_rest h]
  exact Nat.le_refl _

theorem expect_consumes (kind : Kind) : Consumes 0 (expect kind) := by
  refine valueKind_consumes.bind fun found => ?_
  split
  · split
    · exact .pure _
    · exact .throw _ 0
  · exact .pure _

theorem popFrame_consumes : Consumes 0 popFrame := .of_modify fun _ => rfl

theorem pushFrame_consumes (frame : Frame) : Consumes 0 (pushFrame frame) := .of_modify fun _ => rfl

theorem beginObject_consumes : Consumes 0 beginObject :=
  (expect_consumes _).bind fun _ => pushFrame_consumes _

theorem openArray_consumes : Consumes 1 openArray := by
  refine byte_consumes.bind fun code => ?_
  split
  · exact .throw _ 0
  · exact (varint_consumes.mono (Nat.zero_le _)).bind fun _ => pushFrame_consumes _

theorem beginArray_consumes : Consumes 1 beginArray :=
  (expect_consumes _).after fun _ => openArray_consumes

/-- A header is read from an object, and its kind is kept. -/
theorem nextName_ok (h : nextName r = .ok tag r') :
    ∃ kind frames, r.frames = .object :: frames ∧ r'.pending = some kind ∧
      r'.frames = .object :: frames ∧ r'.rest.length < r.rest.length := by
  unfold nextName at h
  rw [get_bind] at h
  match hf : r.frames with
  | [] | .array .. :: _ => simp only [hf] at h; contradiction
  | .object :: frames =>
      simp only [hf] at h
      obtain ⟨header, r₁, hv, h'⟩ := bind_eq_ok h
      have hlt := varint_consumes r header r₁ hv
      have hframes : r₁.frames = r.frames := by
        unfold varint at hv
        split at hv
        · cases hv; rfl
        · contradiction
      cases hk : Kind.ofCode? (header.toNat % 16) with
      | none => simp only [hk] at h'; contradiction
      | some kind =>
          simp only [hk] at h'
          split at h'
          · contradiction
          · cases h'
            exact ⟨kind, frames, rfl, rfl, hframes.trans hf, hlt⟩

theorem nextName_consumes : Consumes 1 nextName := by
  intro r tag r' h
  obtain ⟨_, _, _, _, _, hlt⟩ := nextName_ok h
  exact hlt

/-! ## loops -/

/-- Asking for another part does not move the reader. -/
theorem hasNext_reader (h : hasNext r = .ok b r') : r' = r := by
  unfold hasNext at h
  rw [get_bind] at h
  match hf : r.frames with
  | [] | .array .. :: _ => simp only [hf] at h; cases h; rfl
  | .object :: frames =>
      simp only [hf] at h
      obtain ⟨b', r₁, hp, h'⟩ := bind_eq_ok h
      unfold peekByte at hp
      split at hp
      · contradiction
      · cases hp
        cases h'
        rfl

theorem hasNext_consumes : Consumes 0 hasNext := by
  intro r b r' h
  rw [hasNext_reader h]
  exact Nat.le_refl _

theorem repeatNext_consumes {step : α → Read α} (hs : ∀ a, Consumes 0 (step a)) (fuel : Nat)
    (a : α) : Consumes 0 (repeatNext hasNext step fuel a) := by
  induction fuel generalizing a with
  | zero => exact .pure a
  | succ fuel ih =>
      intro r b r' h
      obtain ⟨more, r₁, hn, h'⟩ := bind_eq_ok h
      obtain rfl := hasNext_reader hn
      cases more with
      | true => exact ((hs a).bind ih) _ b r' h'
      | false => cases h'; exact Nat.le_refl _

theorem whileNext_consumes {step : α → Read α} (hs : ∀ a, Consumes 0 (step a)) (a : α) :
    Consumes 0 (whileNext step a) := fun r b r' h =>
  repeatNext_consumes hs _ a r b r' h

/-- Steps that agree give loops that agree. -/
theorem repeatNext_agree {step step' : α → Read α} (hs : ∀ a, Consumes 0 (step a))
    (h : ∀ a, Agree n (step a) (step' a)) (fuel : Nat) (a : α) :
    Agree n (repeatNext hasNext step fuel a) (repeatNext hasNext step' fuel a) := by
  induction fuel generalizing a with
  | zero => exact .refl _ _
  | succ fuel ih =>
      refine (Agree.refl n hasNext).bind hasNext_consumes fun more => ?_
      split
      · exact (h a).bind (hs a) ih
      · exact .refl _ _

theorem whileNext_agree {step step' : α → Read α} (hs : ∀ a, Consumes 0 (step a))
    (h : ∀ a, Agree n (step a) (step' a)) (a : α) :
    Agree n (whileNext step a) (whileNext step' a) := fun r hr =>
  repeatNext_agree hs h _ a r hr

/-- The bound on the number of steps does not matter once it exceeds the bytes that are left. -/
theorem repeatNext_fuel {step : α → Read α} (hs : ∀ a, Consumes 1 (step a))
    (hn : r.rest.length < n) (hm : r.rest.length < m) (a : α) :
    repeatNext hasNext step n a r = repeatNext hasNext step m a r := by
  induction n generalizing m a r with
  | zero => omega
  | succ n ih =>
      obtain ⟨m, rfl⟩ : ∃ k, m = k + 1 := ⟨m - 1, by omega⟩
      cases hnext : hasNext r with
      | error e r' => rw [repeatNext, repeatNext, bind_of_error _ hnext, bind_of_error _ hnext]
      | ok more r' =>
          obtain rfl := hasNext_reader hnext
          cases more with
          | false => rw [repeatNext_of_false hnext, repeatNext_of_false hnext]
          | true =>
              rw [repeatNext_of_true hnext, repeatNext_of_true hnext]
              cases hp : step a r' with
              | error e r₁ => rw [bind_of_error _ hp, bind_of_error _ hp]
              | ok b r₁ =>
                  have hlt := hs a r' b r₁ hp
                  rw [bind_of_ok _ hp, bind_of_ok _ hp]
                  exact ih (by omega) (by omega) b

/-- A loop goes on after its first step as if it began there. -/
theorem whileNext_cons {step : α → Read α} (hs : ∀ a, Consumes 1 (step a))
    (hnext : hasNext r = .ok true r) (hstep : step a r = .ok b r') :
    whileNext step a r = whileNext step b r' := by
  have hlt := hs a r b r' hstep
  rw [whileNext_eq, whileNext_eq, repeatNext_of_true hnext, bind_of_ok _ hstep]
  exact repeatNext_fuel hs (by omega) (by omega) b

/-- A loop that ends has come to the end of its container. -/
theorem whileNext_done {step : α → Read α} (hs : ∀ a, Consumes 1 (step a))
    (h : whileNext step a r = .ok b r') : hasNext r' = .ok false r' := by
  rw [whileNext_eq] at h
  have hfuel : r.rest.length < r.rest.length + 1 := by omega
  generalize r.rest.length + 1 = fuel at h hfuel
  induction fuel generalizing a r with
  | zero => omega
  | succ fuel ih =>
      obtain ⟨more, r₁, hnext, h'⟩ := bind_eq_ok h
      obtain rfl := hasNext_reader hnext
      cases more with
      | true =>
          obtain ⟨c, r₂, hstep, hrest⟩ := bind_eq_ok h'
          have hlt := hs a _ c r₂ hstep
          exact ih hrest (by omega)
      | false =>
          cases h'
          exact hnext

/-! ## skipping -/

theorem closeObject_consumes (hs : Consumes 0 skip) : Consumes 1 (closeObject skip) := by
  have hstep : Consumes 0 (do let _ ← nextName; skip) :=
    (nextName_consumes.mono (Nat.zero_le _)).bind fun _ => hs
  refine (whileNext_consumes (fun _ => hstep) ()).after fun _ => ?_
  exact popFrame_consumes.after fun _ => byte_consumes.bind fun _ => .pure ()

theorem closeArray_consumes (hs : Consumes 0 skip) : Consumes 1 (closeArray skip) := by
  refine (whileNext_consumes (fun _ => hs) ()).after fun _ => ?_
  refine popFrame_consumes.after fun _ => byte_consumes.bind fun mark => ?_
  split
  · exact .pure ()
  · exact .throw _ 0

theorem skipNested_consumes (depth : Nat) : Consumes 1 (skipNested depth) := by
  induction depth with
  | zero => exact .throw _ 1
  | succ depth ih =>
      have hskip := ih.mono (Nat.zero_le 1)
      refine valueKind_consumes.after fun kind => ?_
      match kind with
      | none => exact .throw _ 1
      | some .int | some .sint | some .long | some .slong =>
          exact varint_consumes.bind fun _ => .pure ()
      | some .fint | some .float =>
          exact ((take_consumes 4).mono (by omega)).bind fun _ => .pure ()
      | some .flong | some .double =>
          exact ((take_consumes 8).mono (by omega)).bind fun _ => .pure ()
      | some .string | some .binary => exact lengthPrefixed_consumes.bind fun _ => .pure ()
      | some .object => exact (pushFrame_consumes _).after fun _ => closeObject_consumes hskip
      | some .array =>
          exact openArray_consumes.bind fun _ => (closeArray_consumes hskip).mono (Nat.zero_le _)

/-- Leaving an object skips values only after their headers. -/
theorem closeObject_agree (hs : Consumes 0 skip) (h : Agree n skip skip') :
    Agree (n + 1) (closeObject skip) (closeObject skip') := by
  have hstep : Consumes 0 (do let _ ← nextName; skip) :=
    (nextName_consumes.mono (Nat.zero_le _)).bind fun _ => hs
  refine (whileNext_agree (fun _ => hstep) (fun _ => ?_) ()).bind
    (whileNext_consumes (fun _ => hstep) ()) fun _ => .refl _ _
  exact .after nextName_consumes fun _ => h

theorem closeArray_agree (hs : Consumes 0 skip) (h : Agree n skip skip') :
    Agree n (closeArray skip) (closeArray skip') :=
  (whileNext_agree (fun _ => hs) (fun _ => h) ()).bind (whileNext_consumes (fun _ => hs) ())
    fun _ => .refl _ _

/-- The bound on the nesting does not matter once it exceeds the bytes that are left. -/
theorem skipNested_agree (hd : n ≤ depth) (hd' : n ≤ depth') :
    Agree n (skipNested depth) (skipNested depth') := by
  induction n generalizing depth depth' with
  | zero => intro r hr; omega
  | succ n ih =>
      obtain ⟨depth, rfl⟩ : ∃ k, depth = k + 1 := ⟨depth - 1, by omega⟩
      obtain ⟨depth', rfl⟩ : ∃ k, depth' = k + 1 := ⟨depth' - 1, by omega⟩
      have hskip := (skipNested_consumes depth).mono (Nat.zero_le 1)
      have hagree := ih (show n ≤ depth by omega) (show n ≤ depth' by omega)
      refine (Agree.refl _ valueKind).bind valueKind_consumes fun kind => ?_
      match kind with
      | some .object =>
          exact (Agree.refl _ _).bind (pushFrame_consumes _) fun _ =>
            closeObject_agree hskip hagree
      | some .array => exact .after openArray_consumes fun _ => closeArray_agree hskip hagree
      | none | some .int | some .sint | some .fint | some .long | some .slong | some .flong
      | some .float | some .double | some .string | some .binary => exact .refl _ _

theorem skipNested_agree_skipValue (depth : Nat) : Agree depth (skipNested depth) skipValue :=
  fun r hr => skipNested_agree hr (Nat.le_refl _) r (Nat.lt_succ_self _)

theorem skipValue_consumes : Consumes 1 skipValue := fun r a r' h =>
  skipNested_consumes _ r a r' h

/-- Skip a value of a kind once its kind is known. -/
def skipContent : Kind → Read Unit
  | .int | .sint | .long | .slong => do let _ ← varint
  | .fint | .float => do let _ ← take 4
  | .flong | .double => do let _ ← take 8
  | .string | .binary => do let _ ← lengthPrefixed
  | .object => do
    pushFrame .object
    closeObject skipValue
  | .array => do
    openArray
    closeArray skipValue

/-- Skipping a value takes its kind, and then what belongs to the kind. -/
theorem skipValue_eq (hv : valueKind r = .ok (some kind) r₁) :
    skipValue r = skipContent kind r₁ := by
  have hrest := valueKind_rest hv
  have hlt : r₁.rest.length < r.rest.length + 1 := by rw [hrest]; omega
  have hskip := (skipNested_consumes r.rest.length).mono (Nat.zero_le 1)
  have hagree := skipNested_agree_skipValue r.rest.length
  unfold skipValue
  rw [get_bind, skipNested, bind_of_ok _ hv]
  match kind with
  | .object =>
      exact (Agree.refl _ _).bind (pushFrame_consumes _)
        (fun _ => closeObject_agree hskip hagree) r₁ hlt
  | .array => exact Agree.after openArray_consumes (fun _ => closeArray_agree hskip hagree) r₁ hlt
  | .int | .sint | .fint | .long | .slong | .flong | .float | .double | .string | .binary => rfl

end Read

end Missive.Wire
