import Missive.Proofs.Wire.Progress

/-!
# Missive.Proofs.Wire.Clock

Reading without bounds, by a clock.

The loops of the reader and the nesting of what it skips are bounded by the bytes that are left.
The functions here follow whatever counts and nesting the bytes claim; only a clock can stop them,
and then nothing comes of them.  `Timely n q p` says that `q`, run by a clock, comes to what `p`
comes to wherever fewer than `n` bytes are left.  Skipping is timely once the clock exceeds the
bytes that are left (`Clocked.skipValue_timely`), so that it ends on any bytes, and its bounds cut
nothing off.
-/

namespace Missive.Wire

/-- A step of reading by a clock; nothing comes of it if the clock runs out. -/
def Clocked (α : Type) : Type := Reader → Option (EStateM.Result ReadError Reader α)

instance : Monad Clocked where
  pure a := fun r => some (.ok a r)
  bind q g := fun r =>
    match q r with
    | some (.ok a r') => g a r'
    | some (.error e r') => some (.error e r')
    | none => none

instance : MonadLift Read Clocked where
  monadLift p := fun r => some (p r)

namespace Clocked

/-- The clock has run out. -/
def timeout : Clocked α := fun _ => none

/-- Repeat a step on a value while the current container has more. -/
def whileNext (step : α → Clocked α) : Nat → α → Clocked α
  | 0, _ => timeout
  | clock + 1, a => do
    if ← Read.hasNext then whileNext step clock (← step a) else return a

end Clocked

/-! ## the bounded reader unrolled -/

namespace Read

/-- A loop, every step of which reads a byte, is not cut off by its bound. -/
theorem whileNext_unfold {step : α → Read α} (hs : ∀ a, Consumes 1 (step a)) (a : α) :
    whileNext step a = do if ← hasNext then whileNext step (← step a) else return a := by
  funext r
  rw [whileNext_eq]
  cases hnext : hasNext r with
  | error e r' => rw [repeatNext, bind_of_error _ hnext, bind_of_error _ hnext]
  | ok more r' =>
      obtain rfl := hasNext_reader hnext
      rw [bind_of_ok _ hnext]
      cases more with
      | false => rw [repeatNext_of_false hnext]; rfl
      | true =>
          rw [repeatNext_of_true hnext, if_pos rfl]
          cases hstep : step a r' with
          | error e r₁ => rw [bind_of_error _ hstep, bind_of_error _ hstep]
          | ok b r₁ =>
              have hlt := hs a r' b r₁ hstep
              rw [bind_of_ok _ hstep, bind_of_ok _ hstep, whileNext_eq]
              exact repeatNext_fuel hs (by omega) (by omega) b

/-- Skipping a value is not cut off by its bound. -/
theorem skipValue_unfold :
    skipValue = (do
      match ← valueKind with
      | some kind => skipContent kind
      | none => fault .topLevelSkip) := by
  funext r
  cases hv : valueKind r with
  | error e r₁ =>
      rw [bind_of_error _ hv, skipValue, get_bind, skipNested, bind_of_error _ hv]
  | ok kind r₁ =>
      rw [bind_of_ok _ hv]
      cases kind with
      | some kind => exact skipValue_eq hv
      | none => rw [skipValue, get_bind, skipNested, bind_of_ok _ hv]

end Read

namespace Clocked

/-! ## steps in time -/

/-- A step by a clock comes to what another comes to, on all readers that have fewer than `n`
bytes. -/
def Timely (n : Nat) (q : Clocked α) (p : Read α) : Prop :=
  ∀ r, r.rest.length < n → q r = some (p r)

namespace Timely

theorem lift (n : Nat) (p : Read α) : Timely n (liftM p) p := fun _ _ => rfl

theorem pure (n : Nat) (a : α) : Timely n (Pure.pure a : Clocked α) (Pure.pure a) := fun _ _ => rfl

theorem mono {q : Clocked α} {p : Read α} (h : Timely n q p) (hle : k ≤ n) : Timely k q p :=
  fun r hr => h r (by omega)

/-- What follows has to be in time only where the first step can lead. -/
theorem andThen {q : Clocked α} {g : α → Clocked β} {p : Read α} {f : α → Read β}
    (h : Timely n q p)
    (hf : ∀ r a r', r.rest.length < n → p r = .ok a r' → g a r' = some (f a r')) :
    Timely n (q >>= g) (p >>= f) := by
  intro r hr
  have hq := h r hr
  cases hp : p r with
  | error e r' =>
      rw [hp] at hq
      rw [bind_of_error f hp]
      simp only [Bind.bind, hq]
  | ok a r' =>
      rw [hp] at hq
      rw [bind_of_ok f hp, ← hf r a r' hr hp]
      simp only [Bind.bind, hq]

theorem bind {q : Clocked α} {g : α → Clocked β} {p : Read α} {f : α → Read β}
    (h : Timely n q p) (hp : Consumes 0 p) (hf : ∀ a, Timely n (g a) (f a)) :
    Timely n (q >>= g) (p >>= f) := by
  refine h.andThen fun r a r' hr hpr => hf a r' ?_
  have hle := hp r a r' hpr
  omega

/-- A step that reads a byte leaves one byte less to what follows. -/
theorem after {q : Clocked α} {g : α → Clocked β} {p : Read α} {f : α → Read β}
    (h : Timely (n + 1) q p) (hp : Consumes 1 p) (hf : ∀ a, Timely n (g a) (f a)) :
    Timely (n + 1) (q >>= g) (p >>= f) := by
  refine h.andThen fun r a r' hr hpr => hf a r' ?_
  have hlt := hp r a r' hpr
  omega

/-- The current frames are looked at without reading. -/
theorem get_bind {g : Reader → Clocked β} {f : Reader → Read β}
    (hf : ∀ r, r.rest.length < n → g r r = some (f r r)) :
    Timely n (liftM (get : Read Reader) >>= g) (get >>= f) := fun r hr => hf r hr

/-- A loop is in time if its clock exceeds the bytes that are left: every step reads one. -/
theorem whileNext {step' : α → Clocked α} {step : α → Read α} (hs : ∀ a, Consumes 1 (step a))
    (h : ∀ a, Timely n (step' a) (step a)) (hle : n ≤ clock) (a : α) :
    Timely n (Clocked.whileNext step' clock a) (Read.whileNext step a) := by
  induction clock generalizing n a with
  | zero => intro r hr; omega
  | succ clock ih =>
      rw [Read.whileNext_unfold hs]
      refine (Timely.lift n Read.hasNext).bind Read.hasNext_consumes fun more => ?_
      cases more with
      | false => exact .pure n a
      | true =>
          refine (h a).andThen fun r b r' hr hstep => ?_
          have hlt := hs a r b r' hstep
          exact ih (fun a => (h a).mono (Nat.sub_le n 1)) (by omega) b r' (by omega)

end Timely

/-! ## skipping -/

/-- Leave an object, skipping the fields that are unread. -/
def closeObject (skip : Clocked Unit) (clock : Nat) : Clocked Unit := do
  whileNext (fun _ => do let _ ← Read.nextName; skip) clock ()
  (do Read.popFrame; let _ ← Read.byte : Read Unit)

/-- Leave an array, skipping the elements that are unread. -/
def closeArray (skip : Clocked Unit) (clock : Nat) : Clocked Unit := do
  whileNext (fun _ => skip) clock ()
  (do
    Read.popFrame
    let mark ← Read.byte
    if mark == 0 then return () else Read.fault (.arrayEndExpected mark) : Read Unit)

/-- Skip the next value, whatever its kind. -/
def skipValue : Nat → Clocked Unit
  | 0 => timeout
  | clock + 1 => do
    match ← Read.valueKind with
    | some .object =>
      Read.pushFrame .object
      closeObject (skipValue clock) (clock + 1)
    | some .array =>
      Read.openArray
      closeArray (skipValue clock) clock
    | some kind => Read.skipContent kind
    | none => Read.fault .topLevelSkip

/-- Skip the unread fields of the current object. -/
def skipRemaining (clock : Nat) : Clocked Unit :=
  whileNext (fun _ => do let _ ← Read.nextName; skipValue clock) clock ()

/-- Leave the current object, skipping the fields that are unread. -/
def endObject (clock : Nat) : Clocked Unit := do
  match (← (get : Read Reader)).frames with
  | .object :: _ => closeObject (skipValue clock) clock
  | _ => Read.fault .objectEndOutside

/-- Leave the current array, skipping the elements that are unread. -/
def endArray (clock : Nat) : Clocked Unit := do
  match (← (get : Read Reader)).frames with
  | .array .. :: _ => closeArray (skipValue clock) clock
  | _ => Read.fault .arrayEndOutside

theorem fieldSkip_timely {skip' : Clocked Unit} (h : Timely n skip' skip) :
    Timely (n + 1) (do let _ ← liftM Read.nextName; skip') (do let _ ← Read.nextName; skip) :=
  (Timely.lift _ _).after Read.nextName_consumes fun _ => h

theorem closeObject_timely {skip' : Clocked Unit} (hs : Consumes 0 skip) (h : Timely n skip' skip)
    (hle : n + 1 ≤ clock) : Timely (n + 1) (closeObject skip' clock) (Read.closeObject skip) := by
  have hstep : Consumes 1 (do let _ ← Read.nextName; skip) :=
    Read.nextName_consumes.bind fun _ => hs
  exact (Timely.whileNext (fun _ => hstep) (fun _ => fieldSkip_timely h) hle ()).bind
    (Read.whileNext_consumes (fun _ => hstep.mono (Nat.zero_le _)) ()) fun _ => .lift _ _

theorem closeArray_timely {skip' : Clocked Unit} (hs : Consumes 1 skip) (h : Timely n skip' skip)
    (hle : n ≤ clock) : Timely n (closeArray skip' clock) (Read.closeArray skip) :=
  (Timely.whileNext (fun _ => hs) (fun _ => h) hle ()).bind
    (Read.whileNext_consumes (fun _ => hs.mono (Nat.zero_le _)) ()) fun _ => .lift _ _

/-- Skipping is in time if the clock exceeds the bytes that are left. -/
theorem skipValue_timely (clock : Nat) : Timely clock (skipValue clock) Read.skipValue := by
  -- a value inside another lies after at least one byte: the header of a field, or the element kind
  -- of an array
  induction clock with
  | zero => intro r hr; omega
  | succ clock ih =>
      have hskip := Read.skipValue_consumes
      rw [Read.skipValue_unfold, skipValue]
      refine (Timely.lift _ _).bind Read.valueKind_consumes fun kind => ?_
      match kind with
      | some .object =>
          exact (Timely.lift _ _).bind (Read.pushFrame_consumes _) fun _ =>
            closeObject_timely (hskip.mono (Nat.zero_le _)) ih (Nat.le_refl _)
      | some .array =>
          exact (Timely.lift _ _).after Read.openArray_consumes fun _ =>
            closeArray_timely hskip ih (Nat.le_refl _)
      | none | some .int | some .sint | some .fint | some .long | some .slong | some .flong
      | some .float | some .double | some .string | some .binary => exact .lift _ _

theorem skipRemaining_timely (clock : Nat) :
    Timely clock (skipRemaining clock) Read.skipRemaining := by
  have hstep : Consumes 1 (do let _ ← Read.nextName; Read.skipValue) :=
    Read.nextName_consumes.bind fun _ => Read.skipValue_consumes.mono (Nat.zero_le _)
  exact .whileNext (fun _ => hstep)
    (fun _ => (fieldSkip_timely (skipValue_timely clock)).mono (Nat.le_succ _)) (Nat.le_refl _) ()

theorem endObject_timely (clock : Nat) : Timely clock (endObject clock) Read.endObject := by
  refine .get_bind fun r hr => ?_
  match hf : r.frames with
  | .object :: _ =>
      have hskip := (skipValue_timely clock).mono (Nat.sub_le clock 1)
      have hclose := closeObject_timely (Read.skipValue_consumes.mono (Nat.zero_le _)) hskip
        (show clock - 1 + 1 ≤ clock by omega)
      exact hclose r (by omega)
  | [] | .array .. :: _ => rfl

theorem endArray_timely (clock : Nat) : Timely clock (endArray clock) Read.endArray := by
  refine .get_bind fun r hr => ?_
  match hf : r.frames with
  | .array .. :: _ =>
      exact closeArray_timely Read.skipValue_consumes (skipValue_timely clock) (Nat.le_refl _) r hr
  | [] | .object :: _ => rfl

end Clocked

end Missive.Wire
