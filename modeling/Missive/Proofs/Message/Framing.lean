import Missive.Example
import Missive.Proofs.Message.Catalog
import Missive.Proofs.Message.Progress

/-!
# Missive.Proofs.Message.Framing

Reading a message and skipping it come to the same place, on any bytes.

`Framed p` says that wherever `p` reads a value, skipping the value succeeds as well and leaves the
same reader.  It holds of the reader of each primitive type, and from there of values, entries of
maps, fields and messages, along the definitions of the readers.
-/

namespace Missive

open Wire

namespace Wire

/-- A step that takes a value as a whole: where it succeeds, skipping the value leaves the same
reader, with nothing pending and the frames that follow a value of its kind. -/
def Framed (p : Read α) : Prop :=
  ∀ r kind frames' a r', Before kind r.pending r.frames frames' → p r = .ok a r' →
    Read.skipValue r = .ok () r' ∧ r'.pending = none ∧ r'.frames = frames'

/-- A step that leaves the reader where it is. -/
def Still (p : Read α) : Prop := ∀ r a r', p r = .ok a r' → r' = r

theorem Still.pure (a : α) : Still (Pure.pure a : Read α) := by
  intro r b r' h
  cases h
  rfl

theorem Still.fault (f : WireFault) : Still (Read.fault f : Read α) := by
  intro r b r' h
  contradiction

theorem Framed.bind {p : Read α} {f : α → Read β} (hp : Framed p) (hf : ∀ a, Still (f a)) :
    Framed (p >>= f) := by
  intro r kind frames' b r' hb h
  obtain ⟨a, r₁, h₁, h₂⟩ := bind_eq_ok h
  obtain rfl := hf a r₁ b r' h₂
  exact hp r kind frames' a r' hb h₁

theorem Framed.map {p : Read α} (g : α → β) (hp : Framed p) : Framed (g <$> p) := by
  rw [map_eq_pure_bind]
  exact hp.bind fun a => .pure (g a)

namespace Read

/-- Where a value of a kind is expected and found, it has that kind. -/
theorem expect_ok (hb : Before kind r.pending r.frames frames') (h : expect wanted r = .ok u r') :
    kind = wanted ∧ r' = ⟨r.rest, none, frames'⟩ := by
  by_cases hk : kind = wanted
  · subst hk
    have hx := expect_before hb r.rest
    rw [show (⟨r.rest, r.pending, r.frames⟩ : Reader) = r from rfl] at hx
    rw [hx] at h
    cases h
    exact ⟨rfl, rfl⟩
  · have hx := expect_mismatch hb hk r.rest
    rw [show (⟨r.rest, r.pending, r.frames⟩ : Reader) = r from rfl] at hx
    rw [hx] at h
    contradiction

theorem skipValue_before (hb : Before kind r.pending r.frames frames') :
    skipValue r = skipContent kind ⟨r.rest, none, frames'⟩ :=
  skipValue_eq (valueKind_before hb r.rest)

/-- A value of one piece, read as its kind says. -/
theorem framed_leaf {body : Read β} {f : β → Read α}
    (hbody : ∀ r b r', body r = .ok b r' →
      skipContent kind r = .ok () r' ∧ r'.pending = r.pending ∧ r'.frames = r.frames)
    (hf : ∀ b, Still (f b)) : Framed (expect kind >>= fun _ => body >>= f) := by
  intro r found frames' a r' hb h
  obtain ⟨_, r₁, hx, h'⟩ := bind_eq_ok h
  obtain ⟨rfl, rfl⟩ := expect_ok hb hx
  obtain ⟨b, r₂, hb', h''⟩ := bind_eq_ok h'
  obtain rfl := hf b r₂ a r' h''
  rw [skipValue_before hb]
  exact hbody _ b _ hb'

theorem varint_frames (h : varint r = .ok n r') :
    r'.pending = r.pending ∧ r'.frames = r.frames := by
  unfold varint at h
  split at h
  · cases h; exact ⟨rfl, rfl⟩
  · contradiction

theorem take_frames (h : take count r = .ok bs r') :
    r'.pending = r.pending ∧ r'.frames = r.frames := by
  unfold take at h
  split at h
  · cases h; exact ⟨rfl, rfl⟩
  · contradiction

theorem lengthPrefixed_frames (h : lengthPrefixed r = .ok bs r') :
    r'.pending = r.pending ∧ r'.frames = r.frames := by
  obtain ⟨n, r₁, h₁, h₂⟩ := bind_eq_ok h
  obtain ⟨hp, hf⟩ := varint_frames h₁
  obtain ⟨hp', hf'⟩ := take_frames h₂
  exact ⟨hp'.trans hp, hf'.trans hf⟩

theorem framed_varint {f : UInt64 → Read α} (hk : skipContent kind = (do let _ ← varint))
    (hf : ∀ n, Still (f n)) : Framed (expect kind >>= fun _ => varint >>= f) :=
  framed_leaf (fun r n r' h => ⟨by rw [hk]; exact bind_of_ok _ h, varint_frames h⟩) hf

theorem framed_fixed {f : Nat → Read α} (hk : skipContent kind = (do let _ ← take count))
    (hf : ∀ n, Still (f n)) : Framed (expect kind >>= fun _ => fixed count >>= f) := by
  refine framed_leaf (fun r n r' h => ?_) hf
  obtain ⟨bs, r₁, ht, h'⟩ := bind_eq_ok h
  cases h'
  exact ⟨by rw [hk]; exact bind_of_ok _ ht, take_frames ht⟩

theorem framed_bytes {f : List UInt8 → Read α}
    (hk : skipContent kind = (do let _ ← lengthPrefixed)) (hf : ∀ bs, Still (f bs)) :
    Framed (expect kind >>= fun _ => lengthPrefixed >>= f) :=
  framed_leaf (fun r n r' h => ⟨by rw [hk]; exact bind_of_ok _ h, lengthPrefixed_frames h⟩) hf

theorem framed_ulong : Framed ulong := by
  have h : Framed (expect .long >>= fun _ => varint >>= pure) := framed_varint rfl .pure
  simpa only [ulong, bind_pure] using h

theorem framed_binary : Framed binary := by
  have h : Framed (expect .binary >>= fun _ => lengthPrefixed >>= pure) := framed_bytes rfl .pure
  simpa only [binary, bind_pure] using h

/-! ## loops -/

/-- A loop of which each step does to the reader what skipping does ends where skipping ends.
`Inv` holds of the readers at the beginning of a step. -/
theorem repeatNext_skips {step : α → Read α} {skip : Read Unit} {Inv : Reader → Prop}
    (hstep : ∀ a r b r', Inv r → hasNext r = .ok true r → step a r = .ok b r' →
      skip r = .ok () r' ∧ Inv r')
    (hr : Inv r) (h : repeatNext hasNext step fuel a r = .ok b r') :
    repeatNext hasNext (fun _ => skip) fuel () r = .ok () r' ∧ Inv r' := by
  induction fuel generalizing a r with
  | zero => cases h; exact ⟨rfl, hr⟩
  | succ fuel ih =>
      obtain ⟨more, r₁, hn, h'⟩ := bind_eq_ok h
      obtain rfl := hasNext_reader hn
      cases more with
      | false => cases h'; exact ⟨repeatNext_of_false hn _ (), hr⟩
      | true =>
          obtain ⟨a', r₂, hs, h''⟩ := bind_eq_ok h'
          obtain ⟨hskip, hr₂⟩ := hstep a _ a' r₂ hr hn hs
          rw [repeatNext_of_true hn, bind_of_ok _ hskip]
          exact ih hr₂ h''

/-- After such a loop nothing is left to skip. -/
theorem whileNext_skips {step : α → Read α} {skip : Read Unit} {Inv : Reader → Prop}
    (hskip : Consumes 1 skip)
    (hstep : ∀ a r b r', Inv r → hasNext r = .ok true r → step a r = .ok b r' →
      skip r = .ok () r' ∧ Inv r')
    (hr : Inv r) (h : whileNext step a r = .ok b r') :
    whileNext (fun _ => skip) () r = .ok () r' ∧ whileNext (fun _ => skip) () r' = .ok () r' ∧
      Inv r' := by
  obtain ⟨hloop, hr'⟩ := repeatNext_skips hstep hr h
  have hdone : hasNext r' = .ok false r' := whileNext_done (fun _ => hskip) hloop
  exact ⟨hloop, repeatNext_of_false hdone _ (), hr'⟩

/-- Skip a field with its header. -/
def skipField : Read Unit := do
  let _ ← nextName
  skipValue

theorem skipField_consumes : Consumes 1 skipField :=
  nextName_consumes.bind fun _ => skipValue_consumes.mono (Nat.zero_le _)

/-- Inside an object and between two fields. -/
def BetweenFields (frames : List Frame) (r : Reader) : Prop :=
  r.pending = none ∧ r.frames = .object :: frames

/-- A field of which the value is read as a whole. -/
theorem skipField_of_framed {f : UInt32 → Read α} (hf : ∀ tag, Framed (f tag))
    (hr : BetweenFields frames r) (h : (nextName >>= f) r = .ok a r') :
    skipField r = .ok () r' ∧ BetweenFields frames r' := by
  obtain ⟨tag, r₁, hn, h'⟩ := bind_eq_ok h
  obtain ⟨kind, frames₁, hframes, hpending, hframes₁, _⟩ := nextName_ok hn
  obtain rfl : frames₁ = frames := by
    rw [hr.2] at hframes
    cases hframes
    rfl
  have hb : Before kind r₁.pending r₁.frames (.object :: frames₁) := by
    rw [hpending, hframes₁]
    exact .header _
  obtain ⟨hskip, hdone⟩ := hf tag r₁ kind _ a r' hb h'
  exact ⟨(bind_of_ok _ hn).trans hskip, hdone⟩

/-- Inside an array and between two elements. -/
def BetweenItems (kind : Kind) (frames : List Frame) (r : Reader) : Prop :=
  r.pending = none ∧ ∃ remaining, r.frames = .array kind remaining :: frames

/-- An element that is read as a whole. -/
theorem skipValue_of_framed {p : Read α} (hp : Framed p) (hr : BetweenItems kind frames r)
    (hn : hasNext r = .ok true r) (h : p r = .ok a r') :
    skipValue r = .ok () r' ∧ BetweenItems kind frames r' := by
  obtain ⟨hpending, remaining, hframes⟩ := hr
  obtain ⟨n, rfl⟩ : ∃ n, remaining = n + 1 := by
    unfold hasNext at hn
    rw [get_bind] at hn
    simp only [hframes] at hn
    cases remaining with
    | zero => cases hn
    | succ n => exact ⟨n, rfl⟩
  have hb : Before kind r.pending r.frames (.array kind n :: frames) := by
    rw [hpending, hframes]
    exact .item n frames
  obtain ⟨hskip, hpending', hframes'⟩ := hp r kind _ a r' hb h
  exact ⟨hskip, hpending', n, hframes'⟩

/-! ## skipping -/

theorem byte_frames (h : byte r = .ok b r') : r'.pending = r.pending ∧ r'.frames = r.frames := by
  unfold byte at h
  split at h
  · contradiction
  · cases h; exact ⟨rfl, rfl⟩

theorem closeObject_framed (hs : Framed skip) (hr : BetweenFields frames r)
    (h : closeObject skip r = .ok u r') :
    closeObject skipValue r = .ok () r' ∧ r'.pending = none ∧ r'.frames = frames := by
  obtain ⟨_, r₁, hloop, h'⟩ := bind_eq_ok h
  obtain ⟨hskip, -, hpending, hframes⟩ := whileNext_skips skipField_consumes
    (fun _ _ _ _ hr _ h => skipField_of_framed (fun _ => hs) hr h) hr hloop
  refine ⟨(bind_of_ok _ hskip).trans h', ?_⟩
  obtain ⟨b, r₂, hb, h''⟩ := bind_eq_ok (p := byte) (r := { r₁ with frames := r₁.frames.tail }) h'
  cases h''
  obtain ⟨hp, hf⟩ := byte_frames hb
  rw [hp, hf]
  exact ⟨hpending, by rw [hframes]; rfl⟩

theorem closeArray_framed (hs : Framed skip) (hr : BetweenItems kind frames r)
    (h : closeArray skip r = .ok u r') :
    closeArray skipValue r = .ok () r' ∧ r'.pending = none ∧ r'.frames = frames := by
  obtain ⟨_, r₁, hloop, h'⟩ := bind_eq_ok h
  obtain ⟨hskip, -, hpending, _, hframes⟩ := whileNext_skips skipValue_consumes
    (fun _ _ _ _ hr hn h => skipValue_of_framed hs hr hn h) hr hloop
  refine ⟨(bind_of_ok _ hskip).trans h', ?_⟩
  obtain ⟨b, r₂, hb, h''⟩ := bind_eq_ok (p := byte) (r := { r₁ with frames := r₁.frames.tail }) h'
  obtain rfl : r' = r₂ := by
    split at h''
    · cases h''; rfl
    · contradiction
  obtain ⟨hp, hf⟩ := byte_frames hb
  rw [hp, hf]
  exact ⟨hpending, by rw [hframes]; rfl⟩

theorem openArray_ok (h : openArray r = .ok u r') :
    r'.pending = r.pending ∧ ∃ kind count, r'.frames = .array kind count :: r.frames := by
  obtain ⟨code, r₁, hb, h'⟩ := bind_eq_ok h
  obtain ⟨hp, hf⟩ := byte_frames hb
  cases hk : Kind.ofCode? code.toNat with
  | none => simp only [hk] at h'; contradiction
  | some kind =>
      simp only [hk] at h'
      obtain ⟨count, r₂, hv, h''⟩ := bind_eq_ok h'
      obtain ⟨hp', hf'⟩ := varint_frames hv
      cases h''
      exact ⟨hp'.trans hp, kind, count.toNat, by rw [← hf, ← hf']⟩

theorem skipNested_framed (depth : Nat) : Framed (skipNested depth) := by
  induction depth with
  | zero => intro r kind frames' a r' _ h; contradiction
  | succ depth ih =>
      intro r kind frames' a r' hb h
      rw [skipValue_before hb]
      rw [skipNested, bind_of_ok _ (valueKind_before hb r.rest)] at h
      cases kind with
      | object => exact closeObject_framed ih ⟨rfl, rfl⟩ h
      | array =>
          obtain ⟨u, r₁, ho, h'⟩ := bind_eq_ok h
          obtain ⟨hpending, kind, count, hframes⟩ := openArray_ok ho
          simp only [skipContent]
          rw [bind_of_ok _ ho]
          exact closeArray_framed ih ⟨hpending, count, hframes⟩ h'
      | int | sint | long | slong =>
          obtain ⟨n, r₁, hv, h'⟩ := bind_eq_ok h
          cases h'
          exact ⟨h, varint_frames hv⟩
      | fint | float | flong | double =>
          obtain ⟨n, r₁, hv, h'⟩ := bind_eq_ok h
          cases h'
          exact ⟨h, take_frames hv⟩
      | string | binary =>
          obtain ⟨n, r₁, hv, h'⟩ := bind_eq_ok h
          cases h'
          exact ⟨h, lengthPrefixed_frames hv⟩

theorem skipValue_framed : Framed skipValue := fun r => skipNested_framed (r.rest.length + 1) r

/-! ## containers -/

/-- A part of reading an object, between two fields: the object is left from where it ends as from
where it began. -/
def InObject (p : Read α) : Prop :=
  ∀ frames r a r', BetweenFields frames r → p r = .ok a r' →
    closeObject skipValue r = closeObject skipValue r' ∧ BetweenFields frames r'

theorem InObject.of_still {p : Read α} (hp : Still p) : InObject p := by
  intro frames r a r' hr h
  obtain rfl := hp r a r' h
  exact ⟨rfl, hr⟩

theorem InObject.bind {p : Read α} {f : α → Read β} (hp : InObject p) (hf : ∀ a, InObject (f a)) :
    InObject (p >>= f) := by
  intro frames r b r' hr h
  obtain ⟨a, r₁, h₁, h₂⟩ := bind_eq_ok h
  obtain ⟨hc₁, hr₁⟩ := hp frames r a r₁ hr h₁
  obtain ⟨hc₂, hr₂⟩ := hf a frames r₁ b r' hr₁ h₂
  exact ⟨hc₁.trans hc₂, hr₂⟩

theorem inObject_fields {f : α → UInt32 → Read α} (hf : ∀ a tag, Framed (f a tag)) (a : α) :
    InObject (whileNext (fun a => nextName >>= f a) a) := by
  intro frames r b r' hr h
  obtain ⟨hloop, hdone, hr'⟩ := whileNext_skips skipField_consumes
    (fun a _ _ _ hr _ h => skipField_of_framed (hf a) hr h) hr h
  exact ⟨bind_eq_bind _ (hloop.trans hdone.symm), hr'⟩

/-- An object of which the parts before its end are read. -/
theorem framed_object {p : Read α} {f : α → Read β} (hp : InObject p) (hf : ∀ a, Still (f a)) :
    Framed (do beginObject; let a ← p; endObject; f a) := by
  intro r kind frames' b r' hb h
  obtain ⟨_, r₁, hbegin, h₁⟩ := bind_eq_ok h
  obtain ⟨_, r₀, hexpect, hpush⟩ := bind_eq_ok hbegin
  obtain ⟨rfl, rfl⟩ := expect_ok hb hexpect
  cases hpush
  obtain ⟨a, r₂, hread, h₂⟩ := bind_eq_ok h₁
  obtain ⟨_, r₃, hend, h₃⟩ := bind_eq_ok h₂
  obtain rfl := hf a r₃ b r' h₃
  obtain ⟨hclose, hr₂⟩ := hp frames' _ a r₂ ⟨rfl, rfl⟩ hread
  unfold endObject at hend
  rw [get_bind, hr₂.2] at hend
  rw [skipValue_before hb]
  exact closeObject_framed skipValue_framed ⟨rfl, rfl⟩ (hclose.trans hend)

/-- An array of which the elements are read. -/
theorem framed_array {p : α → Read α} {f : α → Read β} (hp : ∀ a, Framed (p a)) (a : α)
    (hf : ∀ a, Still (f a)) : Framed (do beginArray; let a ← whileNext p a; endArray; f a) := by
  intro r kind frames' b r' hb h
  obtain ⟨_, r₁, hbegin, h₁⟩ := bind_eq_ok h
  obtain ⟨_, r₀, hexpect, hopen⟩ := bind_eq_ok hbegin
  obtain ⟨rfl, rfl⟩ := expect_ok hb hexpect
  obtain ⟨hpending, kind, count, hframes⟩ := openArray_ok hopen
  have hr₁ : BetweenItems kind frames' r₁ := ⟨hpending, count, hframes⟩
  obtain ⟨a', r₂, hread, h₂⟩ := bind_eq_ok h₁
  obtain ⟨_, r₃, hend, h₃⟩ := bind_eq_ok h₂
  obtain rfl := hf a' r₃ b r' h₃
  obtain ⟨hloop, hdone, hr₂⟩ := whileNext_skips skipValue_consumes
    (fun a _ _ _ hr hn h => skipValue_of_framed (hp a) hr hn h) hr₁ hread
  obtain ⟨_, remaining, hframes₂⟩ := hr₂
  unfold endArray at hend
  rw [get_bind, hframes₂] at hend
  rw [skipValue_before hb]
  simp only [skipContent]
  rw [bind_of_ok _ hopen]
  have hclose : closeArray skipValue r₁ = closeArray skipValue r₂ :=
    bind_eq_bind _ (hloop.trans hdone.symm)
  exact closeArray_framed skipValue_framed hr₁ (hclose.trans hend)

end Read

end Wire

theorem Primitive.read_framed (p : Primitive) : Framed p.read := by
  cases p with
  | bool => exact .map _ (Read.framed_varint rfl fun n => .pure _)
  | int32 => exact .map _ (Read.framed_varint rfl fun n => .pure _)
  | uint32 => exact .map _ (Read.framed_varint rfl fun n => .pure _)
  | sint32 => exact .map _ (Read.framed_varint rfl fun n => .pure _)
  | fixed32 => exact .map _ (Read.framed_fixed rfl fun n => .pure _)
  | sfixed32 => exact .map _ (Read.framed_fixed rfl fun n => .pure _)
  | int64 => exact .map _ (Read.framed_varint rfl fun n => .pure _)
  | uint64 => exact .map _ Read.framed_ulong
  | sint64 => exact .map _ (Read.framed_varint rfl fun n => .pure _)
  | fixed64 => exact .map _ (Read.framed_fixed rfl fun n => .pure _)
  | sfixed64 => exact .map _ (Read.framed_fixed rfl fun n => .pure _)
  | float => exact .map _ (Read.framed_fixed rfl fun n => .pure _)
  | double => exact .map _ (Read.framed_fixed rfl fun n => .pure _)
  | string => exact .map _ (Read.framed_bytes rfl fun bs => by split; exacts [.pure _, .fault _])
  | bytes => exact .map _ Read.framed_binary

/-- The discriminator is the first field of an object. -/
theorem Wire.Read.inObject_typeId : InObject typeId := by
  intro frames r n r' hr h
  obtain ⟨more, r₁, hn, h'⟩ := bind_eq_ok h
  obtain rfl := hasNext_reader hn
  cases more with
  | false => contradiction
  | true =>
      have hf : ∀ tag : UInt32,
          Framed (if tag == 0 then uint else throw .missingDiscriminator) := by
        intro tag
        split
        · exact framed_varint rfl fun n => .pure _
        · intro _ _ _ _ _ _ h
          contradiction
      obtain ⟨hskip, hr'⟩ := skipField_of_framed hf hr h'
      exact ⟨bind_eq_bind _ (whileNext_cons (fun _ => skipField_consumes) hn hskip), hr'⟩

namespace Catalog

variable {c : Catalog}

theorem readValue_framed (hn : ∀ id, Framed (nested id)) (plan : ValuePlan) :
    Framed (c.readValue nested plan) := by
  cases plan with
  | primitive p => exact p.read_framed.bind fun s => .pure _
  | enumeration id =>
      exact (Read.framed_varint rfl fun n => .pure _ : Framed Read.int).bind fun n => .pure _
  | message id isAbstract => exact (hn id).bind fun m => .pure _

theorem readEntryFields_framed (hn : ∀ id, Framed (nested id)) (key value : ValuePlan) :
    Framed (c.readEntryFields nested key value) := by
  refine Read.framed_object (Read.inObject_fields (fun entry tag => ?_) _) fun entry => .pure _
  split
  · exact (readValue_framed hn key).bind fun k => .pure _
  · split
    · exact (readValue_framed hn value).bind fun v => .pure _
    · exact Read.skipValue_framed.bind fun _ => .pure _

theorem readField_framed (hn : ∀ id, Framed (nested id)) (slot : Slot) :
    Framed (c.readField nested slot) := by
  unfold readField
  split
  · exact (readValue_framed hn _).bind fun v => .pure _
  · exact Read.framed_array (fun items => (readValue_framed hn _).bind fun v => .pure _) _
      fun items => .pure _
  · refine Read.framed_array (fun entries => ?_) _ fun entries => .pure _
    refine (readEntryFields_framed hn _ _).bind fun entry => ?_
    split
    · exact .pure _
    · intro _ _ _ h
      contradiction

theorem readFields_inObject (hn : ∀ id, Framed (nested id)) (id : MessageId) :
    Wire.Read.InObject (c.readFields nested id) := by
  refine (Read.inObject_fields (fun fields tag => ?_) _).bind fun fields => .of_still (.pure _)
  split
  · exact (readField_framed hn _).bind fun v => .pure _
  · exact Read.skipValue_framed.bind fun _ => .pure _

theorem readType_inObject (id : MessageId) : Wire.Read.InObject (c.readType id) := by
  unfold readType
  split
  · exact Read.inObject_typeId.bind fun n => .of_still (.pure _)
  · exact .of_still (.pure _)

theorem readNested_framed (depth : Nat) (id : MessageId) : Framed (c.readNested depth id) := by
  induction depth generalizing id with
  | zero => intro r kind frames' a r' _ h; contradiction
  | succ depth ih =>
      rw [readNested_succ]
      refine Read.framed_object ((readType_inObject id).bind fun type => ?_) fun message => .pure _
      cases type with
      | none => exact .of_still (.pure _)
      | some type =>
          simp only [map_eq_pure_bind]
          exact (readFields_inObject ih type).bind fun message => .of_still (.pure _)

/-- **Reading and skipping agree on framing**: where a message is read, in the place of a value of
the object kind and from any bytes, skipping the value succeeds and leaves the same reader, with
nothing pending and the same open containers. -/
theorem skipValue_of_readMessage (c : Catalog) (id : MessageId)
    (hb : Before .object r.pending r.frames frames') (h : c.readMessage id r = .ok message r') :
    Read.skipValue r = .ok () r' ∧ r'.pending = none ∧ r'.frames = frames' :=
  readNested_framed (r.rest.length + 1) id r .object frames' message r' hb h

/-- A group with long spellings, a tag that is not known and a member that is not known, as the
first of two elements. -/
def strangeGroup : Reader where
  rest := [0x81, 0x00, 0x83, 0x80, 0x00, 0x9c, 0x01, 9, 1, 1, 0x61, 0,
    0x3c, 11, 2, 0x01, 99, 0x19, 1, 0x62, 0, 0x01, 0x01, 0, 0, 0, 5]
  frames := [.array .object 2]

/-- Whether a step succeeds and leaves a reader. -/
def leaves (x : EStateM.Result ReadError Reader α) (r : Reader) : Bool :=
  match x with
  | .ok _ r' => r' = r
  | .error _ _ => false

theorem exists_of_leaves {x : EStateM.Result ReadError Reader α} (h : leaves x r = true) :
    ∃ a, x = .ok a r := by
  cases x with
  | ok a r' => exact ⟨a, by rw [of_decide_eq_true h]⟩
  | error e r' => contradiction

theorem skipValue_strangeGroup : ∃ m c message, Model.ofSchema Example.shapes = .ok m ∧
    ofModel m = .ok c ∧
    c.readMessage 0 strangeGroup = .ok message ⟨[5], none, [.array .object 1]⟩ ∧
    Read.skipValue strangeGroup = .ok () ⟨[5], none, [.array .object 1]⟩ := by
  have hcatalog : (ofSchema? Example.shapes).any (fun c =>
      leaves (c.readMessage 0 strangeGroup) ⟨[5], none, [.array .object 1]⟩) = true := by
    decide +kernel
  obtain ⟨m, c, hm, hc, hleaves⟩ := exists_of_any hcatalog
  obtain ⟨message, hread⟩ := exists_of_leaves hleaves
  exact ⟨m, c, message, hm, hc, hread, (skipValue_of_readMessage c 0 (.item 1 []) hread).1⟩

end Catalog

end Missive
