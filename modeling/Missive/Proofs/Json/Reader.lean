import Missive.Json.Reader
import Missive.Proofs.Reading

/-!
# Missive.Proofs.Json.Reader

What the steps of the JSON reader do to a reader that stands in front of a value.

`Before` says where a reader stands: behind a name, or at an element of an array.  `Reads p f` says
that `p` depends on nothing but the value: it ends as `f` says, right behind the value.  Loops over
the parts of a container are folds (`Read.whileNext_members` and `Read.whileNext_items`).
-/

namespace Missive.Json

/-! ## in front of a value -/

/-- A reader with this pending value and these frames stands in front of a value; once the value is
begun, its frames are the last ones given. -/
inductive Before (value : Json) :
    Option Json → List Reader.Frame → List Reader.Frame → Prop where
  | name (frames : List Reader.Frame) : Before value (some value) frames frames
  | item (items : List Json) (frames : List Reader.Frame) :
      Before value none (.array (value :: items) :: frames) (.array items :: frames)

/-- A step reads values as a function says: it ends with what the function gives, and right behind
the value. -/
def Reads (p : Read α) (f : Json → Except ReadError α) : Prop :=
  ∀ value pending frames frames', Before value pending frames frames' →
    Yields (p ⟨pending, frames⟩) (f value) ⟨none, frames'⟩

/-- What a step makes of a value on its own. -/
def Read.on (p : Read α) (value : Json) : Except ReadError α := outcome (p (.ofJson value))

theorem Reads.on_eq {p : Read α} (h : Reads p f) (value : Json) : p.on value = f value :=
  (h value _ _ _ (.name [])).outcome_eq

/-- A step that does not touch the reader. -/
def IsSteady (p : Read α) : Prop := ∃ result, ∀ r, Yields (p r) result r

theorem isSteady_pure (a : α) : IsSteady (pure a : Read α) := ⟨.ok a, fun _ => rfl⟩

theorem isSteady_throw (e : ReadError) : IsSteady (throw e : Read α) :=
  ⟨.error e, fun r => ⟨r, rfl⟩⟩

/-- A step that reads a value may go on without touching the reader. -/
theorem Reads.bind_steady {p : Read α} {k : α → Read β} (hp : Reads p f)
    (hk : ∀ a, IsSteady (k a)) : Reads (p >>= k) (p >>= k).on := by
  choose g hg using hk
  have h : Reads (p >>= k) (fun value => f value >>= g) := fun value pending frames frames' hb =>
    (hp value pending frames frames' hb).bind fun a => hg a _
  intro value pending frames frames' hb
  rw [h.on_eq]
  exact h value pending frames frames' hb

theorem Reads.map {p : Read α} (g : α → β) (hp : Reads p p.on) : Reads (g <$> p) (g <$> p).on := by
  rw [map_eq_pure_bind]
  exact hp.bind_steady fun a => isSteady_pure (g a)

namespace Read

theorem next_reads : Reads next .ok := by
  intro value pending frames frames' hb
  cases hb <;> rfl

/-- Where there is a next value, a reader stands in front of it. -/
theorem before_of_next {r r' : Reader} (h : next r = .ok value r') :
    Before value r.pending r.frames r'.frames ∧ r'.pending = none := by
  obtain ⟨pending, frames⟩ := r
  unfold next at h
  split at h
  · next hpending =>
      cases h
      obtain rfl : pending = some value := hpending
      exact ⟨.name frames, rfl⟩
  · next hpending =>
      obtain rfl : pending = none := hpending
      split at h
      · next hframes =>
          cases h
          obtain rfl : frames = _ := hframes
          exact ⟨.item _ _, rfl⟩
      · contradiction
      · contradiction
      · contradiction

/-- Looking for `null` leaves the reader in front of the value. -/
theorem peekNull_before (hb : Before value pending frames frames') :
    peekNull ⟨pending, frames⟩ = .ok value.isNull ⟨pending, frames⟩ := by
  cases hb <;> rfl

theorem skipValue_before (hb : Before value pending frames frames') :
    skipValue ⟨pending, frames⟩ = .ok () ⟨none, frames'⟩ :=
  bind_of_ok _ (next_reads value _ _ _ hb)

/-! ## scalars -/

theorem bool_reads : Reads bool bool.on := by
  refine next_reads.bind_steady fun value => ?_
  split
  · exact isSteady_pure _
  · exact isSteady_throw _

theorem whole_reads (wanted : JsonExpectation) (least limit : Int) :
    Reads (whole wanted least limit) (whole wanted least limit).on := by
  refine next_reads.bind_steady fun value => ?_
  split
  · split
    · exact isSteady_pure _
    · exact isSteady_throw _
  · exact isSteady_throw _

theorem long_reads : Reads long long.on :=
  (whole_reads _ _ _).bind_steady fun _ => isSteady_pure _

theorem ulong_reads : Reads ulong ulong.on :=
  (whole_reads _ _ _).bind_steady fun _ => isSteady_pure _

theorem int_reads : Reads int int.on := by
  refine long_reads.bind_steady fun n => ?_
  dsimp only
  split
  · exact isSteady_pure _
  · exact isSteady_throw _

theorem uint_reads : Reads uint uint.on := by
  refine ulong_reads.bind_steady fun n => ?_
  dsimp only
  split
  · exact isSteady_pure _
  · exact isSteady_throw _

theorem double_reads : Reads double double.on := by
  refine next_reads.bind_steady fun value => ?_
  split
  · exact isSteady_pure _
  · split
    · exact isSteady_pure _
    · split
      · exact isSteady_pure _
      · split
        · exact isSteady_pure _
        · exact isSteady_throw _
  · exact isSteady_throw _

theorem float_reads : Reads float float.on := double_reads.bind_steady fun _ => isSteady_pure _

theorem string_reads : Reads string string.on := by
  refine next_reads.bind_steady fun value => ?_
  split
  · exact isSteady_pure _
  · exact isSteady_pure _
  · exact isSteady_throw _

theorem binary_reads : Reads binary binary.on := by
  refine next_reads.bind_steady fun value => ?_
  split
  · split
    · exact isSteady_pure _
    · exact isSteady_throw _
  · exact isSteady_pure _
  · exact isSteady_throw _

end Read

/-! ## how much values weigh -/

theorem weight_pos (v : Json) : 0 < v.weight := by
  cases v <;> simp [weight]

theorem weight_le_items (h : item ∈ items) : item.weight ≤ weightItems items := by
  induction items with
  | nil => contradiction
  | cons first items ih =>
      rw [weightItems]
      obtain rfl | h := List.mem_cons.mp h
      · omega
      · have := ih h
        omega

theorem weight_lt_members {members : List (String × Json)} (h : member ∈ members) :
    member.2.weight < weightMembers members := by
  induction members with
  | nil => contradiction
  | cons first members ih =>
      rw [weightMembers]
      obtain rfl | h := List.mem_cons.mp h
      · omega
      · have := ih h
        omega

/-! ## containers -/

/-- The error for a value of another kind than the one that is wanted. -/
def mismatch (wanted : JsonExpectation) (value : Json) : Except ReadError α :=
  .error (.json (.expected wanted value.kind))

/-- Take the properties of an object one after the other. -/
def foldObject (next : α → String × Json → Except ReadError α) (a : α) :
    Json → Except ReadError α
  | .object members => members.foldlM next a
  | value => value.mismatch .object

/-- Take the elements of an array one after the other. -/
def foldArray (next : α → Json → Except ReadError α) (a : α) : Json → Except ReadError α
  | .array items => items.foldlM next a
  | value => value.mismatch .array

namespace Read

theorem whileNext_eq {step : α → Read α} {a : α} (h : remaining r = .ok count r) :
    whileNext step a r = repeatNext hasNext step (count + 1) a r := bind_of_ok _ h

/-- A loop over the properties of an object, each of which one step takes. -/
theorem whileNext_members {step : α → Read α} {next : α → String × Json → Except ReadError α}
    (frames : List Reader.Frame)
    (hstep : ∀ a name value members,
      Yields (step a ⟨none, .object ((name, value) :: members) :: frames⟩) (next a (name, value))
        ⟨none, .object members :: frames⟩) (members : List (String × Json)) (a : α) :
    Yields (whileNext step a ⟨none, .object members :: frames⟩) (members.foldlM next a)
      ⟨none, .object [] :: frames⟩ := by
  rw [whileNext_eq (show remaining _ = .ok members.length _ from rfl)]
  induction members generalizing a with
  | nil => exact .ok (repeatNext_of_false (show hasNext _ = .ok false _ from rfl) _ a)
  | cons member members ih =>
      rw [repeatNext_of_true (show hasNext _ = .ok true _ from rfl), List.foldlM_cons]
      exact (hstep a member.1 member.2 members).bind ih

/-- A loop over the elements of an array, each of which one step takes. -/
theorem whileNext_items {step : α → Read α} {next : α → Json → Except ReadError α}
    (hstep : ∀ a, Reads (step a) (next a)) (frames : List Reader.Frame) (items : List Json)
    (a : α) :
    Yields (whileNext step a ⟨none, .array items :: frames⟩) (items.foldlM next a)
      ⟨none, .array [] :: frames⟩ := by
  rw [whileNext_eq (show remaining _ = .ok items.length _ from rfl)]
  induction items generalizing a with
  | nil => exact .ok (repeatNext_of_false (show hasNext _ = .ok false _ from rfl) _ a)
  | cons item items ih =>
      rw [repeatNext_of_true (show hasNext _ = .ok true _ from rfl), List.foldlM_cons]
      exact (hstep a item _ _ _ (.item items frames)).bind ih

theorem beginObject_before (hb : Before (.object members) pending frames frames') :
    beginObject ⟨pending, frames⟩ = .ok () ⟨none, .object members :: frames'⟩ :=
  bind_of_ok _ (next_reads _ _ _ _ hb)

theorem beginArray_before (hb : Before (.array items) pending frames frames') :
    beginArray ⟨pending, frames⟩ = .ok () ⟨none, .array items :: frames'⟩ :=
  bind_of_ok _ (next_reads _ _ _ _ hb)

/-- An object that is read property by property. -/
theorem object_reads {step : α → Read α} {next : α → String × Json → Except ReadError α}
    (finish : α → β) (hstep : ∀ frames a name value members,
      Yields (step a ⟨none, .object ((name, value) :: members) :: frames⟩) (next a (name, value))
        ⟨none, .object members :: frames⟩) (a : α) :
    Reads (do
        beginObject
        let b ← whileNext step a
        endObject
        return finish b)
      (fun value => do return finish (← foldObject next a value)) := by
  intro value pending frames frames' hb
  match value with
  | .object members =>
      rw [bind_of_ok _ (beginObject_before hb)]
      exact (whileNext_members frames' (hstep frames') members a).bind fun b => .ok rfl
  | .null | .bool _ | .number _ | .string _ | .array _ =>
      exact .error (bind_of_error _ (bind_of_ok _ (next_reads _ _ _ _ hb)))

/-- An array that is read element by element. -/
theorem array_reads {step : α → Read α} {next : α → Json → Except ReadError α} (finish : α → β)
    (hstep : ∀ a, Reads (step a) (next a)) (a : α) :
    Reads (do
        beginArray
        let b ← whileNext step a
        endArray
        return finish b)
      (fun value => do return finish (← foldArray next a value)) := by
  intro value pending frames frames' hb
  match value with
  | .array items =>
      rw [bind_of_ok _ (beginArray_before hb)]
      exact (whileNext_items hstep frames' items a).bind fun b => .ok rfl
  | .null | .bool _ | .number _ | .string _ | .object _ =>
      exact .error (bind_of_error _ (bind_of_ok _ (next_reads _ _ _ _ hb)))

end Read

end Missive.Json
