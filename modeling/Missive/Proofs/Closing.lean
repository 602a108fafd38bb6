import Missive.Proofs.Json.Reader
import Missive.Proofs.Message.Framing
import Missive.Proofs.Wire.Recognition

/-!
# Missive.Proofs.Closing

Leaving an object of which fields are unread.

Between two fields both readers leave an object as a whole, however many of its fields were read
(`Passes`).  Behind a name neither of them does.  The binary reader takes the value that was
announced for further fields: it comes to the end of the object if the value and the fields after
it happen to read that way, and stops in the middle of it if the value begins with a zero.  The
JSON reader drops the fields, but the value stays pending, and the object around gets it next.
-/

namespace Missive

/-- From one reader to another by reading fields: a name, then a step of a kind `Whole` that takes
the value. -/
inductive Passes {σ ν : Type} (nextName : EStateM ReadError σ ν)
    (Whole : ∀ α : Type, EStateM ReadError σ α → Prop) : σ → σ → Prop where
  | nil (r : σ) : Passes nextName Whole r r
  | field {r r₁ r₂ r' : σ} {name : ν} {α : Type} {p : EStateM ReadError σ α} {a : α}
      (hname : nextName r = .ok name r₁) (hp : Whole α p) (hvalue : p r₁ = .ok a r₂)
      (h : Passes nextName Whole r₂ r') : Passes nextName Whole r r'

/-! ## the binary reader -/

namespace Wire

/-- Fields that are read leave the spelling of the others. -/
theorem spellsFields_of_passes (hs : SpellsFields fields bs)
    (h : Passes Read.nextName @Framed ⟨bs ++ (endMark ++ rest), none, .object :: frames⟩ r') :
    ∃ done fields' bs', fields = done ++ fields' ∧ SpellsFields fields' bs' ∧
      r' = ⟨bs' ++ (endMark ++ rest), none, .object :: frames⟩ := by
  generalize hr : (⟨bs ++ (endMark ++ rest), none, .object :: frames⟩ : Reader) = r at h
  induction h generalizing fields bs with
  | nil r => exact ⟨[], fields, bs, rfl, hs, hr.symm⟩
  | @field r r₁ r₂ r' name α p a hname hp hvalue _ ih =>
      subst hr
      cases hs with
      | nil => contradiction
      | @cons tag t fields head body tail hh ht htail =>
          rw [List.append_assoc, List.append_assoc, Read.nextName_append hh] at hname
          cases hname
          obtain ⟨hskip, -, -⟩ := hp _ t.kind _ a r₂ (.header _) hvalue
          rw [Read.skipValue_append ht (.header _)] at hskip
          cases hskip
          obtain ⟨done, fields', bs', rfl, hs', hr'⟩ := ih htail rfl
          exact ⟨(name, t) :: done, fields', bs', rfl, hs', hr'⟩

namespace Read

theorem endObject_object (rest : List UInt8) (pending : Option Kind) (frames : List Frame) :
    endObject ⟨rest, pending, .object :: frames⟩ =
      closeObject skipValue ⟨rest, pending, .object :: frames⟩ := rfl

/-- Leaving an object with unread fields forgets what was pending. -/
theorem endObject_cons (hs : SpellsFields (first :: fields) bs) (rest : List UInt8)
    (pending : Option Kind) (frames : List Frame) :
    endObject ⟨bs ++ (endMark ++ rest), pending, .object :: frames⟩ =
      .ok () ⟨rest, none, frames⟩ := by
  have hall := endObject_append hs rest frames
  cases hs with
  | @cons tag t _ head body tail hh ht htail =>
      rw [List.append_assoc, List.append_assoc] at hall ⊢
      -- the header of the first field replaces what is pending, so the loops go on alike
      have hfirst : ∀ pending, whileNext (fun _ => do let _ ← nextName; skipValue) ()
          ⟨head ++ (body ++ (tail ++ (endMark ++ rest))), pending, .object :: frames⟩ =
          whileNext (fun _ => do let _ ← nextName; skipValue) ()
            ⟨tail ++ (endMark ++ rest), none, .object :: frames⟩ := fun pending =>
        whileNext_cons
          (fun _ => nextName_consumes.bind fun _ => skipValue_consumes.mono (Nat.zero_le 1))
          (hasNext_header hh _ pending frames)
          ((bind_of_ok _ (nextName_append hh _ pending frames)).trans
            (skipValue_append ht (.header _) _))
      rw [← hall, endObject_object, endObject_object]
      exact bind_eq_bind _ ((hfirst pending).trans (hfirst none).symm)

/-- Behind a name, an object is left as a whole where the unread bytes are the spelling of fields
and the end mark. -/
theorem endObject_named_iff (hunread : rest.length + 1 < xs.length) :
    endObject ⟨xs, pending, .object :: frames⟩ = .ok () ⟨rest, none, frames⟩ ↔
      ∃ others unread, SpellsFields others unread ∧ xs = unread ++ (endMark ++ rest) := by
  constructor
  · intro h
    obtain ⟨others, unread, hs, hbytes, -⟩ := spellsFields_of_endObject h
    exact ⟨others, unread, hs, hbytes⟩
  · rintro ⟨others, unread, hs, rfl⟩
    cases others with
    | nil =>
        cases hs
        simp [endMark] at hunread
    | cons other others => exact endObject_cons hs rest pending frames

/-- Where the next byte is a zero, it is taken for the end mark. -/
theorem endObject_zero (xs : List UInt8) (pending : Option Kind) (frames : List Frame) :
    endObject ⟨0 :: xs, pending, .object :: frames⟩ = .ok () ⟨xs, pending, frames⟩ := by
  have hloop : whileNext (fun _ => do let _ ← nextName; skipValue) ()
      ⟨0 :: xs, pending, .object :: frames⟩ = .ok () ⟨0 :: xs, pending, .object :: frames⟩ :=
    repeatNext_of_false (hasNext_object 0 xs pending frames) _ ()
  rw [endObject_object, closeObject, bind_of_ok _ hloop]
  rfl

end Read

end Wire

/-! ## the JSON reader -/

namespace Json

/-- A step that takes a value as a whole: where it succeeds, it leaves the reader right behind the
value. -/
def Takes (p : Read α) : Prop :=
  ∀ value r frames' a r', Before value r.pending r.frames frames' → p r = .ok a r' →
    r' = ⟨none, frames'⟩

theorem Reads.takes {p : Read α} (h : Reads p f) : Takes p := by
  intro value r frames' a r' hb hp
  have hy := h value _ _ _ hb
  cases hf : f value with
  | ok b =>
      rw [hf] at hy
      cases hp.symm.trans hy
      rfl
  | error e =>
      rw [hf] at hy
      obtain ⟨_, he⟩ := hy
      cases hp.symm.trans he

/-- Properties that are read leave the others. -/
theorem members_of_passes
    (h : Passes Read.nextName @Takes ⟨none, .object members :: frames⟩ r') :
    ∃ done members', members = done ++ members' ∧ r' = ⟨none, .object members' :: frames⟩ := by
  generalize hr : (⟨none, .object members :: frames⟩ : Reader) = r at h
  induction h generalizing members with
  | nil r => exact ⟨[], members, rfl, hr.symm⟩
  | @field r r₁ r₂ r' name α p a hname hp hvalue _ ih =>
      subst hr
      cases members with
      | nil => contradiction
      | cons member members =>
          cases hname
          obtain rfl := hp _ _ _ a r₂ (.name _) hvalue
          obtain ⟨done, members', rfl, hr'⟩ := ih rfl
          exact ⟨member :: done, members', rfl, hr'⟩

end Json

/-! ## both readers -/

/-- **Between two fields an object is left as a whole**, whatever of it is unread.  Behind a name
the binary reader comes to the same place only if the unread bytes read as fields, and the JSON
reader never does, since the value of the name stays pending. -/
theorem endObject_of_passes (bs rest : List UInt8) (members : List (String × Json)) :
    (∀ fields pending frames frames', Wire.SpellsFields fields bs →
      Wire.BeforeMessage pending frames frames' →
      ∃ r, Wire.Read.beginObject ⟨bs ++ (Wire.endMark ++ rest), pending, frames⟩ = .ok () r ∧
        ∀ r', Passes Wire.Read.nextName @Wire.Framed r r' →
          Wire.Read.endObject r' = .ok () ⟨rest, none, frames'⟩ ∧
          ∀ tag r'', Wire.Read.nextName r' = .ok tag r'' →
            (Wire.Read.endObject r'' = .ok () ⟨rest, none, frames'⟩ ↔
              ∃ others unread, Wire.SpellsFields others unread ∧
                r''.rest = unread ++ (Wire.endMark ++ rest)) ∧
            ∀ xs, r''.rest = 0 :: xs →
              Wire.Read.endObject r'' = .ok () ⟨xs, r''.pending, frames'⟩) ∧
    (∀ pending frames frames', Json.Before (.object members) pending frames frames' →
      ∃ r, Json.Read.beginObject ⟨pending, frames⟩ = .ok () r ∧
        ∀ r', Passes Json.Read.nextName @Json.Takes r r' →
          Json.Read.endObject r' = .ok () ⟨none, frames'⟩ ∧
          ∀ name r'', Json.Read.nextName r' = .ok name r'' →
            ∃ value, (name, value) ∈ members ∧
              Json.Read.endObject r'' = .ok () ⟨some value, frames'⟩) := by
  constructor
  · intro fields pending frames frames' hs hb
    refine ⟨_, Wire.Read.beginObject_before hb _, fun r' hpasses => ?_⟩
    obtain ⟨done, fields', bs', -, hs', rfl⟩ := Wire.spellsFields_of_passes hs hpasses
    refine ⟨Wire.Read.endObject_append hs' rest frames', fun tag r'' hname => ?_⟩
    cases hs' with
    | nil => contradiction
    | @cons tag t fields' head body tail hh ht htail =>
        rw [List.append_assoc, Wire.Read.nextName_append hh] at hname
        cases hname
        have hunread : rest.length + 1 <
            (body ++ tail ++ (Wire.endMark ++ rest)).length := by
          have := ht.length_pos
          simp only [Wire.endMark, List.length_append, List.length_singleton]
          omega
        refine ⟨Wire.Read.endObject_named_iff hunread, fun xs hzero => ?_⟩
        rw [show body ++ tail ++ (Wire.endMark ++ rest) = 0 :: xs from hzero]
        exact Wire.Read.endObject_zero xs _ _
  · intro pending frames frames' hb
    refine ⟨_, Json.Read.beginObject_before hb, fun r' hpasses => ?_⟩
    obtain ⟨done, members', rfl, rfl⟩ := Json.members_of_passes hpasses
    refine ⟨rfl, fun name r'' hname => ?_⟩
    cases members' with
    | nil => contradiction
    | cons member members' =>
        cases hname
        exact ⟨member.2, by simp, rfl⟩

/-- The spelling of a number and of a text, of which the bytes of the second read as a number. -/
theorem Wire.spellsFields_twoFields :
    SpellsFields [(1, .int 5), (2, .string [5])] [0x11, 5, 0x29, 1, 5] :=
  .cons (isVarint_varint _) (.int (isVarint_varint 5))
    (.cons (isVarint_varint _) (.string (isVarint_varint 1) rfl) .nil)

theorem endObject_of_passes_array :
    (∃ r', Wire.Read.beginObject ⟨[0x11, 5, 0x29, 1, 5, 0, 7], none, [.array .object 1]⟩ =
        .ok () ⟨[0x11, 5, 0x29, 1, 5, 0, 7], none, [.object, .array .object 0]⟩ ∧
      Passes Wire.Read.nextName @Wire.Framed
        ⟨[0x11, 5, 0x29, 1, 5, 0, 7], none, [.object, .array .object 0]⟩ r' ∧
      Wire.Read.endObject r' = .ok () ⟨[7], none, [.array .object 0]⟩ ∧
      ∃ r'', Wire.Read.nextName r' = .ok 2 r'' ∧
        Wire.Read.endObject r'' = .ok () ⟨[7], none, [.array .object 0]⟩) ∧
    ∃ r', Passes Json.Read.nextName @Json.Takes
        ⟨none, [.object [("a", .null), ("b", .bool true)], .array [.null]]⟩ r' ∧
      Json.Read.endObject r' = .ok () ⟨none, [.array [.null]]⟩ ∧
      ∃ r'' value, Json.Read.nextName r' = .ok "b" r'' ∧
        Json.Read.endObject r'' = .ok () ⟨some value, [.array [.null]]⟩ := by
  obtain ⟨hwire, hjson⟩ := endObject_of_passes [0x11, 5, 0x29, 1, 5] [7]
    [("a", .null), ("b", .bool true)]
  constructor
  · obtain ⟨r, hbegin, hpasses⟩ := hwire _ none [.array .object 1] _
      Wire.spellsFields_twoFields (.inside (.item 0 []))
    cases hbegin
    have hfirst : Passes Wire.Read.nextName @Wire.Framed
        ⟨[0x11, 5, 0x29, 1, 5, 0, 7], none, [.object, .array .object 0]⟩
        ⟨[0x29, 1, 5, 0, 7], none, [.object, .array .object 0]⟩ :=
      .field rfl Wire.Read.skipValue_framed rfl (.nil _)
    obtain ⟨hend, hnamed⟩ := hpasses _ hfirst
    refine ⟨_, rfl, hfirst, hend, _, rfl, (hnamed 2 _ rfl).1.mpr ⟨[(0, .int 5)], [1, 5], ?_, rfl⟩⟩
    exact .cons (Wire.isVarint_varint _) (.int (Wire.isVarint_varint 5)) .nil
  · obtain ⟨r, hbegin, hpasses⟩ := hjson _ _ _ (.item [.null] [])
    cases hbegin
    have hfirst : Passes Json.Read.nextName @Json.Takes
        ⟨none, [.object [("a", .null), ("b", .bool true)], .array [.null]]⟩
        ⟨none, [.object [("b", .bool true)], .array [.null]]⟩ :=
      .field rfl Json.Read.next_reads.takes rfl (.nil _)
    obtain ⟨hend, hnamed⟩ := hpasses _ hfirst
    obtain ⟨value, -, hstale⟩ := hnamed "b" _ rfl
    exact ⟨_, hfirst, hend, _, value, rfl, hstale⟩

/-- Behind a name, the binary reader runs past the end of an object, and the JSON reader gives the
value of the name in place of the one behind the object. -/
theorem endObject_named_fails :
    outcome ((do Wire.Read.beginObject; let _ ← Wire.Read.nextName; Wire.Read.endObject)
      (Wire.Reader.ofBytes [0x11, 5, 0])) = .error .unexpectedEnd ∧
    (do Json.Read.beginArray; Json.Read.beginObject; let _ ← Json.Read.nextName
        Json.Read.endObject; Json.Read.int : Json.Read Int32).on
      (.array [.object [("a", .number (.natural 1))], .number (.natural 2)]) = .ok 1 :=
  ⟨rfl, rfl⟩

end Missive
