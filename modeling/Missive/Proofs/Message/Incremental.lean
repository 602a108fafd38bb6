import Missive.Proofs.Message.Framing
import Missive.Proofs.Wire.Incremental

/-!
# Missive.Proofs.Message.Incremental

Messages cut short, and messages with anything behind them.

The readers of values, entries of maps, fields and messages are incremental, as their definitions
show.  A message that has been read is therefore read from its own bytes alone, and any part of
these bytes is too short (`Catalog.readMessage_local`).
-/

namespace Missive

open Wire

namespace Wire.Read

theorem endObject_incremental : Incremental 1 endObject := by
  unfold endObject
  refine .of_frames (fun r r' hr => by rw [hr]) fun r => ?_
  split
  · exact closeObject_incremental (skipValue_incremental.mono (Nat.zero_le 1))
  · exact .throw _ 1

theorem endArray_incremental : Incremental 1 endArray := by
  unfold endArray
  refine .of_frames (fun r r' hr => by rw [hr]) fun r => ?_
  split
  · exact closeArray_incremental (skipValue_incremental.mono (Nat.zero_le 1)) skipValue_consumes
  · exact .throw _ 1

/-- A value of a kind, and what is made of it. -/
theorem expect_bind_incremental {body : Read β} {f : β → Read α} (hb : Incremental 1 body)
    (hf : ∀ b, Incremental 1 (f b)) : Incremental 1 (expect kind >>= fun _ => body >>= f) :=
  (expect_incremental kind 1).bind fun _ => hb.bind hf

theorem typeId_incremental : Incremental 1 typeId := by
  have hrest : ∀ more : Bool, Incremental 1 (if more then do
        if (← nextName) == 0 then uint else throw .missingDiscriminator
      else throw .missingDiscriminator) := by
    intro more
    split
    · refine nextName_incremental.bind fun tag => ?_
      split
      · exact expect_bind_incremental varint_incremental fun n => .pure _ 1
      · exact .throw _ 1
    · exact .throw _ 1
  refine hasNext_incremental.after hrest fun more => ?_
  split
  · exact nextName_consumes.bind fun tag => by
      split
      · exact uint_consumes.mono (Nat.zero_le 1)
      · exact .throw _ 0
  · exact .throw _ 1

end Wire.Read

theorem Primitive.read_incremental (p : Primitive) : Incremental 1 p.read := by
  cases p with
  | bool | int32 | uint32 | sint32 | int64 | sint64 =>
      exact .map _ (Read.expect_bind_incremental Read.varint_incremental fun n => .pure _ 1)
  | fixed32 | sfixed32 | float | fixed64 | sfixed64 | double =>
      exact .map _ (Read.expect_bind_incremental (Read.fixed_incremental _) fun n => .pure _ 1)
  | uint64 => exact .map _ ((Read.expect_incremental _ 1).bind fun _ => Read.varint_incremental)
  | bytes =>
      exact .map _ ((Read.expect_incremental _ 1).bind fun _ => Read.lengthPrefixed_incremental)
  | string =>
      refine .map _ (Read.expect_bind_incremental Read.lengthPrefixed_incremental fun bs => ?_)
      split
      · exact .pure _ 1
      · exact .throw _ 1

namespace Catalog

variable {c : Catalog} {nested : NestedRead} {id : MessageId}

theorem readValue_incremental (hn : ∀ id, Incremental 1 (nested id)) (plan : ValuePlan) :
    Incremental 1 (c.readValue nested plan) := by
  cases plan with
  | primitive p => exact p.read_incremental.bind fun s => .pure _ 1
  | enumeration id =>
      exact (Read.expect_bind_incremental Read.varint_incremental fun n => .pure _ 1 :
        Incremental 1 Read.int).bind fun n => .pure _ 1
  | message id isAbstract => exact (hn id).bind fun m => .pure _ 1

theorem readEntryFields_incremental (hn : ∀ id, Incremental 1 (nested id))
    (hc : ∀ id, Consumes 1 (nested id)) (key value : ValuePlan) :
    Incremental 1 (c.readEntryFields nested key value) := by
  have h0 : (0 : Nat) ≤ 1 := Nat.zero_le 1
  refine (Read.beginObject_incremental 1).bind fun _ => ?_
  refine (Read.whileNext_incremental (fun entry => ?_) (fun entry => ?_) _).after (fun entry => ?_)
    fun entry => ?_
  · refine (Read.nextName_incremental.mono h0).bind fun tag => ?_
    split
    · exact ((readValue_incremental hn key).mono h0).bind fun k => .pure _ 0
    · split
      · exact ((readValue_incremental hn value).mono h0).bind fun v => .pure _ 0
      · exact (Read.skipValue_incremental.mono h0).bind fun _ => .pure _ 0
  · exact Read.nextName_consumes.bind fun tag => entryStep_consumes hc key value entry tag
  · exact Read.endObject_incremental.bind fun _ => .pure _ 1
  · exact Read.endObject_consumes.bind fun _ => .pure _

/-- An array, up to its end. -/
theorem readArray_incremental {step : α → Read α} {finish : α → Value}
    (hs : ∀ a, Incremental 0 (step a)) (hc : ∀ a, Consumes 1 (step a)) (a : α) :
    Incremental 1 (do
      Read.beginArray
      let b ← Read.whileNext step a
      Read.endArray
      return finish b) :=
  Read.beginArray_incremental.bind fun _ => (Read.whileNext_incremental hs hc a).after
    (fun _ => Read.endArray_incremental.bind fun _ => .pure _ 1)
    fun _ => Read.endArray_consumes.bind fun _ => .pure _

theorem readField_incremental (hn : ∀ id, Incremental 1 (nested id))
    (hc : ∀ id, Consumes 1 (nested id)) (slot : Slot) :
    Incremental 1 (c.readField nested slot) := by
  have h0 : (0 : Nat) ≤ 1 := Nat.zero_le 1
  unfold readField
  split
  · exact (readValue_incremental hn _).bind fun v => .pure _ 1
  · refine readArray_incremental (fun items => ?_) (itemStep_consumes hc _) []
    exact ((readValue_incremental hn _).mono h0).bind fun v => .pure _ 0
  · refine readArray_incremental (fun entries => ?_) (entriesStep_consumes hc _ _ _) []
    refine ((readEntryFields_incremental hn hc _ _).mono h0).bind fun entry => ?_
    split
    · exact .pure _ 0
    · exact .throw _ 0

theorem readFields_incremental (hn : ∀ id, Incremental 1 (nested id))
    (hc : ∀ id, Consumes 1 (nested id)) (id : MessageId) :
    Incremental 0 (c.readFields nested id) := by
  have h0 : (0 : Nat) ≤ 1 := Nat.zero_le 1
  refine (Read.whileNext_incremental (fun fields => ?_) (fun fields => ?_) _).bind fun fields =>
    .pure _ 0
  · refine (Read.nextName_incremental.mono h0).bind fun tag => ?_
    split
    · exact ((readField_incremental hn hc _).mono h0).bind fun v => .pure _ 0
    · exact (Read.skipValue_incremental.mono h0).bind fun _ => .pure _ 0
  · exact Read.nextName_consumes.bind fun tag => fieldStep_consumes hc _ fields

theorem readType_incremental (id : MessageId) : Incremental 1 (c.readType id) := by
  unfold readType
  split
  · exact Read.typeId_incremental.bind fun n => .pure _ 1
  · exact .pure _ 1

theorem readMember_incremental (hn : ∀ id, Incremental 1 (nested id))
    (hc : ∀ id, Consumes 1 (nested id)) (id : MessageId) :
    Incremental 0 (c.readMember nested id) := by
  refine ((readType_incremental id).mono (Nat.zero_le 1)).bind fun type => ?_
  cases type with
  | some type => exact .map _ (readFields_incremental hn hc type)
  | none => exact .pure _ 0

theorem readNested_incremental (depth : Nat) (id : MessageId) :
    Incremental 1 (c.readNested depth id) := by
  induction depth generalizing id with
  | zero => exact .throw _ 1
  | succ depth ih =>
      rw [readNested_succ]
      refine (Read.beginObject_incremental 1).bind fun _ => ?_
      exact (readMember_incremental ih (readNested_consumes depth) id).after
        (fun _ => Read.endObject_incremental.bind fun _ => .pure _ 1)
        fun _ => Read.endObject_consumes.bind fun _ => .pure _

theorem readMessage_incremental (id : MessageId) : Incremental 1 (c.readMessage id) :=
  Read.incremental_of_bound (fun depth => readNested_incremental depth id) fun _ _ hd =>
    readMessage_eq hd id

/-- **Decoding is local and notices what is missing**: a message that is read from any bytes, and
wherever it stands, is read in the same way from all bytes that begin with those that it took, and
fewer of them are an unexpected end. -/
theorem readMessage_local (h : c.readMessage id r = .ok message r') :
    ∃ n ≤ r.rest.length, r'.rest = r.rest.drop n ∧
      (∀ bytes, r.rest.take n <+: bytes →
        c.readMessage id { r with rest := bytes } = .ok message { r' with rest := bytes.drop n }) ∧
      ∀ k < n, ∃ r'', c.readMessage id { r with rest := r.rest.take k } =
        .error .unexpectedEnd r'' := by
  have hread : Incremental 1 (c.readMessage id) := readMessage_incremental id
  obtain ⟨n, hn⟩ : ∃ n, n + r'.rest.length = r.rest.length :=
    ⟨r.rest.length - r'.rest.length, Nat.sub_add_cancel (hread.consumes r message r' h)⟩
  obtain ⟨hrest, hown⟩ := hread.own_bytes h hn
  refine ⟨n, by omega, hrest, ?_, fun k hk => ?_⟩
  · rintro bytes ⟨extra, rfl⟩
    have hlength : (r.rest.take n).length = n := by rw [List.length_take]; omega
    have hdrop : (r.rest.take n ++ extra).drop n = extra := List.drop_left' hlength
    rw [hdrop]
    exact hread.ok hown extra
  · exact (hread.mono (Nat.zero_le 1)).too_short h (by omega)

theorem readMessage_local_strangeGroup : ∃ m c message,
    Model.ofSchema Example.shapes = .ok m ∧ ofModel m = .ok c ∧
    c.readMessage 0 strangeGroup = .ok message ⟨[5], none, [.array .object 1]⟩ ∧
    (∀ bytes, strangeGroup.rest.take 26 <+: bytes →
      c.readMessage 0 ⟨bytes, none, [.array .object 2]⟩ =
        .ok message ⟨bytes.drop 26, none, [.array .object 1]⟩) ∧
    ∀ k < 26, ∃ r, c.readMessage 0 ⟨strangeGroup.rest.take k, none, [.array .object 2]⟩ =
      .error .unexpectedEnd r := by
  have hcatalog : (ofSchema? Example.shapes).any (fun c =>
      leaves (c.readMessage 0 strangeGroup) ⟨[5], none, [.array .object 1]⟩) = true := by
    decide +kernel
  obtain ⟨m, c, hm, hc, hleaves⟩ := exists_of_any hcatalog
  obtain ⟨message, hread⟩ := exists_of_leaves hleaves
  obtain ⟨n, hn, hrest, hsame, hshort⟩ := readMessage_local hread
  obtain rfl : n = 26 := by
    have hlength := congrArg List.length hrest
    simp only [strangeGroup, List.length_drop, List.length_cons, List.length_nil] at hn hlength
    omega
  exact ⟨m, c, message, hm, hc, hread, hsame, hshort⟩

end Catalog

end Missive
