import Missive.Json.Writer
import Missive.Proofs.Json.Number
import Missive.Proofs.Json.Repeated

/-!
# Missive.Proofs.Json.Stream

Values as streams of calls: what the writer makes of the calls for a value, and what the reader
shows to the calls that match one.

The calls for a value, made to a writer in any state, have the effect of writing the merged value at
once (`writeAll_tokens`).  A reader in front of a value shows the walk over it and ends right behind
it (`sees_walk`).  Where no name is repeated merging changes nothing, and the two are inverse
(`stream_inverse`).
-/

namespace Missive.Json

/-! ## calls -/

/-- A call that hands something over, to the writer or from the reader. -/
inductive Token where
  | beginObject
  | endObject
  | beginArray
  | endArray
  | name (s : String)
  | null
  | bool (b : Bool)
  | ulong (n : UInt64)
  | long (n : Int64)
  | double (x : Double)
  | string (s : String)
  deriving DecidableEq

namespace Token

/-- Make the call to a writer. -/
def write : Token → Writer → Writer
  | .beginObject => .beginObject
  | .endObject => .endObject
  | .beginArray => .beginArray
  | .endArray => .endArray
  | .name s => .name s
  | .null => .value .null
  | .bool b => .value (.bool b)
  | .ulong n => .value (.ofNat n.toNat)
  | .long n => .value (.ofInt n.toInt)
  | .double x => .value (.ofDouble x)
  | .string s => .value (.string s)

/-- Make the call to a reader, whatever it is expected to hand over; `null` is skipped. -/
def read : Token → Read Token
  | .beginObject => do Read.beginObject; return .beginObject
  | .endObject => do Read.endObject; return .endObject
  | .beginArray => do Read.beginArray; return .beginArray
  | .endArray => do Read.endArray; return .endArray
  | .name _ => do return .name (← Read.nextName)
  | .null => do Read.skipValue; return .null
  | .bool _ => do return .bool (← Read.bool)
  | .ulong _ => do return .ulong (← Read.ulong)
  | .long _ => do return .long (← Read.long)
  | .double _ => do return .double (← Read.double)
  | .string _ => do return .string (← Read.string)

end Token

/-- The call for a number, by the way it is held. -/
def numberToken : JsonNumber → Token
  | .natural n => .ulong n
  | .negative n _ => .long n
  | .real x _ => .double x

mutual

/-- The calls for a value: a name before each property, the ends around each container. -/
def tokens : Json → List Token
  | .null => [.null]
  | .bool b => [.bool b]
  | .number n => [numberToken n]
  | .string s => [.string s]
  | .array items => .beginArray :: (tokensItems items ++ [.endArray])
  | .object members => .beginObject :: (tokensMembers members ++ [.endObject])

def tokensItems : List Json → List Token
  | [] => []
  | item :: items => tokens item ++ tokensItems items

def tokensMembers : List (String × Json) → List Token
  | [] => []
  | (name, value) :: members => .name name :: (tokens value ++ tokensMembers members)

end

/-! ## writing -/

/-- Make calls to a writer, one after another. -/
def writeAll (tokens : List Token) (w : Writer) : Writer :=
  tokens.foldl (fun w token => token.write w) w

theorem writeAll_append (ts ts' : List Token) (w : Writer) :
    writeAll (ts ++ ts') w = writeAll ts' (writeAll ts w) := List.foldl_append ..

theorem write_numberToken (n : JsonNumber) (w : Writer) :
    (numberToken n).write w = w.value (.number n) := by
  cases n with
  | natural n => rw [numberToken, Token.write, ofNat, Nat.toUInt64_eq, UInt64.ofNat_toNat]
  | negative n below =>
      rw [numberToken, Token.write, ofInt, Int64.ofInt_toInt, JsonNumber.ofInt64, dif_pos below]
  | real x finite => rw [numberToken, Token.write, ofDouble, dif_pos finite]

mutual

/-- The calls for a value write the merged value, in whatever place and under whatever name. -/
theorem writeAll_tokens (value : Json) (w : Writer) :
    writeAll value.tokens w = w.value value.merged := by
  match value with
  | .null | .bool _ | .string _ => rfl
  | .number n => exact write_numberToken n w
  | .array items =>
      rw [tokens, merged]
      show writeAll (tokensItems items ++ [.endArray]) w.beginArray = _
      rw [writeAll_append, Writer.beginArray, writeAll_tokensItems]
      rfl
  | .object members =>
      rw [tokens, merged]
      show writeAll (tokensMembers members ++ [.endObject]) w.beginObject = _
      rw [writeAll_append, Writer.beginObject, writeAll_tokensMembers]
      rfl

/-- The items go to the end of the innermost array. -/
theorem writeAll_tokensItems (items done : List Json) (own : Option String)
    (frames : List Writer.Frame) (result : Option Json) :
    writeAll (tokensItems items) ⟨.array own done :: frames, none, result⟩ =
      ⟨.array own (done ++ mergedItems items) :: frames, none, result⟩ := by
  match items with
  | [] => rw [tokensItems, mergedItems, List.append_nil]; rfl
  | item :: items =>
      rw [tokensItems, mergedItems, writeAll_append, writeAll_tokens item]
      show writeAll (tokensItems items) ⟨.array own (done ++ [item.merged]) :: frames, _, _⟩ = _
      rw [writeAll_tokensItems items, List.append_assoc, List.singleton_append]

/-- The properties are set in the innermost object. -/
theorem writeAll_tokensMembers (members done : List (String × Json)) (own : Option String)
    (frames : List Writer.Frame) (result : Option Json) :
    writeAll (tokensMembers members) ⟨.object own done :: frames, none, result⟩ =
      ⟨.object own (mergedMembers done members) :: frames, none, result⟩ := by
  match members with
  | [] => rfl
  | (name, value) :: members =>
      rw [tokensMembers, mergedMembers]
      show writeAll (value.tokens ++ tokensMembers members)
        ⟨.object own done :: frames, some name, result⟩ = _
      rw [writeAll_append, writeAll_tokens value]
      exact writeAll_tokensMembers members _ own frames result

end

/-! ## values without repeated names -/

/-- No object in the value has two properties of one name. -/
inductive NamesUnique : Json → Prop where
  | null : NamesUnique .null
  | bool (b : Bool) : NamesUnique (.bool b)
  | number (n : JsonNumber) : NamesUnique (.number n)
  | string (s : String) : NamesUnique (.string s)
  | array {items : List Json} (h : ∀ item ∈ items, NamesUnique item) : NamesUnique (.array items)
  | object {members : List (String × Json)} (hnodup : (members.map Prod.fst).Nodup)
      (h : ∀ member ∈ members, NamesUnique member.2) : NamesUnique (.object members)

/-- A new property comes last. -/
theorem setMember_of_not_mem {members : List (String × Json)} (value : Json)
    (h : name ∉ members.map Prod.fst) :
    setMember name value members = members ++ [(name, value)] := by
  induction members with
  | nil => rfl
  | cons member members ih =>
      rw [List.map_cons, List.mem_cons, not_or] at h
      rw [setMember, ih h.2, if_neg (by simpa using Ne.symm h.1), List.cons_append]

theorem mergedMembers_eq_append {members : List (String × Json)}
    (hvalues : ∀ member ∈ members, member.2.merged = member.2) (done : List (String × Json))
    (hnodup : ((done ++ members).map Prod.fst).Nodup) :
    mergedMembers done members = done ++ members := by
  induction members generalizing done with
  | nil => rw [mergedMembers, List.append_nil]
  | cons member members ih =>
      obtain ⟨name, value⟩ := member
      have hnew : name ∉ done.map Prod.fst := fun hmem => by
        rw [List.map_append, List.map_cons, List.nodup_append] at hnodup
        exact hnodup.2.2 name hmem name List.mem_cons_self rfl
      rw [mergedMembers, hvalues _ List.mem_cons_self, setMember_of_not_mem value hnew,
        ih (fun member h => hvalues member (List.mem_cons_of_mem _ h)) _ (by simpa using hnodup),
        List.append_assoc, List.singleton_append]

/-- Merging leaves a value without repeated names as it is. -/
theorem NamesUnique.merged_eq {value : Json} (h : value.NamesUnique) : value.merged = value := by
  induction h with
  | null | bool | number | string => rfl
  | array h ih => rw [merged, mergedItems_eq, List.map_congr_left ih, List.map_id']
  | object hnodup h ih => rw [merged, mergedMembers_eq_append ih [] hnodup, List.nil_append]

/-! ## walks -/

/-- A call to a reader and its reply. -/
inductive Sight where
  /-- Whether the container has another part. -/
  | more (b : Bool)
  /-- Whether the next value is `null`. -/
  | isNull (b : Bool)
  | token (t : Token)
  deriving DecidableEq

namespace Sight

/-- Make the call, whatever reply is expected. -/
def look : Sight → Read Sight
  | .more _ => do return .more (← Read.hasNext)
  | .isNull _ => do return .isNull (← Read.peekNull)
  | .token t => do return .token (← t.read)

/-- What a call hands over. -/
def token? : Sight → Option Token
  | .token t => some t
  | _ => none

@[simp] theorem token?_more (b : Bool) : (more b).token? = none := rfl

@[simp] theorem token?_isNull (b : Bool) : (isNull b).token? = none := rfl

@[simp] theorem token?_token (t : Token) : (token t).token? = some t := rfl

/-- One reply announces the next one: there is nothing more exactly before an end, and a `null` is
seen exactly before it is skipped. -/
def Announces (a b : Sight) : Prop :=
  (a = .more false ↔ b = .token .endArray ∨ b = .token .endObject) ∧
    (a = .isNull true ↔ b = .token .null)

instance (a b : Sight) : Decidable (a.Announces b) :=
  inferInstanceAs (Decidable (_ ∧ _))

end Sight

mutual

/-- The calls that match a value, with their replies. -/
def walk : Json → List Sight
  | .null => [.isNull true, .token .null]
  | .bool b => [.isNull false, .token (.bool b)]
  | .number n => [.isNull false, .token (numberToken n)]
  | .string s => [.isNull false, .token (.string s)]
  | .array items =>
    .isNull false :: .token .beginArray :: (walkItems items ++ [.more false, .token .endArray])
  | .object members =>
    .isNull false :: .token .beginObject ::
      (walkMembers members ++ [.more false, .token .endObject])

def walkItems : List Json → List Sight
  | [] => []
  | item :: items => .more true :: (walk item ++ walkItems items)

def walkMembers : List (String × Json) → List Sight
  | [] => []
  | (name, value) :: members =>
    .more true :: .token (.name name) :: (walk value ++ walkMembers members)

end

mutual

/-- A walk hands over what is written for the value. -/
theorem filterMap_walk (value : Json) : value.walk.filterMap Sight.token? = value.tokens := by
  match value with
  | .null | .bool _ | .number _ | .string _ => rfl
  | .array items => simp [walk, tokens, List.filterMap_cons, filterMap_walkItems items]
  | .object members => simp [walk, tokens, List.filterMap_cons, filterMap_walkMembers members]

theorem filterMap_walkItems (items : List Json) :
    (walkItems items).filterMap Sight.token? = tokensItems items := by
  match items with
  | [] => rfl
  | item :: items =>
      simp [walkItems, tokensItems, List.filterMap_cons, filterMap_walk item,
        filterMap_walkItems items]

theorem filterMap_walkMembers (members : List (String × Json)) :
    (walkMembers members).filterMap Sight.token? = tokensMembers members := by
  match members with
  | [] => rfl
  | (name, value) :: members =>
      simp [walkMembers, tokensMembers, List.filterMap_cons, filterMap_walk value,
        filterMap_walkMembers members]

end

/-! ## announcements -/

/-- A reply that announces nothing and needs no announcement. -/
def Sight.isPlain : Sight → Bool
  | .more b => b
  | .isNull b => !b
  | .token .endArray | .token .endObject | .token .null => false
  | .token _ => true

/-- Replies that announce each other, and that may follow any reply which announces nothing. -/
def Unannounced (sights : List Sight) : Prop :=
  ∀ a, a ≠ .more false → a ≠ .isNull true → (a :: sights).IsChain Sight.Announces

namespace Unannounced

variable {rest : List Sight}

theorem nil : Unannounced [] := fun a _ _ => .singleton a

theorem cons_plain (ha : a.isPlain) (h : Unannounced rest) : Unannounced (a :: rest) := by
  have hne : ∀ b : Sight, b.isPlain = false → a ≠ b := by
    rintro b hb rfl
    rw [ha] at hb
    contradiction
  intro b hmore hnull
  refine .cons_cons ⟨?_, ?_⟩ (h a (hne _ rfl) (hne _ rfl))
  · simp [hmore, hne (.token .endArray) rfl, hne (.token .endObject) rfl]
  · simp [hnull, hne (.token .null) rfl]

/-- One reply announces the next, which may be followed by anything plain. -/
theorem cons_announced (ha : a.Announces (.token t)) (hplain : ∀ s, a ≠ .token s)
    (h : Unannounced rest) : Unannounced (a :: .token t :: rest) := by
  intro b hmore hnull
  refine .cons_cons ⟨?_, ?_⟩ (.cons_cons ha (h _ (by simp) (by simp)))
  · simp [hmore, hplain]
  · simp [hnull, hplain]

end Unannounced

mutual

theorem unannounced_walk {rest : List Sight} (value : Json) (h : Unannounced rest) :
    Unannounced (value.walk ++ rest) := by
  match value with
  | .null => exact .cons_announced (by decide) (by simp) h
  | .bool b => exact .cons_plain rfl (.cons_plain rfl h)
  | .number n => exact .cons_plain rfl (.cons_plain (by cases n <;> rfl) h)
  | .string s => exact .cons_plain rfl (.cons_plain rfl h)
  | .array items =>
      rw [walk, List.cons_append, List.cons_append, List.append_assoc]
      refine .cons_plain rfl (.cons_plain rfl (unannounced_walkItems items ?_))
      exact .cons_announced (by decide) (by simp) h
  | .object members =>
      rw [walk, List.cons_append, List.cons_append, List.append_assoc]
      refine .cons_plain rfl (.cons_plain rfl (unannounced_walkMembers members ?_))
      exact .cons_announced (by decide) (by simp) h

theorem unannounced_walkItems {rest : List Sight} (items : List Json) (h : Unannounced rest) :
    Unannounced (walkItems items ++ rest) := by
  match items with
  | [] => exact h
  | item :: items =>
      rw [walkItems, List.cons_append, List.append_assoc]
      exact .cons_plain rfl (unannounced_walk item (unannounced_walkItems items h))

theorem unannounced_walkMembers {rest : List Sight} (members : List (String × Json))
    (h : Unannounced rest) : Unannounced (walkMembers members ++ rest) := by
  match members with
  | [] => exact h
  | (name, value) :: members =>
      rw [walkMembers, List.cons_append, List.cons_append, List.append_assoc]
      refine .cons_plain rfl (.cons_plain rfl ?_)
      exact unannounced_walk value (unannounced_walkMembers members h)

end

/-- Ends and values `null` are announced, and nothing else is. -/
theorem isChain_walk (value : Json) : value.walk.IsChain Sight.Announces := by
  have h := unannounced_walk value .nil (.more true) (by simp) (by simp)
  rw [List.append_nil] at h
  exact h.tail

/-! ## reading -/

/-- A call made from the reader `r` gets the reply that is given, and leaves `r'`. -/
def Sight.Shows (sight : Sight) (r r' : Reader) : Prop := sight.look r = .ok sight r'

theorem mapM_look {sights : List Sight} (h : Sees Sight.Shows sights r r') :
    sights.mapM Sight.look r = .ok sights r' := by
  induction h with
  | nil r => rfl
  | cons hsight h ih =>
      rw [List.mapM_cons, bind_of_ok _ hsight, bind_of_ok _ ih]
      rfl

/-- The call for a number reads it. -/
theorem read_numberToken (hb : Before (.number n) pending frames frames') :
    (numberToken n).read ⟨pending, frames⟩ = .ok (numberToken n) ⟨none, frames'⟩ := by
  cases n with
  | natural n =>
      have hlimit : (n.toNat : Int) < 2 ^ 64 := by exact_mod_cast n.toNat_lt
      obtain ⟨a, ha, hread⟩ := (Read.ulong_readsWholes.ok_iff n.toNat hb).mpr
        ⟨⟨_, rfl, by simp [JsonNumber.value]⟩, Int.natCast_nonneg _, hlimit⟩
      obtain rfl : a = n := UInt64.toNat_inj.mp (by exact_mod_cast ha)
      exact bind_of_ok _ hread
  | negative n below =>
      obtain ⟨a, ha, hread⟩ := (Read.long_readsWholes.ok_iff n.toInt hb).mpr
        ⟨⟨_, rfl, rfl⟩, n.le_toInt, n.toInt_lt⟩
      obtain rfl : a = n := Int64.toInt_inj.mp ha
      exact bind_of_ok _ hread
  | real x finite => exact bind_of_ok _ (bind_of_ok _ (Read.next_reads _ _ _ _ hb))

theorem look_isNull (hb : Before value pending frames frames') (b : Bool) :
    (Sight.isNull b).look ⟨pending, frames⟩ = .ok (.isNull value.isNull) ⟨pending, frames⟩ :=
  bind_of_ok _ (Read.peekNull_before hb)

theorem look_token (h : Token.read t r = .ok t r') : (Sight.token t).look r = .ok (.token t) r' :=
  bind_of_ok _ h

/-- A value that one call reads. -/
theorem sees_scalar {t : Token} (hb : Before value pending frames frames')
    (h : t.read ⟨pending, frames⟩ = .ok t ⟨none, frames'⟩) :
    Sees Sight.Shows [.isNull value.isNull, .token t] ⟨pending, frames⟩ ⟨none, frames'⟩ :=
  .cons (look_isNull hb _) (.cons (look_token h) (.nil _))

mutual

/-- A reader shows the walk over the value in front of it, wherever that is, and ends right behind
it. -/
theorem sees_walk {pending : Option Json} {frames frames' : List Reader.Frame} (value : Json)
    (hb : Before value pending frames frames') :
    Sees Sight.Shows value.walk ⟨pending, frames⟩ ⟨none, frames'⟩ := by
  have hnext := Read.next_reads _ _ _ _ hb
  match value with
  | .null => exact sees_scalar hb (bind_of_ok _ (Read.skipValue_before hb))
  | .bool b => exact sees_scalar hb (bind_of_ok _ (bind_of_ok _ hnext))
  | .number n => exact sees_scalar hb (read_numberToken hb)
  | .string s => exact sees_scalar hb (bind_of_ok _ (bind_of_ok _ hnext))
  | .array items =>
      refine .cons (look_isNull hb _) ?_
      refine .cons (look_token (bind_of_ok _ (Read.beginArray_before hb))) ?_
      exact (sees_walkItems items frames').append (.cons rfl (.cons rfl (.nil _)))
  | .object members =>
      refine .cons (look_isNull hb _) ?_
      refine .cons (look_token (bind_of_ok _ (Read.beginObject_before hb))) ?_
      exact (sees_walkMembers members frames').append (.cons rfl (.cons rfl (.nil _)))

theorem sees_walkItems (items : List Json) (frames : List Reader.Frame) :
    Sees Sight.Shows (walkItems items) ⟨none, .array items :: frames⟩
      ⟨none, .array [] :: frames⟩ := by
  match items with
  | [] => exact .nil _
  | item :: items =>
      refine .cons rfl ((sees_walk item (.item items frames)).append ?_)
      exact sees_walkItems items frames

theorem sees_walkMembers (members : List (String × Json)) (frames : List Reader.Frame) :
    Sees Sight.Shows (walkMembers members) ⟨none, .object members :: frames⟩
      ⟨none, .object [] :: frames⟩ := by
  match members with
  | [] => exact .nil _
  | (name, value) :: members =>
      refine .cons rfl (.cons rfl ((sees_walk value (.name (.object members :: frames))).append ?_))
      exact sees_walkMembers members frames

end

/-! ## both ways -/

/-- The writer and the reader are inverse on a value in which no name is repeated.  The calls for
the value make the writer give exactly this value; the calls that match it make the reader hand over
the same, with nothing more exactly at the end of each container, and leave the reader empty. -/
theorem stream_inverse {value : Json} (h : value.NamesUnique) :
    writeAll value.tokens .empty = ⟨[], none, some value⟩ ∧
      (writeAll value.tokens .empty).toJson = value ∧
      value.walk.mapM Sight.look (.ofJson value) = .ok value.walk ⟨none, []⟩ ∧
      value.walk.filterMap Sight.token? = value.tokens ∧
      value.walk.IsChain Sight.Announces := by
  have hwritten : writeAll value.tokens .empty = ⟨[], none, some value⟩ := by
    rw [writeAll_tokens, h.merged_eq]
    rfl
  refine ⟨hwritten, ?_, ?_, filterMap_walk value, isChain_walk value⟩
  · rw [hwritten]
    rfl
  · exact mapM_look (sees_walk value (.name []))

/-- A value with containers in containers, under names and without. -/
def nest : Json :=
  .object [
    ("a", .array [.null, .object [("b", .ofNat 1)], .array [], .bool true]),
    ("b", .object [("a", .ofInt (-2)), ("", .ofDouble ⟨0x3ff8000000000000⟩)]),
    ("c", .string "d")]

theorem stream_inverse_nest :
    nest.NamesUnique ∧ (writeAll nest.tokens .empty).toJson = nest ∧
      nest.walk.mapM Sight.look (.ofJson nest) = .ok nest.walk ⟨none, []⟩ ∧
      nest.walk.filterMap Sight.token? = [
        .beginObject, .name "a", .beginArray, .null, .beginObject, .name "b", .ulong 1, .endObject,
        .beginArray, .endArray, .bool true, .endArray, .name "b", .beginObject, .name "a",
        .long (-2), .name "", .double ⟨0x3ff8000000000000⟩, .endObject, .name "c", .string "d",
        .endObject] := by
  have hunique : nest.NamesUnique := by
    refine .object (by decide) ?_
    simp only [List.forall_mem_cons]
    refine ⟨.array ?_, .object (by decide) ?_, .string _, List.forall_mem_nil _⟩
    · simp only [List.forall_mem_cons]
      have hinner : (Json.object [("b", .ofNat 1)]).NamesUnique :=
        .object (by decide) (by simpa using .number _)
      exact ⟨.null, hinner, .array (List.forall_mem_nil _), .bool _, List.forall_mem_nil _⟩
    · simp only [List.forall_mem_cons]
      exact ⟨.number _, .number _, List.forall_mem_nil _⟩
  obtain ⟨-, hwritten, hread, htokens, -⟩ := stream_inverse hunique
  refine ⟨hunique, hwritten, hread, htokens.trans ?_⟩
  decide

end Missive.Json
