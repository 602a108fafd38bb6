import Missive.Proofs.Wire.Reader

/-!
# Missive.Proofs.Wire.Tree

Payloads as trees, which a reader sees that knows no schema.

`Spells t bs` says that the bytes `bs`, after a header or as an element of an array, hold the tree
`t`.  A tree has many spellings, since its variable-length integers need not be short.

* `Read.whileNext_fields` and `Read.whileNext_items` run a loop over the parts of a container;
* `Read.skipValue_append` skips a tree and nothing else;
* `Read.endObject_append` and `Read.endArray_append` leave a container, whatever is unread of it.
-/

namespace Missive.Wire

/-! ## trees -/

/-- A value on the wire.  Integers are kept as they stand there, before a reader folds or narrows
them. -/
inductive Tree where
  | int (n : UInt64)
  | sint (n : UInt64)
  | fint (n : UInt32)
  | long (n : UInt64)
  | slong (n : UInt64)
  | flong (n : UInt64)
  | float (x : Single)
  | double (x : Double)
  | string (bytes : List UInt8)
  | binary (bytes : List UInt8)
  | object (fields : List (UInt32 × Tree))
  /-- The kind is that of the elements. -/
  | array (kind : Kind) (items : List Tree)

/-- The kind of a tree. -/
def Tree.kind : Tree → Kind
  | .int _ => .int
  | .sint _ => .sint
  | .fint _ => .fint
  | .long _ => .long
  | .slong _ => .slong
  | .flong _ => .flong
  | .float _ => .float
  | .double _ => .double
  | .string _ => .string
  | .binary _ => .binary
  | .object _ => .object
  | .array .. => .array

mutual

/-- The bytes of a tree after its header. -/
inductive Spells : Tree → List UInt8 → Prop where
  | int (h : IsVarint n bs) : Spells (.int n) bs
  | sint (h : IsVarint n bs) : Spells (.sint n) bs
  | fint (n : UInt32) : Spells (.fint n) (littleEndian 4 n.toNat)
  | long (h : IsVarint n bs) : Spells (.long n) bs
  | slong (h : IsVarint n bs) : Spells (.slong n) bs
  | flong (n : UInt64) : Spells (.flong n) (littleEndian 8 n.toNat)
  | float (x : Single) : Spells (.float x) (littleEndian 4 x.bits.toNat)
  | double (x : Double) : Spells (.double x) (littleEndian 8 x.bits.toNat)
  | string (hs : IsVarint count start) (h : bytes.length = count.toNat) :
      Spells (.string bytes) (start ++ bytes)
  | binary (hs : IsVarint count start) (h : bytes.length = count.toNat) :
      Spells (.binary bytes) (start ++ bytes)
  | object (h : SpellsFields fields content) : Spells (.object fields) (content ++ endMark)
  | array (hs : IsVarint count start) (hcount : items.length = count.toNat)
      (hkind : ∀ t ∈ items, t.kind = kind) (h : SpellsItems items content) :
      Spells (.array kind items) (kind.code :: (start ++ (content ++ endMark)))

/-- The bytes of the fields of an object. -/
inductive SpellsFields : List (UInt32 × Tree) → List UInt8 → Prop where
  | nil : SpellsFields [] []
  | cons {tag : UInt32} {t : Tree} {fields : List (UInt32 × Tree)} {head body tail : List UInt8}
      (hh : IsVarint (headerNumber tag t.kind) head) (ht : Spells t body)
      (hrest : SpellsFields fields tail) :
      SpellsFields ((tag, t) :: fields) (head ++ (body ++ tail))

/-- The bytes of the elements of an array. -/
inductive SpellsItems : List Tree → List UInt8 → Prop where
  | nil : SpellsItems [] []
  | cons {t : Tree} {items : List Tree} {body tail : List UInt8} (ht : Spells t body)
      (hrest : SpellsItems items tail) :
      SpellsItems (t :: items) (body ++ tail)

end

@[simp] theorem length_littleEndian (count n : Nat) : (littleEndian count n).length = count := by
  induction count generalizing n with
  | zero => rfl
  | succ count ih => simp [littleEndian, ih]

theorem Spells.length_pos (h : Spells t bs) : 0 < bs.length := by
  cases h with
  | int h | sint h | long h | slong h => exact h.length_pos
  | string hs h | binary hs h =>
      have := hs.length_pos
      simp only [List.length_append]
      omega
  | _ => simp [endMark]

@[simp] theorem ofLittleEndian_littleEndian (h : n < 256 ^ count) :
    ofLittleEndian (littleEndian count n) = n := by
  induction count generalizing n with
  | zero =>
      have hn : n = 0 := by simpa using h
      rw [hn, littleEndian, ofLittleEndian]
  | succ count ih =>
      have hq : n / 256 < 256 ^ count := by
        rw [Nat.div_lt_iff_lt_mul (by decide)]
        rwa [pow_succ] at h
      simp only [littleEndian, ofLittleEndian, ih hq, Nat.toUInt8_eq, UInt8.toNat_ofNat']
      omega

/-! ## single values -/

/-- A step reads trees as a function says: on every spelling of a tree it ends with what the
function gives, and right behind the tree. -/
def Reads (p : Read α) (f : Tree → Except ReadError α) : Prop :=
  ∀ t bs pending frames frames' rest, Spells t bs → Before t.kind pending frames frames' →
    Yields (p ⟨bs ++ rest, pending, frames⟩) (f t) ⟨rest, none, frames'⟩

namespace Read

/-- A variable-length integer of a kind, and what is made of it. -/
theorem expect_bind_varint (h : Before kind pending frames frames') (hv : IsVarint n bs)
    (rest : List UInt8) (f : UInt64 → Read α) :
    (expect kind >>= fun _ => varint >>= f) ⟨bs ++ rest, pending, frames⟩ =
      f n ⟨rest, none, frames'⟩ := by
  rw [bind_of_ok _ (expect_before h _), bind_of_ok _ (varint_append hv rest none frames')]

theorem fixed_append (hn : n < 256 ^ count) (rest : List UInt8) (pending : Option Kind)
    (frames : List Frame) :
    fixed count ⟨littleEndian count n ++ rest, pending, frames⟩ =
      .ok n ⟨rest, pending, frames⟩ := by
  unfold fixed
  rw [bind_of_ok _ (take_append (length_littleEndian count n) rest pending frames),
    ofLittleEndian_littleEndian hn]
  rfl

/-- Four bytes of a kind, and what is made of them. -/
theorem expect_bind_fixed4 (h : Before kind pending frames frames') (n : UInt32)
    (rest : List UInt8) (f : UInt32 → Read α) :
    (expect kind >>= fun _ => fixed 4 >>= fun m => f m.toUInt32)
        ⟨littleEndian 4 n.toNat ++ rest, pending, frames⟩ = f n ⟨rest, none, frames'⟩ := by
  have hn : n.toNat < 256 ^ 4 := n.toNat_lt
  rw [bind_of_ok _ (expect_before h _), bind_of_ok _ (fixed_append hn rest none frames'),
    Nat.toUInt32_eq, UInt32.ofNat_toNat]

/-- Eight bytes of a kind, and what is made of them. -/
theorem expect_bind_fixed8 (h : Before kind pending frames frames') (n : UInt64)
    (rest : List UInt8) (f : UInt64 → Read α) :
    (expect kind >>= fun _ => fixed 8 >>= fun m => f m.toUInt64)
        ⟨littleEndian 8 n.toNat ++ rest, pending, frames⟩ = f n ⟨rest, none, frames'⟩ := by
  have hn : n.toNat < 256 ^ 8 := n.toNat_lt
  rw [bind_of_ok _ (expect_before h _), bind_of_ok _ (fixed_append hn rest none frames'),
    Nat.toUInt64_eq, UInt64.ofNat_toNat]

/-- A byte sequence of a kind, and what is made of it. -/
theorem expect_bind_bytes (h : Before kind pending frames frames') (hv : IsVarint count start)
    (hlen : bs.length = count.toNat) (rest : List UInt8) (f : List UInt8 → Read α) :
    (expect kind >>= fun _ => lengthPrefixed >>= f) ⟨start ++ bs ++ rest, pending, frames⟩ =
      f bs ⟨rest, none, frames'⟩ := by
  rw [bind_of_ok _ (expect_before h _),
    bind_of_ok _ (lengthPrefixed_append hv hlen rest none frames')]

/-! ## loops over containers -/

/-- A loop over the fields of an object, each of which one step reads. -/
theorem whileNext_fields (step : α → Read α) (next : α → UInt32 × Tree → Except ReadError α)
    (frames : List Frame) (hs : SpellsFields fields bs)
    (hstep : ∀ field ∈ fields, ∀ head body rest a,
      IsVarint (headerNumber field.1 field.2.kind) head → Spells field.2 body →
      body.length < bs.length →
      Yields (step a ⟨head ++ (body ++ rest), none, .object :: frames⟩) (next a field)
        ⟨rest, none, .object :: frames⟩)
    (rest : List UInt8) (a : α) :
    Yields (whileNext step a ⟨bs ++ (endMark ++ rest), none, .object :: frames⟩)
      (fields.foldlM next a) ⟨endMark ++ rest, none, .object :: frames⟩ := by
  rw [whileNext_eq]
  have hfuel : bs.length < (bs ++ (endMark ++ rest)).length + 1 := by
    simp only [List.length_append]; omega
  generalize (bs ++ (endMark ++ rest)).length + 1 = fuel at hfuel
  -- the bytes of the fields that are left bound the steps that are left
  induction fields generalizing bs fuel a with
  | nil =>
      cases hs
      exact .ok (repeatNext_of_false (hasNext_object 0 rest none frames) fuel a)
  | cons field fields ih =>
      cases hs with
      | @cons tag t _ head body tail hh ht htail =>
          have hpos := hh.length_pos
          have hbody := ht.length_pos
          simp only [List.length_append] at hfuel hstep
          obtain ⟨fuel, rfl⟩ : ∃ k, fuel = k + 1 := ⟨fuel - 1, by omega⟩
          rw [List.append_assoc, List.append_assoc,
            repeatNext_of_true (hasNext_header hh _ none frames), List.foldlM_cons]
          refine Yields.bind (hstep _ List.mem_cons_self head body _ a hh ht (by omega)) ?_
          intro b
          refine ih htail ?_ b fuel (by omega)
          intro field hfield head' body' rest' a' hh' hbody' hlt
          exact hstep field (List.mem_cons_of_mem _ hfield) head' body' rest' a' hh' hbody'
            (by omega)

/-- A loop over the elements of an array, each of which one step reads. -/
theorem whileNext_items (step : α → Read α) (next : α → Tree → Except ReadError α) (kind : Kind)
    (frames : List Frame) (hs : SpellsItems items bs)
    (hstep : ∀ t ∈ items, ∀ body rest remaining a, Spells t body → body.length ≤ bs.length →
      Yields (step a ⟨body ++ rest, none, .array kind (remaining + 1) :: frames⟩) (next a t)
        ⟨rest, none, .array kind remaining :: frames⟩)
    (rest : List UInt8) (a : α) :
    Yields (whileNext step a ⟨bs ++ rest, none, .array kind items.length :: frames⟩)
      (items.foldlM next a) ⟨rest, none, .array kind 0 :: frames⟩ := by
  rw [whileNext_eq]
  have hfuel : bs.length < (bs ++ rest).length + 1 := by
    simp only [List.length_append]; omega
  generalize (bs ++ rest).length + 1 = fuel at hfuel
  induction items generalizing bs fuel a with
  | nil =>
      cases hs
      exact .ok (repeatNext_of_false (hasNext_array kind 0 rest none frames) fuel a)
  | cons t items ih =>
      cases hs with
      | @cons _ _ body tail ht htail =>
          have hbody := ht.length_pos
          simp only [List.length_append] at hfuel hstep
          obtain ⟨fuel, rfl⟩ : ∃ k, fuel = k + 1 := ⟨fuel - 1, by omega⟩
          have hnext : hasNext ⟨body ++ (tail ++ rest), none,
              .array kind (items.length + 1) :: frames⟩ =
              .ok true
                ⟨body ++ (tail ++ rest), none, .array kind (items.length + 1) :: frames⟩ := by
            simp [hasNext_array]
          rw [List.append_assoc, List.length_cons, repeatNext_of_true hnext,
            List.foldlM_cons]
          refine Yields.bind
            (hstep t List.mem_cons_self body _ items.length a ht (by omega)) ?_
          intro b
          refine ih htail ?_ b fuel (by omega)
          intro t' ht' body' rest' remaining a' hbody' hle
          exact hstep t' (List.mem_cons_of_mem _ ht') body' rest' remaining a' hbody' (by omega)

/-! ## skipping -/

theorem foldlM_unit (xs : List β) :
    xs.foldlM (fun _ _ => (.ok () : Except ReadError Unit)) () = .ok () := by
  induction xs with
  | nil => rfl
  | cons x xs ih => rw [List.foldlM_cons]; exact ih

/-- Leaving an object skips the fields that are unread, if each of them can be skipped. -/
theorem closeObject_append {skip : Read Unit} (hs : SpellsFields fields bs)
    (hskip : ∀ t body rest, Spells t body → body.length < bs.length →
      skip ⟨body ++ rest, some t.kind, .object :: frames⟩ =
        .ok () ⟨rest, none, .object :: frames⟩)
    (rest : List UInt8) :
    closeObject skip ⟨bs ++ (endMark ++ rest), none, .object :: frames⟩ =
      .ok () ⟨rest, none, frames⟩ := by
  have hloop := whileNext_fields (fun _ => do let _ ← nextName; skip) (fun _ _ => .ok ())
    frames hs (by
      intro field _ head body rest _ hh hbody hlt
      refine .ok ?_
      rw [bind_of_ok _ (nextName_append hh _ none frames)]
      exact hskip field.2 body rest hbody hlt) rest ()
  rw [foldlM_unit] at hloop
  unfold closeObject
  rw [bind_of_ok _ hloop]
  rfl

/-- Leaving an array skips the elements that are unread, if each of them can be skipped. -/
theorem closeArray_append {skip : Read Unit} (hs : SpellsItems items bs)
    (hkind : ∀ t ∈ items, t.kind = kind)
    (hskip : ∀ t body rest remaining, Spells t body → body.length ≤ bs.length → t.kind = kind →
      skip ⟨body ++ rest, none, .array kind (remaining + 1) :: frames⟩ =
        .ok () ⟨rest, none, .array kind remaining :: frames⟩)
    (rest : List UInt8) :
    closeArray skip ⟨bs ++ (endMark ++ rest), none, .array kind items.length :: frames⟩ =
      .ok () ⟨rest, none, frames⟩ := by
  have hloop := whileNext_items (fun _ => skip) (fun _ _ => .ok ()) kind frames hs (by
      intro t ht body rest remaining _ hbody hle
      exact .ok (hskip t body rest remaining hbody hle (hkind t ht))) (endMark ++ rest) ()
  rw [foldlM_unit] at hloop
  unfold closeArray
  rw [bind_of_ok _ hloop]
  rfl

/-- A tree is skipped as a whole, and nothing after it. -/
theorem skipNested_append (hs : Spells t bs) (hdepth : bs.length ≤ depth)
    (h : Before t.kind pending frames frames') (rest : List UInt8) :
    skipNested depth ⟨bs ++ rest, pending, frames⟩ = .ok () ⟨rest, none, frames'⟩ := by
  induction depth generalizing t bs pending frames frames' rest with
  | zero =>
      have := hs.length_pos
      omega
  | succ depth ih =>
      unfold skipNested
      rw [bind_of_ok _ (valueKind_before h _)]
      cases hs with
      | int hv | sint hv | long hv | slong hv =>
          exact bind_of_ok _ (varint_append hv rest none frames')
      | fint | float =>
          exact bind_of_ok _ (take_append (length_littleEndian 4 _) rest none frames')
      | flong | double =>
          exact bind_of_ok _ (take_append (length_littleEndian 8 _) rest none frames')
      | string hv hlen | binary hv hlen =>
          exact bind_of_ok _ (lengthPrefixed_append hv hlen rest none frames')
      | object hfields =>
          simp only [List.length_append, endMark, List.length_singleton] at hdepth
          rw [List.append_assoc]
          refine closeObject_append hfields ?_ rest
          intro t body rest hbody hlt
          exact ih hbody (by omega) (.header _) rest
      | @array count start items kind content hv hcount hkind hitems =>
          simp only [List.length_append, endMark, List.length_cons] at hdepth
          rw [List.cons_append, List.append_assoc, List.append_assoc]
          simp only [Tree.kind]
          rw [bind_of_ok _ (openArray_append kind hv _ frames'), ← hcount]
          refine closeArray_append hitems hkind ?_ rest
          intro t body rest remaining hbody hle hk
          exact ih hbody (by omega) (hk ▸ .item remaining frames') rest

theorem skipValue_append (hs : Spells t bs) (h : Before t.kind pending frames frames')
    (rest : List UInt8) :
    skipValue ⟨bs ++ rest, pending, frames⟩ = .ok () ⟨rest, none, frames'⟩ := by
  unfold skipValue
  rw [get_bind]
  refine skipNested_append hs ?_ h rest
  simp only [List.length_append]
  omega

theorem endObject_append (hs : SpellsFields fields bs) (rest : List UInt8)
    (frames : List Frame) :
    endObject ⟨bs ++ (endMark ++ rest), none, .object :: frames⟩ = .ok () ⟨rest, none, frames⟩ := by
  unfold endObject
  rw [get_bind]
  refine closeObject_append hs ?_ rest
  intro t body rest hbody _
  exact skipValue_append hbody (.header _) rest

theorem endArray_append (hs : SpellsItems items bs) (hkind : ∀ t ∈ items, t.kind = kind)
    (rest : List UInt8) (frames : List Frame) :
    endArray ⟨bs ++ (endMark ++ rest), none, .array kind items.length :: frames⟩ =
      .ok () ⟨rest, none, frames⟩ := by
  unfold endArray
  rw [get_bind]
  refine closeArray_append hs hkind ?_ rest
  intro t body rest remaining hbody _ hk
  exact skipValue_append hbody (hk ▸ .item remaining frames) rest

end Read

end Missive.Wire
