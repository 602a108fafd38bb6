import Mathlib
import Missive.Example
import Missive.Proofs.Message.LastValue

/-!
# Missive.Proofs.Message.Tolerance

Payloads that a writer with another version of the schema may have written.

`Catalog.Conforms plan t` asks of the tree of a field only that the values which will be looked at
are of the kinds that are planned for them, that texts are well formed and that members of families
begin with their discriminators.  Codes of constants, discriminators and values under other tags are
free.  One thing can still go wrong: the keys of a map may come to the same (`Catalog.Clashes`), as
all unknown codes do.  `Catalog.readMessage_conforming` says that nothing else can.
-/

namespace Missive

open Wire

/-! ## computations that end well or with a clash -/

/-- A computation succeeds, with a result of which `Q` holds, if all is good, and otherwise finds a
key twice. -/
def Ends (good : Prop) (Q : α → Prop) : Except ReadError α → Prop
  | .ok a => good ∧ Q a
  | .error e => ¬ good ∧ ∃ property key, e = .duplicateKey property key

namespace Ends

theorem ok {Q : α → Prop} (hgood : good) (ha : Q a) : Ends good Q (.ok a) := ⟨hgood, ha⟩

theorem bind {Q : α → Prop} {Q' : β → Prop} {x : Except ReadError α}
    {f : α → Except ReadError β} (hx : Ends good Q x)
    (hf : ∀ a, good → Q a → Ends good' Q' (f a)) (hgood : good' → good) :
    Ends good' Q' (x >>= f) := by
  cases x with
  | ok a => exact hf a hx.1 hx.2
  | error e => exact ⟨fun h => hx.1 (hgood h), hx.2⟩

/-- One more step, of which the result is only packed. -/
theorem map {Q : α → Prop} {Q' : β → Prop} {x : Except ReadError α} {f : α → β}
    (hx : Ends good Q x) (hf : ∀ a, Q a → Q' (f a)) :
    Ends good Q' (x >>= fun a => pure (f a)) :=
  hx.bind (fun a hgood ha => .ok hgood (hf a ha)) id

theorem congr {Q : α → Prop} {x : Except ReadError α} (hx : Ends good Q x) (h : good ↔ good') :
    Ends good' Q x := by
  rwa [← propext h]

/-- A fold over elements that are good as long as those before them are. -/
theorem foldlM {f : σ → α → Except ReadError σ} {xs : List α} (good : List α → Prop)
    (Inv : List α → σ → Prop)
    (hstep : ∀ done x s, x ∈ xs → good done → Inv done s →
      Ends (good (done ++ [x])) (Inv (done ++ [x])) (f s x))
    (hfront : ∀ done rest, good (done ++ rest) → good done) (hgood : good [])
    (hs : Inv [] s) : Ends (good xs) (Inv xs) (xs.foldlM f s) := by
  suffices hrest : ∀ rest done s, xs = done ++ rest → good done → Inv done s →
      Ends (good xs) (Inv xs) (rest.foldlM f s) from hrest xs [] s rfl hgood hs
  intro rest
  induction rest with
  | nil =>
      intro done s hxs hdone hs
      rw [List.append_nil] at hxs
      exact .ok (hxs ▸ hdone) (hxs ▸ hs)
  | cons x rest ih =>
      intro done s hxs hdone hs
      have hxs' : xs = (done ++ [x]) ++ rest := by simp [hxs]
      rw [List.foldlM_cons]
      refine (hstep done x s (by simp [hxs]) hdone hs).bind (fun s' hdone' hs' => ?_) fun h => ?_
      · exact ih (done ++ [x]) s' hxs' hdone' hs'
      · exact hfront (done ++ [x]) rest (hxs' ▸ h)

/-- A fold over elements that are good each by itself. -/
theorem foldlM_forall {f : σ → α → Except ReadError σ} {xs : List α} (good : α → Prop)
    (Inv : List α → σ → Prop)
    (hstep : ∀ done x s, x ∈ xs → Inv done s → Ends (good x) (Inv (done ++ [x])) (f s x))
    (hs : Inv [] s) : Ends (∀ x ∈ xs, good x) (Inv xs) (xs.foldlM f s) := by
  refine foldlM (fun done => ∀ x ∈ done, good x) Inv (fun done x s hx hdone hs => ?_) ?_ (by simp)
    hs
  · refine (hstep done x s hx hs).congr ?_
    simp only [List.forall_mem_append, List.forall_mem_singleton]
    exact ⟨fun h => ⟨hdone, h⟩, And.right⟩
  · exact fun done rest h x hx => h x (List.mem_append_left _ hx)

end Ends

namespace Catalog

/-! ## payloads -/

/-- The plan of a part of an entry of a map. -/
def entryPlan? (key value : ValuePlan) (tag : UInt32) : Option ValuePlan :=
  if tag = keyTag then some key else if tag = valueTag then some value else none

/-- A tree of which a field can be made, as far as kinds, texts and the places of discriminators
go. -/
inductive Conforms (c : Catalog) : FieldPlan → Tree → Prop where
  | primitive {p : Primitive} {t : Tree} (hkind : t.kind = p.wireKind)
      (htext : ∀ bytes, t = .string bytes → (Utf8.decode? bytes).isSome) :
      Conforms c (.single (.primitive p)) t
  /-- Any code of a constant. -/
  | code (enum : EnumId) (n : UInt64) : Conforms c (.single (.enumeration enum)) (.int n)
  /-- A message of a type without family, or a member of the family that begins with any
  discriminator; what follows is looked at only if the catalog has the member there. -/
  | message {id : MessageId} {isAbstract : Bool} {fields : List (UInt32 × Tree)}
      (hopen : c.model.inFamily id = true → ∃ n rest, fields = (0, .int n) :: rest)
      (hfields : ∀ type rest, c.openFields id fields = .ok (some type, rest) →
        ∀ field ∈ rest, ∀ slot ∈ c.slots type, slot.tag = some field.1 →
          Conforms c slot.plan field.2) :
      Conforms c (.single (.message id isAbstract)) (.object fields)
  | list {element : ValuePlan} {kind : Kind} {items : List Tree}
      (hitems : ∀ item ∈ items, Conforms c (.single element) item) :
      Conforms c (.repeated element) (.array kind items)
  | map {key value : ValuePlan} {kind : Kind} {items : List Tree}
      (hitems : ∀ item ∈ items, ∃ fields, item = .object fields)
      (hparts : ∀ fields, .object fields ∈ items → ∀ field ∈ fields, ∀ plan,
        entryPlan? key value field.1 = some plan → Conforms c (.single plan) field.2) :
      Conforms c (.map key value) (.array kind items)

/-- The key that a tree is. -/
def keyOfTree (c : Catalog) : ValuePlan → Tree → Option Key
  | .primitive p, t => (p.ofTree t).toOption.map .scalar
  | .enumeration id, .int n => some (.constant (c.constantOfCode id n.toUInt32.toInt32))
  | _, _ => none

/-- Whether a value comes of a tree; none comes of a member that the catalog does not have. -/
def holdsValue (c : Catalog) : ValuePlan → Tree → Bool
  | .message id _, .object fields =>
    match c.openFields id fields with
    | .ok (some _, _) => true
    | _ => false
  | .message .., _ => false
  | _, _ => true

/-- The key under which an entry of a map is put.  A missing key is the one that keys start with; an
entry without a message is dropped. -/
def entryKey? (c : Catalog) (key value : ValuePlan) (fields : List (UInt32 × Tree)) : Option Key :=
  if (lastUnder valueTag fields).elim (!value.initial.isAbsent) (c.holdsValue value) then
    some (((lastUnder keyTag fields).bind (c.keyOfTree key)).getD key.initialKey)
  else none

/-- The keys of the entries of a map. -/
def mapKeys (c : Catalog) (key value : ValuePlan) (items : List Tree) : List Key :=
  items.filterMap fun
    | .object fields => c.entryKey? key value fields
    | _ => none

/-- Two entries of a map, somewhere in what is looked at, come to the same key. -/
inductive Clashes (c : Catalog) : FieldPlan → Tree → Prop where
  | keys {key value : ValuePlan} {kind : Kind} {items : List Tree}
      (h : ¬ (c.mapKeys key value items).Nodup) : Clashes c (.map key value) (.array kind items)
  | part {key value plan : ValuePlan} {kind : Kind} {items : List Tree}
      {fields : List (UInt32 × Tree)} {field : UInt32 × Tree} (hitem : .object fields ∈ items)
      (hfield : field ∈ fields) (hplan : entryPlan? key value field.1 = some plan)
      (h : Clashes c (.single plan) field.2) : Clashes c (.map key value) (.array kind items)
  | item {element : ValuePlan} {kind : Kind} {items : List Tree} {t : Tree} (hitem : t ∈ items)
      (h : Clashes c (.single element) t) : Clashes c (.repeated element) (.array kind items)
  | field {id type : MessageId} {isAbstract : Bool} {fields rest : List (UInt32 × Tree)}
      {field : UInt32 × Tree} {slot : Slot} (hopen : c.openFields id fields = .ok (some type, rest))
      (hfield : field ∈ rest) (hslot : slot ∈ c.slots type) (htag : slot.tag = some field.1)
      (h : Clashes c slot.plan field.2) :
      Clashes c (.single (.message id isAbstract)) (.object fields)

variable {c : Catalog} {id : MessageId} {fields : List (UInt32 × Tree)} {items : List Tree}
  {key value : ValuePlan} {field : UInt32 × Tree}

theorem not_clashes_primitive {p : Primitive} {t : Tree} :
    ¬ c.Clashes (.single (.primitive p)) t := by
  intro h
  cases h

theorem not_clashes_enumeration {enum : EnumId} {t : Tree} :
    ¬ c.Clashes (.single (.enumeration enum)) t := by
  intro h
  cases h

theorem not_clashes_list_iff :
    ¬ c.Clashes (.repeated element) (.array kind items) ↔
      ∀ item ∈ items, ¬ c.Clashes (.single element) item := by
  refine ⟨fun h item hitem hclash => h (.item hitem hclash), fun h hclash => ?_⟩
  cases hclash with
  | item hitem hclash => exact h _ hitem hclash

/-- There is no clash in the parts of an entry of a map. -/
def SoundEntry (c : Catalog) (key value : ValuePlan) (fields : List (UInt32 × Tree)) : Prop :=
  ∀ field ∈ fields, ∀ plan, entryPlan? key value field.1 = some plan →
    ¬ c.Clashes (.single plan) field.2

theorem not_clashes_map_iff :
    ¬ c.Clashes (.map key value) (.array kind items) ↔
      (∀ fields, .object fields ∈ items → c.SoundEntry key value fields) ∧
        (c.mapKeys key value items).Nodup := by
  refine ⟨fun h => ⟨fun fields hitem field hfield plan hplan hclash => ?_, ?_⟩, ?_⟩
  · exact h (.part hitem hfield hplan hclash)
  · by_contra hkeys
    exact h (.keys hkeys)
  · rintro ⟨hparts, hkeys⟩ hclash
    cases hclash with
    | keys hdup => exact hdup hkeys
    | part hitem hfield hplan hclash => exact hparts _ hitem _ hfield _ hplan hclash

theorem not_clashes_message_iff (hopen : c.openFields id fields = .ok (some type, rest)) :
    ¬ c.Clashes (.single (.message id isAbstract)) (.object fields) ↔
      ∀ field ∈ rest, ∀ slot ∈ c.slots type, slot.tag = some field.1 →
        ¬ c.Clashes slot.plan field.2 := by
  refine ⟨fun h field hfield slot hslot htag hclash => ?_, fun h hclash => ?_⟩
  · exact h (.field hopen hfield hslot htag hclash)
  · cases hclash with
    | field hopen' hfield hslot htag hclash =>
        rw [hopen] at hopen'
        cases hopen'
        exact h _ hfield _ hslot htag hclash

theorem not_clashes_stranger (hopen : c.openFields id fields = .ok (none, rest)) :
    ¬ c.Clashes (.single (.message id isAbstract)) (.object fields) := by
  intro hclash
  cases hclash with
  | field hopen' => simp [hopen] at hopen'

/-! ## single values -/

/-- What a value that was made of a tree is as a key, and whether it is there. -/
structure Made (c : Catalog) (plan : ValuePlan) (t : Tree) (v : Option Value) : Prop where
  key : v.bind Key.ofValue? = c.keyOfTree plan t
  held : (v.getD plan.initial).isAbsent = !c.holdsValue plan t

/-- How making a field of a tree ends, where messages are nested by at most `depth`. -/
def EndsField (c : Catalog) (depth : Nat) : FieldPlan → Tree → Prop
  | .single plan, t => Ends (¬ c.Clashes (.single plan) t) (c.Made plan t)
    (c.valueOfTree (c.nestedOfTree depth) plan t)
  | plan, t => ∀ property, Ends (¬ c.Clashes plan t) (fun _ => True)
    (c.fieldOfTree (c.nestedOfTree depth) property plan t)

theorem EndsField.fieldOfTree (h : c.EndsField depth plan t) (property : String) :
    Ends (¬ c.Clashes plan t) (fun _ => True)
      (c.fieldOfTree (c.nestedOfTree depth) property plan t) := by
  match plan with
  | .single plan =>
      have h : Ends _ (c.Made plan t) _ := h
      exact h.map fun _ _ => trivial
  | .repeated _ | .map .. => exact h property

theorem endsField_primitive {p : Primitive} (hkind : t.kind = p.wireKind)
    (htext : ∀ bytes, t = .string bytes → (Utf8.decode? bytes).isSome) :
    c.EndsField depth (.single (.primitive p)) t := by
  have hs : ∃ s, p.ofTree t = .ok s := by
    cases p <;> cases t <;> simp only [Tree.kind, Primitive.wireKind, reduceCtorEq] at hkind
    case string.string bytes =>
      obtain ⟨s, hs⟩ := Option.isSome_iff_exists.mp (htext bytes rfl)
      exact ⟨.string s, by simp [Primitive.ofTree, hs]⟩
    all_goals exact ⟨_, rfl⟩
  obtain ⟨s, hs⟩ := hs
  have hv : c.valueOfTree (c.nestedOfTree depth) (.primitive p) t = .ok (some (.scalar s)) := by
    simp [valueOfTree, hs]
  rw [EndsField, hv]
  refine .ok not_clashes_primitive ⟨?_, rfl⟩
  simp [keyOfTree, hs, Key.ofValue?, Except.toOption]

theorem endsField_code (enum : EnumId) (n : UInt64) :
    c.EndsField depth (.single (.enumeration enum)) (.int n) :=
  .ok not_clashes_enumeration ⟨rfl, rfl⟩

/-! ## lists and maps -/

theorem endsField_list (h : ∀ item ∈ items, c.EndsField depth (.single element) item) :
    c.EndsField depth (.repeated element) (.array kind items) := by
  intro property
  have hfold : Ends _ _ (items.foldlM (c.itemsWith (c.nestedOfTree depth) element) []) :=
    .foldlM_forall (fun item => ¬ c.Clashes (.single element) item) (fun _ _ => True)
      (fun done item values hitem _ => by
        have hitem : Ends _ (c.Made element item) _ := h item hitem
        exact hitem.map fun _ _ => trivial) trivial
  exact (hfold.map fun _ _ => trivial).congr not_clashes_list_iff.symm

/-- What the fields of an entry of a map come to. -/
structure MadeEntry (c : Catalog) (key value : ValuePlan) (fields : List (UInt32 × Tree))
    (entry : Option Key × Option Value) : Prop where
  key : entry.1 = (lastUnder keyTag fields).bind (c.keyOfTree key)
  held : (entry.2.getD value.initial).isAbsent =
    !(lastUnder valueTag fields).elim (!value.initial.isAbsent) (c.holdsValue value)

theorem ends_entryWith (hentry : c.MadeEntry key value done entry)
    (h : ∀ plan, entryPlan? key value field.1 = some plan →
      c.EndsField depth (.single plan) field.2) :
    Ends (∀ plan, entryPlan? key value field.1 = some plan → ¬ c.Clashes (.single plan) field.2)
      (c.MadeEntry key value (done ++ [field]))
      (c.entryWith (c.nestedOfTree depth) key value entry field) := by
  obtain ⟨tag, t⟩ := field
  have hne : keyTag ≠ valueTag := by decide
  unfold entryWith
  by_cases hkey : tag = keyTag
  · subst hkey
    have hplan : entryPlan? key value keyTag = some key := if_pos rfl
    have hvalue : Ends _ (c.Made key t) _ := h key hplan
    simp only [beq_self_eq_true, if_true, hplan, Option.some.injEq, forall_eq']
    refine hvalue.map fun v hv => ⟨?_, ?_⟩
    · simpa [lastUnder_concat] using hv.key
    · simpa [lastUnder_concat, hne.symm] using hentry.held
  · by_cases hvalue : tag = valueTag
    · subst hvalue
      have hplan : entryPlan? key value valueTag = some value := rfl
      have hvalue : Ends _ (c.Made value t) _ := h value hplan
      simp only [beq_false_of_ne hne.symm, beq_self_eq_true, if_true, hplan, Option.some.injEq,
        forall_eq', Bool.false_eq_true, if_false]
      refine hvalue.map fun v hv => ⟨?_, ?_⟩
      · simpa [lastUnder_concat, hne] using hentry.key
      · simpa [lastUnder_concat] using hv.held
    · have hplan : entryPlan? key value tag = none := by simp [entryPlan?, hkey, hvalue]
      simp only [beq_false_of_ne hkey, beq_false_of_ne hvalue, Bool.false_eq_true, if_false]
      refine .ok (by simp [hplan]) ⟨?_, ?_⟩
      · simpa [lastUnder_concat, Ne.symm hkey] using hentry.key
      · simpa [lastUnder_concat, Ne.symm hvalue] using hentry.held

theorem ends_entryOfTree (h : ∀ field ∈ fields, ∀ plan, entryPlan? key value field.1 = some plan →
      c.EndsField depth (.single plan) field.2) :
    Ends (c.SoundEntry key value fields) (c.MadeEntry key value fields)
      (c.entryOfTree (c.nestedOfTree depth) key value (.object fields)) :=
  Ends.foldlM_forall _ _ (fun _ field _ hfield hentry => ends_entryWith hentry (h field hfield))
    ⟨rfl, by simp⟩

theorem addEntry_absent (hv : v.isAbsent = true) (k : Option Key) (entries : List (Key × Value))
    (property : String) : c.addEntry property key value (k, some v) entries = .ok entries := by
  simp [addEntry_eq, hv]

theorem addEntry_old (hv : v.isAbsent = false) (hk : k ∈ (entries.map Prod.fst : List Key))
    (property : String) :
    c.addEntry property key value (some k, some v) entries =
      .error (.duplicateKey property (c.keyText key k)) := by
  simp [addEntry_eq, hv, putEntry_old hk]

theorem ends_addEntry (hentry : c.MadeEntry key value fields entry)
    (hkeys : (entries.map Prod.fst).Nodup) (property : String) :
    Ends (entries.map Prod.fst ++ (c.entryKey? key value fields).toList).Nodup
      (fun entries' => entries'.map Prod.fst =
        entries.map Prod.fst ++ (c.entryKey? key value fields).toList)
      (c.addEntry property key value entry entries) := by
  have hheld := hentry.held
  rw [entryKey?, ← hentry.key]
  change Ends _ _ (c.addEntry property key value
    (some (entry.1.getD key.initialKey), some (entry.2.getD value.initial)) entries)
  cases hv : (entry.2.getD value.initial).isAbsent with
  | true =>
      rw [hv, eq_comm, Bool.not_eq_true'] at hheld
      rw [addEntry_absent hv, hheld]
      exact .ok (by simpa using hkeys) (by simp)
  | false =>
      rw [hv, eq_comm, Bool.not_eq_false'] at hheld
      rw [hheld]
      by_cases hk : entry.1.getD key.initialKey ∈ entries.map Prod.fst
      · rw [addEntry_old hv hk]
        refine ⟨fun hnodup => ?_, _, _, rfl⟩
        exact (List.nodup_append'.mp hnodup).2.2 hk (by simp)
      · rw [addEntry_new key value hv hk]
        refine .ok (List.Nodup.append hkeys (by simp) ?_) (by simp)
        simpa using hk

theorem mapKeys_concat (items : List Tree) (fields : List (UInt32 × Tree)) :
    c.mapKeys key value (items ++ [.object fields]) =
      c.mapKeys key value items ++ (c.entryKey? key value fields).toList := by
  simp only [mapKeys, List.filterMap_append]
  cases h : c.entryKey? key value fields <;> simp [h]

/-- The entries of a map, of which the keys are those of the elements so far. -/
theorem ends_entriesWith (hdone : (c.mapKeys key value done).Nodup)
    (hentries : entries.map Prod.fst = c.mapKeys key value done)
    (h : ∀ field ∈ fields, ∀ plan, entryPlan? key value field.1 = some plan →
      c.EndsField depth (.single plan) field.2) (property : String) :
    Ends (c.SoundEntry key value fields ∧ (c.mapKeys key value (done ++ [.object fields])).Nodup)
      (fun entries' => entries'.map Prod.fst = c.mapKeys key value (done ++ [.object fields]))
      (c.entriesWith (c.nestedOfTree depth) property key value entries (.object fields)) := by
  rw [mapKeys_concat, ← hentries]
  refine (ends_entryOfTree h).bind (fun entry hsound hentry => ?_) And.left
  exact (ends_addEntry hentry (hentries ▸ hdone) property).congr
    ⟨fun hnodup => ⟨hsound, hnodup⟩, And.right⟩

theorem endsField_map (hitems : ∀ item ∈ items, ∃ fields, item = .object fields)
    (h : ∀ fields, .object fields ∈ items → ∀ field ∈ fields, ∀ plan,
      entryPlan? key value field.1 = some plan → c.EndsField depth (.single plan) field.2) :
    c.EndsField depth (.map key value) (.array kind items) := by
  intro property
  let good (items : List Tree) : Prop :=
    (∀ fields, .object fields ∈ items → c.SoundEntry key value fields) ∧
      (c.mapKeys key value items).Nodup
  let Inv (items : List Tree) (entries : List (Key × Value)) : Prop :=
    entries.map Prod.fst = c.mapKeys key value items
  have hstep : ∀ done item entries, item ∈ items → good done → Inv done entries →
      Ends (good (done ++ [item])) (Inv (done ++ [item]))
        (c.entriesWith (c.nestedOfTree depth) property key value entries item) := by
    intro done item entries hitem hdone hentries
    obtain ⟨fields, rfl⟩ := hitems item hitem
    refine (ends_entriesWith hdone.2 hentries (h fields hitem) property).congr
      (and_congr_left fun _ => ?_)
    simp only [List.mem_append, List.mem_singleton, Tree.object.injEq]
    exact ⟨fun hsound fields' hmem => hmem.elim (hdone.1 fields') (· ▸ hsound),
      fun hall => hall fields (.inr rfl)⟩
  have hfront : ∀ done rest, good (done ++ rest) → good done := by
    intro done rest hgood
    refine ⟨fun fields hmem => hgood.1 fields (List.mem_append_left _ hmem), ?_⟩
    have hnodup := hgood.2
    rw [mapKeys, List.filterMap_append] at hnodup
    exact hnodup.of_append_left
  have hfold := Ends.foldlM good Inv hstep hfront ⟨nofun, .nil⟩ (s := []) rfl
  exact (hfold.map fun _ _ => trivial).congr not_clashes_map_iff.symm

/-! ## messages -/

/-- One more field of a message. -/
theorem ends_fieldsWith (hc : c.Lawful)
    (h : ∀ slot ∈ c.slots id, slot.tag = some field.1 → c.EndsField depth slot.plan field.2)
    (values : List Value) :
    Ends (∀ slot ∈ c.slots id, slot.tag = some field.1 → ¬ c.Clashes slot.plan field.2)
      (fun _ => True) (c.fieldsWith (c.nestedOfTree depth) id values field) := by
  unfold fieldsWith
  cases hfind : (c.slots id).find? (·.tag == some field.1) with
  | none =>
      refine .ok (fun slot hslot htag => ?_) trivial
      simpa [htag] using List.find?_eq_none.mp hfind slot hslot
  | some slot =>
      have hslot := List.mem_of_find?_eq_some hfind
      have htag : slot.tag = some field.1 := by simpa using List.find?_some hfind
      have hvalue := (h slot hslot htag).fieldOfTree slot.key
      refine (hvalue.map fun _ _ => trivial).congr ⟨fun hsound slot' hslot' htag' => ?_, fun hall =>
        hall slot hslot htag⟩
      obtain rfl : slot = slot' :=
        Option.some.inj (hfind.symm.trans (hc.find?_tag hslot' htag'))
      exact hsound

theorem ends_messageOfFields (hc : c.Lawful)
    (h : ∀ field ∈ fields, ∀ slot ∈ c.slots id, slot.tag = some field.1 →
      c.EndsField depth slot.plan field.2) :
    Ends (∀ field ∈ fields, ∀ slot ∈ c.slots id, slot.tag = some field.1 →
        ¬ c.Clashes slot.plan field.2) (fun _ => True)
      (c.messageOfFields (c.nestedOfTree depth) id fields) := by
  have hfold : Ends (∀ field ∈ fields, ∀ slot ∈ c.slots id, slot.tag = some field.1 →
        ¬ c.Clashes slot.plan field.2) (fun _ => True)
      (fields.foldlM (c.fieldsWith (c.nestedOfTree depth) id) (c.new id).fields) :=
    .foldlM_forall _ (fun _ _ => True)
      (fun _ field values hfield _ => ends_fieldsWith hc (h field hfield) values) trivial
  exact hfold.map fun _ _ => trivial

/-- An object that begins with a discriminator, if it has to, can be opened. -/
theorem openFields_ok
    (hopen : c.model.inFamily id = true → ∃ n rest, fields = (0, .int n) :: rest) :
    ∃ type rest, c.openFields id fields = .ok (type, rest) := by
  unfold openFields
  by_cases hfamily : c.model.inFamily id = true
  · obtain ⟨n, rest, rfl⟩ := hopen hfamily
    exact ⟨c.memberOfTypeId? id n.toUInt32, rest, by simp [hfamily, Tree.toUInt32?]⟩
  · exact ⟨some id, fields, by simp [hfamily]⟩

theorem endsField_message (hc : c.Lawful)
    (hopen : c.model.inFamily id = true → ∃ n rest, fields = (0, .int n) :: rest)
    (h : ∀ type rest, c.openFields id fields = .ok (some type, rest) →
      ∀ field ∈ rest, ∀ slot ∈ c.slots type, slot.tag = some field.1 →
        c.EndsField depth slot.plan field.2) :
    c.EndsField (depth + 1) (.single (.message id isAbstract)) (.object fields) := by
  obtain ⟨type, rest, ho⟩ := openFields_ok hopen
  unfold EndsField valueOfTree nestedOfTree
  cases type with
  | none =>
      simp only [ho, Except.ok_bind]
      exact .ok (not_clashes_stranger ho) ⟨rfl, by simp [holdsValue, ho]; rfl⟩
  | some type =>
      simp only [ho, Except.ok_bind]
      have hmessage := ends_messageOfFields hc (h type rest ho)
      refine Ends.congr ?_ (not_clashes_message_iff ho).symm
      simp only [bind_assoc, pure_bind]
      exact hmessage.map fun message _ => ⟨rfl, by simp [holdsValue, ho]; rfl⟩

theorem mem_of_mem_openFields (ho : c.openFields id fields = .ok (type, rest))
    (hfield : field ∈ rest) : field ∈ fields := by
  unfold openFields at ho
  split at ho
  · match fields with
    | [] => contradiction
    | (tag, t) :: fields =>
        simp only at ho
        split at ho
        · obtain ⟨n, -, hn⟩ := Except.bind_eq_ok ho
          cases hn
          exact .tail _ hfield
        · contradiction
  · cases ho
    exact hfield

theorem sizeOf_lt_of_mem_fields (h : field ∈ fields) :
    sizeOf field.2 < sizeOf (Tree.object fields) := by
  have hfields := List.sizeOf_lt_of_mem h
  have hfield : sizeOf field = 1 + sizeOf field.1 + sizeOf field.2 := rfl
  rw [Tree.object.sizeOf_spec]
  omega

theorem sizeOf_lt_of_mem_items (h : t ∈ items) : sizeOf t < sizeOf (Tree.array kind items) := by
  have hitems := List.sizeOf_lt_of_mem h
  rw [Tree.array.sizeOf_spec]
  omega

/-- Making a field of a conforming tree ends well, or with a clash. -/
theorem Conforms.endsField (hc : c.Lawful) (h : c.Conforms plan t) (hd : sizeOf t ≤ depth) :
    c.EndsField depth plan t := by
  -- a nested message is part of the tree of the one around it: the size of the tree is enough depth
  induction h generalizing depth with
  | primitive hkind htext => exact endsField_primitive hkind htext
  | code enum n => exact endsField_code enum n
  | @message id isAbstract fields hopen _ ih =>
      obtain ⟨depth, rfl⟩ : ∃ k, depth = k + 1 :=
        ⟨depth - 1, by rw [Tree.object.sizeOf_spec] at hd; omega⟩
      refine endsField_message hc hopen fun type rest ho field hfield slot hslot htag => ?_
      have hsize := sizeOf_lt_of_mem_fields (mem_of_mem_openFields ho hfield)
      exact ih type rest ho field hfield slot hslot htag (by omega)
  | @list element kind items _ ih =>
      refine endsField_list fun item hitem => ih item hitem ?_
      have hsize : sizeOf item < sizeOf (Tree.array kind items) := sizeOf_lt_of_mem_items hitem
      omega
  | @map key value kind items hitems _ ih =>
      refine endsField_map hitems fun fields hitem field hfield plan hplan =>
        ih fields hitem field hfield plan hplan ?_
      have hitem : _ < sizeOf (Tree.array kind items) := sizeOf_lt_of_mem_items hitem
      have hfield := sizeOf_lt_of_mem_fields hfield
      omega

/-- **Tolerance**: a payload of which the values have their planned kinds is read without error,
whatever its codes, its discriminators and its values under other tags are, unless two entries of a
map come to the same key; then that is the error. -/
theorem readMessage_conforming (hm : Model.ofSchema schema = .ok m) (hc : ofModel m = .ok c)
    (h : c.Conforms (.single (.message id isAbstract)) (.object fields))
    (hs : Spells (.object fields) bs) (hb : BeforeMessage pending frames frames')
    (suffix : List UInt8) :
    (¬ c.Clashes (.single (.message id isAbstract)) (.object fields) →
      ∃ message, c.readMessage id ⟨bs ++ suffix, pending, frames⟩ =
        .ok message ⟨suffix, none, frames'⟩) ∧
    (c.Clashes (.single (.message id isAbstract)) (.object fields) →
      ∃ property key r, c.readMessage id ⟨bs ++ suffix, pending, frames⟩ =
        .error (.duplicateKey property key) r) := by
  obtain ⟨depth, hsize, hlength⟩ :
      ∃ depth, sizeOf (Tree.object fields) ≤ depth ∧ (bs ++ suffix).length < depth :=
    ⟨max _ _, Nat.le_max_left _ _, Nat.le_max_right _ (_ + 1)⟩
  have hends : Ends _ _ (c.nestedOfTree depth id (.object fields) >>= fun message =>
      pure (message.map Message.toValue)) :=
    h.endsField (lawful_of_ofSchema hm hc) hsize
  have hyields := readMessage_yields_of_lt (c := c) id hs hb suffix hlength
  cases hresult : c.nestedOfTree depth id (.object fields) with
  | ok message =>
      rw [hresult] at hends hyields
      exact ⟨fun _ => ⟨message, hyields⟩, fun hclash => absurd hclash hends.1⟩
  | error e =>
      rw [hresult] at hends hyields
      obtain ⟨hclash, property, key, rfl⟩ := hends
      obtain ⟨r, hr⟩ := hyields
      exact ⟨fun hsound => absurd hsound hclash, fun _ => ⟨property, key, r, hr⟩⟩

/-! ## plain messages and entries -/

/-- A message of a type without family. -/
theorem conforms_plain (hplain : c.model.inFamily id = false)
    (h : ∀ field ∈ fields, ∀ slot ∈ c.slots id, slot.tag = some field.1 →
      c.Conforms slot.plan field.2) :
    c.Conforms (.single (.message id isAbstract)) (.object fields) := by
  refine .message (by simp [hplain]) fun type rest ho => ?_
  simp only [openFields, hplain, Bool.false_eq_true, if_false, Except.pure_eq_ok, Except.ok.injEq,
    Prod.mk.injEq, Option.some.injEq] at ho
  rw [← ho.1, ← ho.2]
  exact h

/-- An entry of a map with a key and a value and nothing else. -/
def plainEntry (k v : Tree) : Tree := .object [(keyTag, k), (valueTag, v)]

/-- What holds of the keys and the values of plain entries holds of their parts. -/
theorem part_of_plainEntry (P : ValuePlan → Tree → Prop)
    (h : ∀ item ∈ items, ∃ k v, item = plainEntry k v ∧ P key k ∧ P value v)
    (hitem : .object fields ∈ items) (hfield : field ∈ fields)
    (hplan : entryPlan? key value field.1 = some plan) : P plan field.2 := by
  obtain ⟨k, v, heq, hk, hv⟩ := h _ hitem
  obtain rfl := Tree.object.inj heq
  simp only [List.mem_cons, List.not_mem_nil, or_false] at hfield
  obtain rfl | rfl := hfield
  · obtain rfl : key = plan := Option.some.inj hplan
    exact hk
  · obtain rfl : value = plan := Option.some.inj hplan
    exact hv

theorem conforms_plainEntries
    (h : ∀ item ∈ items, ∃ k v, item = plainEntry k v ∧ c.Conforms (.single key) k ∧
      c.Conforms (.single value) v) : c.Conforms (.map key value) (.array kind items) := by
  refine .map (fun item hitem => ?_) fun fields hitem field hfield plan hplan => ?_
  · obtain ⟨k, v, hkv, -⟩ := h item hitem
    exact ⟨_, hkv⟩
  · exact part_of_plainEntry (fun plan t => c.Conforms (.single plan) t) h hitem hfield hplan

theorem not_clashes_plainEntries_iff
    (h : ∀ item ∈ items, ∃ k v, item = plainEntry k v ∧ ¬ c.Clashes (.single key) k ∧
      ¬ c.Clashes (.single value) v) :
    ¬ c.Clashes (.map key value) (.array kind items) ↔ (c.mapKeys key value items).Nodup := by
  rw [not_clashes_map_iff]
  exact and_iff_right fun fields hitem field hfield plan hplan =>
    part_of_plainEntry (fun plan t => ¬ c.Clashes (.single plan) t) h hitem hfield hplan

/-- An entry of a map from constants to constants. -/
def codeEntry (code : UInt64) : Tree := plainEntry (.int code) (.int 0)

theorem conforms_codeEntries (enum : EnumId) (codes : List UInt64) :
    c.Conforms (.map (.enumeration enum) (.enumeration enum))
      (.array .object (codes.map codeEntry)) := by
  refine conforms_plainEntries fun item hitem => ?_
  obtain ⟨code, -, rfl⟩ := List.mem_map.mp hitem
  exact ⟨.int code, .int 0, rfl, .code enum code, .code enum 0⟩

/-- Constants as keys clash if their codes stand for the same constant, as unknown codes do. -/
theorem not_clashes_codeEntries_iff (enum : EnumId) (codes : List UInt64) :
    ¬ c.Clashes (.map (.enumeration enum) (.enumeration enum))
        (.array .object (codes.map codeEntry)) ↔
      (codes.map fun code => c.constantOfCode enum code.toUInt32.toInt32).Nodup := by
  have hkeys : c.mapKeys (.enumeration enum) (.enumeration enum) (codes.map codeEntry) =
      (codes.map fun code => c.constantOfCode enum code.toUInt32.toInt32).map .constant := by
    rw [mapKeys, List.filterMap_map, List.map_map, ← List.filterMap_eq_map]
    rfl
  rw [not_clashes_plainEntries_iff, hkeys,
    List.nodup_map_iff (f := Key.constant) fun _ _ => Key.constant.inj]
  intro item hitem
  obtain ⟨code, -, rfl⟩ := List.mem_map.mp hitem
  exact ⟨.int code, .int 0, rfl, not_clashes_enumeration, not_clashes_enumeration⟩

/-- An item of a member that is not known, whose fields are then not looked at. -/
def newerItem : Tree := .object [(0, .int 9), (3, .string [0xff])]

/-- The fields of maps with an unknown tone as a key, an unknown item and a strange field. -/
def newerMaps : List (UInt32 × Tree) :=
  [(12, .array .object ([98, 3].map codeEntry)),
    (14, .array .object [plainEntry (.int 5) newerItem]), (40, .string [0xff])]

theorem spells_newerMaps : ∃ bs, Spells (.object newerMaps) bs := by
  have hv := isVarint_varint
  have hentry : ∀ code, Spells (codeEntry code) _ := fun code =>
    .object (.cons (hv _) (.int (hv _)) (.cons (hv _) (.int (hv _)) .nil))
  have htones : Spells (.array .object ([98, 3].map codeEntry)) _ :=
    .array (hv 2) rfl (by simp [codeEntry, plainEntry, Tree.kind])
      (.cons (hentry 98) (.cons (hentry 3) .nil))
  have hitem : Spells newerItem _ :=
    .object (.cons (hv _) (.int (hv _)) (.cons (hv _) (.string (hv 1) rfl) .nil))
  have hitems : Spells (.array .object [plainEntry (.int 5) newerItem]) _ :=
    .array (hv 1) rfl (by simp [plainEntry, Tree.kind])
      (.cons (.object (.cons (hv _) (.int (hv _)) (.cons (hv _) hitem .nil))) .nil)
  exact ⟨_, .object (.cons (hv _) htones (.cons (hv _) hitems (.cons (hv _)
    (.string (hv 1) rfl) .nil)))⟩

theorem readMessage_conforming_newerMaps : ∃ m c bs message,
    Model.ofSchema Example.maps = .ok m ∧ ofModel m = .ok c ∧
    c.Conforms (.single (.message 3 false)) (.object newerMaps) ∧
    ¬ c.Clashes (.single (.message 3 false)) (.object newerMaps) ∧
    Spells (.object newerMaps) bs ∧
    c.readMessage 3 ⟨bs ++ [7], none, []⟩ = .ok message ⟨[7], none, []⟩ := by
  have hcatalog : (ofSchema? Example.maps).any (fun c => decide
      (c.model.inFamily 3 = false ∧ c.model.inFamily 0 = true ∧ c.memberOfTypeId? 0 9 = none ∧
        c.constantOfCode 0 98 = 0 ∧ c.constantOfCode 0 3 = 1 ∧
        (∀ slot ∈ c.slots 3, slot.tag = some 12 →
          slot.plan = .map (.enumeration 0) (.enumeration 0)) ∧
        (∀ slot ∈ c.slots 3, slot.tag = some 14 →
          slot.plan = .map (.primitive .int32) (.message 0 true)) ∧
        ∀ slot ∈ c.slots 3, slot.tag ≠ some 40)) = true := by
    decide +kernel
  obtain ⟨m, c, hm, hc, hfacts⟩ := exists_of_any hcatalog
  obtain ⟨hplain, hfamily, hstranger, hunknown, hsharp, htones, hitems, hstrange⟩ :=
    of_decide_eq_true hfacts
  have hopen : c.openFields 0 [(0, .int 9), (3, .string [0xff])] =
      .ok (none, [(3, .string [0xff])]) := by
    simp [openFields, hfamily, Tree.toUInt32?, hstranger]
  have hnewer : c.Conforms (.single (.message 0 true)) newerItem :=
    .message (fun _ => ⟨9, _, rfl⟩) fun type rest ho => by simp [hopen] at ho
  have hmaps : ∀ field ∈ newerMaps, ∀ slot ∈ c.slots 3, slot.tag = some field.1 →
      c.Conforms slot.plan field.2 ∧ ¬ c.Clashes slot.plan field.2 := by
    intro field hfield slot hslot htag
    simp only [newerMaps, List.mem_cons, List.not_mem_nil, or_false] at hfield
    obtain rfl | rfl | rfl := hfield
    · rw [htones slot hslot htag]
      refine ⟨conforms_codeEntries 0 _, (not_clashes_codeEntries_iff 0 _).mpr ?_⟩
      simp [hunknown, hsharp]
    · rw [hitems slot hslot htag]
      refine ⟨conforms_plainEntries ?_, (not_clashes_plainEntries_iff ?_).mpr ?_⟩
      · exact List.forall_mem_singleton.mpr
          ⟨.int 5, newerItem, rfl, .primitive rfl (by simp), hnewer⟩
      · exact List.forall_mem_singleton.mpr
          ⟨.int 5, newerItem, rfl, not_clashes_primitive, not_clashes_stranger hopen⟩
      · simp only [mapKeys, List.filterMap_cons, List.filterMap_nil]
        split <;> simp
    · exact absurd htag (hstrange slot hslot)
  have hconforms : c.Conforms (.single (.message 3 false)) (.object newerMaps) :=
    conforms_plain hplain fun field hfield slot hslot htag =>
      (hmaps field hfield slot hslot htag).1
  have hsound : ¬ c.Clashes (.single (.message 3 false)) (.object newerMaps) :=
    (not_clashes_message_iff (by simp [openFields, hplain])).mpr
      fun field hfield slot hslot htag => (hmaps field hfield slot hslot htag).2
  obtain ⟨bs, hs⟩ := spells_newerMaps
  obtain ⟨message, hread⟩ := (readMessage_conforming hm hc hconforms hs .outermost [7]).1 hsound
  exact ⟨m, c, bs, message, hm, hc, hconforms, hsound, hs, hread⟩

/-- The fields of maps with two unknown tones as keys. -/
def unknownTones : List (UInt32 × Tree) := [(12, .array .object ([98, 99].map codeEntry))]

theorem spells_unknownTones : Spells (.object unknownTones)
    [0xcc, 0x01, 0x0b, 2, 0x11, 98, 0x21, 0, 0, 0x11, 99, 0x21, 0, 0, 0, 0] := by
  have hv := isVarint_varint
  have hentry : ∀ code, Spells (codeEntry code) _ := fun code =>
    .object (.cons (hv _) (.int (hv _)) (.cons (hv _) (.int (hv _)) .nil))
  have hentries : Spells (.array .object ([98, 99].map codeEntry)) _ :=
    .array (hv 2) rfl (by simp [codeEntry, plainEntry, Tree.kind])
      (.cons (hentry 98) (.cons (hentry 99) .nil))
  exact .object (.cons (hv _) hentries .nil)

/-- Whether a step finds a key twice in a map. -/
def findsTwice (x : EStateM.Result ReadError Reader α) (property text : String) : Bool :=
  match x with
  | .error (.duplicateKey property' text') _ => property' == property && text' == text
  | _ => false

theorem exists_of_findsTwice {x : EStateM.Result ReadError Reader α} {text : String}
    (h : findsTwice x property text = true) :
    ∃ r, x = .error (.duplicateKey property text) r := by
  unfold findsTwice at h
  split at h
  · next r =>
      simp only [Bool.and_eq_true, beq_iff_eq] at h
      exact ⟨r, by rw [h.1, h.2]⟩
  · contradiction

/-- Two codes that differ, neither of them known, are no two keys. -/
theorem unknownTones_clash : ∃ m c bs r,
    Model.ofSchema Example.maps = .ok m ∧ ofModel m = .ok c ∧
    c.Conforms (.single (.message 3 false)) (.object unknownTones) ∧
    Spells (.object unknownTones) bs ∧
    c.readMessage 3 ⟨bs, none, []⟩ = .error (.duplicateKey "by_tone" "Flat") r := by
  have hcatalog : (ofSchema? Example.maps).any (fun c => decide
      (c.model.inFamily 3 = false ∧
        (∀ slot ∈ c.slots 3, slot.tag = some 12 →
          slot.plan = .map (.enumeration 0) (.enumeration 0)) ∧
        findsTwice (c.readMessage 3 ⟨[0xcc, 0x01, 0x0b, 2, 0x11, 98, 0x21, 0, 0, 0x11, 99, 0x21, 0,
          0, 0, 0], none, []⟩) "by_tone" "Flat" = true)) = true := by
    decide +kernel
  obtain ⟨m, c, hm, hc, hfacts⟩ := exists_of_any hcatalog
  obtain ⟨hplain, htones, hread⟩ := of_decide_eq_true hfacts
  have hconforms : c.Conforms (.single (.message 3 false)) (.object unknownTones) := by
    refine conforms_plain hplain (List.forall_mem_singleton.mpr fun slot hslot htag => ?_)
    rw [htones slot hslot htag]
    exact conforms_codeEntries 0 _
  obtain ⟨r, hr⟩ := exists_of_findsTwice hread
  exact ⟨m, c, _, r, hm, hc, hconforms, spells_unknownTones, hr⟩

end Catalog

end Missive
