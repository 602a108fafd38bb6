import Missive.Proofs.Source.Accessors
import Missive.Proofs.Source.Balance
import Missive.Proofs.Source.Identifier

/-!
# Missive.Proofs.Source.Members

The functions that the members of a type declare.

A line or the head of a block that begins as a function does declares one, and its name is what
follows (`functionName?`).  So the functions of members are read off their code: those outside of
any block (`functionNames`), or those in the blocks for the members of a type (`functionsOn`).  One
lemma a part says which functions it has, and by which features.
-/

namespace Missive.Source

variable {m : Model} {ctx : Context} {view : MessageView} {id : MessageId} {cases : Cases}
  {head name text type runtime : String} {body code code' : Code} {fields : List FieldView}
  {hasBase : Bool}

/-! ## reading functions -/

/-- The name of the function that a line or the head of a block declares. -/
def functionName? (head : String) : Option String :=
  nameAfter? ["pub fn ", "fn "] ['(', '<'] head

/-- The functions that code declares outside of any block. -/
def functionNames (code : Code) : List String := (outer code).filterMap functionName?

/-- The functions that code declares in the blocks for the members of a type. -/
def functionsOn (type : String) (code : Code) : List String :=
  (linesIn [s!"impl {type}"] [] code).filterMap functionName?

/-- A name that ends where parameters begin. -/
def EndsBeforeParameters (name : String) : Prop := ∀ c ∈ name.toList, c ∉ ['(', '<']

/-! ### heads that go on

A head is often a literal with more behind it.  The name is settled by the literal, and is read off
its characters: on these the kernel evaluates faster than on a literal. -/

/-- What follows a word that a text begins with; nothing where the text ends before the word. -/
def afterWord? : List Char → List Char → Option (Option (List Char))
  | [], chars => some (some chars)
  | _ :: _, [] => none
  | c :: word, c' :: chars => if c = c' then afterWord? word chars else some none

/-- A text up to its parameters, if it has any. -/
def beforeParameters? : List Char → Option (List Char)
  | [] => none
  | c :: chars =>
    if c = '(' ∨ c = '<' then some [] else (beforeParameters? chars).map (c :: ·)

/-- The name of the function that a text declares, if it declares one; nothing where it depends on
what follows the text. -/
def functionIn? (chars : List Char) : Option (Option (List Char)) :=
  match afterWord? ['p', 'u', 'b', ' ', 'f', 'n', ' '] chars with
  | some (some rest) => (beforeParameters? rest).map some
  | some none =>
    match afterWord? ['f', 'n', ' '] chars with
    | some (some rest) => (beforeParameters? rest).map some
    | some none => some none
    | none => none
  | none => none

theorem afterWord?_eq_some {word chars rest : List Char}
    (h : afterWord? word chars = some (some rest)) : chars = word ++ rest := by
  fun_induction afterWord? word chars with
  | case1 chars => simpa using h
  | case2 => contradiction
  | case3 c word chars ih => simp [ih h]
  | case4 => cases h

theorem not_prefix_of_afterWord? {word chars : List Char} (h : afterWord? word chars = some none)
    (rest : List Char) : ¬ word <+: chars ++ rest := by
  fun_induction afterWord? word chars with
  | case1 chars => cases h
  | case2 => contradiction
  | case3 c word chars ih => simpa using ih h
  | case4 c word c' chars hne => simp [hne]

theorem takeWhile_beforeParameters? {chars name : List Char}
    (h : beforeParameters? chars = some name) (rest : List Char) :
    (chars ++ rest).takeWhile (fun c => !List.contains ['(', '<'] c) = name := by
  fun_induction beforeParameters? chars generalizing name with
  | case1 => contradiction
  | case2 c chars hstop =>
      cases h
      exact List.takeWhile_cons_of_neg (by simpa [or_iff_not_imp_left] using hstop)
  | case3 c chars hstop ih =>
      obtain ⟨name, hname, rfl⟩ := Option.map_eq_some_iff.mp h
      rw [List.cons_append, List.takeWhile_cons_of_pos (by simpa using hstop), ih hname]

theorem isPrefixOf_of_afterWord? (word : String) {chars : List Char}
    (h : afterWord? word.toList chars = some none) (rest : String) :
    word.toList.isPrefixOf (String.ofList chars ++ rest).toList = false := by
  rw [String.toList_append, String.toList_ofList, ← Bool.not_eq_true, List.isPrefixOf_iff_prefix]
  exact not_prefix_of_afterWord? h rest.toList

/-- A literal that begins with the word for a function goes on with its name. -/
theorem functionName?_of_start {start rest : String} {after : List Char}
    {name? : Option (List Char)}
    (hstart : (["pub fn ", "fn "].find? fun word => word.toList.isPrefixOf
      (String.ofList (start.toList ++ after) ++ rest).toList) = some start)
    (hname : (beforeParameters? after).map some = some name?) :
    functionName? (String.ofList (start.toList ++ after) ++ rest) = name?.map String.ofList := by
  obtain ⟨name, hbefore, rfl⟩ := Option.map_eq_some_iff.mp hname
  rw [functionName?, nameAfter?, hstart, Option.map_some, String.toList_append,
    String.toList_ofList, List.append_assoc, List.drop_left' String.length_toList,
    takeWhile_beforeParameters? hbefore, Option.map_some]

theorem functionName?_of_functionIn? {chars : List Char} {name? : Option (List Char)}
    (h : functionIn? chars = some name?) (rest : String) :
    functionName? (String.ofList chars ++ rest) = name?.map String.ofList := by
  unfold functionIn? at h
  split at h
  · next after hafter =>
      obtain rfl : chars = "pub fn ".toList ++ after := afterWord?_eq_some hafter
      exact functionName?_of_start (by simp) h
  · next hpublic =>
      have hpublic := isPrefixOf_of_afterWord? "pub fn " hpublic rest
      split at h
      · next after hafter =>
          obtain rfl : chars = "fn ".toList ++ after := afterWord?_eq_some hafter
          exact functionName?_of_start (by simp) h
      · next hprivate =>
          have hprivate := isPrefixOf_of_afterWord? "fn " hprivate rest
          cases h
          rw [functionName?, nameAfter?, List.find?_cons_of_neg (hpublic ▸ Bool.false_ne_true),
            List.find?_cons_of_neg (hprivate ▸ Bool.false_ne_true)]
          rfl
      · contradiction
  · contradiction

/-- The name in a literal that goes on. -/
theorem functionName?_ofList_append {chars : List Char} (h : (functionIn? chars).isSome = true)
    (rest : String) :
    functionName? (String.ofList chars ++ rest) = (functionIn? chars).join.map String.ofList := by
  obtain ⟨name?, hname⟩ := Option.isSome_iff_exists.mp h
  rw [functionName?_of_functionIn? hname, hname, Option.join_some]

theorem functionName?_ofList {chars : List Char} (h : (functionIn? chars).isSome = true) :
    functionName? (String.ofList chars) = (functionIn? chars).join.map String.ofList := by
  simpa using functionName?_ofList_append h ""

@[simp]
theorem functionNames_nil : functionNames [] = [] := rfl

theorem functionNames_append (h : Balanced code) :
    functionNames (code ++ code') = functionNames code ++ functionNames code' := by
  rw [functionNames, outer_append h, List.filterMap_append]
  rfl

theorem functionNames_flatMap {emit : α → Code} {xs : List α} (h : ∀ x ∈ xs, Balanced (emit x)) :
    functionNames (xs.flatMap emit) = xs.flatMap fun x => functionNames (emit x) := by
  rw [functionNames, outer_flatMap h, List.filterMap_flatMap]
  rfl

@[simp]
theorem functionNames_blank : functionNames blank = [] := rfl

@[simp]
theorem functionNames_line : functionNames (line text) = (functionName? text).toList := by
  simp [functionNames]

@[simp]
theorem functionNames_when {condition : Bool} :
    functionNames (when condition code) = if condition then functionNames code else [] := by
  cases condition <;> rfl

theorem functionsOn_append (h : Balanced code) :
    functionsOn type (code ++ code') = functionsOn type code ++ functionsOn type code' := by
  rw [functionsOn, linesIn_append, pathAfter_of_balanced h, List.filterMap_append]
  rfl

theorem functionsOn_item (h : Balanced body) :
    functionsOn type (item s!"impl {type}" body) = functionNames body := by
  rw [functionsOn, linesIn_item h]
  rfl

/-- Only the blocks for the members of a type declare functions on it. -/
theorem functionsOn_eq_nil (h : ∀ head ∈ outer code, head ≠ s!"impl {type}") :
    functionsOn type code = [] := by
  rw [functionsOn, linesIn_eq_nil_of_not_mem (by simp) fun hmem => h _ hmem rfl]
  rfl

/-! ## fields -/

theorem IsName.endsBeforeParameters (h : IsName name) : EndsBeforeParameters name :=
  h.not_mem (by simp [Text.Runs.start])

theorem endsBeforeParameters_of_mem {f : FieldView} (hf : f.IsNamed)
    (hname : name ∈ f.accessorNames) : EndsBeforeParameters name := by
  have hstem := isName_fieldStem f.field.name
  obtain rfl | ⟨-, rfl⟩ | ⟨action, haction, rfl⟩ := FieldView.mem_accessorNames.mp hname
  · rw [hf, fieldName]
    split
    · intro c hc
      rw [String.toList_append, List.mem_append] at hc
      obtain hmark | hc := hc
      · obtain rfl | rfl : c = 'r' ∨ c = '#' := by simpa using hmark
        · decide
        · decide
      · exact hstem.endsBeforeParameters c hc
    · exact hstem.endsBeforeParameters
  · exact (hstem.append (isName_of_decide (by decide))).endsBeforeParameters
  · have hactions : ∀ action ∈ actionWords, IsName action := by
      simp only [actionWords, List.forall_mem_cons, List.not_mem_nil, false_implies, implies_true]
      exact ⟨isName_of_decide (by decide), isName_of_decide (by decide),
        isName_of_decide (by decide), isName_of_decide (by decide), trivial⟩
    exact (((hactions action (subset_actionWords _ haction)).append
      (isName_of_decide (by decide))).append hstem).endsBeforeParameters

theorem functionName?_signature {a : Accessor} (rename : String → String)
    (h : EndsBeforeParameters a.name) : functionName? (a.signature rename) = some a.name := by
  obtain ⟨rest, hrest⟩ :
      ∃ rest, a.signature rename = "pub fn " ++ a.name ++ ("(" ++ rest) := by
    simp only [Accessor.signature, toString_self, String.append_assoc]
    exact ⟨_, rfl⟩
  rw [hrest]
  exact nameAfter?_eq h (by simp) rfl (by simp)

theorem functionNames_onStorage {f : FieldView} {a : Accessor}
    (h : EndsBeforeParameters a.name) : functionNames (a.onStorage f) = [a.name] := by
  unfold functionNames Accessor.onStorage Accessor.comment
  simp [functionName?_signature _ h]

theorem functionNames_forwarded {f : FieldView} {a : Accessor}
    (h : EndsBeforeParameters a.name) : functionNames (a.forwarded f) = [a.name] := by
  unfold functionNames Accessor.forwarded Accessor.comment
  simp [functionName?_signature _ h]

theorem functionNames_dispatched {f : FieldView} {a : Accessor}
    (h : EndsBeforeParameters a.name) : functionNames (a.dispatched cases f) = [a.name] := by
  unfold functionNames Accessor.dispatched Accessor.comment
  simp [functionName?_signature _ h]

/-- However the accessors of fields are laid out, their names are the same. -/
theorem functionNames_accessors {lay : FieldView → Accessor → Code}
    (hbalanced : ∀ f a, Balanced (lay f a))
    (hlay : ∀ f a, EndsBeforeParameters a.name → functionNames (lay f a) = [a.name])
    (hnamed : ∀ f ∈ fields, f.IsNamed) :
    functionNames (fields.flatMap fun f => (accessors m runtime f).flatMap (lay f)) =
      fields.flatMap FieldView.accessorNames := by
  rw [functionNames_flatMap fun f _ => balanced_flatMap fun a _ => hbalanced f a]
  refine List.flatMap_congr fun f hf => ?_
  rw [functionNames_flatMap fun a _ => hbalanced f a, ← f.map_name_accessors m runtime,
    ← List.flatMap_pure_eq_map]
  refine List.flatMap_congr fun a ha => hlay f a ?_
  refine endsBeforeParameters_of_mem (hnamed f hf) ?_
  rw [← f.map_name_accessors m runtime]
  exact List.mem_map_of_mem ha

theorem functionNames_fieldAccessors (hfields : ∀ f ∈ view.fields, f.IsNamed)
    (hinherited : ∀ f ∈ view.inherited, f.IsNamed) :
    functionNames (fieldAccessors m runtime view) =
      (view.inherited ++ view.fields).flatMap FieldView.accessorNames := by
  unfold fieldAccessors
  rw [functionNames_append (by simp), List.flatMap_append,
    functionNames_accessors (by simp) (fun _ _ => functionNames_forwarded) hinherited,
    functionNames_accessors (by simp) (fun _ _ => functionNames_onStorage) hfields]

theorem functionNames_constants {features : Features} :
    functionNames (constants features view) = [] := by
  have hfield : ∀ rest, functionName? ("pub const " ++ rest) = none :=
    functionName?_ofList_append rfl
  have htype : ∀ rest, functionName? ("pub const JSON_TYPE: &'static str = " ++ rest) = none :=
    functionName?_ofList_append rfl
  have hid : ∀ rest, functionName? ("pub const TYPE_ID: u32 = " ++ rest) = none :=
    functionName?_ofList_append rfl
  have hnames : ∀ rest,
      functionName? ("pub const PROPERTY_NAMES: &'static [&'static str] = &[" ++ rest) = none :=
    functionName?_ofList_append rfl
  unfold constants propertyNames
  rw [functionNames_append (by simp), functionNames_append (by simp),
    functionNames_flatMap (by simp)]
  simp [functionNames_append, functionNames_flatMap, String.append_assoc, hfield, htype, hid,
    hnames]

/-! ## codecs -/

theorem functionNames_jsonFieldWriter :
    functionNames (jsonFieldWriter runtime fields hasBase) = ["write_json_fields"] := by
  have hempty : ∀ rest, functionName? ("fn write_json_fields(&self, _writer: &mut " ++ rest) =
      some "write_json_fields" := functionName?_ofList_append rfl
  have hname : ∀ rest, functionName? ("fn write_json_fields(&self, writer: &mut " ++ rest) =
      some "write_json_fields" := functionName?_ofList_append rfl
  unfold functionNames jsonFieldWriter
  split <;> simp [String.append_assoc, hempty, hname]

theorem functionNames_jsonFieldReader :
    functionNames (jsonFieldReader m runtime fields hasBase) = ["read_json_field"] := by
  have hname : ∀ rest, functionName? ("fn read_json_field(&mut self, reader: &mut " ++ rest) =
      some "read_json_field" := functionName?_ofList_append rfl
  unfold functionNames jsonFieldReader
  simp [String.append_assoc, hname]

@[simp]
theorem functionName?_jsonReadSignature :
    functionName? (jsonReadSignature runtime) = some "read_json" := by
  have hname : ∀ rest, functionName? ("pub fn read_json(reader: &mut " ++ rest) =
      some "read_json" := functionName?_ofList_append rfl
  unfold jsonReadSignature
  simp only [toString_self, String.append_assoc, hname]

@[simp]
theorem functionName?_jsonWriteSignature :
    functionName? (jsonWriteSignature runtime) = some "write_json" := by
  have hname : ∀ rest, functionName? ("pub fn write_json(&self, writer: &mut " ++ rest) =
      some "write_json" := functionName?_ofList_append rfl
  unfold jsonWriteSignature
  simp only [toString_self, String.append_assoc, hname]

theorem functionNames_jsonMethods {inFamily : Bool} :
    functionNames (jsonMethods runtime inFamily) =
      ["read_json", "read_json_content", "write_json", "write_json_content"] := by
  have hcomment : functionName?
      "/// Read a message; `None` for `null` or another type's discriminator." = none :=
    functionName?_ofList rfl
  have hread : ∀ rest, functionName? ("fn read_json_content(reader: &mut " ++ rest) =
      some "read_json_content" := functionName?_ofList_append rfl
  have hwrite : ∀ rest, functionName? ("fn write_json_content(&self, writer: &mut " ++ rest) =
      some "write_json_content" := functionName?_ofList_append rfl
  unfold functionNames jsonMethods
  simp [String.append_assoc, hcomment, hread, hwrite]

theorem functionNames_jsonFamilyMethods :
    functionNames (jsonFamilyMethods m runtime id cases) =
      ["read_json", "write_json", "write_json_content", "json_type"] := by
  have hcomment : functionName?
      "/// Read a message; `None` for `null` or an unknown discriminator." = none :=
    functionName?_ofList rfl
  have hwrite : ∀ rest, functionName? ("fn write_json_content(&self, " ++ rest) =
      some "write_json_content" := functionName?_ofList_append rfl
  have hcomment' : functionName? "/// JSON discriminator of the contained type." = none :=
    functionName?_ofList rfl
  have htype : functionName? "pub fn json_type(&self) -> &'static str" = some "json_type" :=
    functionName?_ofList rfl
  unfold functionNames jsonFamilyMethods
  simp [String.append_assoc, hcomment, hwrite, hcomment', htype]

theorem functionNames_binaryFieldWriter :
    functionNames (binaryFieldWriter runtime fields hasBase) = ["write_binary_fields"] := by
  have hempty : ∀ rest, functionName? ("fn write_binary_fields(&self, _writer: &mut " ++ rest) =
      some "write_binary_fields" := functionName?_ofList_append rfl
  have hname : ∀ rest, functionName? ("fn write_binary_fields(&self, writer: &mut " ++ rest) =
      some "write_binary_fields" := functionName?_ofList_append rfl
  unfold functionNames binaryFieldWriter
  simp only [outer_append balanced_blank, outer_ite]
  split <;> simp [String.append_assoc, hempty, hname]

theorem functionNames_binaryFieldReader :
    functionNames (binaryFieldReader m runtime fields hasBase) = ["read_binary_field"] := by
  have hname : ∀ rest, functionName? ("fn read_binary_field(&mut self, reader: &mut " ++ rest) =
      some "read_binary_field" := functionName?_ofList_append rfl
  unfold functionNames binaryFieldReader
  simp [String.append_assoc, hname]

@[simp]
theorem functionName?_binaryReadSignature :
    functionName? (binaryReadSignature runtime) = some "read_binary" := by
  have hname : ∀ rest, functionName? ("pub fn read_binary(reader: &mut " ++ rest) =
      some "read_binary" := functionName?_ofList_append rfl
  unfold binaryReadSignature
  simp only [toString_self, String.append_assoc, hname]

theorem functionNames_binaryMethods {discriminated : Bool} :
    functionNames (binaryMethods runtime discriminated) =
      ["read_binary", "read_binary_fields", "write_binary"] := by
  have hcomment : functionName?
      "/// Read a message; `None` if the object holds another member of the family." = none :=
    functionName?_ofList rfl
  have hread : ∀ rest, functionName? ("fn read_binary_fields(reader: &mut " ++ rest) =
      some "read_binary_fields" := functionName?_ofList_append rfl
  have hwrite : ∀ rest, functionName? ("pub fn write_binary(&self, writer: &mut " ++ rest) =
      some "write_binary" := functionName?_ofList_append rfl
  unfold functionNames binaryMethods
  cases discriminated <;> simp [String.append_assoc, hcomment, hread, hwrite]

theorem functionNames_binaryFamilyMethods :
    functionNames (binaryFamilyMethods m runtime id cases) =
      ["read_binary", "write_binary", "type_id"] := by
  have hcomment : functionName? "/// Read a message; `None` for an unknown discriminator." = none :=
    functionName?_ofList rfl
  have hwrite : ∀ rest, functionName? ("pub fn write_binary(&self, " ++ rest) =
      some "write_binary" := functionName?_ofList_append rfl
  have hcomment' : functionName? "/// Binary discriminator of the contained type." = none :=
    functionName?_ofList rfl
  have htype : functionName? "pub fn type_id(&self) -> u32" = some "type_id" :=
    functionName?_ofList rfl
  unfold functionNames binaryFamilyMethods
  simp [String.append_assoc, hcomment, hwrite, hcomment', htype]

/-! ## properties and visitors -/

theorem functionNames_propertyEntry {f : FieldView} :
    functionNames (propertyEntry m runtime f) = [] := by
  have hblank : ∀ rest, functionName? ("    " ++ rest) = none := functionName?_ofList_append rfl
  have hname : ∀ rest, functionName? ("        name: Self::" ++ rest) = none :=
    functionName?_ofList_append rfl
  have hget : ∀ rest, functionName? ("        get: |this| " ++ rest) = none :=
    functionName?_ofList_append rfl
  have hset : ∀ rest, functionName? ("        set: |this, value| \x7b " ++ rest) = none :=
    functionName?_ofList_append rfl
  have hend : functionName? "    \x7d," = none := functionName?_ofList rfl
  unfold functionNames propertyEntry
  simp [String.append_assoc, hblank, hname, hget, hset, hend]

theorem functionNames_propertyTable :
    functionNames (propertyTable m runtime fields hasBase) = ["reflect_get", "reflect_set"] := by
  have hentries : functionNames (fields.flatMap (propertyEntry m runtime)) = [] := by
    rw [functionNames_flatMap (by simp), List.flatMap_eq_nil_iff]
    exact fun f _ => functionNames_propertyEntry
  have htable : ∀ rest, functionName? ("const PROPERTY_TABLE: &'static [" ++ rest) = none :=
    functionName?_ofList_append rfl
  have hend : functionName? "];" = none := functionName?_ofList rfl
  have hget : ∀ rest, functionName? ("fn reflect_get(&self, name: &str) -> " ++ rest) =
      some "reflect_get" := functionName?_ofList_append rfl
  have hset : ∀ rest, functionName? ("fn reflect_set(&mut self, name: &str, " ++ rest) =
      some "reflect_set" := functionName?_ofList_append rfl
  unfold functionNames at hentries ⊢
  unfold propertyTable
  generalize (if hasBase || !fields.isEmpty then "value" else "_value") = value
  by_cases hfields : fields = []
  · simp [String.append_assoc, hfields, htable, hget, hset]
  · simp [String.append_assoc, hfields, hentries, htable, hend, hget, hset]

theorem functionNames_propertyMethods : functionNames propertyMethods = ["property_names"] := by
  have hcomment : functionName? "/// Property keys, ancestor keys first." = none :=
    functionName?_ofList rfl
  have hname : functionName? "pub fn property_names(&self) -> &'static [&'static str]" =
      some "property_names" := functionName?_ofList rfl
  unfold functionNames propertyMethods
  simp [hcomment, hname]

theorem functionNames_propertyFamilyMethods :
    functionNames (propertyFamilyMethods runtime cases) =
      ["property_names", "reflect_get", "reflect_set"] := by
  have hcomment : functionName?
      "/// Property keys of the contained type, ancestor keys first." = none :=
    functionName?_ofList rfl
  have hname : functionName? "pub fn property_names(&self) -> &'static [&'static str]" =
      some "property_names" := functionName?_ofList rfl
  have hget : ∀ rest, functionName? ("fn reflect_get(&self, " ++ rest) = some "reflect_get" :=
    functionName?_ofList_append rfl
  have hset : ∀ rest, functionName? ("fn reflect_set(&mut self, " ++ rest) = some "reflect_set" :=
    functionName?_ofList_append rfl
  unfold functionNames propertyFamilyMethods
  simp [String.append_assoc, hcomment, hname, hget, hset]

@[simp]
theorem functionName?_visitSignature {g : Generics} {visitorType visitor argument : String} :
    functionName? (g.visitSignature visitorType visitor argument) = some "visit" := by
  have hname : ∀ rest, functionName? ("pub fn visit<" ++ rest) = some "visit" :=
    functionName?_ofList_append rfl
  unfold Generics.visitSignature
  simp only [toString_self, String.append_assoc, hname]

theorem functionNames_visitFamilyMethod {g : Generics} :
    functionNames (visitFamilyMethod m g id cases) = ["visit"] := by
  unfold functionNames visitFamilyMethod
  simp

theorem functionNames_visitMethodCode {g : Generics} :
    functionNames (visitMethodCode m g id) =
      if (m.abstractParent? id).isSome then ["visit"] else [] := by
  unfold functionNames visitMethodCode
  cases m.abstractParent? id <;> simp

/-! ## XML -/

theorem functionNames_xmlAttributeReader :
    functionNames (xmlAttributeReader view) = ["read_xml_attribute"] := by
  have hname : ∀ rest, functionName? ("fn read_xml_attribute(&mut self, " ++ rest) =
      some "read_xml_attribute" := functionName?_ofList_append rfl
  unfold functionNames xmlAttributeReader
  simp [String.append_assoc, hname]

theorem functionNames_xmlElementReader :
    functionNames (xmlElementReader view) = ["read_xml_element"] := by
  have hname : ∀ rest, functionName? ("fn read_xml_element(&mut self, " ++ rest) =
      some "read_xml_element" := functionName?_ofList_append rfl
  unfold functionNames xmlElementReader
  simp [String.append_assoc, hname]

theorem functionNames_xmlStorageSurface (h : xmlStorageSurface view = .ok code) :
    functionNames code = ["read_xml_attribute", "read_xml_element"] := by
  have hconstant : ∀ rest, functionName? ("pub const " ++ rest) = none :=
    functionName?_ofList_append rfl
  unfold xmlStorageSurface at h
  split at h
  · cases h
  · rw [← Except.ok.inj h, functionNames_append (by simp), functionNames_append (by simp),
      functionNames_append balanced_blank, functionNames_flatMap (by simp),
      functionNames_xmlAttributeReader, functionNames_xmlElementReader]
    simp [String.append_assoc, hconstant]

@[simp]
theorem functionName?_xmlReadSignature {node : String} :
    functionName? (xmlReadSignature runtime node) = some "read_xml" := by
  have hname : ∀ rest, functionName? ("pub fn read_xml(" ++ rest) = some "read_xml" :=
    functionName?_ofList_append rfl
  unfold xmlReadSignature
  simp only [toString_self, String.append_assoc, hname]

theorem functionNames_xmlFamilyMethods : functionNames (xmlFamilyMethods view) = ["read_xml"] := by
  have hcomment : functionName?
      "/// Read the member of the family named by the element; `None` if unknown." = none :=
    functionName?_ofList rfl
  unfold functionNames xmlFamilyMethods
  simp [hcomment]

theorem functionNames_xmlMethods :
    functionNames (xmlMethods view) = ["read_xml_content", "read_xml"] := by
  have helement : ∀ rest, functionName? ("pub const XML_ELEMENT: &'static str = " ++ rest) = none :=
    functionName?_ofList_append rfl
  have hname : ∀ rest, functionName? ("fn read_xml_content(node: " ++ rest) =
      some "read_xml_content" := functionName?_ofList_append rfl
  unfold functionNames xmlMethods
  simp [String.append_assoc, helement, hname]

/-! ## the members of a type -/

theorem functionNames_discriminators {features : Features} {message : Model.Message} :
    functionNames (discriminators features message) = "json_type" ::
      if features.binary && message.typeId.isSome then ["type_id"] else [] := by
  have hjson : functionName? "pub fn json_type(&self) -> &'static str" = some "json_type" :=
    functionName?_ofList rfl
  have hbinary : functionName? "pub fn type_id(&self) -> u32" = some "type_id" :=
    functionName?_ofList rfl
  unfold functionNames discriminators when
  cases features.binary && message.typeId.isSome <;> simp [hjson, hbinary]

/-- Names that are there only with a feature. -/
def given (condition : Bool) (names : List String) : List String := if condition then names else []

/-- The methods that follow the accessors in the structure of a message, but for those that plugins
add. -/
def followingMethods (ctx : Context) (id : MessageId) : List String :=
  let features := ctx.features
  let message := ctx.model.message id
  let isConcrete := !message.isAbstract
  given isConcrete ["json_type"]
  ++ given (isConcrete && features.binary && message.typeId.isSome) ["type_id"]
  ++ ["write_json_fields", "read_json_field"]
  ++ given isConcrete ["read_json", "read_json_content", "write_json", "write_json_content"]
  ++ given features.binary ["write_binary_fields", "read_binary_field"]
  ++ given (isConcrete && features.binary) ["read_binary", "read_binary_fields", "write_binary"]
  ++ given features.reflection ["reflect_get", "reflect_set"]
  ++ given (isConcrete && features.reflection) ["property_names"]
  ++ given (isConcrete && features.interfaces && (ctx.model.abstractParent? id).isSome) ["visit"]

/-- The methods of the structure of a message, but for those that plugins add. -/
def storageMethods (ctx : Context) (id : MessageId) : List String :=
  given (!(ctx.model.message id).isAbstract) ["new"] ++ followingMethods ctx id

theorem functionNames_storageMembers {added : Code} (hmodel : view.model = ctx.model)
    (hfields : ∀ f ∈ view.fields, f.IsNamed) (hinherited : ∀ f ∈ view.inherited, f.IsNamed) :
    functionNames (storageMembers ctx view added) =
      given (!(ctx.model.message view.id).isAbstract) ["new"] ++
        ((view.inherited ++ view.fields).flatMap FieldView.accessorNames ++
          (followingMethods ctx view.id ++ functionNames added)) := by
  have hnew : functionName? "pub fn new() -> Self" = some "new" := functionName?_ofList rfl
  have hconstructor : functionNames (blank ++ enter "pub fn new() -> Self" ++
      line "Self::default()" ++ leave) = ["new"] := by
    unfold functionNames
    simp [hnew]
  unfold storageMembers followingMethods given
  rw [MessageView.message, hmodel, functionNames_append (by simp), functionNames_append (by simp),
    functionNames_append (by simp), functionNames_append (by simp), functionNames_append (by simp),
    functionNames_append (by simp), functionNames_append (by simp), functionNames_append (by simp),
    functionNames_append (by simp), functionNames_append (by simp),
    functionNames_fieldAccessors hfields hinherited]
  simp only [functionNames_constants, functionNames_when, hconstructor,
    functionNames_discriminators, functionNames_jsonFieldWriter, functionNames_jsonFieldReader,
    functionNames_jsonMethods, functionNames_visitMethodCode,
    functionNames_append (balanced_binaryFieldWriter.append balanced_binaryFieldReader),
    functionNames_append balanced_binaryFieldWriter, functionNames_append balanced_propertyTable,
    functionNames_binaryFieldWriter, functionNames_binaryFieldReader, functionNames_binaryMethods,
    functionNames_propertyTable, functionNames_propertyMethods]
  cases (ctx.model.message view.id).isAbstract <;> cases ctx.features.binary <;>
    cases ctx.features.reflection <;> simp [ite_and]

/-- The methods of the type of an abstract message, but for those that plugins add. -/
def familyMethods (ctx : Context) : List String :=
  ["read_json", "write_json", "write_json_content", "json_type"]
  ++ given ctx.features.binary ["read_binary", "write_binary", "type_id"]
  ++ given ctx.features.reflection ["property_names", "reflect_get", "reflect_set"]
  ++ given ctx.features.interfaces ["visit"]

theorem functionsOn_familyMembers (hfields : ∀ f ∈ view.fields, f.IsNamed)
    (hinherited : ∀ f ∈ view.inherited, f.IsNamed) :
    functionsOn cases.typeName (familyMembers ctx view cases) =
      (view.inherited ++ view.fields).flatMap FieldView.accessorNames ++ familyMethods ctx := by
  have hall : ∀ f ∈ view.inherited ++ view.fields, f.IsNamed := fun f hf =>
    (List.mem_append.mp hf).elim (hinherited f) (hfields f)
  have hitem : familyMembers ctx view cases = item s!"impl {cases.typeName}"
      ((view.inherited ++ view.fields).flatMap (fun field =>
        (accessors ctx.model ctx.runtime field).flatMap (Accessor.dispatched cases field))
      ++ (jsonFamilyMethods ctx.model ctx.runtime view.id cases
      ++ (when ctx.features.binary (binaryFamilyMethods ctx.model ctx.runtime view.id cases)
      ++ (when ctx.features.reflection (propertyFamilyMethods ctx.runtime cases)
      ++ when ctx.features.interfaces
          (visitFamilyMethod ctx.model ctx.generics view.id cases))))) := by
    simp only [familyMembers, item, block, List.append_assoc]
  rw [hitem, functionsOn_item (by simp), functionNames_append (by simp),
    functionNames_append (by simp), functionNames_append (by simp), functionNames_append (by simp),
    functionNames_accessors (by simp) (fun _ _ => functionNames_dispatched) hall]
  simp only [functionNames_when, functionNames_jsonFamilyMethods, functionNames_binaryFamilyMethods,
    functionNames_propertyFamilyMethods, functionNames_visitFamilyMethod, familyMethods, given,
    List.append_assoc]

end Missive.Source
