import Missive.Proofs.Model.Accepted
import Missive.Source.Accessor

/-!
# Missive.Proofs.Source.Accessors

The names of accessors, and when they collide.

All accessors of a field are named after its stem: the getter has the stem itself, and the others
put a word in front of it or behind it.  The checks on a schema keep the getters apart
(`Model.nodup_getters`), and with them the stems, so two accessors that put the same word to their
stems have different names.  Two accessors that do not may have the same name
(`FieldView.Obstructs`), and apart from names that every type has this is the only way to collide
(`nodup_memberNames_of_ofSchema`).
-/

namespace Missive

namespace FieldPlan

/-- What the accessors of a field do, besides getting and lending it. -/
def actions : FieldPlan → List String
  | .single value => if value.isMessage then ["has", "set"] else ["set"]
  | .repeated _ => ["set", "add"]
  | .map .. => ["set", "put"]

/-- Whether a field is lent for change. -/
def lends : FieldPlan → Bool
  | .single value => value.isMessage
  | .repeated _ => true
  | .map .. => false

end FieldPlan

namespace Source

variable {m : Model} {id : MessageId} {name other action action' word : String}

/-! ## names -/

/-- All that accessors do. -/
def actionWords : List String := ["set", "has", "add", "put"]

theorem subset_actionWords (plan : FieldPlan) : plan.actions ⊆ actionWords := by
  unfold FieldPlan.actions
  split
  · split <;> decide
  · decide
  · decide

theorem nodup_actions (plan : FieldPlan) : plan.actions.Nodup := by
  unfold FieldPlan.actions
  split
  · split <;> decide
  · decide
  · decide

theorem fieldStem_not_mem (name : String) : fieldStem name ∉ messageMethods := by
  have hplain : ∀ method ∈ messageMethods, ¬ ['_'] <:+ method.toList := by decide
  unfold fieldStem
  simp only
  split
  · intro h
    exact hplain _ h ⟨_, by rw [String.toList_append]; rfl⟩
  · next h => simp_all

/-- The stem decides over the getter. -/
theorem fieldName_congr (h : fieldStem name = fieldStem other) :
    fieldName name = fieldName other := by
  simp only [fieldName, h]

/-- A getter has a name that is no keyword if its stem has. -/
theorem fieldName_eq_iff (h : ∀ keyword ∈ keywords, "r#" ++ keyword ≠ word ∧ keyword ≠ word) :
    fieldName name = word ↔ fieldStem name = word := by
  unfold fieldName
  simp only
  split
  · next hk =>
      have hk := h _ (by simpa using hk)
      simp [hk]
  · rfl

theorem toList_accessorName (action name : String) :
    (accessorName action name).toList = (action ++ "_").toList ++ (fieldStem name).toList := by
  simp [accessorName]

theorem toList_mutableName (name : String) :
    (mutableName name).toList = (fieldStem name).toList ++ "_mut".toList := by
  simp [mutableName]

theorem prefix_accessorName (action name : String) :
    (action ++ "_").toList <+: (accessorName action name).toList :=
  ⟨_, (toList_accessorName action name).symm⟩

theorem mutableName_suffix (name : String) : "_mut".toList <:+ (mutableName name).toList :=
  ⟨_, (toList_mutableName name).symm⟩

/-- A word without the mark of an accessor: it begins with no action, and does not end as the names
of accessors that lend do. -/
def IsUnmarked (word : String) : Prop :=
  (∀ action ∈ actionWords, ¬ (action ++ "_").toList <+: word.toList) ∧
    ¬ "_mut".toList <:+ word.toList

instance : DecidablePred IsUnmarked := fun word => inferInstanceAs (Decidable (
  (∀ action ∈ actionWords, ¬ (action ++ "_").toList <+: word.toList) ∧
    ¬ "_mut".toList <:+ word.toList))

theorem IsUnmarked.ne_accessorName (h : IsUnmarked word) (haction : action ∈ actionWords)
    (name : String) : word ≠ accessorName action name := by
  rintro rfl
  exact h.1 action haction (prefix_accessorName action name)

theorem IsUnmarked.ne_mutableName (h : IsUnmarked word) (name : String) :
    word ≠ mutableName name := by
  rintro rfl
  exact h.2 (mutableName_suffix name)

theorem isUnmarked_keywords :
    ∀ keyword ∈ keywords, IsUnmarked ("r#" ++ keyword) ∧ IsUnmarked keyword := by
  decide +kernel

theorem fieldName_eq_accessorName_iff (h : action ∈ actionWords) :
    fieldName name = accessorName action other ↔ fieldStem name = accessorName action other := by
  refine fieldName_eq_iff fun keyword hkeyword => ?_
  obtain ⟨hraw, hplain⟩ := isUnmarked_keywords keyword hkeyword
  exact ⟨hraw.ne_accessorName h other, hplain.ne_accessorName h other⟩

theorem fieldName_eq_mutableName_iff :
    fieldName name = mutableName other ↔ fieldStem name = mutableName other := by
  refine fieldName_eq_iff fun keyword hkeyword => ?_
  obtain ⟨hraw, hplain⟩ := isUnmarked_keywords keyword hkeyword
  exact ⟨hraw.ne_mutableName other, hplain.ne_mutableName other⟩

/-- Accessors with one name do the same, to fields of one stem. -/
theorem eq_of_accessorName (h : action ∈ actionWords) (h' : action' ∈ actionWords)
    (heq : accessorName action name = accessorName action' other) :
    action = action' ∧ fieldStem name = fieldStem other := by
  have hlength : ∀ action ∈ actionWords, (action ++ "_").toList.length = 4 := by
    simp [actionWords]
  have heq := congrArg String.toList heq
  rw [toList_accessorName, toList_accessorName] at heq
  obtain ⟨haction, hstem⟩ := List.append_inj heq ((hlength _ h).trans (hlength _ h').symm)
  have haction : action.toList = action'.toList := by simpa using haction
  exact ⟨String.toList_injective haction, String.toList_injective hstem⟩

theorem eq_of_mutableName (heq : mutableName name = mutableName other) :
    fieldStem name = fieldStem other := by
  have heq := congrArg String.toList heq
  rw [toList_mutableName, toList_mutableName, List.append_left_inj] at heq
  exact String.toList_injective heq

theorem fieldStem_ne_accessorName (action name : String) :
    fieldStem name ≠ accessorName action name := by
  intro heq
  have hlength := congrArg List.length (congrArg String.toList heq)
  rw [toList_accessorName] at hlength
  simp at hlength
  omega

theorem fieldStem_ne_mutableName (name : String) : fieldStem name ≠ mutableName name := by
  intro heq
  have hlength := congrArg List.length (congrArg String.toList heq)
  rw [toList_mutableName] at hlength
  simp at hlength

/-- The letters of an action are not those of the word for lending. -/
theorem accessorName_ne_mutableName (h : action ∈ actionWords) (name : String) :
    accessorName action name ≠ mutableName name := by
  have hletters : ∀ action ∈ actionWords, ¬ (action ++ "_").toList.Perm "_mut".toList := by
    decide
  intro heq
  have heq := congrArg String.toList heq
  rw [toList_accessorName, toList_mutableName] at heq
  refine hletters action h ((List.perm_append_left_iff (fieldStem name).toList).mp ?_)
  exact List.perm_append_comm.trans (.of_eq heq)

/-! ## accessors of a field -/

namespace FieldView

variable {f g : FieldView}

/-- The stem of a field. -/
def stem (f : FieldView) : String := fieldStem f.field.name

/-- The names of the accessors of a field. -/
def accessorNames (f : FieldView) : List String :=
  f.ident :: ((if f.plan.lends then [mutableName f.field.name] else []) ++
    f.plan.actions.map fun action => accessorName action f.field.name)

theorem mem_accessorNames : word ∈ f.accessorNames ↔ word = f.ident ∨
    (f.plan.lends ∧ word = mutableName f.field.name) ∨
    ∃ action ∈ f.plan.actions, word = accessorName action f.field.name := by
  unfold accessorNames
  cases f.plan.lends <;> simp [eq_comm]

theorem map_name_accessors (m : Model) (runtime : String) (f : FieldView) :
    (accessors m runtime f).map (·.name) = f.accessorNames := by
  unfold accessors accessorNames FieldPlan.actions FieldPlan.lends
  cases f.plan with
  | single value =>
      cases hvalue : value.isMessage with
      | true => simp [hvalue, Accessor.chain]
      | false => by_cases hcopy : isCopy value <;> simp [hvalue, hcopy, Accessor.chain]
  | repeated element => simp [Accessor.chain]
  | map key value => simp [Accessor.chain]

/-- An accessor of `f` has a name that `g` needs: for its getter, or for lending it. -/
def Obstructs (f g : FieldView) : Prop :=
  (∃ action ∈ f.plan.actions, g.stem = accessorName action f.field.name) ∨
  (f.plan.lends ∧ g.stem = mutableName f.field.name) ∨
  ∃ action ∈ f.plan.actions, g.plan.lends ∧
    accessorName action f.field.name = mutableName g.field.name

instance : DecidableRel Obstructs := fun f g => inferInstanceAs (Decidable (
  (∃ action ∈ f.plan.actions, g.stem = accessorName action f.field.name) ∨
  (f.plan.lends ∧ g.stem = mutableName f.field.name) ∨
  ∃ action ∈ f.plan.actions, g.plan.lends ∧
    accessorName action f.field.name = mutableName g.field.name))

theorem not_obstructs_self (f : FieldView) : ¬ f.Obstructs f := by
  rintro (⟨action, -, heq⟩ | ⟨-, heq⟩ | ⟨action, haction, -, heq⟩)
  · exact fieldStem_ne_accessorName _ _ heq
  · exact fieldStem_ne_mutableName _ heq
  · exact accessorName_ne_mutableName (subset_actionWords _ haction) _ heq

/-- The getter is named after the field. -/
def IsNamed (f : FieldView) : Prop := f.ident = fieldName f.field.name

theorem IsNamed.eq_accessorName_iff (hf : f.IsNamed) (h : action ∈ g.plan.actions) :
    f.ident = accessorName action name ↔ f.stem = accessorName action name := by
  rw [hf, fieldName_eq_accessorName_iff (subset_actionWords _ h)]
  rfl

theorem IsNamed.eq_mutableName_iff (hf : f.IsNamed) :
    f.ident = mutableName name ↔ f.stem = mutableName name := by
  rw [hf, fieldName_eq_mutableName_iff]
  rfl

/-- What obstructs another field has one of its names. -/
theorem Obstructs.exists_common (h : f.Obstructs g) (hg : g.IsNamed) :
    ∃ word, word ∈ f.accessorNames ∧ word ∈ g.accessorNames := by
  obtain ⟨action, haction, heq⟩ | ⟨hlends, heq⟩ | ⟨action, haction, hlends, heq⟩ := h
  · rw [← hg.eq_accessorName_iff haction] at heq
    exact ⟨g.ident, mem_accessorNames.mpr (.inr (.inr ⟨action, haction, heq⟩)), .head _⟩
  · rw [← hg.eq_mutableName_iff] at heq
    exact ⟨g.ident, mem_accessorNames.mpr (.inr (.inl ⟨hlends, heq⟩)), .head _⟩
  · exact ⟨_, mem_accessorNames.mpr (.inr (.inr ⟨action, haction, rfl⟩)),
      mem_accessorNames.mpr (.inr (.inl ⟨hlends, heq⟩))⟩

theorem obstructs_of_common (hf : f.IsNamed) (hg : g.IsNamed) (hne : f.ident ≠ g.ident)
    (h : word ∈ f.accessorNames) (h' : word ∈ g.accessorNames) :
    f.Obstructs g ∨ g.Obstructs f := by
  have hstem : f.stem ≠ g.stem := fun heq => hne (by rw [hf, hg, fieldName_congr heq])
  rw [mem_accessorNames] at h h'
  obtain rfl | ⟨hlends, rfl⟩ | ⟨action, haction, rfl⟩ := h
  · obtain heq | ⟨hlends', heq⟩ | ⟨action', haction', heq⟩ := h'
    · exact absurd heq hne
    · exact .inr (.inr (.inl ⟨hlends', hf.eq_mutableName_iff.mp heq⟩))
    · exact .inr (.inl ⟨action', haction', (hf.eq_accessorName_iff haction').mp heq⟩)
  · obtain heq | ⟨-, heq⟩ | ⟨action', haction', heq⟩ := h'
    · exact .inl (.inr (.inl ⟨hlends, hg.eq_mutableName_iff.mp heq.symm⟩))
    · exact absurd (eq_of_mutableName heq) hstem
    · exact .inr (.inr (.inr ⟨action', haction', hlends, heq.symm⟩))
  · obtain heq | ⟨hlends', heq⟩ | ⟨action', haction', heq⟩ := h'
    · exact .inl (.inl ⟨action, haction, (hg.eq_accessorName_iff haction).mp heq.symm⟩)
    · exact .inl (.inr (.inr ⟨action, haction, hlends', heq⟩))
    · obtain ⟨-, heq⟩ := eq_of_accessorName (subset_actionWords _ haction)
        (subset_actionWords _ haction') heq
      exact absurd heq hstem

theorem nodup_accessorNames (hf : f.IsNamed) : f.accessorNames.Nodup := by
  have hinj : ∀ action ∈ f.plan.actions, ∀ action' ∈ f.plan.actions,
      accessorName action f.field.name = accessorName action' f.field.name → action = action' :=
    fun action haction action' haction' heq =>
      (eq_of_accessorName (subset_actionWords _ haction) (subset_actionWords _ haction') heq).1
  refine List.nodup_cons.mpr ⟨?_, List.nodup_append'.mpr ⟨?_, (nodup_actions _).map_on hinj, ?_⟩⟩
  · intro hmem
    obtain hmem | hmem := List.mem_append.mp hmem
    · obtain ⟨-, hmem⟩ := List.mem_ite_nil_right.mp hmem
      exact fieldStem_ne_mutableName _ (hf.eq_mutableName_iff.mp (List.mem_singleton.mp hmem))
    · obtain ⟨action, haction, heq⟩ := List.mem_map.mp hmem
      exact fieldStem_ne_accessorName _ _ ((hf.eq_accessorName_iff haction).mp heq.symm)
  · split <;> simp
  · intro word hword hword'
    obtain ⟨-, hword⟩ := List.mem_ite_nil_right.mp hword
    obtain ⟨action, haction, heq⟩ := List.mem_map.mp hword'
    exact accessorName_ne_mutableName (subset_actionWords _ haction) _
      (heq.trans (List.mem_singleton.mp hword))

end FieldView

/-! ## accessors of a message -/

/-- The functions that every type has by traits, and that are called as functions of the type. -/
def typeFunctions : List String := ["default", "from"]

/-- The names of what a type with these fields and methods has. -/
def memberNames (fields : List FieldView) (methods : List String) : List String :=
  fields.flatMap FieldView.accessorNames ++ (methods ++ typeFunctions)

/-- No field obstructs another, and none has the name of a function of the type. -/
def KeepApart (fields : List FieldView) : Prop :=
  (∀ f ∈ fields, ∀ g ∈ fields, ¬ f.Obstructs g) ∧ ∀ f ∈ fields, f.stem ∉ typeFunctions

instance : DecidablePred KeepApart := fun fields => inferInstanceAs (Decidable (
  (∀ f ∈ fields, ∀ g ∈ fields, ¬ f.Obstructs g) ∧ ∀ f ∈ fields, f.stem ∉ typeFunctions))

theorem nodup_flatMap_accessorNames_iff {fields : List FieldView}
    (hnamed : ∀ f ∈ fields, f.IsNamed) (hgetters : (fields.map (·.ident)).Nodup) :
    (fields.flatMap FieldView.accessorNames).Nodup ↔
      ∀ f ∈ fields, ∀ g ∈ fields, ¬ f.Obstructs g := by
  rw [List.nodup_flatMap]
  constructor
  · rintro ⟨-, hpairwise⟩ f hf g hg hobstructs
    obtain ⟨word, hword, hword'⟩ := hobstructs.exists_common (hnamed g hg)
    by_cases heq : f = g
    · exact f.not_obstructs_self (heq ▸ hobstructs)
    · have : Std.Symm (Function.onFun List.Disjoint FieldView.accessorNames) :=
        ⟨fun _ _ h => List.Disjoint.symm h⟩
      exact hpairwise.forall hf hg heq hword hword'
  · intro hapart
    refine ⟨fun f hf => FieldView.nodup_accessorNames (hnamed f hf), ?_⟩
    refine (List.pairwise_map.mp hgetters).imp_of_mem fun {f g} hf hg hne word hword hword' => ?_
    obtain h | h := FieldView.obstructs_of_common (hnamed f hf) (hnamed g hg) hne hword hword'
    · exact hapart f hf g hg h
    · exact hapart g hg f hf h

/-- No function or method of a type is named as an accessor that is marked. -/
theorem isUnmarked_of_mem : ∀ method ∈ messageMethods ++ typeFunctions, IsUnmarked method := by
  decide +kernel

theorem fieldName_eq_iff_of_mem (h : word ∈ messageMethods ++ typeFunctions) :
    fieldName name = word ↔ fieldStem name = word := by
  have hkeywords : ∀ method ∈ messageMethods ++ typeFunctions, ∀ keyword ∈ keywords,
      "r#" ++ keyword ≠ method ∧ keyword ≠ method := by decide +kernel
  exact fieldName_eq_iff (hkeywords word h)

/-- An accessor never has the name of a method that every message has, and the name of a function of
the type only if its field has. -/
theorem disjoint_accessorNames_iff {f : FieldView} (hf : f.IsNamed)
    (hmethods : methods ⊆ messageMethods) :
    f.accessorNames.Disjoint (methods ++ typeFunctions) ↔ f.stem ∉ typeFunctions := by
  constructor
  · intro hdisjoint hmem
    have hident : f.ident = f.stem :=
      hf.trans ((fieldName_eq_iff_of_mem (List.mem_append_right _ hmem)).mpr rfl)
    exact hdisjoint (.head _) (hident ▸ List.mem_append_right _ hmem)
  · intro hstem word hword hmem
    have hmem : word ∈ messageMethods ++ typeFunctions := by
      obtain hmem | hmem := List.mem_append.mp hmem
      · exact List.mem_append_left _ (hmethods hmem)
      · exact List.mem_append_right _ hmem
    obtain rfl | ⟨-, rfl⟩ | ⟨action, haction, rfl⟩ := FieldView.mem_accessorNames.mp hword
    · have hident : f.stem = f.ident := (fieldName_eq_iff_of_mem hmem).mp hf.symm
      rw [← hident] at hmem
      obtain hmem | hmem := List.mem_append.mp hmem
      · exact fieldStem_not_mem _ hmem
      · exact hstem hmem
    · exact (isUnmarked_of_mem _ hmem).ne_mutableName _ rfl
    · exact (isUnmarked_of_mem _ hmem).ne_accessorName (subset_actionWords _ haction) _ rfl

theorem nodup_memberNames_iff {fields : List FieldView} (hnamed : ∀ f ∈ fields, f.IsNamed)
    (hgetters : (fields.map (·.ident)).Nodup) (hmethods : methods ⊆ messageMethods) :
    (memberNames fields methods).Nodup ↔ KeepApart fields ∧ methods.Nodup := by
  have hapart : ∀ word ∈ messageMethods, word ∉ typeFunctions := by
    simp [messageMethods, typeFunctions]
  have hown : (methods ++ typeFunctions).Nodup ↔ methods.Nodup :=
    ⟨List.Nodup.of_append_left, fun hnodup => List.nodup_append'.mpr
      ⟨hnodup, by simp [typeFunctions], fun word hword => hapart word (hmethods hword)⟩⟩
  have hdisjoint : (fields.flatMap FieldView.accessorNames).Disjoint (methods ++ typeFunctions) ↔
      ∀ f ∈ fields, f.stem ∉ typeFunctions := by
    constructor
    · intro h f hf
      refine (disjoint_accessorNames_iff (hnamed f hf) hmethods).mp fun word hword => ?_
      exact h (List.mem_flatMap.mpr ⟨f, hf, hword⟩)
    · intro h word hword
      obtain ⟨f, hf, hword⟩ := List.mem_flatMap.mp hword
      exact (disjoint_accessorNames_iff (hnamed f hf) hmethods).mpr (h f hf) hword
  rw [memberNames, List.nodup_append', nodup_flatMap_accessorNames_iff hnamed hgetters, hdisjoint,
    hown, KeepApart, and_assoc]
  exact and_congr_right fun _ => and_comm

/-! ## the fields of an accepted message -/

theorem fieldView_ok (h : fieldView m owner f = .ok field) : field.field = f ∧ field.IsNamed := by
  unfold fieldView at h
  split at h
  · cases h
    simp only [FieldView.IsNamed, and_self]
  · cases h

theorem ownFields_ok (h : ownFields m id = .ok fields) :
    fields.map (·.field) = (m.message id).fields ∧ ∀ f ∈ fields, f.IsNamed := by
  have hviews := Except.forall₂_of_mapM_eq_ok h
  constructor
  · have hfields : (m.message id).fields.map (fun f => f) = fields.map (·.field) :=
      map_eq_of_forall₂ (hviews.imp fun f field hfield => (fieldView_ok hfield).1.symm)
    rw [← hfields, List.map_id']
  · intro field hfield
    obtain ⟨f, -, hf⟩ := exists_of_forall₂ hviews hfield
    exact (fieldView_ok hf).2

theorem inheritedFields_ok (h : inheritedFields m id = .ok inherited) :
    inherited.map (·.field) = (m.ancestors id).flatMap (fun a => (m.message a).fields) ∧
      ∀ f ∈ inherited, f.IsNamed := by
  obtain ⟨lists, hlists, hflat⟩ := Except.bind_eq_ok h
  cases hflat
  have hviews := Except.forall₂_of_mapM_eq_ok hlists
  constructor
  · have hfields : (m.ancestors id).map (fun a => (m.message a).fields) =
        lists.map (List.map (·.field)) :=
      map_eq_of_forall₂ (hviews.imp fun a fields hfields => (ownFields_ok hfields).1.symm)
    rw [List.flatMap_def, hfields, List.map_flatten]
  · intro field hfield
    obtain ⟨fields, hfields, hfield⟩ := List.mem_flatten.mp hfield
    obtain ⟨a, -, ha⟩ := exists_of_forall₂ hviews hfields
    exact (ownFields_ok ha).2 field hfield

/-- The names of the members of an accepted message are distinct if its fields keep apart, and if it
has no method twice. -/
theorem nodup_memberNames_of_ofSchema (h : Model.ofSchema schema = .ok m)
    (hfields : ownFields m id = .ok fields) (hinherited : inheritedFields m id = .ok inherited)
    (hmethods : methods ⊆ messageMethods) :
    (memberNames (inherited ++ fields) methods).Nodup ↔
      KeepApart (inherited ++ fields) ∧ methods.Nodup := by
  obtain ⟨draft, hpasses⟩ := Model.passes_of_ofSchema h
  obtain ⟨hown, hnamed⟩ := ownFields_ok hfields
  obtain ⟨habove, hnamed'⟩ := inheritedFields_ok hinherited
  have hall : ∀ f ∈ inherited ++ fields, f.IsNamed := fun f hf =>
    (List.mem_append.mp hf).elim (hnamed' f) (hnamed f)
  refine nodup_memberNames_iff hall ?_ hmethods
  have hidents : (inherited ++ fields).map (·.ident) =
      (m.allFields id).map fun entry => fieldName entry.2.name := by
    calc (inherited ++ fields).map (·.ident)
        = (inherited ++ fields).map (fun f => fieldName f.field.name) := List.map_congr_left hall
      _ = ((inherited ++ fields).map (·.field)).map (fun f => fieldName f.name) := by
          simp only [List.map_map, Function.comp_def]
      _ = _ := by
          rw [List.map_append, hown, habove, Model.allFields, List.flatMap_append]
          simp [List.map_flatMap, Function.comp_def]
  rw [hidents]
  exact Model.nodup_getters hpasses.isForest hpasses.allNumbered id

end Source

end Missive
