import Mathlib
import Missive.Json.Parse

/-!
# Missive.Proofs.Json.Repeated

Properties that a JSON text writes more than once.

`parseEvery?` reads a text by the same grammar as `parse?`, but keeps every property that the text
writes.  What `parse?` gives is the same value with repeated properties merged (`parse?_eq_merged`):
each name once, in the order of the first places, with the last value.
-/

namespace Missive.Json

open Text

/-! ## merging -/

mutual

/-- A value in which no name is repeated: a property keeps its first place and its last value. -/
def merged : Json → Json
  | .array items => .array (mergedItems items)
  | .object members => .object (mergedMembers [] members)
  | value => value

/-- The items of an array, merged one by one. -/
def mergedItems : List Json → List Json
  | [] => []
  | item :: items => merged item :: mergedItems items

/-- The properties of an object, set one after the other. -/
def mergedMembers (done : List (String × Json)) : List (String × Json) → List (String × Json)
  | [] => done
  | (name, value) :: members => mergedMembers (setMember name (merged value) done) members

end

theorem mergedItems_eq (items : List Json) : mergedItems items = items.map merged := by
  induction items with
  | nil => rfl
  | cons item items ih => rw [mergedItems, ih, List.map_cons]

theorem mergedMembers_concat (done members : List (String × Json)) (member : String × Json) :
    mergedMembers done (members ++ [member]) =
      setMember member.1 (merged member.2) (mergedMembers done members) := by
  induction members generalizing done with
  | nil => rfl
  | cons first members ih => simp only [List.cons_append, mergedMembers, ih]

/-! ## setting properties -/

theorem map_fst_setMember (name : String) (value : Json) (members : List (String × Json)) :
    (setMember name value members).map Prod.fst =
      if name ∈ members.map Prod.fst then members.map Prod.fst
      else members.map Prod.fst ++ [name] := by
  induction members with
  | nil => rfl
  | cons member members ih =>
      by_cases h : member.1 = name
      · simp [setMember, h]
      · simp only [setMember, beq_false_of_ne h, Bool.false_eq_true, if_false, List.map_cons, ih,
          List.mem_cons, Ne.symm h, false_or]
        split <;> simp

theorem lookup_cons_eq_ite (k : String) (member : String × Json) (members : List (String × Json)) :
    (member :: members).lookup k = if k = member.1 then some member.2 else members.lookup k := by
  obtain ⟨name, value⟩ := member
  by_cases h : k = name
  · simp [h]
  · simp [List.lookup_cons, beq_false_of_ne h, h]

theorem lookup_setMember (k name : String) (value : Json) (members : List (String × Json)) :
    (setMember name value members).lookup k =
      if k = name then some value else members.lookup k := by
  induction members with
  | nil => rw [setMember, lookup_cons_eq_ite]
  | cons member members ih =>
      obtain ⟨other, old⟩ := member
      by_cases h : other = name
      · subst h
        simp only [setMember, beq_self_eq_true, if_true, lookup_cons_eq_ite]
        split <;> rfl
      · simp only [setMember, beq_false_of_ne h, Bool.false_eq_true, if_false, lookup_cons_eq_ite,
          ih]
        grind

/-- **The names of merged properties** stand in the order of their first places. -/
theorem map_fst_mergedMembers (members : List (String × Json)) :
    (mergedMembers [] members).map Prod.fst = (members.map Prod.fst).eraseDups := by
  induction members using List.reverseRecOn with
  | nil => rfl
  | append_singleton members member ih =>
      rw [mergedMembers_concat, map_fst_setMember, ih, List.map_append, List.map_singleton,
        List.eraseDups_append]
      by_cases h : member.1 ∈ members.map Prod.fst
      · simp [h, List.removeAll]
      · simp [h, List.removeAll, List.eraseDups_cons]

theorem nodup_mergedMembers (members : List (String × Json)) :
    ((mergedMembers [] members).map Prod.fst).Nodup := by
  induction members using List.reverseRecOn with
  | nil => exact List.nodup_nil
  | append_singleton members member ih =>
      rw [mergedMembers_concat, map_fst_setMember]
      split
      · exact ih
      · next hnew => exact List.nodup_append'.mpr ⟨ih, List.nodup_singleton _, by simpa using hnew⟩

/-- **The values of merged properties** are the last ones. -/
theorem lookup_mergedMembers (members : List (String × Json)) (k : String) :
    (mergedMembers [] members).lookup k = (members.reverse.lookup k).map merged := by
  induction members using List.reverseRecOn with
  | nil => rfl
  | append_singleton members member ih =>
      rw [mergedMembers_concat, lookup_setMember, ih, List.reverse_append, List.reverse_singleton,
        List.singleton_append, lookup_cons_eq_ite, apply_ite (Option.map merged), Option.map_some]

/-! ## reading every property -/

/-- One more member of an object, which is added to those before it, and whether more follow. -/
def memberStep (add : String → Json → List (String × Json) → List (String × Json))
    (value : Scan Json) (members : List (String × Json)) : Scan (List (String × Json) × Bool) := do
  Scan.skipWhile isSpace
  Scan.expect "\""
  let name ← readString
  Scan.skipWhile isSpace
  Scan.expect ":"
  let members' := add name (← value) members
  Scan.skipWhile isSpace
  if ← Scan.accept "," then return (members', true)
  else
    Scan.expect "\x7d"
    return (members', false)

/-- The members of an object after its brace. -/
def readMembersWith (add : String → Json → List (String × Json) → List (String × Json))
    (value : Scan Json) : Scan (List (String × Json)) := do
  Scan.skipWhile isSpace
  if ← Scan.accept "\x7d" then return [] else Scan.loop (memberStep add value) []

theorem readMembers_eq (value : Scan Json) : readMembers value = readMembersWith setMember value :=
  rfl

/-- Add a property at the end, whether its name is there or not. -/
def addMember (name : String) (value : Json) (members : List (String × Json)) :
    List (String × Json) := members ++ [(name, value)]

/-- Read a value with every property that is written, with at most `depth` nested containers. -/
def readEvery (depth : Nat) : Scan Json := do
  Scan.skipWhile isSpace
  match ← Scan.peek? with
  | some 'n' => Scan.expect "null"; return .null
  | some 't' => Scan.expect "true"; return .bool true
  | some 'f' => Scan.expect "false"; return .bool false
  | some '"' => let _ ← Scan.next; return .string (← readString)
  | some '[' =>
    let _ ← Scan.next
    match depth with
    | 0 => Scan.fail
    | depth + 1 => return .array (← readItems (readEvery depth))
  | some '\x7b' =>
    let _ ← Scan.next
    match depth with
    | 0 => Scan.fail
    | depth + 1 => return .object (← readMembersWith addMember (readEvery depth))
  | _ => return .number (← JsonNumber.read)

/-- The value that a text writes, with every property. -/
def parseEvery? (text : String) : Option Json :=
  Scan.run? (do
    let value ← readEvery nestingLimit
    Scan.skipWhile isSpace
    return value) text.toList

/-! ## merging while reading -/

@[simp] theorem map_fail (h : β → α) : h <$> (Scan.fail : Scan β) = Scan.fail := rfl

theorem run?_map (h : β → α) (scan : Scan β) (cs : List Char) :
    Scan.run? (h <$> scan) cs = (Scan.run? scan cs).map h := by
  have hmap : (h <$> scan) cs = (scan cs).map fun r => (h r.1, r.2) := by
    cases hscan : scan cs <;> simp [Functor.map, StateT.map, bind, hscan]
  rw [Scan.run?, Scan.run?, hmap]
  match scan cs with
  | none | some (_, []) | some (_, _ :: _) => rfl

/-- Loops whose steps go together come to results that go together. -/
theorem repeatSteps_map (h : β → α) {step : α → Scan (α × Bool)} {step' : β → Scan (β × Bool)}
    (hstep : ∀ b, step (h b) = (fun r => (h r.1, r.2)) <$> step' b) (fuel : Nat) (b : β) :
    Scan.repeatSteps step fuel (h b) = h <$> Scan.repeatSteps step' fuel b := by
  induction fuel generalizing b with
  | zero => rfl
  | succ fuel ih =>
      rw [Scan.repeatSteps, Scan.repeatSteps, hstep, bind_map_left, map_bind]
      refine bind_congr fun r => ?_
      obtain ⟨b', more⟩ := r
      cases more with
      | true => exact ih b'
      | false => rfl

theorem loop_map (h : β → α) {step : α → Scan (α × Bool)} {step' : β → Scan (β × Bool)}
    (hstep : ∀ b, step (h b) = (fun r => (h r.1, r.2)) <$> step' b) (b : β) :
    Scan.loop step (h b) = h <$> Scan.loop step' b := by
  funext cs
  exact congrFun (repeatSteps_map h hstep (cs.length + 1) b) cs

/-- One more item of an array, and whether more follow. -/
def itemStep (value : Scan Json) (items : List Json) : Scan (List Json × Bool) := do
  let item ← value
  Scan.skipWhile isSpace
  if ← Scan.accept "," then return (item :: items, true)
  else
    Scan.expect "]"
    return (item :: items, false)

theorem itemStep_map (g : Json → Json) (value : Scan Json) (items : List Json) :
    itemStep (g <$> value) (items.map g) =
      (fun r => (r.1.map g, r.2)) <$> itemStep value items := by
  simp only [itemStep, bind_map_left, map_bind]
  refine bind_congr fun item => bind_congr fun _ => bind_congr fun more => ?_
  cases more <;> simp

theorem readItems_eq (value : Scan Json) : readItems value = (do
    Scan.skipWhile isSpace
    if ← Scan.accept "]" then return [] else return (← Scan.loop (itemStep value) []).reverse) :=
  rfl

theorem readItems_map (g : Json → Json) (value : Scan Json) :
    readItems (g <$> value) = List.map g <$> readItems value := by
  have hloop : Scan.loop (itemStep (g <$> value)) [] =
      List.map g <$> Scan.loop (itemStep value) [] :=
    loop_map (List.map g) (itemStep_map g value) []
  simp only [readItems_eq, map_bind, hloop]
  refine bind_congr fun _ => bind_congr fun closed => ?_
  cases closed <;> simp

theorem memberStep_merged (value : Scan Json) (members : List (String × Json)) :
    memberStep setMember (merged <$> value) (mergedMembers [] members) =
      (fun r => (mergedMembers [] r.1, r.2)) <$> memberStep addMember value members := by
  simp only [memberStep, bind_map_left, map_bind]
  refine bind_congr fun _ => bind_congr fun _ => bind_congr fun name => bind_congr fun _ =>
    bind_congr fun _ => bind_congr fun v => bind_congr fun _ => bind_congr fun more => ?_
  cases more <;> simp [addMember, mergedMembers_concat]

theorem readMembers_merged (value : Scan Json) :
    readMembers (merged <$> value) = mergedMembers [] <$> readMembersWith addMember value := by
  have hloop : Scan.loop (memberStep setMember (merged <$> value)) [] =
      mergedMembers [] <$> Scan.loop (memberStep addMember value) [] :=
    loop_map (mergedMembers []) (memberStep_merged value) []
  simp only [readMembers_eq, readMembersWith, map_bind, hloop]
  refine bind_congr fun _ => bind_congr fun closed => ?_
  cases closed <;> rfl

theorem readValue_eq_merged (depth : Nat) : readValue depth = merged <$> readEvery depth := by
  induction depth with
  | zero =>
      rw [readValue, readEvery, map_bind]
      refine bind_congr fun _ => ?_
      rw [map_bind]
      refine bind_congr fun next => ?_
      split <;> simp [merged]
  | succ depth ih =>
      rw [readValue, readEvery, map_bind]
      refine bind_congr fun _ => ?_
      rw [map_bind]
      refine bind_congr fun next => ?_
      split <;> simp [merged, ih, readItems_map, readMembers_merged, mergedItems_eq]

/-- **Reading merges**: a text is read as what it writes, with repeated properties merged. -/
theorem parse?_eq_merged (text : String) : parse? text = (parseEvery? text).map merged := by
  unfold parse? parseEvery?
  rw [← run?_map, readValue_eq_merged, bind_map_left, map_bind]
  simp only [map_bind, map_pure]

end Missive.Json
