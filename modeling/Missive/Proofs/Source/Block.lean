import Mathlib.Data.List.Find
import Mathlib.Data.List.TakeWhile
import Missive.Source.Layout

/-!
# Missive.Proofs.Source.Block

Blocks in code, which is a flat list of pieces.

`openAfter` counts the open blocks and stops where one is closed that was not opened; code that
leaves the count as it was is balanced and can be put anywhere.  `linesIn` reads what stands right
inside of given blocks, `outer` what stands outside of all.  There are `simp` lemmas for code that
begins with a given piece and goes on, by which code is counted and read piece by piece.
-/

namespace Missive.Source

open Text

variable {head text after : String} {body code code' code'' : Code} {depth n : Nat}
  {blocks path rest : List String}

/-- A block: its beginning, its body and its end. -/
def block (head : String) (body : Code) : Code := enter head ++ body ++ leave

/-- A block behind a blank line. -/
def item (head : String) (body : Code) : Code := blank ++ block head body

/-! ## open blocks -/

/-- The number of open blocks after code, from the number before it; nothing where a block is closed
that was not opened. -/
def openAfter : Code → Nat → Option Nat
  | [], depth => some depth
  | .opening _ :: code, depth => openAfter code (depth + 1)
  | .closing _ :: _, 0 => none
  | .closing _ :: code, depth + 1 => openAfter code depth
  | .line _ :: code, depth | .blank :: code, depth | .docs _ :: code, depth
  | .raw _ :: code, depth => openAfter code depth

/-- Code that closes the blocks that it opens, and no others. -/
def Balanced (code : Code) : Prop := ∀ depth, openAfter code depth = some depth

theorem openAfter_append (code code' : Code) (depth : Nat) :
    openAfter (code ++ code') depth = (openAfter code depth).bind (openAfter code') := by
  fun_induction openAfter code depth <;> simp_all [openAfter]

@[simp ↓]
theorem openAfter_assoc : openAfter (code ++ code' ++ code'') depth =
    openAfter (code ++ (code' ++ code'')) depth := by
  rw [List.append_assoc]

@[simp ↓]
theorem openAfter_line_append : openAfter (line text ++ code) depth = openAfter code depth := (rfl)

@[simp ↓]
theorem openAfter_blank_append : openAfter (blank ++ code) depth = openAfter code depth := (rfl)

@[simp ↓]
theorem openAfter_docs_append {comment : Option String} :
    openAfter (docs comment ++ code) depth = openAfter code depth := (rfl)

@[simp ↓]
theorem openAfter_enter_append :
    openAfter (enter head ++ code) depth = openAfter code (depth + 1) := (rfl)

@[simp ↓]
theorem openAfter_leaveWith_append :
    openAfter (leaveWith after ++ code) (depth + 1) = openAfter code depth := (rfl)

@[simp ↓]
theorem openAfter_leave_append : openAfter (leave ++ code) (depth + 1) = openAfter code depth :=
  (rfl)

@[simp ↓]
theorem openAfter_leaveWith : openAfter (leaveWith after) (depth + 1) = some depth := (rfl)

@[simp ↓]
theorem openAfter_leave : openAfter leave (depth + 1) = some depth := (rfl)

@[simp ↓]
theorem openAfter_ite_append {p : Prop} [Decidable p] :
    openAfter ((if p then code else code') ++ code'') depth =
      if p then openAfter (code ++ code'') depth else openAfter (code' ++ code'') depth :=
  apply_ite (fun code => openAfter (code ++ code'') depth) ..

@[simp ↓]
theorem openAfter_ite {p : Prop} [Decidable p] : openAfter (if p then code else code') depth =
    if p then openAfter code depth else openAfter code' depth := apply_ite (openAfter · depth) ..

/-- Balanced code is passed over. -/
@[simp ↓ low]
theorem openAfter_append_of_balanced (h : Balanced code) :
    openAfter (code ++ code') depth = openAfter code' depth := by
  rw [openAfter_append, h depth, Option.bind_some]

@[simp ↓ low]
theorem openAfter_of_balanced (h : Balanced code) : openAfter code depth = some depth := h depth

/-! ## balanced code -/

@[simp]
theorem balanced_nil : Balanced [] := fun _ => rfl

@[simp ↓]
theorem balanced_line : Balanced (line text) := fun _ => rfl

@[simp]
theorem balanced_blank : Balanced blank := fun _ => rfl

@[simp]
theorem balanced_docs {comment : Option String} : Balanced (docs comment) := fun _ => rfl

/-- Code in several parts is counted. -/
@[simp ↓]
theorem balanced_append_iff : Balanced (code ++ code') ↔
    ∀ depth, openAfter (code ++ code') depth = some depth := Iff.rfl

@[simp ↓]
theorem balanced_ite {p : Prop} [Decidable p] :
    Balanced (if p then code else code') ↔ (p → Balanced code) ∧ (¬ p → Balanced code') := by
  split <;> simp_all

@[simp]
theorem balanced_flatMap {emit : α → Code} {xs : List α} (h : ∀ x ∈ xs, Balanced (emit x)) :
    Balanced (xs.flatMap emit) := by
  intro depth
  induction xs with
  | nil => rfl
  | cons x xs ih =>
      rw [List.forall_mem_cons] at h
      rw [List.flatMap_cons, openAfter_append_of_balanced h.1, ih h.2]

theorem balanced_flatten {codes : List Code} (h : ∀ code ∈ codes, Balanced code) :
    Balanced codes.flatten := by
  rw [← List.flatMap_id]
  exact balanced_flatMap h

@[simp ↓]
theorem openAfter_flatMap {emit : α → Code} {xs : List α} (h : ∀ x ∈ xs, Balanced (emit x)) :
    openAfter (xs.flatMap emit) depth = some depth := balanced_flatMap h depth

@[simp ↓]
theorem openAfter_flatMap_append {emit : α → Code} {xs : List α}
    (h : ∀ x ∈ xs, Balanced (emit x)) :
    openAfter (xs.flatMap emit ++ code) depth = openAfter code depth :=
  openAfter_append_of_balanced (balanced_flatMap h)

theorem Balanced.append (h : Balanced code) (h' : Balanced code') : Balanced (code ++ code') := by
  simp [h, h']

theorem Balanced.enclosed (h : Balanced code) :
    Balanced (enter head ++ code ++ leaveWith after) := by
  simp [h]

@[simp]
theorem balanced_block (h : Balanced body) : Balanced (block head body) := h.enclosed

@[simp]
theorem balanced_item (h : Balanced body) : Balanced (item head body) :=
  balanced_blank.append (balanced_block h)

/-! ## reading code -/

/-- The lines and the heads of blocks that stand right inside of the blocks with the heads `blocks`,
the innermost first, where the blocks `path` are open at first.  Comments are left out. -/
def linesIn (blocks : List String) : List String → Code → List String
  | _, [] => []
  | path, .opening head :: code =>
    (if path = blocks then [head] else []) ++ linesIn blocks (head :: path) code
  | path, .closing _ :: code => linesIn blocks path.tail code
  | path, .line text :: code =>
    (if path = blocks then [text] else []) ++ linesIn blocks path code
  | path, .raw text :: code =>
    (if path = blocks then lines text else []) ++ linesIn blocks path code
  | path, .blank :: code | path, .docs _ :: code => linesIn blocks path code

/-- The lines and the heads of blocks that stand outside of any block. -/
def outer (code : Code) : List String := linesIn [] [] code

/-- The blocks that are open after code. -/
def pathAfter : List String → Code → List String
  | path, [] => path
  | path, .opening head :: code => pathAfter (head :: path) code
  | path, .closing _ :: code => pathAfter path.tail code
  | path, .line _ :: code | path, .blank :: code | path, .docs _ :: code
  | path, .raw _ :: code => pathAfter path code

theorem linesIn_append : linesIn blocks path (code ++ code') =
    linesIn blocks path code ++ linesIn blocks (pathAfter path code) code' := by
  fun_induction pathAfter path code <;> simp_all [linesIn]

/-- Blocks that are open around code stay open, and nothing else does. -/
theorem exists_pathAfter (h : openAfter code path.length = some n) :
    ∃ path', path'.length = n ∧ ∀ rest, pathAfter (path ++ rest) code = path' ++ rest := by
  fun_induction pathAfter path code generalizing n with
  | case1 path => exact ⟨path, Option.some.inj h, fun _ => rfl⟩
  | case2 path head code ih => exact ih h
  | case3 path after code ih =>
      cases path with
      | nil => contradiction
      | cons head path => exact ih h
  | case4 path text code ih => exact ih h
  | case5 path code ih => exact ih h
  | case6 path text code ih => exact ih h
  | case7 path text code ih => exact ih h

theorem pathAfter_of_balanced (h : Balanced code) : pathAfter path code = path := by
  obtain ⟨path', hlength, hpath⟩ := @exists_pathAfter code 0 [] (h 0)
  obtain rfl := List.length_eq_zero_iff.mp hlength
  exact hpath path

theorem linesIn_flatMap {emit : α → Code} {xs : List α} (h : ∀ x ∈ xs, Balanced (emit x)) :
    linesIn blocks path (xs.flatMap emit) = xs.flatMap fun x => linesIn blocks path (emit x) := by
  induction xs with
  | nil => rfl
  | cons x xs ih =>
      rw [List.forall_mem_cons] at h
      rw [List.flatMap_cons, linesIn_append, pathAfter_of_balanced h.1, ih h.2, List.flatMap_cons]

/-- What stands right inside of blocks does not depend on further blocks around them. -/
theorem linesIn_within (h : openAfter code path.length = some n) (rest : List String) :
    linesIn (blocks ++ rest) (path ++ rest) code = linesIn blocks path code := by
  fun_induction linesIn blocks path code generalizing n with
  | case1 => rfl
  | case2 path head code ih => simp [linesIn, ← ih h]
  | case3 path after code ih =>
      cases path with
      | nil => contradiction
      | cons head path => exact ih h
  | case4 path text code ih => simp [linesIn, ih h]
  | case5 path text code ih => simp [linesIn, ih h]
  | case6 path code ih => exact ih h
  | case7 path text code ih => exact ih h

/-- Nothing inside of a block stands outside of it. -/
theorem linesIn_eq_nil (h : openAfter code path.length = some n) (hrest : rest ≠ []) :
    linesIn [] (path ++ rest) code = [] := by
  fun_induction pathAfter path code generalizing n with
  | case1 => rfl
  | case2 path head code ih => simpa [linesIn, hrest] using ih h
  | case3 path after code ih =>
      cases path with
      | nil => contradiction
      | cons head path => exact ih h
  | case4 path text code ih => simpa [linesIn, hrest] using ih h
  | case5 path code ih => exact ih h
  | case6 path text code ih => exact ih h
  | case7 path text code ih => simpa [linesIn, hrest] using ih h

/-- Blocks with another head are not looked into. -/
theorem linesIn_eq_nil_of_not_mem (hpath : ¬ [head] <:+ path)
    (h : head ∉ linesIn [] path code) : linesIn [head] path code = [] := by
  have hne : ∀ {path}, ¬ [head] <:+ path → path ≠ [head] := fun hpath heq =>
    hpath (heq ▸ List.suffix_rfl)
  fun_induction pathAfter path code with
  | case1 => rfl
  | case2 path text code ih =>
      rw [linesIn, List.mem_append, not_or] at h
      rw [linesIn, if_neg (hne hpath), List.nil_append]
      refine ih (fun hopened => ?_) h.2
      obtain heq | hsuffix := List.suffix_cons_iff.mp hopened
      · obtain ⟨rfl, rfl⟩ := List.cons.inj heq
        simp at h
      · exact hpath hsuffix
  | case3 path after code ih => exact ih (fun hclosed => hpath (hclosed.trans path.tail_suffix)) h
  | case4 path text code ih =>
      rw [linesIn, List.mem_append, not_or] at h
      rw [linesIn, if_neg (hne hpath), List.nil_append, ih hpath h.2]
  | case5 path code ih => exact ih hpath h
  | case6 path text code ih => exact ih hpath h
  | case7 path text code ih =>
      rw [linesIn, List.mem_append, not_or] at h
      rw [linesIn, if_neg (hne hpath), List.nil_append, ih hpath h.2]

/-! ## code outside of blocks -/

@[simp]
theorem outer_nil : outer [] = [] := rfl

@[simp]
theorem outer_line : outer (line text) = [text] := rfl

@[simp]
theorem outer_blank : outer blank = [] := rfl

@[simp]
theorem outer_docs {comment : Option String} : outer (docs comment) = [] := rfl

@[simp ↓]
theorem outer_assoc : outer (code ++ code' ++ code'') = outer (code ++ (code' ++ code'')) := by
  rw [List.append_assoc]

@[simp ↓ low]
theorem outer_append (h : Balanced code) : outer (code ++ code') = outer code ++ outer code' := by
  rw [outer, linesIn_append, pathAfter_of_balanced h]
  rfl

@[simp ↓]
theorem outer_ite {p : Prop} [Decidable p] :
    outer (if p then code else code') = if p then outer code else outer code' := apply_ite outer ..

theorem outer_flatMap {emit : α → Code} {xs : List α} (h : ∀ x ∈ xs, Balanced (emit x)) :
    outer (xs.flatMap emit) = xs.flatMap fun x => outer (emit x) := linesIn_flatMap h

@[simp ↓]
theorem outer_enter_append : outer (enter head ++ code) = head :: linesIn [] [head] code := (rfl)

@[simp ↓]
theorem linesIn_assoc : linesIn [] path (code ++ code' ++ code'') =
    linesIn [] path (code ++ (code' ++ code'')) := by
  rw [List.append_assoc]

@[simp ↓]
theorem linesIn_ite_append {p : Prop} [Decidable p] :
    linesIn [] path ((if p then code else code') ++ code'') =
      if p then linesIn [] path (code ++ code'') else linesIn [] path (code' ++ code'') :=
  apply_ite (fun code => linesIn [] path (code ++ code'')) ..

@[simp ↓]
theorem linesIn_enter_append : linesIn [] (text :: path) (enter head ++ code) =
    linesIn [] (head :: text :: path) code := (rfl)

@[simp ↓]
theorem linesIn_leaveWith_append : linesIn [] (head :: text :: path) (leaveWith after ++ code) =
    linesIn [] (text :: path) code := (rfl)

@[simp ↓]
theorem linesIn_leave_append : linesIn [] (head :: text :: path) (leave ++ code) =
    linesIn [] (text :: path) code := (rfl)

/-- Behind the last block code stands outside again. -/
@[simp ↓]
theorem linesIn_last_append : linesIn [] [head] (leave ++ code) = outer code := (rfl)

@[simp ↓]
theorem linesIn_last : linesIn [] [head] leave = [] := (rfl)

@[simp ↓ low]
theorem linesIn_append_of_balanced (h : Balanced code) :
    linesIn [] (head :: path) (code ++ code') = linesIn [] (head :: path) code' := by
  have hcode : linesIn [] (head :: path) code = [] :=
    @linesIn_eq_nil code 0 [] _ (h 0) (List.cons_ne_nil head path)
  rw [linesIn_append, pathAfter_of_balanced h, hcode, List.nil_append]

@[simp ↓]
theorem linesIn_flatMap_append {emit : α → Code} {xs : List α} (h : ∀ x ∈ xs, Balanced (emit x)) :
    linesIn [] (head :: path) (xs.flatMap emit ++ code) = linesIn [] (head :: path) code :=
  linesIn_append_of_balanced (balanced_flatMap h)

/-- What stands in a block with a given head. -/
theorem linesIn_item (h : Balanced body) : linesIn [head] [] (item head body) = outer body := by
  have hbody : linesIn [head] [head] body = outer body :=
    @linesIn_within body 0 [] [] (h 0) [head]
  calc linesIn [head] [] (item head body)
      = linesIn [head] [head] (body ++ leave) := rfl
    _ = outer body := by
        rw [linesIn_append, pathAfter_of_balanced h, hbody]
        exact List.append_nil _

/-! ## names in lines -/

@[simp]
theorem filterMap_cons_toList {f : α → Option β} {x : α} {xs : List α} :
    (x :: xs).filterMap f = (f x).toList ++ xs.filterMap f := by
  cases h : f x <;> simp [h]

@[simp]
theorem toString_self (s : String) : toString s = s := rfl

/-- What follows the first of some words that a text begins with, up to a character that ends it. -/
def nameAfter? (starts : List String) (stops : List Char) (text : String) : Option String :=
  (starts.find? fun start => start.toList.isPrefixOf text.toList).map fun start =>
    String.ofList ((text.toList.drop start.length).takeWhile fun c => !stops.contains c)

theorem nameAfter?_eq {starts : List String} {stops : List Char} {start name rest : String}
    (hname : ∀ c ∈ name.toList, c ∉ stops)
    (hstart : (starts.find? fun start => start.toList.isPrefixOf text.toList) = some start)
    (htext : text = start ++ name ++ rest) (hrest : ∀ c ∈ rest.toList.head?, c ∈ stops) :
    nameAfter? starts stops text = some name := by
  have hplain : ∀ c ∈ name.toList, (!stops.contains c) = true := by simpa using hname
  have hend : rest.toList.takeWhile (fun c => !stops.contains c) = [] := by
    cases hlist : rest.toList with
    | nil => rfl
    | cons c cs => simp [hrest c (by simp [hlist])]
  rw [nameAfter?, hstart, Option.map_some, htext, String.toList_append, String.toList_append,
    List.append_assoc, List.drop_left' String.length_toList,
    List.takeWhile_append_of_pos hplain, hend, List.append_nil, String.ofList_toList]

end Missive.Source
