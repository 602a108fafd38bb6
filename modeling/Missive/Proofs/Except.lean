import Mathlib

/-!
# Missive.Proofs.Except

When computations that can fail succeed: one after another, and over lists.  Lists of arguments and
results belong together element by element, from one computation to the next.  A table of pairs is
searched from its beginning, so that it finds what it holds where no key occurs twice.
-/

namespace Missive

/-! ## lists that belong together -/

theorem exists_of_forall₂ {R : α → β → Prop} (h : List.Forall₂ R xs ys) (hy : y ∈ ys) :
    ∃ x ∈ xs, R x y := by
  induction h with
  | nil => contradiction
  | @cons x y' _ _ hx _ ih =>
      obtain rfl | hy := List.mem_cons.mp hy
      · exact ⟨x, .head _, hx⟩
      · obtain ⟨x', hx', hR⟩ := ih hy
        exact ⟨x', .tail _ hx', hR⟩

theorem map_eq_of_forall₂ {f : α → γ} {g : β → γ}
    (h : List.Forall₂ (fun x y => f x = g y) xs ys) : xs.map f = ys.map g := by
  rw [← List.forall₂_eq_eq_eq, List.forall₂_map_left_iff, List.forall₂_map_right_iff]
  exact h

/-- What holds of the elements of a list, said of the elements of one that belongs to it. -/
theorem forall_mem_iff_of_forall₂ {R : α → β → Prop} {P : α → Prop} {Q : β → Prop}
    (hR : ∀ x y, R x y → (P x ↔ Q y)) (h : List.Forall₂ R xs ys) :
    (∀ x ∈ xs, P x) ↔ ∀ y ∈ ys, Q y := by
  induction h with
  | nil => simp
  | cons hxy _ ih => rw [List.forall_mem_cons, List.forall_mem_cons, hR _ _ hxy, ih]

theorem exists_of_mem_zipWith {f : α → β → γ} (h : z ∈ List.zipWith f xs ys) :
    ∃ x ∈ xs, ∃ y ∈ ys, f x y = z := by
  rw [← List.map_uncurry_zip_eq_zipWith] at h
  obtain ⟨⟨x, y⟩, hxy, rfl⟩ := List.mem_map.mp h
  obtain ⟨hx, hy⟩ := List.of_mem_zip hxy
  exact ⟨x, hx, y, hy, rfl⟩

/-- What is made of two lists that belong to a third belongs to it. -/
theorem forall₂_zipWith {f : β → γ → δ} {R : α → β → Prop} {S : α → γ → Prop} {T : α → δ → Prop}
    (hf : ∀ x y z, R x y → S x z → T x (f y z)) (hR : List.Forall₂ R xs ys)
    (hS : List.Forall₂ S xs zs) : List.Forall₂ T xs (List.zipWith f ys zs) := by
  induction hR generalizing zs with
  | nil => cases hS; exact .nil
  | cons hxy _ ih =>
      cases hS with
      | cons hxz hrest => exact .cons (hf _ _ _ hxy hxz) (ih hrest)

/-- What belongs to a list that belongs to another belongs to that one. -/
theorem forall₂_trans {R : α → β → Prop} {S : β → γ → Prop} {T : α → γ → Prop}
    (hT : ∀ x y z, R x y → S y z → T x z) (hR : List.Forall₂ R xs ys)
    (hS : List.Forall₂ S ys zs) : List.Forall₂ T xs zs := by
  induction hR generalizing zs with
  | nil => cases hS; exact .nil
  | cons hxy _ ih =>
      cases hS with
      | cons hyz hrest => exact .cons (hT _ _ _ hxy hyz) (ih hrest)

/-- Where elements that are told apart have partners that are told apart. -/
theorem pairwise_of_forall₂ {R : α → β → Prop} {S : α → α → Prop} {T : β → β → Prop}
    (h : List.Forall₂ R xs ys) (hxs : xs.Pairwise S)
    (hpair : ∀ x x' y y', R x y → R x' y' → S x x' → T y y') : ys.Pairwise T := by
  induction h with
  | nil => exact .nil
  | cons hx hrest ih =>
      rw [List.pairwise_cons] at hxs ⊢
      refine ⟨fun y' hy' => ?_, ih hxs.2⟩
      obtain ⟨x', hx', hR⟩ := exists_of_forall₂ hrest hy'
      exact hpair _ _ _ _ hx hR (hxs.1 x' hx')

/-- Where the marks of elements are distinct, they tell the places of the elements. -/
theorem index_eq_of_nodup_map {f : α → β} {xs : List α} {i j : Nat} (h : (xs.map f).Nodup)
    (hi : xs[i]? = some x) (hj : xs[j]? = some y) (heq : f x = f y) : i = j := by
  obtain ⟨hlt, -⟩ := List.getElem?_eq_some_iff.mp hi
  have hsame : (xs.map f)[i]? = (xs.map f)[j]? := by
    rw [List.getElem?_map, List.getElem?_map, hi, hj, Option.map_some, Option.map_some, heq]
  exact (List.getElem?_inj (by simpa using hlt) h).mp hsame

/-! ## tables -/

theorem lookup_eq_none_iff_not_mem [BEq α] [LawfulBEq α] {entries : List (α × β)} :
    entries.lookup k = none ↔ k ∉ entries.map Prod.fst := by
  rw [List.lookup_eq_none_iff]
  constructor
  · intro h hk
    obtain ⟨entry, hentry, rfl⟩ := List.mem_map.mp hk
    simpa using h entry hentry
  · intro h entry hentry
    exact bne_iff_ne.mpr fun heq => h (heq ▸ List.mem_map_of_mem hentry)

theorem isSome_lookup_iff_mem [BEq α] [LawfulBEq α] {entries : List (α × β)} :
    (entries.lookup k).isSome = true ↔ k ∈ entries.map Prod.fst := by
  rw [Option.isSome_iff_ne_none, Ne, lookup_eq_none_iff_not_mem, not_not]

theorem mem_of_lookup [BEq α] [LawfulBEq α] {entries : List (α × β)}
    (h : entries.lookup k = some b) : (k, b) ∈ entries := by
  obtain ⟨before, rest, rfl, -⟩ := List.lookup_eq_some_iff.mp h
  simp

theorem lookup_eq_some_iff_mem [BEq α] [LawfulBEq α] {entries : List (α × β)}
    (h : (entries.map Prod.fst).Nodup) : entries.lookup k = some b ↔ (k, b) ∈ entries := by
  refine ⟨mem_of_lookup, fun hmem => ?_⟩
  obtain ⟨before, rest, rfl⟩ := List.append_of_mem hmem
  refine List.lookup_eq_some_iff.mpr ⟨before, rest, rfl, fun entry hentry => ?_⟩
  rw [List.map_append, List.map_cons, List.nodup_append'] at h
  refine bne_iff_ne.mpr fun heq => h.2.2 (List.mem_map_of_mem hentry) ?_
  exact heq ▸ .head _

theorem lookup_reverse [BEq α] [LawfulBEq α] {entries : List (α × β)}
    (h : (entries.map Prod.fst).Nodup) (k : α) : entries.reverse.lookup k = entries.lookup k := by
  have h' : (entries.reverse.map Prod.fst).Nodup := by
    rwa [List.map_reverse, List.nodup_reverse]
  refine Option.ext fun b => ?_
  rw [lookup_eq_some_iff_mem h', lookup_eq_some_iff_mem h, List.mem_reverse]

namespace Except

/-! ## computations that can fail -/

@[simp] theorem ok_bind (a : α) (f : α → Except ε β) : ((.ok a : Except ε α) >>= f) = f a := rfl

@[simp] theorem pure_eq_ok (a : α) : (pure a : Except ε α) = .ok a := rfl

theorem bind_eq_ok {x : Except ε α} {f : α → Except ε β} (h : (x >>= f) = .ok b) :
    ∃ a, x = .ok a ∧ f a = .ok b := by
  cases x with
  | error e => contradiction
  | ok a => exact ⟨a, rfl, h⟩

/-- Two computations in a row succeed if the first does, and then the second. -/
theorem exists_bind_eq_ok_iff {x : Except ε α} {f : α → Except ε β} :
    (∃ b, (x >>= f) = .ok b) ↔ ∃ a, x = .ok a ∧ ∃ b, f a = .ok b := by
  constructor
  · rintro ⟨b, h⟩
    obtain ⟨a, ha, hb⟩ := bind_eq_ok h
    exact ⟨a, ha, b, hb⟩
  · rintro ⟨a, rfl, b, hb⟩
    exact ⟨b, hb⟩

theorem map_eq_ok_iff {x : Except ε α} {f : α → β} :
    f <$> x = .ok b ↔ ∃ a, x = .ok a ∧ f a = b := by
  cases x <;> simp [Functor.map, Except.map]

theorem toOption_eq_some {x : Except ε α} : x.toOption = some a ↔ x = .ok a := by
  cases x <;> simp [Except.toOption]

/-- A check of a list passes only if it passes for each element. -/
theorem of_forM_eq_ok {f : α → Except ε PUnit} {xs : List α} (h : xs.forM f = .ok u) (hx : x ∈ xs) :
    f x = .ok ⟨⟩ := by
  induction xs with
  | nil => contradiction
  | cons y rest ih =>
      obtain ⟨_, hy, hrest⟩ := bind_eq_ok (x := f y) h
      obtain rfl | hx := List.mem_cons.mp hx
      · exact hy
      · exact ih hrest hx

theorem forM_eq_ok_iff {f : α → Except ε PUnit} {xs : List α} :
    xs.forM f = .ok ⟨⟩ ↔ ∀ x ∈ xs, f x = .ok ⟨⟩ := by
  refine ⟨fun h x => of_forM_eq_ok h, fun h => ?_⟩
  induction xs with
  | nil => rfl
  | cons x rest ih =>
      have hx : f x = .ok ⟨⟩ := h x (.head _)
      rw [show (x :: rest).forM f = (f x >>= fun _ => rest.forM f) from rfl, hx, ok_bind]
      exact ih fun x hx => h x (.tail _ hx)

/-- A list of results belongs to the list of their arguments, one by one. -/
theorem forall₂_of_mapM_eq_ok {f : α → Except ε β} {xs : List α} (h : xs.mapM f = .ok ys) :
    List.Forall₂ (fun x y => f x = .ok y) xs ys := by
  induction xs generalizing ys with
  | nil => cases h; exact .nil
  | cons x rest ih =>
      rw [List.mapM_cons] at h
      obtain ⟨y, hy, h'⟩ := bind_eq_ok h
      obtain ⟨ys', hys, h''⟩ := bind_eq_ok h'
      cases h''
      exact .cons hy (ih hys)

theorem mapM_eq_ok_iff {f : α → Except ε β} {xs : List α} :
    xs.mapM f = .ok ys ↔ List.Forall₂ (fun x y => f x = .ok y) xs ys := by
  refine ⟨forall₂_of_mapM_eq_ok, fun h => ?_⟩
  induction h with
  | nil => rfl
  | cons hx _ ih => rw [List.mapM_cons, hx, ok_bind, ih, ok_bind, pure_eq_ok]

/-- A list of computations succeeds if each of them does. -/
theorem exists_mapM_eq_ok_iff {f : α → Except ε β} {xs : List α} :
    (∃ ys, xs.mapM f = .ok ys) ↔ ∀ x ∈ xs, ∃ y, f x = .ok y := by
  simp only [mapM_eq_ok_iff]
  constructor
  · rintro ⟨ys, h⟩ x hx
    obtain ⟨i, hi, rfl⟩ := List.getElem_of_mem hx
    exact ⟨_, h.get hi (h.length_eq ▸ hi)⟩
  · intro h
    induction xs with
    | nil => exact ⟨[], .nil⟩
    | cons x rest ih =>
        obtain ⟨y, hy⟩ := h x (.head _)
        obtain ⟨ys, hys⟩ := ih fun x hx => h x (.tail _ hx)
        exact ⟨y :: ys, .cons hy hys⟩

/-- What is made of the beginning of a list comes first in what is made of all of it. -/
theorem prefix_of_mapM_eq_ok {f : α → Except ε β} {xs xs' : List α} (hxs : xs <+: xs')
    (h : xs.mapM f = .ok ys) (h' : xs'.mapM f = .ok ys') : ys <+: ys' := by
  obtain ⟨rest, rfl⟩ := hxs
  rw [List.mapM_append, h, ok_bind] at h'
  obtain ⟨zs, -, hzs⟩ := bind_eq_ok h'
  exact ⟨zs, Except.ok.inj hzs⟩

theorem exists_of_mapM_eq_ok {f : α → Except ε β} {xs : List α} (h : xs.mapM f = .ok ys)
    (hy : y ∈ ys) : ∃ x ∈ xs, f x = .ok y := by
  obtain ⟨x, hx, hf⟩ := exists_of_forall₂ (forall₂_of_mapM_eq_ok h) hy
  exact ⟨x, hx, hf⟩

theorem mapM_congr {f g : α → Except ε β} {xs : List α} (h : ∀ x ∈ xs, f x = g x) :
    xs.mapM f = xs.mapM g := by
  induction xs with
  | nil => rfl
  | cons x xs ih =>
      rw [List.mapM_cons, List.mapM_cons, h x (.head _), ih fun x hx => h x (.tail _ hx)]

/-- What holds at the beginning, and after each step for one more element, holds at the end. -/
theorem of_foldlM_eq_ok {f : σ → α → Except ε σ} {Inv : List α → σ → Prop} {xs : List α}
    (hstep : ∀ done x rest s s', xs = done ++ x :: rest → Inv done s → f s x = .ok s' →
      Inv (done ++ [x]) s')
    (hs : Inv [] s) (h : xs.foldlM f s = .ok s') : Inv xs s' := by
  suffices hrest : ∀ rest done s, xs = done ++ rest → Inv done s → rest.foldlM f s = .ok s' →
      Inv xs s' from hrest xs [] s rfl hs h
  intro rest
  induction rest with
  | nil =>
      intro done s hxs hs h
      cases h
      rwa [hxs, List.append_nil]
  | cons x rest ih =>
      intro done s hxs hs h
      rw [List.foldlM_cons] at h
      obtain ⟨s₁, hx, h'⟩ := bind_eq_ok h
      exact ih (done ++ [x]) s₁ (by simp [hxs]) (hstep done x rest s s₁ hxs hs hx) h'

theorem foldlM_congr {f g : σ → α → Except ε σ} {xs : List α} (h : ∀ x ∈ xs, ∀ s, f s x = g s x)
    (s : σ) : xs.foldlM f s = xs.foldlM g s := by
  induction xs generalizing s with
  | nil => rfl
  | cons x xs ih =>
      rw [List.foldlM_cons, List.foldlM_cons, h x (.head _)]
      exact congrArg _ (funext fun s => ih (fun x hx => h x (.tail _ hx)) s)

/-- What each step leaves as it is, the fold does. -/
theorem eq_of_foldlM_eq_ok {f : σ → α → Except ε σ} {g : σ → β} {xs : List α}
    (hstep : ∀ x ∈ xs, ∀ s s', f s x = .ok s' → g s' = g s) (h : xs.foldlM f s = .ok s') :
    g s' = g s := by
  induction xs generalizing s with
  | nil =>
      cases h
      rfl
  | cons x xs ih =>
      rw [List.foldlM_cons] at h
      obtain ⟨s₁, hx, h'⟩ := bind_eq_ok h
      rw [ih (fun x hx => hstep x (.tail _ hx)) h', hstep x (.head _) s s₁ hx]

/-- An element that every state stays the same for can be left out. -/
theorem foldlM_skip {f : σ → α → Except ε σ} (hx : ∀ s, f s x = .ok s) (before after : List α)
    (s : σ) : (before ++ x :: after).foldlM f s = (before ++ after).foldlM f s := by
  rw [List.foldlM_append, List.foldlM_append]
  refine congrArg _ (funext fun s => ?_)
  rw [List.foldlM_cons, hx, ok_bind]

/-- A fold over results that are there already succeeds if all of them are. -/
theorem foldlM_results_eq_ok_iff {g : σ → α → σ} {results : List (Except ε α)} :
    results.foldlM (fun s result => g s <$> result) s = .ok s' ↔
      ∃ xs, List.Forall₂ (· = .ok ·) results xs ∧ s' = xs.foldl g s := by
  induction results generalizing s with
  | nil => simp [eq_comm]
  | cons result results ih =>
      rw [List.foldlM_cons]
      cases result with
      | error e =>
          refine iff_of_false (fun h => nomatch h) ?_
          rintro ⟨xs, hall, -⟩
          cases hall
          contradiction
      | ok x =>
          refine Iff.trans (ih (s := g s x)) ⟨?_, ?_⟩
          · rintro ⟨xs, hall, rfl⟩
            exact ⟨x :: xs, .cons rfl hall, rfl⟩
          · rintro ⟨_, hall, rfl⟩
            cases hall with
            | cons hx hall =>
                cases hx
                exact ⟨_, hall, rfl⟩

/-- A fold succeeds if each of its steps does, wherever it starts. -/
theorem exists_foldlM_eq_ok {f : σ → α → Except ε σ} {xs : List α}
    (h : ∀ x ∈ xs, ∀ s, ∃ s', f s x = .ok s') (s : σ) : ∃ s', xs.foldlM f s = .ok s' := by
  induction xs generalizing s with
  | nil => exact ⟨s, rfl⟩
  | cons x xs ih =>
      obtain ⟨s₁, hx⟩ := h x (.head _) s
      rw [List.foldlM_cons, hx, ok_bind]
      exact ih (fun x hx => h x (.tail _ hx)) s₁

/-- A fold that puts what it makes of each element at the end. -/
theorem foldlM_concat {f : List β → α → Except ε (List β)} {g : α → β} {xs : List α}
    (h : ∀ x ∈ xs, ∀ done, f done x = .ok (done ++ [g x])) (done : List β) :
    xs.foldlM f done = .ok (done ++ xs.map g) := by
  induction xs generalizing done with
  | nil => simp
  | cons x xs ih =>
      rw [List.foldlM_cons, h x (.head _), ok_bind, ih fun x hx => h x (.tail _ hx)]
      simp

end Except

end Missive
