import Mathlib.Algebra.Group.Int.Defs
import Mathlib.Algebra.GroupWithZero.Nat
import Mathlib.Data.List.Basic
import Mathlib.Data.List.Forall2

/-!
# Machinery/Collect — loops that collect, and may fail

`Lift E R` relates two computations that end alike: both succeed, with values related by `R`, or
both fail, with errors related by `E`.  It is kept by sequencing (`Lift.bind`).

`concatM f l` runs `f` on each element of `l` and concatenates what it yields; the first failure is
the outcome of the loop.  The rules say what a finished loop has collected (`mem_concatM`) and where
a loop fails (`error_of_concatM`).
-/

namespace Machinery

open List

variable {ε α β : Type} {e : ε} {a : α} {bs : List β}

@[simp] theorem ok_bind (a : α) (f : α → Except ε β) : (Except.ok a >>= f) = f a := rfl

@[simp] theorem error_bind (e : ε) (f : α → Except ε β) : (Except.error e >>= f) = .error e := rfl

variable {x : Except ε α}

theorem bind_eq_ok {f : α → Except ε β} {b : β} :
    (x >>= f) = .ok b ↔ ∃ a, x = .ok a ∧ f a = .ok b := by
  cases x <;> simp

theorem bind_eq_pure {f : α → β} {b : β} :
    (do let a ← x; pure (f a)) = .ok b ↔ ∃ a, x = .ok a ∧ f a = b := by
  cases x with
  | ok a => exact ⟨fun h => ⟨a, rfl, Except.ok.inj h⟩, by rintro ⟨_, ⟨⟩, rfl⟩; rfl⟩
  | error e => simp

theorem bind_eq_error {f : α → Except ε β} :
    (x >>= f) = .error e ↔ x = .error e ∨ ∃ a, x = .ok a ∧ f a = .error e := by
  cases x <;> simp

/-- The computations end alike. -/
inductive Lift {α β : Type} (E : ε → ε → Prop) (R : α → β → Prop) :
    Except ε α → Except ε β → Prop
  | ok {a : α} {b : β} (h : R a b) : Lift E R (.ok a) (.ok b)
  | error {e e' : ε} (h : E e e') : Lift E R (.error e) (.error e')

namespace Lift

variable {γ δ : Type} {E : ε → ε → Prop} {R : α → β → Prop} {S : γ → δ → Prop} {x : Except ε α}
  {y : Except ε β}

/-- **Sequencing keeps the relation.** -/
theorem bind {f : α → Except ε γ} {g : β → Except ε δ}
    (h : Lift E R x y) (hfg : ∀ a b, R a b → Lift E S (f a) (g b)) :
    Lift E S (x >>= f) (y >>= g) := by
  cases h with
  | ok hab => exact hfg _ _ hab
  | error he => exact .error he

theorem mono {R' : α → β → Prop} (h : Lift E R x y) (hR : ∀ a b, R a b → R' a b) :
    Lift E R' x y := by
  cases h with
  | ok hab => exact .ok (hR _ _ hab)
  | error he => exact .error he

theorem refl {R : α → α → Prop} (hE : ∀ e, E e e) (hR : ∀ a, R a a) (x : Except ε α) :
    Lift E R x x := by
  cases x with
  | ok a => exact .ok (hR a)
  | error e => exact .error (hE e)

/-- How two related computations end. -/
theorem cases (h : Lift E R x y) :
    (∃ a b, x = .ok a ∧ y = .ok b ∧ R a b) ∨ ∃ e e', x = .error e ∧ y = .error e' ∧ E e e' := by
  cases h with
  | ok hab => exact .inl ⟨_, _, rfl, rfl, hab⟩
  | error he => exact .inr ⟨_, _, rfl, rfl, he⟩

@[simp] theorem ok_left : Lift E R (.ok a) y ↔ ∃ b, y = .ok b ∧ R a b := by
  constructor
  · rintro (h | _)
    exact ⟨_, rfl, h⟩
  · rintro ⟨b, rfl, h⟩
    exact .ok h

theorem ok_right {b : β} (h : Lift E R x (.ok b)) : ∃ a, x = .ok a ∧ R a b := by
  obtain ⟨hab⟩ | _ := h
  exact ⟨_, rfl, hab⟩

@[simp] theorem error_left : Lift E R (.error e) y ↔ ∃ e', y = .error e' ∧ E e e' := by
  constructor
  · rintro (_ | h)
    exact ⟨_, rfl, h⟩
  · rintro ⟨e', rfl, h⟩
    exact .error h

end Lift

/-- Concatenate what `f` yields on each element of a list. -/
def concatM (f : α → Except ε (List β)) : List α → Except ε (List β)
  | [] => .ok []
  | a :: as => do
      let bs ← f a
      let cs ← concatM f as
      .ok (bs ++ cs)

variable {f : α → Except ε (List β)} {l : List α}

theorem concatM_cons_eq_ok :
    concatM f (a :: l) = .ok bs ↔
    ∃ xs ys, f a = .ok xs ∧ concatM f l = .ok ys ∧ bs = xs ++ ys := by
  simp only [concatM, bind_eq_ok, Except.ok.injEq]
  constructor
  · rintro ⟨xs, hx, ys, hy, rfl⟩
    exact ⟨xs, ys, hx, hy, rfl⟩
  · rintro ⟨xs, ys, hx, hy, rfl⟩
    exact ⟨xs, hx, ys, hy, rfl⟩

/-- **What a finished loop has collected**: what the elements yield. -/
theorem mem_concatM (h : concatM f l = .ok bs) (b : β) :
    b ∈ bs ↔ ∃ a ∈ l, ∃ xs, f a = .ok xs ∧ b ∈ xs := by
  induction l generalizing bs with
  | nil =>
    simp only [concatM, Except.ok.injEq] at h
    simp [← h]
  | cons a l ih =>
    obtain ⟨xs, ys, hx, hy, rfl⟩ := concatM_cons_eq_ok.mp h
    rw [mem_append, ih hy]
    simp [hx]

theorem ok_of_concatM (h : concatM f l = .ok bs) : ∀ a ∈ l, ∃ xs, f a = .ok xs := by
  induction l generalizing bs with
  | nil => simp
  | cons a l ih =>
    obtain ⟨xs, ys, hx, hy, -⟩ := concatM_cons_eq_ok.mp h
    simpa [hx] using ih hy

/-- A finished loop has run each of its elements. -/
theorem run_of_concatM (h : concatM f l = .ok bs) (ha : a ∈ l) :
    ∃ xs, f a = .ok xs ∧ xs ⊆ bs := by
  obtain ⟨xs, hxs⟩ := ok_of_concatM h a ha
  exact ⟨xs, hxs, fun b hb => (mem_concatM h b).mpr ⟨a, ha, xs, hxs, hb⟩⟩

/-- **A loop fails only where one of its elements does.** -/
theorem error_of_concatM (h : concatM f l = .error e) : ∃ a ∈ l, f a = .error e := by
  induction l with
  | nil => simp [concatM] at h
  | cons a l ih =>
    rcases bind_eq_error.mp h with h | ⟨xs, -, h⟩
    · exact ⟨a, by simp, h⟩
    · rcases bind_eq_error.mp h with h | ⟨ys, -, h⟩
      · obtain ⟨b, hb, he⟩ := ih h
        exact ⟨b, mem_cons_of_mem a hb, he⟩
      · simp at h

theorem concatM_congr {g : α → Except ε (List β)} (h : ∀ a ∈ l, f a = g a) :
    concatM f l = concatM g l := by
  induction l with
  | nil => rfl
  | cons a l ih =>
    simp only [concatM]
    rw [h a (by simp), ih fun b hb => h b (mem_cons_of_mem a hb)]

/-- In related lists each element has a partner. -/
theorem forall₂_mem_left {R : α → β → Prop} {l' : List β}
    (h : List.Forall₂ R l l') (ha : a ∈ l) : ∃ b ∈ l', R a b := by
  induction h with
  | nil => cases ha
  | @cons a' b l l' hab _ ih =>
    rcases mem_cons.mp ha with rfl | ha
    · exact ⟨b, mem_cons_self, hab⟩
    · obtain ⟨b', hb', hR⟩ := ih ha
      exact ⟨b', mem_cons_of_mem b hb', hR⟩

theorem forall₂_mem_right {R : α → β → Prop} {l' : List β}
    (h : List.Forall₂ R l l') {b : β} (hb : b ∈ l') : ∃ a ∈ l, R a b :=
  forall₂_mem_left h.flip hb

/-- **A traversal that succeeds** gives each element its result. -/
theorem forall₂_of_mapM {f : α → Except ε β} (h : l.mapM f = .ok bs) :
    List.Forall₂ (fun a b => f a = .ok b) l bs := by
  induction l generalizing bs with
  | nil =>
    obtain rfl : [] = bs := Except.ok.inj h
    exact .nil
  | cons a l ih =>
    rw [mapM_cons] at h
    obtain ⟨b, hb, h⟩ := bind_eq_ok.mp h
    obtain ⟨bs', hbs, rfl⟩ := bind_eq_pure.mp h
    exact .cons hb (ih hbs)

/-- Each result of a traversal is that of an element. -/
theorem exists_of_mapM {f : α → Except ε β}
    (h : l.mapM f = .ok bs) {b : β} (hb : b ∈ bs) : ∃ a ∈ l, f a = .ok b :=
  forall₂_mem_right (forall₂_of_mapM h) hb

theorem map_eq_self_iff {f : α → α} : l.map f = l ↔ ∀ a ∈ l, f a = a := by
  simpa using map_inj_left (f := f) (g := id) (l := l)

/-- A loop that undoes a map gives the list back. -/
theorem mapM_map_eq_ok {g : α → β} {f : β → Except ε α} (h : ∀ a ∈ l, f (g a) = .ok a) :
    (l.map g).mapM f = .ok l := by
  induction l with
  | nil => rfl
  | cons a l ih =>
    have htail := ih fun b hb => h b (mem_cons_of_mem _ hb)
    simp only [map_cons, mapM_cons, h a mem_cons_self, htail, ok_bind]
    rfl

end Machinery
