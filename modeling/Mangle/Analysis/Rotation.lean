import Mangle.Machinery.Search

/-!
# Analysis/Rotation — applying a permutation in place

`apply_permutation_cycle_rotate` moves the element at `i` to `permutation i`, one cycle of the
permutation at a time.  An array is its elements by index; the length is `n`.

* `rotate_apply` — every element arrives.
-/

namespace Mangle

open Machinery List

/-- The array, and which of its elements have been moved. -/
structure Rotation (α : Type) where
  arr : Nat → α
  visited : Nat → Bool

section

variable {α : Type}

/-- Put down a value at its target; it came from `current`. -/
def Rotation.put (st : Rotation α) (target current : Nat) (x : α) : Rotation α :=
  ⟨Function.update st.arr target x, Function.update st.visited current true⟩

/-- The inner loop: put the value down at its target and pick up what was there, until the cycle
is back at `i`. -/
def rotateCycle (permutation : Nat → Nat) (i : Nat) : Nat → Nat → α → Rotation α → Rotation α
  | 0, _, _, st => st
  | fuel + 1, currentIdx, currentVal, st =>
      let targetIdx := permutation currentIdx
      let nextVal := st.arr targetIdx
      let st := st.put targetIdx currentIdx currentVal
      if targetIdx = i then st else rotateCycle permutation i fuel targetIdx nextVal st

/-- The step of the outer loop. -/
def rotateFrom [Inhabited α] (permutation : Nat → Nat) (n : Nat) (st : Rotation α) (i : Nat) :
    Rotation α :=
  if st.visited i then st
  else if permutation i = i then { st with visited := Function.update st.visited i true }
  else rotateCycle permutation i n i (st.arr i) { st with arr := Function.update st.arr i default }

/-- `apply_permutation_cycle_rotate`. -/
def applyPermutationCycleRotate [Inhabited α] (arr : Nat → α) (permutation : Nat → Nat) (n : Nat) :
    Nat → α :=
  ((List.range n).foldl (rotateFrom permutation n) ⟨arr, fun _ => false⟩).arr

/-! ## Every element arrives -/

/-- Whole cycles have been moved. -/
structure Rotated (a : Nat → α) (permutation : Nat → Nat) (n : Nat) (st : Rotation α) : Prop where
  bound : ∀ v, st.visited v = true → v < n
  moved : ∀ v, st.visited v = true → st.arr (permutation v) = a v
  forth : ∀ v, st.visited v = true → st.visited (permutation v) = true
  back : ∀ v, st.visited v = true → ∃ k, st.visited k = true ∧ permutation k = v
  rest : ∀ v, st.visited v = false → st.arr v = a v

/-- Part of the cycle of `i` has been moved, up to `cur` whose value is in hand. -/
structure Rotating (a : Nat → α) (permutation : Nat → Nat) (n i cur : Nat) (st : Rotation α) :
    Prop where
  bound : ∀ v, st.visited v = true → v < n
  moved : ∀ v, st.visited v = true → st.arr (permutation v) = a v
  forth : ∀ v, st.visited v = true → st.visited (permutation v) = true ∨ permutation v = cur
  back : ∀ v, v = cur ∨ st.visited v = true → v = i ∨ ∃ k, st.visited k = true ∧ permutation k = v
  rest : ∀ v, (∀ k, st.visited k = true → permutation k ≠ v) → v ≠ i → st.arr v = a v
  hand : st.visited cur = false
  start : i = cur ∨ st.visited i = true

variable {a : Nat → α} {permutation : Nat → Nat} {n i cur : Nat} {st : Rotation α}

theorem visited_put {target v : Nat} {x : α} :
    (st.put target cur x).visited v = true ↔ v = cur ∨ st.visited v = true := by
  rcases eq_or_ne v cur with rfl | hne
  · simp [Rotation.put]
  · simp [Rotation.put, hne]

/-- The value at an index that was not visited is taken out. -/
theorem Rotated.begin (h : Rotated a permutation n st) (hi : st.visited i = false) (x : α) :
    Rotating a permutation n i i { st with arr := Function.update st.arr i x } := by
  refine ⟨h.bound, fun v hv => ?_, fun v hv => Or.inl (h.forth v hv), ?_, fun v hv hvi => ?_, hi,
    Or.inl rfl⟩
  · have hne : permutation v ≠ i := by
      intro heq
      have := h.forth v hv
      rw [heq, hi] at this
      cases this
    exact (Function.update_of_ne hne _ _).trans (h.moved v hv)
  · rintro v (rfl | hv)
    · exact Or.inl rfl
    · exact Or.inr (h.back v hv)
  · refine (Function.update_of_ne hvi _ _).trans (h.rest v (Bool.eq_false_iff.mpr fun hvis => ?_))
    obtain ⟨k, hk, heq⟩ := h.back v hvis
    exact hv k hk heq

section

variable (hlt : ∀ v < n, permutation v < n)
  (hinj : ∀ u < n, ∀ v < n, permutation u = permutation v → u = v)
include hinj

section

variable (h : Rotating a permutation n i cur st)

include h

/-- The target of the value in hand is not the target of one that was moved. -/
theorem Rotating.target_ne (hcur : cur < n) (v : Nat) (hv : st.visited v = true) :
    permutation v ≠ permutation cur := by
  intro heq
  rw [hinj v (h.bound v hv) cur hcur heq, h.hand] at hv
  cases hv

/-- Putting the value down keeps what was moved. -/
theorem Rotating.moved_put (hcur : cur < n) (v : Nat)
    (hv : (st.put (permutation cur) cur (a cur)).visited v = true) :
    (st.put (permutation cur) cur (a cur)).arr (permutation v) = a v := by
  rcases visited_put.mp hv with rfl | hv
  · exact Function.update_self ..
  · exact (Function.update_of_ne (h.target_ne hinj hcur v hv) _ _).trans (h.moved v hv)

/-- **The cycle closes**: with the last value put down at `i`, whole cycles have been moved. -/
theorem Rotating.close (hcur : cur < n) (hi : permutation cur = i) :
    Rotated a permutation n (st.put (permutation cur) cur (a cur)) := by
  have hvi : (st.put (permutation cur) cur (a cur)).visited i = true := visited_put.mpr h.start
  refine ⟨fun v hv => ?_, h.moved_put hinj hcur, fun v hv => ?_, fun v hv => ?_, fun v hv => ?_⟩
  · rcases visited_put.mp hv with rfl | hv
    · exact hcur
    · exact h.bound v hv
  · rcases visited_put.mp hv with rfl | hv
    · exact hi ▸ hvi
    · exact visited_put.mpr (h.forth v hv).symm
  · rcases h.back v (visited_put.mp hv) with rfl | ⟨k, hk, rfl⟩
    · exact ⟨cur, visited_put.mpr (Or.inl rfl), hi⟩
    · exact ⟨k, visited_put.mpr (Or.inr hk), rfl⟩
  · have hvi' : v ≠ i := fun heq => by
      rw [heq, hvi] at hv
      cases hv
    refine (Function.update_of_ne (hi ▸ hvi') _ _).trans (h.rest v (fun k hk heq => ?_) hvi')
    have : (st.put (permutation cur) cur (a cur)).visited v = true :=
      visited_put.mpr (heq ▸ (h.forth k hk).symm)
    rw [this] at hv
    cases hv

/-- **One more value of the cycle is moved.** -/
theorem Rotating.advance (hcur : cur < n) (hi : permutation cur ≠ i) :
    Rotating a permutation n i (permutation cur) (st.put (permutation cur) cur (a cur)) := by
  refine ⟨fun v hv => ?_, h.moved_put hinj hcur, fun v hv => ?_, fun v hv => ?_, fun v hv hvi => ?_,
    ?_, ?_⟩
  · rcases visited_put.mp hv with rfl | hv
    · exact hcur
    · exact h.bound v hv
  · rcases visited_put.mp hv with rfl | hv
    · exact Or.inr rfl
    · exact Or.inl (visited_put.mpr (h.forth v hv).symm)
  · rcases hv with rfl | hv
    · exact Or.inr ⟨cur, visited_put.mpr (Or.inl rfl), rfl⟩
    · exact (h.back v (visited_put.mp hv)).imp_right fun ⟨k, hk, heq⟩ =>
        ⟨k, visited_put.mpr (Or.inr hk), heq⟩
  · have hne : v ≠ permutation cur := (hv cur (visited_put.mpr (Or.inl rfl))).symm
    refine (Function.update_of_ne hne _ _).trans (h.rest v (fun k hk => ?_) hvi)
    exact hv k (visited_put.mpr (Or.inr hk))
  · -- a visited target would be the target of a value moved before
    refine Bool.eq_false_iff.mpr fun hv => ?_
    rcases h.back _ (visited_put.mp hv) with heq | ⟨k, hk, heq⟩
    · exact hi heq
    · exact h.target_ne hinj hcur k hk heq
  · exact Or.inr (visited_put.mpr h.start)

end

include hlt

/-- **The inner loop closes the cycle.** -/
theorem rotateCycle_rotated {fuel : Nat} (h : Rotating a permutation n i cur st) (hcur : cur < n)
    (hfuel : ((List.range n).filter fun v => !st.visited v).length ≤ fuel) :
    Rotated a permutation n (rotateCycle permutation i fuel cur (a cur) st) ∧
      (rotateCycle permutation i fuel cur (a cur) st).visited i = true ∧
      ∀ v, st.visited v = true →
        (rotateCycle permutation i fuel cur (a cur) st).visited v = true := by
  induction fuel generalizing cur st with
  | zero =>
    have hmem : cur ∈ (List.range n).filter fun v => !st.visited v := by
      simp [mem_filter, hcur, h.hand]
    rw [length_eq_zero_iff.mp (Nat.le_zero.mp hfuel)] at hmem
    cases hmem
  | succ fuel ih =>
    simp only [rotateCycle]
    split_ifs with hi
    · exact ⟨h.close hinj hcur hi, visited_put.mpr h.start, fun v hv => visited_put.mpr (Or.inr hv)⟩
    · have hval : st.arr (permutation cur) = a (permutation cur) :=
        h.rest _ (h.target_ne hinj hcur) hi
      have hless := length_filter_lt (l := List.range n)
        (p := fun v => !(st.put (permutation cur) cur (a cur)).visited v)
        (q := fun v => !st.visited v) (fun v hv => ?_) (mem_range.mpr hcur)
        (by simp [Rotation.put]) (by simp [h.hand])
      · obtain ⟨hrot, hvi, hkeep⟩ := ih (h.advance hinj hcur hi) (hlt cur hcur) (by omega)
        rw [hval]
        exact ⟨hrot, hvi, fun v hv => hkeep v (visited_put.mpr (Or.inr hv))⟩
      · simp only [Bool.not_eq_true', Bool.eq_false_iff] at hv ⊢
        exact fun h' => hv (visited_put.mpr (Or.inr h'))

variable {fuel : Nat} [Inhabited α] (hfuel : n ≤ fuel)
include hfuel

/-- The outer loop keeps whole cycles moved, and visits its index. -/
theorem rotateFrom_rotated (h : Rotated a permutation n st) (hi : i < n) :
    Rotated a permutation n (rotateFrom permutation fuel st i) ∧
      (rotateFrom permutation fuel st i).visited i = true ∧
      ∀ v, st.visited v = true → (rotateFrom permutation fuel st i).visited v = true := by
  unfold rotateFrom
  split_ifs with hvis hfix
  · exact ⟨h, hvis, fun v hv => hv⟩
  · have hvis : st.visited i = false := Bool.eq_false_iff.mpr hvis
    -- a cycle of length one: the value stays where it is
    have hput : ({ st with visited := Function.update st.visited i true } : Rotation α) =
        st.put (permutation i) i (a i) := by
      rw [Rotation.put, hfix, ← h.rest i hvis, Function.update_eq_self]
    have hbegin := h.begin hvis (st.arr i)
    rw [Function.update_eq_self] at hbegin
    rw [hput]
    exact ⟨hbegin.close hinj hi hfix, visited_put.mpr (Or.inl rfl),
      fun v hv => visited_put.mpr (Or.inr hv)⟩
  · have hvis : st.visited i = false := Bool.eq_false_iff.mpr hvis
    rw [h.rest i hvis]
    exact rotateCycle_rotated hlt hinj (h.begin hvis default) hi
      (Nat.le_trans (length_filter_le _ _) (by simpa using hfuel))

/-- **Every element arrives**, whatever the bound on the inner loop from the length on. -/
theorem rotate_apply (hv : i < n) :
    ((List.range n).foldl (rotateFrom permutation fuel) ⟨a, fun _ => false⟩).arr (permutation i) =
      a i := by
  have key : ∀ (l : List Nat) (st : Rotation α), (∀ v ∈ l, v < n) → Rotated a permutation n st →
      Rotated a permutation n (l.foldl (rotateFrom permutation fuel) st) ∧
        (∀ v ∈ l, (l.foldl (rotateFrom permutation fuel) st).visited v = true) ∧
        ∀ v, st.visited v = true → (l.foldl (rotateFrom permutation fuel) st).visited v = true := by
    intro l
    induction l with
    | nil => exact fun st _ h => ⟨h, by simp, fun v hv => hv⟩
    | cons j l ih =>
      intro st hl h
      obtain ⟨hj, hl⟩ := forall_mem_cons.mp hl
      obtain ⟨hrot, hvis, hkeep⟩ := rotateFrom_rotated hlt hinj hfuel h hj
      obtain ⟨hrot', hall, hkeep'⟩ := ih _ hl hrot
      exact ⟨hrot', forall_mem_cons.mpr ⟨hkeep' j hvis, hall⟩, fun v hv => hkeep' v (hkeep v hv)⟩
  obtain ⟨hrot, hall, -⟩ := key (List.range n) ⟨a, fun _ => false⟩ (fun v => mem_range.mp)
    ⟨by simp, by simp, by simp, by simp, fun v _ => rfl⟩
  exact hrot.moved i (hall i (mem_range.mpr hv))

end

end

end Mangle
