import Mathlib.Data.List.Pairwise
import Mathlib.Data.Set.Basic
import Mathlib.Order.Lattice

/-!
# Machinery/Intervals — merging intervals of integers

Closed intervals `(a, b)` of integers, one that overlaps or touches the last one being merged into
it, in the order of their starts.

* `points_merge` — the merged intervals have the same points;
* `pairwise_merge` — they are apart: between two of them there is an integer in neither;
* `within_merge`, `span_of_mem_merge` — each given interval is inside a merged one, and each merged
  one is a span of given ones;
* `eq_of_points` — a set of integers is made of intervals that are apart in one way only.

`Merges S T` collects this for the sets of the given and of the merged intervals.
-/

namespace Machinery

open List

namespace Intervals

/-- A closed interval by its two ends; one that ends before it starts has no points. -/
abbrev Interval := Int × Int

/-- The integers in some interval. -/
def points (is : Set Interval) : Set Int := {x | ∃ i ∈ is, i.1 ≤ x ∧ x ≤ i.2}

/-- The first interval ends before the second starts, with an integer between them. -/
def Apart (i j : Interval) : Prop := i.2 + 1 < j.1

/-- One interval is inside another, end by end. -/
def Within (i j : Interval) : Prop := j.1 ≤ i.1 ∧ i.2 ≤ j.2

/-- Merge intervals, given in the order of their starts, into the last one. -/
def merge (last : Interval) : List Interval → List Interval
  | [] => [last]
  | i :: is => if i.1 ≤ last.2 + 1 then merge (last.1, max last.2 i.2) is else last :: merge i is

/-- In the order of their starts. -/
def Ordered (is : List Interval) : Prop := is.Pairwise fun i j => i.1 ≤ j.1

/-- What intervals span when each one that starts inside the span so far, or right behind it,
extends it. -/
inductive Span (is : Set Interval) : Interval → Prop where
  | single {i : Interval} (hi : i ∈ is) : Span is i
  | extend {a b : Int} {i : Interval} (h : Span is (a, b)) (hi : i ∈ is) (hstart : a ≤ i.1)
      (hend : i.1 ≤ b + 1) : Span is (a, max b i.2)

variable {is : List Interval} {last i j : Interval} {S : Set Interval}

theorem Span.exists_mem (h : Span S i) : ∃ j, j ∈ S := by
  induction h with
  | single hi => exact ⟨_, hi⟩
  | extend _ hi _ _ _ => exact ⟨_, hi⟩

/-- The ordered intervals behind a merged one. -/
theorem Ordered.extend (h : Ordered (last :: i :: is)) (b : Int) : Ordered ((last.1, b) :: is) := by
  obtain ⟨hlast, hrest⟩ := pairwise_cons.mp h
  exact pairwise_cons.mpr
    ⟨fun j hj => hlast j (mem_cons_of_mem _ hj), (pairwise_cons.mp hrest).2⟩

section

variable (h : Ordered (last :: is))

include h

theorem Ordered.tail : Ordered is := (pairwise_cons.mp h).2

/-- **The merged intervals have the points of the given ones.** -/
theorem points_merge : points {i | i ∈ merge last is} = points {i | i ∈ last :: is} := by
  induction is generalizing last with
  | nil => simp [merge]
  | cons i is ih =>
    ext x
    have hsplit (l : Interval) (ls : List Interval) :
        x ∈ points {i | i ∈ l :: ls} ↔ (l.1 ≤ x ∧ x ≤ l.2) ∨ x ∈ points {i | i ∈ ls} := by
      simp [points, or_and_right, exists_or]
    rw [merge]
    split
    · rename_i htouch
      have hstart : last.1 ≤ i.1 := (pairwise_cons.mp h).1 i mem_cons_self
      rw [ih (h.extend _), hsplit, hsplit, hsplit, ← or_assoc]
      refine or_congr_left ?_
      dsimp only
      omega
    · rw [hsplit, hsplit, ih h.tail]

theorem start_le_of_mem_merge (hj : j ∈ merge last is) : last.1 ≤ j.1 := by
  induction is generalizing last with
  | nil => simp_all [merge]
  | cons i is ih =>
    rw [merge] at hj
    split at hj
    · have hle := ih (h.extend (max last.2 i.2)) hj
      exact hle
    · obtain rfl | hj := mem_cons.mp hj
      · exact le_refl _
      · exact le_trans ((pairwise_cons.mp h).1 i mem_cons_self) (ih h.tail hj)

/-- **The merged intervals are apart.** -/
theorem pairwise_merge : (merge last is).Pairwise Apart := by
  induction is generalizing last with
  | nil => simp [merge]
  | cons i is ih =>
    rw [merge]
    split
    · exact ih (h.extend _)
    · rename_i htouch
      refine pairwise_cons.mpr ⟨fun j hj => ?_, ih h.tail⟩
      have hle := start_le_of_mem_merge h.tail hj
      unfold Apart
      omega

/-- **Each given interval is inside a merged one.** -/
theorem within_merge (hi : i ∈ last :: is) : ∃ j ∈ merge last is, Within i j := by
  induction is generalizing last i with
  | nil => exact ⟨i, by simpa [merge] using hi, le_refl _, le_refl _⟩
  | cons k is ih =>
    have hstart : last.1 ≤ k.1 := (pairwise_cons.mp h).1 k mem_cons_self
    rw [merge]
    split
    · obtain rfl | rfl | hi : i = last ∨ i = k ∨ i ∈ is := by simpa using hi
      · obtain ⟨j, hj, hwithin⟩ := ih (h.extend (max i.2 k.2)) mem_cons_self
        exact ⟨j, hj, hwithin.1, le_trans (le_max_left _ _) hwithin.2⟩
      · obtain ⟨j, hj, hwithin⟩ := ih (h.extend (max last.2 i.2)) mem_cons_self
        exact ⟨j, hj, le_trans hwithin.1 hstart, le_trans (le_max_right _ _) hwithin.2⟩
      · exact ih (h.extend _) (mem_cons_of_mem _ hi)
    · obtain rfl | hi := mem_cons.mp hi
      · exact ⟨i, mem_cons_self, le_refl _, le_refl _⟩
      · obtain ⟨j, hj, hwithin⟩ := ih h.tail hi
        exact ⟨j, mem_cons_of_mem _ hj, hwithin⟩

/-- **Each merged interval is a span** of given ones, for any set of intervals that holds the
unmerged ones and spans the last one. -/
theorem span_of_mem_merge (hlast : Span S last) (his : ∀ i ∈ is, i ∈ S) (hj : j ∈ merge last is) :
    Span S j := by
  induction is generalizing last with
  | nil =>
    obtain rfl : j = last := by simpa [merge] using hj
    exact hlast
  | cons i is ih =>
    obtain ⟨hi, his⟩ := forall_mem_cons.mp his
    rw [merge] at hj
    split at hj
    · rename_i htouch
      have hstart : last.1 ≤ i.1 := (pairwise_cons.mp h).1 i mem_cons_self
      exact ih (h.extend _) (hlast.extend hi hstart htouch) his hj
    · obtain rfl | hj := mem_cons.mp hj
      · exact hlast
      · exact ih h.tail (.single hi) his hj

end

/-- Intervals, in any order, of which any two are apart. -/
def Separated (is : Set Interval) : Prop :=
  ∀ i ∈ is, ∀ j ∈ is, i = j ∨ Apart i j ∨ Apart j i

theorem separated_merge (h : Ordered (last :: is)) : Separated {i | i ∈ merge last is} := by
  have : Std.Symm fun i j : Interval => i = j ∨ Apart i j ∨ Apart j i :=
    ⟨fun i j hij => hij.imp Eq.symm Or.symm⟩
  have hpairs : (merge last is).Pairwise fun i j => i = j ∨ Apart i j ∨ Apart j i :=
    (pairwise_merge h).imp fun hij => .inr (.inl hij)
  exact hpairs.forall_of_forall fun i _ => .inl rfl

variable {S T : Set Interval}

/-- A span of given intervals is inside any separated set of intervals they are inside of. -/
theorem Span.within (hT : Separated T) (hS : ∀ i ∈ S, ∃ j ∈ T, Within i j)
    (h : Span S i) : ∃ j ∈ T, Within i j := by
  induction h with
  | single hi => exact hS _ hi
  | @extend a b i _ hi hstart hend ih =>
    obtain ⟨j, hj, hwithin⟩ := ih
    obtain ⟨k, hk, hk'⟩ := hS i hi
    refine ⟨j, hj, hwithin.1, max_le hwithin.2 ?_⟩
    unfold Within at hwithin hk'
    dsimp only at hwithin
    obtain rfl | hjk | hkj := hT j hj k hk
    · exact hk'.2
    · -- The interval would start behind the one its span is inside of.
      unfold Apart at hjk
      omega
    · unfold Apart at hkj
      omega

/-- Of separated intervals only `i` itself has a point of `i` or next to it. -/
theorem Separated.eq_of_touch (h : Separated S) {k : Interval} {x : Int}
    (hi : i ∈ S) (hk : k ∈ S) (hx : k.1 ≤ x ∧ x ≤ k.2) (hnear : i.1 - 1 ≤ x ∧ x ≤ i.2 + 1) :
    k = i := by
  obtain heq | hik | hki := h i hi k hk
  · exact heq.symm
  · unfold Apart at hik
    omega
  · unfold Apart at hki
    omega

theorem mem_of_points (hS : Separated S) (hT : Separated T)
    (h : points S = points T) (hi : i ∈ S) (hne : i.1 ≤ i.2) : i ∈ T := by
  have hcover {k : Interval} {x : Int} {U V : Set Interval} (hUV : points U = points V)
      (hk : k ∈ U) (hx : k.1 ≤ x ∧ x ≤ k.2) : ∃ m ∈ V, m.1 ≤ x ∧ x ≤ m.2 := by
    have hmem : x ∈ points V := hUV ▸ ⟨k, hk, hx⟩
    exact hmem
  obtain ⟨j, hj, hstart⟩ := hcover h hi ⟨le_refl i.1, hne⟩
  -- The interval of `T` that holds the start of `i` starts there, or `i` would start before.
  have hfst : j.1 = i.1 := by
    by_contra hlt
    obtain ⟨k, hk, hx⟩ := hcover h.symm hj (x := i.1 - 1) (by omega)
    obtain rfl := hS.eq_of_touch hi hk hx (by omega)
    omega
  have hsnd : j.2 = i.2 := by
    obtain hlt | heq | hgt := lt_trichotomy j.2 i.2
    · obtain ⟨k, hk, hx⟩ := hcover h hi (x := j.2 + 1) (by omega)
      obtain rfl := hT.eq_of_touch hj hk hx (by omega)
      omega
    · exact heq
    · obtain ⟨k, hk, hx⟩ := hcover h.symm hj (x := i.2 + 1) (by omega)
      obtain rfl := hS.eq_of_touch hi hk hx (by omega)
      omega
  exact Prod.ext hfst hsnd ▸ hj

/-- **A set of integers is made of separated intervals in one way only.** -/
theorem eq_of_points (hS : Separated S) (hT : Separated T)
    (hSne : ∀ i ∈ S, i.1 ≤ i.2) (hTne : ∀ i ∈ T, i.1 ≤ i.2) (h : points S = points T) :
    S = T :=
  Set.ext fun _ => ⟨fun hi => mem_of_points hS hT h hi (hSne _ hi),
    fun hi => mem_of_points hT hS h.symm hi (hTne _ hi)⟩

/-! ## What merging does to a set of intervals -/

/-- The intervals `T` are those of `S` merged. -/
structure Merges (S T : Set Interval) : Prop where
  points : points T = points S
  separated : Separated T
  within : ∀ i ∈ S, ∃ j ∈ T, Within i j
  span : ∀ j ∈ T, Span S j

theorem Merges.empty : Merges ∅ ∅ where
  points := rfl
  separated _ hi := hi.elim
  within _ hi := hi.elim
  span _ hj := hj.elim

/-- **Merging in the order of the starts.** -/
theorem merges_merge (h : Ordered (last :: is)) :
    Merges {i | i ∈ last :: is} {i | i ∈ merge last is} where
  points := points_merge h
  separated := separated_merge h
  within _ := within_merge h
  span _ := span_of_mem_merge h (.single mem_cons_self) fun _ => mem_cons_of_mem _

variable {S T : Set Interval}

theorem Span.start_le_end (hS : ∀ i ∈ S, i.1 ≤ i.2) (h : Span S i) : i.1 ≤ i.2 := by
  induction h with
  | single hi => exact hS _ hi
  | extend _ _ _ _ ih => exact le_trans ih (le_max_left _ _)

theorem Merges.start_le_end (h : Merges S T) (hS : ∀ i ∈ S, i.1 ≤ i.2) : ∀ j ∈ T, j.1 ≤ j.2 :=
  fun j hj => (h.span j hj).start_le_end hS

/-- Intervals with points are merged into different ones. -/
theorem nodup_merge (h : Ordered (last :: is)) (hne : ∀ i ∈ last :: is, i.1 ≤ i.2) :
    (merge last is).Nodup := by
  refine (pairwise_merge h).imp_of_mem fun {i j} hi _ hij heq => ?_
  have hle := (merges_merge h).start_le_end hne i hi
  subst heq
  unfold Apart at hij
  omega

/-- **Merging again changes nothing.** -/
theorem Merges.eq_of_separated (h : Merges S T) (hS : Separated S) (hne : ∀ i ∈ S, i.1 ≤ i.2) :
    T = S :=
  eq_of_points h.separated hS (h.start_le_end hne) hne h.points

/-- **An interval is inside a merged one** just when it is inside a span of the given ones. -/
theorem Merges.within_iff (h : Merges S T) (i : Interval) :
    (∃ j ∈ T, Within i j) ↔ ∃ j, Span S j ∧ Within i j := by
  constructor
  · rintro ⟨j, hj, hij⟩
    exact ⟨j, h.span j hj, hij⟩
  · rintro ⟨j, hj, hij⟩
    obtain ⟨k, hk, hjk⟩ := hj.within h.separated h.within
    exact ⟨k, hk, le_trans hjk.1 hij.1, le_trans hij.2 hjk.2⟩

end Intervals

end Machinery
