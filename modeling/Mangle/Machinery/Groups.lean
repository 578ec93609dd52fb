import Mathlib.Data.List.Induction
import Mathlib.Data.List.Nodup

/-!
# Machinery/Groups — the groups of a list by a key

Elements are entered one by one in the group of their key, and a new key opens a group at the end.
`mem_groups` — a group is a key that occurs with all the elements that have it, in their order.
-/

namespace Machinery

open List

variable {κ α : Type} [DecidableEq κ] {key : α → κ} {l : List α} {gs : List (κ × List α)} {k : κ}
  {a : α}

/-- Enter an element in the group of its key. -/
def enter (k : κ) (a : α) : List (κ × List α) → List (κ × List α)
  | [] => [(k, [a])]
  | g :: gs => if g.1 = k then (g.1, g.2 ++ [a]) :: gs else g :: enter k a gs

/-- The groups of a list. -/
def groups (key : α → κ) (l : List α) : List (κ × List α) :=
  l.foldl (fun gs a => enter (key a) a gs) []

/-- The groups are those of the list. -/
structure Groups (key : α → κ) (l : List α) (gs : List (κ × List α)) : Prop where
  distinct : (gs.map Prod.fst).Nodup
  mem : ∀ g, g ∈ gs ↔ ∃ a ∈ l, g = (key a, l.filter (key · = key a))

theorem mem_fst_enter {k' : κ} :
    k' ∈ (enter k a gs).map Prod.fst ↔ k' ∈ gs.map Prod.fst ∨ k' = k := by
  induction gs with
  | nil => simp [enter]
  | cons g gs ih =>
    simp only [enter]
    split
    · next hk => simp [← hk, or_comm]
    · simp [ih, or_assoc]

theorem nodup_fst_enter (h : (gs.map Prod.fst).Nodup) : ((enter k a gs).map Prod.fst).Nodup := by
  induction gs with
  | nil => simp [enter]
  | cons g gs ih =>
    obtain ⟨hg, hgs⟩ := nodup_cons.mp h
    simp only [enter]
    split
    · exact h
    · next hk =>
      refine nodup_cons.mpr ⟨fun hmem => ?_, ih hgs⟩
      exact (mem_fst_enter.mp hmem).elim hg hk

/-- Entering an element changes the group of its key only. -/
theorem mem_enter (h : (gs.map Prod.fst).Nodup) (g : κ × List α) :
    g ∈ enter k a gs ↔ g ∈ gs ∧ g.1 ≠ k ∨ (∃ as, (k, as) ∈ gs ∧ g = (k, as ++ [a])) ∨
      k ∉ gs.map Prod.fst ∧ g = (k, [a]) := by
  induction gs with
  | nil => simp [enter]
  | cons g' gs ih =>
    obtain ⟨k', as'⟩ := g'
    obtain ⟨hg', hgs⟩ := nodup_cons.mp h
    simp only [enter]
    split
    · next hk =>
      subst hk
      have hne : ∀ g ∈ gs, g.1 ≠ k' := fun g hg heq =>
        hg' (mem_map.mpr ⟨g, hg, heq⟩)
      have hno : ∀ as, (k', as) ∉ gs := fun as has => hne _ has rfl
      simp only [mem_cons, Prod.mk.injEq, true_and]
      constructor
      · rintro (rfl | hg)
        · exact Or.inr (Or.inl ⟨as', Or.inl rfl, rfl⟩)
        · exact Or.inl ⟨Or.inr hg, hne g hg⟩
      · rintro (⟨rfl | hg, hk⟩ | ⟨as, rfl | has, rfl⟩ | ⟨hk, -⟩)
        · exact absurd rfl hk
        · exact Or.inr hg
        · exact Or.inl rfl
        · exact absurd has (hno as)
        · simp at hk
    · next hk =>
      simp only [mem_cons, ih hgs, map_cons, Prod.mk.injEq, Ne.symm hk, false_and,
        false_or]
      constructor
      · rintro (rfl | h | h | h)
        · exact Or.inl ⟨Or.inl rfl, hk⟩
        · exact Or.inl ⟨Or.inr h.1, h.2⟩
        · exact Or.inr (Or.inl h)
        · exact Or.inr (Or.inr h)
      · rintro (⟨rfl | h, hne⟩ | h | h)
        · exact Or.inl rfl
        · exact Or.inr (Or.inl ⟨h, hne⟩)
        · exact Or.inr (Or.inr (Or.inl h))
        · exact Or.inr (Or.inr (Or.inr h))

theorem Groups.fst_mem (h : Groups key l gs) (k : κ) :
    k ∈ gs.map Prod.fst ↔ ∃ a ∈ l, key a = k := by
  simp only [mem_map, h.mem]
  constructor
  · rintro ⟨_, ⟨a, ha, rfl⟩, rfl⟩
    exact ⟨a, ha, rfl⟩
  · rintro ⟨a, ha, rfl⟩
    exact ⟨_, ⟨a, ha, rfl⟩, rfl⟩

/-- **One more element**: it joins the group of its key or opens it. -/
theorem Groups.enter (h : Groups key l gs) (a : α) :
    Groups key (l ++ [a]) (enter (key a) a gs) where
  distinct := nodup_fst_enter h.distinct
  mem g := by
    have hfilter : ∀ k, (l ++ [a]).filter (key · = k) =
        l.filter (key · = k) ++ if key a = k then [a] else [] := by
      intro k
      by_cases hk : key a = k <;> simp [filter_append, hk]
    rw [mem_enter h.distinct]
    simp only [h.fst_mem, h.mem, hfilter, mem_append, mem_singleton]
    constructor
    · rintro (⟨⟨b, hb, rfl⟩, hne⟩ | ⟨as, ⟨b, hb, heq⟩, rfl⟩ | ⟨hno, rfl⟩)
      · exact ⟨b, Or.inl hb, by simp [Ne.symm hne]⟩
      · obtain ⟨hk, rfl⟩ := Prod.mk.inj heq
        exact ⟨b, Or.inl hb, by simp [hk]⟩
      · have hnone : l.filter (key · = key a) = [] :=
          filter_eq_nil_iff.mpr fun b hb => by simpa using fun hk => hno ⟨b, hb, hk⟩
        exact ⟨a, Or.inr rfl, by simp [hnone]⟩
    · rintro ⟨b, hb | rfl, rfl⟩
      · by_cases hk : key a = key b
        · exact Or.inr (Or.inl ⟨_, ⟨b, hb, by rw [hk]⟩, by simp [hk]⟩)
        · exact Or.inl ⟨⟨b, hb, by simp [hk]⟩, Ne.symm hk⟩
      · by_cases hno : ∃ b' ∈ l, key b' = key b
        · obtain ⟨b', hb', hk⟩ := hno
          exact Or.inr (Or.inl ⟨_, ⟨b', hb', by rw [hk]⟩, by simp⟩)
        · have hnone : l.filter (key · = key b) = [] :=
            filter_eq_nil_iff.mpr fun b' hb' => by simpa using fun hk => hno ⟨b', hb', hk⟩
          exact Or.inr (Or.inr ⟨hno, by simp [hnone]⟩)

theorem groups_append (key : α → κ) (l : List α) (a : α) :
    groups key (l ++ [a]) = enter (key a) a (groups key l) := by
  simp [groups, foldl_append]

theorem groups_groups (key : α → κ) (l : List α) : Groups key l (groups key l) := by
  induction l using List.reverseRecOn with
  | nil => exact ⟨nodup_nil, by simp [groups]⟩
  | append_singleton l a ih =>
    rw [groups_append]
    exact ih.enter a

/-- **A group is a key that occurs, with the elements that have it.** -/
theorem mem_groups {g : κ × List α} :
    g ∈ groups key l ↔ ∃ a ∈ l, g = (key a, l.filter (key · = key a)) :=
  (groups_groups key l).mem g

end Machinery
