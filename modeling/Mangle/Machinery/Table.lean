import Mathlib.Data.List.Sort
import Mathlib.Tactic.Linarith

/-!
# Machinery/Table — ordered tables

A table of a transactional store: a finite map whose rows are walked in the order of their keys.
The map is the library's `ExtTreeMap`; here is what the walks see after an insertion behind the last
key (`toList_insert_of_lt`) and after the removal of all keys of a kind (`toList_removeWhere`).
-/

namespace Machinery

open List

open Std

/-- A table with ordered keys. -/
abbrev Table (κ α : Type) [Ord κ] := ExtTreeMap κ α

section Walks

variable {α : Type}

/-- A walk that stops at the first miss sees every hit, if no hit follows a miss. -/
theorem takeWhile_eq_filter {l : List α} {p : α → Bool}
    (h : l.Pairwise fun a b => p b = true → p a = true) : l.takeWhile p = l.filter p := by
  induction l with
  | nil => rfl
  | cons a l ih =>
    obtain ⟨ha, hl⟩ := pairwise_cons.mp h
    by_cases hp : p a = true
    · rw [takeWhile_cons_of_pos hp, filter_cons_of_pos hp, ih hl]
    · have hnone : l.filter p = [] := filter_eq_nil_iff.mpr fun b hb hpb => hp (ha b hb hpb)
      rw [takeWhile_cons_of_neg hp, filter_cons_of_neg hp, hnone]

end Walks

variable {κ α : Type} [Ord κ] [TransOrd κ] [LawfulEqOrd κ] {t : Table κ α}

/-- The rows of a table are a sorted list of its entries, and there is one such list only. -/
theorem toList_eq_iff {l : List (κ × α)} :
    t.toList = l ↔ l.Pairwise (fun a b => compare a.1 b.1 = .lt) ∧
      ∀ k v, (k, v) ∈ l ↔ t[k]? = some v := by
  refine ⟨fun h => ?_, fun ⟨hl, hmem⟩ => ?_⟩
  · subst h
    exact ⟨ExtTreeMap.ordered_keys_toList, fun k v => ExtTreeMap.mem_toList_iff_getElem?_eq_some⟩
  · have hnodup {l : List (κ × α)} (h : l.Pairwise fun a b => compare a.1 b.1 = .lt) : l.Nodup :=
      h.imp fun hab heq => by simp [heq] at hab
    have hsame : t.toList.Perm l :=
      (perm_ext_iff_of_nodup (hnodup ExtTreeMap.ordered_keys_toList) (hnodup hl)).mpr
        fun p => ExtTreeMap.mem_toList_iff_getElem?_eq_some.trans (hmem p.1 p.2).symm
    refine hsame.eq_of_pairwise (fun a b _ _ hab hba => ?_) ExtTreeMap.ordered_keys_toList hl
    have hswap : compare a.1 b.1 = (compare b.1 a.1).swap := OrientedCmp.eq_swap
    rw [hswap, hba] at hab
    cases hab

variable {k : κ}

theorem getElem?_insert_iff {k' : κ} {v v' : α} :
    (t.insert k v)[k']? = some v' ↔ k' = k ∧ v' = v ∨ k' ≠ k ∧ t[k']? = some v' := by
  simp only [ExtTreeMap.getElem?_insert, Std.compare_eq_iff_eq]
  by_cases h : k = k'
  · simp [h, eq_comm]
  · simp [h, Ne.symm h]

/-- **Rows inserted one after the other**, where the key of a row decides its value. -/
theorem getElem?_foldl_insert [DecidableEq κ] {γ : Type} {l : List γ} {key : γ → κ} {val : γ → α}
    {f : κ → Option α} (h : ∀ a ∈ l, f (key a) = some (val a)) (t : Table κ α) (k : κ) :
    (l.foldl (fun t a => ExtTreeMap.insert t (key a) (val a)) t)[k]? =
      if k ∈ l.map key then f k else t[k]? := by
  induction l generalizing t with
  | nil => rfl
  | cons a l ih =>
    rw [foldl_cons, ih fun b hb => h b (mem_cons_of_mem _ hb), map_cons]
    by_cases hk : k ∈ l.map key
    · rw [if_pos hk, if_pos (mem_cons_of_mem _ hk)]
    · rw [if_neg hk, ExtTreeMap.getElem?_insert, ← h a (mem_cons_self ..)]
      by_cases heq : key a = k
      · simp [heq]
      · simp [heq, hk, Ne.symm heq]

/-- **An insertion behind the last key** adds the last row. -/
theorem toList_insert_of_lt {v : α} (h : ∀ p ∈ t.toList, compare p.1 k = .lt) :
    (t.insert k v).toList = t.toList ++ [(k, v)] := by
  refine toList_eq_iff.mpr ⟨?_, fun k' v' => ?_⟩
  · refine pairwise_append.mpr ⟨ExtTreeMap.ordered_keys_toList, pairwise_singleton _ _, ?_⟩
    simpa using fun a b hab => h (a, b) hab
  · have hnew : (k', v') ∈ t.toList → k' ≠ k := fun hmem heq => by
      have hlt := h _ hmem
      simp [heq] at hlt
    rw [mem_append, mem_singleton, Prod.mk.injEq, getElem?_insert_iff,
      ← ExtTreeMap.mem_toList_iff_getElem?_eq_some]
    tauto

/-- Remove a list of keys. -/
def removeAll (t : Table κ α) (keys : List κ) : Table κ α := keys.foldl ExtTreeMap.erase t

/-- Remove the keys of a kind: the keys are collected first, then removed. -/
def removeWhere (t : Table κ α) (p : κ → Bool) : Table κ α :=
  removeAll t ((t.toList.filter fun e => p e.1).map Prod.fst)

theorem getElem?_removeAll {keys : List κ} {v : α} :
    (removeAll t keys)[k]? = some v ↔ k ∉ keys ∧ t[k]? = some v := by
  induction keys generalizing t with
  | nil => simp [removeAll]
  | cons a keys ih =>
    have hstep : removeAll t (a :: keys) = removeAll (t.erase a) keys := rfl
    simp only [hstep, ih, ExtTreeMap.getElem?_erase, Std.compare_eq_iff_eq, mem_cons]
    by_cases h : a = k
    · simp [h]
    · simp [h, Ne.symm h]

theorem getElem?_removeWhere {p : κ → Bool} {v : α} :
    (removeWhere t p)[k]? = some v ↔ p k = false ∧ t[k]? = some v := by
  rw [removeWhere, getElem?_removeAll]
  refine and_congr_left fun hk => ?_
  have hmem := ExtTreeMap.mem_toList_iff_getElem?_eq_some.mpr hk
  have hkeys : k ∈ (t.toList.filter fun e => p e.1).map Prod.fst ↔ p k = true := by
    simp only [mem_map, mem_filter, Prod.exists]
    exact ⟨fun ⟨a, _, ⟨_, hp⟩, ha⟩ => ha ▸ hp, fun hp => ⟨k, v, ⟨hmem, hp⟩, rfl⟩⟩
  rw [hkeys, Bool.not_eq_true]

/-- **A removal** leaves the other rows. -/
theorem toList_removeWhere (t : Table κ α) (p : κ → Bool) :
    (removeWhere t p).toList = t.toList.filter fun e => !p e.1 := by
  refine toList_eq_iff.mpr ⟨ExtTreeMap.ordered_keys_toList.filter _, fun k v => ?_⟩
  rw [mem_filter, ExtTreeMap.mem_toList_iff_getElem?_eq_some, getElem?_removeWhere, and_comm,
    Bool.not_eq_true']

end Machinery
