import Mathlib.Data.List.AList
import Mathlib.Data.List.Induction

/-!
# Machinery/HashMap — finite maps to lists

The rules for a finite map whose values are lists and whose absent keys read as `[]`: reading after
a write at one key (`get_modify`, `get_update`), and after every list of one map has been appended
to the lists of another (`get_appendAll`).
-/

namespace Machinery

open List

variable {α : Type v}

universe u v

/-- A finite map, with at most one entry a key. -/
abbrev HashMap (κ : Type u) (α : Type v) := AList fun _ : κ => α

namespace HashMap

variable {κ : Type u} {β : Type v} [DecidableEq κ] {k : κ} {m : HashMap κ (List β)}
  {f : List β → List β} {l : List (κ × α)}

/-- The list at `k`, `[]` when there is none. -/
def get (m : HashMap κ (List β)) (k : κ) : List β := (m.lookup k).getD []

/-- Change the list at `k`, making an entry when there is none. -/
def modify (m : HashMap κ (List β)) (k : κ) (f : List β → List β) : HashMap κ (List β) :=
  m.insert k (f (m.get k))

/-- Change the list at `k` when there is one. -/
def update (m : HashMap κ (List β)) (k : κ) (f : List β → List β) : HashMap κ (List β) :=
  match m.lookup k with
  | some l => m.insert k (f l)
  | none => m

/-- Append `f k l` to the list at `k`, for every entry `(k, l)` of `d`. -/
def appendAll (m d : HashMap κ (List β)) (f : κ → List β → List β) : HashMap κ (List β) :=
  d.entries.foldl (fun m e => m.modify e.1 (· ++ f e.1 e.2)) m

/-- Enter `a` at `k` when there is no entry. -/
def orInsert {α : Type v} (m : HashMap κ α) (k : κ) (a : α) : HashMap κ α :=
  match m.lookup k with
  | some _ => m
  | none => m.insert k a

theorem lookup_orInsert (m : HashMap κ α) (k k' : κ) (a : α) :
    (m.orInsert k a).lookup k' =
      if k' = k then some ((m.lookup k).getD a) else m.lookup k' := by
  unfold orInsert
  by_cases h : k' = k
  · subst h
    cases hk : m.lookup k' <;> simp [hk]
  · cases hk : m.lookup k <;> simp [h, AList.lookup_insert_ne h]

/-- What holds of every entry, after one is entered. -/
theorem forall_insert {P : κ → α → Prop} {m : HashMap κ α} {a : α}
    (h : ∀ k a, m.lookup k = some a → P k a) (ha : P k a) :
    ∀ k' a', (m.insert k a).lookup k' = some a' → P k' a' := by
  intro k' a' hk'
  by_cases heq : k' = k
  · subst heq
    rw [AList.lookup_insert] at hk'
    cases hk'
    exact ha
  · rw [AList.lookup_insert_ne heq] at hk'
    exact h k' a' hk'

/-- Enter the pairs of a list. -/
def insertAll {α : Type v} (m : HashMap κ α) (l : List (κ × α)) : HashMap κ α :=
  l.foldl (fun m e => m.insert e.1 e.2) m

theorem lookup_insertAll_append (l : List (κ × α)) (e : κ × α) :
    (insertAll ∅ (l ++ [e])).lookup k =
      if k = e.1 then some e.2 else (insertAll ∅ l).lookup k := by
  have hlast : insertAll ∅ (l ++ [e]) = (insertAll ∅ l).insert e.1 e.2 := foldl_append
  rw [hlast]
  split_ifs with hk
  · rw [hk, AList.lookup_insert]
  · exact AList.lookup_insert_ne hk

/-- What is read after `insertAll` was entered. -/
theorem mem_of_lookup_insertAll {a : α} (h : (insertAll ∅ l).lookup k = some a) : (k, a) ∈ l := by
  induction l using reverseRecOn with
  | nil => cases h
  | append_singleton l e ih =>
    rw [lookup_insertAll_append] at h
    split_ifs at h with hk
    · simp [hk, ← Option.some.inj h]
    · exact mem_append_left _ (ih h)

/-- A key that was entered is there after `insertAll`. -/
theorem lookup_insertAll_ne_none (h : k ∈ l.map Prod.fst) : (insertAll ∅ l).lookup k ≠ none := by
  induction l using reverseRecOn with
  | nil => cases h
  | append_singleton l e ih =>
    rw [lookup_insertAll_append]
    split_ifs with hk
    · exact Option.some_ne_none _
    · exact ih (by simpa [hk] using h)

/-- **Reading after `insertAll`**, where no key is entered twice. -/
theorem lookup_insertAll (hl : (l.map Prod.fst).Nodup) (k : κ) (a : α) :
    (insertAll ∅ l).lookup k = some a ↔ (k, a) ∈ l := by
  refine ⟨mem_of_lookup_insertAll, fun h => ?_⟩
  obtain ⟨a', ha⟩ := Option.ne_none_iff_exists'.mp
    (lookup_insertAll_ne_none (mem_map_of_mem (f := Prod.fst) h))
  obtain ⟨-, rfl⟩ := Prod.mk.inj (inj_on_of_nodup_map hl (mem_of_lookup_insertAll ha) h rfl)
  exact ha

/-- The entries as pairs. -/
def toPairs {α : Type v} (m : HashMap κ α) : List (κ × α) := m.entries.map fun e => (e.1, e.2)

@[simp] theorem mem_toPairs {m : HashMap κ α} {a : α} :
    (k, a) ∈ m.toPairs ↔ m.lookup k = some a := by
  rw [← Option.mem_def, AList.mem_lookup_iff]
  simp [toPairs]

/-- The entries after `insertAll` of different keys. -/
theorem toPairs_insertAll (hl : (l.map Prod.fst).Nodup) : (insertAll ∅ l).toPairs.Perm l := by
  have hinj : Function.Injective fun e : Sigma fun _ : κ => α => (e.1, e.2) := by
    rintro ⟨k, a⟩ ⟨k', a'⟩ heq
    cases heq
    rfl
  refine (perm_ext_iff_of_nodup ((insertAll ∅ l).nodupKeys.nodup.map hinj) hl.of_map).mpr ?_
  rintro ⟨k, a⟩
  exact mem_toPairs.trans (lookup_insertAll hl k a)

/-- What holds of every entry, after one is removed. -/
theorem forall_erase {P : κ → α → Prop} {m : HashMap κ α} (h : ∀ k a, m.lookup k = some a → P k a)
    (k : κ) : ∀ k' a', (m.erase k).lookup k' = some a' → P k' a' := by
  intro k' a' hk'
  by_cases heq : k' = k
  · subst heq
    simp at hk'
  · rw [AList.lookup_erase_ne heq] at hk'
    exact h k' a' hk'

@[simp] theorem get_empty (k : κ) : get (∅ : HashMap κ (List β)) k = [] := rfl

theorem get_of_notMem (h : k ∉ m) : m.get k = [] := by
  simp [get, AList.lookup_eq_none.mpr h]

theorem get_insert (m : HashMap κ (List β)) (k k' : κ) (l : List β) :
    get (m.insert k l) k' = if k' = k then l else m.get k' := by
  by_cases h : k' = k
  · subst h
    simp [get]
  · simp [get, h, AList.lookup_insert_ne h]

/-- **Reading after `modify`.** -/
theorem get_modify (m : HashMap κ (List β)) (k k' : κ) (f : List β → List β) :
    (m.modify k f).get k' = if k' = k then f (m.get k) else m.get k' :=
  get_insert m k k' _

@[simp] theorem mem_modify {k' : κ} : k' ∈ m.modify k f ↔ k' = k ∨ k' ∈ m := by
  simp [modify]

@[simp] theorem mem_update {k' : κ} : k' ∈ m.update k f ↔ k' ∈ m := by
  unfold update
  cases h : m.lookup k with
  | some l =>
    have hk : k ∈ m := AList.lookup_isSome.mp (by simp [h])
    simp only [AList.mem_insert, or_iff_right_iff_imp]
    rintro rfl
    exact hk
  | none => rfl

/-- **Reading after `update`**, where `f` keeps the empty list. -/
theorem get_update (m : HashMap κ (List β)) (k k' : κ) (hf : f [] = []) :
    (m.update k f).get k' = if k' = k then f (m.get k) else m.get k' := by
  unfold update
  cases h : m.lookup k with
  | some l =>
    have hl : m.get k = l := by simp [get, h]
    simp only [get_insert, hl]
  | none =>
    have hl : m.get k = [] := by simp [get, h]
    by_cases hk : k' = k
    · simp [hk, hl, hf]
    · simp [hk]

theorem get_erase (m : HashMap κ (List β)) (k k' : κ) :
    get (m.erase k) k' = if k' = k then [] else m.get k' := by
  by_cases h : k' = k
  · subst h
    simp [get]
  · simp [get, h, AList.lookup_erase_ne h]

/-- Appending entry by entry, read at one key: only that key's entry counts. -/
private theorem get_foldl_modify (f : κ → List β → List β) (k : κ) (hf : f k [] = []) :
    ∀ (es : List (Sigma fun _ : κ => List β)) (m : HashMap κ (List β)), es.NodupKeys →
      get (es.foldl (fun m e => m.modify e.1 (· ++ f e.1 e.2)) m) k =
        m.get k ++ f k ((es.dlookup k).getD [])
  | [], m, _ => by simp [hf]
  | ⟨k', l⟩ :: es, m, h => by
      obtain ⟨hk', hes⟩ := nodupKeys_cons.mp h
      rw [foldl_cons, get_foldl_modify f k hf es _ hes, get_modify]
      by_cases hk : k = k'
      · subst hk
        simp [dlookup_eq_none.mpr hk', dlookup_cons_eq, hf]
      · have hne : k ≠ (⟨k', l⟩ : Sigma fun _ : κ => List β).1 := hk
        simp [hk, dlookup_cons_ne _ _ hne]

/-- **Reading after `appendAll`.** -/
theorem get_appendAll (m d : HashMap κ (List β)) (f : κ → List β → List β) (k : κ)
    (hf : f k [] = []) : (m.appendAll d f).get k = m.get k ++ f k (d.get k) :=
  get_foldl_modify f k hf d.entries m d.nodupKeys

/-- **The keys after `appendAll`** are those of both maps. -/
theorem mem_appendAll {d : HashMap κ (List β)} {f : κ → List β → List β} :
    k ∈ m.appendAll d f ↔ k ∈ m ∨ k ∈ d := by
  have key : ∀ (es : List (Sigma fun _ : κ => List β)) (m : HashMap κ (List β)),
      k ∈ es.foldl (fun m e => m.modify e.1 (· ++ f e.1 e.2)) m ↔ k ∈ m ∨ k ∈ es.keys := by
    intro es
    induction es with
    | nil => simp
    | cons e es ih =>
      intro m
      rw [foldl_cons, ih]
      simp only [mem_modify, keys_cons, mem_cons]
      tauto
  exact key d.entries m

end HashMap

end Machinery
