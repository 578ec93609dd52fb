import Mathlib.Data.List.Infix

/-!
# Machinery/Trie — sets of paths

A trie over steps of any type: a mark and the children by step.  `contains_add` — the paths that are
marked after one is added; `lastMarked_spec` — walking down a path and remembering the last mark
finds its longest prefix that is in the trie.
-/

namespace Machinery

open List

/-- A node: whether the path that leads here is in the set, and the children.  Of two children by
one step the first counts. -/
inductive Trie (α : Type) where
  | node (marked : Bool) (children : List (α × Trie α))

namespace Trie

variable {α : Type} [DecidableEq α] {a : α} {p q : List α} {t : Trie α}

def empty : Trie α := node false []

def marked : Trie α → Bool
  | node b _ => b

/-- The child by a step. -/
def child (a : α) : Trie α → Option (Trie α)
  | node _ cs => cs.lookup a

/-- Walk down a path, making the nodes that are missing, and mark the last. -/
def add : List α → Trie α → Trie α
  | [], node _ cs => node true cs
  | a :: p, node b cs => node b ((a, add p ((cs.lookup a).getD empty)) :: cs)

/-- Walk down a path and look whether the last node is marked. -/
def contains : List α → Trie α → Bool
  | [], t => t.marked
  | a :: p, t => match t.child a with
      | some c => contains p c
      | none => false

/-- Walk down a path as far as it leads, with the number of the step and that of the last one to a
marked node. -/
def lastMarked : List α → Trie α → Nat → Option Nat → Option Nat
  | [], _, _, last => last
  | a :: p, t, i, last => match t.child a with
      | some c => lastMarked p c (i + 1) (if c.marked then some i else last)
      | none => last

@[simp] theorem contains_nil : contains [] t = t.marked := rfl

@[simp] theorem contains_empty : contains p (empty : Trie α) = false := by
  cases p <;> rfl

theorem contains_cons :
    contains (a :: p) t = ((t.child a).elim false (contains p) : Bool) := by
  rw [contains]
  cases t.child a <;> rfl

theorem child_add (b : α) : (add (a :: p) t).child b =
    if b = a then some (add p ((t.child a).getD empty)) else t.child b := by
  obtain ⟨m, cs⟩ := t
  rw [add, child, lookup_cons]
  split_ifs with h
  · simp [h, child]
  · simp [beq_eq_false_iff_ne.mpr h, child]

/-- **Adding a path** adds that one. -/
theorem contains_add : contains q (add p t) = true ↔ q = p ∨ contains q t = true := by
  induction p generalizing q t with
  | nil =>
    obtain ⟨m, cs⟩ := t
    cases q with
    | nil => simp [add, contains, marked]
    | cons b q => simp [add, contains_cons, child]
  | cons a p ih =>
    cases q with
    | nil =>
      obtain ⟨m, cs⟩ := t
      simp [add, contains, marked]
    | cons b q =>
      rw [contains_cons, contains_cons, child_add]
      split_ifs with h
      · subst h
        rw [Option.elim_some, ih]
        cases t.child b <;> simp
      · simp [h]

theorem contains_foldl_add {ps : List (List α)} :
    contains q (ps.foldl (fun t p => add p t) t) = true ↔ q ∈ ps ∨ contains q t = true := by
  induction ps generalizing t with
  | nil => simp
  | cons p ps ih =>
    rw [foldl_cons, ih, contains_add]
    simp only [mem_cons]
    tauto

/-- **The last mark on a path** ends its longest prefix in the trie, the empty one apart. -/
theorem lastMarked_spec (p : List α) (t : Trie α) (i : Nat) (last : Option Nat) :
    (lastMarked p t i last = last ∧ ∀ q, q <+: p → q ≠ [] → contains q t = false) ∨
      ∃ k < p.length, lastMarked p t i last = some (i + k) ∧ contains (p.take (k + 1)) t = true ∧
        ∀ q, q <+: p → contains q t = true → q.length ≤ k + 1 := by
  induction p generalizing t i last with
  | nil => exact Or.inl ⟨rfl, fun q hq hne => absurd (prefix_nil.mp hq) hne⟩
  | cons a p ih =>
    rw [lastMarked]
    cases hc : t.child a with
    | none =>
      refine Or.inl ⟨rfl, fun q hpre hne => ?_⟩
      obtain rfl | ⟨q, rfl, -⟩ := prefix_cons_iff.mp hpre
      · exact absurd rfl hne
      · simp [contains_cons, hc]
    | some c =>
      have hstep (q : List α) : contains (a :: q) t = contains q c := by simp [contains_cons, hc]
      rcases ih c (i + 1) (if c.marked then some i else last) with ⟨hlast, hno⟩ |
        ⟨k, hk, hlast, hmark, hmax⟩
      · cases hm : c.marked with
        | true =>
          refine Or.inr ⟨0, by simp, by simpa [hm] using hlast, by simpa [hstep] using hm, ?_⟩
          intro q hpre hmark
          obtain rfl | ⟨q, rfl, hq⟩ := prefix_cons_iff.mp hpre
          · simp
          · by_contra hlen
            rw [hstep, hno q hq fun hnil => hlen (by simp [hnil])] at hmark
            cases hmark
        | false =>
          refine Or.inl ⟨by simpa [hm] using hlast, fun q hpre hne => ?_⟩
          obtain rfl | ⟨q, rfl, hq⟩ := prefix_cons_iff.mp hpre
          · exact absurd rfl hne
          · rw [hstep]
            rcases eq_or_ne q [] with rfl | hne
            · exact hm
            · exact hno q hq hne
      · refine Or.inr ⟨k + 1, by simpa using hk,
          hlast.trans (by rw [Nat.add_assoc, Nat.add_comm 1]), by simpa [hstep] using hmark,
          fun q hpre hmark => ?_⟩
        obtain rfl | ⟨q, rfl, hq⟩ := prefix_cons_iff.mp hpre
        · simp
        · exact Nat.succ_le_succ (hmax q hq (hstep q ▸ hmark))

end Trie

end Machinery
