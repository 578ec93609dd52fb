import Mangle.Interpreter.Exec
import Mathlib.Data.Finset.Basic

/-!
# Ffi/Derivation — derivation trees

The recorded derivations are gathered in an index by derived fact (`build`), and `walk` unfolds the
index from a root fact into a tree.  The index may be cyclic: the walk keeps the facts that are
being unfolded in a set, takes a fact out again when its subtree is done, and counts the depth.

* `walkInner_run` — the set is the same after a walk as before it, so that the tree of a fact only
  depends on the facts above it: it is `unfold`.
* `walk_faithful` — what stands at every place of the tree.
-/

namespace Mangle.Derivation

open Machinery List

/-- A fact: the name of its relation and its tuple. -/
abbrev FactKey := Name × Tuple

/-- One recorded derivation: the derived fact and the premises that were used. -/
structure ProvenanceEntry where
  derived : FactKey
  premises : List FactKey

/-- The derivations of every fact that has some: the premises of each. -/
structure DerivationIndex where
  byDerived : HashMap FactKey (List (List FactKey))

/-- Gather the entries by derived fact, in the order in which they were recorded. -/
def DerivationIndex.build (entries : List ProvenanceEntry) : DerivationIndex :=
  ⟨entries.foldl (fun m e => m.modify e.derived (· ++ [e.premises])) ∅⟩

/-- **The index lists the derivations of a fact** as they were recorded. -/
theorem DerivationIndex.get_build (entries : List ProvenanceEntry) (fact : FactKey) :
    (build entries).byDerived.get fact =
      (entries.filter (·.derived = fact)).map (·.premises) := by
  induction entries using List.reverseRecOn with
  | nil => rfl
  | append_singleton entries e ih =>
    have hget : (build (entries ++ [e])).byDerived.get fact =
        ((build entries).byDerived.modify e.derived (· ++ [e.premises])).get fact := by
      rw [build, foldl_append]
      rfl
    rw [hget, HashMap.get_modify, filter_append, map_append, ← ih]
    by_cases h : fact = e.derived
    · simp [h]
    · simp [h, Ne.symm h]

/-! ## The walk -/

/-- A derivation tree.  A node has no derivations where the walk stopped, and otherwise a list of
them, each with one subtree a premise. -/
inductive Tree where
  | node (fact : FactKey) (derivations : Option (List (List Tree)))

namespace Tree

/-- The fact of a node. -/
def fact : Tree → FactKey
  | node fact _ => fact

/-- The derivations of a node. -/
def derivations : Tree → Option (List (List Tree))
  | node _ derivations => derivations

end Tree

/-- The tree of `fact` at a depth.  The facts that are being unfolded are in the set `visited`. -/
def walkInner (index : DerivationIndex) (maxDepth depth : Nat) (fact : FactKey) :
    StateM (Finset FactKey) Tree := do
  if _ : maxDepth ≤ depth then return .node fact none
  else if fact ∈ (← get) then return .node fact none
  else
    modify (insert fact)
    let derivations ← (index.byDerived.get fact).mapM fun premises =>
      premises.mapM fun p => walkInner index maxDepth (depth + 1) p
    modify (·.erase fact)
    return .node fact (some derivations)
termination_by maxDepth - depth

/-- The derivation tree of `root`. -/
def walk (index : DerivationIndex) (root : FactKey) (maxDepth : Nat) : Tree :=
  ((walkInner index maxDepth 0 root).run ∅).1

/-! ## The tree without the set -/

/-- The tree of `fact` below the facts `above`. -/
def unfold (index : DerivationIndex) (maxDepth depth : Nat) (above : Finset FactKey)
    (fact : FactKey) : Tree :=
  if _ : maxDepth ≤ depth then .node fact none
  else if fact ∈ above then .node fact none
  else
    .node fact (some ((index.byDerived.get fact).map fun premises =>
      premises.map fun p => unfold index maxDepth (depth + 1) (insert fact above) p))
termination_by maxDepth - depth

/-- Running a computation that leaves the state alone, for every element of a list. -/
theorem run_mapM_of_unchanged {α β σ : Type} {f : α → StateM σ β} {g : α → β} {s : σ}
    (h : ∀ a, (f a).run s = (g a, s)) (l : List α) : (l.mapM f).run s = (l.map g, s) := by
  induction l with
  | nil => rfl
  | cons a l ih =>
    rw [mapM_cons, map_cons, StateT.run_bind, h a]
    change (l.mapM f >>= fun bs => pure (g a :: bs)).run s = _
    rw [StateT.run_bind, ih]
    rfl

/-- **The set is restored**: a walk leaves it as it was, and its tree is `unfold`. -/
theorem walkInner_run (index : DerivationIndex) (maxDepth depth : Nat) (visited : Finset FactKey)
    (fact : FactKey) :
    (walkInner index maxDepth depth fact).run visited =
      (unfold index maxDepth depth visited fact, visited) := by
  induction hn : maxDepth - depth generalizing depth visited fact with
  | zero =>
    have h : maxDepth ≤ depth := by omega
    rw [walkInner, unfold, dif_pos h, dif_pos h]
    rfl
  | succ n ih =>
    have h : ¬maxDepth ≤ depth := by omega
    rw [walkInner, unfold, dif_neg h, dif_neg h]
    by_cases hmem : fact ∈ visited
    · rw [if_pos hmem, StateT.run_bind, StateT.run_get, pure_bind, if_pos hmem]
      rfl
    · have hrun := run_mapM_of_unchanged (fun premises => run_mapM_of_unchanged
        (fun p => ih (depth + 1) (insert fact visited) p (by omega)) premises)
        (index.byDerived.get fact)
      rw [if_neg hmem, StateT.run_bind, StateT.run_get, pure_bind, if_neg hmem, StateT.run_bind,
        StateT.run_modify, pure_bind, StateT.run_bind, hrun]
      exact congrArg (Prod.mk _) (Finset.erase_insert hmem)

theorem walk_eq_unfold (index : DerivationIndex) (root : FactKey) (maxDepth : Nat) :
    walk index root maxDepth = unfold index maxDepth 0 ∅ root := by
  rw [walk, walkInner_run]

/-! ## Places in a tree -/

/-- **A place in a tree**: the subtree there and the facts of the nodes above it, the root first.
The depth of the place is the number of these. -/
inductive Tree.Place (t : Tree) : List FactKey → Tree → Prop
  | root : Place t [] t
  | child {above : List FactKey} {fact : FactKey} {derivations : List (List Tree)}
      {premises : List Tree} {c : Tree} (hnode : Place t above (.node fact (some derivations)))
      (hpremises : premises ∈ derivations) (hc : c ∈ premises) : Place t (above ++ [fact]) c

/-- The node that `unfold` makes. -/
theorem fact_unfold (index : DerivationIndex) (maxDepth depth : Nat) (above : Finset FactKey)
    (fact : FactKey) : (unfold index maxDepth depth above fact).fact = fact := by
  rw [unfold]
  split
  · rfl
  · split <;> rfl

theorem derivations_unfold (index : DerivationIndex) (maxDepth depth : Nat)
    (above : Finset FactKey) (fact : FactKey) :
    (unfold index maxDepth depth above fact).derivations =
      if maxDepth ≤ depth ∨ fact ∈ above then none
      else some ((index.byDerived.get fact).map fun premises =>
        premises.map (unfold index maxDepth (depth + 1) (insert fact above))) := by
  rw [unfold]
  by_cases hdepth : maxDepth ≤ depth
  · simp [hdepth, Tree.derivations]
  · by_cases hmem : fact ∈ above <;> simp [hdepth, hmem, Tree.derivations]

/-- **The places of the walk**: every subtree is the unfolding of its fact below those above it,
which are different facts and no more than the depth allows. -/
theorem place_unfold {index : DerivationIndex} {maxDepth : Nat} {root : FactKey}
    {above : List FactKey} {t : Tree}
    (h : (unfold index maxDepth 0 ∅ root).Place above t) :
    above.length ≤ maxDepth ∧ above.Nodup ∧
      ∃ fact, t = unfold index maxDepth above.length above.toFinset fact := by
  induction h with
  | root => exact ⟨Nat.zero_le _, nodup_nil, root, rfl⟩
  | @child above fact derivations premises c hnode hpremises hc ih =>
    obtain ⟨-, hnodup, fact', heq⟩ := ih
    have hfact := congrArg Tree.fact heq
    rw [fact_unfold] at hfact
    change fact = fact' at hfact
    subst hfact
    have hds := congrArg Tree.derivations heq
    rw [derivations_unfold] at hds
    change some derivations = _ at hds
    split at hds
    · cases hds
    · rename_i hgo
      push Not at hgo
      obtain ⟨hdepth, hmem⟩ := hgo
      rw [mem_toFinset] at hmem
      cases hds
      obtain ⟨facts, -, rfl⟩ := mem_map.mp hpremises
      obtain ⟨p, -, rfl⟩ := mem_map.mp hc
      have habove : (above ++ [fact]).toFinset = insert fact above.toFinset := by
        ext f
        rw [mem_toFinset, mem_append, mem_singleton, Finset.mem_insert, mem_toFinset, or_comm]
      rw [length_append, length_singleton, habove]
      exact ⟨hdepth, nodup_append.mpr ⟨hnodup, nodup_singleton _, by grind⟩, p, rfl⟩

/-- **Derivation trees are finite and faithful.**  No place is deeper than `maxDepth`; a node with
derivations has those of the index for its fact, in order and with one child a premise; a node has
none exactly at `maxDepth` or below a node of the same fact; and no path unfolds a fact twice.  An
index that is built holds the recorded derivations. -/
theorem walk_faithful (index : DerivationIndex) (root : FactKey) (maxDepth : Nat) :
    (∀ entries fact, (DerivationIndex.build entries).byDerived.get fact =
        (entries.filter (·.derived = fact)).map (·.premises)) ∧
      (walk index root maxDepth).fact = root ∧
      ∀ above t, (walk index root maxDepth).Place above t →
        above.length ≤ maxDepth ∧
          (∀ derivations, t.derivations = some derivations →
            derivations.map (·.map Tree.fact) = index.byDerived.get t.fact) ∧
          (t.derivations = none ↔ above.length = maxDepth ∨ t.fact ∈ above) ∧
          above.Nodup ∧ (t.derivations.isSome → t.fact ∉ above) := by
  rw [walk_eq_unfold]
  refine ⟨DerivationIndex.get_build, fact_unfold .., fun above t h => ?_⟩
  obtain ⟨hlen, hnodup, fact, rfl⟩ := place_unfold h
  have hstop : (maxDepth ≤ above.length ∨ fact ∈ above.toFinset) ↔
      above.length = maxDepth ∨ fact ∈ above := by
    rw [mem_toFinset]
    exact or_congr_left ⟨fun h => Nat.le_antisymm hlen h, fun h => h.ge⟩
  rw [fact_unfold, derivations_unfold]
  refine ⟨hlen, ?_, ?_, hnodup, ?_⟩
  · intro derivations hds
    split at hds
    · cases hds
    · cases hds
      rw [map_map]
      refine (map_congr_left fun premises _ => ?_).trans (map_id _)
      rw [Function.comp_apply, map_map]
      exact (map_congr_left fun p _ => fact_unfold ..).trans (map_id _)
  · rw [← hstop]
    split <;> simp_all
  · split <;> simp_all

end Mangle.Derivation
