import Mangle.Semantics.Failure
import Mangle.Semantics.Insertion

/-!
# Semantics/Sequence — operations one after the other

`denSeq rt c ops` lists what a sequence inserts: each operation reads what those before it have
inserted.  The interpreter computes it (`execute_denSeq`), and fails as a built-in does
(`execute_seq_fromBuiltin`).
-/

namespace Mangle

open Machinery

/-- What a sequence of operations inserts. -/
def denSeq (rt : Runtime) : Tiers → List Op → Result (List Emit)
  | _, [] => .ok []
  | c, op :: ops => do
      let es ← den rt c.reader op .new
      let es' ← denSeq rt (c.insertAll es) ops
      .ok (es ++ es')

variable {rt : Runtime} {ops : List Op}

theorem denSeq_pair (c : Tiers) (op op' : Op) : denSeq rt c [op, op'] = (do
    let es ← den rt c.reader op .new
    let es' ← den rt (c.insertAll es).reader op' .new
    .ok (es ++ es')) := by
  simp only [denSeq, bind_assoc, ok_bind, List.append_nil]

variable (hops : ∀ op ∈ ops, ∃ W, op.Scoped W ∅)

include hops

theorem execSeq_denSeq {c : Tiers} {s : MemStore}
    (h : Rep s c) (hi : Indexed s) (env : Env) :
    Lift Eq (fun es out => (out.1, out.2.2) = MemStore.insertAll es s) (denSeq rt c ops)
      (execSeq rt ops env s) := by
  induction ops generalizing c s env with
  | nil => exact .ok rfl
  | cons op ops ih =>
    obtain ⟨⟨W, hscoped⟩, hops⟩ := List.forall_mem_cons.mp hops
    -- nothing is in scope, so that the environment left by the operation before does not matter
    have hrun := execOp_den rt c hscoped .new env s (fun _ hv => hv.elim) (.of_rep h hi)
    simp only [denSeq, execSeq]
    rcases hrun.cases with ⟨es, ⟨n, env', s'⟩, hden, hexec, -, -, heq⟩ | ⟨e, e', hden, hexec, rfl⟩
    · obtain rfl : s' = (MemStore.insertAll es s).2 := congrArg Prod.snd heq
      obtain rfl : n = (MemStore.insertAll es s).1 := congrArg Prod.fst heq
      rw [hden, hexec]
      rcases (ih hops (h.insertAll es) (hi.insertAll h es) env').cases with
        ⟨es', ⟨m, env'', s''⟩, hden', hexec', heq'⟩ | ⟨e, e', hden', hexec', rfl⟩
      · simp only [ok_bind, hden', hexec']
        refine .ok ?_
        rw [MemStore.insertAll_append, ← heq']
      · simp only [ok_bind, hden', hexec', error_bind]
        exact .error rfl
    · rw [hden, hexec]
      exact .error rfl

/-- **A whole sequence**: what it inserts into a store that holds `c`, and what it counts. -/
theorem execute_denSeq {c : Tiers} {s : MemStore}
    (h : Rep s c) (hi : Indexed s) :
    Lift Eq (fun es out => out = MemStore.insertAll es s) (denSeq rt c ops)
      (execute rt (.seq ops) s) := by
  unfold execute execOp
  rcases (execSeq_denSeq hops h hi .new).cases with
    ⟨es, ⟨n, env, s'⟩, hden, hexec, heq⟩ | ⟨e, e', hden, hexec, rfl⟩
  · rw [hden, hexec]
    exact .ok heq
  · rw [hden, hexec]
    exact .error rfl

theorem denSeq_fromBuiltin (c : Tiers) : FailsAsBuiltin (denSeq rt c ops) := by
  induction ops generalizing c with
  | nil => exact .ok []
  | cons op ops ih =>
    obtain ⟨⟨W, hscoped⟩, hops⟩ := List.forall_mem_cons.mp hops
    refine (den_fromBuiltin rt c hscoped fun v hv => hv.elim).bind fun es _ => ?_
    exact (ih hops _).bind fun es' _ => .ok _

theorem execute_seq_fromBuiltin {c : Tiers} {s : MemStore} (h : Rep s c) (hi : Indexed s) :
    FailsAsBuiltin (execute rt (.seq ops) s) := by
  intro e he
  rcases (@execute_denSeq rt ops hops c s h hi).cases with
    ⟨_, _, _, hok, _⟩ | ⟨e', _, hden, herr, rfl⟩
  · rw [hok] at he
    cases he
  · obtain rfl : e' = e := Except.error.inj (herr.symm.trans he)
    exact denSeq_fromBuiltin hops c e' hden

end Mangle
