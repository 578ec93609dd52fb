import Mangle.Analysis.Stratification

/-!
# Analysis/StratificationSound — what the strata are

* `mem_makeDepGraph`, `hasEdge_makeDepGraph`, `hasNegated_makeDepGraph` — the graph holds the
  dependencies of the clauses;
* `stratify_correct` — a program is stratified exactly when no cycle has a negated dependency, and
  the strata are its components in an order that respects the dependencies.
-/

namespace Mangle

open Machinery List

variable {i k : Nat}

/-! ## Dependencies -/

section

variable {P : Type}

/-- The predicate is the head of a clause. -/
def Intensional (clauses : List (Clause P)) (p : P) : Prop := ∃ c ∈ clauses, c.head = p

/-- The clause reads the predicate in a premise. -/
def Clause.Reads (c : Clause P) (q : P) : Prop :=
  .atom q ∈ c.premises ∨ .temporalAtom q ∈ c.premises ∨ .negAtom q ∈ c.premises

/-- The clause reads the predicate under a negation, or aggregates over it. -/
def Clause.ReadsNegated (c : Clause P) (q : P) : Prop :=
  .negAtom q ∈ c.premises ∨
    c.aggregates = true ∧ (.atom q ∈ c.premises ∨ .temporalAtom q ∈ c.premises)

/-- `p` depends on the intensional predicate `q`. -/
def DependsOn (clauses : List (Clause P)) (p q : P) : Prop :=
  Intensional clauses q ∧ ∃ c ∈ clauses, c.head = p ∧ c.Reads q

/-- `p` depends on the intensional predicate `q` through negation or aggregation. -/
def DependsNegated (clauses : List (Clause P)) (p q : P) : Prop :=
  Intensional clauses q ∧ ∃ c ∈ clauses, c.head = p ∧ c.ReadsNegated q

/-- `p` depends on `q` in any number of steps. -/
abbrev DependsStar (clauses : List (Clause P)) : P → P → Prop :=
  Relation.ReflTransGen (DependsOn clauses)

theorem Clause.ReadsNegated.reads {c : Clause P} {q : P} (h : c.ReadsNegated q) : c.Reads q := by
  rcases h with hneg | ⟨-, hatom | htemp⟩
  · exact Or.inr (Or.inr hneg)
  · exact Or.inl hatom
  · exact Or.inr (Or.inl htemp)

theorem DependsNegated.dependsOn {clauses : List (Clause P)} {p q : P}
    (h : DependsNegated clauses p q) : DependsOn clauses p q := by
  obtain ⟨hq, c, hc, hhead, hread⟩ := h
  exact ⟨hq, c, hc, hhead, hread.reads⟩

end

/-- What one step of a loop may add, the loop may add for one of its elements. -/
theorem foldl_iff {σ ι : Type} {f : σ → ι → σ} (R : σ → Prop) (A : ι → Prop)
    (h : ∀ s i, R (f s i) ↔ R s ∨ A i) (xs : List ι) (s : σ) :
    R (xs.foldl f s) ↔ R s ∨ ∃ i ∈ xs, A i := by
  induction xs generalizing s with
  | nil => simp
  | cons i xs ih => simp only [foldl_cons, ih, h, exists_mem_cons_iff, or_assoc]

/-! ## The graph -/

section

variable {P : Type} [DecidableEq P]

namespace DepGraph

variable {g : DepGraph P} {p q src dest : P} {negated : Bool}

/-- There is an edge. -/
def HasEdge (g : DepGraph P) (p q : P) : Prop := q ∈ g.edgesOf p

/-- There is a negated edge. -/
def HasNegated (g : DepGraph P) (p q : P) : Prop := (g.edgesOf p).lookup q = some true

theorem edgesOf_initNode : (g.initNode src).edgesOf p = g.edgesOf p := by
  unfold initNode edgesOf
  rw [HashMap.lookup_orInsert]
  split
  · rename_i heq
    subst heq
    rfl
  · rfl

theorem edgesOf_insert {m : EdgeMap P} : edgesOf (AList.insert src m g) p =
    if p = src then m else g.edgesOf p := by
  unfold edgesOf
  split
  · rename_i heq
    subst heq
    rw [AList.lookup_insert]
    rfl
  · rename_i hne
    rw [AList.lookup_insert_ne hne]

theorem hasEdge_addEdge : (g.addEdge src dest negated).HasEdge p q ↔
    g.HasEdge p q ∨ p = src ∧ q = dest := by
  simp only [HasEdge, addEdge]
  split_ifs with hneg hold <;> rw [edgesOf_insert]
  · by_cases hp : p = src <;> simp [hp, or_comm]
  · have hdest : dest ∈ g.edgesOf src := AList.lookup_isSome.mp (by rw [hold]; rfl)
    by_cases hp : p = src
    · simp only [hp, if_true, true_and, iff_self_or]
      rintro rfl
      exact hdest
    · simp [hp]
  · by_cases hp : p = src <;> simp [hp, or_comm]

theorem hasNegated_addEdge : (g.addEdge src dest negated).HasNegated p q ↔
    g.HasNegated p q ∨ p = src ∧ q = dest ∧ negated = true := by
  simp only [HasNegated, addEdge]
  split_ifs with hneg hold <;> rw [edgesOf_insert] <;>
    by_cases hp : p = src <;> simp only [hp, if_true]
  · by_cases hq : q = dest
    · subst hq
      simp [hneg]
    · simp [hq, AList.lookup_insert_ne hq]
  · simp
  · simp [hneg]
  · simp
  · by_cases hq : q = dest
    · subst hq
      simp [hneg, hold]
    · simp [hq, AList.lookup_insert_ne hq]
  · simp

theorem mem_addEdge : p ∈ g.addEdge src dest negated ↔ p = src ∨ p ∈ g := by
  simp only [addEdge]
  split_ifs <;> exact AList.mem_insert _

theorem mem_initNode : p ∈ g.initNode src ↔ p = src ∨ p ∈ g := by
  unfold initNode HashMap.orInsert
  split
  · rename_i m hm
    have hsrc : src ∈ g := AList.lookup_isSome.mp (by rw [hm]; rfl)
    simp only [iff_or_self]
    rintro rfl
    exact hsrc
  · exact AList.mem_insert _

theorem mem_neighbors {order : P → HashOrder} : q ∈ g.neighbors order p ↔ g.HasEdge p q := by
  unfold neighbors HasEdge
  rw [((order p).perm_perm _).mem_iff]
  exact AList.mem_keys.symm

theorem hasEdge_iff : g.HasEdge p q ↔ ∃ e ∈ g.entries, p = e.1 ∧ q ∈ e.2 := by
  unfold HasEdge edgesOf
  constructor
  · intro h
    cases hm : AList.lookup p g with
    | none =>
      rw [hm] at h
      exact absurd h (AList.notMem_empty q)
    | some m =>
      rw [hm] at h
      exact ⟨⟨p, m⟩, AList.mem_lookup_iff.mp hm, rfl, h⟩
  · rintro ⟨⟨_, m⟩, he, rfl, hq⟩
    rw [AList.mem_lookup_iff.mpr he]
    exact hq

/-- **The transposed graph has the edges backwards.** -/
theorem hasEdge_transpose {orders : HashOrders P} :
    (g.transpose orders).HasEdge q p ↔ g.HasEdge p q := by
  have hstep (rev : DepGraph P) (e : Sigma fun _ : P => EdgeMap P) :
      HasEdge (((orders.edges e.1).perm e.2.entries).foldl (fun rev d =>
        addEdge (initNode rev d.1) d.1 e.1 d.2) rev) q p ↔ rev.HasEdge q p ∨ p = e.1 ∧ q ∈ e.2 := by
    rw [foldl_iff (fun rev : DepGraph P => rev.HasEdge q p) (fun d => q = d.1 ∧ p = e.1)
      fun rev d => by rw [hasEdge_addEdge, HasEdge, edgesOf_initNode, HasEdge]]
    simp only [((orders.edges e.1).perm_perm _).mem_iff]
    refine or_congr_right ⟨?_, ?_⟩
    · rintro ⟨d, hd, rfl, hp⟩
      exact ⟨hp, mem_keys.mpr ⟨d.2, hd⟩⟩
    · rintro ⟨hp, hq⟩
      obtain ⟨b, hb⟩ := mem_keys.mp hq
      exact ⟨_, hb, rfl, hp⟩
  unfold transpose
  rw [foldl_iff (fun rev : DepGraph P => rev.HasEdge q p) (fun e => p = e.1 ∧ q ∈ e.2) hstep]
  simp only [(orders.nodes.perm_perm _).mem_iff]
  exact (or_iff_right (AList.notMem_empty p)).trans hasEdge_iff.symm

end DepGraph

/-! ## The graph of a program -/

variable {clauses : List (Clause P)} {extPreds : List P} {p q : P}

theorem mem_get_ofClauses {c : Clause P} :
    c ∈ (ClauseProgram.ofClauses extPreds clauses).rules.get p ↔ c ∈ clauses ∧ c.head = p := by
  refine (foldl_iff (fun prog : ClauseProgram P => c ∈ prog.rules.get p)
    (fun c' => c = c' ∧ c.head = p) (fun prog c' => ?_) clauses _).trans ?_
  · simp only [ClauseProgram.addClause, HashMap.get_modify]
    split
    · rename_i hp
      subst hp
      rw [mem_append, mem_singleton]
      refine or_congr_right ⟨fun h => ⟨h, by rw [h]⟩, And.left⟩
    · rename_i hp
      refine (or_iff_left ?_).symm
      rintro ⟨rfl, rfl⟩
      exact hp rfl
  · simp

theorem mem_rules_ofClauses :
    p ∈ (ClauseProgram.ofClauses extPreds clauses).rules ↔ Intensional clauses p := by
  refine (foldl_iff (fun prog : ClauseProgram P => p ∈ prog.rules)
    (fun c => c.head = p) (fun prog c' => ?_) clauses _).trans ?_
  · simp only [ClauseProgram.addClause, HashMap.mem_modify]
    rw [or_comm, eq_comm]
  · exact or_iff_right (AList.notMem_empty p)

theorem extPreds_ofClauses : (ClauseProgram.ofClauses extPreds clauses).extPreds = extPreds := by
  have key (prog : ClauseProgram P) :
      (clauses.foldl ClauseProgram.addClause prog).extPreds = prog.extPreds := by
    induction clauses generalizing prog with
    | nil => rfl
    | cons c cs ih => exact ih _
  exact key _

/-- What holds of a clause in the entries of the rule map. -/
theorem exists_entry_iff {A : P → Clause P → Prop} :
    (∃ e ∈ (ClauseProgram.ofClauses extPreds clauses).rules.entries, ∃ c ∈ e.2, A e.1 c) ↔
      ∃ c ∈ clauses, A c.head c := by
  constructor
  · rintro ⟨⟨p, cs⟩, he, c, hc, hA⟩
    have hget : (ClauseProgram.ofClauses extPreds clauses).rules.get p = cs := by
      rw [HashMap.get, AList.mem_lookup_iff.mpr he]
      rfl
    rw [← hget] at hc
    obtain ⟨hmem, rfl⟩ := mem_get_ofClauses.mp hc
    exact ⟨c, hmem, hA⟩
  · rintro ⟨c, hc, hA⟩
    have hget : c ∈ (ClauseProgram.ofClauses extPreds clauses).rules.get c.head :=
      mem_get_ofClauses.mpr ⟨hc, rfl⟩
    cases hl : (ClauseProgram.ofClauses extPreds clauses).rules.lookup c.head with
    | none =>
      rw [HashMap.get, hl] at hget
      cases hget
    | some cs =>
      rw [HashMap.get, hl] at hget
      exact ⟨⟨c.head, cs⟩, AList.mem_lookup_iff.mp hl, c, hget, hA⟩

theorem addRules_iff {R : DepGraph P → Prop} {A : P → P × Bool → Prop}
    (hinit : ∀ dep s, R (dep.initNode s) ↔ R dep)
    (hadd : ∀ dep s e, R (dep.addEdge s e.1 e.2) ↔ R dep ∨ A s e) {dep : DepGraph P} {s : P}
    {cs : List (Clause P)} :
    R (addRules extPreds dep s cs) ↔ R dep ∨ ∃ c ∈ cs, ∃ e ∈ c.edges extPreds, A s e := by
  unfold addRules
  rw [foldl_iff R (fun c => ∃ e ∈ c.edges extPreds, A s e)
    fun dep c => foldl_iff R (A s) (fun dep e => hadd dep s e) _ _, hinit]

theorem mem_addRules {dep : DepGraph P} {s : P} {cs : List (Clause P)} :
    p ∈ addRules extPreds dep s cs ↔ p ∈ dep ∨ p = s := by
  unfold addRules
  rw [foldl_iff (fun dep : DepGraph P => p ∈ dep) (fun c => ∃ e ∈ c.edges extPreds, p = s)
    fun dep c => foldl_iff (fun dep : DepGraph P => p ∈ dep) (fun _ => p = s)
      (fun dep e => DepGraph.mem_addEdge.trans or_comm) _ _, DepGraph.mem_initNode]
  constructor
  · rintro ((rfl | h) | ⟨c, -, e, -, rfl⟩)
    · exact Or.inr rfl
    · exact Or.inl h
    · exact Or.inr rfl
  · rintro (h | rfl)
    · exact Or.inl (Or.inr h)
    · exact Or.inl (Or.inl rfl)

variable {orders : HashOrders P}

/-- **The dependencies a clause makes** to a predicate that is not extensional. -/
theorem mem_edges {c : Clause P} {b : Bool} : (q, b) ∈ c.edges extPreds ↔ q ∉ extPreds ∧
    (.negAtom q ∈ c.premises ∧ b = true ∨
      (.atom q ∈ c.premises ∨ .temporalAtom q ∈ c.premises) ∧ b = c.aggregates) := by
  simp only [Clause.edges, mem_filterMap]
  constructor
  · rintro ⟨l, hl, heq⟩
    cases l <;> simp only [Literal.edge, Option.ite_none_left_eq_some, reduceCtorEq,
      Option.some.injEq, Prod.mk.injEq] at heq
    · obtain ⟨hext, rfl, rfl⟩ := heq
      exact ⟨hext, Or.inr ⟨Or.inl hl, rfl⟩⟩
    · obtain ⟨hext, rfl, rfl⟩ := heq
      exact ⟨hext, Or.inl ⟨hl, rfl⟩⟩
    · obtain ⟨hext, rfl, rfl⟩ := heq
      exact ⟨hext, Or.inr ⟨Or.inr hl, rfl⟩⟩
  · rintro ⟨hext, ⟨hl, rfl⟩ | ⟨hl | hl, rfl⟩⟩
    · exact ⟨_, hl, by simp [Literal.edge, hext]⟩
    · exact ⟨_, hl, by simp [Literal.edge, hext]⟩
    · exact ⟨_, hl, by simp [Literal.edge, hext]⟩

theorem exists_mem_edges {c : Clause P} :
    (∃ b, (q, b) ∈ c.edges extPreds) ↔ q ∉ extPreds ∧ c.Reads q := by
  simp only [mem_edges, Clause.Reads, exists_and_left, exists_or, exists_eq, and_true]
  tauto

/-- The predicates are either extensional or intensional. -/
structure Separated (extPreds : List P) (clauses : List (Clause P)) : Prop where
  notBoth : ∀ p ∈ extPreds, ¬ Intensional clauses p
  either : ∀ c ∈ clauses, ∀ q, c.Reads q → q ∈ extPreds ∨ Intensional clauses q

omit [DecidableEq P] in
theorem Separated.notMem_iff (h : Separated extPreds clauses) {c : Clause P} (hc : c ∈ clauses)
    (hread : c.Reads q) : q ∉ extPreds ↔ Intensional clauses q :=
  ⟨(h.either c hc q hread).resolve_left, fun hint hext => h.notBoth q hext hint⟩

section

variable (orders)

/-- **The nodes are the intensional predicates.** -/
theorem mem_makeDepGraph : p ∈ makeDepGraph orders (.ofClauses extPreds clauses) ↔
    Intensional clauses p := by
  unfold makeDepGraph
  rw [foldl_iff (fun dep : DepGraph P => p ∈ dep)
    (fun e : Sigma fun _ : P => List (Clause P) => p = e.1) fun dep e => mem_addRules]
  rw [or_iff_right (AList.notMem_empty p), ← @mem_rules_ofClauses P _ clauses extPreds p]
  simp only [(orders.rules.perm_perm _).mem_iff]
  constructor
  · rintro ⟨e, he, rfl⟩
    exact mem_keys.mpr ⟨e.2, he⟩
  · intro h
    obtain ⟨cs, hcs⟩ := mem_keys.mp h
    exact ⟨⟨p, cs⟩, hcs, rfl⟩

/-- What the edges of the clauses add to the graph. -/
theorem makeDepGraph_iff {R : DepGraph P → Prop} {A : P → P × Bool → Prop}
    (hinit : ∀ dep s, R (dep.initNode s) ↔ R dep)
    (hadd : ∀ dep s e, R (dep.addEdge s e.1 e.2) ↔ R dep ∨ A s e) (hempty : ¬ R ∅) :
    R (makeDepGraph orders (.ofClauses extPreds clauses)) ↔
      ∃ c ∈ clauses, ∃ e ∈ c.edges extPreds, A c.head e := by
  unfold makeDepGraph
  rw [extPreds_ofClauses, foldl_iff R
    (fun e : Sigma fun _ : P => List (Clause P) => ∃ c ∈ e.2, ∃ d ∈ c.edges extPreds, A e.1 d)
    fun dep e => addRules_iff hinit hadd, or_iff_right hempty]
  simp only [(orders.rules.perm_perm _).mem_iff]
  exact exists_entry_iff (A := fun s c => ∃ d ∈ c.edges extPreds, A s d)

/-- **The edges are the dependencies.** -/
theorem hasEdge_makeDepGraph (h : Separated extPreds clauses) :
    (makeDepGraph orders (.ofClauses extPreds clauses)).HasEdge p q ↔ DependsOn clauses p q := by
  rw [makeDepGraph_iff orders (R := fun dep => dep.HasEdge p q) (A := fun s e => p = s ∧ q = e.1)
    (fun dep s => by rw [DepGraph.HasEdge, DepGraph.edgesOf_initNode, DepGraph.HasEdge])
    (fun dep s e => DepGraph.hasEdge_addEdge) (AList.notMem_empty q)]
  constructor
  · rintro ⟨c, hc, ⟨d, b⟩, hb, hp, rfl⟩
    obtain ⟨hext, hread⟩ := exists_mem_edges.mp ⟨b, hb⟩
    exact ⟨(h.notMem_iff hc hread).mp hext, c, hc, hp.symm, hread⟩
  · rintro ⟨hint, c, hc, hp, hread⟩
    obtain ⟨b, hb⟩ := exists_mem_edges.mpr ⟨(h.notMem_iff hc hread).mpr hint, hread⟩
    exact ⟨c, hc, (q, b), hb, hp.symm, rfl⟩

/-- **The negated edges are the negated dependencies.** -/
theorem hasNegated_makeDepGraph (h : Separated extPreds clauses) :
    (makeDepGraph orders (.ofClauses extPreds clauses)).HasNegated p q ↔
      DependsNegated clauses p q := by
  rw [makeDepGraph_iff orders (R := fun dep => dep.HasNegated p q)
    (A := fun s e => p = s ∧ q = e.1 ∧ e.2 = true)
    (fun dep s => by rw [DepGraph.HasNegated, DepGraph.edgesOf_initNode, DepGraph.HasNegated])
    (fun dep s e => DepGraph.hasNegated_addEdge) (fun h => by cases h)]
  constructor
  · rintro ⟨c, hc, ⟨d, b⟩, hb, hp, rfl, rfl⟩
    obtain ⟨hext, hread⟩ := mem_edges.mp hb
    have hread : c.ReadsNegated q :=
      hread.imp And.left fun hr => ⟨hr.2.symm, hr.1⟩
    exact ⟨(h.notMem_iff hc hread.reads).mp hext, c, hc, hp.symm, hread⟩
  · rintro ⟨hint, c, hc, hp, hread⟩
    have hext := (h.notMem_iff hc hread.reads).mpr hint
    refine ⟨c, hc, (q, true), mem_edges.mpr ⟨hext, ?_⟩, hp.symm, rfl, rfl⟩
    exact hread.imp (fun hneg => ⟨hneg, rfl⟩) fun hr => ⟨hr.2, hr.1.symm⟩

/-! ## The components -/

theorem reach_neighbors (h : Separated extPreds clauses) :
    Reach ((makeDepGraph orders (.ofClauses extPreds clauses)).neighbors orders.edges) =
      DependsStar clauses := by
  have hrel : (fun u w => w ∈ (makeDepGraph orders (.ofClauses extPreds clauses)).neighbors
      orders.edges u) = DependsOn clauses := by
    funext u w
    exact propext (DepGraph.mem_neighbors.trans (hasEdge_makeDepGraph orders h))
  rw [Reach, hrel]

omit [DecidableEq P] in
theorem keys_lt_size (g : DepGraph P) : g.keys.length < g.size := by
  have hle : ∀ l : List (Sigma fun _ : P => EdgeMap P),
      l.keys.length ≤ (l.map fun e => e.2.keys.length + 1).sum := by
    intro l
    induction l with
    | nil => simp
    | cons e l ih =>
      simp only [keys_cons, length_cons, map_cons, sum_cons]
      omega
  exact Nat.lt_succ_of_le (hle g.entries)

/-- Intensional predicates that depend on each other. -/
def Recursive (clauses : List (Clause P)) (p q : P) : Prop :=
  DependsStar clauses p q ∧ DependsStar clauses q p

/-- **The components of the graph** are the classes of mutual dependency. -/
theorem sccs_spec (h : Separated extPreds clauses) :
    let sccs := (makeDepGraph orders (.ofClauses extPreds clauses)).sccs orders
    (∀ c ∈ sccs, ∀ p ∈ c, Intensional clauses p ∧ ∀ q, q ∈ c ↔ Recursive clauses p q) ∧
      (∀ c ∈ sccs, ∃ p, p ∈ c) ∧ sccs.Pairwise (fun c d => ∀ p ∈ c, p ∉ d) ∧
      ∀ p, Intensional clauses p → ∃ c ∈ sccs, p ∈ c := by
  set g := makeDepGraph orders (.ofClauses extPreds clauses) with hg
  set succ := g.neighbors orders.edges with hsucc
  set keys := orders.nodes.perm g.keys with hkeys
  have hkey (p : P) : p ∈ keys ↔ Intensional clauses p := by
    rw [hkeys, (orders.nodes.perm_perm _).mem_iff, ← mem_makeDepGraph orders]
    exact AList.mem_keys.symm
  have hedge {p q : P} : q ∈ succ p ↔ DependsOn clauses p q :=
    DepGraph.mem_neighbors.trans (hasEdge_makeDepGraph orders h)
  have hdual (u w : P) : u ∈ (g.transpose orders).neighbors orders.revEdges w ↔ w ∈ succ u :=
    DepGraph.mem_neighbors.trans (DepGraph.hasEdge_transpose.trans DepGraph.mem_neighbors.symm)
  have hlen : keys.length < g.size := by
    rw [hkeys, (orders.nodes.perm_perm _).length_eq]
    exact keys_lt_size g
  have hclosed : ∀ u ∈ keys, ∀ w ∈ succ u, w ∈ keys :=
    fun u _ w hw => (hkey w).mpr (hedge.mp hw).1
  have hsrc (u w : P) (hu : u ∈ (g.transpose orders).neighbors orders.revEdges w) : u ∈ keys := by
    obtain ⟨-, c, hc, rfl, -⟩ := hedge.mp ((hdual u w).mp hu)
    exact (hkey _).mpr ⟨c, hc, rfl⟩
  obtain ⟨hfin, hnodup, hmem⟩ := finishing_roots hclosed hlen
  obtain ⟨h₁, h₂, h₃⟩ := components_spec hdual hsrc hlen (fun v hv => (hmem v).mp hv) hfin hnodup
    (fun v hv _ => (hmem v).mpr hv) (fun v hv => absurd hv not_mem_nil)
  have hmutual (p q : P) : Mutual succ p q ↔ Recursive clauses p q := by
    rw [Mutual, Recursive, hsucc, hg, reach_neighbors orders h]
  refine ⟨fun c hc p hp => ⟨?_, fun q => (((h₁ c hc).2 p hp).2 q).trans (hmutual p q)⟩,
    fun c hc => (h₁ c hc).1.imp fun p hp => hp.1, h₂, fun p hp => ?_⟩
  · obtain ⟨v, hv, hvV⟩ := (h₁ c hc).1
    have hreach : Reach succ v p := ((((h₁ c hc).2 v hv).2 p).mp hp).1
    rw [← hkey]
    induction hreach with
    | refl => exact hvV
    | tail _ hstep _ => exact (hkey _).mpr (hedge.mp hstep).1
  · exact h₃ p ((hkey p).mpr hp) not_mem_nil

end

/-! ## The check -/

variable {dep : DepGraph P} {strata : List (List P)} {m m' : HashMap P Nat}

/-- Enter the indexes of all strata. -/
def enterStrata : Nat → List (List P) → HashMap P Nat → HashMap P Nat
  | _, [], m => m
  | i, stratum :: strata, m => enterStrata (i + 1) strata (enterStratum m i stratum)

theorem lookup_enterStratum {stratum : List P} :
    (enterStratum m i stratum).lookup p = if p ∈ stratum then some i else m.lookup p := by
  unfold enterStratum
  induction stratum generalizing m with
  | nil => simp
  | cons sym stratum ih =>
    rw [foldl_cons, ih]
    by_cases hp : p = sym
    · subst hp
      simp
    · simp [hp, AList.lookup_insert_ne hp]

/-- No negated edge inside the stratum. -/
def Unnegated (dep : DepGraph P) (stratum : List P) : Prop :=
  ∀ p ∈ stratum, ∀ q ∈ stratum, ¬ dep.HasNegated p q

theorem checkStrata_eq_ok {i : Nat} (hm : ∀ p k, m.lookup p = some k → k < i) :
    checkStrata dep i strata m = .ok m' ↔
      (∀ stratum ∈ strata, Unnegated dep stratum) ∧ m' = enterStrata i strata m := by
  induction strata generalizing i m with
  | nil => simp [checkStrata, enterStrata, eq_comm]
  | cons stratum strata ih =>
    have hi (q : P) : (enterStratum m i stratum).lookup q = some i ↔ q ∈ stratum := by
      rw [lookup_enterStratum]
      split
      · simp [*]
      · simp only [*, iff_false]
        exact fun heq => Nat.lt_irrefl _ (hm q i heq)
    have hcheck : (stratum.any fun sym => (dep.edgesOf sym).entries.any fun e =>
        e.2 && decide ((enterStratum m i stratum).lookup e.1 = some i)) = true ↔
          ¬ Unnegated dep stratum := by
      simp only [any_eq_true, Bool.and_eq_true, decide_eq_true_eq, hi, Unnegated, not_forall,
        not_not]
      constructor
      · rintro ⟨p, hp, ⟨q, b⟩, he, rfl, hq⟩
        exact ⟨p, hp, q, hq, AList.mem_lookup_iff.mpr he⟩
      · rintro ⟨p, hp, q, hq, hneg⟩
        exact ⟨p, hp, ⟨q, true⟩, AList.mem_lookup_iff.mp hneg, rfl, hq⟩
    simp only [checkStrata]
    split
    · rename_i hbad
      have := hcheck.mp hbad
      simp [this]
    · rename_i hgood
      rw [ih, forall_mem_cons, and_assoc, enterStrata]
      · exact (and_iff_right (not_not.mp fun hno => hgood (hcheck.mpr hno))).symm
      · intro q k hk
        rw [lookup_enterStratum] at hk
        split at hk
        · exact Option.some.inj hk ▸ Nat.lt_succ_self _
        · exact Nat.lt_succ_of_lt (hm q k hk)

/-- **The index of a predicate is that of its stratum.** -/
theorem lookup_enterStrata (hdis : strata.Pairwise fun c d => ∀ p ∈ c, p ∉ d)
    (hm : ∀ c ∈ strata, ∀ p ∈ c, p ∉ m) :
    (enterStrata i strata m).lookup p = some k ↔
      m.lookup p = some k ∨ ∃ j c, strata[j]? = some c ∧ p ∈ c ∧ k = i + j := by
  induction strata generalizing i m with
  | nil => simp [enterStrata]
  | cons stratum strata ih =>
    obtain ⟨hhead, hdis⟩ := pairwise_cons.mp hdis
    obtain ⟨hm₁, hm⟩ := forall_mem_cons.mp hm
    rw [enterStrata, ih hdis, lookup_enterStratum]
    · -- position 0 of the list is this stratum, position `j + 1` the one at `j` of the others
      have hsplit : (∃ j c, (stratum :: strata)[j]? = some c ∧ p ∈ c ∧ k = i + j) ↔
          p ∈ stratum ∧ k = i ∨ ∃ j c, strata[j]? = some c ∧ p ∈ c ∧ k = i + 1 + j := by
        constructor
        · rintro ⟨_ | j, c, hj, hp, hk⟩
          · obtain rfl : stratum = c := by simpa using hj
            exact Or.inl ⟨hp, hk⟩
          · exact Or.inr ⟨j, c, hj, hp, by omega⟩
        · rintro (⟨hp, hk⟩ | ⟨j, c, hj, hp, hk⟩)
          · exact ⟨0, stratum, rfl, hp, hk⟩
          · exact ⟨j + 1, c, hj, hp, by omega⟩
      rw [hsplit]
      by_cases hp : p ∈ stratum
      · have hnone : m.lookup p = none := AList.lookup_eq_none.mpr (hm₁ p hp)
        simp [hp, hnone, eq_comm]
      · simp [hp]
    · intro c hc q hq hmem
      have : (enterStratum m i stratum).lookup q = none := by
        rw [lookup_enterStratum, if_neg fun h => hhead c hc q h hq]
        exact AList.lookup_eq_none.mpr (hm c hc q hq)
      exact AList.lookup_eq_none.mp this hmem

/-! ## The order of the strata -/

/-- What `permutation` is made of. -/
theorem foldl_update_zipIdx {l : List Nat} (hl : l.Nodup) {f : Nat → Nat} {x : Nat}
    (hk : l[k]? = some x) :
    (l.zipIdx i).foldl (fun f e => Function.update f e.1 e.2) f x = i + k := by
  have hkeep : ∀ (l : List Nat) (i : Nat) (f : Nat → Nat), x ∉ l →
      (l.zipIdx i).foldl (fun f e => Function.update f e.1 e.2) f x = f x := by
    intro l
    induction l with
    | nil => simp
    | cons y l ih =>
      intro i f hx
      rw [mem_cons, not_or] at hx
      rw [zipIdx_cons, foldl_cons, ih _ _ hx.2, Function.update_of_ne hx.1]
  induction l generalizing i k f with
  | nil => simp at hk
  | cons y l ih =>
    obtain ⟨hy, hl⟩ := nodup_cons.mp hl
    rw [zipIdx_cons, foldl_cons]
    cases k with
    | zero =>
      obtain rfl : y = x := by simpa using hk
      rw [hkeep l _ _ hy, Function.update_self]
      rfl
    | succ k =>
      rw [ih hl hk]
      omega

omit [DecidableEq P] in
/-- **Permuting the strata** puts them in the order of the visit. -/
theorem rotate_sorted {sorted : List Nat} (hnodup : sorted.Nodup)
    (hmem : ∀ i, i ∈ sorted ↔ i < strata.length) :
    (List.range strata.length).map (applyPermutationCycleRotate (fun i => strata.getD i [])
      (sorted.zipIdx.foldl (fun f e => Function.update f e.1 e.2) fun _ => 0) strata.length) =
        sorted.map fun i => strata.getD i [] := by
  set permutation := sorted.zipIdx.foldl (fun f e => Function.update f e.1 e.2) fun _ => 0
  have hperm {k x : Nat} (hk : sorted[k]? = some x) : permutation x = k := by
    have := foldl_update_zipIdx hnodup (f := fun _ => 0) (i := 0) hk
    rwa [Nat.zero_add] at this
  have hlen : sorted.length = strata.length := by
    have hp : sorted.Perm (List.range strata.length) :=
      (perm_ext_iff_of_nodup hnodup nodup_range).mpr fun i => by
        rw [hmem, mem_range]
    rw [hp.length_eq, length_range]
  have hat (v : Nat) (hv : v < strata.length) : ∃ k, k < strata.length ∧ sorted[k]? = some v := by
    obtain ⟨k, hk⟩ := List.getElem?_of_mem ((hmem v).mpr hv)
    exact ⟨k, hlen ▸ (List.getElem?_eq_some_iff.mp hk).1, hk⟩
  refine ext_getElem (by simp [hlen]) fun k hk hk' => ?_
  have hk'' : k < sorted.length := by simpa using hk'
  have hx : sorted[k]? = some sorted[k] := List.getElem?_eq_getElem hk''
  have hrot : applyPermutationCycleRotate (fun i => strata.getD i []) permutation strata.length
      (permutation sorted[k]) = strata.getD sorted[k] [] := by
    refine rotate_apply (fun v hv => ?_) (fun u hu v hv heq => ?_) le_rfl
      ((hmem _).mp (getElem_mem hk''))
    · obtain ⟨j, hj, hjv⟩ := hat v hv
      rwa [hperm hjv]
    · obtain ⟨j, -, hju⟩ := hat u hu
      obtain ⟨j', -, hjv⟩ := hat v hv
      rw [hperm hju, hperm hjv] at heq
      subst heq
      exact Option.some.inj (hju.symm.trans hjv)
  rw [hperm hx] at hrot
  simpa using hrot

theorem mem_stratumDeps :
    k ∈ stratumDeps orders dep strata m i ↔
      ∃ p ∈ strata.getD i [], ∃ q, dep.HasEdge p q ∧ m.lookup q = some k := by
  simp only [stratumDeps, mem_flatMap, ((orders.members i).perm_perm _).mem_iff,
    mem_filterMap, DepGraph.mem_neighbors]

omit [DecidableEq P] in
theorem index_unique {α : Type} {l : List α} (h : l.Nodup) {a b : Nat} {x : α}
    (ha : l[a]? = some x) (hb : l[b]? = some x) : a = b := by
  have hlt := (List.getElem?_eq_some_iff.mp ha).1
  exact (List.getElem?_inj hlt h).mp (ha.trans hb.symm)

/-- The visit lists the index of each stratum once. -/
theorem sortedIndices_spec (hm : ∀ p k, m.lookup p = some k → k < strata.length) :
    Finishing (stratumDeps orders dep strata m) (sortedIndices orders dep strata m).reverse ∧
      (sortedIndices orders dep strata m).Nodup ∧
      ∀ i, i ∈ sortedIndices orders dep strata m ↔ i < strata.length := by
  have hclosed : ∀ u ∈ List.range strata.length, ∀ w ∈ stratumDeps orders dep strata m u,
      w ∈ List.range strata.length := by
    intro u _ w hw
    obtain ⟨-, -, q, -, hq⟩ := mem_stratumDeps.mp hw
    exact mem_range.mpr (hm q w hq)
  obtain ⟨hfin, hnodup, hmem⟩ := @finishing_roots _ _ _ (strata.length + 1) _ hclosed (by simp)
  rw [sortedIndices, reverse_reverse]
  exact ⟨hfin, nodup_reverse.mpr hnodup, fun i => by rw [mem_reverse, hmem, mem_range]⟩

/-- **The sorted strata**: the same ones, each after those it depends on. -/
theorem sortResult_spec (hm : ∀ p k, m.lookup p = some k ↔ p ∈ strata.getD k [])
    (hscc : ∀ k, ∀ p ∈ strata.getD k [], ∀ q, q ∈ strata.getD k [] ↔
      Mutual (dep.neighbors orders.edges) p q) :
    ∃ sorted : List Nat, sorted.Nodup ∧ (∀ i, i ∈ sorted ↔ i < strata.length) ∧
      sortResult orders dep strata m = (sorted.map fun i => strata.getD i []) ∧
      ∀ i j a b : Nat, sorted[a]? = some i → sorted[b]? = some j → ∀ p ∈ strata.getD i [],
        ∀ q ∈ strata.getD j [], dep.HasEdge p q → b ≤ a := by
  set deps := stratumDeps orders dep strata m with hdeps
  have hbound (p : P) (k : Nat) (hk : m.lookup p = some k) : k < strata.length := by
    have hp := (hm p k).mp hk
    by_contra hge
    rw [getD_eq_getElem?_getD, List.getElem?_eq_none (Nat.le_of_not_lt hge)] at hp
    cases hp
  obtain ⟨hfin, hnodup, hmem⟩ := @sortedIndices_spec P _ orders dep strata m hbound
  refine ⟨sortedIndices orders dep strata m, hnodup, hmem, rotate_sorted hnodup hmem, ?_⟩
  set out := (sortedIndices orders dep strata m).reverse with hout
  intro i j a b ha hb p hp q hq hedge
  -- a path between strata is a path between any of their predicates
  have hpath : ∀ k, Reach deps j k → ∀ r ∈ strata.getD k [],
      Reach (dep.neighbors orders.edges) q r := by
    intro k hreach
    induction hreach with
    | refl => exact fun r hr => ((hscc j q hq r).mp hr).1
    | tail _ hstep ih =>
      intro r hr
      obtain ⟨p', hp', q', hedge', hq'⟩ := mem_stratumDeps.mp hstep
      have hq' := (hm q' _).mp hq'
      exact ((ih p' hp').tail (DepGraph.mem_neighbors.mpr hedge')).trans ((hscc _ q' hq' r).mp hr).1
  have hmemi : i ∈ out := mem_reverse.mpr (mem_of_getElem? ha)
  obtain ⟨pre, l, hsplit⟩ := append_of_mem hmemi
  have hdep : j ∈ deps i := mem_stratumDeps.mpr ⟨p, hp, q, hedge, (hm q j).mpr hq⟩
  have hrev : sortedIndices orders dep strata m = l.reverse ++ i :: pre.reverse := by
    rw [← reverse_reverse (sortedIndices orders dep strata m), ← hout, hsplit]
    simp
  have hposi : a = l.length := by
    refine index_unique hnodup ha ?_
    rw [hrev, ← length_reverse, List.getElem?_append_right (Nat.le_refl _)]
    simp
  rcases hfin pre i l hsplit i mem_cons_self j hdep with hj | hreach
  · rcases mem_cons.mp hj with rfl | hj
    · exact (index_unique hnodup hb ha).le
    · obtain ⟨b', hb'⟩ := List.getElem?_of_mem (mem_reverse.mpr hj)
      have hlt := (List.getElem?_eq_some_iff.mp hb').1
      rw [length_reverse] at hlt
      have : b = b' := by
        refine index_unique hnodup hb ?_
        rw [hrev, List.getElem?_append_left (by simpa using hlt), hb']
      omega
  · -- the two strata depend on each other, so they are one
    have hback : Reach (dep.neighbors orders.edges) q p := hpath i hreach p hp
    have hqi : q ∈ strata.getD i [] :=
      (hscc i p hp q).mpr ⟨.single (DepGraph.mem_neighbors.mpr hedge), hback⟩
    have hij : i = j := Option.some.inj (((hm q i).mpr hqi).symm.trans ((hm q j).mpr hq))
    subst hij
    exact (index_unique hnodup hb ha).le

/-- Reading the map that `sort_result` returns. -/
theorem lookup_sortResultMap (hm : ∀ p k, m.lookup p = some k → k < strata.length) {j : Nat} :
    (sortResultMap orders dep strata m).lookup p = some j ↔
      ∃ k, m.lookup p = some k ∧ (sortedIndices orders dep strata m)[j]? = some k := by
  have hold : ((sortedIndices orders dep strata m).zipIdx.map Prod.fst).Nodup := by
    rw [zipIdx_map_fst]
    exact (sortedIndices_spec hm).2.1
  have hpairs : (m.toPairs.map Prod.fst).Nodup := by
    rw [HashMap.toPairs, map_map]
    exact m.keys_nodup
  rw [sortResultMap, HashMap.lookup_insertAll]
  · simp only [mem_filterMap, Option.map_eq_some_iff, HashMap.lookup_insertAll hold,
      mk_mem_zipIdx_iff_getElem?, HashMap.mem_toPairs, Prod.exists, Prod.mk.injEq]
    constructor
    · rintro ⟨p', k, hk, j', hj, rfl, rfl⟩
      exact ⟨k, hk, hj⟩
    · rintro ⟨k, hk, hj⟩
      exact ⟨p, k, hk, j, hj, rfl, rfl⟩
  · refine pairwise_map.mpr (pairwise_filterMap.mpr ?_)
    refine (pairwise_map.mp hpairs).imp fun hne e he e' he' => ?_
    obtain ⟨_, -, rfl⟩ := Option.map_eq_some_iff.mp he
    obtain ⟨_, -, rfl⟩ := Option.map_eq_some_iff.mp he'
    exact hne

/-- **Sorting moves what it says**: the rotation by a permutation moves the element at each index to
the index's image, with any bound on its inner loop from the length on, and the map that
`sort_result` returns has for each predicate the index at which its stratum stands now. -/
theorem sortResult_moves {α : Type} [Inhabited α] :
    (∀ (a : Nat → α) (permutation : Nat → Nat) (n : Nat),
      Set.BijOn permutation {i | i < n} {i | i < n} →
        ((List.range n).map (applyPermutationCycleRotate a permutation n)).Perm
          ((List.range n).map a) ∧
        ∀ i < n, applyPermutationCycleRotate a permutation n (permutation i) = a i ∧
          ∀ fuel ≥ n, ((List.range n).foldl (rotateFrom permutation fuel)
            ⟨a, fun _ => false⟩).arr (permutation i) = a i) ∧
    ∀ (orders : HashOrders P) (dep : DepGraph P) (strata : List (List P)) (m : HashMap P Nat),
      (∀ p k, m.lookup p = some k → k < strata.length) → ∀ p,
        ((sortResultMap orders dep strata m).lookup p).map
          (fun k => (sortResult orders dep strata m)[k]?) =
            (m.lookup p).map fun k => strata[k]? := by
  refine ⟨fun a permutation n hbij => ?_, fun orders dep strata m hm p => ?_⟩
  · have harrive {i fuel : Nat} (hi : i < n) (hfuel : n ≤ fuel) :
        ((List.range n).foldl (rotateFrom permutation fuel) ⟨a, fun _ => false⟩).arr
          (permutation i) = a i :=
      rotate_apply (fun v hv => hbij.mapsTo hv) (fun u hu v hv => hbij.injOn hu hv) hfuel hi
    refine ⟨?_, fun i hi => ⟨harrive hi le_rfl, fun fuel => harrive hi⟩⟩
    have hperm : ((List.range n).map permutation).Perm (List.range n) := by
      refine (perm_ext_iff_of_nodup (nodup_range.map_on fun u hu v hv => ?_) nodup_range).mpr
        fun j => ?_
      · exact hbij.injOn (mem_range.mp hu) (mem_range.mp hv)
      · simpa using Set.ext_iff.mp hbij.image_eq j
    refine (hperm.map _).symm.trans ?_
    rw [map_map]
    exact .of_eq (map_congr_left fun i hi => harrive (mem_range.mp hi) le_rfl)
  · obtain ⟨-, hnodup, hmem⟩ := @sortedIndices_spec P _ orders dep strata m hm
    have hsort : sortResult orders dep strata m =
        (sortedIndices orders dep strata m).map fun i => strata.getD i [] :=
      rotate_sorted hnodup hmem
    cases hp : m.lookup p with
    | none =>
      have : (sortResultMap orders dep strata m).lookup p = none := by
        refine Option.eq_none_iff_forall_ne_some.mpr fun j hj => ?_
        obtain ⟨k, hk, -⟩ := (lookup_sortResultMap hm).mp hj
        rw [hp] at hk
        cases hk
      rw [this, Option.map_none, Option.map_none]
    | some k =>
      obtain ⟨j, hj⟩ := List.getElem?_of_mem ((hmem k).mpr (hm p k hp))
      rw [(lookup_sortResultMap hm).mpr ⟨k, hp, hj⟩, hsort, Option.map_some, Option.map_some,
        getElem?_map, hj, Option.map_some, getD_eq_getElem?_getD,
        List.getElem?_eq_getElem (hm p k hp), Option.getD_some]

theorem stratify_eq_ok {prog : ClauseProgram P} :
    stratify orders prog = .ok strata ↔
      (∀ c ∈ (makeDepGraph orders prog).sccs orders, Unnegated (makeDepGraph orders prog) c) ∧
      strata = sortResult orders (makeDepGraph orders prog) ((makeDepGraph orders prog).sccs orders)
        (enterStrata 0 ((makeDepGraph orders prog).sccs orders) ∅) := by
  have hcheck (m' : HashMap P Nat) := @checkStrata_eq_ok P _ (makeDepGraph orders prog)
    ((makeDepGraph orders prog).sccs orders) ∅ m' 0 (fun p k hk => by cases hk)
  unfold stratify
  cases hc : checkStrata (makeDepGraph orders prog) 0
      ((makeDepGraph orders prog).sccs orders) ∅ with
  | ok m' =>
    obtain ⟨hok, rfl⟩ := (hcheck m').mp hc
    simp only [hc, Except.ok.injEq, eq_comm, and_iff_right hok]
  | error msg =>
    simp only [hc, reduceCtorEq, false_iff, not_and]
    intro hok _
    have := (hcheck _).mpr ⟨hok, rfl⟩
    rw [hc] at this
    cases this

/-- A list of strata in an order that respects the dependencies of the clauses. -/
structure IsStratification (clauses : List (Clause P)) (strata : List (List P)) : Prop where
  /-- The strata hold the intensional predicates, -/
  cover : ∀ p, Intensional clauses p ↔ ∃ c ∈ strata, p ∈ c
  /-- each in one stratum only. -/
  disjoint : strata.Pairwise fun c d => ∀ p ∈ c, p ∉ d
  /-- A stratum is one strongly connected component. -/
  component : ∀ c ∈ strata, ∃ p ∈ c, ∀ q, q ∈ c ↔ Recursive clauses p q
  /-- A dependency is in the same stratum or an earlier one, -/
  ordered : ∀ (i j : Nat) (c d : List P), strata[i]? = some c → strata[j]? = some d →
    ∀ p ∈ c, ∀ q ∈ d, DependsOn clauses p q → j ≤ i
  /-- and in an earlier one if it is negated or aggregated. -/
  negated : ∀ (i j : Nat) (c d : List P), strata[i]? = some c → strata[j]? = some d →
    ∀ p ∈ c, ∀ q ∈ d, DependsNegated clauses p q → j < i

/-- The check finds the cycles with a negated dependency. -/
theorem unnegated_iff {g : DepGraph P} {sccs : List (List P)}
    (hneg : ∀ p q, g.HasNegated p q ↔ DependsNegated clauses p q)
    (hclass : ∀ c ∈ sccs, ∀ p ∈ c, Intensional clauses p ∧ ∀ q, q ∈ c ↔ Recursive clauses p q)
    (hcover : ∀ p, Intensional clauses p → ∃ c ∈ sccs, p ∈ c) :
    (∀ c ∈ sccs, Unnegated g c) ↔
      ¬ ∃ p q, DependsNegated clauses p q ∧ DependsStar clauses q p := by
  constructor
  · rintro hun ⟨p, q, hpq, hback⟩
    obtain ⟨-, cl, hcl, hhead, -⟩ := hpq.dependsOn
    obtain ⟨c, hc, hp⟩ := hcover p ⟨cl, hcl, hhead⟩
    have hq : q ∈ c := ((hclass c hc p hp).2 q).mpr ⟨.single hpq.dependsOn, hback⟩
    exact hun c hc p hp q hq ((hneg p q).mpr hpq)
  · rintro hno c hc p hp q hq hn
    exact hno ⟨p, q, (hneg p q).mp hn, (((hclass c hc p hp).2 q).mp hq).2⟩

/-- Stratification fails exactly on a cycle with a negated or aggregated dependency. -/
theorem exists_stratify_iff (orders : HashOrders P) (h : Separated extPreds clauses) :
    (∃ strata, stratify orders (.ofClauses extPreds clauses) = .ok strata) ↔
      ¬ ∃ p q, DependsNegated clauses p q ∧ DependsStar clauses q p := by
  obtain ⟨hclass, -, -, hcover⟩ := sccs_spec orders h
  have hneg (p q : P) := @hasNegated_makeDepGraph P _ clauses extPreds p q orders h
  simp only [stratify_eq_ok, exists_and_left, exists_eq, and_true,
    unnegated_iff hneg hclass hcover]

/-- What stratification returns is a stratification. -/
theorem isStratification_of_stratify (orders : HashOrders P) (h : Separated extPreds clauses)
    (hok : stratify orders (.ofClauses extPreds clauses) = .ok strata) :
    IsStratification clauses strata := by
  obtain ⟨hclass, hne, hdis, hcover⟩ := sccs_spec orders h
  have hedge (p q : P) := @hasEdge_makeDepGraph P _ clauses extPreds p q orders h
  have hneg (p q : P) := @hasNegated_makeDepGraph P _ clauses extPreds p q orders h
  have hreach := reach_neighbors orders h
  rw [stratify_eq_ok] at hok
  generalize makeDepGraph orders (.ofClauses extPreds clauses) = g at *
  generalize g.sccs orders = sccs at *
  rw [unnegated_iff hneg hclass hcover] at hok
  obtain ⟨hun, rfl⟩ := hok
  have hget {p : P} {k : Nat} : p ∈ sccs.getD k [] ↔ ∃ c, sccs[k]? = some c ∧ p ∈ c := by
    rw [getD_eq_getElem?_getD]
    cases sccs[k]? <;> simp
  have hm (p : P) (k : Nat) : (enterStrata 0 sccs ∅).lookup p = some k ↔ p ∈ sccs.getD k [] := by
    rw [lookup_enterStrata hdis fun c _ p _ => AList.notMem_empty p, hget]
    simp
  have hclass' (k : Nat) (p : P) (hp : p ∈ sccs.getD k []) (q : P) :
      q ∈ sccs.getD k [] ↔ Recursive clauses p q := by
    obtain ⟨c, hc, hpc⟩ := hget.mp hp
    rw [getD_eq_getElem?_getD, hc]
    exact (hclass c (mem_of_getElem? hc) p hpc).2 q
  obtain ⟨sorted, hnodup, hmem, heq, hord⟩ := @sortResult_spec P _ orders g sccs _ hm
    (fun k p hp q => by rw [hclass' k p hp q, Mutual, hreach, Recursive])
  rw [heq]
  have hat {i : Nat} {c : List P} (hi : (sorted.map fun i => sccs.getD i [])[i]? = some c) :
      ∃ k, sorted[i]? = some k ∧ sccs.getD k [] = c := by
    rwa [List.getElem?_map, Option.map_eq_some_iff] at hi
  have hord' : ∀ (i j : Nat) (c d : List P), (sorted.map fun i => sccs.getD i [])[i]? = some c →
      (sorted.map fun i => sccs.getD i [])[j]? = some d → ∀ p ∈ c, ∀ q ∈ d,
        DependsOn clauses p q → j ≤ i := by
    intro i j c d hi hj p hp q hq hdep
    obtain ⟨k, hk, rfl⟩ := hat hi
    obtain ⟨l, hl, rfl⟩ := hat hj
    exact hord k l i j hk hl p hp q hq ((hedge p q).mpr hdep)
  refine ⟨fun p => ⟨fun hp => ?_, ?_⟩, ?_, ?_, hord', ?_⟩
  · obtain ⟨c, hc, hpc⟩ := hcover p hp
    obtain ⟨k, hk⟩ := List.getElem?_of_mem hc
    refine ⟨sccs.getD k [], mem_map.mpr ⟨k, (hmem k).mpr ?_, rfl⟩, hget.mpr ⟨c, hk, hpc⟩⟩
    exact (List.getElem?_eq_some_iff.mp hk).1
  · rintro ⟨c, hc, hp⟩
    obtain ⟨k, -, rfl⟩ := mem_map.mp hc
    obtain ⟨c, hk, hpc⟩ := hget.mp hp
    exact (hclass c (mem_of_getElem? hk) p hpc).1
  · refine pairwise_map.mpr (hnodup.imp fun {i j} hij p hi hj => hij ?_)
    exact Option.some.inj (((hm p i).mpr hi).symm.trans ((hm p j).mpr hj))
  · intro c hc
    obtain ⟨k, hk, rfl⟩ := mem_map.mp hc
    have hlt := (hmem k).mp hk
    obtain ⟨p, hp⟩ := hne _ (getElem_mem hlt)
    have hp : p ∈ sccs.getD k [] := hget.mpr ⟨_, List.getElem?_eq_getElem hlt, hp⟩
    exact ⟨p, hp, hclass' k p hp⟩
  · intro i j c d hi hj p hp q hq hdep
    refine Nat.lt_of_le_of_ne (hord' i j c d hi hj p hp q hq hdep.dependsOn) ?_
    rintro rfl
    -- one stratum with a negated dependency inside
    obtain rfl := Option.some.inj (hi.symm.trans hj)
    obtain ⟨k, -, rfl⟩ := hat hi
    refine hun ⟨p, q, hdep, ?_⟩
    exact ((hclass' k p hp q).mp hq).2

/-- **Stratification is correct**, in whatever order the hash maps are walked: it succeeds exactly
when no cycle of dependencies has a negated or aggregated one, and then returns a stratification. -/
theorem stratify_correct (orders : HashOrders P) (h : Separated extPreds clauses) :
    ((∃ strata, stratify orders (.ofClauses extPreds clauses) = .ok strata) ↔
      ¬ ∃ p q, DependsNegated clauses p q ∧ DependsStar clauses q p) ∧
    ∀ strata, stratify orders (.ofClauses extPreds clauses) = .ok strata →
      IsStratification clauses strata :=
  ⟨exists_stratify_iff orders h, fun _ => isStratification_of_stratify orders h⟩

end

/-- `unreached :- node, !reached.  reached :- reached, edge.` with two extensional predicates,
walked backwards. -/
theorem stratify_correct_unreached :
    let clauses : List (Clause String) :=
      [⟨"unreached", [.atom "node", .negAtom "reached"], []⟩,
        ⟨"reached", [.atom "reached", .atom "edge"], []⟩]
    let orders : HashOrders String :=
      ⟨.backwards, .backwards, fun _ => .backwards, fun _ => .backwards, fun _ => .backwards⟩
    stratify orders (.ofClauses ["node", "edge"] clauses) = .ok [["reached"], ["unreached"]] ∧
      IsStratification clauses [["reached"], ["unreached"]] := by
  intro clauses orders
  have hok : stratify orders (.ofClauses ["node", "edge"] clauses) =
      .ok [["reached"], ["unreached"]] := by decide
  refine ⟨hok, (stratify_correct orders ⟨?_, ?_⟩).2 _ hok⟩
  · rintro p hp ⟨c, hc, rfl⟩
    revert c
    decide
  · intro c hc q hread
    have hint : ∀ c ∈ clauses, Intensional clauses c.head := fun c hc => ⟨c, hc, rfl⟩
    rcases mem_cons.mp hc with rfl | hc
    · simp only [Clause.Reads, mem_cons, Literal.atom.injEq, reduceCtorEq, not_mem_nil,
        or_self, or_false, false_or, Literal.negAtom.injEq] at hread
      rcases hread with rfl | rfl
      · exact Or.inl (by decide)
      · exact Or.inr (hint ⟨"reached", _, []⟩ (mem_cons_of_mem _ mem_cons_self))
    · obtain rfl := mem_singleton.mp hc
      simp only [Clause.Reads, mem_cons, Literal.atom.injEq, reduceCtorEq, not_mem_nil,
        or_self, or_false] at hread
      rcases hread with rfl | rfl
      · exact Or.inr (hint _ (mem_cons_of_mem _ mem_cons_self))
      · exact Or.inl (by decide)

end Mangle
