import Mangle.Analysis.Rotation
import Mangle.Store.MemStore

/-!
# Analysis/Stratification — strata of a program

`stratify`: the graph of dependencies between predicates, its strongly connected components by two
depth-first searches (`sccs`), the check for negation inside a component, and the order of the
components (`sort_result`).

A predicate symbol is an element of any type.  Of a clause the stratification reads the symbols of
its head and premises, and whether its transform starts with a `do` statement.  Hash maps and sets
are walked in orders of their own (`HashOrders`).  The recursion of a search is bounded by the size
of the graph.
-/

namespace Mangle

open Machinery

/-! ## Clauses -/

/-- What the stratification sees of a premise. -/
inductive Literal (P : Type) where
  | atom (sym : P)
  | negAtom (sym : P)
  | temporalAtom (sym : P)
  | other

/-- What the stratification sees of a clause; of each statement of the transform, whether it has a
variable. -/
structure Clause (P : Type) where
  head : P
  premises : List (Literal P)
  transform : List Bool

/-- `Program` of the analysis: the extensional predicates, and the clauses by predicate. -/
structure ClauseProgram (P : Type) [DecidableEq P] where
  extPreds : List P
  rules : HashMap P (List (Clause P))

/-- The orders in which the maps and sets are walked. -/
structure HashOrders (P : Type) where
  rules : HashOrder
  nodes : HashOrder
  edges : P → HashOrder
  revEdges : P → HashOrder
  members : Nat → HashOrder

/-- The predicates a node depends on, and whether some dependency is negated. -/
abbrev EdgeMap (P : Type) := HashMap P Bool

/-- `DepGraph`. -/
abbrev DepGraph (P : Type) := HashMap P (EdgeMap P)

section

variable {P : Type} [DecidableEq P]

/-- `add_clause`. -/
def ClauseProgram.addClause (prog : ClauseProgram P) (clause : Clause P) : ClauseProgram P :=
  { prog with rules := prog.rules.modify clause.head (· ++ [clause]) }

/-- The program of a list of clauses. -/
def ClauseProgram.ofClauses (extPreds : List P) (clauses : List (Clause P)) : ClauseProgram P :=
  clauses.foldl ClauseProgram.addClause ⟨extPreds, ∅⟩

/-! ## The dependency graph -/

namespace DepGraph

/-- `init_node`. -/
def initNode (g : DepGraph P) (src : P) : DepGraph P := HashMap.orInsert g src ∅

/-- The edges of a node. -/
def edgesOf (g : DepGraph P) (src : P) : EdgeMap P := (AList.lookup src g).getD ∅

/-- `add_edge`: a negated edge stays negated. -/
def addEdge (g : DepGraph P) (src dest : P) (negated : Bool) : DepGraph P :=
  let edges := g.edgesOf src
  if negated then AList.insert src (edges.insert dest true) g
  else if edges.lookup dest = some true then AList.insert src edges g
  else AList.insert src (edges.insert dest false) g

/-- The neighbors of a node, in the order of its edge map. -/
def neighbors (g : DepGraph P) (order : P → HashOrder) (node : P) : List P :=
  (order node).perm (g.edgesOf node).keys

/-- `transpose`. -/
def transpose (g : DepGraph P) (orders : HashOrders P) : DepGraph P :=
  (orders.nodes.perm g.entries).foldl (fun rev e =>
    ((orders.edges e.1).perm e.2.entries).foldl (fun rev d =>
      DepGraph.addEdge (DepGraph.initNode rev d.1) d.1 e.1 d.2) rev) ∅

/-- More than the number of nodes, those without edges of their own included. -/
def size (g : DepGraph P) : Nat := (g.entries.map fun e => e.2.keys.length + 1).sum + 1

end DepGraph

/-- The transform of the clause starts with a `do` statement. -/
def Clause.aggregates (clause : Clause P) : Bool := clause.transform.head? = some false

/-- The dependency a premise makes. -/
def Literal.edge (extPreds : List P) (aggregates : Bool) : Literal P → Option (P × Bool)
  | atom sym | temporalAtom sym => if sym ∈ extPreds then none else some (sym, aggregates)
  | negAtom sym => if sym ∈ extPreds then none else some (sym, true)
  | other => none

/-- The dependencies a clause makes. -/
def Clause.edges (extPreds : List P) (clause : Clause P) : List (P × Bool) :=
  clause.premises.filterMap (Literal.edge extPreds clause.aggregates)

/-- The node and the edges of one predicate's clauses. -/
def addRules (extPreds : List P) (dep : DepGraph P) (s : P) (clauses : List (Clause P)) :
    DepGraph P :=
  clauses.foldl (fun dep clause =>
    (clause.edges extPreds).foldl (fun dep e => dep.addEdge s e.1 e.2) dep) (dep.initNode s)

/-- `make_dep_graph`. -/
def makeDepGraph (orders : HashOrders P) (prog : ClauseProgram P) : DepGraph P :=
  (orders.rules.perm prog.rules.entries).foldl
    (fun dep e => addRules prog.extPreds dep e.1 e.2) ∅

/-! ## Strata -/

/-- `sccs`.  The stack is popped from the end it was pushed to; a component has at least the node
its search started from. -/
def DepGraph.sccs (orders : HashOrders P) (dep : DepGraph P) : List (List P) :=
  let s := (searchAll (dep.neighbors orders.edges) (fun _ l => l) List.cons dep.size
    (orders.nodes.perm dep.keys) ⟨[], []⟩).out
  components ((dep.transpose orders).neighbors orders.revEdges) dep.size s []

/-- Enter the index of a stratum for its predicates. -/
def enterStratum (predToStratum : HashMap P Nat) (i : Nat) (stratum : List P) : HashMap P Nat :=
  stratum.foldl (fun m sym => m.insert sym i) predToStratum

/-- The loop of `stratify` over the components: the index of each predicate's component, unless a
component has a negated edge inside. -/
def checkStrata (dep : DepGraph P) : Nat → List (List P) → HashMap P Nat →
    Except String (HashMap P Nat)
  | _, [], predToStratum => .ok predToStratum
  | i, stratum :: strata, predToStratum =>
      let predToStratum := enterStratum predToStratum i stratum
      if stratum.any fun sym => (dep.edgesOf sym).entries.any fun e =>
          e.2 && decide (predToStratum.lookup e.1 = some i) then
        .error "program cannot be stratified"
      else checkStrata dep (i + 1) strata predToStratum

/-- The strata the predicates of a stratum depend on, in the order they are visited. -/
def stratumDeps (orders : HashOrders P) (dep : DepGraph P) (strata : List (List P))
    (predToStratum : HashMap P Nat) (index : Nat) : List Nat :=
  ((orders.members index).perm (strata.getD index [])).flatMap fun sym =>
    (dep.neighbors orders.edges sym).filterMap predToStratum.lookup

/-- The indices of the strata in the order of the visit. -/
def sortedIndices (orders : HashOrders P) (dep : DepGraph P) (strata : List (List P))
    (predToStratum : HashMap P Nat) : List Nat :=
  (searchAll (stratumDeps orders dep strata predToStratum) (fun _ l => l) List.cons
    (strata.length + 1) (List.range strata.length) ⟨[], []⟩).out.reverse

/-- `sort_result`: visit the strata, those a stratum depends on first, and permute them. -/
def sortResult (orders : HashOrders P) (dep : DepGraph P) (strata : List (List P))
    (predToStratum : HashMap P Nat) : List (List P) :=
  let numStrata := strata.length
  let permutation := (sortedIndices orders dep strata predToStratum).zipIdx.foldl
    (fun f e => Function.update f e.1 e.2) fun _ => 0
  (List.range numStrata).map
    (applyPermutationCycleRotate (fun i => strata.getD i []) permutation numStrata)

/-- The map that `sort_result` returns: the new index of each predicate's stratum. -/
def sortResultMap (orders : HashOrders P) (dep : DepGraph P) (strata : List (List P))
    (predToStratum : HashMap P Nat) : HashMap P Nat :=
  let oldToNewMap := HashMap.insertAll ∅ (sortedIndices orders dep strata predToStratum).zipIdx
  HashMap.insertAll ∅ (predToStratum.toPairs.filterMap fun e =>
    (oldToNewMap.lookup e.2).map fun newIdx => (e.1, newIdx))

/-- `stratify`. -/
def stratify (orders : HashOrders P) (prog : ClauseProgram P) : Except String (List (List P)) :=
  let dep := makeDepGraph orders prog
  let strata := dep.sccs orders
  match checkStrata dep 0 strata ∅ with
  | .ok predToStratum => .ok (sortResult orders dep strata predToStratum)
  | .error msg => .error msg

end

end Mangle
