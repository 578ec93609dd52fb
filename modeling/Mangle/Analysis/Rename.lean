import Mathlib.Data.Set.Function
import Mangle.Machinery.HashMap
import Mangle.Parse.Parser

/-!
# Analysis/Rename — package names before predicates

`rewrite_unit` puts the package of a source unit in front of the predicates the unit defines.  The
renamer remembers what it answered; `Renamer.Sound` says that it remembers right, so a unit is
rewritten by one renaming (`rewriteUnit_eq`).  The renaming is not applied to inclusion constraints,
and the dot that joins package and predicate may also occur in either of them.

* `rename_captureFree_iff` — when a unit is renamed everywhere, and two units stay apart;
* `rename_captures` — a constraint keeps the old name, and two predicates get the same one.
-/

namespace Mangle.Parse

open Machinery List

/-! ## Source units -/

/-- `ast::Constraints`. -/
structure Constraints where
  consequences : List Atom
  alternatives : List (List Atom)
  deriving DecidableEq

/-- `ast::Decl`. -/
structure Decl where
  atom : Atom
  descr : List Atom
  bounds : Option (List (List Term))
  constraints : Option Constraints
  isTemporal : Bool

/-- `ast::Unit`. -/
structure SourceUnit where
  decls : List Decl
  clauses : List Clause

/-- The declarations of packages look like declarations of these predicates. -/
def IsDirective (sym : String) : Prop := sym = "Package" ∨ sym = "Use"

instance (sym : String) : Decidable (IsDirective sym) := inferInstanceAs (Decidable (_ ∨ _))

/-- `find_name_desc`. -/
def findNameDesc (descr : List Atom) : Option String :=
  descr.findSome? fun a =>
    match a.sym, a.args.head? with
    | "name", some (.string s) => some s
    | _, _ => none

namespace SourceUnit

/-- `find_package_info`: the name of the package, which is empty if there is none.  The packages
that are used decide nothing and are left out. -/
def packageName (u : SourceUnit) : String :=
  u.decls.foldl
    (fun pkg d => if d.atom.sym = "Package" then (findNameDesc d.descr).getD pkg else pkg) ""

/-- `find_defined_preds`. -/
def definedPreds (u : SourceUnit) : List String :=
  u.decls.map (·.atom.sym) ++ u.clauses.map (·.head.sym)

end SourceUnit

/-! ## The renamer -/

/-- `Renamer`. -/
structure Renamer where
  pkgName : String
  definedPreds : List String
  cache : HashMap String String

/-- The name of a predicate of the package. -/
def qualified (pkg name : String) : String := pkg ++ "." ++ name

namespace Renamer

/-- The name `rename_pred` finds for a predicate that is not in the cache.  A reference into a used
package stays as it is, and so does any other predicate the unit does not define. -/
def newName (rn : Renamer) (sym : String) : String :=
  if IsDirective sym then sym
  else if sym ∈ rn.definedPreds then qualified rn.pkgName sym
  else sym

/-- `rename_pred`. -/
def renamePred (sym : String) : StateM Renamer String := do
  let rn ← get
  match rn.cache.lookup sym with
  | some new => pure new
  | none =>
    set { rn with cache := rn.cache.insert sym (rn.newName sym) }
    pure (rn.newName sym)

/-- `rewrite_atom`. -/
def rewriteAtom (a : Atom) : StateM Renamer Atom := do
  pure { a with sym := ← renamePred a.sym }

/-- A name constant in a bound that is the name of a predicate of the unit. -/
def rewriteBound (rn : Renamer) : Term → Term
  | .name s => if s ∈ rn.definedPreds then .name (qualified rn.pkgName s) else .name s
  | t => t

/-- `rewrite_decl`. -/
def rewriteDecl (d : Decl) : StateM Renamer (Option Decl) := do
  if IsDirective d.atom.sym then pure none
  else
    let atom ← rewriteAtom d.atom
    let rn ← get
    pure (some { d with atom, bounds := d.bounds.map (·.map (·.map rn.rewriteBound)) })

/-- A premise with its predicate renamed. -/
def rewritePremise : Literal → StateM Renamer Literal
  | .atom a => do pure (.atom (← rewriteAtom a))
  | .negAtom a => do pure (.negAtom (← rewriteAtom a))
  | .temporalAtom a time => do pure (.temporalAtom (← rewriteAtom a) time)
  | .eq l r => pure (.eq l r)
  | .ineq l r => pure (.ineq l r)

/-- `rewrite_clause`. -/
def rewriteClause (c : Clause) : StateM Renamer Clause := do
  let head ← rewriteAtom c.head
  let premises ← c.premises.mapM rewritePremise
  pure { c with head, premises }

/-- The declarations, then the clauses. -/
def rewriteAll (u : SourceUnit) : StateM Renamer SourceUnit := do
  let decls ← u.decls.filterMapM rewriteDecl
  let clauses ← u.clauses.mapM rewriteClause
  pure { decls, clauses }

end Renamer

/-- The renamer of a unit, with nothing in its cache. -/
def SourceUnit.renamer (u : SourceUnit) : Renamer := ⟨u.packageName, u.definedPreds, ∅⟩

/-- `rewrite_unit`. -/
def rewriteUnit (u : SourceUnit) : SourceUnit :=
  if u.packageName = "" then u else ((Renamer.rewriteAll u).run u.renamer).1

/-! ## Renaming every occurrence -/

section

variable (f : String → String)

/-- The atom with its predicate renamed. -/
def Atom.mapPreds (a : Atom) : Atom := { a with sym := f a.sym }

def Literal.mapPreds : Literal → Literal
  | .atom a => .atom (a.mapPreds f)
  | .negAtom a => .negAtom (a.mapPreds f)
  | .temporalAtom a time => .temporalAtom (a.mapPreds f) time
  | .eq l r => .eq l r
  | .ineq l r => .ineq l r

def Clause.mapPreds (c : Clause) : Clause :=
  { c with head := c.head.mapPreds f, premises := c.premises.map (·.mapPreds f) }

def Constraints.mapPreds (c : Constraints) : Constraints :=
  ⟨c.consequences.map (·.mapPreds f), c.alternatives.map (·.map (·.mapPreds f))⟩

/-- A bound with the predicate it names renamed. -/
def mapBound : Term → Term
  | .name s => .name (f s)
  | t => t

def Decl.mapPreds (d : Decl) : Decl :=
  { d with
    atom := d.atom.mapPreds f
    bounds := d.bounds.map (·.map (·.map (mapBound f)))
    constraints := d.constraints.map (·.mapPreds f) }

/-- The unit with `f` applied to every occurrence of a predicate, and without its directives. -/
def SourceUnit.mapPreds (u : SourceUnit) : SourceUnit :=
  ⟨(u.decls.filter (¬ IsDirective ·.atom.sym)).map (·.mapPreds f), u.clauses.map (·.mapPreds f)⟩

end

/-! ## The cache is no part of the answer -/

namespace Renamer

variable {α β : Type} {base : Renamer}

/-- The renamer is for the same unit, and remembers what it would find anew. -/
structure Sound (base rn : Renamer) : Prop where
  pkgName : rn.pkgName = base.pkgName
  definedPreds : rn.definedPreds = base.definedPreds
  cache : ∀ sym new, rn.cache.lookup sym = some new → new = base.newName sym

theorem Sound.newName {rn : Renamer} (h : Sound base rn) (sym : String) :
    rn.newName sym = base.newName sym := by
  rw [Renamer.newName, Renamer.newName, h.pkgName, h.definedPreds]

theorem Sound.rewriteBound {rn : Renamer} (h : Sound base rn) :
    rn.rewriteBound = base.rewriteBound := by
  funext t
  cases t <;> simp [Renamer.rewriteBound, h.pkgName, h.definedPreds]

/-- In every sound state the computation answers `a`, and leaves a sound state. -/
def Answers (base : Renamer) (m : StateM Renamer α) (a : α) : Prop :=
  ∀ rn, Sound base rn → (m.run rn).1 = a ∧ Sound base (m.run rn).2

namespace Answers

theorem pure (a : α) : Answers base (Pure.pure a) a := fun _ h => ⟨rfl, h⟩

theorem bind {m : StateM Renamer α} {k : α → StateM Renamer β} {a : α} {b : β}
    (hm : Answers base m a) (hk : Answers base (k a) b) : Answers base (m >>= k) b := by
  intro rn h
  obtain ⟨rfl, hs⟩ := hm rn h
  exact hk _ hs

theorem mapM {f : α → StateM Renamer β} {g : α → β} (l : List α)
    (h : ∀ a ∈ l, Answers base (f a) (g a)) : Answers base (l.mapM f) (l.map g) := by
  induction l with
  | nil => exact pure _
  | cons a l ih =>
    rw [mapM_cons, map_cons]
    exact (h a mem_cons_self).bind
      ((ih fun b hb => h b (mem_cons_of_mem _ hb)).bind (pure _))

theorem filterMapM {f : α → StateM Renamer (Option β)} {g : α → Option β} (l : List α)
    (h : ∀ a ∈ l, Answers base (f a) (g a)) : Answers base (l.filterMapM f) (l.filterMap g) := by
  induction l with
  | nil => exact pure _
  | cons a l ih =>
    have ih := ih fun b hb => h b (mem_cons_of_mem _ hb)
    rw [filterMapM_cons, filterMap_cons]
    refine (h a mem_cons_self).bind ?_
    cases g a with
    | none => exact ih
    | some b => exact ih.bind (pure _)

theorem renamePred (sym : String) : Answers base (renamePred sym) (base.newName sym) := by
  intro rn h
  cases hsym : rn.cache.lookup sym with
  | some new =>
    have hrun : (Renamer.renamePred sym).run rn = (new, rn) := by
      simp [Renamer.renamePred, hsym]
      rfl
    rw [hrun]
    exact ⟨h.cache sym new hsym, h⟩
  | none =>
    have hrun : (Renamer.renamePred sym).run rn =
        (rn.newName sym, { rn with cache := rn.cache.insert sym (rn.newName sym) }) := by
      simp [Renamer.renamePred, hsym]
      rfl
    rw [hrun]
    refine ⟨h.newName sym, h.pkgName, h.definedPreds, fun sym' new hnew => ?_⟩
    by_cases heq : sym' = sym
    · subst heq
      rw [AList.lookup_insert] at hnew
      rw [← Option.some.inj hnew, h.newName]
    · exact h.cache sym' new (by rwa [AList.lookup_insert_ne heq] at hnew)

theorem rewriteAtom (a : Atom) : Answers base (rewriteAtom a) (a.mapPreds base.newName) :=
  (renamePred a.sym).bind (pure _)

theorem rewritePremise (l : Literal) :
    Answers base (rewritePremise l) (l.mapPreds base.newName) := by
  cases l with
  | atom a | negAtom a | temporalAtom a time => exact (rewriteAtom a).bind (pure _)
  | eq l r | ineq l r => exact pure _

theorem rewriteClause (c : Clause) : Answers base (rewriteClause c) (c.mapPreds base.newName) :=
  (rewriteAtom c.head).bind ((mapM _ fun l _ => rewritePremise l).bind (pure _))

end Answers

/-- What `rewrite_decl` makes of a declaration. -/
def newDecl (rn : Renamer) (d : Decl) : Decl :=
  { d with
    atom := d.atom.mapPreds rn.newName
    bounds := d.bounds.map (·.map (·.map rn.rewriteBound)) }

theorem Answers.rewriteDecl (d : Decl) : Answers base (rewriteDecl d)
    (if IsDirective d.atom.sym then none else some (base.newDecl d)) := by
  rw [Renamer.rewriteDecl]
  split
  · exact pure _
  · refine (rewriteAtom d.atom).bind fun rn h => ⟨?_, h⟩
    rw [newDecl, ← h.rewriteBound]
    rfl

end Renamer

/-- **A unit is rewritten by one renaming**, its bounds and constraints apart. -/
theorem rewriteUnit_eq {u : SourceUnit} (h : u.packageName ≠ "") :
    rewriteUnit u = ⟨(u.decls.filter (¬ IsDirective ·.atom.sym)).map u.renamer.newDecl,
      u.clauses.map (·.mapPreds u.renamer.newName)⟩ := by
  have hsound : Renamer.Sound u.renamer u.renamer := ⟨rfl, rfl, fun _ _ h => (by cases h)⟩
  have hall : Renamer.Answers u.renamer (Renamer.rewriteAll u)
      ⟨u.decls.filterMap fun d =>
        if IsDirective d.atom.sym then none else some (u.renamer.newDecl d),
        u.clauses.map (·.mapPreds u.renamer.newName)⟩ :=
    (Renamer.Answers.filterMapM _ fun d _ => .rewriteDecl d).bind
      ((Renamer.Answers.mapM _ fun c _ => .rewriteClause c).bind (.pure _))
  have hdecls : (u.decls.filter (¬ IsDirective ·.atom.sym)).map u.renamer.newDecl =
      u.decls.filterMap fun d =>
        if IsDirective d.atom.sym then none else some (u.renamer.newDecl d) := by
    rw [← filterMap_eq_map, filterMap_filter]
    congr 1
    funext d
    by_cases hd : IsDirective d.atom.sym <;> simp [hd]
  rw [rewriteUnit, if_neg h, (hall _ hsound).1, hdecls]

/-! ## When the renaming reaches every occurrence -/

namespace SourceUnit

/-- The predicates the unit defines. -/
def Defines (u : SourceUnit) (p : String) : Prop := p ∈ u.definedPreds ∧ ¬ IsDirective p

instance (u : SourceUnit) (p : String) : Decidable (u.Defines p) :=
  inferInstanceAs (Decidable (_ ∧ _))

/-- The predicates of inclusion constraints. -/
def constraintPreds (u : SourceUnit) : List String :=
  (u.decls.filter (¬ IsDirective ·.atom.sym)).flatMap fun d =>
    d.constraints.toList.flatMap fun c => (c.consequences ++ c.alternatives.flatten).map (·.sym)

/-- The terms of bounds. -/
def boundTerms (u : SourceUnit) : List Term :=
  (u.decls.filter (¬ IsDirective ·.atom.sym)).flatMap fun d =>
    d.bounds.toList.flatMap List.flatten

variable {u : SourceUnit} {p : String}

theorem newName_of_defines (h : u.Defines p) :
    u.renamer.newName p = qualified u.packageName p := by
  rw [Renamer.newName, if_neg h.2, if_pos (show p ∈ u.renamer.definedPreds from h.1)]
  rfl

theorem newName_of_not_defines (h : ¬ u.Defines p) : u.renamer.newName p = p := by
  rw [Renamer.newName]
  split
  · rfl
  · next hd => exact if_neg fun hp => h ⟨hp, hd⟩

end SourceUnit

theorem qualified_ne (pkg name : String) : qualified pkg name ≠ name := by
  intro h
  have hlen := congrArg String.length h
  simp [qualified] at hlen

theorem qualified_inj {pkg p q : String} (h : qualified pkg p = qualified pkg q) : p = q := by
  have hlist := congrArg String.toList h
  simp only [qualified, String.toList_append, append_cancel_left_eq] at hlist
  exact String.toList_inj.mp hlist

theorem SourceUnit.newName_eq_self_iff {u : SourceUnit} {p : String} :
    u.renamer.newName p = p ↔ ¬ u.Defines p := by
  refine ⟨fun h hp => ?_, newName_of_not_defines⟩
  rw [newName_of_defines hp] at h
  exact qualified_ne _ _ h

theorem Atom.mapPreds_eq_self_iff {f : String → String} {a : Atom} :
    a.mapPreds f = a ↔ f a.sym = a.sym := by
  cases a
  simp [mapPreds]

theorem Constraints.mapPreds_eq_self_iff {f : String → String} {c : Constraints} :
    c.mapPreds f = c ↔ ∀ a ∈ c.consequences ++ c.alternatives.flatten, f a.sym = a.sym := by
  obtain ⟨consequences, alternatives⟩ := c
  simp only [mapPreds, mk.injEq, map_eq_self_iff, Atom.mapPreds_eq_self_iff, mem_append,
    mem_flatten]
  constructor
  · rintro ⟨h₁, h₂⟩ a (ha | ⟨l, hl, ha⟩)
    exacts [h₁ a ha, h₂ l hl a ha]
  · exact fun h => ⟨fun a ha => h a (.inl ha), fun l hl a ha => h a (.inr ⟨l, hl, ha⟩)⟩

namespace Renamer

variable {rn : Renamer}

theorem rewriteBound_eq_iff {t : Term} : rn.rewriteBound t = mapBound rn.newName t ↔
    ∀ s, t = .name s → IsDirective s → s ∉ rn.definedPreds := by
  cases t with
  | name s =>
    simp only [rewriteBound, mapBound, newName, Term.name.injEq, forall_eq']
    by_cases hs : s ∈ rn.definedPreds
    · by_cases hd : IsDirective s <;> simp [hs, hd, qualified_ne]
    · by_cases hd : IsDirective s <;> simp [hs, hd]
  | _ => simp [rewriteBound, mapBound]

theorem newDecl_eq_iff {d : Decl} : rn.newDecl d = d.mapPreds rn.newName ↔
    (∀ t ∈ d.bounds.toList.flatMap List.flatten, rn.rewriteBound t = mapBound rn.newName t) ∧
      ∀ c ∈ d.constraints.toList, c.mapPreds rn.newName = c := by
  obtain ⟨atom, descr, bounds, constraints, isTemporal⟩ := d
  simp only [newDecl, Decl.mapPreds, Decl.mk.injEq, true_and, and_true]
  refine and_congr ?_ ?_
  · cases bounds with
    | none => simp
    | some bs =>
      simp only [Option.map_some, Option.some.injEq, map_inj_left, Option.toList_some,
        flatMap_singleton, mem_flatten]
      exact ⟨fun h t ⟨b, hb, ht⟩ => h b hb t ht, fun h b hb t ht => h t ⟨b, hb, ht⟩⟩
  · cases constraints <;> simp [eq_comm]

end Renamer

namespace SourceUnit

variable {u v : SourceUnit}

/-- The renaming reaches every occurrence of a predicate; it keeps the predicates of the unit
apart, and leaves the others as they are. -/
structure CaptureFree (u : SourceUnit) : Prop where
  uniform : rewriteUnit u = u.mapPreds u.renamer.newName
  injective : Set.InjOn u.renamer.newName {p | u.Defines p}
  others : ∀ p, ¬ u.Defines p → u.renamer.newName p = p

theorem uniform_iff (h : u.packageName ≠ "") :
    rewriteUnit u = u.mapPreds u.renamer.newName ↔
      (∀ p ∈ u.constraintPreds, ¬ u.Defines p) ∧
      ∀ s, .name s ∈ u.boundTerms → IsDirective s → s ∉ u.definedPreds := by
  rw [rewriteUnit_eq h, mapPreds, mk.injEq, and_iff_left rfl, map_inj_left]
  simp only [Renamer.newDecl_eq_iff, Renamer.rewriteBound_eq_iff, Constraints.mapPreds_eq_self_iff,
    newName_eq_self_iff, constraintPreds, boundTerms, mem_flatMap, mem_map]
  constructor
  · intro hall
    refine ⟨?_, ?_⟩
    · rintro p ⟨d, hd, c, hc, a, ha, rfl⟩
      exact (hall d hd).2 c hc a ha
    · rintro s ⟨d, hd, b, hb, hs⟩
      exact (hall d hd).1 _ ⟨b, hb, hs⟩ s rfl
  · rintro ⟨hpreds, hbounds⟩ d hd
    refine ⟨?_, fun c hc a ha => hpreds _ ⟨d, hd, c, hc, a, ha, rfl⟩⟩
    rintro t ⟨b, hb, ht⟩ s rfl
    exact hbounds s ⟨d, hd, b, hb, ht⟩

theorem injOn_newName (u : SourceUnit) : Set.InjOn u.renamer.newName {p | u.Defines p} := by
  intro p hp q hq heq
  rw [newName_of_defines hp, newName_of_defines hq] at heq
  exact qualified_inj heq

/-- The predicates of the two units do not get the same name. -/
def Apart (u v : SourceUnit) : Prop :=
  ∀ p q, u.Defines p → v.Defines q → u.renamer.newName p ≠ v.renamer.newName q

/-- `v` is for a package inside the package of `u`, and `u` defines a predicate that `v` defines,
by its name from there. -/
def Shadows (u v : SourceUnit) : Prop :=
  ∃ w, v.packageName = qualified u.packageName w ∧ ∃ q, v.Defines q ∧ u.Defines (qualified w q)

end SourceUnit

theorem toList_qualified (pkg name : String) :
    (qualified pkg name).toList = pkg.toList ++ '.' :: name.toList := by
  simp [qualified]

/-- A package whose name goes on where the first one ends, after a dot. -/
theorem exists_qualified {a b p q : String} {rest : List Char} (hne : a ≠ b)
    (hb : b.toList = a.toList ++ rest) (hp : '.' :: p.toList = rest ++ '.' :: q.toList) :
    ∃ w, b = qualified a w ∧ p = qualified w q := by
  cases rest with
  | nil =>
    rw [append_nil] at hb
    exact absurd (String.toList_inj.mp hb).symm hne
  | cons c rest =>
    obtain ⟨rfl, hrest⟩ := List.cons.inj hp
    refine ⟨String.ofList rest, String.toList_inj.mp ?_, String.toList_inj.mp ?_⟩
    · rw [toList_qualified, String.toList_ofList, hb]
    · rw [toList_qualified, String.toList_ofList]
      exact hrest

/-- Two qualified names are the same if one package is inside the other, and the rest agrees. -/
theorem qualified_eq_iff {a b p q : String} (hne : a ≠ b) : qualified a p = qualified b q ↔
    (∃ w, b = qualified a w ∧ p = qualified w q) ∨ ∃ w, a = qualified b w ∧ q = qualified w p := by
  constructor
  · intro h
    have hlist := congrArg String.toList h
    rw [toList_qualified, toList_qualified, append_eq_append_iff] at hlist
    obtain ⟨rest, hb, hp⟩ | ⟨rest, ha, hq⟩ := hlist
    · exact .inl (exists_qualified hne hb hp)
    · exact .inr (exists_qualified hne.symm ha hq)
  · rintro (⟨w, rfl, rfl⟩ | ⟨w, rfl, rfl⟩) <;> simp [qualified, String.append_assoc]

theorem SourceUnit.apart_iff {u v : SourceUnit} (hne : u.packageName ≠ v.packageName) :
    u.Apart v ↔ ¬ u.Shadows v ∧ ¬ v.Shadows u := by
  constructor
  · intro hapart
    refine ⟨?_, ?_⟩
    · rintro ⟨w, hw, q, hq, hp⟩
      refine hapart _ q hp hq ?_
      rw [newName_of_defines hp, newName_of_defines hq]
      exact (qualified_eq_iff hne).mpr (.inl ⟨w, hw, rfl⟩)
    · rintro ⟨w, hw, p, hp, hq⟩
      refine hapart p _ hp hq ?_
      rw [newName_of_defines hp, newName_of_defines hq]
      exact (qualified_eq_iff hne).mpr (.inr ⟨w, hw, rfl⟩)
  · rintro ⟨huv, hvu⟩ p q hp hq heq
    rw [newName_of_defines hp, newName_of_defines hq, qualified_eq_iff hne] at heq
    obtain ⟨w, hw, rfl⟩ | ⟨w, hw, rfl⟩ := heq
    exacts [huv ⟨w, hw, q, hq, hp⟩, hvu ⟨w, hw, p, hp, hq⟩]

/-- The identifier behind `Package` has no dot, and no other package shadows such a one. -/
theorem SourceUnit.not_shadows {u v : SourceUnit} (h : '.' ∉ v.packageName.toList) :
    ¬ u.Shadows v := by
  rintro ⟨w, hw, -⟩
  rw [hw, toList_qualified] at h
  simp at h

/-- **The renaming is capture-free** just when no inclusion constraint has a predicate the unit
defines (nor a bound the name of a directive), and no package nested in the other shadows it. -/
theorem rename_captureFree_iff {u v : SourceUnit} (hu : u.packageName ≠ "")
    (hv : v.packageName ≠ "") (hne : u.packageName ≠ v.packageName) :
    (u.CaptureFree ↔ (∀ p ∈ u.constraintPreds, ¬ u.Defines p) ∧
      ∀ s, .name s ∈ u.boundTerms → IsDirective s → s ∉ u.definedPreds) ∧
    (v.CaptureFree ↔ (∀ p ∈ v.constraintPreds, ¬ v.Defines p) ∧
      ∀ s, .name s ∈ v.boundTerms → IsDirective s → s ∉ v.definedPreds) ∧
    (u.Apart v ↔ ¬ u.Shadows v ∧ ¬ v.Shadows u) := by
  have hfree {u : SourceUnit} (hu : u.packageName ≠ "") : u.CaptureFree ↔
      (∀ p ∈ u.constraintPreds, ¬ u.Defines p) ∧
        ∀ s, .name s ∈ u.boundTerms → IsDirective s → s ∉ u.definedPreds :=
    ⟨fun h => (SourceUnit.uniform_iff hu).mp h.uniform, fun h =>
      ⟨(SourceUnit.uniform_iff hu).mpr h, u.injOn_newName, fun _ =>
        SourceUnit.newName_of_not_defines⟩⟩
  exact ⟨hfree hu, hfree hv, SourceUnit.apart_iff hne⟩

/-! ## Packages with and without captures -/

/-- `Package name!` -/
def packageDecl (name : String) : Decl :=
  ⟨⟨"Package", []⟩, [⟨"name", [.string name]⟩], none, none, false⟩

/-- `p(1).` -/
def oneFact (p : String) : Clause := ⟨⟨p, [.number 1]⟩, none, [], []⟩

/-- `p(X) :- q(X).` -/
def copyClause (p q : String) : Clause := ⟨⟨p, [.var "X"]⟩, none, [.atom ⟨q, [.var "X"]⟩], []⟩

/-- `Decl p(X) inclusion [q(X)].` -/
def includedDecl (p q : String) : Decl :=
  ⟨⟨p, [.var "X"]⟩, [], none, some ⟨[⟨q, [.var "X"]⟩], []⟩, false⟩

/-- A unit that includes its predicate in one of another package, and one for that package. -/
theorem rename_captureFree_packages :
    let u : SourceUnit :=
      ⟨[packageDecl "store", includedDecl "item" "base.id"], [copyClause "item" "base.id"]⟩
    let v : SourceUnit := ⟨[packageDecl "base"], [oneFact "id", copyClause "known" "id"]⟩
    u.CaptureFree ∧ v.CaptureFree ∧ u.Apart v := by
  intro u v
  obtain ⟨hu, hv, happart⟩ := @rename_captureFree_iff u v (by decide) (by decide) (by decide)
  refine ⟨hu.mpr ⟨by decide, fun s hs => (by cases hs)⟩,
    hv.mpr ⟨by decide, fun s hs => (by cases hs)⟩, happart.mpr ⟨?_, ?_⟩⟩
  · exact SourceUnit.not_shadows (by decide)
  · exact SourceUnit.not_shadows (by decide)

/-- A unit that includes its predicate in another one of its own. -/
def includingUnit : SourceUnit :=
  ⟨[packageDecl "pkg", includedDecl "foo" "bar"], [oneFact "bar", copyClause "foo" "bar"]⟩

/-- **A constraint keeps the name of a predicate that is renamed**, and a predicate of the package
`a` becomes one of the package `a.b`. -/
theorem rename_captures :
    let u : SourceUnit := ⟨[packageDecl "a"], [oneFact "b.c"]⟩
    let v : SourceUnit := ⟨[packageDecl "a.b"], [oneFact "c"]⟩
    ((rewriteUnit includingUnit).constraintPreds = ["bar"] ∧
      (rewriteUnit includingUnit).clauses.map (·.head.sym) = ["pkg.bar", "pkg.foo"] ∧
      ¬ includingUnit.CaptureFree) ∧
    (rewriteUnit u).clauses.map (·.head.sym) = ["a.b.c"] ∧
    (rewriteUnit v).clauses.map (·.head.sym) = ["a.b.c"] ∧ ¬ u.Apart v := by
  refine ⟨⟨rfl, rfl, fun h => ?_⟩, rfl, rfl, fun h => h "b.c" "c" (by decide) (by decide) rfl⟩
  have hfree := ((SourceUnit.uniform_iff (by decide)).mp h.uniform).1
  exact hfree "bar" (by decide) (by decide)

end Mangle.Parse
