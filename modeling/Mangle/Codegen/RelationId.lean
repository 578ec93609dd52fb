import Mangle.Machinery.ByteReader
import Mangle.Machinery.HashMap
import Mangle.Planner.Plan
import Mathlib.Data.Int.ModEq
import Mathlib.Tactic.IntervalCases
import Mathlib.Tactic.Linarith
import Mathlib.Tactic.Positivity

/-!
# Codegen/RelationId — relations by a hash of their names

Generated code passes a relation to its host as a number: the `djb2` hash of its name, in 32 bits.
Hosts enter what they serve a relation from — a sub-host, a file — under the same hash.

* `HashApart.ne` — byte strings whose sums differ modulo 32, that differ in up to six near bytes, or
  that have different numbers of up to three bytes before a common end, have different hashes;
* `relationIds_exact` — hosts find for each relation of the code what was entered for it when all
  its names are so;
* `relationId_collides` — a rule over `ab` and `bA`, which are one relation to a host.
-/

namespace Mangle

open Machinery List

/-! ## The relations of generated code -/

/-- The relations that `emit_condition` passes to the host. -/
def Condition.relations : Condition → List Name
  | cmp .. | call .. => []
  | negation rel _ => [rel]
  | not inner => inner.relations

mutual

/-- The relations that `emit_op` passes to the host. -/
def Op.relations : Op → List Name
  | .nop => []
  | .seq ops => relationsAll ops
  | .iterate source body => source.relation :: body.relations
  | .filter cond body => cond.relations ++ body.relations
  | .insert rel _ => [rel]
  | .bind _ _ body | .matchField _ _ _ body | .iterateList _ _ body => body.relations
  | .groupBy source _ _ _ body => source :: body.relations
  | .hashJoin (.scan build _) (.scan probe _) _ body => build :: probe :: body.relations
  | .hashJoin .. => []

/-- …and the operations of a sequence. -/
def Op.relationsAll : List Op → List Name
  | [] => []
  | op :: ops => op.relations ++ relationsAll ops

end

/-- The names of the relations in the code of a program. -/
def relationNames (ops : List Op) : List String := (Op.relationsAll ops).map Name.text

/-! ## Identifiers -/

/-- One byte of a name. -/
def hashStep (hash : UInt32) (c : UInt8) : UInt32 := ((hash <<< 5) + hash) + c.toUInt32

/-- `djb2_hash`. -/
def djb2Hash (name : String) : UInt32 := (utf8 name).foldl hashStep 5381

/-- The constant by which generated code names a relation. -/
def relationId (name : String) : Int32 := (djb2Hash name).toInt32

/-- `hash_name` of the hosts. -/
def hashName (name : String) : Int32 := ((utf8 name).foldl hashStep 5381).toInt32

/-- The hash of further bytes, as a number without a bound. -/
def djb2From (hash : Nat) (bs : List UInt8) : Nat :=
  bs.foldl (fun hash c => hash * 33 + c.toNat) hash

theorem toNat_hashStep (hash : UInt32) (c : UInt8) :
    (hashStep hash c).toNat = (hash.toNat * 33 + c.toNat) % 2 ^ 32 := by
  have hc := c.toNat_lt
  simp only [hashStep, UInt32.toNat_add, UInt32.toNat_shiftLeft, UInt8.toNat_toUInt32,
    Nat.shiftLeft_eq, UInt32.reduceToNat, Nat.reduceMod, Nat.reducePow]
  omega

theorem toNat_foldl_hashStep (bs : List UInt8) (h : UInt32) :
    (bs.foldl hashStep h).toNat = djb2From h.toNat bs % 2 ^ 32 := by
  have hfold : ∀ (bs : List UInt8) (h : UInt32) (n : Nat), h.toNat = n % 2 ^ 32 →
      (bs.foldl hashStep h).toNat = djb2From n bs % 2 ^ 32 := by
    intro bs
    induction bs with
    | nil => exact fun h n hn => hn
    | cons c bs ih =>
      intro h n hn
      refine ih _ _ ?_
      rw [toNat_hashStep, hn]
      dsimp only
      omega
  exact hfold bs h _ (Nat.mod_eq_of_lt h.toNat_lt).symm

/-- Two names with one identifier have hashes that are the same in 32 bits. -/
theorem modEq_of_relationId_eq {n n' : String} (h : relationId n = relationId n') :
    djb2From 5381 (utf8 n) ≡ djb2From 5381 (utf8 n') [MOD 2 ^ 32] := by
  have hhash : djb2Hash n = djb2Hash n' := congrArg Int32.toUInt32 h
  have := congrArg UInt32.toNat hhash
  rwa [djb2Hash, djb2Hash, toNat_foldl_hashStep, toNat_foldl_hashStep] at this

/-! ## Names with different identifiers -/

section HashApart

variable {h h' : Nat} {bs u v : List UInt8}

theorem djb2From_append (h : Nat) (bs bs' : List UInt8) :
    djb2From h (bs ++ bs') = djb2From (djb2From h bs) bs' := foldl_append

/-- A common end does not matter, because 33 is odd. -/
theorem djb2From_cancel (hmod : djb2From h bs ≡ djb2From h' bs [MOD 2 ^ 32]) :
    h ≡ h' [MOD 2 ^ 32] := by
  induction bs generalizing h h' with
  | nil => exact hmod
  | cons c bs ih =>
    have hstep : h * 33 ≡ h' * 33 [MOD 2 ^ 32] := Nat.ModEq.add_right_cancel' c.toNat (ih hmod)
    exact hstep.cancel_right_of_coprime (by decide)

/-- Modulo 32 the hash is a sum, because 33 is 1. -/
theorem djb2From_mod (h : Nat) (bs : List UInt8) :
    djb2From h bs % 32 = (h + (bs.map UInt8.toNat).sum) % 32 := by
  induction bs generalizing h with
  | nil => simp [djb2From]
  | cons c bs ih =>
    have hstep : djb2From h (c :: bs) = djb2From (h * 33 + c.toNat) bs := rfl
    rw [hstep, ih, map_cons, sum_cons]
    omega

/-- The bytes differ by at most 32. -/
def Near (a b : UInt8) : Prop := a.toNat ≤ b.toNat + 32 ∧ b.toNat ≤ a.toNat + 32

instance (a b : UInt8) : Decidable (Near a b) := inferInstanceAs (Decidable (_ ∧ _))

/-- Near bytes change the difference of two hashes by less than they multiply it. -/
theorem djb2From_near (hnear : List.Forall₂ Near u v) :
    |(djb2From h u : Int) - djb2From h' v| + 1 ≤ 33 ^ u.length * (|(h : Int) - h'| + 1) ∧
      (h ≠ h' → djb2From h u ≠ djb2From h' v) := by
  induction hnear generalizing h h' with
  | nil => simp [djb2From]
  | @cons a b u v hab _ ih =>
    obtain ⟨hle, hne⟩ := @ih (h * 33 + a.toNat) (h' * 33 + b.toNat)
    have hstep : |((h * 33 + a.toNat : Nat) : Int) - (h' * 33 + b.toNat : Nat)| + 1 ≤
        33 * (|(h : Int) - h'| + 1) := by
      have := hab.1
      have := hab.2
      push_cast
      rcases abs_cases ((h : Int) * 33 + a.toNat - (h' * 33 + b.toNat)) with hc | hc <;>
        rcases abs_cases ((h : Int) - h') with hd | hd <;> omega
    refine ⟨hle.trans ?_, fun hh => hne ?_⟩
    · rw [length_cons, pow_succ, mul_assoc]
      exact mul_le_mul_of_nonneg_left hstep (by positivity)
    · have := hab.1
      have := hab.2
      omega

/-- A place where near byte strings differ makes the hashes differ. -/
theorem djb2From_ne (hnear : List.Forall₂ Near u v) (hne : u ≠ v) :
    djb2From h u ≠ djb2From h v := by
  induction hnear generalizing h with
  | nil => exact absurd rfl hne
  | @cons a b u v hab huv ih =>
    by_cases heq : a = b
    · subst heq
      exact ih fun huv => hne (by rw [huv])
    · refine (djb2From_near huv).2 fun hh => heq (UInt8.toNat_inj.mp ?_)
      exact Nat.add_left_cancel hh

theorem djb2From_bounds (h : Nat) (bs : List UInt8) :
    h * 33 ^ bs.length ≤ djb2From h bs ∧ djb2From h bs + 8 ≤ (h + 8) * 33 ^ bs.length := by
  induction bs generalizing h with
  | nil => simp [djb2From]
  | cons c bs ih =>
    obtain ⟨hlo, hhi⟩ := ih (h * 33 + c.toNat)
    have hc := c.toNat_lt
    have hpos : 0 < 33 ^ bs.length := by positivity
    refine ⟨le_trans ?_ hlo, hhi.trans ?_⟩ <;> rw [length_cons, pow_succ] <;> nlinarith

/-- Byte strings that the hash keeps apart. -/
inductive HashApart : List UInt8 → List UInt8 → Prop
  | sum {bs bs' : List UInt8}
      (h : (bs.map UInt8.toNat).sum % 32 ≠ (bs'.map UInt8.toNat).sum % 32) : HashApart bs bs'
  | window (p s : List UInt8) {u v : List UInt8} (hne : u ≠ v) (hlen : u.length ≤ 6)
      (hnear : List.Forall₂ Near u v) : HashApart (p ++ u ++ s) (p ++ v ++ s)
  | short (s : List UInt8) {u v : List UInt8} (hne : u.length ≠ v.length) (hu : u.length ≤ 3)
      (hv : v.length ≤ 3) : HashApart (u ++ s) (v ++ s)

/-- **Byte strings that are apart** have hashes that differ in 32 bits. -/
theorem HashApart.ne {bs bs' : List UInt8} (hapart : HashApart bs bs') :
    ¬ djb2From 5381 bs ≡ djb2From 5381 bs' [MOD 2 ^ 32] := by
  intro hmod
  cases hapart with
  | sum hsum =>
    have h32 : djb2From 5381 bs % 32 = djb2From 5381 bs' % 32 := hmod.of_dvd (by decide)
    rw [djb2From_mod, djb2From_mod] at h32
    omega
  | window p s hne hlen hnear =>
    simp only [djb2From_append] at hmod
    have hmod := djb2From_cancel hmod
    refine @djb2From_ne (djb2From 5381 p) _ _ hnear hne ?_
    obtain ⟨hle, -⟩ := @djb2From_near (djb2From 5381 p) (djb2From 5381 p) _ _ hnear
    have hpow : (33 : Int) ^ _ ≤ 33 ^ 6 := pow_le_pow_right₀ (by norm_num) hlen
    refine Int.natCast_inj.mp (sub_eq_zero.mp (Int.eq_zero_of_abs_lt_dvd
      (Nat.modEq_iff_dvd.mp hmod.symm) ?_))
    simp only [sub_self, abs_zero, zero_add, mul_one] at hle
    have := hle.trans hpow
    norm_num at this ⊢
    omega
  | @short s u v hne hu hv =>
    rw [djb2From_append, djb2From_append] at hmod
    have hmod := djb2From_cancel hmod
    have hbounds (w : List UInt8) (hw : w.length ≤ 3) : djb2From 5381 w < 2 ^ 32 := by
      have := (djb2From_bounds 5381 w).2
      have := Nat.pow_le_pow_right (n := 33) (by norm_num) hw
      omega
    have heq := hmod.eq_of_lt_of_lt (hbounds u hu) (hbounds v hv)
    have hu' := djb2From_bounds 5381 u
    have hv' := djb2From_bounds 5381 v
    interval_cases u.length <;> interval_cases v.length <;> omega

theorem HashApart.symm {bs bs' : List UInt8} (hapart : HashApart bs bs') : HashApart bs' bs := by
  cases hapart with
  | sum hsum => exact .sum hsum.symm
  | window p s hne hlen hnear =>
    exact .window p s hne.symm (hnear.length_eq ▸ hlen) (hnear.flip.imp fun _ _ h => ⟨h.2, h.1⟩)
  | short s hne hu hv => exact .short s hne.symm hv hu

end HashApart

/-! ## Hosts -/

/-- What a host serves each relation from. -/
abbrev Registry (α : Type) := HashMap Int32 α

/-- Enter what a relation is served from. -/
def Registry.enter {α : Type} (r : Registry α) (name : String) (a : α) : Registry α :=
  r.insert (hashName name) a

/-- The routes of a composite host. -/
structure CompositeHost where
  routes : Registry Nat

/-- The files of a CSV host. -/
structure CsvHost where
  fileMap : Registry String

namespace CompositeHost

def new : CompositeHost := ⟨∅⟩

def routeRelation (h : CompositeHost) (relName : String) (hostIndex : Nat) : CompositeHost :=
  ⟨h.routes.enter relName hostIndex⟩

/-- The sub-host that `scan_start`, `scan_delta_start`, `scan_index_start`, `scan_aggregate_start`
and `insert_begin` hand a relation to. -/
def route (h : CompositeHost) (relId : Int32) : Option Nat := h.routes.lookup relId

end CompositeHost

namespace CsvHost

def new : CsvHost := ⟨∅⟩

def addFile (h : CsvHost) (relName path : String) : CsvHost := ⟨h.fileMap.enter relName path⟩

/-- The file that `scan_start` opens. -/
def file (h : CsvHost) (relId : Int32) : Option String := h.fileMap.lookup relId

end CsvHost

variable {α : Type}

/-- **Looking a relation up** finds what was entered for it last, where no other name has its
identifier. -/
theorem lookup_registry {entries : List (String × α)} {n : String}
    (h : ∀ e ∈ entries, n ≠ e.1 → relationId n ≠ relationId e.1) :
    (entries.foldl (fun r e => Registry.enter r e.1 e.2) ∅).lookup (relationId n) =
      entries.reverse.lookup n := by
  induction entries using reverseRecOn with
  | nil => rfl
  | append_singleton entries e ih =>
    obtain ⟨name, a⟩ := e
    have hrest := ih fun e he => h e (mem_append_left _ he)
    rw [foldl_append, reverse_append, foldl_cons, foldl_nil, Registry.enter, reverse_singleton,
      singleton_append, lookup_cons]
    by_cases heq : n = name
    · subst heq
      rw [show relationId n = hashName n from rfl, AList.lookup_insert]
      simp
    · have hid : relationId n ≠ hashName name := h (name, a) (by simp) heq
      rw [AList.lookup_insert_ne hid, hrest, beq_eq_false_iff_ne.mpr heq]

/-- **Relations whose names are apart** have different identifiers, and the hosts find what was
entered for each. -/
theorem relationIds_exact {ops : List Op}
    (h : ∀ n ∈ relationNames ops, ∀ n' ∈ relationNames ops, n ≠ n' → HashApart (utf8 n) (utf8 n')) :
    (∀ n ∈ relationNames ops, ∀ n' ∈ relationNames ops, n ≠ n' → relationId n ≠ relationId n') ∧
      (∀ routes : List (String × Nat), (∀ r ∈ routes, r.1 ∈ relationNames ops) →
        ∀ n ∈ relationNames ops,
          (routes.foldl (fun h r => h.routeRelation r.1 r.2) CompositeHost.new).route
            (relationId n) = routes.reverse.lookup n) ∧
      ∀ files : List (String × String), (∀ f ∈ files, f.1 ∈ relationNames ops) →
        ∀ n ∈ relationNames ops,
          (files.foldl (fun h f => h.addFile f.1 f.2) CsvHost.new).file (relationId n) =
            files.reverse.lookup n := by
  have hids : ∀ n ∈ relationNames ops, ∀ n' ∈ relationNames ops, n ≠ n' →
      relationId n ≠ relationId n' := fun n hn n' hn' hne heq =>
    (h n hn n' hn' hne).ne (modEq_of_relationId_eq heq)
  refine ⟨hids, fun routes hroutes n hn => ?_, fun files hfiles n hn => ?_⟩
  · rw [CompositeHost.new, foldl_hom CompositeHost.mk fun _ _ => rfl]
    exact lookup_registry fun r hr => hids n hn r.1 (hroutes r hr)
  · rw [CsvHost.new, foldl_hom CsvHost.mk fun _ _ => rfl]
    exact lookup_registry fun f hf => hids n hn f.1 (hfiles f hf)

/-- The plan of `c(X) :- l(X), r(X).` -/
def joinPlan (l r : String) : Except String Op :=
  planRule ⟨none, true⟩ 0 ⟨"c", [.var "X"], [.atom l [.var "X"], .atom r [.var "X"]], []⟩

/-- `ab` and `ba` have the same sum, and `c` has it modulo 32. -/
theorem relationIds_exact_join : ∃ op, joinPlan "ab" "ba" = .ok op ∧
    relationNames [op] = ["ab", "ba", "c"] ∧ relationId "ab" ≠ relationId "ba" ∧
      ((CsvHost.new.addFile "ab" "ab.csv").addFile "ba" "ba.csv").file (relationId "ab") =
        some "ab.csv" := by
  obtain ⟨op, hop, hnames⟩ : ∃ op, joinPlan "ab" "ba" = .ok op ∧
      relationNames [op] = ["ab", "ba", "c"] := ⟨_, rfl, by decide +kernel⟩
  have hab : HashApart (utf8 "ab") (utf8 "ba") :=
    .window [] [] (by decide) (by decide) (.cons (by decide) (.cons (by decide) .nil))
  have hac : HashApart (utf8 "ab") (utf8 "c") :=
    @HashApart.short [] [97, 98] [99] (by decide) (by decide) (by decide)
  have hbc : HashApart (utf8 "ba") (utf8 "c") :=
    @HashApart.short [] [98, 97] [99] (by decide) (by decide) (by decide)
  obtain ⟨hids, -, hfiles⟩ := @relationIds_exact [op] (by
    rw [hnames]
    simp [hab, hac, hbc, hab.symm, hac.symm, hbc.symm])
  rw [hnames] at hids hfiles
  exact ⟨op, hop, hnames, hids "ab" (by simp) "ba" (by simp) (by decide),
    hfiles [("ab", "ab.csv"), ("ba", "ba.csv")] (by simp) "ab" (by simp)⟩

/-- **Two relations of one rule collide**: `c(X) :- ab(X), bA(X).` reads `ab` from the file of
`bA`. -/
theorem relationId_collides : ∃ op, joinPlan "ab" "bA" = .ok op ∧
    relationNames [op] = ["ab", "bA", "c"] ∧ relationId "ab" = relationId "bA" ∧
      ((CsvHost.new.addFile "ab" "ab.csv").addFile "bA" "bA.csv").file (relationId "ab") =
        some "bA.csv" :=
  ⟨_, rfl, by decide +kernel, by decide +kernel, by decide +kernel⟩

end Mangle
