import Mangle.Machinery.OrdSet
import Mangle.Value

/-!
# ValueOrder — where `Value::cmp` is a linear order

Across kinds values compare by rank, but for numbers with times and with durations, which compare as
nanoseconds although strings and names rank between them.  On values of given kinds the comparison
is linear just when those kinds do not meet:

* `cmp_linear_iff` — the kinds do not hold numbers together with times or durations;
* `cmp_equates_and_cycles` — two values that compare equal, and three in a circle.

Floats are left out: they compare with numbers after rounding.
-/

namespace Mangle

open Machinery

theorem CompoundKind.index_inj {k l : CompoundKind} : k.index = l.index ↔ k = l := by
  cases k <;> cases l <;> decide

namespace Value

/-- A kind of value, other than a float. -/
inductive Kind where
  | number
  | string
  | name
  | time
  | duration
  | compound
  | null
  deriving DecidableEq, Repr

/-- The kind of a value, unless it is a float. -/
def kind? : Value → Option Kind
  | number _ => some .number
  | float _ => none
  | string _ => some .string
  | name _ => some .name
  | time _ => some .time
  | duration _ => some .duration
  | compound .. => some .compound
  | null => some .null

/-- The value and all that it holds are of kinds in `K`. -/
inductive Over (K : Set Kind) : Value → Prop where
  | scalar {v : Value} {k : Kind} (hv : v.kind? = some k) (hk : k ∈ K) (hne : k ≠ .compound) :
      Over K v
  | compound {kind : CompoundKind} {elems : List Value} (hk : .compound ∈ K)
      (helems : ∀ v ∈ elems, Over K v) : Over K (.compound kind elems)

/-- Numbers meet times or durations. -/
def Mixes (K : Set Kind) : Prop := .number ∈ K ∧ (.time ∈ K ∨ .duration ∈ K)

section

variable {K : Set Kind} {v : Value}

theorem Over.kind (h : v.Over K) : ∃ k ∈ K, v.kind? = some k := by
  cases h with
  | scalar hv hk _ => exact ⟨_, hk, hv⟩
  | compound hk _ => exact ⟨_, hk, rfl⟩

theorem Over.elems {kind : CompoundKind} {elems : List Value}
    (h : (Value.compound kind elems).Over K) :
    ∀ v ∈ elems, v.Over K := by
  cases h with
  | scalar hv _ hne => exact absurd (Option.some.inj hv).symm hne
  | compound _ helems => exact helems

end

theorem cmpString_linear (S : Set String) : OrdSet.LinearOn cmpString S where
  eq_iff a _ b _ := by
    unfold cmpString
    split
    · rename_i h
      refine iff_of_false (by simp) ?_
      rintro rfl
      exact String.lt_irrefl _ h
    · split <;> simp_all
  gt_iff a _ b _ := by
    unfold cmpString
    by_cases hab : a < b
    · have hba : ¬ b < a := fun h => String.lt_irrefl _ (String.lt_trans hab h)
      have hne : b ≠ a := by
        rintro rfl
        exact hba hab
      simp [hab, hba, hne]
    · by_cases heq : a = b
      · subst heq
        rw [if_neg hab, if_pos rfl]
        decide
      · have hba : b < a := by
          refine Classical.not_not.mp fun h => heq ?_
          exact String.le_antisymm (String.not_lt.mp h) (String.not_lt.mp hab)
        simp [hab, heq, hba]
  trans a _ b _ c _ := by
    have hlt (x y : String) : cmpString x y = .lt ↔ x < y := by
      unfold cmpString
      by_cases h : x < y
      · simp [h]
      · by_cases heq : x = y <;> simp [h, heq]
    simp only [hlt]
    exact String.lt_trans

@[simp] theorem cmpString_self (s : String) : cmpString s s = .eq :=
  ((cmpString_linear Set.univ).eq_iff s trivial s trivial).mpr rfl

theorem cmpList_eq (s t : List Value) : cmpList s t = List.compareLex cmp s t := by
  induction s generalizing t with
  | nil => cases t <;> simp [cmpList, List.compareLex]
  | cons v s ih =>
    cases t with
    | nil => simp [cmpList, List.compareLex]
    | cons w t => rw [cmpList, List.compareLex_cons_cons, ih]

/-- What a value is compared by: its rank, then what it holds. -/
abbrev Key := Nat × Int × String × Nat × List Value

/-- The key of a value; a float has none of its own. -/
def key : Value → Key
  | number n => (0, n.toInt, "", 0, [])
  | float _ => (0, 0, "", 0, [])
  | string s => (1, 0, s, 0, [])
  | name s => (2, 0, s, 0, [])
  | time t => (3, t.toInt, "", 0, [])
  | duration d => (4, d.toInt, "", 0, [])
  | compound kind elems => (5, 0, "", kind.index, elems)
  | null => (6, 0, "", 0, [])

/-- The comparison of keys, part by part. -/
def cmpKey (x y : Key) : Ordering :=
  (compare x.1 y.1).then <| (cmpInt x.2.1 y.2.1).then <| (cmpString x.2.2.1 y.2.2.1).then <|
    (compare x.2.2.2.1 y.2.2.2.1).then (List.compareLex cmp x.2.2.2.2 y.2.2.2.2)

variable {K : Set Kind}

/-- Where the kinds do not meet, values compare by their keys. -/
theorem cmp_eq_cmpKey (hK : ¬ Mixes K) {v w : Value} (hv : v.Over K)
    (hw : w.Over K) : cmp v w = cmpKey v.key w.key := by
  obtain ⟨k, hk, hv⟩ := hv.kind
  obtain ⟨l, hl, hw⟩ := hw.kind
  unfold Mixes at hK
  -- Different ranks decide at once; equal ones leave one part of the keys to compare.
  cases v <;> cases w <;> try rfl
  case number.float | float.float => cases hw
  case float.number => cases hv
  case number.time | number.duration | time.number | duration.number =>
    cases hv
    cases hw
    exact absurd (by simp [hk, hl]) hK
  case compound.compound =>
    change (compare _ _).then (cmpList _ _) = _
    rw [cmpList_eq, cmpKey, key, key, cmpString_self]
    rfl
  all_goals
    simp only [cmpKey, key, cmpString_self]
    exact Ordering.then_eq.symm

theorem key_injective {v w : Value} (hv : v.Over K) (hw : w.Over K)
    (h : v.key = w.key) : v = w := by
  obtain ⟨k, -, hv⟩ := hv.kind
  obtain ⟨l, -, hw⟩ := hw.kind
  cases v <;> cases w <;> simp_all [kind?, key, Int64.toInt_inj, CompoundKind.index_inj]

/-- The comparison of keys whose lists are over `S`. -/
theorem cmpKey_linear {S : Set Value} (h : OrdSet.LinearOn cmp S) :
    OrdSet.LinearOn cmpKey {x | ∀ v ∈ x.2.2.2.2, v ∈ S} := by
  have hnat : OrdSet.LinearOn (compare : Nat → Nat → Ordering) Set.univ := .ofLawful _ _
  have hint : OrdSet.LinearOn cmpInt Set.univ := .ofLawful compare _
  have hkey := hnat.prod (hint.prod ((cmpString_linear Set.univ).prod (hnat.prod h.compareLex)))
  exact hkey.mono fun x hx => ⟨trivial, trivial, trivial, trivial, hx⟩

/-- Where the kinds do not meet, the comparison is linear, by induction on the nesting. -/
theorem cmp_linear_of_sizeOf_lt (hK : ¬ Mixes K) (n : Nat) :
    OrdSet.LinearOn cmp {v | v.Over K ∧ sizeOf v < n} := by
  induction n with
  | zero => constructor <;> rintro v ⟨-, hv⟩ <;> cases hv
  | succ n ih =>
    refine (cmpKey_linear ih).byKey (f := key) ?_ ?_ ?_
    · rintro v ⟨hv, hsize⟩ w hw
      cases v with
      | compound kind elems =>
        have hlt : sizeOf w < sizeOf elems := List.sizeOf_lt_of_mem hw
        rw [compound.sizeOf_spec] at hsize
        exact ⟨hv.elems w hw, by omega⟩
      | _ => cases hw
    · exact fun v hv w hw => key_injective hv.1 hw.1
    · exact fun v hv w hw => cmp_eq_cmpKey hK hv.1 hw.1

theorem cmp_linear (hK : ¬ Mixes K) : OrdSet.LinearOn cmp {v | v.Over K} where
  eq_iff v hv w hw := by
    have h := cmp_linear_of_sizeOf_lt hK (sizeOf v + sizeOf w + 1)
    exact h.eq_iff v ⟨hv, by omega⟩ w ⟨hw, by omega⟩
  gt_iff v hv w hw := by
    have h := cmp_linear_of_sizeOf_lt hK (sizeOf v + sizeOf w + 1)
    exact h.gt_iff v ⟨hv, by omega⟩ w ⟨hw, by omega⟩
  trans v hv w hw u hu := by
    have h := cmp_linear_of_sizeOf_lt hK (sizeOf v + sizeOf w + sizeOf u + 1)
    exact h.trans v ⟨hv, by omega⟩ w ⟨hw, by omega⟩ u ⟨hu, by omega⟩

theorem cmpList_linear (hK : ¬ Mixes K) :
    OrdSet.LinearOn cmpList {t | ∀ v ∈ t, v.Over K} := by
  have heq : cmpList = List.compareLex cmp := funext fun s => funext (cmpList_eq s)
  rw [heq]
  exact (cmp_linear hK).compareLex

/-- **On values of the kinds `K`, and on tuples of them, the comparison is a linear order** that
tells unequal values apart, just when numbers do not meet times or durations. -/
theorem cmp_linear_iff (K : Set Kind) :
    (OrdSet.LinearOn cmp {v | v.Over K} ∧ OrdSet.LinearOn cmpList {t | ∀ v ∈ t, v.Over K}) ↔
      ¬ (.number ∈ K ∧ (.time ∈ K ∨ .duration ∈ K)) := by
  refine ⟨fun ⟨h, _⟩ ⟨hnumber, hother⟩ => ?_, fun hK => ⟨cmp_linear hK, cmpList_linear hK⟩⟩
  have hone : (number 1).Over K := .scalar rfl hnumber (by decide)
  -- Two values of one nanosecond count compare equal.
  obtain htime | hduration := hother
  · exact absurd ((h.eq_iff _ hone (time 1) (.scalar rfl htime (by decide))).mp (by decide))
      (by decide)
  · exact absurd ((h.eq_iff _ hone (duration 1) (.scalar rfl hduration (by decide))).mp (by decide))
      (by decide)

/-- A number and a time compare equal; a time, a number and a string compare in a circle. -/
theorem cmp_equates_and_cycles :
    (cmp (number 1) (time 1) = .eq ∧ number 1 ≠ time 1) ∧
      cmp (time 0) (number 5) = .lt ∧ cmp (number 5) (string "a") = .lt ∧
        cmp (string "a") (time 0) = .lt := by
  decide

end Value

end Mangle
