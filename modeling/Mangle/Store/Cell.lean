import Mangle.Value

/-!
# Store/Cell — tuples as flat rows of cells

A stored row is flat: a compound becomes a `compoundStart` marker followed by the cells of its
elements.  Reading a row back is a parser over the cells; running off the end of a row is the
index panic of the source, `none` here.  `unflattenTuple_flattenTuple` and `flattenTuple_injective`
say that nothing is lost.
-/

namespace Mangle

open List

/-- A storage cell: a scalar, or the start of a compound with `n` elements. -/
inductive Cell where
  | val (v : Value)
  | compoundStart (kind : CompoundKind) (n : Nat)
  deriving DecidableEq, Inhabited

/-- A stored tuple. -/
abbrev Row := List Cell

instance : LawfulBEq Row := inferInstance

mutual

/-- The cells of one value. -/
def flattenValue : Value → Row
  | .compound kind elems => .compoundStart kind elems.length :: flattenTuple elems
  | .number n => [.val (.number n)]
  | .float bits => [.val (.float bits)]
  | .string s => [.val (.string s)]
  | .name s => [.val (.name s)]
  | .time t => [.val (.time t)]
  | .duration d => [.val (.duration d)]
  | .null => [.val .null]

/-- The cells of a tuple, one value after the other. -/
def flattenTuple : Tuple → Row
  | [] => []
  | v :: vs => flattenValue v ++ flattenTuple vs

end

/-- Run a reader `n` times, collecting what it reads. -/
def readN {α : Type} (read : Row → Option (α × Row)) : Nat → Row → Option (List α × Row)
  | 0, cells => some ([], cells)
  | n + 1, cells => do
      let (a, cells) ← read cells
      let (as, cells) ← readN read n cells
      pure (a :: as, cells)

/-- Read one logical value.  The fuel bounds the nesting; the length of the row is enough. -/
def unflattenOne : Nat → Row → Option (Value × Row)
  | 0, _ => none
  | _ + 1, [] => none
  | _ + 1, .val v :: cells => some (v, cells)
  | fuel + 1, .compoundStart kind n :: cells => do
      let (elems, cells) ← readN (unflattenOne fuel) n cells
      pure (.compound kind elems, cells)

/-- Step over one logical value. -/
def skipOne : Nat → Row → Option Row
  | 0, _ => none
  | _ + 1, [] => none
  | _ + 1, .val _ :: cells => some cells
  | fuel + 1, .compoundStart _ n :: cells =>
      (readN (fun cells => (skipOne fuel cells).map ((), ·)) n cells).map Prod.snd

/-- The number of logical values a row holds, with one unit of fuel for each. -/
def countFrom : Nat → Row → Option Nat
  | _, [] => some 0
  | 0, _ :: _ => none
  | fuel + 1, cells => do
      let rest ← skipOne cells.length cells
      let n ← countFrom fuel rest
      pure (n + 1)

/-- `count_logical_values`. -/
def countLogicalValues (cells : Row) : Option Nat := countFrom cells.length cells

/-- Read `nCols` logical values back. -/
def unflattenTuple (cells : Row) (nCols : Nat) : Option Tuple :=
  (readN (unflattenOne cells.length) nCols cells).map Prod.fst

/-- The first cell of each of the first `n` logical columns: what the indexes are keyed by. -/
def columnKeys : Nat → Row → Option (List Cell)
  | 0, _ => some []
  | _ + 1, [] => none
  | n + 1, c :: cells => do
      let rest ← skipOne (cells.length + 1) (c :: cells)
      let keys ← columnKeys n rest
      pure (c :: keys)

/-- The index key of a value. -/
def valueToIndexKey : Value → Cell
  | .compound kind elems => .compoundStart kind elems.length
  | v => .val v

/-- Whether a value is not a compound. -/
def Value.isScalar : Value → Bool
  | .compound _ _ => false
  | _ => true

/-- The index key of a scalar is that of no other value. -/
theorem Value.index_eq_iff {v key : Value} (hkey : key.isScalar = true) :
    valueToIndexKey v = valueToIndexKey key ↔ v = key := by
  cases key <;> cases v <;> simp_all [valueToIndexKey, Value.isScalar]

/-! ## Reading back what was flattened -/

/-- A value occupies at least the cell its index key stands in. -/
theorem flattenValue_eq_cons (v : Value) : ∃ cells, flattenValue v = valueToIndexKey v ::
    cells := by
  cases v <;> simp [flattenValue, valueToIndexKey]

@[simp] theorem length_flattenValue_pos (v : Value) : 0 < (flattenValue v).length := by
  obtain ⟨cells, h⟩ := flattenValue_eq_cons v
  simp [h]

theorem length_le_flattenTuple (t : Tuple) : t.length ≤ (flattenTuple t).length := by
  induction t with
  | nil => simp [flattenTuple]
  | cons v vs ih =>
    have := length_flattenValue_pos v
    simp only [flattenTuple, length_append, length_cons]
    omega

/-- A reader that reads each value of `t` off the front of a row reads the whole tuple. -/
theorem readN_flattenTuple (read : Row → Option (Value × Row)) (t : Tuple)
    (h : ∀ v ∈ t, ∀ rest, read (flattenValue v ++ rest) = some (v, rest)) (rest : Row) :
    readN read t.length (flattenTuple t ++ rest) = some (t, rest) := by
  induction t with
  | nil => simp [readN, flattenTuple]
  | cons v vs ih =>
    have hv := h v (by simp) (flattenTuple vs ++ rest)
    have hvs := ih fun w hw => h w (mem_cons_of_mem v hw)
    simp [readN, flattenTuple, hv, hvs]

mutual

/-- **One value is read back**, whatever follows it, once the fuel covers its cells. -/
theorem unflattenOne_flattenValue : ∀ (v : Value) (fuel : Nat) (rest : Row),
    (flattenValue v).length ≤ fuel → unflattenOne fuel (flattenValue v ++ rest) = some (v, rest)
  | .compound kind elems, fuel, rest, h => by
      obtain ⟨fuel, rfl⟩ : ∃ f, fuel = f + 1 :=
        ⟨fuel - 1, by simp only [flattenValue, length_cons] at h; omega⟩
      simp only [flattenValue, length_cons, Nat.add_le_add_iff_right] at h
      have := readN_flattenTuple (unflattenOne fuel) elems (unflattenOne_of_mem elems fuel h) rest
      simp [flattenValue, unflattenOne, this]
  | .number n, fuel + 1, rest, _ => rfl
  | .float b, fuel + 1, rest, _ => rfl
  | .string s, fuel + 1, rest, _ => rfl
  | .name s, fuel + 1, rest, _ => rfl
  | .time t, fuel + 1, rest, _ => rfl
  | .duration d, fuel + 1, rest, _ => rfl
  | .null, fuel + 1, rest, _ => rfl
  | .number _, 0, _, h | .float _, 0, _, h | .string _, 0, _, h | .name _, 0, _, h
  | .time _, 0, _, h | .duration _, 0, _, h | .null, 0, _, h => by simp [flattenValue] at h

/-- …and so is each value of a tuple whose cells the fuel covers. -/
theorem unflattenOne_of_mem : ∀ (t : Tuple) (fuel : Nat), (flattenTuple t).length ≤ fuel →
    ∀ v ∈ t, ∀ rest, unflattenOne fuel (flattenValue v ++ rest) = some (v, rest)
  | v :: vs, fuel, h, w, hw, rest => by
      simp only [flattenTuple, length_append] at h
      rcases mem_cons.mp hw with heq | hw
      · rw [heq]
        exact unflattenOne_flattenValue v fuel rest (by omega)
      · exact unflattenOne_of_mem vs fuel (by omega) w hw rest

end

theorem readN_skip {α : Type} (read : Row → Option (α × Row)) (n : Nat) (cells : Row) :
    (readN (fun cells => (read cells).map fun p => ((), p.2)) n cells).map Prod.snd =
      (readN read n cells).map Prod.snd := by
  induction n generalizing cells with
  | zero => rfl
  | succ n ih =>
    cases hread : read cells with
    | none => simp [readN, hread]
    | some p =>
      have := ih p.2
      simp only [Option.map_eq_bind, Function.comp_def] at this ⊢
      simpa [readN, hread, Option.bind_assoc] using this

/-- Stepping over a value is reading it and dropping what was read. -/
theorem skipOne_eq (fuel : Nat) (cells : Row) :
    skipOne fuel cells = (unflattenOne fuel cells).map Prod.snd := by
  induction fuel generalizing cells with
  | zero => rfl
  | succ fuel ih =>
    match cells with
    | [] | .val _ :: _ => rfl
    | .compoundStart kind n :: cells =>
      simp only [skipOne, unflattenOne, ih, Option.map_map, Function.comp_def]
      rw [readN_skip]
      cases readN (unflattenOne fuel) n cells <;> rfl

/-- **Skipping a value drops exactly its cells.** -/
theorem skipOne_flattenValue (v : Value) (fuel : Nat) (rest : Row)
    (h : (flattenValue v).length ≤ fuel) : skipOne fuel (flattenValue v ++ rest) = some rest := by
  rw [skipOne_eq, unflattenOne_flattenValue v fuel rest h, Option.map_some]

/-- **Flattening is lossless.** -/
@[simp] theorem unflattenTuple_flattenTuple (t : Tuple) :
    unflattenTuple (flattenTuple t) t.length = some t := by
  have := readN_flattenTuple (unflattenOne (flattenTuple t).length) t
    (unflattenOne_of_mem t _ (Nat.le_refl _)) []
  simp only [append_nil] at this
  simp [unflattenTuple, this]

theorem countFrom_flattenTuple (t : Tuple) (fuel : Nat) (h : t.length ≤ fuel) :
    countFrom fuel (flattenTuple t) = some t.length := by
  induction t generalizing fuel with
  | nil => simp [flattenTuple, countFrom]
  | cons v vs ih =>
    obtain ⟨fuel, rfl⟩ : ∃ f, fuel = f + 1 :=
      ⟨fuel - 1, by simp only [length_cons] at h; omega⟩
    have hskip := skipOne_flattenValue v (flattenTuple (v :: vs)).length (flattenTuple vs)
      (by simp [flattenTuple])
    have hrest := ih fuel (by simpa using h)
    obtain ⟨cells, hv⟩ := flattenValue_eq_cons v
    simp only [flattenTuple, hv, cons_append] at hskip ⊢
    simp only [countFrom, hskip, Option.bind_eq_bind, Option.bind_some, hrest]
    rfl

/-- **A flattened tuple counts its columns.** -/
@[simp] theorem countLogicalValues_flattenTuple (t : Tuple) :
    countLogicalValues (flattenTuple t) = some t.length :=
  countFrom_flattenTuple t _ (length_le_flattenTuple t)

/-- **The index keys of a flattened tuple are the keys of its values.** -/
@[simp] theorem columnKeys_flattenTuple (t : Tuple) :
    columnKeys t.length (flattenTuple t) = some (t.map valueToIndexKey) := by
  induction t with
  | nil => simp [columnKeys]
  | cons v vs ih =>
    have hskip := skipOne_flattenValue v (flattenTuple (v :: vs)).length (flattenTuple vs)
      (by simp [flattenTuple])
    obtain ⟨cells, hv⟩ := flattenValue_eq_cons v
    simp only [flattenTuple, hv, cons_append, length_cons] at hskip ⊢
    simp only [columnKeys, hskip, Option.bind_eq_bind, Option.bind_some, ih]
    rfl

/-- **Distinct tuples have distinct rows.** -/
theorem flattenTuple_injective : Function.Injective flattenTuple := by
  intro t u h
  have hlen : t.length = u.length := by
    have := congrArg countLogicalValues h
    simpa using this
  have := congrArg (fun cells => unflattenTuple cells t.length) h
  simpa [hlen ▸ unflattenTuple_flattenTuple u] using this

@[simp] theorem flattenTuple_inj {t u : Tuple} : flattenTuple t = flattenTuple u ↔ t = u :=
  flattenTuple_injective.eq_iff

theorem flattenTuple_append (t u : Tuple) :
    flattenTuple (t ++ u) = flattenTuple t ++ flattenTuple u := by
  induction t with
  | nil => rfl
  | cons v vs ih => rw [cons_append, flattenTuple, flattenTuple, ih, append_assoc]

/-- **The four functions agree on where values end**: a tuple and its number of columns are read
back from its cells, a skip at a column's first cell leaves the cells behind that column, and no two
tuples have the same cells. -/
theorem flattenTuple_lossless :
    (∀ t : Tuple, unflattenTuple (flattenTuple t) t.length = some t ∧
      countLogicalValues (flattenTuple t) = some t.length) ∧
    (∀ (pre : Tuple) (v : Value) (post : Tuple),
      let cells := (flattenTuple (pre ++ v :: post)).drop (flattenTuple pre).length
      skipOne cells.length cells = some (cells.drop (flattenValue v).length)) ∧
    Function.Injective flattenTuple := by
  refine ⟨fun t => ⟨unflattenTuple_flattenTuple t, countLogicalValues_flattenTuple t⟩,
    fun pre v post => ?_, flattenTuple_injective⟩
  simp only [flattenTuple_append, drop_left, flattenTuple]
  exact skipOne_flattenValue v _ _ (by simp)

end Mangle
