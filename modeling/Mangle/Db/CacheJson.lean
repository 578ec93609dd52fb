import Mangle.Db.Database
import Mangle.Parse.Display

/-!
# Db/CacheJson — the metadata of the cache as JSON

`MetaJson` is what the cache asks of `serde_json`: the metadata is read back, and a text that was
cut is refused.  `MetaJson.strict` writes the text that `to_string_pretty` writes, and reads no
other.
-/

namespace Mangle

open Machinery Parse List

/-- `CacheMeta`, with the time it was made. -/
structure StampedMeta extends CacheMeta where
  createdAt : UInt64
  deriving DecidableEq

/-- `serde_json` for the metadata: what is written is read back, and what was cut is refused. -/
structure MetaJson where
  toStringPretty : StampedMeta → List Char
  fromStr : List Char → Except String StampedMeta
  fromStr_toStringPretty : ∀ info, fromStr (toStringPretty info) = .ok info
  fromStr_cut : ∀ info text, text <+: toStringPretty info → text ≠ toStringPretty info →
    ∃ e, fromStr text = .error e

/-! ## Hexadecimal numbers -/

/-- `{b:02x}`. -/
def hexByte (b : UInt8) : List Char :=
  [Nat.digitChar (b.toNat / 16), Nat.digitChar (b.toNat % 16)]

/-- The bytes of a text of two digits each. -/
def hexDecode : List Char → Option (List UInt8)
  | [] => some []
  | [_] => none
  | a :: b :: s => do
    let hi ← toDigit 16 a
    let lo ← toDigit 16 b
    let bytes ← hexDecode s
    pure (UInt8.ofNat (16 * hi + lo) :: bytes)

theorem toDigit_digitChar {k : Nat} (hk : k < 16) : toDigit 16 k.digitChar = some k := by
  have h : ∀ k : Fin 16, toDigit 16 (k : Nat).digitChar = some (k : Nat) := by decide
  exact h ⟨k, hk⟩

theorem hexDecode_hexByte (bytes : List UInt8) : hexDecode
    (bytes.flatMap hexByte) = some bytes := by
  induction bytes with
  | nil => rfl
  | cons b bytes ih =>
    have hb : b.toNat < 256 := b.toNat_lt
    have hsplit : 16 * (b.toNat / 16) + b.toNat % 16 = b.toNat := Nat.div_add_mod _ _
    rw [flatMap_cons, hexByte, cons_append, cons_append, nil_append, hexDecode,
      toDigit_digitChar (by omega), toDigit_digitChar (by omega), ih]
    change some (UInt8.ofNat (16 * (b.toNat / 16) + b.toNat % 16) :: bytes) = _
    rw [hsplit, UInt8.ofNat_toNat]

/-- A hexadecimal digit is neither a quote nor a brace. -/
theorem notMem_hexByte {c : Char} (hc : c = '"' ∨ c = '}') (bytes : List UInt8) :
    c ∉ bytes.flatMap hexByte := by
  have hdigit : ∀ k : Fin 16, '"' ≠ (k : Nat).digitChar ∧ '}' ≠ (k : Nat).digitChar := by decide
  have hne {k : Nat} (hk : k < 16) : c ≠ k.digitChar := by
    obtain rfl | rfl := hc
    · exact (hdigit ⟨k, hk⟩).1
    · exact (hdigit ⟨k, hk⟩).2
  intro hmem
  obtain ⟨b, -, hmem⟩ := mem_flatMap.mp hmem
  have hb : b.toNat < 256 := b.toNat_lt
  simp only [hexByte, mem_cons, not_mem_nil, or_false] at hmem
  obtain h | h := hmem
  · exact hne (by omega) h
  · exact hne (by omega) h

/-! ## The text of the metadata -/

/-- The text up to the program's hash. -/
def hashKey : List Char := "\x7b\n  \"program_hash\": \"".toList

/-- The text between the program's hash and the fingerprint. -/
def fingerprintKey : List Char := ",\n  \"edb_fingerprint\": \"".toList

/-- The text between the fingerprint and the time. -/
def createdKey : List Char := ",\n  \"created_at\": ".toList

/-- The text of the metadata, up to its closing brace. -/
def metaBody (info : StampedMeta) : List Char :=
  hashKey ++ (info.programHash.flatMap hexByte ++ '"' :: (fingerprintKey ++
    (info.edbFingerprint.flatMap hexByte ++ '"' :: (createdKey ++
      (displayNat info.createdAt.toNat ++ ['\n'])))))

/-- What follows a text, if it is there. -/
def stripText (lit s : List Char) : Option (List Char) :=
  if lit <+: s then some (s.drop lit.length) else none

/-- The metadata of a text. -/
def metaOfText (s : List Char) : Option StampedMeta := do
  let hash := scanUntil '"' (← stripText hashKey s)
  let fingerprint := scanUntil '"' (← stripText fingerprintKey hash.2)
  let created := scanUntil '\n' (← stripText createdKey fingerprint.2)
  if created.2 = ['}'] then do
    let programHash ← hexDecode hash.1
    let edbFingerprint ← hexDecode fingerprint.1
    let createdAt ← decimal created.1
    pure ⟨⟨programHash, edbFingerprint⟩, UInt64.ofNat createdAt⟩
  else none

theorem stripText_append (lit s : List Char) : stripText lit (lit ++ s) = some s := by
  rw [stripText, if_pos (prefix_append lit s), drop_left]

theorem suffix_of_stripText {lit s r : List Char} (h : stripText lit s = some r) : r <:+ s := by
  unfold stripText at h
  split at h <;> cases h
  exact drop_suffix _ _

/-- **The text of the metadata is read back.** -/
theorem metaOfText_metaBody (info : StampedMeta) :
    metaOfText (metaBody info ++ ['}']) = some info := by
  have hnew : '\n' ∉ displayNat info.createdAt.toNat := fun h => by
    cases isDigit_of_mem_displayNat h
  have htext : metaBody info ++ ['}'] = hashKey ++ (info.programHash.flatMap hexByte ++ '"' ::
      (fingerprintKey ++ (info.edbFingerprint.flatMap hexByte ++ '"' :: (createdKey ++
        (displayNat info.createdAt.toNat ++ '\n' :: ['}']))))) := by
    simp [metaBody]
  rw [metaOfText, htext, stripText_append]
  simp only [Option.bind_eq_bind, Option.bind_some,
    scanUntil_of_not_mem (notMem_hexByte (.inl rfl) _), stripText_append,
    scanUntil_of_not_mem hnew, if_true, hexDecode_hexByte, decimal_displayNat]
  simp

/-- A text that is read ends in a brace. -/
theorem brace_of_metaOfText {s : List Char} {info : StampedMeta} (h : metaOfText s = some info) :
    '}' ∈ s := by
  obtain ⟨s₁, h₁, h⟩ := Option.bind_eq_some_iff.mp h
  obtain ⟨s₂, h₂, h⟩ := Option.bind_eq_some_iff.mp h
  obtain ⟨s₃, h₃, h⟩ := Option.bind_eq_some_iff.mp h
  dsimp only at h
  split at h
  next hend =>
    have hsuffix : ['}'] <:+ s := by
      rw [← hend]
      exact scanUntil_suffix.trans <| (suffix_of_stripText h₃).trans <|
        scanUntil_suffix.trans <| (suffix_of_stripText h₂).trans <|
        scanUntil_suffix.trans (suffix_of_stripText h₁)
    exact hsuffix.subset mem_cons_self
  · cases h

theorem brace_notMem_metaBody (info : StampedMeta) : '}' ∉ metaBody info := by
  have hkeys : '}' ∉ hashKey ∧ '}' ∉ fingerprintKey ∧ '}' ∉ createdKey := by decide
  have hdigits : '}' ∉ displayNat info.createdAt.toNat := fun h => by
    cases isDigit_of_mem_displayNat h
  simp [metaBody, hkeys, hdigits, notMem_hexByte (.inr rfl)]

/-- The codec of the text that `to_string_pretty` writes. -/
def MetaJson.strict : MetaJson where
  toStringPretty info := metaBody info ++ ['}']
  fromStr text := (metaOfText text).elim (.error "invalid metadata") .ok
  fromStr_toStringPretty info := by rw [metaOfText_metaBody, Option.elim_some]
  fromStr_cut info text hcut hne := by
    obtain hall | hcut := prefix_concat_iff.mp hcut
    · exact absurd hall hne
    cases hread : metaOfText text with
    | none => exact ⟨_, rfl⟩
    | some info' =>
      exact absurd (hcut.subset (brace_of_metaOfText hread)) (brace_notMem_metaBody info)

end Mangle
