import Mathlib.Data.List.Infix
import Mangle.Machinery.Collect

/-!
# Machinery/ByteReader — length-prefixed records

Writing and reading of 64-bit numbers, flags, texts and lists in a byte string, and the rule by
which a reader is shown to undo a writer: `Reads m bytes a` says that `m`, started anywhere in front
of `bytes`, consumes exactly them and answers `a`.

* `Reads.bind` — readers compose as their byte strings are appended;
* `Reads.record` — a reader that has to end where the buffer ends;
* `crash_bind` — where a reader brings the process down.
-/

namespace Machinery

open List

variable {bs : List UInt8}

/-! ## Numbers -/

/-- The `k` lowest bytes of a number, the lowest first. -/
def toLE : Nat → Nat → List UInt8
  | 0, _ => []
  | k + 1, n => UInt8.ofNat n :: toLE k (n / 256)

/-- The number of a list of bytes, the lowest first. -/
def ofLE : List UInt8 → Nat
  | [] => 0
  | b :: bs => b.toNat + 256 * ofLE bs

@[simp] theorem length_toLE (k n : Nat) : (toLE k n).length = k := by
  induction k generalizing n with
  | zero => rfl
  | succ k ih => simp [toLE, ih]

theorem ofLE_toLE (k n : Nat) : ofLE (toLE k n) = n % 256 ^ k := by
  induction k generalizing n with
  | zero => simp [toLE, ofLE, Nat.mod_one]
  | succ k ih =>
    have hb : (UInt8.ofNat n).toNat = n % 256 := UInt8.toNat_ofNat'
    rw [toLE, ofLE, ih, hb, Nat.pow_succ, Nat.mul_comm (256 ^ k), Nat.mod_mul]

/-- `to_le_bytes` of a 64-bit number. -/
def putU64 (v : UInt64) : List UInt8 := toLE 8 v.toNat

/-- `from_le_bytes` of a 64-bit number. -/
def getU64 (bs : List UInt8) : UInt64 := UInt64.ofNat (ofLE bs)

@[simp] theorem length_putU64 (v : UInt64) : (putU64 v).length = 8 := length_toLE 8 _

@[simp] theorem getU64_putU64 (v : UInt64) : getU64 (putU64 v) = v := by
  have hv : v.toNat % 256 ^ 8 = v.toNat := Nat.mod_eq_of_lt v.toNat_lt
  rw [getU64, putU64, ofLE_toLE, hv]
  exact UInt64.ofNat_toNat

/-- A length, as a 64-bit number. -/
def putLen (n : Nat) : List UInt8 := putU64 (UInt64.ofNat n)

/-- A flag, as a byte. -/
def putBool (b : Bool) : List UInt8 := [if b then 1 else 0]

/-- The bytes of a text. -/
def utf8 (s : String) : List UInt8 := s.toByteArray.data.toList

/-- The text of a list of bytes, if they are valid. -/
def fromUtf8 (bs : List UInt8) : Option String := String.fromUTF8? ⟨bs.toArray⟩

@[simp] theorem fromUtf8_utf8 (s : String) : fromUtf8 (utf8 s) = some s := by
  simp [fromUtf8, utf8, String.fromUTF8?, s.isValidUTF8, String.fromUTF8]

/-- A text after its length. -/
def putStr (s : String) : List UInt8 := putLen (utf8 s).length ++ utf8 s

/-- Bytes after their number. -/
def putBytes (bs : List UInt8) : List UInt8 := putLen bs.length ++ bs

/-- A list after its length. -/
def putList {α : Type} (put : α → List UInt8) (l : List α) : List UInt8 :=
  putLen l.length ++ l.flatMap put

/-! ## Readers -/

/-- A position in a buffer. -/
structure Reader where
  buf : List UInt8
  pos : Nat

/-- Why a reading step has no answer: an error, or a panic or an abort that ends the process. -/
inductive Fault where
  | error (msg : String)
  | crash
  deriving DecidableEq

/-- A reading step. -/
abbrev ReadM := StateT Reader (Except Fault)

namespace ReadM

/-- The next `n` bytes. -/
def take (n : Nat) : ReadM (List UInt8) := fun r =>
  let stop := r.pos + n
  if 2 ^ 64 ≤ stop then .error (.error "length overflow")
  else if r.buf.length < stop then
    .error (.error s!"truncated record: need {stop} bytes, have {r.buf.length}")
  else .ok ((r.buf.drop r.pos).take n, { r with pos := stop })

/-- The error of a reading step. -/
def fail {α : Type} (msg : String) : ReadM α := fun _ => .error (.error msg)

/-- An allocation of `n` bytes, where `memory` bytes can be had at once (`none`: any number). -/
def reserve (memory : Option Nat) (n : Nat) : ReadM Unit := fun r =>
  if memory.any (· < n) then .error .crash else .ok ((), r)

/-- The next 64-bit number. -/
def u64 : ReadM UInt64 := do
  let bs ← take 8
  pure (getU64 bs)

/-- The next byte. -/
def byte : ReadM UInt8 := do
  let bs ← take 1
  pure (bs.headD 0)

/-- The next flag: any byte but zero is true. -/
def bool : ReadM Bool := do
  let b ← byte
  pure (b != 0)

/-- The next length-prefixed bytes. -/
def bytes : ReadM (List UInt8) := do
  let len ← u64
  take len.toNat

/-- The text of bytes that were read. -/
def text (bs : List UInt8) : ReadM String :=
  match fromUtf8 bs with
  | some s => pure s
  | none => fail "invalid utf-8"

/-- The next length-prefixed text. -/
def str : ReadM String := bytes >>= text

/-- The next length-prefixed bytes, decoded on their own. -/
def framed {α : Type} (decode : List UInt8 → Except Fault α) : ReadM α := do
  let bs ← bytes
  fun r => (decode bs).map (·, r)

/-- What is left of the buffer has to be nothing. -/
def done : ReadM Unit := fun r =>
  if r.pos = r.buf.length then .ok ((), r)
  else .error (.error s!"{r.buf.length - r.pos} trailing bytes in record")

/-- The next `n` items. -/
def many {α : Type} (m : ReadM α) : Nat → ReadM (List α)
  | 0 => pure []
  | n + 1 => do
      let a ← m
      let as ← many m n
      pure (a :: as)

/-- The next length-prefixed list. -/
def list {α : Type} (m : ReadM α) : ReadM (List α) := do
  let len ← u64
  many m len.toNat

/-- The next length-prefixed list, into a vector allocated for its length. -/
def vec {α : Type} (memory : Option Nat) (size : Nat) (m : ReadM α) : ReadM (List α) := do
  let len ← u64
  reserve memory (size * len.toNat)
  many m len.toNat

/-- Read a whole buffer, from its start. -/
def run {α : Type} (m : ReadM α) (buf : List UInt8) : Except Fault α :=
  match m ⟨buf, 0⟩ with
  | .ok (a, _) => .ok a
  | .error e => .error e

end ReadM

/-! ## Readers that undo writers -/

variable {α β : Type}

/-- **`m` reads `a` from `bytes`**, wherever in a buffer of addressable length they stand. -/
def Reads (m : ReadM α) (bytes : List UInt8) (a : α) : Prop :=
  ∀ pre suf : List UInt8, (pre ++ (bytes ++ suf)).length < 2 ^ 64 →
    m ⟨pre ++ (bytes ++ suf), pre.length⟩ =
      .ok (a, ⟨pre ++ (bytes ++ suf), pre.length + bytes.length⟩)

theorem Reads.pure (a : α) : Reads (pure a) [] a := fun _ _ _ => rfl

variable {m : ReadM α} {a : α} {f : α → ReadM β}

theorem readM_bind_of_ok {r r' : Reader} (h : m r = .ok (a, r')) :
    (m >>= f) r = f a r' := by
  change (m r >>= fun p => f p.1 p.2) = _
  rw [h]
  rfl

theorem Reads.bind {bs' : List UInt8} {b : β}
    (hm : Reads m bs a) (hf : Reads (f a) bs' b) : Reads (m >>= f) (bs ++ bs') b := by
  intro pre suf hlen
  rw [append_assoc] at hlen ⊢
  have hfirst := hm pre (bs' ++ suf) hlen
  have hsecond := hf (pre ++ bs) suf (by simpa using hlen)
  simp only [append_assoc, length_append] at hfirst hsecond ⊢
  rw [readM_bind_of_ok hfirst, hsecond, Nat.add_assoc]

/-- The last reader of a record, and what its answer is put into. -/
theorem Reads.last {f : α → β} {b : β} (hm : Reads m bs a) (hb : f a = b) :
    Reads (m >>= fun a => Pure.pure (f a)) bs b := by
  subst hb
  simpa using hm.bind (f := fun a => (Pure.pure (f a) : ReadM β)) (Reads.pure (f a))

theorem reads_take (bs : List UInt8) : Reads (ReadM.take bs.length) bs bs := by
  intro pre suf hlen
  have hstop : ¬ 2 ^ 64 ≤ pre.length + bs.length := by simp at hlen; omega
  have hin : ¬ (pre ++ (bs ++ suf)).length < pre.length + bs.length := by simp
  simp only [ReadM.take, if_neg hstop, if_neg hin, drop_left, take_left]

theorem reads_u64 (v : UInt64) : Reads ReadM.u64 (putU64 v) v := by
  have h := reads_take (putU64 v)
  rw [length_putU64] at h
  exact h.last (getU64_putU64 v)

theorem reads_byte (b : UInt8) : Reads ReadM.byte [b] b := (reads_take [b]).last rfl

theorem reads_bool (b : Bool) : Reads ReadM.bool (putBool b) b :=
  (reads_byte (if b then 1 else 0)).last (by cases b <;> rfl)

/-- A length is read back wherever as many bytes follow it. -/
theorem Reads.len {f : Nat → ReadM β} {n : Nat} {b : β} (hn : n ≤ bs.length)
    (hf : Reads (f n) bs b) : Reads (do let v ← ReadM.u64; f v.toNat) (putLen n ++ bs) b := by
  intro pre suf hlen
  have hlt : n < 2 ^ 64 := by simp at hlen; omega
  have hback : (UInt64.ofNat n).toNat = n := UInt64.toNat_ofNat_of_lt' hlt
  refine (reads_u64 (UInt64.ofNat n)).bind (f := fun v => f v.toNat) ?_ pre suf hlen
  rwa [hback]

theorem reads_bytes (bs : List UInt8) : Reads ReadM.bytes (putBytes bs) bs :=
  Reads.len (Nat.le_refl _) (reads_take bs)

theorem reads_framed {decode : List UInt8 → Except Fault α} (h : decode bs = .ok a) :
    Reads (ReadM.framed decode) (putBytes bs) a := by
  have hdecode : Reads (fun r => (decode bs).map (·, r)) [] a := by
    rw [h]
    exact Reads.pure a
  have hall := (reads_bytes bs).bind (f := fun bs r => (decode bs).map (·, r)) hdecode
  rwa [append_nil] at hall

theorem reads_str (s : String) : Reads ReadM.str (putStr s) s := by
  have htext : Reads (ReadM.text (utf8 s)) [] s := by
    rw [ReadM.text, fromUtf8_utf8]
    exact Reads.pure s
  have h := (reads_bytes (utf8 s)).bind htext
  rwa [append_nil] at h

variable {put : α → List UInt8}

theorem reads_many {l : List α} (hm : ∀ a ∈ l, Reads m (put a) a) :
    Reads (ReadM.many m l.length) (l.flatMap put) l := by
  induction l with
  | nil => exact Reads.pure []
  | cons a l ih =>
    have htail := ih fun b hb => hm b (mem_cons_of_mem _ hb)
    exact (hm a mem_cons_self).bind (htail.last rfl)

theorem length_le_flatMap {k : Nat} (hput : ∀ a, k ≤ (put a).length) (l : List α) :
    k * l.length ≤ (l.flatMap put).length := by
  induction l with
  | nil => simp
  | cons a l ih =>
    have ha := hput a
    simp only [length_cons, flatMap_cons, length_append, Nat.mul_succ]
    omega

/-- **A list is read back**, if each of its items is and takes at least a byte. -/
theorem reads_list {l : List α} (hm : ∀ a ∈ l, Reads m (put a) a)
    (hput : ∀ a, 1 ≤ (put a).length) : Reads (ReadM.list m) (putList put l) l :=
  Reads.len (by simpa using length_le_flatMap hput l) (reads_many hm)

variable {memory : Option Nat}

/-- `n` bytes can be had at once. -/
def Granted (memory : Option Nat) (n : Nat) : Prop := ∀ k ∈ memory, n ≤ k

theorem Granted.mono {n k : Nat} (h : Granted memory k) (hn : n ≤ k) : Granted memory n :=
  fun l hl => Nat.le_trans hn (h l hl)

theorem reserve_of_granted {n : Nat} (h : Granted memory n) (r : Reader) :
    ReadM.reserve memory n r = .ok ((), r) := by
  cases memory with
  | none => rfl
  | some k => exact if_neg (by simpa using h k rfl)

theorem reserve_crash_iff {n : Nat} {r : Reader} :
    ReadM.reserve memory n r = .error .crash ↔ ¬ Granted memory n := by
  cases memory <;> simp [ReadM.reserve, Granted]

/-- **A vector is read back** where it can be allocated. -/
theorem reads_vec {l : List α} {size : Nat} (hm : ∀ a ∈ l, Reads m (put a) a)
    (hput : ∀ a, 1 ≤ (put a).length) (h : Granted memory (size * l.length)) :
    Reads (ReadM.vec memory size m) (putList put l) l := by
  refine Reads.len (f := fun n => do ReadM.reserve memory (size * n); ReadM.many m n)
    (by simpa using length_le_flatMap hput l) ?_
  have hreserve : Reads (ReadM.reserve memory (size * l.length)) [] () :=
    fun _ _ _ => reserve_of_granted h _
  exact hreserve.bind (reads_many hm)

/-- The reader, and then the end of the buffer. -/
def ReadM.record (m : ReadM α) : ReadM α := do
  let a ← m
  ReadM.done
  pure a

theorem record_of_ok (h : m ⟨bs, 0⟩ = .ok (a, ⟨bs, bs.length⟩)) : m.record.run bs = .ok a := by
  have hdone : ReadM.done ⟨bs, bs.length⟩ = .ok ((), ⟨bs, bs.length⟩) := if_pos rfl
  have hall : m.record ⟨bs, 0⟩ = .ok (a, ⟨bs, bs.length⟩) := by
    rw [ReadM.record, readM_bind_of_ok h, readM_bind_of_ok hdone]
    rfl
  rw [ReadM.run, hall]

/-- **A record is read back** from the buffer that holds it alone. -/
theorem Reads.record (hm : Reads m bs a) (hlen : bs.length < 2 ^ 64) : m.record.run bs = .ok a :=
  record_of_ok (by simpa using hm [] [] (by simpa using hlen))

/-! ## Cut and extended records -/

/-- What `m` answers depends on the bytes it consumed only, and so does a crash. -/
structure Local (m : ReadM α) : Prop where
  ok : ∀ buf pos a r, m ⟨buf, pos⟩ = .ok (a, r) →
    ∀ suf, m ⟨buf ++ suf, pos⟩ = .ok (a, ⟨buf ++ suf, r.pos⟩) ∧ r.buf = buf
  crash : ∀ buf pos suf, m ⟨buf, pos⟩ = .error .crash → m ⟨buf ++ suf, pos⟩ = .error .crash

theorem Local.pure (a : α) : Local (pure a) where
  ok := by
    rintro buf pos a r ⟨⟩ suf
    exact ⟨rfl, rfl⟩
  crash := nofun

/-- **Where two readers answer.** -/
theorem ok_bind_iff {r r' : Reader} {b : β} :
    (m >>= f) r = .ok (b, r') ↔ ∃ a s, m r = .ok (a, s) ∧ f a s = .ok (b, r') := by
  refine bind_eq_ok.trans ⟨?_, ?_⟩
  · rintro ⟨⟨a, s⟩, hm, hf⟩
    exact ⟨a, s, hm, hf⟩
  · rintro ⟨a, s, hm, hf⟩
    exact ⟨(a, s), hm, hf⟩

/-- **Where two readers crash.** -/
theorem crash_bind {r : Reader} : (m >>= f) r = .error .crash ↔
    m r = .error .crash ∨ ∃ a s, m r = .ok (a, s) ∧ f a s = .error .crash := by
  refine bind_eq_error.trans (or_congr_right ⟨?_, ?_⟩)
  · rintro ⟨⟨a, s⟩, hm, hf⟩
    exact ⟨a, s, hm, hf⟩
  · rintro ⟨a, s, hm, hf⟩
    exact ⟨(a, s), hm, hf⟩

theorem Local.bind (hm : Local m) (hf : ∀ a, Local (f a)) : Local (m >>= f) where
  ok buf pos b r h suf := by
    obtain ⟨a, ⟨buf', stop⟩, hread, hrest⟩ := ok_bind_iff.mp h
    obtain ⟨hext, rfl⟩ := hm.ok _ _ _ _ hread suf
    rw [readM_bind_of_ok hext]
    exact (hf a).ok _ _ _ _ hrest suf
  crash buf pos suf h := by
    obtain hfirst | ⟨a, ⟨buf', stop⟩, hread, hrest⟩ := crash_bind.mp h
    · exact crash_bind.mpr (.inl (hm.crash _ _ suf hfirst))
    · obtain ⟨hext, rfl⟩ := hm.ok _ _ _ _ hread suf
      exact crash_bind.mpr (.inr ⟨a, _, hext, (hf a).crash _ _ suf hrest⟩)

theorem take_ok_iff {n : Nat} {r r' : Reader} : ReadM.take n r = .ok (bs, r') ↔
    r.pos + n < 2 ^ 64 ∧ r.pos + n ≤ r.buf.length ∧ bs = (r.buf.drop r.pos).take n ∧
      r' = ⟨r.buf, r.pos + n⟩ := by
  unfold ReadM.take
  dsimp only
  split
  · exact ⟨nofun, fun h => by omega⟩
  split
  · exact ⟨nofun, fun h => by omega⟩
  · rw [Except.ok.injEq, Prod.mk.injEq]
    exact ⟨fun h => ⟨by omega, by omega, h.1.symm, h.2.symm⟩, fun h => ⟨h.2.2.1.symm, h.2.2.2.symm⟩⟩

theorem take_ne_crash (n : Nat) (r : Reader) : ReadM.take n r ≠ .error .crash := by
  unfold ReadM.take
  dsimp only
  split
  · nofun
  split <;> nofun

theorem local_take (n : Nat) : Local (ReadM.take n) where
  ok buf pos bs r h suf := by
    obtain ⟨hstop, hin, rfl, rfl⟩ := take_ok_iff.mp h
    refine ⟨take_ok_iff.mpr ⟨hstop, ?_, ?_, rfl⟩, rfl⟩ <;> dsimp only at hin ⊢
    · rw [length_append]
      omega
    · rw [drop_append_of_le_length (by omega),
        take_append_of_le_length (by rw [length_drop]; omega)]
  crash buf pos suf h := absurd h (take_ne_crash n _)

theorem local_fail (msg : String) : Local (ReadM.fail msg : ReadM α) := ⟨nofun, nofun⟩

theorem local_reserve (n : Nat) : Local (ReadM.reserve memory n) where
  ok buf pos a r h suf := by
    unfold ReadM.reserve at h ⊢
    split at h
    · cases h
    · next hn => cases h; exact ⟨if_neg hn, rfl⟩
  crash _ _ _ h := reserve_crash_iff.mpr (reserve_crash_iff.mp h)

theorem local_u64 : Local ReadM.u64 := (local_take 8).bind fun _ => .pure _

theorem local_byte : Local ReadM.byte := (local_take 1).bind fun _ => .pure _

theorem local_bool : Local ReadM.bool := local_byte.bind fun _ => .pure _

theorem local_bytes : Local ReadM.bytes := local_u64.bind fun _ => local_take _

theorem local_str : Local ReadM.str := by
  refine local_bytes.bind fun bs => ?_
  unfold ReadM.text
  split
  · exact .pure _
  · exact local_fail _

theorem local_framed (decode : List UInt8 → Except Fault α) : Local (ReadM.framed decode) := by
  refine local_bytes.bind fun bs => ?_
  cases decode bs with
  | error e => exact ⟨nofun, fun _ _ _ h => congrArg _ (Except.error.inj h)⟩
  | ok b => exact .pure b

theorem local_many (hm : Local m) (n : Nat) : Local (ReadM.many m n) := by
  induction n with
  | zero => exact .pure _
  | succ n ih => exact hm.bind fun _ => ih.bind fun _ => .pure _

theorem local_list (hm : Local m) : Local (ReadM.list m) :=
  local_u64.bind fun _ => local_many hm _

theorem local_vec (hm : Local m) (size : Nat) : Local (ReadM.vec memory size m) :=
  local_u64.bind fun _ => (local_reserve _).bind fun _ => local_many hm _

/-- Any other buffer that `bytes` begin, or that begins them, is refused with an error. -/
def Delimits (decode : List UInt8 → Except Fault α) (bytes : List UInt8) : Prop :=
  ∀ buf, buf.length < 2 ^ 64 → buf <+: bytes ∨ bytes <+: buf → buf ≠ bytes →
    ∃ msg, decode buf = .error (.error msg)

/-- Where a reader stops in a buffer that its bytes begin, or that begins them. -/
theorem Reads.stop (hr : Reads m bs a) (hm : Local m) {suf buf : List UInt8} {b : α} {r : Reader}
    (hlen : buf.length < 2 ^ 64) (hbs : (bs ++ suf).length < 2 ^ 64)
    (hbuf : buf <+: bs ++ suf ∨ bs ++ suf <+: buf) (h : m ⟨buf, 0⟩ = .ok (b, r)) :
    b = a ∧ r.pos = bs.length := by
  obtain ⟨x, hx⟩ | ⟨x, rfl⟩ := hbuf
  · have hread := hr [] suf (by simpa using hbs)
    have hext := (hm.ok _ _ _ _ h x).1
    simp only [nil_append, length_nil, Nat.zero_add] at hread
    rw [hx, hread, Except.ok.injEq, Prod.mk.injEq, Reader.mk.injEq] at hext
    exact ⟨hext.1.symm, hext.2.2.symm⟩
  · have hread := hr [] (suf ++ x) (by simpa using hlen)
    simp only [nil_append, length_nil, Nat.zero_add] at hread
    rw [append_assoc, hread] at h
    cases h
    exact ⟨rfl, rfl⟩

theorem eq_of_comparable {l r : List UInt8} (h : l <+: r ∨ r <+: l) (hlen : l.length = r.length) :
    l = r :=
  h.elim (fun h => h.eq_of_length hlen) fun h => (h.eq_of_length hlen.symm).symm

/-- A reader does not crash in a buffer that its bytes begin, or that begins them. -/
theorem Reads.ne_crash (hr : Reads m bs a) (hm : Local m) {suf buf : List UInt8}
    (hlen : buf.length < 2 ^ 64) (hbs : (bs ++ suf).length < 2 ^ 64)
    (hbuf : buf <+: bs ++ suf ∨ bs ++ suf <+: buf) : m ⟨buf, 0⟩ ≠ .error .crash := by
  intro hcrash
  obtain ⟨x, hx⟩ | ⟨x, rfl⟩ := hbuf
  · have hread := hr [] suf (by simpa using hbs)
    have hext := hm.crash _ _ x hcrash
    rw [nil_append, length_nil] at hread
    rw [hx, hread] at hext
    cases hext
  · have hread := hr [] (suf ++ x) (by simpa using hlen)
    rw [nil_append, length_nil, ← append_assoc, hcrash] at hread
    cases hread

/-- **A record has no other beginning and no other end.** -/
theorem Reads.delimits (hr : Reads m bs a) (hm : Local m) (hbs : bs.length < 2 ^ 64) :
    Delimits m.record.run bs := by
  intro buf hlen hbuf hne
  have hbs' : (bs ++ []).length < 2 ^ 64 := by rwa [append_nil]
  have hbuf' : buf <+: bs ++ [] ∨ bs ++ [] <+: buf := by rwa [append_nil]
  match hread : m ⟨buf, 0⟩ with
  | .error .crash => exact absurd hread (hr.ne_crash hm hlen hbs' hbuf')
  | .error (.error e) =>
    have hrec : m.record ⟨buf, 0⟩ = .error (.error e) := by
      change (m ⟨buf, 0⟩ >>= _) = _
      rw [hread]
      rfl
    exact ⟨e, by rw [ReadM.run, hrec]⟩
  | .ok p =>
    have hstop : p.2.pos = bs.length := (hr.stop hm hlen hbs' hbuf' hread).2
    have hdone : p.2.pos ≠ p.2.buf.length := by
      rw [hstop, (hm.ok _ _ _ _ hread []).2]
      exact fun heq => hne (eq_of_comparable hbuf heq.symm)
    have hrec : m.record ⟨buf, 0⟩ =
        .error (.error s!"{p.2.buf.length - p.2.pos} trailing bytes in record") := by
      rw [ReadM.record, readM_bind_of_ok hread]
      change (ReadM.done p.2 >>= _) = _
      rw [ReadM.done, if_neg hdone]
      rfl
    exact ⟨_, by rw [ReadM.run, hrec]⟩

/-- A record whose end is decoded from a slice of its own. -/
theorem Reads.delimits_slice {bs' : List UInt8} {decode : List UInt8 → Except Fault β}
    (hr : Reads m bs a) (hm : Local m) (hd : Delimits decode bs') (hne : bs' ≠ [])
    (hbs : (bs ++ bs').length < 2 ^ 64) {buf : List UInt8} (hlen : buf.length < 2 ^ 64)
    (hbuf : buf <+: bs ++ bs' ∨ bs ++ bs' <+: buf) (hother : buf ≠ bs ++ bs') {b : α} {r : Reader}
    (h : m ⟨buf, 0⟩ = .ok (b, r)) : ∃ msg, decode (buf.drop r.pos) = .error (.error msg) := by
  have hpos : 0 < bs'.length := length_pos_of_ne_nil hne
  rw [(hr.stop hm hlen hbs hbuf h).2]
  refine hd _ (by rw [length_drop]; omega) ?_ fun heq => hother (eq_of_comparable hbuf ?_)
  · have hdrop : (bs ++ bs').drop bs.length = bs' := drop_left
    rw [← hdrop]
    exact hbuf.imp (IsPrefix.drop · _) (IsPrefix.drop · _)
  · have hdrop := congrArg List.length heq
    rw [length_drop] at hdrop
    rw [length_append]
    omega

/-! ## Crashes -/

/-- A reader that never crashes. -/
def Safe (m : ReadM α) : Prop := ∀ r, m r ≠ .error .crash

theorem Safe.pure (a : α) : Safe (pure a) := nofun

theorem Safe.bind (hm : Safe m) (hf : ∀ a, Safe (f a)) : Safe (m >>= f) := by
  intro r h
  obtain h | ⟨a, s, -, h⟩ := crash_bind.mp h
  · exact hm r h
  · exact hf a s h

/-- The crash of two readers of which the second is safe. -/
theorem crash_bind_left (hf : ∀ a, Safe (f a)) {r : Reader} :
    (m >>= f) r = .error .crash ↔ m r = .error .crash := by
  rw [crash_bind]
  exact or_iff_left fun h => h.elim fun a h => h.elim fun s h => hf a s h.2

/-- The crash of two readers of which the first is safe. -/
theorem crash_bind_right (hm : Safe m) {r : Reader} : (m >>= f) r = .error .crash ↔
    ∃ a s, m r = .ok (a, s) ∧ f a s = .error .crash := by
  rw [crash_bind]
  exact or_iff_right (hm r)

theorem safe_take (n : Nat) : Safe (ReadM.take n) := take_ne_crash n

theorem safe_u64 : Safe ReadM.u64 := (safe_take 8).bind fun _ => .pure _

theorem safe_byte : Safe ReadM.byte := (safe_take 1).bind fun _ => .pure _

theorem safe_bytes : Safe ReadM.bytes := safe_u64.bind fun _ => safe_take _

theorem safe_str : Safe ReadM.str := by
  refine safe_bytes.bind fun bs => ?_
  unfold ReadM.text
  split
  · exact .pure _
  · nofun

theorem safe_many (hm : Safe m) (n : Nat) : Safe (ReadM.many m n) := by
  induction n with
  | zero => exact .pure _
  | succ n ih => exact hm.bind fun _ => ih.bind fun _ => .pure _

theorem safe_list (hm : Safe m) : Safe (ReadM.list m) := safe_u64.bind fun _ => safe_many hm _

theorem framed_ok_iff {decode : List UInt8 → Except Fault α} {r s : Reader} :
    ReadM.framed decode r = .ok (a, s) ↔
      ∃ bs, ReadM.bytes r = .ok (bs, s) ∧ decode bs = .ok a := by
  rw [ReadM.framed, ok_bind_iff]
  refine exists_congr fun bs => ?_
  cases decode bs with
  | error e => exact ⟨by rintro ⟨_, _, ⟨⟩⟩, by rintro ⟨_, ⟨⟩⟩⟩
  | ok b => exact ⟨by rintro ⟨_, h, ⟨⟩⟩; exact ⟨h, rfl⟩, by rintro ⟨h, ⟨⟩⟩; exact ⟨s, h, rfl⟩⟩

theorem framed_crash_iff {decode : List UInt8 → Except Fault α} {r : Reader} :
    ReadM.framed decode r = .error .crash ↔
      ∃ bs s, ReadM.bytes r = .ok (bs, s) ∧ decode bs = .error .crash := by
  rw [ReadM.framed, crash_bind_right safe_bytes]
  refine exists_congr fun bs => exists_congr fun s => and_congr_right fun _ => ?_
  cases decode bs with
  | error e =>
    exact ⟨fun h => congrArg _ (Except.error.inj h), fun h => congrArg _ (Except.error.inj h)⟩
  | ok a => exact ⟨nofun, nofun⟩

theorem run_ok_iff {buf : List UInt8} : m.run buf = .ok a ↔ ∃ r, m ⟨buf, 0⟩ = .ok (a, r) := by
  unfold ReadM.run
  split
  · next h =>
    rw [h, Except.ok.injEq]
    exact ⟨by rintro rfl; exact ⟨_, rfl⟩, by rintro ⟨_, ⟨⟩⟩; rfl⟩
  · next h =>
    rw [h]
    exact ⟨nofun, nofun⟩

theorem run_crash_iff {buf : List UInt8} :
    m.run buf = .error .crash ↔ m ⟨buf, 0⟩ = .error .crash := by
  unfold ReadM.run
  split
  · next h => rw [h]; exact ⟨nofun, nofun⟩
  · next h =>
    rw [h]
    exact ⟨fun h => congrArg _ (Except.error.inj h), fun h => congrArg _ (Except.error.inj h)⟩

/-- A record crashes where its reader does. -/
theorem record_crash_iff {buf : List UInt8} :
    m.record.run buf = .error .crash ↔ m ⟨buf, 0⟩ = .error .crash := by
  have hdone : Safe ReadM.done := by
    intro r
    unfold ReadM.done
    split <;> nofun
  rw [run_crash_iff, ReadM.record, crash_bind]
  refine or_iff_left ?_
  rintro ⟨a, s, -, h⟩
  exact (hdone.bind fun _ => .pure a) s h

end Machinery
