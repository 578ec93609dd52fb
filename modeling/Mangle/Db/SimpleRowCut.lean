import Mangle.Db.SimpleRow
import Mangle.Parse.FactCut

/-!
# Db/SimpleRowCut — a fact file that was cut

The end of a fact file may be missing, when its writer stopped.  A cut is noticed: a count that was
cut promises lines that are not there, a fact that was cut does not parse, and lines that are
missing are looked for.  Only the lines of facts without arguments are not, but their number is in
the header.

* `readSimpleRow_cut` — **what is read from a cut file is what was written**, if anything is read.
-/

namespace Mangle

open Machinery Parse List

variable {n : Nat} {torn : Bool} {f : TextFile} {v : List Char} {name : String}
  {t : String × List Tuple} {tables : List (String × List Tuple)} {data : RowTables}
  {info : PredInfo} {infos : List PredInfo}

/-! ## Numbers that were cut -/

/-- The first digits of a number are a number; it is positive if the number was, and another one
only if there was more than one digit. -/
theorem exists_of_prefix_displayNat {p : List Char} (hp : p <+: displayNat n) (hne : p ≠ []) :
    ∃ m, p = displayNat m ∧ (m = n ∨ 10 ≤ n ∧ 0 < m) := by
  induction n using Nat.strong_induction_on with
  | _ n ih =>
    by_cases hlt : n < 10
    · have hone : displayNat n = [n.digitChar] := Nat.toDigits_of_lt_base hlt
      rw [hone] at hp
      obtain rfl | ⟨q, rfl, hq⟩ := prefix_cons_iff.mp hp
      · exact absurd rfl hne
      · rw [prefix_nil] at hq
        subst hq
        exact ⟨n, hone.symm, .inl rfl⟩
    · have hle : 10 ≤ n := by omega
      have hmore : displayNat n = displayNat (n / 10) ++ [(n % 10).digitChar] :=
        Nat.toDigits_of_base_le (by decide) hle
      rw [hmore, prefix_concat_iff] at hp
      obtain rfl | hp := hp
      · exact ⟨n, hmore.symm, .inl rfl⟩
      · obtain ⟨m, hm, hor⟩ := ih (n / 10) (by omega) hp
        exact ⟨m, hm, .inr ⟨hle, by omega⟩⟩

/-- A count that was cut. -/
theorem parseUsize_cut {k : Nat} {p : List Char} (hp : p <+: displayNat n)
    (hk : parseUsize p = some k) : k = n ∨ 10 ≤ n ∧ 0 < k := by
  have hne : p ≠ [] := by
    rintro rfl
    cases hk
  obtain ⟨m, rfl, hm⟩ := exists_of_prefix_displayNat hp hne
  rw [parseUsize_eq_ite] at hk
  split at hk <;> cases hk
  exact hm

/-! ## Facts that were cut -/

/-- A value that is read back as it was written, and noticed when it was cut. -/
def IsKept (lib : TextLib) : Value → Prop
  | .number _ => True
  | .string s => PlainString lib s
  | _ => False

/-- Relations that are read back: of numbers and plain strings, without a row twice. -/
structure Storable (lib : TextLib) (tables : List (String × List Tuple)) : Prop
    extends Writable lib tables where
  kept : ∀ t ∈ tables, ∀ row ∈ t.2, ∀ v ∈ row, IsKept lib v
  distinct : ∀ t ∈ tables, t.2.Nodup

theorem Storable.tail {lib : TextLib}
    (h : Storable lib (t :: tables)) : Storable lib tables where
  nodup := h.nodup.of_cons
  names t ht := h.names t (mem_cons_of_mem _ ht)
  arity t ht := h.arity t (mem_cons_of_mem _ ht)
  count := Nat.lt_trans (Nat.lt_succ_self _) h.count
  fits t ht := h.fits t (mem_cons_of_mem _ ht)
  kept t ht := h.kept t (mem_cons_of_mem _ ht)
  distinct t ht := h.distinct t (mem_cons_of_mem _ ht)

section Cut

variable {lib : TextLib} {dbg : AstDebug}

theorem IsKept.readBackAs {v : Value} (h : IsKept lib v) : ReadBackAs lib dbg v v := by
  cases v with
  | number n => exact readBackAs_number n
  | string s => exact readBackAs_string h
  | _ => cases h

theorem IsKept.isArg {v : Value} (h : IsKept lib v) : IsArg lib (displayValue lib v) := by
  cases v with
  | number n => exact isArg_number lib n
  | string s => exact isArg_string h
  | _ => cases h

theorem TextFile.readLine_eq_ok {s line : List Char}
    (h : TextFile.readLine ⟨s, torn⟩ = .ok (line, f)) :
    line = (Machinery.readLine s).1 ∧ f = ⟨(Machinery.readLine s).2, torn⟩ := by
  rw [TextFile.readLine] at h
  dsimp only at h
  split at h <;> cases h
  exact ⟨rfl, rfl⟩

/-- The line in which a file was cut is its last one. -/
theorem TextFile.readLine_cut {s line : List Char} (hs : '\n' ∉ s) (hv : v <+: s)
    (h : TextFile.readLine ⟨v, torn⟩ = .ok (line, f)) : line = v ∧ f = ⟨[], torn⟩ := by
  have hlast := readLine_last fun hmem => hs (hv.subset hmem)
  have heq := TextFile.readLine_eq_ok h
  rw [hlast] at heq
  exact heq

section

variable (hname : IsPredicateName lib name)

include hname

theorem readFact_cut {row row' : Tuple} (hrow : ∀ v ∈ row, IsKept lib v)
    (hv : v <+: factText name (row.map (displayValue lib))) (h : readFact lib dbg v = .ok row') :
    row' = row := by
  have hargs : ∀ t ∈ row.map (displayValue lib), IsArg lib t := by
    intro t ht
    obtain ⟨x, hx, rfl⟩ := mem_map.mp ht
    exact (hrow x hx).isArg
  by_cases hall : v = factText name (row.map (displayValue lib))
  · rw [hall, readFact_write hname fun x hx => (hrow x hx).readBackAs] at h
    cases h
    simp
  · unfold readFact at h
    split at h
    next clause hclause => exact absurd hclause (parse_cut_fact hname hargs hv hall clause)
    · cases h

/-- The line of a fact, in a file that may end in it: what is parsed is the fact or a cut of it. -/
theorem readLine_fact {texts : List (List Char)} (hnew : '\n' ∉ factText name texts)
    {rest line : List Char} (hv : v <+: factText name texts ++ '\n' :: rest)
    (h : TextFile.readLine ⟨v, torn⟩ = .ok (line, f)) (hne : line ≠ []) :
    trim line <+: factText name texts ∧ trim line ≠ [] ∧ ∃ w, w <+: rest ∧ f = ⟨w, torn⟩ := by
  obtain hcut | ⟨w, rfl, hw⟩ := prefix_sep_cases hv
  · obtain ⟨rfl, rfl⟩ := TextFile.readLine_cut hnew hcut h
    obtain ⟨c, s, rfl⟩ := exists_cons_of_ne_nil hne
    have hc : isWhitespace c = false := by
      obtain ⟨c', s', hcs⟩ := exists_cons_of_ne_nil hname.ne_nil
      rw [factText, hcs, cons_append, cons_prefix_cons] at hcut
      rw [hcut.1]
      exact not_isWhitespace_of_isSymChar (hname.symChar c' (by simp [hcs]))
    obtain ⟨htrim, hnil⟩ := trim_prefix (s := s) hc
    exact ⟨htrim.trans hcut, hnil, [], nil_prefix, rfl⟩
  · rw [TextFile.readLine_line hnew] at h
    cases h
    rw [trim_factText hname]
    exact ⟨prefix_rfl, by simp [factText], w, hw, rfl⟩

/-- The facts of a predicate, in a file that may end in them. -/
theorem readFacts_cut {facts facts' : List Tuple} (hkept : ∀ row ∈ facts, ∀ v ∈ row, IsKept lib v)
    (hv : v <+: facts.flatMap (factLine lib name))
    (h : readFacts lib dbg name facts.length ⟨v, torn⟩ = .ok (facts', f)) :
    facts' = facts ∧ f = ⟨[], torn⟩ := by
  induction facts generalizing v facts' with
  | nil =>
    obtain rfl := prefix_nil.mp hv
    cases h
    exact ⟨rfl, rfl⟩
  | cons row facts ih =>
    rw [forall_mem_cons] at hkept
    have hback : ∀ v ∈ row, ReadBackAs lib dbg v (id v) := fun v hv => (hkept.1 v hv).readBackAs
    rw [flatMap_cons, factLine, append_assoc, singleton_append] at hv
    obtain ⟨⟨line, f₁⟩, hline, h⟩ := bind_eq_ok.mp h
    dsimp only at h
    split at h
    · cases h
    next hne =>
    obtain ⟨hcut, htrim, w, hw, rfl⟩ :=
      readLine_fact hname (newline_notMem_row hname hback) hv hline hne
    rw [if_neg htrim] at h
    obtain ⟨row', hrow', h⟩ := bind_eq_ok.mp h
    obtain ⟨⟨facts'', f₂⟩, hfacts, h⟩ := bind_eq_ok.mp h
    cases h
    obtain ⟨rfl, rfl⟩ := ih hkept.2 hw hfacts
    exact ⟨by rw [readFact_cut hname hkept.1 hcut hrow'], rfl⟩

/-- The facts without arguments, in a file that may end in them. -/
theorem readFlags_cut {facts facts' : List Tuple} (hnil : ∀ row ∈ facts, row = [])
    (hv : v <+: facts.flatMap (factLine lib name))
    (h : readFlags facts.length ⟨v, torn⟩ = .ok (facts', f)) : facts' = facts ∧ f = ⟨[], torn⟩ := by
  induction facts generalizing v facts' with
  | nil =>
    obtain rfl := prefix_nil.mp hv
    cases h
    exact ⟨rfl, rfl⟩
  | cons row facts ih =>
    rw [forall_mem_cons] at hnil
    obtain ⟨rfl, hnil⟩ := hnil
    have hnew : '\n' ∉ factText name [] := newline_notMem_factText hname (by simp)
    rw [flatMap_cons, factLine, append_assoc, singleton_append] at hv
    obtain ⟨⟨line, f₁⟩, hline, h⟩ := bind_eq_ok.mp h
    obtain ⟨w, hw, rfl⟩ : ∃ w, w <+: facts.flatMap (factLine lib name) ∧ f₁ = ⟨w, torn⟩ := by
      obtain hcut | ⟨w, rfl, hw⟩ := prefix_sep_cases hv
      · exact ⟨[], nil_prefix, (TextFile.readLine_cut hnew hcut hline).2⟩
      · rw [map_nil, TextFile.readLine_line hnew] at hline
        cases hline
        exact ⟨w, hw, rfl⟩
    obtain ⟨⟨facts'', f₂⟩, hfacts, h⟩ := bind_eq_ok.mp h
    cases h
    obtain ⟨rfl, rfl⟩ := ih hnil hw hfacts
    exact ⟨rfl, rfl⟩

end

variable {facts : List Tuple}

theorem readTable_cut (hname : IsPredicateName lib t.1)
    (harity : ∀ row ∈ t.2, row.length = rowArity t.2)
    (hkept : ∀ row ∈ t.2, ∀ v ∈ row, IsKept lib v) (hv : v <+: t.2.flatMap (factLine lib t.1))
    (h : readTable lib dbg (headerOf t) ⟨v, torn⟩ = .ok (facts, f)) :
    facts = t.2 ∧ f = ⟨[], torn⟩ := by
  rw [readTable] at h
  split at h
  next hzero =>
    exact readFlags_cut hname
      (fun row hrow => length_eq_zero_iff.mp ((harity row hrow).trans hzero)) hv h
  · exact readFacts_cut hname hkept hv h

/-- The facts of all predicates, in a file that may end in them. -/
theorem readTables_cut (hnames : ∀ t ∈ tables, IsPredicateName lib t.1)
    (harity : ∀ t ∈ tables, ∀ row ∈ t.2, row.length = rowArity t.2)
    (hkept : ∀ t ∈ tables, ∀ row ∈ t.2, ∀ v ∈ row, IsKept lib v) {m : RowTables}
    (hv : v <+: tables.flatMap fun t => t.2.flatMap (factLine lib t.1))
    (h : readTables lib dbg (tables.map headerOf) m ⟨v, torn⟩ = .ok data) :
    data = m.insertAll tables := by
  induction tables generalizing m v with
  | nil =>
    cases h
    rfl
  | cons t tables ih =>
    rw [forall_mem_cons] at hnames harity hkept
    rw [flatMap_cons] at hv
    obtain ⟨⟨facts, f⟩, hfacts, h⟩ := bind_eq_ok.mp h
    obtain ⟨rfl, w, hw, rfl⟩ : facts = t.2 ∧
        ∃ w, w <+: (tables.flatMap fun t => t.2.flatMap (factLine lib t.1)) ∧ f = ⟨w, torn⟩ := by
      obtain hcut | ⟨w, -, rfl, hw⟩ := prefix_append_cases hv
      · obtain ⟨hrows, rfl⟩ := readTable_cut hnames.1 harity.1 hkept.1 hcut hfacts
        exact ⟨hrows, [], nil_prefix, rfl⟩
      · rw [readTable_write (g := id) hnames.1 harity.1
          fun row hrow v hv => (hkept.1 row hrow v hv).readBackAs] at hfacts
        cases hfacts
        exact ⟨by simp, w, hw, rfl⟩
    exact ih hnames.2 harity.2 hkept.2 hw h

/-! ## Headers that were cut -/

theorem readFlags_eof (h : readFlags n ⟨[], torn⟩ = .ok (facts, f)) :
    f = ⟨[], torn⟩ := by
  induction n generalizing facts with
  | zero =>
    cases h
    rfl
  | succ n ih =>
    obtain ⟨⟨line, f₁⟩, hline, h⟩ := bind_eq_ok.mp h
    obtain ⟨-, rfl⟩ := TextFile.readLine_eq_ok hline
    obtain ⟨⟨facts', f₂⟩, hfacts, h⟩ := bind_eq_ok.mp h
    cases h
    exact ih hfacts

theorem readFacts_eof
    (h : readFacts lib dbg name n ⟨[], torn⟩ = .ok (facts, f)) : n = 0 ∧ f = ⟨[], torn⟩ := by
  cases n with
  | zero =>
    cases h
    exact ⟨rfl, rfl⟩
  | succ n =>
    obtain ⟨⟨line, f₁⟩, hline, h⟩ := bind_eq_ok.mp h
    obtain ⟨rfl, -⟩ := TextFile.readLine_eq_ok hline
    cases h

theorem readTable_eof (h : readTable lib dbg info ⟨[], torn⟩ = .ok (facts, f))
    : f = ⟨[], torn⟩ ∧ (info.arity ≠ 0 → info.numFacts = 0) := by
  rw [readTable] at h
  split at h
  next hzero => exact ⟨readFlags_eof h, fun hne => absurd hzero hne⟩
  · exact ⟨(readFacts_eof h).2, fun _ => (readFacts_eof h).1⟩

/-- At the end of the file no fact with arguments is found. -/
theorem readTables_eof {m : RowTables} (h : readTables lib dbg infos m ⟨[], torn⟩ = .ok data)
    (hinfo : info ∈ infos) (harity : info.arity ≠ 0) : info.numFacts = 0 := by
  induction infos generalizing m with
  | nil => cases hinfo
  | cons info' infos ih =>
    obtain ⟨⟨facts, f⟩, hfacts, h⟩ := bind_eq_ok.mp h
    obtain ⟨rfl, hzero⟩ := readTable_eof hfacts
    obtain rfl | hinfo := mem_cons.mp hinfo
    · exact hzero harity
    · exact ih h hinfo

theorem readHeaders_eof (h : readHeaders n ⟨[], torn⟩ = .ok (infos, f)) : n = 0 := by
  cases n with
  | zero => rfl
  | succ n =>
    obtain ⟨⟨info, f₁⟩, hinfo, -⟩ := bind_eq_ok.mp h
    obtain ⟨⟨line, f₂⟩, hline, hinfo⟩ := bind_eq_ok.mp hinfo
    obtain ⟨rfl, rfl⟩ := TextFile.readLine_eq_ok hline
    cases hinfo

/-- A header that promises facts with arguments. -/
def PredInfo.Promises (info : PredInfo) : Prop := info.arity ≠ 0 ∧ 0 < info.numFacts

theorem length_le_one_of_flags (hnodup : facts.Nodup)
    (harity : ∀ row ∈ facts, row.length = rowArity facts) (hzero : rowArity facts = 0) :
    facts.length ≤ 1 := by
  have hnil : ∀ row ∈ facts, row = [] := fun row hrow =>
    length_eq_zero_iff.mp ((harity row hrow).trans hzero)
  rw [eq_replicate_of_mem hnil, nodup_replicate] at hnodup
  exact hnodup

theorem eq_some_of_elim {ε α : Type} {e : ε} {x : Option α} {a : α}
    (h : x.elim (.error e) Except.ok = .ok a) : x = some a := by
  cases x <;> cases h
  rfl

/-- The words of a header that was cut: if there are three, the last one is a cut of the count. -/
theorem splitWhitespace_header_cut (hname : IsPredicateName lib t.1) {a b c : List Char}
    (hv : v <+: headerText t.1 t.2) (h : splitWhitespace v = [a, b, c]) :
    a = t.1.toList ∧ b = displayNat (rowArity t.2) ∧ c <+: displayNat t.2.length := by
  have hshort {s : List Char} (hs : ∀ c ∈ s, isWhitespace c = false) :
      splitWhitespace s = [] ∨ splitWhitespace s = [s] := by
    rw [splitWhitespace_of_all hs]
    split
    · exact .inl rfl
    · exact .inr rfl
  have hdigit {n : Nat} {s : List Char} (hs : s <+: displayNat n) :=
    hshort fun c hc => not_isWhitespace_of_mem_displayNat (hs.subset hc)
  obtain hcut | ⟨w, rfl, hw⟩ := prefix_sep_cases hv
  · have hsym : ∀ c ∈ v, isWhitespace c = false := fun c hc =>
      not_isWhitespace_of_isSymChar (hname.symChar c (hcut.subset hc))
    obtain hs | hs := hshort hsym <;> rw [hs] at h <;> cases h
  · rw [splitWhitespace_name hname] at h
    obtain hcut | ⟨p, rfl, hp⟩ := prefix_sep_cases hw
    · obtain hs | hs := hdigit hcut <;> rw [hs] at h <;> cases h
    · rw [splitWhitespace_displayNat _ (by decide)] at h
      obtain hs | hs := hdigit hp <;> rw [hs] at h <;> cases h
      exact ⟨rfl, rfl, hp⟩

/-- The header in which a file was cut: all of it, or one that promises facts. -/
theorem readHeader_cut (hname : IsPredicateName lib t.1) (hfits : rowArity t.2 < 2 ^ 64)
    (hnodup : t.2.Nodup) (harity : ∀ row ∈ t.2, row.length = rowArity t.2)
    (hv : v <+: headerText t.1 t.2) (h : readHeader ⟨v, torn⟩ = .ok (info, f)) :
    f = ⟨[], torn⟩ ∧ (info = headerOf t ∨ info.Promises) := by
  obtain ⟨⟨line, f₁⟩, hline, h⟩ := bind_eq_ok.mp h
  obtain ⟨rfl, rfl⟩ := TextFile.readLine_cut (newline_notMem_headerText hname t.2) hv hline
  dsimp only at h
  split at h
  next a b c hsplit =>
    obtain ⟨rfl, rfl, hc⟩ := splitWhitespace_header_cut hname hv hsplit
    rw [parseUsize_displayNat hfits, Option.elim_some, ok_bind] at h
    obtain ⟨k, hk, h⟩ := bind_eq_ok.mp h
    cases h
    refine ⟨rfl, ?_⟩
    obtain rfl | ⟨hten, hpos⟩ := parseUsize_cut hc (eq_some_of_elim hk)
    · exact .inl (by simp [headerOf])
    · refine .inr ⟨fun hzero => ?_, hpos⟩
      have := length_le_one_of_flags hnodup harity hzero
      omega
  · cases h

/-- The headers, in a file that may end in them. -/
theorem readHeaders_cut (hs : Storable lib tables) {tail : List Char}
    (hv : v <+: tables.flatMap (fun t => headerLine t.1 t.2) ++ tail)
    (h : readHeaders tables.length ⟨v, torn⟩ = .ok (infos, f)) :
    (infos = tables.map headerOf ∧ ∃ w, w <+: tail ∧ f = ⟨w, torn⟩) ∨
      f = ⟨[], torn⟩ ∧ ∃ info ∈ infos, info.Promises := by
  induction tables generalizing v infos with
  | nil =>
    cases h
    exact .inl ⟨rfl, v, hv, rfl⟩
  | cons t tables ih =>
    have hname := hs.names t mem_cons_self
    have hfits := hs.fits t mem_cons_self
    rw [flatMap_cons, headerLine, append_assoc, append_assoc,
      singleton_append] at hv
    obtain ⟨⟨info, f₁⟩, hinfo, h⟩ := bind_eq_ok.mp h
    obtain ⟨⟨infos', f₂⟩, hinfos, h⟩ := bind_eq_ok.mp h
    cases h
    obtain hcut | ⟨w, rfl, hw⟩ := prefix_sep_cases hv
    · -- no header follows the one that was cut
      obtain ⟨rfl, hor⟩ := readHeader_cut hname hfits.2 (hs.distinct t mem_cons_self)
        (hs.arity t mem_cons_self) hcut hinfo
      obtain rfl := length_eq_zero_iff.mp (readHeaders_eof hinfos)
      cases hinfos
      obtain rfl | hpromise := hor
      · exact .inl ⟨rfl, [], nil_prefix, rfl⟩
      · exact .inr ⟨rfl, info, mem_cons_self, hpromise⟩
    · have hread := readHeader_write hname hfits w torn
      rw [headerLine, append_assoc, singleton_append, hinfo] at hread
      cases hread
      obtain ⟨rfl, hrest⟩ | ⟨hf, info, hmem, hpromise⟩ := ih hs.tail hw hinfos
      · exact .inl ⟨rfl, hrest⟩
      · exact .inr ⟨hf, info, mem_cons_of_mem _ hmem, hpromise⟩

/-- **What is read from a cut file is what was written**, if anything is read. -/
theorem readSimpleRow_cut (hs : Storable lib tables) (hf : f.text <+: writeSimpleRow lib tables)
    (h : readSimpleRow lib dbg f = .ok data) : data = HashMap.insertAll ∅ tables := by
  obtain ⟨v, torn⟩ := f
  obtain ⟨⟨line, f₁⟩, hline, h⟩ := bind_eq_ok.mp h
  obtain ⟨n, hn, h⟩ := bind_eq_ok.mp h
  obtain ⟨⟨infos, f₂⟩, hinfos, h⟩ := bind_eq_ok.mp h
  dsimp only at hf hn hinfos h
  have hnum := eq_some_of_elim hn
  have hnew : '\n' ∉ displayNat tables.length :=
    newline_notMem_sym fun _ => isSymChar_of_mem_displayNat
  obtain hcut | ⟨w, rfl, hw⟩ := prefix_sep_cases hf
  · -- the number of predicates was cut, or there are none
    obtain ⟨rfl, rfl⟩ := TextFile.readLine_cut hnew hcut hline
    rw [trim_of_all fun c hc => not_isWhitespace_of_mem_displayNat (hcut.subset hc)] at hnum
    obtain rfl := readHeaders_eof hinfos
    obtain hzero | ⟨-, hpos⟩ := parseUsize_cut hcut hnum
    · obtain rfl := length_eq_zero_iff.mp hzero.symm
      cases hinfos
      cases h
      rfl
    · exact absurd hpos (Nat.lt_irrefl 0)
  · rw [TextFile.readLine_line hnew] at hline
    cases hline
    rw [trim_symLine (displayNat_ne_nil _) fun _ => isSymChar_of_mem_displayNat,
      parseUsize_displayNat hs.count] at hnum
    cases hnum
    obtain ⟨rfl, u, hu, rfl⟩ | ⟨rfl, info, hinfo, harity, hpos⟩ := readHeaders_cut hs hw hinfos
    · exact readTables_cut hs.names hs.arity hs.kept hu h
    · rw [readTables_eof h hinfo harity] at hpos
      exact absurd hpos (Nat.lt_irrefl 0)

end Cut

end Mangle
