import Mangle.Machinery.Trie

/-!
# Analysis/NameTrie — the declared name a name constant falls under

The bounds checker keeps the declared names in a trie over their segments, and gives a name constant
the type of the longest declared name above it.

* `prefixName_longest` — lookup is longest match, membership is exact, and both depend only on the
  set of names that were added.
-/

namespace Mangle

open Machinery List

/-- A trie over the segments of names. -/
abbrev NameTrie := Trie (List Char)

/-- `split_name`. -/
def splitName (name : List Char) : List (List Char) := (name.splitOn '/').filter (· ≠ [])

/-- The text with the segments. -/
def joinName (parts : List (List Char)) : List Char := '/' :: ['/'].intercalate parts

namespace NameTrie

def new : NameTrie := .empty

def add (t : NameTrie) (name : List Char) : NameTrie := Trie.add (splitName name) t

def contains (t : NameTrie) (name : List Char) : Bool := Trie.contains (splitName name) t

def prefixName (t : NameTrie) (name : List Char) : List Char :=
  match Trie.lastMarked (splitName name) t 0 none with
  | some idx => joinName ((splitName name).take (idx + 1))
  | none => "/name".toList

end NameTrie

/-- A well-formed name. -/
@[ext] structure SegmentedName where
  parts : List (List Char)
  ne_nil : parts ≠ []
  segment : ∀ s ∈ parts, s ≠ [] ∧ '/' ∉ s

namespace SegmentedName

variable {names names' : List SegmentedName} {n : SegmentedName} {r r' : List Char}

def text (n : SegmentedName) : List Char := joinName n.parts

@[simp] theorem splitName_text (n : SegmentedName) : splitName n.text = n.parts := by
  have hjoin : n.text = ['/'].intercalate ([] :: n.parts) := by
    obtain ⟨s, ss, hs⟩ := exists_cons_of_ne_nil n.ne_nil
    rw [text, hs]
    rfl
  have hparts : n.parts.filter (· ≠ []) = n.parts :=
    filter_eq_self.mpr fun s hs => decide_eq_true (n.segment s hs).1
  rw [splitName, hjoin, splitOn_intercalate _ _ (by simp)]
  · simpa using hparts
  · intro s hs
    rcases mem_cons.mp hs with rfl | hs
    · simp
    · exact (n.segment s hs).2

/-- The trie after the names were added. -/
def trie (names : List SegmentedName) : NameTrie := names.foldl (fun t p => t.add p.text) .new

theorem contains_trie {q : List (List Char)} :
    Trie.contains q (trie names) = true ↔ ∃ p ∈ names, p.parts = q := by
  have hfold : trie names = (names.map parts).foldl (fun t p => Trie.add p t) .empty := by
    rw [foldl_map]
    exact foldl_ext _ _ _ fun t p _ => by rw [NameTrie.add, splitName_text]
  rw [hfold, Trie.contains_foldl_add]
  simp

/-- The text is that of the longest of the names whose segments are the first ones of `n`, or
`/name` when there is none. -/
def LongestMatch (names : List SegmentedName) (n : SegmentedName) (r : List Char) : Prop :=
  (∃ p ∈ names, p.parts <+: n.parts ∧
      (∀ q ∈ names, q.parts <+: n.parts → q.parts.length ≤ p.parts.length) ∧ r = p.text) ∨
    (∀ p ∈ names, ¬p.parts <+: n.parts) ∧ r = "/name".toList

theorem LongestMatch.unique (h : LongestMatch names n r) (h' : LongestMatch names' n r')
    (hsame : ∀ p, p ∈ names' ↔ p ∈ names) : r' = r := by
  rcases h with ⟨p, hp, hpre, hmax, rfl⟩ | ⟨hno, rfl⟩ <;>
    rcases h' with ⟨q, hq, hqre, hqmax, rfl⟩ | ⟨hno', rfl⟩
  · have hlen : p.parts.length = q.parts.length :=
      le_antisymm (hqmax p ((hsame p).mpr hp) hpre) (hmax q ((hsame q).mp hq) hqre)
    rw [text, text, prefix_iff_eq_take.mp hpre, prefix_iff_eq_take.mp hqre, hlen]
  · exact absurd hpre (hno' p ((hsame p).mpr hp))
  · exact absurd hqre (hno q ((hsame q).mp hq))
  · rfl

theorem longestMatch_prefixName (names : List SegmentedName) (n : SegmentedName) :
    LongestMatch names n ((trie names).prefixName n.text) := by
  unfold NameTrie.prefixName
  rw [splitName_text]
  rcases Trie.lastMarked_spec n.parts (trie names) 0 none with
    ⟨hlast, hno⟩ | ⟨k, hk, hlast, hmark, hmax⟩
  · refine Or.inr ⟨fun p hp hpre => ?_, by rw [hlast]⟩
    have hmem := contains_trie.mpr ⟨p, hp, rfl⟩
    rw [hno p.parts hpre p.ne_nil] at hmem
    cases hmem
  · obtain ⟨p, hp, hparts⟩ := contains_trie.mp hmark
    refine Or.inl ⟨p, hp, hparts ▸ take_prefix _ _, fun q hq hpre => ?_, by
      simp [hlast, text, hparts]⟩
    rw [hparts, length_take, min_eq_left hk]
    exact hmax q.parts hpre (contains_trie.mpr ⟨q, hq, rfl⟩)

/-- **Name lookup is longest match**: a name is in the trie exactly when it was added, `prefix_name`
returns the longest name that was added and has the first segments of `n`, or `/name` when there is
none, and both depend only on which names were added. -/
theorem prefixName_longest (names : List SegmentedName) (n : SegmentedName) :
    ((trie names).contains n.text = true ↔ n ∈ names) ∧
      LongestMatch names n ((trie names).prefixName n.text) ∧
      ∀ names', (∀ p, p ∈ names' ↔ p ∈ names) →
        (trie names').contains n.text = (trie names).contains n.text ∧
          (trie names').prefixName n.text = (trie names).prefixName n.text := by
  have hmem (names : List SegmentedName) : (trie names).contains n.text = true ↔ n ∈ names := by
    rw [NameTrie.contains, splitName_text, contains_trie]
    exact ⟨fun ⟨p, hp, heq⟩ => SegmentedName.ext heq ▸ hp, fun hn => ⟨n, hn, rfl⟩⟩
  refine ⟨hmem names, longestMatch_prefixName names n, fun names' hsame => ⟨?_, ?_⟩⟩
  · rw [Bool.eq_iff_iff, hmem, hmem, hsame]
  · exact (longestMatch_prefixName names n).unique (longestMatch_prefixName names' n) hsame

end SegmentedName

end Mangle
