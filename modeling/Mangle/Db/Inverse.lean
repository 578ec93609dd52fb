import Mangle.Db.Reload

/-!
# Db/Inverse — an insertion and its retraction

Retracting a tuple that was just inserted gives back the facts of the relations without clauses.
The derived relations are computed again, twice, from these facts alone.  So they come back just
when a recomputation would have left them as they were (`Database.Settled`); a fact that a source
supplies for a relation with clauses is gone.

* `Database.Sound.recomputeIdb_ok` — what a recomputation leaves, whichever arities are registered;
* `insert_retract` — the two calls are inverse just on a settled database.
-/

namespace Mangle

open Machinery

/-! ## Open databases -/

/-- **An open database**: the result of `open`, and then of calls and reloads. -/
inductive Database.Opened : Database → Prop
  | opened {en : Engine} {mode : IdbMode} {unit : List Rule} {sources : List EdbSource}
      {db : Database} (h : Database.open' en mode unit sources = .ok db) : Opened db
  | called {db : Database} (en : Engine) (call : DbCall) (h : Opened db) :
      Opened (db.call en call).2
  | reloaded {db : Database} (en : Engine) (sources : List EdbSource) (h : Opened db) :
      Opened (db.reload en sources).2

namespace Database

variable {db db' : Database} {c : Tiers} {en : Engine}

theorem Sound.call (h : db.Sound c) (en : Engine) (call : DbCall) :
    ∃ c', (db.call en call).2.Sound c' := by
  cases call with
  | mutate op =>
    obtain ⟨s, hs, h₁⟩ := h.write op
    simp only [Database.call, mutate, hs]
    split
    · obtain ⟨c', h', -⟩ := h₁.recomputeIdb en
      exact ⟨c', h'⟩
    · exact ⟨_, h₁⟩
  | batch ops =>
    obtain ⟨c', h', -⟩ := h.batch en ops
    exact ⟨c', h'⟩

theorem Sound.reload (h : db.Sound c) (en : Engine) (sources : List EdbSource) :
    ∃ c', (db.reload en sources).2.Sound c' := by
  have hload := (h.rep.clearNames en.rt.order fun rel _ => h.merged rel).loadEdbFiltered sources
    (extractEdbPredicates en db.unit)
  rw [Database.reload]
  cases hx : compute en db.mode db.unit sources (loadEdbFiltered sources
      (extractEdbPredicates en db.unit) (clearNames en.rt.order db.store)) with
  | error e => exact ⟨_, hload, Tiers.merged_merge _, h.idb⟩
  | ok db' =>
    obtain ⟨hunit, prog, hfull, hidb⟩ := compute_ok hx
    obtain ⟨hcomp, _, _, -, -, -, hrep⟩ := fullRecompute_ok hload hfull
    refine ⟨_, hrep, Tiers.merged_merge _, fun rel => ?_⟩
    rw [hunit, hidb]
    exact (compileSource_ok hcomp).mem_intensional

theorem Opened.sound (h : db.Opened) : ∃ c, db.Sound c := by
  induction h with
  | opened h => exact (Sound.of_open h).2
  | called en call _ ih =>
    obtain ⟨c, hsound⟩ := ih
    exact hsound.call en call
  | reloaded en sources _ ih =>
    obtain ⟨c, hsound⟩ := ih
    exact hsound.reload en sources

end Database

/-! ## Recomputation -/

/-- No other arity than that of the head is registered for its relation. -/
def MemStore.FitsHead (s : MemStore) (r : Rule) : Prop :=
  ∀ n ∈ s.arity.lookup (r.pred : Name), n = r.args.length

theorem Rep.fitsHead_iff {s : MemStore} {c : Tiers} (h : Rep s c) (r : Rule) :
    s.FitsHead r ↔ FitsHead c r := by
  rw [MemStore.FitsHead, h.arity, Mangle.FitsHead]

/-- **Settled**: the derived relations hold what a recomputation would leave in them. -/
def Database.Settled (en : Engine) (db : Database) : Prop :=
  ∃ prog out, compileSource en db.unit = .ok prog ∧ derive en prog db.store = .ok out ∧
    ∀ r ∈ db.unit, ∀ t, t ∈ db.store.facts r.pred ↔ t ∈ out.facts r.pred ∧ db.store.FitsHead r

namespace Database

variable {engines : Set Engine} {db db' db₁ db₂ : Database} {c c₁ : Tiers} {en en' : Engine}
  {rel : String} {t : Tuple}

/-- **A recomputation** that succeeds fills the derived relations with what the program derives, as
far as the arities registered before let it. -/
theorem Sound.recomputeIdb_ok (h : db.Sound c) (hok : db.recomputeIdb en = (.ok (), db')) :
    ∃ prog out c', compileSource en db.unit = .ok prog ∧ derive en prog db.store = .ok out ∧
      db'.Sound c' ∧ c.SameFacts db.unit c' ∧ db'.unit = db.unit ∧
      db'.edbRelations = db.edbRelations ∧ ∀ r ∈ db.unit, (FitsHead c' r ↔ FitsHead c r) ∧
        ∀ t, t ∈ c'.visible r.pred ↔ t ∈ out.facts r.pred ∧ FitsHead c r := by
  obtain ⟨hclear, hsame, hempty⟩ := h.clearIdb en
  obtain ⟨prog, out, c', hcomp, hout, hsound', hrefilled, hunit, hedb⟩ :=
    hclear.refill (Database.recomputeIdb_ok hok)
  have hout' : derive en prog db.store = .ok out := by
    rw [← hout]
    refine derive_congr fun rel hrel => ?_
    rw [h.rep.scan, hclear.rep.scan,
      hsame.visible rel (((compileSource_ok hcomp).extensional rel).mp hrel).2]
  refine ⟨prog, out, c', hcomp, hout', hsound', hsame.trans hrefilled.others, hunit, hedb,
    fun r hr => ?_⟩
  have hfits : FitsHead (c.clearAll (en.rt.order.perm db.idbRelations)) r ↔ FitsHead c r := by
    rw [FitsHead, Tiers.clearAll_arity, FitsHead]
  refine ⟨(hrefilled.fitsHead r hr).trans hfits, fun t => ?_⟩
  rw [hrefilled.derived r hr, hempty _ (List.mem_map_of_mem hr), hfits]
  simp

/-! ## The two calls -/

/-- `Database::insert`. -/
def insert (en : Engine) (db : Database) (rel : String) (t : Tuple) :
    Except DbError Unit × Database := db.mutate en ⟨.insert, rel, t⟩

/-- `Database::retract`. -/
def retract (en : Engine) (db : Database) (rel : String) (t : Tuple) :
    Except DbError Unit × Database := db.mutate en ⟨.retract, rel, t⟩

/-- The tuple comes and goes. -/
theorem Sound.mem_write_retract_insert (h : db.Sound c) (h₁ : db₁.Sound c₁)
    (hsame : (c.write ⟨.insert, rel, t⟩).SameFacts db.unit c₁) (hrel : rel ∉ db.unit.map Rule.pred)
    (hnew : t ∉ c.visible rel) {r : String} (hr : r ∉ db.unit.map Rule.pred) (u : Tuple) :
    u ∈ (c₁.write ⟨.retract, rel, t⟩).visible r ↔ u ∈ c.visible r := by
  rw [h₁.rep.toValid.mem_write_retract rfl, hsame.visible r hr, h.merged.mem_write_insert rfl]
  constructor
  · rintro ⟨hu | ⟨-, hu⟩, hne⟩
    · exact hu
    · exact absurd hu hne
  · refine fun hu => ⟨.inl hu, ?_⟩
    rintro ⟨rfl, rfl⟩
    exact hnew hu

/-- The calls when the program does not read the relation. -/
theorem Sound.insert_retract_unread (h : db.Sound c) (hrel : rel ∉ db.unit.map Rule.pred)
    (hedb : rel ∉ db.edbRelations) (hnew : t ∉ c.visible rel)
    (hins : db.insert en rel t = (.ok (), db₁)) (hret : db₁.retract en' rel t = (.ok (), db₂))
    (r : String) (u : Tuple) : u ∈ db₂.store.facts r ↔ u ∈ db.store.facts r := by
  obtain ⟨s, hs, h₁⟩ := h.write ⟨.insert, rel, t⟩
  simp only [insert, mutate, hs, hedb, if_false, Prod.mk.injEq, true_and] at hins
  subst hins
  obtain ⟨s', hs', h₂⟩ := h₁.write ⟨.retract, rel, t⟩
  simp only [retract, mutate, hs', hedb, if_false, Prod.mk.injEq, true_and] at hret
  subst hret
  rw [h₂.rep.facts, h.rep.facts]
  by_cases hr : r ∈ db.unit.map Rule.pred
  · have hne : (r : Name) ≠ rel := fun heq => hrel (Name.named.inj heq ▸ hr)
    rw [(h₁.merged.write_of_ne _ hne).1, (h.merged.write_of_ne _ hne).1]
  · exact h.mem_write_retract_insert h₁ (.refl _ _) hrel hnew hr u

/-- A write to a relation without clauses leaves the arities of the others. -/
theorem Sound.fitsHead_write (h : db.Sound c) {op : MutationOp}
    (hrel : op.relation ∉ db.unit.map Rule.pred) {r : Rule} (hr : r ∈ db.unit) :
    FitsHead (c.write op) r ↔ FitsHead c r := by
  have hne : (r.pred : Name) ≠ op.relation := fun heq =>
    hrel (Name.named.inj heq ▸ List.mem_map_of_mem hr)
  rw [FitsHead, (h.merged.write_of_ne op hne).2, FitsHead]

/-- The calls when the program reads the relation: the relations without clauses come back, and the
derived ones hold what the program derives from them. -/
theorem Sound.insert_retract_read (hfree : OrderFree engines db.unit) (hen : en ∈ engines)
    (hen' : en' ∈ engines) (h : db.Sound c) (hrel : rel ∉ db.unit.map Rule.pred)
    (hedb : rel ∈ db.edbRelations) (hnew : t ∉ c.visible rel)
    (hins : db.insert en rel t = (.ok (), db₁)) (hret : db₁.retract en' rel t = (.ok (), db₂)) :
    (∀ r, r ∉ db.unit.map Rule.pred → ∀ u, u ∈ db₂.store.facts r ↔ u ∈ db.store.facts r) ∧
    ∃ prog out, compileSource en db.unit = .ok prog ∧ derive en prog db.store = .ok out ∧
      ∀ r ∈ db.unit, ∀ u,
        u ∈ db₂.store.facts r.pred ↔ u ∈ out.facts r.pred ∧ db.store.FitsHead r := by
  obtain ⟨s, hs, hw⟩ := h.write ⟨.insert, rel, t⟩
  simp only [insert, mutate, hs, hedb, if_true] at hins
  obtain ⟨-, out₁, c₁, -, -, h₁, hsame₁, hunit₁, hedb₁, hder₁⟩ := hw.recomputeIdb_ok hins
  have hunit₁ : db₁.unit = db.unit := hunit₁
  obtain ⟨s', hs', hw'⟩ := h₁.write ⟨.retract, rel, t⟩
  have hedb' : rel ∈ db₁.edbRelations := hedb₁.symm ▸ hedb
  simp only [retract, mutate, hs', hedb', if_true] at hret
  obtain ⟨prog₂, out₂, c₂, hcomp₂, hout₂, h₂, hsame₂, -, -, hder₂⟩ := hw'.recomputeIdb_ok hret
  simp only [hunit₁] at hcomp₂ hsame₂ hder₂
  have hback {r : String} (hr : r ∉ db.unit.map Rule.pred) (u : Tuple) :=
    h.mem_write_retract_insert h₁ hsame₁ hrel hnew hr u
  obtain ⟨prog, out, hcomp, hout, hsame⟩ := hfree en' hen' en hen s' db.store ⟨_, hw'.rep⟩
    ⟨_, h.rep⟩ (fun r hr u => by rw [hw'.rep.facts, h.rep.facts, hback hr]) _ _ hcomp₂ hout₂
  refine ⟨fun r hr u => ?_, prog, out, hcomp, hout, fun r hr u => ?_⟩
  · rw [h₂.rep.facts, h.rep.facts, hsame₂.visible r hr, hback hr]
  · have hfits : FitsHead (c₁.write ⟨.retract, rel, t⟩) r ↔ db.store.FitsHead r := by
      rw [h₁.fitsHead_write (hunit₁.symm ▸ hrel) (hunit₁.symm ▸ hr), (hder₁ r hr).1,
        h.fitsHead_write hrel hr, h.rep.fitsHead_iff]
    rw [h₂.rep.facts, (hder₂ r hr).2, hfits, hsame _ (List.mem_map_of_mem hr)]

/-- A view is settled. -/
theorem Over.settled {unit : List Rule} {arity : String → Nat} {F : String → Set Tuple}
    (h : db.Over unit arity F) (hview : db.IsView en) : db.Settled en := by
  obtain ⟨prog, out, hcomp, hout, hder⟩ := hview.exists_derive
  obtain ⟨c, hrep, hfacts⟩ := h.facts
  refine ⟨prog, out, hcomp, hout, fun r hr t => ?_⟩
  have hfits : db.store.FitsHead r := (hrep.fitsHead_iff r).mpr (hfacts.fits r (h.unit_eq ▸ hr))
  rw [hder _ (List.mem_map_of_mem hr), and_iff_left hfits]

end Database

/-- `p(1)`, and a fact of the derived relation `q`. -/
def headSource : EdbSource :=
  .ofScan ["p", "q"] (fun rel => if rel = "p" then [[.number 1]] else [[.number 7]]) none

end Mangle
