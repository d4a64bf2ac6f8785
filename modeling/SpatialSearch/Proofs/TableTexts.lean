import SpatialSearch.Proofs.JsonForms
import SpatialSearch.Proofs.MeasuredTables
import SpatialSearch.Proofs.NearestMethods

/-!
# Texts of the tables of nearest queries

A table of hits is equal to what is read back from its text unless one of its distances is
infinite: an infinite distance is written as null, which no list of distances has room for, so
the whole text is refused, and a single hit loses its distance. The distances of finite boxes from
finite points are infinite where their squares are beyond the range, so there are nearest queries
whose tables are not read back.
-/

namespace SpatialSearch

open Json JsonForm StableForm LawfulScalar

namespace JsonForm

variable {β : Type} [JsonForm β] [BEq β]

/-- A value is equal to what is read back from its text. -/
def Survives (x : β) : Prop := ∃ y, ofText? (toText x) = some y ∧ (x == y) = true

theorem survives_of_expressible [HasQuantities β] [StableForm β] {x : β} (h : Expressible x) :
    Survives x := by
  refine ⟨x, ?_, beq_self h⟩
  rw [ofText?_toText, read?_write h]

theorem not_survives_of_refused {x : β} (h : (ofText? (toText x) : Option β) = none) :
    ¬ Survives x := by
  rintro ⟨y, hy, -⟩
  rw [h] at hy
  cases hy

end JsonForm

namespace Binary64

/-- A number that is not negative is finite or plus infinity. -/
theorem isFinite_or_eq_infinity {x : Binary64} (h : 0 ≤ x) :
    x.isFinite = true ∨ x = infinity := by
  obtain ⟨-, hnum, hkey⟩ := le_iff.mp h
  have hzero : (0 : Binary64).key = 0 := by
    rw [key_eq]
    rfl
  have hinfinity : infinity.key = Rounding.top := by
    rw [key_eq]
    rfl
  rcases Nat.lt_or_ge x.magnitude.toNat Rounding.top with hlt | hge
  · exact Or.inl (decide_eq_true (UInt64.lt_iff_toNat_lt.mpr hlt))
  · have hle : (Rounding.top : ℤ) ≤ x.key := by
      rw [hzero, key_eq] at hkey
      rw [key_eq]
      split_ifs at hkey ⊢
      · rw [Rounding.top] at hge
        omega
      · exact_mod_cast hge
    exact Or.inr (eq_infinity (le_iff.mpr ⟨by decide, hnum, hinfinity ▸ hle⟩))

end Binary64

/-! ### Tables -/

namespace HitTable

section

variable {α : Type} {t : HitTable α}

/-- What a hit holds stands in the columns. -/
theorem mem_of_hitAt? {i : Nat} {h : Hit α} (hi : t.hitAt? i = some h) :
    h.index ∈ t.indices ∧ h.rank ∈ t.ranks ∧
      ∀ d ∈ h.distance, ∃ distances ∈ t.distances, d ∈ distances := by
  obtain ⟨index, hindex, hi⟩ := Option.bind_eq_some_iff.mp hi
  obtain ⟨rank, hrank, hi⟩ := Option.bind_eq_some_iff.mp hi
  cases hdistances : t.distances with
  | none =>
    rw [hdistances] at hi
    cases hi
    exact ⟨List.mem_of_getElem? hindex, List.mem_of_getElem? hrank, fun d hd => nomatch hd⟩
  | some distances =>
    rw [hdistances] at hi
    obtain ⟨distance, hdistance, hi⟩ := Option.bind_eq_some_iff.mp hi
    cases hi
    refine ⟨List.mem_of_getElem? hindex, List.mem_of_getElem? hrank, ?_⟩
    intro d hd
    obtain rfl := Option.mem_some.mp hd
    exact ⟨distances, rfl, List.mem_of_getElem? hdistance⟩

theorem exists_hitAt_of_mem {start count : Nat} {row : List (Hit α)}
    (hrow : t.hitsFrom? start count = some row) : ∀ h ∈ row, ∃ i, t.hitAt? i = some h := by
  induction count generalizing start row with
  | zero =>
    cases hrow
    exact fun h hh => nomatch hh
  | succ count ih =>
    obtain ⟨first, hfirst, hrow⟩ := Option.bind_eq_some_iff.mp hrow
    obtain ⟨rest, hrest, hrow⟩ := Option.bind_eq_some_iff.mp hrow
    cases hrow
    intro h hh
    rcases List.mem_cons.mp hh with rfl | hh
    · exact ⟨start, hfirst⟩
    · exact ih hrest h hh

theorem exists_hitAt_of_mem_hits {q : Nat} {row : List (Hit α)} (hrow : t.hits? q = some row) :
    ∀ h ∈ row, ∃ i, t.hitAt? i = some h := by
  obtain ⟨⟨start, stop⟩, -, hrow⟩ := Option.bind_eq_some_iff.mp hrow
  exact exists_hitAt_of_mem hrow

end

/-- A table and its hits are equal to what is read back from their texts as far as their distances
are finite. -/
structure ReadBack (t : HitTable Binary64) : Prop where
  survives : (∀ distances ∈ t.distances, Binary64.infinity ∉ distances) → Survives t
  refused : (∃ distances ∈ t.distances, Binary64.infinity ∈ distances) →
    (ofText? (toText t) : Option (HitTable Binary64)) = none
  hit_survives : ∀ q row, t.hits? q = some row → ∀ h ∈ row,
    h.distance ≠ some .infinity → Survives h
  hit_stripped : ∀ q row, t.hits? q = some row → ∀ h ∈ row, h.distance = some .infinity →
    (ofText? (toText h) : Option (Hit Binary64)) = some ⟨h.index, h.rank, none⟩

/-- A list with an infinite number is not read back. -/
theorem read?_write_of_infinity {distances : List Binary64} (h : Binary64.infinity ∈ distances) :
    (read? (write distances) : Option (List Binary64)) = none := by
  apply Option.eq_none_iff_forall_not_mem.mpr
  intro back hback
  have hall := (mapM_eq_some_iff.mp hback).1 _ (List.mem_map_of_mem h)
  cases hall

theorem refused_of_infinity {t : HitTable Binary64} {distances : List Binary64}
    (hdistances : t.distances = some distances) (h : Binary64.infinity ∈ distances) :
    (ofText? (toText t) : Option (HitTable Binary64)) = none := by
  have hnone : (read? (write t.distances) : Option (Option (List Binary64))) = none := by
    rw [hdistances]
    exact congrArg (Option.map some) (read?_write_of_infinity h)
  rw [ofText?_toText, read?_write_fields, hnone]
  simp only [Option.bind_none, Option.bind_fun_none]

theorem stripped_of_infinity {h : Hit Binary64} (hindex : h.index < UInt64.size)
    (hrank : h.rank < UInt64.size) (hdistance : h.distance = some .infinity) :
    (ofText? (toText h) : Option (Hit Binary64)) = some ⟨h.index, h.rank, none⟩ := by
  have hnull : (read? (write h.distance) : Option (Option Binary64)) = some none := by
    rw [hdistance]
    rfl
  rw [← expressible_nat] at hindex hrank
  rw [ofText?_toText, Hit.read?_write_fields, read?_write hindex, Option.bind_some,
    read?_write hrank, Option.bind_some, hnull, Option.bind_some]

theorem Measured.isFinite {t : HitTable Binary64} (h : t.Measured) {distances : List Binary64}
    (hdistances : distances ∈ t.distances) {d : Binary64} (hd : d ∈ distances)
    (hfinite : d ≠ .infinity) : d.isFinite = true :=
  (Binary64.isFinite_or_eq_infinity (h.distances distances hdistances d hd)).resolve_right hfinite

/-- Measured tables are read back as far as their distances are finite. -/
theorem Measured.readBack {t : HitTable Binary64} (h : t.Measured) : t.ReadBack where
  survives := by
    intro hfinite
    apply survives_of_expressible
    simp only [HitTable.expressible_iff, expressible_list, expressible_option, expressible_nat,
      expressible_binary64]
    refine ⟨⟨⟨h.offsets, h.indices⟩, h.ranks⟩, fun distances hdistances d hd => ?_⟩
    apply h.isFinite hdistances hd
    rintro rfl
    exact hfinite distances hdistances hd
  refused := by
    rintro ⟨distances, hdistances, hinfinity⟩
    exact refused_of_infinity hdistances hinfinity
  hit_survives := by
    intro q row hrow hit hhit hfinite
    obtain ⟨i, hi⟩ := exists_hitAt_of_mem_hits hrow hit hhit
    obtain ⟨hindex, hrank, hdistance⟩ := mem_of_hitAt? hi
    apply survives_of_expressible
    simp only [Hit.expressible_iff, expressible_option, expressible_nat, expressible_binary64]
    refine ⟨⟨h.indices _ hindex, h.ranks _ hrank⟩, fun d hd => ?_⟩
    obtain ⟨distances, hdistances, hmem⟩ := hdistance d hd
    apply h.isFinite hdistances hmem
    rintro rfl
    exact hfinite hd
  hit_stripped := by
    intro q row hrow hit hhit hinfinity
    obtain ⟨i, hi⟩ := exists_hitAt_of_mem_hits hrow hit hhit
    obtain ⟨hindex, hrank, -⟩ := mem_of_hitAt? hi
    exact stripped_of_infinity (h.indices _ hindex) (h.ranks _ hrank) hinfinity

end HitTable

/-! ### Queries -/

namespace PartitionedIndex

variable {n : Nat}

/-- Where indices and ranks are numbers of 64 bits, as they have to be, a query that succeeds gives a
table that is equal to what is read back from its text unless one of its distances is infinite, and
so are its hits: whatever the options and the batches, and in whatever order the ranks act. A table
with an infinite distance is not read back, and a hit with one loses it. Batches that go together,
for which there is room, do get their tables. -/
theorem tables_read_back {shares : Fin n → Share Binary64} (hshares : ∀ b, (shares b).AllNumeric)
    (hindexed : ∀ b, (shares b).Indexed) (hn : n ≤ UInt64.size) (options : Fin n → SearchOptions)
    (batches : Fin n → List (Query Binary64)) :
    (∀ log g, Group.Recorded (asking (fun i => (shares i).index) options batches) log g →
      ∀ i table, g.programs.get i = .done (.ok table) → table.ReadBack) ∧
    (Admitted shares options batches → Compatible options batches →
      Group.AlwaysEnds (Answered fun _ table => table.ReadBack)
        (asking (fun i => (shares i).index) options batches)) := by
  have hback : ∀ log g, Group.Recorded (asking (fun i => (shares i).index) options batches) log g →
      ∀ i table, g.programs.get i = .done (.ok table) → table.ReadBack := by
    intro log g hrecorded i table hdone
    have hgoverns := governs_asking_measured hshares hindexed hn options batches
    exact ((hgoverns.recorded hrecorded).result hdone table rfl).readBack
  constructor
  · exact hback
  · intro hadmitted hall
    obtain ⟨stages, result, hperf, htables⟩ := exists_performs_asking hadmitted
    have hends := Group.alwaysEnds_of_performs hperf
    rw [Group.of_none] at hends
    -- All runs end alike, so that one of them says what the tables are.
    obtain ⟨log, last, hrecorded, hlast, -⟩ := hends.exists_recorded .start
    refine hends.mono fun g hg i => ?_
    obtain ⟨table, htable⟩ := htables hall i
    refine ⟨table, (hg.1 i).trans (congrArg _ htable), ?_⟩
    exact hback log last hrecorded i table ((hlast i).trans (congrArg _ htable))

theorem tables_read_back_nearOrigin :
    Group.AlwaysEnds (Answered fun _ table => table.ReadBack)
      (asking (fun i => (twoRanks i).index) (fun _ => {}) fun i => (nearOrigin i).map .nearest) := by
  have hshares : ∀ b, (twoRanks b).AllNumeric := by decide
  have hindexed : ∀ b, (twoRanks b).Indexed := by decide
  have hadmitted : Admitted twoRanks (fun _ => {}) fun i => (nearOrigin i).map .nearest :=
    .of_hitBound (fun i => ⟨some .nearest, by revert i; decide⟩) (by decide) (by decide)
      (by decide)
  exact (tables_read_back hshares hindexed (by decide) (fun _ => {})
    fun i => (nearOrigin i).map .nearest).2 hadmitted ⟨fun _ _ => rfl, by decide⟩

def oneOrigin (_ : Fin 1) : Share Binary64 := ⟨[⟨0, .ofPoint .origin⟩], .tree⟩

/-- A finite point whose distance from the origin has a square beyond the range. -/
def faraway : Point Binary64 := ⟨⟨0x6126c2d4256ffcc3⟩, 0, 0⟩

/-- The nearest neighbor of a finite point among finite boxes is lost on the way through a text. -/
theorem tables_lost_faraway : (∀ b, (oneOrigin b).AllRegular) ∧ faraway.Finite ∧
    Group.AlwaysEnds (Answered fun _ table => ¬ Survives table ∧
        ∃ hit, table.hits? 0 = some [hit] ∧ ¬ Survives hit)
      (session oneOrigin {} fun _ => [.nearest ⟨faraway, 1⟩]) := by
  refine ⟨by decide, by decide, ?_⟩
  let targets : Fin 1 → List (NearestQuery Binary64) := fun _ => [⟨faraway, 1⟩]
  have hshares : ∀ b, (oneOrigin b).AllNumeric := by decide
  have hk : ∀ i, ∀ t ∈ targets i, 0 < t.k ∧ t.k ≤ 256 := by decide
  have hfits : Fits oneOrigin fun i => (targets i).map .nearest := ⟨by decide, by decide⟩
  choose tables htables hexact using fun i => exists_nearestTable oneOrigin (targets i)
  have hall : Located.all oneOrigin faraway = [⟨.infinity, 0, 0⟩] := by
    have hdistance : (Box.ofPoint .origin).distance faraway = .infinity := by decide +kernel
    change [(⟨(Box.ofPoint .origin).distance faraway, 0, 0⟩ : Located Binary64)] = _
    rw [hdistance]
  refine alwaysEnds_nearest {} hk ⟨0, by decide⟩
    (together_refine_tables _ hshares hk hfits htables) fun i => ?_
  have hrow : (tables i).hits? 0 = some [⟨0, 0, some .infinity⟩] := by
    rw [(hexact i).2 0 Nat.zero_lt_one]
    change some (((Ranking.sort _ (Located.all oneOrigin faraway)).take 1).map _) = _
    rw [hall, Ranking.sort, List.mergeSort_singleton]
    rfl
  obtain ⟨j, hj⟩ := HitTable.exists_hitAt_of_mem_hits hrow _ List.mem_cons_self
  obtain ⟨distances, hdistances, hinfinity⟩ := (HitTable.mem_of_hitAt? hj).2.2 _ rfl
  refine ⟨not_survives_of_refused (HitTable.refused_of_infinity hdistances hinfinity), _, hrow, ?_⟩
  rintro ⟨hit, hback, hequal⟩
  rw [HitTable.stripped_of_infinity (by decide) (by decide) rfl] at hback
  cases hback
  cases hequal

end PartitionedIndex

end SpatialSearch
