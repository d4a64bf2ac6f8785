import SpatialSearch.Proofs.Drains

/-!
# Streams of candidates

A heap to which candidates are offered one after another keeps the first `k` of them in the
order of distance and index, with what was offered several times. `Smallest` says which part of
a multiset that is, without a word on how it is found: none of the others comes before it. Since
neighbors that tie are the same there is only one such part, so what is kept does not depend on
the order of the stream, and a capacity beyond `k` makes no difference.
-/

namespace SpatialSearch

namespace Ranking

variable {β : Type}

/-- A part of a multiset with `k` elements, or with all if there are fewer, before which none of
the others comes. -/
structure Smallest (le : β → β → Prop) (k : Nat) (all kept : Multiset β) : Prop where
  card_eq : Multiset.card kept = min k (Multiset.card all)
  others : ∃ rest, kept + rest = all ∧ ∀ a ∈ kept, ∀ b ∈ rest, le a b

variable {cmp : β → β → Ordering} [Std.TransCmp cmp]

variable (cmp) in
theorem smallest_firsts (k : Nat) (l : List β) :
    Smallest (fun a b => (cmp a b).isLE) k (l : Multiset β) (firsts cmp k l : Multiset β) := by
  obtain ⟨rest, hperm, hrest⟩ := exists_rest cmp k l
  refine ⟨length_firsts cmp k l, (rest : Multiset β), Multiset.coe_eq_coe.mpr hperm, ?_⟩
  exact fun a ha b hb => hrest a (Multiset.mem_coe.mp ha) b (Multiset.mem_coe.mp hb)

/-- Where only equal elements tie there are no other ones. -/
theorem smallest_iff [Std.LawfulEqCmp cmp] {k : Nat} {l : List β} {kept : Multiset β} :
    Smallest (fun a b => (cmp a b).isLE) k (l : Multiset β) kept ↔
      kept = (firsts cmp k l : Multiset β) := by
  constructor
  · rintro ⟨hcard, rest, hsum, hle⟩
    induction kept, rest using Quotient.inductionOn₂ with
    | h m others =>
      have hsorted : (sort cmp m).Perm m := sort_perm m
      have hfirst : sort cmp m = firsts cmp k l := by
        refine eq_firsts others ?_ (pairwise_sort cmp m) ?_ fun a ha b hb => ?_
        · exact (hsorted.append_right others).trans (Multiset.coe_eq_coe.mp hsum)
        · exact hsorted.length_eq.trans hcard
        · exact hle a (hsorted.mem_iff.mp ha) b hb
      exact Multiset.coe_eq_coe.mpr (hfirst ▸ hsorted.symm)
  · rintro rfl
    exact smallest_firsts cmp k l

end Ranking

namespace NearestPass

variable {α : Type} [Scalar α] [LawfulScalar α] {k : Nat} {queue : NeighborHeap α}

omit [LawfulScalar α] in
theorem clear_of_isEmpty (hempty : queue.isEmpty = true) : queue.clear = queue := by
  obtain ⟨items, capacity⟩ := queue
  have hitems : items = #[] := Array.isEmpty_iff.mp hempty
  subst hitems
  rfl

omit [LawfulScalar α] in
theorem smallest_noLater_iff {all kept : Multiset (Neighbor α)} :
    Ranking.Smallest Neighbor.NoLater k all kept ↔
      Ranking.Smallest (fun a b => (Neighbor.order a b).isLE) k all kept := by
  simp only [Neighbor.isLE_order_iff]

/-- An empty heap with room for `k` takes every stream without a failure and holds the `k`
smallest candidates of it then, or all if there are fewer. No other candidates are the smallest
ones, and the same candidates in another order leave the same ones. -/
theorem considerAll_keeps_smallest (hk : 0 < k) (hempty : queue.isEmpty = true)
    (hroom : k ≤ queue.capacity) (stream : List (Neighbor α)) :
    ∃ next, ExceptT.run (considerAll k stream) queue = (.ok (), next) ∧
      next.capacity = queue.capacity ∧
      (∀ kept, Ranking.Smallest Neighbor.NoLater k (stream : Multiset (Neighbor α)) kept ↔
        kept = next.bag) ∧
      ∀ other : List (Neighbor α), other.Perm stream → ∃ next',
        ExceptT.run (considerAll k other) queue = (.ok (), next') ∧ next'.bag = next.bag := by
  have hstart := keeps_clear k queue
  rw [clear_of_isEmpty hempty] at hstart
  obtain ⟨next, hnext, hkeeps⟩ := hstart.considerAll hk hroom stream
  have hbag : next.bag = (Ranking.firsts Neighbor.order k stream : Multiset (Neighbor α)) :=
    Multiset.coe_eq_coe.mpr hkeeps.kept
  refine ⟨next, hnext, hkeeps.capacity_eq, fun kept => ?_, fun other hperm => ?_⟩
  · rw [smallest_noLater_iff, Ranking.smallest_iff, hbag]
  · obtain ⟨next', hnext', hkeeps'⟩ := hstart.considerAll hk hroom other
    refine ⟨next', hnext', ?_⟩
    rw [hbag, ← Ranking.firsts_congr k hperm]
    exact Multiset.coe_eq_coe.mpr hkeeps'.kept

/-- Five candidates for three places in a heap of four: two are the same, two are equally far,
and one is beyond all numbers. -/
theorem considerAll_keeps_smallest_fiveOffered :
    let queue : NeighborHeap Binary64 := .empty 4
    let stream : List (Neighbor Binary64) :=
      [⟨.half, 7⟩, ⟨.infinity, 0⟩, ⟨.half, 7⟩, ⟨.half, 2⟩, ⟨0, 9⟩]
    0 < 3 ∧ queue.isEmpty = true ∧ 3 ≤ queue.capacity ∧
      ∃ next, ExceptT.run (considerAll 3 stream) queue = (.ok (), next) ∧
        next.capacity = queue.capacity ∧
        (∀ kept, Ranking.Smallest Neighbor.NoLater 3 (stream : Multiset (Neighbor Binary64)) kept ↔
          kept = next.bag) ∧
        ∀ other : List (Neighbor Binary64), other.Perm stream → ∃ next',
          ExceptT.run (considerAll 3 other) queue = (.ok (), next') ∧ next'.bag = next.bag := by
  intro queue stream
  have hk : 0 < 3 := by decide
  have hempty : queue.isEmpty = true := rfl
  have hroom : 3 ≤ queue.capacity := by decide
  exact ⟨hk, hempty, hroom, considerAll_keeps_smallest hk hempty hroom stream⟩

end NearestPass

end SpatialSearch
