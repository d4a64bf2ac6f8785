import SpatialSearch.Index.LinearScan
import SpatialSearch.Proofs.BoundedHeap
import SpatialSearch.Proofs.Enclosure

/-!
# Shortlists keep the first neighbors

`Keeps k capacity queue seen` says that a heap holds the first `k` of the candidates seen so
far, in any array order. Considering a candidate extends what was seen by it, and a box
that is not promising can be counted as seen without a look at what is in it.
-/

namespace SpatialSearch

open LawfulScalar

namespace Neighbor

variable {α : Type} [Scalar α] [LawfulScalar α]

instance : Std.TransCmp (Neighbor.order (α := α)) :=
  have : Std.TransCmp fun a b : Neighbor α => Scalar.totalOrder a.distance b.distance :=
    Ranking.transCmp_on Scalar.totalOrder Neighbor.distance
  inferInstanceAs <| Std.TransCmp <| compareLex
    (fun a b : Neighbor α => Scalar.totalOrder a.distance b.distance) (compareOn (·.index))

instance : Std.LawfulEqCmp (Neighbor.order (α := α)) where
  eq_of_compare {a b} h := by
    obtain ⟨hd, hi⟩ := Ordering.then_eq_eq.mp h
    have hdist : a.distance = b.distance := Std.LawfulEqCmp.eq_of_compare hd
    have hindex : a.index = b.index := Std.LawfulEqCmp.eq_of_compare hi
    cases a
    cases b
    simp_all

theorem order_of_distance_lt {a b : Neighbor α} (h : a.distance < b.distance) :
    a.order b = .lt := by
  rw [order, totalOrder_of_lt h]
  rfl

omit [LawfulScalar α] in
theorem sort_eq (items : List (Neighbor α)) : sort items = Ranking.sort order items := rfl

end Neighbor

namespace Entry

variable {α : Type} [Scalar α]

/-- The neighbors that a set of entries has to offer: one for each box that is not empty. -/
def candidates (target : Point α) (entries : List (Entry α)) : List (Neighbor α) :=
  (entries.filter fun e => !e.box.isEmpty).map fun e => ⟨e.box.distance target, e.index⟩

theorem candidates_append (target : Point α) (l m : List (Entry α)) :
    candidates target (l ++ m) = candidates target l ++ candidates target m := by
  simp [candidates]

theorem candidates_perm (target : Point α) {l m : List (Entry α)} (h : l.Perm m) :
    (candidates target l).Perm (candidates target m) :=
  (h.filter _).map _

theorem length_candidates (target : Point α) (entries : List (Entry α)) :
    (candidates target entries).length = countNonEmpty entries := by
  rw [candidates, List.length_map, countNonEmpty, List.countP_eq_length_filter]

theorem length_candidates_le (target : Point α) (entries : List (Entry α)) :
    (candidates target entries).length ≤ entries.length := by
  rw [length_candidates]
  exact List.countP_le_length

theorem mem_candidates {target : Point α} {entries : List (Entry α)} {c : Neighbor α} :
    c ∈ candidates target entries ↔
      ∃ e ∈ entries, e.box.isEmpty = false ∧ c = ⟨e.box.distance target, e.index⟩ := by
  simp only [candidates, List.mem_map, List.mem_filter, Bool.not_eq_true']
  constructor
  · rintro ⟨e, ⟨he, hne⟩, rfl⟩
    exact ⟨e, he, hne, rfl⟩
  · rintro ⟨e, he, hne, rfl⟩
    exact ⟨e, ⟨he, hne⟩, rfl⟩

end Entry

namespace NearestPass

variable {α : Type} [Scalar α]

theorem run_get_bind {β : Type} (f : NeighborHeap α → NearestPass α β)
    (queue : NeighborHeap α) :
    ExceptT.run (get >>= f) queue = ExceptT.run (f queue) queue := rfl

theorem run_bind {β γ : Type} (p : NearestPass α β) (f : β → NearestPass α γ)
    (queue : NeighborHeap α) :
    ExceptT.run (p >>= f) queue =
      match ExceptT.run p queue with
      | (.ok b, next) => ExceptT.run (f b) next
      | (.error fault, next) => (.error fault, next) := by
  have hbind : ExceptT.run (p >>= f) queue =
      ExceptT.bindCont f (ExceptT.run p queue).1 (ExceptT.run p queue).2 := rfl
  rw [hbind]
  rcases ExceptT.run p queue with ⟨_ | _, next⟩ <;> rfl

theorem run_consider (k : Nat) (c : Neighbor α) (queue : NeighborHeap α) :
    ExceptT.run (consider k c) queue =
      if queue.size < k then
        match queue.push c with
        | .ok next => (.ok (), next)
        | .error fault => (.error fault, queue)
      else if queue.top?.any c.precedes then
        match queue.swapTop c with
        | .ok (_, next) => (.ok (), next)
        | .error fault => (.error fault, queue)
      else (.ok (), queue) := by
  rw [consider, run_get_bind]
  by_cases hsize : queue.size < k
  · rw [if_pos hsize, if_pos hsize, run_bind]
    cases hpush : queue.push c <;> rfl
  · rw [if_neg hsize, if_neg hsize]
    by_cases hany : queue.top?.any c.precedes
    · rw [if_pos hany, if_pos hany, run_bind]
      cases hswap : queue.swapTop c <;> rfl
    · rw [if_neg hany, if_neg hany]
      rfl

theorem run_promising (target : Point α) (k : Nat) (box : Box α) (queue : NeighborHeap α) :
    ExceptT.run (promising target k box) queue =
      (.ok (!box.isEmpty && !(k ≤ queue.size &&
        queue.top?.any fun worst => worst.distance < box.distance target)), queue) := rfl

def considerAll (k : Nat) (stream : List (Neighbor α)) : NearestPass α Unit :=
  stream.forM (consider k)

theorem considerAll_cons (k : Nat) (c : Neighbor α) (rest : List (Neighbor α)) :
    considerAll k (c :: rest) = consider k c >>= fun _ => considerAll k rest := rfl

/-- A heap holds the first `k` of the candidates seen so far. -/
structure Keeps [LawfulScalar α] (k capacity : Nat) (queue : NeighborHeap α)
    (seen : List (Neighbor α)) : Prop where
  lawful : BoundedHeap.Lawful queue
  capacity_eq : queue.capacity = capacity
  kept : queue.toList.Perm (Ranking.firsts Neighbor.order k seen)

variable [LawfulScalar α] {k capacity : Nat} {queue : NeighborHeap α} {seen : List (Neighbor α)}

theorem keeps_clear (k : Nat) (queue : NeighborHeap α) :
    Keeps k queue.capacity queue.clear [] where
  lawful := BoundedHeap.lawful_clear queue
  capacity_eq := rfl
  kept := by simp [Ranking.firsts, Ranking.sort]

theorem Keeps.size_eq (h : Keeps k capacity queue seen) :
    queue.size = min k seen.length := by
  rw [← BoundedHeap.length_toList, h.kept.length_eq, Ranking.length_firsts]

theorem Keeps.of_perm (h : Keeps k capacity queue seen) {seen' : List (Neighbor α)}
    (hp : seen.Perm seen') : Keeps k capacity queue seen' := by
  refine ⟨h.lawful, h.capacity_eq, ?_⟩
  rw [← Ranking.firsts_congr k hp]
  exact h.kept

/-- What comes after all that is kept need not be looked at once the heap is full. -/
theorem Keeps.skip (h : Keeps k capacity queue seen) (hfull : k ≤ queue.size)
    {more : List (Neighbor α)}
    (hmore : ∀ x ∈ more, ∀ y ∈ queue.toList, (y.order x).isLE) :
    Keeps k capacity queue (seen ++ more) := by
  refine ⟨h.lawful, h.capacity_eq, ?_⟩
  rw [Ranking.firsts_append_of_count]
  · exact h.kept
  · intro x hx
    obtain ⟨rest, hperm, -⟩ := Ranking.exists_rest Neighbor.order k seen
    have hall : queue.toList.countP (fun a => (a.order x).isLE) = queue.toList.length :=
      List.countP_eq_length.mpr (hmore x hx)
    rw [BoundedHeap.length_toList] at hall
    rw [← hperm.countP_eq, List.countP_append, ← h.kept.countP_eq, hall]
    omega

/-- The queue with one candidate more, without its former top. -/
theorem Keeps.replace (h : Keeps k capacity queue seen) (hfull : k ≤ queue.size)
    (hpos : 0 < queue.items.size) {c : Neighbor α} (hc : c.order queue.items[0] = .lt) :
    Keeps k capacity (queue.sinkTop c hpos) (seen ++ [c]) := by
  refine ⟨BoundedHeap.lawful_sinkTop h.lawful c hpos, h.capacity_eq, ?_⟩
  have hcons := BoundedHeap.toList_eq_cons _ hpos
  have hle : queue.toList.length ≤ k := by
    rw [BoundedHeap.length_toList, h.size_eq]
    exact Nat.min_le_left k _
  have hlen : (c :: queue.toList.tail).length = k := by
    rw [List.length_cons, List.length_tail]
    rw [BoundedHeap.length_toList] at hle ⊢
    have : 0 < queue.size := hpos
    omega
  have hfirsts : Ranking.firsts Neighbor.order k (seen ++ [c]) =
      Ranking.firsts Neighbor.order k (c :: queue.toList.tail) := by
    calc Ranking.firsts Neighbor.order k (seen ++ [c])
        = Ranking.firsts Neighbor.order k
            (Ranking.firsts Neighbor.order k seen ++ [c]) :=
          (Ranking.firsts_firsts_append k seen [c]).symm
      _ = Ranking.firsts Neighbor.order k (queue.items[0] :: queue.toList.tail ++ [c]) := by
          rw [← hcons]
          exact Ranking.firsts_congr k (h.kept.symm.append_right [c])
      _ = Ranking.firsts Neighbor.order k (c :: queue.toList.tail ++ [queue.items[0]]) := by
          refine Ranking.firsts_congr k ?_
          exact (List.perm_append_singleton c _).trans
            ((List.Perm.swap _ _ _).trans (List.perm_append_singleton queue.items[0] _).symm)
      _ = Ranking.firsts Neighbor.order k (c :: queue.toList.tail) := by
          refine Ranking.firsts_append_of_count fun x hx => ?_
          rw [List.mem_singleton.mp hx, ← hlen]
          refine Nat.le_of_eq (List.countP_eq_length.mpr fun a ha => ?_).symm
          rcases List.mem_cons.mp ha with rfl | ha
          · exact Ordering.isLE_of_eq_lt hc
          · exact h.lawful.isLE_top hpos (List.mem_of_mem_tail ha)
  rw [hfirsts]
  exact (BoundedHeap.sinkTop_perm queue c hpos).trans
    (Ranking.firsts_perm (Nat.le_of_eq hlen)).symm

/-- Considering a candidate never fails where there is room for `k`, and keeps the first
ones of all candidates including it. -/
theorem Keeps.consider (h : Keeps k capacity queue seen) (hk : 0 < k) (hroom : k ≤ capacity)
    (c : Neighbor α) : ∃ next, ExceptT.run (consider k c) queue = (.ok (), next) ∧
      Keeps k capacity next (seen ++ [c]) := by
  rw [run_consider]
  by_cases hsize : queue.size < k
  · obtain ⟨next, hnext⟩ := BoundedHeap.exists_push (q := queue)
      (Nat.lt_of_lt_of_le hsize (h.capacity_eq ▸ hroom)) c
    obtain ⟨hperm, hcap⟩ := BoundedHeap.push_perm hnext
    rw [if_pos hsize, hnext]
    refine ⟨next, rfl, BoundedHeap.lawful_push h.lawful hnext, hcap.trans h.capacity_eq, ?_⟩
    have hfew : seen.length < k := by
      have := h.size_eq
      omega
    have hall : queue.toList.Perm seen := h.kept.trans (Ranking.firsts_perm (by omega))
    refine (hperm.trans (hall.append_right [c])).trans (Ranking.firsts_perm ?_).symm
    rw [List.length_append, List.length_singleton]
    exact hfew
  · have hfull : k ≤ queue.size := Nat.not_lt.mp hsize
    have hpos : 0 < queue.items.size := Nat.lt_of_lt_of_le hk hfull
    have htop : queue.top? = some queue.items[0] := Array.getElem?_eq_getElem hpos
    rw [if_neg hsize, htop, Option.any_some]
    by_cases hbefore : c.precedes queue.items[0]
    · rw [if_pos hbefore, BoundedHeap.swapTop, dif_pos hpos]
      exact ⟨_, rfl, h.replace hfull hpos (beq_iff_eq.mp hbefore)⟩
    · rw [if_neg hbefore]
      refine ⟨queue, rfl, h.skip hfull fun x hx y hy => ?_⟩
      rw [List.mem_singleton.mp hx]
      refine Std.TransCmp.isLE_trans (h.lawful.isLE_top hpos hy) ?_
      by_contra hnot
      exact hbefore (beq_iff_eq.mpr (Std.OrientedCmp.lt_of_not_isLE hnot))

/-- A stream of candidates never fails either, and is seen as a whole. -/
theorem Keeps.considerAll (h : Keeps k capacity queue seen) (hk : 0 < k) (hroom : k ≤ capacity)
    (stream : List (Neighbor α)) :
    ∃ next, ExceptT.run (considerAll k stream) queue = (.ok (), next) ∧
      Keeps k capacity next (seen ++ stream) := by
  induction stream generalizing queue seen with
  | nil => exact ⟨queue, rfl, (List.append_nil seen).symm ▸ h⟩
  | cons c rest ih =>
    obtain ⟨mid, hmid, hkmid⟩ := h.consider hk hroom c
    obtain ⟨next, hnext, hknext⟩ := ih hkmid
    rw [considerAll_cons, run_bind, hmid]
    exact ⟨next, hnext, List.append_assoc seen [c] rest ▸ hknext⟩

/-- A box that is not promising holds nothing worth keeping. -/
theorem Keeps.pass_over (h : Keeps k capacity queue seen) {target : Point α} {box : Box α}
    {entries : List (Entry α)} (hall : ∀ e ∈ entries, box.Encloses e.box)
    (hnot : (!box.isEmpty && !(k ≤ queue.size && queue.top?.any fun worst =>
      worst.distance < box.distance target)) = false) :
    Keeps k capacity queue (seen ++ Entry.candidates target entries) := by
  by_cases hempty : box.isEmpty = true
  · have hnone : Entry.candidates target entries = [] := by
      refine List.eq_nil_iff_forall_not_mem.mpr fun c hc => ?_
      obtain ⟨e, he, hne, -⟩ := Entry.mem_candidates.mp hc
      rw [(hall e he).isEmpty hne] at hempty
      exact Bool.false_ne_true hempty
    rw [hnone, List.append_nil]
    exact h
  · rw [Bool.eq_false_iff.mpr hempty, Bool.not_false, Bool.true_and, Bool.not_eq_false',
      Bool.and_eq_true, decide_eq_true_eq, Option.any_eq_true] at hnot
    obtain ⟨hfull, worst, htop, hfar⟩ := hnot
    obtain ⟨hpos, hworst⟩ := Array.getElem?_eq_some_iff.mp htop
    refine h.skip hfull fun c hc y hy => ?_
    obtain ⟨e, he, hne, rfl⟩ := Entry.mem_candidates.mp hc
    have hbeyond : worst.order ⟨e.box.distance target, e.index⟩ = .lt :=
      Neighbor.order_of_distance_lt (Scalar.lt_of_lt_of_le (of_decide_eq_true hfar)
        (Box.distance_le_distance (hall e he) hne target))
    have hlast := h.lawful.isLE_top hpos hy
    rw [hworst] at hlast
    exact Std.TransCmp.isLE_trans hlast (Ordering.isLE_of_eq_lt hbeyond)

/-- A pass that has seen all candidates answers with the first of them and leaves the heap
empty, whatever it held before. -/
theorem run_eq {pass : NearestPass α Unit} {scratch : Scratch α} {next : NeighborHeap α}
    (hk : 0 < k) (hroom : k ≤ scratch.queue.capacity)
    (hpass : ExceptT.run pass scratch.queue.clear = (.ok (), next)) {k' : Nat}
    (h : Keeps k' scratch.queue.capacity next seen) :
    run pass k scratch = (.ok (),
      ⟨scratch.queue.clear, scratch.found ++ Ranking.firsts Neighbor.order k' seen⟩) := by
  have hcheck : check k scratch.queue = .ok () := by
    rw [check, if_neg (Nat.ne_of_gt hk), if_neg (Nat.not_lt.mpr hroom)]
  have hclear : next.clear = scratch.queue.clear := by
    rw [BoundedHeap.clear, BoundedHeap.clear, h.capacity_eq]
  have hsorted : next.ascending = Ranking.firsts Neighbor.order k' seen := by
    rw [BoundedHeap.ascending_eq_sort h.lawful]
    exact (Ranking.eq_sort h.kept.symm (Ranking.pairwise_firsts Neighbor.order k' seen)).symm
  rw [run, hcheck]
  dsimp only
  rw [hpass]
  dsimp only
  rw [BoundedHeap.drainInto, hclear, hsorted]

omit [LawfulScalar α] in
/-- A pass does not depend on what the borrowed heap holds. -/
theorem run_of_capacity (pass : NearestPass α Unit) {k : Nat} (hk : 0 < k)
    {queue queue' : NeighborHeap α} (hroom : k ≤ queue.capacity)
    (h : queue'.capacity = queue.capacity) (found : List (Neighbor α)) :
    run pass k ⟨queue', found⟩ = run pass k ⟨queue, found⟩ := by
  have hcheck : check k queue = .ok () := by
    rw [check, if_neg (Nat.ne_of_gt hk), if_neg (Nat.not_lt.mpr hroom)]
  have hcheck' : check k queue' = .ok () := by
    rw [check, if_neg (Nat.ne_of_gt hk), if_neg (Nat.not_lt.mpr (h ▸ hroom))]
  have hclear : queue'.clear = queue.clear := by
    rw [BoundedHeap.clear, BoundedHeap.clear, h]
  rw [run, run]
  dsimp only
  rw [hcheck, hcheck', hclear]

end NearestPass

end SpatialSearch
