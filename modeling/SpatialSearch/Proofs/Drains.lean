import SpatialSearch.Proofs.Binary64Laws
import SpatialSearch.Proofs.HeapRuns
import SpatialSearch.Proofs.Shortlist

/-!
# Draining a heap sorts its elements

A heap is drained by taking out its top until nothing is left. The tops are appended to a list
as they come, the highest first, and in the end what was appended is turned around. That gives
the elements in ascending order behind a list that is otherwise as it was, and a heap that has
no elements and its old capacity. Where elements tie, their order among themselves is left
open; neighbors never tie.
-/

namespace SpatialSearch

namespace BoundedHeap

variable {β : Type} {cmp : β → β → Ordering}

def popAll (q : BoundedHeap cmp) (out : List β) : BoundedHeap cmp × List β :=
  match _popped : q.pop? with
  | none => (q, out)
  | some (x, rest) => rest.popAll (out ++ [x])
termination_by q.items.size
decreasing_by
  have := size_of_pop? _popped
  omega

/-- Take all tops out, append them to a list and turn around what was appended. -/
def drainByTops (q : BoundedHeap cmp) (out : List β) : BoundedHeap cmp × List β :=
  let (rest, grown) := q.popAll out
  (rest, grown.take out.length ++ (grown.drop out.length).reverse)

theorem eq_clear_of_pop? {q : BoundedHeap cmp} (h : q.pop? = none) : q = q.clear := by
  have hitems : q.items = #[] := Array.toList_eq_nil_iff.mp (toList_eq_nil_of_pop? h)
  obtain ⟨items, capacity⟩ := q
  cases hitems
  rfl

theorem descending_of_pop?_eq_none {q : BoundedHeap cmp} (h : q.pop? = none) :
    q.descending = [] := by
  have hnil := descending_perm q
  rw [toList_eq_nil_of_pop? h] at hnil
  exact hnil.eq_nil

theorem descending_of_pop? {q rest : BoundedHeap cmp} {x : β} (h : q.pop? = some (x, rest)) :
    q.descending = x :: rest.descending := by
  rw [descending]
  split
  · rename_i hnone
    rw [h] at hnone
    cases hnone
  · rename_i y rest' hsome
    rw [h] at hsome
    cases hsome
    rfl

/-- The loop leaves an empty heap and has appended the elements from the highest down. -/
theorem popAll_eq (q : BoundedHeap cmp) (out : List β) :
    q.popAll out = (q.clear, out ++ q.descending) := by
  fun_induction popAll q out with
  | case1 q out hnone =>
    rw [← eq_clear_of_pop? hnone, descending_of_pop?_eq_none hnone, List.append_nil]
  | case2 q out x rest hpop ih =>
    have hclear : rest.clear = q.clear := by
      rw [clear, clear, capacity_of_pop? hpop]
    rw [ih, hclear, descending_of_pop? hpop, List.append_assoc, List.singleton_append]

/-- Only what was appended is turned around. -/
theorem drainByTops_eq (q : BoundedHeap cmp) (out : List β) :
    q.drainByTops out = q.drainInto out := by
  rw [drainByTops, popAll_eq, drainInto, ascending]
  simp only [List.take_left', List.drop_left']

structure SortedIn (q : BoundedHeap cmp) (l : List β) : Prop where
  perm : l.Perm q.toList
  pairwise : l.Pairwise fun a b => (cmp a b).isLE

section Order

variable [Std.TransCmp cmp]

theorem Lawful.sortedIn_ascending {q : BoundedHeap cmp} (hq : q.Lawful) :
    q.SortedIn q.ascending :=
  ⟨ascending_perm q, pairwise_ascending hq⟩

/-- Where no two elements tie there is one way to sort them. -/
theorem SortedIn.eq_ascending [Std.LawfulEqCmp cmp] {q : BoundedHeap cmp} (hq : q.Lawful)
    {l : List β} (h : q.SortedIn l) : l = q.ascending := by
  rw [ascending_eq_sort hq]
  exact Ranking.eq_sort h.perm h.pairwise

variable (cmp) in
/-- After any operations a heap is lawful and has the capacity it was made with. -/
theorem lawful_performAll (capacity : Nat) (ops : List (Operation β)) :
    ((empty capacity : BoundedHeap cmp).performAll ops).2.Lawful ∧
      ((empty capacity : BoundedHeap cmp).performAll ops).2.capacity = capacity := by
  have hordered : ∀ q : BoundedHeap cmp, q.Lawful → q.OrderedBy fun a b => (cmp a b).isLE :=
    fun _ hq => hq.orderedBy
  obtain ⟨-, -, hcapacity, hlawful⟩ :=
    bagRun_performAll Lawful (fun _ op hq => lawful_perform hq op) hordered ops (empty capacity)
      (fun j => j.elim0) (Nat.zero_le capacity)
  exact ⟨hlawful, hcapacity⟩

/-- Draining by tops and at once is the same, and puts the elements in order behind the list. -/
theorem Lawful.exists_drain {q : BoundedHeap cmp} (hq : q.Lawful) (out : List β) :
    ∃ added, q.SortedIn added ∧ q.drainByTops out = (empty q.capacity, out ++ added) ∧
      q.drainInto out = (empty q.capacity, out ++ added) :=
  ⟨q.ascending, hq.sortedIn_ascending, drainByTops_eq q out, rfl⟩

end Order

end BoundedHeap

namespace Neighbor

variable {α : Type} [Scalar α]

/-- Nearer, or as near and of no greater index. -/
def NoLater (a b : Neighbor α) : Prop :=
  Scalar.totalOrder a.distance b.distance = .lt ∨
    Scalar.totalOrder a.distance b.distance = .eq ∧ a.index ≤ b.index

theorem isLE_order_iff {a b : Neighbor α} : (a.order b).isLE ↔ a.NoLater b := by
  rw [order, NoLater]
  cases Scalar.totalOrder a.distance b.distance with
  | lt => simp
  | eq => simp [Nat.isLE_compare]
  | gt => simp

end Neighbor

namespace BoundedHeap

theorem sortedIn_iff {α : Type} [Scalar α] {q : NeighborHeap α} {l : List (Neighbor α)} :
    q.SortedIn l ↔ l.Perm q.toList ∧ l.Pairwise Neighbor.NoLater :=
  ⟨fun h => ⟨h.perm, h.pairwise.imp Neighbor.isLE_order_iff.mp⟩,
    fun h => ⟨h.1, h.2.imp Neighbor.isLE_order_iff.mpr⟩⟩

/-- A heap under a total and transitive comparison that any operations have led to is drained
into its elements in ascending order, behind a list that stays as it is, and is left empty with
its capacity. Of neighbors this is the only list in the order of distance and index. -/
theorem draining_sorts :
    (∀ {β : Type} (cmp : β → β → Ordering) [Std.TransCmp cmp] (capacity : Nat)
        (ops : List (Operation β)) (out : List β),
      let q := ((empty capacity : BoundedHeap cmp).performAll ops).2
      q.SortedIn q.ascending ∧
        ∃ added, q.SortedIn added ∧ q.drainByTops out = (empty capacity, out ++ added) ∧
          q.drainInto out = (empty capacity, out ++ added)) ∧
    ∀ {α : Type} [Scalar α] [LawfulScalar α] (capacity : Nat)
        (ops : List (Operation (Neighbor α))) (out : List (Neighbor α)),
      let q := ((empty capacity : NeighborHeap α).performAll ops).2
      ∃ added, q.drainInto out = (empty capacity, out ++ added) ∧
        ∀ l, l = added ↔ l.Perm q.toList ∧ l.Pairwise Neighbor.NoLater := by
  constructor
  · intro β cmp _ capacity ops out q
    obtain ⟨hlawful, hcapacity⟩ := lawful_performAll cmp capacity ops
    have hdrain := hlawful.exists_drain out
    rw [hcapacity] at hdrain
    exact ⟨hlawful.sortedIn_ascending, hdrain⟩
  · intro α _ _ capacity ops out q
    obtain ⟨hlawful, hcapacity⟩ := lawful_performAll (@Neighbor.order α _) capacity ops
    obtain ⟨added, hsorted, -, hdrain⟩ := hlawful.exists_drain out
    rw [hcapacity] at hdrain
    refine ⟨added, hdrain, fun l => ?_⟩
    rw [← sortedIn_iff]
    constructor
    · rintro rfl
      exact hsorted
    · intro hl
      rw [hl.eq_ascending hlawful, hsorted.eq_ascending hlawful]

/-- A heap of pairs with a tie, and a heap of neighbors of which two are equally far. -/
theorem draining_sorts_ties :
    let cmp : Nat × Nat → Nat × Nat → Ordering := fun a b => compare a.1 b.1
    let q := ((empty 3 : BoundedHeap cmp).performAll
      [.push (1, 0), .push (0, 1), .push (1, 2), .swapTop (1, 3)]).2
    let near : NeighborHeap Binary64 := ((empty 2 : NeighborHeap Binary64).performAll
      [.push ⟨.half, 7⟩, .push ⟨.half, 4⟩, .push ⟨0, 1⟩]).2
    Std.TransCmp cmp ∧ LawfulScalar Binary64 ∧
      (∃ added, q.SortedIn added ∧ q.drainByTops [(9, 9)] = (empty 3, [(9, 9)] ++ added) ∧
        q.drainInto [(9, 9)] = (empty 3, [(9, 9)] ++ added)) ∧
      ∃ added, near.drainInto [⟨0, 0⟩] = (empty 2, [⟨0, 0⟩] ++ added) ∧
        ∀ l, l = added ↔ l.Perm near.toList ∧ l.Pairwise Neighbor.NoLater := by
  intro cmp q near
  have horder : Std.TransCmp cmp := Ranking.transCmp_on compare Prod.fst
  exact ⟨horder, inferInstance, (draining_sorts.1 cmp 3 _ _).2, draining_sorts.2 2 _ _⟩

end BoundedHeap

end SpatialSearch
