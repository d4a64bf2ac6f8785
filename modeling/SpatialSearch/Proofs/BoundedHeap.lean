import SpatialSearch.Proofs.Heap

/-!
# Bounded heaps as bounded multisets

What each operation does to the elements of a heap, up to their order in the array: an
insertion adds one, taking the top out removes one, and the elements leave the heap one by
one. Under a total and transitive comparison the heap law survives each of them, none
ranks above the element that is taken out, and the elements leave in their order.
-/

namespace SpatialSearch

namespace BoundedHeap

variable {β : Type} {cmp : β → β → Ordering}

def Lawful (q : BoundedHeap cmp) : Prop := Heaped cmp q.items.toVector

theorem lawful_mk {n : Nat} {v : Vector β n} (h : Heaped cmp v) (capacity : Nat) :
    Lawful (⟨v.toArray, capacity⟩ : BoundedHeap cmp) := by
  obtain ⟨items, rfl⟩ := v
  exact h

theorem lawful_pop {q : BoundedHeap cmp} (hq : q.Lawful) :
    Lawful ({ q with items := q.items.pop } : BoundedHeap cmp) :=
  lawful_mk (Heaped.pop hq) q.capacity

theorem lawful_clear (q : BoundedHeap cmp) : q.clear.Lawful := fun j => j.elim0

@[simp] theorem toList_clear (q : BoundedHeap cmp) : q.clear.toList = [] := rfl

theorem length_toList (q : BoundedHeap cmp) : q.toList.length = q.size := Array.length_toList

theorem toArray_perm {n : Nat} {v w : Vector β n} (h : v.Perm w) :
    v.toArray.toList.Perm w.toArray.toList :=
  Array.perm_iff_toList_perm.mp (Vector.perm_iff_toArray_perm.mp h)

theorem push_perm {q q' : BoundedHeap cmp} {x : β} (h : q.push x = .ok q') :
    q'.toList.Perm (q.toList ++ [x]) ∧ q'.capacity = q.capacity := by
  unfold push at h
  split at h
  · cases h
  · cases h
    refine ⟨?_, rfl⟩
    have hp := toArray_perm
      (heapifyUp_perm cmp (q.items.toVector.push x) (Fin.last _))
    simpa [toList] using hp

/-- An insertion succeeds while there is room. -/
theorem exists_push {q : BoundedHeap cmp} (h : q.size < q.capacity) (x : β) :
    ∃ q', q.push x = .ok q' := by
  have hfull : q.isFull = false := by
    rw [isFull, decide_eq_false_iff_not]
    exact Nat.not_le.mpr h
  exact ⟨_, by rw [push, if_neg (by rw [hfull]; exact Bool.false_ne_true)]⟩

/-- A full heap refuses every insertion. -/
theorem push_of_full {q : BoundedHeap cmp} (h : q.capacity ≤ q.size) (x : β) :
    q.push x = .error (.overCapacity q.capacity) := by
  have hfull : q.isFull = true := decide_eq_true h
  rw [push, if_pos hfull]

theorem toList_eq_cons (q : BoundedHeap cmp) (h : 0 < q.items.size) :
    q.toList = q.items[0] :: q.toList.tail := by
  obtain ⟨⟨items⟩, capacity⟩ := q
  cases items with
  | nil => exact absurd h (Nat.lt_irrefl 0)
  | cons x items => rfl

theorem sinkTop_perm (q : BoundedHeap cmp) (x : β) (h : 0 < q.items.size) :
    (q.sinkTop x h).toList.Perm (x :: q.toList.tail) := by
  have hp := toArray_perm
    (heapifyDown_perm cmp (q.items.toVector.set 0 x) ⟨0, h⟩)
  have hset : (q.items.toVector.set 0 x h).toArray.toList = x :: q.toList.tail := by
    rw [Vector.toArray_set, Array.toList_set]
    change q.toList.set 0 x = _
    rw [toList_eq_cons q h]
    rfl
  rw [hset] at hp
  exact hp

theorem toList_eq_nil_of_pop? {q : BoundedHeap cmp} (h : q.pop? = none) : q.toList = [] := by
  unfold pop? at h
  split at h
  · rename_i hback
    rw [toList, Array.toList_eq_nil_iff]
    exact Array.back?_eq_none_iff.mp hback
  · dsimp only at h
    split at h <;> cases h

/-- What taking the top out does: the last element is left alone, or it takes the place of
the top. -/
theorem cases_of_pop? {q rest : BoundedHeap cmp} {x : β} (h : q.pop? = some (x, rest)) :
    (q.items = #[x] ∧ rest = ⟨#[], q.capacity⟩) ∨
      ∃ (items : Array β) (last : β) (hpos : 0 < items.size), q.items = items.push last ∧
        x = items[0] ∧ rest = (⟨items, q.capacity⟩ : BoundedHeap cmp).sinkTop last hpos := by
  unfold pop? at h
  split at h
  · cases h
  · rename_i last hlast
    obtain ⟨items, hitems⟩ := Array.back?_eq_some_iff.mp hlast
    have hinit : q.items.pop = items := by rw [hitems, Array.pop_push]
    rw [hinit] at h
    dsimp only at h
    split at h
    · rename_i hpos
      obtain ⟨rfl, rfl⟩ := Prod.mk.inj (Option.some.inj h)
      exact Or.inr ⟨items, last, hpos, hitems, rfl, rfl⟩
    · rename_i hpos
      obtain ⟨rfl, rfl⟩ := Prod.mk.inj (Option.some.inj h)
      have hempty : items = #[] :=
        Array.eq_empty_of_size_eq_zero (Nat.eq_zero_of_not_pos hpos)
      subst hempty
      exact Or.inl ⟨hitems, rfl⟩

theorem capacity_of_pop? {q rest : BoundedHeap cmp} {x : β} (h : q.pop? = some (x, rest)) :
    rest.capacity = q.capacity := by
  obtain ⟨-, rfl⟩ | ⟨items, last, hpos, -, -, rfl⟩ := cases_of_pop? h
  · rfl
  · rfl

theorem top?_of_pop? {q rest : BoundedHeap cmp} {x : β} (h : q.pop? = some (x, rest)) :
    q.top? = some x := by
  obtain ⟨hitems, -⟩ | ⟨items, last, hpos, hitems, rfl, -⟩ := cases_of_pop? h
  · rw [top?, hitems]
    rfl
  · rw [top?, hitems, Array.getElem?_push_lt hpos]

/-- The element taken out and those left behind are the elements that were there. -/
theorem pop?_perm {q rest : BoundedHeap cmp} {x : β} (h : q.pop? = some (x, rest)) :
    (x :: rest.toList).Perm q.toList := by
  obtain ⟨hitems, rfl⟩ | ⟨items, last, hpos, hitems, rfl, rfl⟩ := cases_of_pop? h
  · rw [toList, toList, hitems]
  · let init : BoundedHeap cmp := ⟨items, q.capacity⟩
    have hcons : items.toList = items[0] :: items.toList.tail := init.toList_eq_cons hpos
    have hall : q.toList = items[0] :: (items.toList.tail ++ [last]) := by
      rw [toList, hitems, Array.toList_push, ← List.cons_append, ← hcons]
    rw [hall]
    refine ((sinkTop_perm init last hpos).cons _).trans ?_
    exact (List.perm_append_singleton last items.toList.tail).symm.cons items[0]

/-- The elements that leave a heap are its elements, each of them once. -/
theorem descending_perm (q : BoundedHeap cmp) : q.descending.Perm q.toList := by
  fun_induction descending q with
  | case1 q hnone =>
    rw [toList_eq_nil_of_pop? hnone]
  | case2 q x rest hpop ih => exact (ih.cons x).trans (pop?_perm hpop)

theorem ascending_perm (q : BoundedHeap cmp) : q.ascending.Perm q.toList :=
  (List.reverse_perm _).trans (descending_perm q)

section Order

variable [Std.TransCmp cmp]

theorem lawful_push {q q' : BoundedHeap cmp} {x : β} (hq : q.Lawful) (h : q.push x = .ok q') :
    q'.Lawful := by
  unfold push at h
  split at h
  · cases h
  · cases h
    exact lawful_mk (heaped_heapifyUp (hq.push x)) _

theorem lawful_sinkTop {q : BoundedHeap cmp} (hq : q.Lawful) (x : β) (h : 0 < q.items.size) :
    (q.sinkTop x h).Lawful :=
  lawful_mk (heaped_heapifyDown (hq.set_top h x)) _

/-- None ranks above the top. -/
theorem Lawful.isLE_top {q : BoundedHeap cmp} (hq : q.Lawful) (h : 0 < q.items.size) {x : β}
    (hx : x ∈ q.toList) : (cmp x q.items[0]).isLE := by
  obtain ⟨i, hi, rfl⟩ := Array.mem_iff_getElem.mp (Array.mem_toList_iff.mp hx)
  exact Heaped.top_max hq h ⟨i, hi⟩

theorem Lawful.isLE_of_top? {q : BoundedHeap cmp} (hq : q.Lawful) {x y : β}
    (h : q.top? = some x) (hy : y ∈ q.toList) : (cmp y x).isLE := by
  obtain ⟨hpos, rfl⟩ := Array.getElem?_eq_some_iff.mp h
  exact hq.isLE_top hpos hy

/-- The heap law survives the removal of the top. -/
theorem lawful_of_pop? {q rest : BoundedHeap cmp} {x : β} (hq : q.Lawful)
    (h : q.pop? = some (x, rest)) : rest.Lawful := by
  obtain ⟨-, rfl⟩ | ⟨items, last, hpos, hitems, -, rfl⟩ := cases_of_pop? h
  · exact fun j => j.elim0
  · have hinit : (⟨items, q.capacity⟩ : BoundedHeap cmp).Lawful := by
      have hpop := lawful_pop hq
      simpa only [hitems, Array.pop_push] using hpop
    exact lawful_sinkTop hinit last hpos

theorem lawful_swapTop {q q' : BoundedHeap cmp} {x : β} {found : Option β} (hq : q.Lawful)
    (h : q.swapTop x = .ok (found, q')) : q'.Lawful := by
  unfold swapTop at h
  split at h
  · rename_i hpos
    cases h
    exact lawful_sinkTop hq x hpos
  · cases hpush : q.push x with
    | error fault =>
      rw [hpush] at h
      cases h
    | ok q'' =>
      rw [hpush] at h
      cases h
      exact lawful_push hq hpush

/-- The elements leave a lawful heap from the highest to the lowest. -/
theorem pairwise_descending (q : BoundedHeap cmp) (hq : q.Lawful) :
    q.descending.Pairwise fun a b => (cmp b a).isLE := by
  fun_induction descending q with
  | case1 q hnone => exact .nil
  | case2 q x rest hpop ih =>
    refine List.pairwise_cons.mpr ⟨?_, ih (lawful_of_pop? hq hpop)⟩
    intro y hy
    have hmem : y ∈ q.toList :=
      (pop?_perm hpop).subset (List.mem_cons_of_mem x ((descending_perm rest).subset hy))
    exact hq.isLE_of_top? (top?_of_pop? hpop) hmem

theorem pairwise_ascending {q : BoundedHeap cmp} (hq : q.Lawful) :
    q.ascending.Pairwise fun a b => (cmp a b).isLE :=
  List.pairwise_reverse.mpr (pairwise_descending q hq)

/-- The ascending list is the sorted one where no two elements tie. -/
theorem ascending_eq_sort [Std.LawfulEqCmp cmp] {q : BoundedHeap cmp} (hq : q.Lawful) :
    q.ascending = Ranking.sort cmp q.toList :=
  Ranking.eq_sort (ascending_perm q) (pairwise_ascending hq)

end Order

end BoundedHeap

end SpatialSearch
