import Mathlib.Data.Multiset.ZeroCons
import SpatialSearch.Proofs.BoundedHeap

/-!
# Runs of a bounded heap

A bounded heap seen through its multiset of elements, its bag. `BagStep` says what one
operation may do to a bag of bounded size and what it gives back; of several greatest
elements any may be taken. `BagRun` chains such steps. Every run of a heap from the empty
one is a run of its bag: with the order of the elements under a total and transitive
comparison, and with no order at all under an arbitrary one, where still no element is
lost or doubled.
-/

namespace SpatialSearch

namespace BoundedHeap

variable {β : Type} {cmp : β → β → Ordering}

/-- An operation on a bounded heap. -/
inductive Operation (β : Type) where
  | push (x : β)
  | pop
  | swapTop (x : β)
  | clear
  | drainInto (out : List β)

inductive Response (β : Type) where
  | pushed (result : Except IndexFault Unit)
  | popped (result : Option β)
  | swapped (result : Except IndexFault (Option β))
  | cleared
  | drained (out : List β)

/-- Carry out an operation. One that is refused leaves the heap as it is. -/
def perform (q : BoundedHeap cmp) : Operation β → Response β × BoundedHeap cmp
  | .push x =>
    match q.push x with
    | .ok q' => (.pushed (.ok ()), q')
    | .error fault => (.pushed (.error fault), q)
  | .pop =>
    match q.pop? with
    | some (x, q') => (.popped (some x), q')
    | none => (.popped none, q)
  | .swapTop x =>
    match q.swapTop x with
    | .ok (found, q') => (.swapped (.ok found), q')
    | .error fault => (.swapped (.error fault), q)
  | .clear => (.cleared, q.clear)
  | .drainInto out => (.drained (q.drainInto out).2, (q.drainInto out).1)

def performAll (q : BoundedHeap cmp) : List (Operation β) → List (Response β) × BoundedHeap cmp
  | [] => ([], q)
  | op :: ops =>
    ((q.perform op).1 :: ((q.perform op).2.performAll ops).1, ((q.perform op).2.performAll ops).2)

/-- Take the top out and insert an element, in two passes. -/
def popPush (q : BoundedHeap cmp) (x : β) : Except IndexFault (Option β × BoundedHeap cmp) :=
  match q.pop? with
  | some (y, rest) => (rest.push x).map fun q' => (some y, q')
  | none => (q.push x).map fun q' => (none, q')

/-- The elements of a heap, without their places. -/
def bag (q : BoundedHeap cmp) : Multiset β := (q.toList : Multiset β)

/-- What an operation may do to a bag of at most `capacity` elements ordered by `le`. -/
inductive BagStep (le : β → β → Prop) (capacity : Nat) :
    Multiset β → Operation β → Response β → Multiset β → Prop
  | push {s : Multiset β} (x : β) (room : Multiset.card s < capacity) :
      BagStep le capacity s (.push x) (.pushed (.ok ())) (x ::ₘ s)
  | full {s : Multiset β} (x : β) (full : capacity ≤ Multiset.card s) :
      BagStep le capacity s (.push x) (.pushed (.error (.overCapacity capacity))) s
  | pop {s : Multiset β} (x : β) (greatest : ∀ y ∈ x ::ₘ s, le y x) :
      BagStep le capacity (x ::ₘ s) .pop (.popped (some x)) s
  | nothing : BagStep le capacity 0 .pop (.popped none) 0
  | swapTop {s t u : Multiset β} {x : β} {found : Option β} {result : Except IndexFault Unit}
      (taken : BagStep le capacity s .pop (.popped found) t)
      (put : BagStep le capacity t (.push x) (.pushed result) u) :
      BagStep le capacity s (.swapTop x) (.swapped (result.map fun _ => found)) u
  | clear {s : Multiset β} : BagStep le capacity s .clear .cleared 0
  | drainInto {l : List β} (out : List β) (sorted : l.Pairwise le) :
      BagStep le capacity (l : Multiset β) (.drainInto out) (.drained (out ++ l)) 0

/-- Operations one after the other on a bag, with what each gives back. -/
inductive BagRun (le : β → β → Prop) (capacity : Nat) :
    Multiset β → List (Operation β) → List (Response β) → Multiset β → Prop
  | nil {s : Multiset β} : BagRun le capacity s [] [] s
  | cons {s t u : Multiset β} {op : Operation β} {ops : List (Operation β)}
      {response : Response β} {responses : List (Response β)}
      (step : BagStep le capacity s op response t)
      (run : BagRun le capacity t ops responses u) :
      BagRun le capacity s (op :: ops) (response :: responses) u

theorem card_bag (q : BoundedHeap cmp) : Multiset.card q.bag = q.size := by
  rw [bag, Multiset.coe_card, length_toList]

theorem bag_eq_zero_iff (q : BoundedHeap cmp) : q.bag = 0 ↔ q.toList = [] :=
  Multiset.coe_eq_zero _

theorem mem_bag {q : BoundedHeap cmp} {x : β} : x ∈ q.bag ↔ x ∈ q.toList := Multiset.mem_coe

theorem top?_eq_none_iff (q : BoundedHeap cmp) : q.top? = none ↔ q.bag = 0 := by
  rw [bag_eq_zero_iff, toList, Array.toList_eq_nil_iff, top?, Array.getElem?_eq_none_iff,
    Nat.le_zero, Array.size_eq_zero_iff]

theorem bag_of_push {q q' : BoundedHeap cmp} {x : β} (h : q.push x = .ok q') :
    q'.bag = x ::ₘ q.bag :=
  Multiset.coe_eq_coe.mpr
    ((push_perm h).1.trans (List.perm_append_singleton x q.toList))

theorem bag_of_pop? {q rest : BoundedHeap cmp} {x : β} (h : q.pop? = some (x, rest)) :
    q.bag = x ::ₘ rest.bag :=
  Multiset.coe_eq_coe.mpr (pop?_perm h).symm

theorem size_pos_of_pop? {q rest : BoundedHeap cmp} {x : β} (h : q.pop? = some (x, rest)) :
    0 < q.items.size := by
  have hsize := size_of_pop? h
  omega

/-- Putting an element in the place of the top has the effect of a removal and an
insertion. -/
theorem bag_sinkTop {q rest : BoundedHeap cmp} {y : β} (hpop : q.pop? = some (y, rest))
    (hpos : 0 < q.items.size) (x : β) : (q.sinkTop x hpos).bag = x ::ₘ rest.bag := by
  have htop : q.items[0] = y :=
    (Array.getElem?_eq_some_iff.mp (top?_of_pop? hpop)).2
  have hcons : q.bag = y ::ₘ (q.toList.tail : Multiset β) := by
    rw [bag, toList_eq_cons q hpos, htop]
    rfl
  have hrest : rest.bag = (q.toList.tail : Multiset β) :=
    (Multiset.cons_inj_right y).mp ((bag_of_pop? hpop).symm.trans hcons)
  rw [hrest]
  exact Multiset.coe_eq_coe.mpr (sinkTop_perm q x hpos)

theorem swapTop_of_pop? {q rest : BoundedHeap cmp} {y : β} (hpop : q.pop? = some (y, rest))
    (x : β) : ∃ q', q.swapTop x = .ok (some y, q') ∧ q'.bag = x ::ₘ rest.bag ∧
      q'.capacity = q.capacity := by
  have hpos := size_pos_of_pop? hpop
  have htop : q.items[0] = y := (Array.getElem?_eq_some_iff.mp (top?_of_pop? hpop)).2
  refine ⟨q.sinkTop x hpos, ?_, bag_sinkTop hpop hpos x, rfl⟩
  rw [swapTop, dif_pos hpos, htop]

theorem swapTop_of_pop?_eq_none {q : BoundedHeap cmp} (hpop : q.pop? = none) (x : β) :
    q.swapTop x = (q.push x).map fun q' => (none, q') := by
  have hnil : q.items = #[] := Array.toList_eq_nil_iff.mp (toList_eq_nil_of_pop? hpop)
  rw [swapTop, dif_neg (by simp [hnil])]

theorem room_of_pop? {q rest : BoundedHeap cmp} {x : β} (hsize : q.size ≤ q.capacity)
    (h : q.pop? = some (x, rest)) : rest.size < rest.capacity := by
  have hless := size_of_pop? h
  rw [capacity_of_pop? h]
  exact Nat.lt_of_lt_of_le (Nat.lt_of_succ_le (Nat.le_of_eq hless)) hsize

/-- The top is exchanged in one pass as it is in two. -/
theorem swapTop_eq_popPush (q : BoundedHeap cmp) (hsize : q.size ≤ q.capacity) (x : β) :
    ((q.swapTop x).map fun r => (r.1, r.2.bag)) =
      (q.popPush x).map fun r => (r.1, r.2.bag) := by
  unfold popPush
  split
  · rename_i y rest hpop
    obtain ⟨q', hswap, hbag, -⟩ := swapTop_of_pop? hpop x
    obtain ⟨q'', hpush⟩ := exists_push (room_of_pop? hsize hpop) x
    rw [hswap, hpush]
    simp only [Except.map, hbag, bag_of_push hpush]
  · rename_i hpop
    rw [swapTop_of_pop?_eq_none hpop x]

/-- A heap whose top is a greatest element and whose elements leave it in order. -/
structure OrderedBy (le : β → β → Prop) (q : BoundedHeap cmp) : Prop where
  greatest : ∀ x, q.top? = some x → ∀ y ∈ q.bag, le y x
  ascending : q.ascending.Pairwise le

theorem orderedBy_true (q : BoundedHeap cmp) : q.OrderedBy fun _ _ => True where
  greatest _ _ _ _ := trivial
  ascending := List.pairwise_of_forall fun _ _ => trivial

theorem Lawful.orderedBy [Std.TransCmp cmp] {q : BoundedHeap cmp} (hq : q.Lawful) :
    q.OrderedBy fun a b => (cmp a b).isLE where
  greatest _ hx _ hy := hq.isLE_of_top? hx (mem_bag.mp hy)
  ascending := pairwise_ascending hq

theorem capacity_of_swapTop {q q' : BoundedHeap cmp} {x : β} {found : Option β}
    (h : q.swapTop x = .ok (found, q')) : q'.capacity = q.capacity := by
  cases hpop : q.pop? with
  | none =>
    rw [swapTop_of_pop?_eq_none hpop] at h
    cases hpush : q.push x with
    | error fault =>
      rw [hpush] at h
      cases h
    | ok q'' =>
      rw [hpush] at h
      cases h
      exact (push_perm hpush).2
  | some taken =>
    obtain ⟨q'', hok, -, hcap⟩ := swapTop_of_pop? hpop x
    rw [hok] at h
    cases h
    exact hcap

theorem capacity_perform (q : BoundedHeap cmp) (op : Operation β) :
    (q.perform op).2.capacity = q.capacity := by
  cases op with
  | push x =>
    simp only [perform]
    split
    · rename_i q' hpush
      exact (push_perm hpush).2
    · rfl
  | pop =>
    simp only [perform]
    split
    · rename_i x q' hpop
      exact capacity_of_pop? hpop
    · rfl
  | swapTop x =>
    simp only [perform]
    split
    · rename_i found q' hswap
      exact capacity_of_swapTop hswap
    · rfl
  | clear => rfl
  | drainInto out => rfl

variable {le : β → β → Prop}

variable (le) in
/-- A heap takes an element in while there is room and refuses it unchanged otherwise. -/
theorem bagStep_push (q : BoundedHeap cmp) (x : β) :
    (∃ q', q.push x = .ok q' ∧
        BagStep le q.capacity q.bag (.push x) (.pushed (.ok ())) q'.bag) ∨
      ∃ fault, q.push x = .error fault ∧
        BagStep le q.capacity q.bag (.push x) (.pushed (.error fault)) q.bag := by
  by_cases hroom : q.size < q.capacity
  · obtain ⟨q', hpush⟩ := exists_push hroom x
    refine Or.inl ⟨q', hpush, ?_⟩
    rw [bag_of_push hpush]
    exact .push x (by rwa [card_bag])
  · have hfull : q.capacity ≤ q.size := Nat.not_lt.mp hroom
    exact Or.inr ⟨_, push_of_full hfull x, .full x (by rwa [card_bag])⟩

theorem bagStep_pop {q rest : BoundedHeap cmp} {x : β} (hq : q.OrderedBy le)
    (hpop : q.pop? = some (x, rest)) :
    BagStep le q.capacity q.bag .pop (.popped (some x)) rest.bag := by
  have hgreatest := hq.greatest x (top?_of_pop? hpop)
  rw [bag_of_pop? hpop] at hgreatest ⊢
  exact .pop x hgreatest

theorem bagStep_nothing {q : BoundedHeap cmp} (hpop : q.pop? = none) :
    BagStep le q.capacity q.bag .pop (.popped none) q.bag := by
  rw [q.bag_eq_zero_iff.mpr (toList_eq_nil_of_pop? hpop)]
  exact .nothing

/-- Every operation is a step of the bag. -/
theorem bagStep_perform {q : BoundedHeap cmp} (hq : q.OrderedBy le)
    (hsize : q.size ≤ q.capacity) (op : Operation β) :
    BagStep le q.capacity q.bag op (q.perform op).1 (q.perform op).2.bag := by
  cases op with
  | push x =>
    obtain ⟨q', hpush, hstep⟩ | ⟨fault, hpush, hstep⟩ := bagStep_push le q x
    · simp only [perform, hpush]
      exact hstep
    · simp only [perform, hpush]
      exact hstep
  | pop =>
    cases hpop : q.pop? with
    | none =>
      simp only [perform, hpop]
      exact bagStep_nothing hpop
    | some taken =>
      simp only [perform, hpop]
      exact bagStep_pop hq hpop
  | swapTop x =>
    cases hpop : q.pop? with
    | none =>
      have hswap := swapTop_of_pop?_eq_none hpop x
      obtain ⟨q', hpush, hstep⟩ | ⟨fault, hpush, hstep⟩ := bagStep_push le q x
      · rw [hpush] at hswap
        simp only [perform, hswap, Except.map]
        exact .swapTop (bagStep_nothing hpop) hstep
      · rw [hpush] at hswap
        simp only [perform, hswap, Except.map]
        exact .swapTop (bagStep_nothing hpop) hstep
    | some taken =>
      obtain ⟨y, rest⟩ := taken
      obtain ⟨q', hswap, hbag, -⟩ := swapTop_of_pop? hpop x
      have hroom : Multiset.card rest.bag < q.capacity := by
        rw [card_bag, ← capacity_of_pop? hpop]
        exact room_of_pop? hsize hpop
      simp only [perform, hswap, hbag]
      exact .swapTop (bagStep_pop hq hpop) (.push x hroom)
  | clear => exact .clear
  | drainInto out =>
    have hbag : q.bag = (q.ascending : Multiset β) :=
      Multiset.coe_eq_coe.mpr (ascending_perm q).symm
    rw [hbag]
    exact .drainInto out hq.ascending

/-- No operation makes a bag too large. -/
theorem BagStep.card_le {capacity : Nat} {s t : Multiset β} {op : Operation β}
    {response : Response β} (h : BagStep le capacity s op response t)
    (hs : Multiset.card s ≤ capacity) : Multiset.card t ≤ capacity := by
  induction h with
  | push x room =>
    rw [Multiset.card_cons]
    exact room
  | full x full => exact hs
  | pop x greatest =>
    rw [Multiset.card_cons] at hs
    omega
  | nothing => exact hs
  | swapTop taken put ihtaken ihput => exact ihput (ihtaken hs)
  | clear => exact Nat.zero_le _
  | drainInto out sorted => exact Nat.zero_le _

theorem lawful_perform [Std.TransCmp cmp] {q : BoundedHeap cmp} (hq : q.Lawful)
    (op : Operation β) : (q.perform op).2.Lawful := by
  cases op with
  | push x =>
    simp only [perform]
    split
    · rename_i q' hpush
      exact lawful_push hq hpush
    · exact hq
  | pop =>
    simp only [perform]
    split
    · rename_i x q' hpop
      exact lawful_of_pop? hq hpop
    · exact hq
  | swapTop x =>
    simp only [perform]
    split
    · rename_i found q' hswap
      exact lawful_swapTop hq hswap
    · exact hq
  | clear => exact lawful_clear q
  | drainInto out => exact lawful_clear q

/-- A property that every operation keeps and under which a heap is ordered makes every run
of the heap a run of its bag. -/
theorem bagRun_performAll (Inv : BoundedHeap cmp → Prop)
    (hkeep : ∀ q op, Inv q → Inv (q.perform op).2) (hordered : ∀ q, Inv q → q.OrderedBy le)
    (ops : List (Operation β)) (q : BoundedHeap cmp) (hq : Inv q) (hsize : q.size ≤ q.capacity) :
    BagRun le q.capacity q.bag ops (q.performAll ops).1 (q.performAll ops).2.bag ∧
      (q.performAll ops).2.size ≤ (q.performAll ops).2.capacity ∧
      (q.performAll ops).2.capacity = q.capacity ∧ Inv (q.performAll ops).2 := by
  induction ops generalizing q with
  | nil => exact ⟨.nil, hsize, rfl, hq⟩
  | cons op ops ih =>
    have hstep := bagStep_perform (hordered q hq) hsize op
    have hcap := q.capacity_perform op
    have hfits : (q.perform op).2.size ≤ (q.perform op).2.capacity := by
      rw [hcap, ← card_bag]
      exact hstep.card_le (by rwa [card_bag])
    obtain ⟨hrun, hsize', hcap', hinv⟩ := ih (q.perform op).2 (hkeep q op hq) hfits
    rw [hcap] at hrun
    exact ⟨.cons hstep hrun, hsize', hcap'.trans hcap, hinv⟩

/-- A heap after operations from the empty one, seen through its bag: what the operations
gave back is what they may give back on a bag of at most `capacity` elements, and the top
is exchanged in one pass as it is in two. -/
structure Mirrors (le : β → β → Prop) (capacity : Nat) (ops : List (Operation β))
    (responses : List (Response β)) (q : BoundedHeap cmp) : Prop where
  run : BagRun le capacity 0 ops responses q.bag
  fits : q.size ≤ capacity
  exchange : ∀ x, ((q.swapTop x).map fun r => (r.1, r.2.bag)) =
    (q.popPush x).map fun r => (r.1, r.2.bag)

structure Ranked (q : BoundedHeap cmp) : Prop where
  lawful : q.Lawful
  topless : q.top? = none ↔ q.bag = 0
  greatest : ∀ x, q.top? = some x → x ∈ q.bag ∧ ∀ y ∈ q.bag, (cmp y x).isLE

theorem Lawful.ranked [Std.TransCmp cmp] {q : BoundedHeap cmp} (hq : q.Lawful) : q.Ranked where
  lawful := hq
  topless := q.top?_eq_none_iff
  greatest x hx := by
    have hmem : x ∈ q.toList := by
      rw [toList, Array.mem_toList_iff]
      exact Array.mem_of_getElem? hx
    exact ⟨mem_bag.mpr hmem, fun y hy => hq.isLE_of_top? hx (mem_bag.mp hy)⟩

theorem mirrors_performAll (Inv : BoundedHeap cmp → Prop)
    (hkeep : ∀ q op, Inv q → Inv (q.perform op).2) (hordered : ∀ q, Inv q → q.OrderedBy le)
    (capacity : Nat) (hempty : Inv (empty capacity)) (ops : List (Operation β)) :
    Mirrors le capacity ops ((empty capacity : BoundedHeap cmp).performAll ops).1
        ((empty capacity : BoundedHeap cmp).performAll ops).2 ∧
      Inv ((empty capacity : BoundedHeap cmp).performAll ops).2 := by
  obtain ⟨hrun, hsize, hcap, hinv⟩ :=
    bagRun_performAll Inv hkeep hordered ops (empty capacity) hempty (Nat.zero_le capacity)
  have hfits := hcap ▸ hsize
  exact ⟨⟨hrun, hfits, fun x => swapTop_eq_popPush _ hsize x⟩, hinv⟩

/-- Whatever the comparison, every run of a heap is a run of its bag. Under a total and
transitive one the bag gives up greatest elements only, and the heap law holds throughout. -/
theorem performAll_mirrors_bag (cmp : β → β → Ordering) (capacity : Nat)
    (ops : List (Operation β)) :
    Mirrors (fun _ _ => True) capacity ops
        ((empty capacity : BoundedHeap cmp).performAll ops).1
        ((empty capacity : BoundedHeap cmp).performAll ops).2 ∧
      (Std.TransCmp cmp →
        Mirrors (fun a b => (cmp a b).isLE) capacity ops
            ((empty capacity : BoundedHeap cmp).performAll ops).1
            ((empty capacity : BoundedHeap cmp).performAll ops).2 ∧
          ((empty capacity : BoundedHeap cmp).performAll ops).2.Ranked) := by
  constructor
  · exact (mirrors_performAll (fun _ => True) (fun _ _ _ => trivial)
      (fun q _ => q.orderedBy_true) capacity trivial ops).1
  · intro horder
    obtain ⟨hmirrors, hlawful⟩ := mirrors_performAll (Lawful : BoundedHeap cmp → Prop)
      (fun _ op hq => lawful_perform hq op) (fun _ hq => hq.orderedBy) capacity
      (fun j => j.elim0) ops
    exact ⟨hmirrors, hlawful.ranked⟩

/-- A run with ties, of a heap of two pairs that are compared by their first part only. -/
theorem performAll_mirrors_bag_pairs :
    let cmp : Nat × Nat → Nat × Nat → Ordering := fun a b => compare a.1 b.1
    let run := (empty 2 : BoundedHeap cmp).performAll
      [.push (1, 0), .push (1, 1), .push (0, 2), .swapTop (0, 3), .pop, .drainInto [(9, 9)]]
    Std.TransCmp cmp ∧
      Mirrors (fun a b => (cmp a b).isLE) 2
        [.push (1, 0), .push (1, 1), .push (0, 2), .swapTop (0, 3), .pop, .drainInto [(9, 9)]]
        run.1 run.2 ∧ run.2.Ranked := by
  intro cmp run
  have horder : Std.TransCmp cmp := Ranking.transCmp_on compare Prod.fst
  exact ⟨horder, (performAll_mirrors_bag cmp 2 _).2 horder⟩

end BoundedHeap

end SpatialSearch
