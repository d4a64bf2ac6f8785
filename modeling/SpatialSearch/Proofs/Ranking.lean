import Mathlib.Data.List.Basic
import SpatialSearch.Neighbor

/-!
# The first elements of a list under a comparison

`Ranking.firsts cmp k l` holds the `k` elements of `l` that come first in a comparison, in
their order. It depends on the elements of `l` alone and not on where they stand. An
element that has `k` others before it can be left out, which is what every kind of pruning
relies on: of a branch of a tree, of a rank, and of what a rank does not send back.
-/

namespace SpatialSearch

namespace Ranking

variable {β γ : Type} {cmp : β → β → Ordering}

def sort (cmp : β → β → Ordering) (l : List β) : List β :=
  l.mergeSort fun a b => cmp a b != .gt

def firsts (cmp : β → β → Ordering) (k : Nat) (l : List β) : List β := (sort cmp l).take k

theorem bne_gt_eq_isLE (o : Ordering) : (o != .gt) = o.isLE := by cases o <;> rfl

theorem sort_perm (l : List β) : (sort cmp l).Perm l := List.mergeSort_perm l _

theorem mem_of_mem_firsts {k : Nat} {l : List β} {a : β} (h : a ∈ firsts cmp k l) : a ∈ l :=
  (sort_perm l).mem_iff.mp (List.mem_of_mem_take h)

variable (cmp) in
theorem length_firsts (k : Nat) (l : List β) : (firsts cmp k l).length = min k l.length := by
  rw [firsts, List.length_take, (sort_perm l).length_eq]

/-- Elements compared by a quantity. -/
theorem transCmp_on (cmp : γ → γ → Ordering) [Std.TransCmp cmp] (f : β → γ) :
    Std.TransCmp fun a b => cmp (f a) (f b) where
  eq_swap := Std.OrientedCmp.eq_swap
  isLE_trans := Std.TransCmp.isLE_trans

theorem firsts_perm {k : Nat} {l : List β} (h : l.length ≤ k) : (firsts cmp k l).Perm l := by
  rw [firsts, List.take_of_length_le (by rwa [(sort_perm l).length_eq])]
  exact sort_perm l

theorem firsts_min {k n : Nat} {l : List β} (h : l.length ≤ n) :
    firsts cmp (min k n) l = firsts cmp k l := by
  have hlen : (sort cmp l).length ≤ n := by rwa [(sort_perm l).length_eq]
  rcases Nat.le_total k n with hk | hk
  · rw [Nat.min_eq_left hk]
  · rw [Nat.min_eq_right hk, firsts, firsts, List.take_of_length_le hlen,
      List.take_of_length_le (Nat.le_trans hlen hk)]

section Order

variable [Std.TransCmp cmp]

theorem isLE_total (a b : β) : (cmp a b).isLE ∨ (cmp b a).isLE := by
  have hswap : cmp b a = (cmp a b).swap := Std.OrientedCmp.eq_swap
  rw [hswap]
  cases cmp a b <;> simp

variable (cmp) in
theorem pairwise_sort (l : List β) : (sort cmp l).Pairwise fun a b => (cmp a b).isLE := by
  have hsorted : (sort cmp l).Pairwise fun a b => (cmp a b != .gt) = true :=
    List.pairwise_mergeSort (fun a b c hab hbc => by
      rw [bne_gt_eq_isLE] at hab hbc ⊢
      exact Std.TransCmp.isLE_trans hab hbc)
    (fun a b => by
      rw [bne_gt_eq_isLE, bne_gt_eq_isLE, Bool.or_eq_true]
      exact isLE_total a b) l
  exact hsorted.imp fun h => by rwa [bne_gt_eq_isLE] at h

variable (cmp) in
theorem pairwise_firsts (k : Nat) (l : List β) :
    (firsts cmp k l).Pairwise fun a b => (cmp a b).isLE :=
  (pairwise_sort cmp l).sublist (List.take_sublist k _)

variable (cmp) in
/-- Every list falls into its first elements and others that come no earlier. -/
theorem exists_rest (k : Nat) (l : List β) : ∃ rest, (firsts cmp k l ++ rest).Perm l ∧
    ∀ a ∈ firsts cmp k l, ∀ b ∈ rest, (cmp a b).isLE := by
  refine ⟨(sort cmp l).drop k, ?_, ?_⟩
  · rw [firsts, List.take_append_drop]
    exact sort_perm l
  · have hs := pairwise_sort cmp l
    rw [← List.take_append_drop k (sort cmp l)] at hs
    exact (List.pairwise_append.mp hs).2.2

/-- An element that has `k` others before it comes after all of the first `k`. -/
theorem isLE_of_mem_firsts {k : Nat} {l : List β} {x : β}
    (h : k ≤ l.countP fun a => (cmp a x).isLE) {a : β} (ha : a ∈ firsts cmp k l) :
    (cmp a x).isLE := by
  obtain ⟨rest, hperm, hrest⟩ := exists_rest cmp k l
  by_contra hax
  have hxa : cmp x a = .lt := Std.OrientedCmp.lt_of_not_isLE hax
  have hnone : rest.countP (fun b => (cmp b x).isLE) = 0 := by
    refine List.countP_eq_zero.mpr fun b hb hbx => ?_
    exact hax (Std.TransCmp.isLE_trans (hrest a ha b hb) hbx)
  have hfew : (firsts cmp k l).countP (fun b => (cmp b x).isLE) < (firsts cmp k l).length := by
    refine Nat.lt_of_le_of_ne List.countP_le_length fun heq => hax ?_
    exact List.countP_eq_length.mp heq a ha
  have hcount : l.countP (fun b => (cmp b x).isLE) =
      (firsts cmp k l).countP (fun b => (cmp b x).isLE) := by
    rw [← hperm.countP_eq, List.countP_append, hnone, Nat.add_zero]
  have hk : (firsts cmp k l).length ≤ k := by
    rw [length_firsts]
    exact Nat.min_le_left k _
  omega

end Order

section Selection

variable [Std.TransCmp cmp] [Std.LawfulEqCmp cmp]

theorem eq_of_isLE_of_isLE {a b : β} (hab : (cmp a b).isLE) (hba : (cmp b a).isLE) : a = b := by
  have hswap : cmp b a = (cmp a b).swap := Std.OrientedCmp.eq_swap
  rw [hswap, Ordering.isLE_swap] at hba
  exact Std.LawfulEqCmp.eq_of_compare (Ordering.eq_eq_of_isLE_of_isGE hab hba)

/-- There is only one way to put given elements in order. -/
theorem eq_sort {l s : List β} (hp : s.Perm l) (hs : s.Pairwise fun a b => (cmp a b).isLE) :
    s = sort cmp l :=
  List.Perm.eq_of_pairwise (fun _ _ _ _ => eq_of_isLE_of_isLE) hs (pairwise_sort cmp l)
    (hp.trans (sort_perm l).symm)

theorem sort_congr {l m : List β} (hp : l.Perm m) : sort cmp l = sort cmp m :=
  eq_sort ((sort_perm l).trans hp) (pairwise_sort cmp l)

theorem firsts_congr {l m : List β} (k : Nat) (hp : l.Perm m) :
    firsts cmp k l = firsts cmp k m := by
  rw [firsts, firsts, sort_congr hp]

/-- Elements in order before which nothing else comes are the first ones. -/
theorem eq_firsts {k : Nat} {l kept : List β} (rest : List β) (hp : (kept ++ rest).Perm l)
    (hs : kept.Pairwise fun a b => (cmp a b).isLE) (hlen : kept.length = min k l.length)
    (hle : ∀ a ∈ kept, ∀ b ∈ rest, (cmp a b).isLE) : kept = firsts cmp k l := by
  have hall : kept ++ sort cmp rest = sort cmp l := by
    refine eq_sort (((sort_perm rest).append_left kept).trans hp) ?_
    refine List.pairwise_append.mpr ⟨hs, pairwise_sort cmp rest, fun a ha b hb => ?_⟩
    exact hle a ha b ((sort_perm rest).mem_iff.mp hb)
  have hsum : kept.length + rest.length = l.length := by
    rw [← List.length_append, hp.length_eq]
  rcases Nat.le_total k l.length with hk | hk
  · rw [Nat.min_eq_left hk] at hlen
    rw [firsts, ← hall, ← hlen, List.take_left']
    rfl
  · have hnil : rest = [] := List.length_eq_zero_iff.mp (by omega)
    subst hnil
    rw [firsts, ← hall, sort, List.mergeSort_nil, List.append_nil,
      List.take_of_length_le (by omega)]

/-- Elements that have `k` others before them make no difference to the first `k`. -/
theorem firsts_append_of_count {k : Nat} {l dropped : List β}
    (h : ∀ x ∈ dropped, k ≤ l.countP fun a => (cmp a x).isLE) :
    firsts cmp k (l ++ dropped) = firsts cmp k l := by
  obtain ⟨rest, hperm, hrest⟩ := exists_rest cmp k l
  refine (eq_firsts (rest ++ dropped) ?_ (pairwise_firsts cmp k l) ?_ ?_).symm
  · rw [← List.append_assoc]
    exact hperm.append_right dropped
  · rw [length_firsts, List.length_append]
    rcases List.eq_nil_or_concat dropped with rfl | ⟨others, x, rfl⟩
    · rw [List.length_nil, Nat.add_zero]
    · have hx := h x (by simp)
      have := l.countP_le_length (p := fun a => (cmp a x).isLE)
      omega
  · intro a ha b hb
    rcases List.mem_append.mp hb with hb | hb
    · exact hrest a ha b hb
    · exact isLE_of_mem_firsts (h b hb) ha

/-- Of a part of a list only the first `k` elements matter to the first `k` of all. -/
theorem firsts_firsts_append (k : Nat) (l m : List β) :
    firsts cmp k (firsts cmp k l ++ m) = firsts cmp k (l ++ m) := by
  obtain ⟨rest, hperm, hrest⟩ := exists_rest cmp k l
  have hswap : (firsts cmp k l ++ m ++ rest).Perm (l ++ m) := by
    rw [List.append_assoc]
    have hcomm : (m ++ rest).Perm (rest ++ m) := List.perm_append_comm
    refine (hcomm.append_left _).trans ?_
    rw [← List.append_assoc]
    exact hperm.append_right m
  rw [← firsts_congr k hswap]
  refine (firsts_append_of_count fun x hx => ?_).symm
  have hlen := hperm.length_eq
  have hpos := List.length_pos_of_mem hx
  rw [List.length_append, length_firsts] at hlen
  have hall : (firsts cmp k l).countP (fun a => (cmp a x).isLE) = (firsts cmp k l).length :=
    List.countP_eq_length.mpr fun a ha => hrest a ha x hx
  rw [List.countP_append, hall, length_firsts]
  omega

theorem firsts_append_firsts (k : Nat) (l m : List β) :
    firsts cmp k (l ++ firsts cmp k m) = firsts cmp k (l ++ m) := by
  rw [firsts_congr k List.perm_append_comm, firsts_firsts_append,
    firsts_congr k List.perm_append_comm]

/-- The first `k` of several lists together are found among the first `k` of each. -/
theorem firsts_flatMap_firsts (k : Nat) (f : γ → List β) (parts : List γ) :
    firsts cmp k (parts.flatMap fun c => firsts cmp k (f c)) =
      firsts cmp k (parts.flatMap f) := by
  induction parts with
  | nil => rfl
  | cons c parts ih =>
    rw [List.flatMap_cons, List.flatMap_cons, firsts_firsts_append, ← firsts_append_firsts, ih,
      firsts_append_firsts]

/-- A test that is passed by all that comes before an element that passes it can be made
before or after the first elements are taken. -/
theorem filter_firsts {p : β → Bool} (k : Nat) {l : List β}
    (hp : ∀ a ∈ l, ∀ b, (cmp a b).isLE → p b → p a) :
    (firsts cmp k l).filter p = firsts cmp k (l.filter p) := by
  obtain ⟨rest, hperm, hrest⟩ := exists_rest cmp k l
  refine eq_firsts (rest.filter p) ?_ ((pairwise_firsts cmp k l).filter p) ?_ ?_
  · rw [← List.filter_append]
    exact hperm.filter p
  · have hcount : (l.filter p).length =
        ((firsts cmp k l).filter p).length + (rest.filter p).length := by
      rw [← (hperm.filter p).length_eq, List.filter_append, List.length_append]
    have hlen := hperm.length_eq
    rw [List.length_append, length_firsts] at hlen
    have hle : ((firsts cmp k l).filter p).length ≤ min k l.length := by
      rw [← length_firsts cmp]
      exact List.length_filter_le p _
    rcases List.eq_nil_or_concat (rest.filter p) with hnil | ⟨others, x, hx⟩
    · rw [hnil, List.length_nil] at hcount
      omega
    · -- One of the others passes, so all of the first ones do.
      have hmem : x ∈ rest.filter p := by rw [hx]; simp
      obtain ⟨hxrest, hpx⟩ := List.mem_filter.mp hmem
      have hall : (firsts cmp k l).filter p = firsts cmp k l :=
        List.filter_eq_self.mpr fun a ha =>
          hp a (mem_of_mem_firsts ha) x (hrest a ha x hxrest) hpx
      have := List.length_pos_of_mem hxrest
      rw [hall, length_firsts] at hcount ⊢
      omega
  · intro a ha b hb
    exact hrest a (List.mem_filter.mp ha).1 b (List.mem_filter.mp hb).1

end Selection

/-- Sorting commutes with a map that keeps the comparison. -/
theorem map_sort {cmp' : γ → γ → Ordering} {f : β → γ}
    (hf : ∀ a b, cmp a b = cmp' (f a) (f b)) (l : List β) :
    (sort cmp l).map f = sort cmp' (l.map f) := by
  rw [sort, List.map_mergeSort (s := fun a b => cmp' a b != .gt)]
  · rfl
  · intro a _ b _
    rw [hf]

theorem map_firsts {cmp' : γ → γ → Ordering} {f : β → γ}
    (hf : ∀ a b, cmp a b = cmp' (f a) (f b)) (k : Nat) (l : List β) :
    (firsts cmp k l).map f = firsts cmp' k (l.map f) := by
  rw [firsts, List.map_take, map_sort hf]
  rfl

end Ranking

end SpatialSearch
