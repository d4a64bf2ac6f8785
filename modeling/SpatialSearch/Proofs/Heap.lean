import Mathlib.Data.List.Basic
import SpatialSearch.BoundedHeap
import SpatialSearch.Proofs.Ranking

/-!
# The heap law

In a heap no element ranks above its parent. The law is broken at one position while an
element moves: `RisingFrom` and `SinkingFrom` say what holds meanwhile, each step of a move
keeps it, and where the move stops the law holds everywhere. Elements are never lost or
made, for any comparison; the law needs one that is total and transitive.
-/

namespace SpatialSearch

namespace BoundedHeap

variable {β : Type} {n : Nat} {cmp : β → β → Ordering}

/-- No element ranks above its parent. -/
def Heaped (cmp : β → β → Ordering) (v : Vector β n) : Prop :=
  ∀ j : Fin n, 0 < j.val → (cmp (v.get j) (v.get (parent j))).isLE

/-- Only the element at `i` may rank above its parent. -/
structure RisingFrom (cmp : β → β → Ordering) (v : Vector β n) (i : Fin n) : Prop where
  others : ∀ j : Fin n, 0 < j.val → j ≠ i → (cmp (v.get j) (v.get (parent j))).isLE
  children : 0 < i.val → ∀ j : Fin n, 0 < j.val → parent j = i →
    (cmp (v.get j) (v.get (parent i))).isLE

/-- Only children of the element at `i` may rank above it. -/
structure SinkingFrom (cmp : β → β → Ordering) (v : Vector β n) (i : Fin n) : Prop where
  others : ∀ j : Fin n, 0 < j.val → parent j ≠ i → (cmp (v.get j) (v.get (parent j))).isLE
  children : 0 < i.val → ∀ j : Fin n, 0 < j.val → parent j = i →
    (cmp (v.get j) (v.get (parent i))).isLE

theorem get_eq_getElem (v : Vector β n) (i : Fin n) : v.get i = v[i.val] := rfl

theorem get_swap (v : Vector β n) (i j k : Fin n) :
    (v.swap i.val j.val i.isLt j.isLt).get k =
      if k = i then v.get j else if k = j then v.get i else v.get k := by
  simp only [get_eq_getElem, Vector.getElem_swap, Fin.ext_iff]

theorem parent_ne {i : Fin n} (h : 0 < i.val) : parent i ≠ i :=
  fun heq => Nat.ne_of_lt (parent_lt h) (congrArg Fin.val heq)

variable (cmp) in
theorem heapifyUp_perm (v : Vector β n) (i : Fin n) : (heapifyUp cmp v i).Perm v := by
  fun_induction heapifyUp cmp v i with
  | case1 v i hpos hgt ih => exact ih.trans (Vector.swap_perm i.isLt (parent i).isLt)
  | case2 v i hpos hgt => exact .refl v
  | case3 v i hpos => exact .refl v

variable (cmp) in
theorem heapifyDown_perm (v : Vector β n) (i : Fin n) : (heapifyDown cmp v i).Perm v := by
  fun_induction heapifyDown cmp v i with
  | case1 v i j hlt ih => exact ih.trans (Vector.swap_perm i.isLt j.isLt)
  | case2 v i j hlt => exact .refl v

theorem RisingFrom.stop {v : Vector β n} {i : Fin n} (h : RisingFrom cmp v i)
    (hi : 0 < i.val → (cmp (v.get i) (v.get (parent i))).isLE) : Heaped cmp v := by
  intro j hj
  by_cases hji : j = i
  · subst hji
    exact hi hj
  · exact h.others j hj hji

/-- A new last element is the only one that may rank above its parent. -/
theorem Heaped.push {v : Vector β n} (h : Heaped cmp v) (x : β) :
    RisingFrom cmp (v.push x) (Fin.last n) := by
  have hold : ∀ j : Fin (n + 1), ∀ hj : j.val < n, (v.push x).get j = v.get ⟨j.val, hj⟩ := by
    intro j hj
    simp only [get_eq_getElem]
    exact Vector.getElem_push_lt hj
  constructor
  · intro j hj hlast
    have hjn : j.val < n := by
      have := j.isLt
      have hne : j.val ≠ n := fun heq => hlast (Fin.ext heq)
      omega
    have hpn : (parent j).val < n := Nat.lt_trans (parent_lt hj) hjn
    rw [hold j hjn, hold (parent j) hpn]
    exact h ⟨j.val, hjn⟩ hj
  · intro _ j hj hpj
    have := parent_lt hj
    rw [hpj] at this
    exact absurd this (by simpa using Nat.le_of_lt_succ j.isLt)

/-- After the top was replaced only its children may rank above it. -/
theorem Heaped.set_top {v : Vector β n} (h : Heaped cmp v) (hn : 0 < n) (x : β) :
    SinkingFrom cmp (v.set 0 x hn) ⟨0, hn⟩ := by
  have hold : ∀ j : Fin n, 0 < j.val → (v.set 0 x hn).get j = v.get j := by
    intro j hj
    simp only [get_eq_getElem]
    exact Vector.getElem_set_ne hn j.isLt (Nat.ne_of_lt hj)
  constructor
  · intro j hj hpj
    have hppos : 0 < (parent j).val :=
      Nat.pos_of_ne_zero fun heq => hpj (Fin.ext heq)
    rw [hold j hj, hold (parent j) hppos]
    exact h j hj
  · intro hpos
    exact absurd hpos (Nat.lt_irrefl 0)

theorem Heaped.pop {v : Vector β n} (h : Heaped cmp v) : Heaped cmp v.pop := by
  intro j hj
  have := h ⟨j.val, Nat.lt_of_lt_of_le j.isLt (Nat.sub_le n 1)⟩ hj
  simpa only [get_eq_getElem, Vector.getElem_pop, parent] using this

section Order

variable [Std.TransCmp cmp]

theorem isLE_of_gt {a b : β} (h : cmp a b = .gt) : (cmp b a).isLE :=
  Ordering.isLE_of_eq_lt (Std.OrientedCmp.lt_of_gt h)

theorem RisingFrom.step {v : Vector β n} {i : Fin n} (h : RisingFrom cmp v i)
    (hpos : 0 < i.val) (hgt : cmp (v.get i) (v.get (parent i)) = .gt) :
    RisingFrom cmp (v.swap i.val (parent i).val i.isLt (parent i).isLt) (parent i) := by
  have hup := isLE_of_gt hgt
  have hpi := parent_ne hpos
  constructor
  · intro j hj hjp
    simp only [get_swap]
    by_cases hji : j = i
    · subst hji
      simpa [hpi] using hup
    · rw [if_neg hji, if_neg hjp]
      by_cases hpj : parent j = i
      · rw [if_pos hpj]
        exact h.children hpos j hj hpj
      · rw [if_neg hpj]
        have hlow := h.others j hj hji
        by_cases hsib : parent j = parent i
        · rw [if_pos hsib]
          rw [hsib] at hlow
          exact Std.TransCmp.isLE_trans hlow hup
        · rw [if_neg hsib]
          exact hlow
  · intro hppos j hj hpj
    have hpp := parent_lt hppos
    have hpp_i : parent (parent i) ≠ i := by
      intro heq
      have := parent_lt hpos
      rw [heq] at hpp
      omega
    have hgrand := h.others (parent i) hppos hpi
    simp only [get_swap]
    rw [if_neg hpp_i, if_neg (parent_ne hppos)]
    by_cases hji : j = i
    · rw [if_pos hji]
      exact hgrand
    · have hjp : j ≠ parent i := by
        intro heq
        rw [← heq] at hpj
        exact parent_ne hj hpj
      rw [if_neg hji, if_neg hjp]
      have hlow := h.others j hj hji
      rw [hpj] at hlow
      exact Std.TransCmp.isLE_trans hlow hgrand

theorem heaped_heapifyUp {v : Vector β n} {i : Fin n} (h : RisingFrom cmp v i) :
    Heaped cmp (heapifyUp cmp v i) := by
  fun_induction heapifyUp cmp v i with
  | case1 v i hpos hgt ih => exact ih (h.step hpos hgt)
  | case2 v i hpos hgt => exact h.stop fun _ => Ordering.isLE_iff_ne_gt.mpr hgt
  | case3 v i hpos => exact h.stop fun hi => absurd hi hpos

variable (cmp) in
theorem higher_spec (v : Vector β n) (i : Fin n) (j : Nat) :
    (cmp (v.get i) (v.get (higher cmp v i j))).isLE ∧
      (∀ h : j < n, (cmp (v.get ⟨j, h⟩) (v.get (higher cmp v i j))).isLE) ∧
      (higher cmp v i j = i ∨ (higher cmp v i j).val = j) := by
  unfold higher
  by_cases hj : j < n
  · rw [dif_pos hj]
    by_cases hgt : cmp (v.get ⟨j, hj⟩) (v.get i) = .gt
    · rw [if_pos hgt]
      exact ⟨isLE_of_gt hgt, fun _ => Std.ReflCmp.isLE_rfl, Or.inr rfl⟩
    · rw [if_neg hgt]
      exact ⟨Std.ReflCmp.isLE_rfl, fun _ => Ordering.isLE_iff_ne_gt.mpr hgt, Or.inl rfl⟩
  · rw [dif_neg hj]
    exact ⟨Std.ReflCmp.isLE_rfl, fun h => absurd h hj, Or.inl rfl⟩

variable (cmp) in
/-- The highest of an element and its children ranks above none of them. -/
theorem highest_spec (v : Vector β n) (i : Fin n) :
    (cmp (v.get i) (v.get (highest cmp v i))).isLE ∧
      (∀ j : Fin n, 0 < j.val → parent j = i →
        (cmp (v.get j) (v.get (highest cmp v i))).isLE) ∧
      (highest cmp v i = i ∨ 0 < (highest cmp v i).val ∧ parent (highest cmp v i) = i) := by
  obtain ⟨hself, hleft, hwhere⟩ := higher_spec cmp v i (2 * i.val + 1)
  obtain ⟨hself', hright, hwhere'⟩ := higher_spec cmp v
    (higher cmp v i (2 * i.val + 1)) (2 * i.val + 2)
  refine ⟨Std.TransCmp.isLE_trans hself hself', ?_, ?_⟩
  · intro j hj hpj
    have hval : (j.val - 1) / 2 = i.val := congrArg Fin.val hpj
    have hside : j.val = 2 * i.val + 1 ∨ j.val = 2 * i.val + 2 := by omega
    rcases hside with hside | hside
    · have hlow := hleft (hside ▸ j.isLt)
      have hj : (⟨2 * i.val + 1, hside ▸ j.isLt⟩ : Fin n) = j := Fin.ext hside.symm
      rw [hj] at hlow
      exact Std.TransCmp.isLE_trans hlow hself'
    · have hlow := hright (hside ▸ j.isLt)
      have hj : (⟨2 * i.val + 2, hside ▸ j.isLt⟩ : Fin n) = j := Fin.ext hside.symm
      rw [hj] at hlow
      exact hlow
  · rw [highest]
    rcases hwhere' with hwhere' | hwhere'
    · rw [hwhere']
      rcases hwhere with hwhere | hwhere
      · exact Or.inl hwhere
      · refine Or.inr ⟨by omega, Fin.ext ?_⟩
        simp only [parent]
        omega
    · refine Or.inr ⟨by omega, Fin.ext ?_⟩
      simp only [parent]
      omega

theorem SinkingFrom.step {v : Vector β n} {i : Fin n} (h : SinkingFrom cmp v i)
    (hlt : i < highest cmp v i) :
    SinkingFrom cmp
      (v.swap i.val (highest cmp v i).val i.isLt (highest cmp v i).isLt) (highest cmp v i) := by
  obtain ⟨hself, hchild, hwhere⟩ := highest_spec cmp v i
  generalize highest cmp v i = c at *
  have hci : c ≠ i := fun heq => Nat.lt_irrefl i.val (heq ▸ hlt)
  obtain ⟨hcpos, hpc⟩ := hwhere.resolve_left hci
  constructor
  · intro j hj hpj
    simp only [get_swap]
    by_cases hji : j = i
    · subst hji
      rw [if_pos rfl, if_neg (parent_ne hj), if_neg hpj]
      exact h.children hj c hcpos hpc
    · by_cases hjc : j = c
      · subst hjc
        simpa [hpc, hci] using hself
      · rw [if_neg hji, if_neg hjc, if_neg hpj]
        by_cases hpi : parent j = i
        · rw [if_pos hpi]
          exact hchild j hj hpi
        · rw [if_neg hpi]
          exact h.others j hj hpi
  · intro _ j hj hpj
    have hjc : j ≠ c := by
      intro heq
      rw [heq] at hpj
      exact parent_ne hcpos hpj
    have hji : j ≠ i := by
      intro heq
      have hjlt := parent_lt hj
      rw [hpj, heq] at hjlt
      have : i.val < c.val := hlt
      omega
    simp only [get_swap]
    rw [if_neg hji, if_neg hjc, hpc, if_pos rfl]
    have hlow := h.others j hj (by rw [hpj]; exact hci)
    rwa [hpj] at hlow

theorem SinkingFrom.stop {v : Vector β n} {i : Fin n} (h : SinkingFrom cmp v i)
    (hi : highest cmp v i = i) : Heaped cmp v := by
  intro j hj
  by_cases hpj : parent j = i
  · have hlow := (highest_spec cmp v i).2.1 j hj hpj
    rw [hi] at hlow
    rw [hpj]
    exact hlow
  · exact h.others j hj hpj

theorem heaped_heapifyDown {v : Vector β n} {i : Fin n} (h : SinkingFrom cmp v i) :
    Heaped cmp (heapifyDown cmp v i) := by
  fun_induction heapifyDown cmp v i with
  | case1 v i j hlt ih => exact ih (h.step hlt)
  | case2 v i j hlt =>
    refine h.stop ?_
    rcases (highest_spec cmp v i).2.2 with hself | ⟨hpos, hpar⟩
    · exact hself
    · have hup := parent_lt hpos
      rw [hpar] at hup
      exact absurd hup hlt

/-- The top ranks above every other element. -/
theorem Heaped.top_max {v : Vector β n} (h : Heaped cmp v) (hn : 0 < n) (i : Fin n) :
    (cmp (v.get i) (v.get ⟨0, hn⟩)).isLE := by
  induction hi : i.val using Nat.strongRecOn generalizing i with
  | ind k ih =>
    by_cases hpos : 0 < i.val
    · have hup := ih (parent i).val (by have := parent_lt hpos; omega) (parent i) rfl
      exact Std.TransCmp.isLE_trans (h i hpos) hup
    · have hzero : i = ⟨0, hn⟩ := Fin.ext (by simpa using Nat.eq_zero_of_not_pos hpos)
      rw [hzero]
      exact Std.ReflCmp.isLE_rfl

end Order

end BoundedHeap

end SpatialSearch
