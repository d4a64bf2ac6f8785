import Mathlib.Data.List.Nodup
import SpatialSearch.Index.BoxTree

/-!
# The layout of trees

`BoxNode.layOut` gives every subtree below a node a slot of its own and names the children of
each branch once. So in the table of a tree every slot but the first is the child of exactly
one branch, which stands before it, and following children leads from each slot through a
subtree and comes to an end.
-/

namespace SpatialSearch

namespace BoxSlot

variable {α : Type}

def box : BoxSlot α → Box α
  | leaf b _ => b
  | branch b _ _ => b

def children : BoxSlot α → List Nat
  | leaf _ _ => []
  | branch _ left right => [left, right]

def entry? : BoxSlot α → Option (Entry α)
  | leaf b i => some ⟨i, b⟩
  | branch _ _ _ => none

end BoxSlot

namespace BoxNode

variable {α : Type}

/-- A property holds of a subtree and of every subtree below it. -/
def Everywhere (P : BoxNode α → Prop) : BoxNode α → Prop
  | leaf b i => P (leaf b i)
  | branch b left right => P (branch b left right) ∧ left.Everywhere P ∧ right.Everywhere P

theorem Everywhere.here {P : BoxNode α → Prop} {node : BoxNode α} (h : node.Everywhere P) :
    P node := by
  cases node with
  | leaf b i => exact h
  | branch b left right => exact h.1

/-- The subtree that is met by following the children from a slot. -/
inductive StandsAt (table : List (BoxSlot α)) : BoxNode α → Nat → Prop where
  | leaf {i k : Nat} {b : Box α} (h : table[i]? = some (.leaf b k)) :
      StandsAt table (.leaf b k) i
  | branch {i l r : Nat} {b : Box α} {left right : BoxNode α}
      (h : table[i]? = some (.branch b l r)) (hl : StandsAt table left l)
      (hr : StandsAt table right r) : StandsAt table (.branch b left right) i

namespace StandsAt

variable {table : List (BoxSlot α)} {i : Nat} {node other : BoxNode α}

theorem slot (h : node.StandsAt table i) : ∃ s, table[i]? = some s ∧ s.box = node.box := by
  cases h with
  | leaf h => exact ⟨_, h, rfl⟩
  | branch h hl hr => exact ⟨_, h, rfl⟩

/-- The table determines the subtree at each slot. -/
theorem unique (h : node.StandsAt table i) (ho : other.StandsAt table i) : node = other := by
  induction h generalizing other with
  | leaf h =>
    cases ho with
    | leaf ho =>
      obtain ⟨rfl, rfl⟩ := BoxSlot.leaf.inj (Option.some.inj (h.symm.trans ho))
      rfl
    | branch ho hl hr => exact nomatch Option.some.inj (h.symm.trans ho)
  | branch h hl hr ihl ihr =>
    cases ho with
    | leaf ho => exact nomatch Option.some.inj (h.symm.trans ho)
    | branch ho hol hor =>
      obtain ⟨rfl, rfl, rfl⟩ := BoxSlot.branch.inj (Option.some.inj (h.symm.trans ho))
      rw [ihl hol, ihr hor]

end StandsAt

/-! ### What is laid out below a node -/

theorem layOut_branch (b : Box α) (left right : BoxNode α) (next : Nat) :
    (branch b left right).layOut next =
      (.branch b next (next + 1),
        (left.layOut (next + 2)).1 ::
          (right.layOut (next + 2 + (left.layOut (next + 2)).2.length)).1 ::
            ((left.layOut (next + 2)).2 ++
              (right.layOut (next + 2 + (left.layOut (next + 2)).2.length)).2)) := rfl

/-- There is one slot for every leaf and one for every branch, of which there is one less. -/
theorem length_layOut (node : BoxNode α) (next : Nat) :
    (node.layOut next).2.length + 2 = 2 * node.leaves.length := by
  induction node generalizing next with
  | leaf b i => rfl
  | branch b left right ihl ihr =>
    have hl := ihl (next + 2)
    have hr := ihr (next + 2 + (left.layOut (next + 2)).2.length)
    simp only [layOut_branch, leaves, List.length_cons, List.length_append]
    omega

/-- Every position below the node is named as a child once. -/
theorem children_layOut (node : BoxNode α) (next : Nat) :
    ((node.layOut next).1.children ++ (node.layOut next).2.flatMap BoxSlot.children).Perm
      (List.range' next (node.layOut next).2.length) := by
  induction node generalizing next with
  | leaf b i => exact .refl _
  | branch b left right ihl ihr =>
    have hl := ihl (next + 2)
    have hr := ihr (next + 2 + (left.layOut (next + 2)).2.length)
    rw [layOut_branch]
    generalize left.layOut (next + 2) = L at hl hr ⊢
    generalize right.layOut (next + 2 + L.2.length) = R at hr ⊢
    have hrange : List.range' next (L.1 :: R.1 :: (L.2 ++ R.2)).length =
        [next, next + 1] ++ (List.range' (next + 2) L.2.length ++
          List.range' (next + 2 + L.2.length) R.2.length) := by
      simp [List.range'_succ, List.range'_append_1]
    have hswap : (L.1.children ++ (R.1.children ++
          (L.2.flatMap BoxSlot.children ++ R.2.flatMap BoxSlot.children))).Perm
        ((L.1.children ++ L.2.flatMap BoxSlot.children) ++
          (R.1.children ++ R.2.flatMap BoxSlot.children)) := by
      rw [List.append_assoc]
      exact .append_left _ (List.perm_append_comm_assoc _ _ _)
    rw [hrange]
    refine .append_left [next, next + 1] ?_
    simp only [List.flatMap_cons, List.flatMap_append]
    exact hswap.trans (hl.append hr)

/-- The leaves below a node are its entries. -/
theorem entries_layOut (node : BoxNode α) (next : Nat) :
    (((node.layOut next).1 :: (node.layOut next).2).filterMap BoxSlot.entry?).Perm
      node.leaves := by
  induction node generalizing next with
  | leaf b i => exact .refl _
  | branch b left right ihl ihr =>
    have hl := ihl (next + 2)
    have hr := ihr (next + 2 + (left.layOut (next + 2)).2.length)
    rw [layOut_branch]
    generalize left.layOut (next + 2) = L at hl hr ⊢
    generalize right.layOut (next + 2 + L.2.length) = R at hr ⊢
    have hswap : (L.1 :: R.1 :: (L.2 ++ R.2)).Perm ((L.1 :: L.2) ++ (R.1 :: R.2)) :=
      .cons L.1 List.perm_middle.symm
    rw [List.filterMap_cons_none rfl, leaves]
    refine (hswap.filterMap _).trans ?_
    rw [List.filterMap_append]
    exact hl.append hr

/-- Children stand after their parents. -/
theorem lt_children_layOut (node : BoxNode α) (next : Nat) :
    (∀ c ∈ (node.layOut next).1.children, next ≤ c) ∧
      ∀ j s, (node.layOut next).2[j]? = some s → ∀ c ∈ s.children, next + j < c := by
  induction node generalizing next with
  | leaf b i => exact ⟨fun c hc => (nomatch hc), fun j s hs => (nomatch hs)⟩
  | branch b left right ihl ihr =>
    obtain ⟨hl, hbelowl⟩ := ihl (next + 2)
    obtain ⟨hr, hbelowr⟩ := ihr (next + 2 + (left.layOut (next + 2)).2.length)
    rw [layOut_branch]
    generalize left.layOut (next + 2) = L at hl hbelowl hr hbelowr ⊢
    generalize right.layOut (next + 2 + L.2.length) = R at hr hbelowr ⊢
    constructor
    · intro c hc
      simp only [BoxSlot.children, List.mem_cons, List.not_mem_nil, or_false] at hc
      omega
    · intro j s hs c hc
      match j with
      | 0 =>
        obtain rfl := Option.some.inj hs
        have := hl c hc
        omega
      | 1 =>
        obtain rfl := Option.some.inj hs
        have := hr c hc
        omega
      | j + 2 =>
        rw [List.getElem?_cons_succ, List.getElem?_cons_succ, List.getElem?_append] at hs
        split at hs
        · have := hbelowl j s hs c hc
          omega
        · have := hbelowr _ s hs c hc
          omega

/-- A node stands where its slot is put, and so do its subtrees. -/
theorem standsAt_layOut {P : BoxNode α → Prop} {node : BoxNode α} (h : node.Everywhere P)
    (table : List (BoxSlot α)) {i next : Nat} (hi : table[i]? = some (node.layOut next).1)
    (hbelow : ∀ j s, (node.layOut next).2[j]? = some s → table[next + j]? = some s) :
    node.StandsAt table i ∧
      ∀ j < (node.layOut next).2.length, ∃ sub, sub.StandsAt table (next + j) ∧ P sub := by
  induction node generalizing i next with
  | leaf b k => exact ⟨.leaf hi, fun j hj => nomatch hj⟩
  | branch b left right ihl ihr =>
    obtain ⟨-, hleft, hright⟩ := h
    have ihl := @ihl hleft next (next + 2)
    have ihr := @ihr hright (next + 1) (next + 2 + (left.layOut (next + 2)).2.length)
    rw [layOut_branch] at hi hbelow ⊢
    generalize left.layOut (next + 2) = L at *
    generalize right.layOut (next + 2 + L.2.length) = R at *
    obtain ⟨hstandsl, hsubl⟩ := ihl (hbelow 0 _ rfl) fun j s hs => by
      rw [Nat.add_assoc, Nat.add_comm 2 j]
      refine hbelow (j + 2) s ?_
      exact List.getElem?_append_left (List.getElem?_eq_some_iff.mp hs).1 ▸ hs
    obtain ⟨hstandsr, hsubr⟩ := ihr (hbelow 1 _ rfl) fun j s hs => by
      have hj : next + 2 + L.2.length + j = next + (L.2.length + j + 2) := by omega
      rw [hj]
      refine hbelow (L.2.length + j + 2) s ?_
      rw [List.getElem?_cons_succ, List.getElem?_cons_succ,
        List.getElem?_append_right (Nat.le_add_right _ _), Nat.add_sub_cancel_left, hs]
    refine ⟨.branch hi hstandsl hstandsr, fun j hj => ?_⟩
    match j with
    | 0 => exact ⟨left, hstandsl, hleft.here⟩
    | 1 => exact ⟨right, hstandsr, hright.here⟩
    | j + 2 =>
      simp only [List.length_cons, List.length_append] at hj
      by_cases hjl : j < L.2.length
      · have hpos : next + (j + 2) = next + 2 + j := by omega
        exact hpos ▸ hsubl j hjl
      · have hpos : next + (j + 2) = next + 2 + L.2.length + (j - L.2.length) := by omega
        exact hpos ▸ hsubr (j - L.2.length) (by omega)

end BoxNode

/-! ### Tables of trees -/

namespace BoxNode

variable {α : Type} [Scalar α]

/-- The box of a subtree is the union of the boxes of the entries below it, and also of the
boxes of its two children if it is a branch. -/
structure Tight (node : BoxNode α) : Prop where
  leaves : (node.box == Entry.bounds node.leaves) = true
  children : ∀ b left right, node = .branch b left right →
    (b == left.box.union right.box) = true

end BoxNode

/-- The table of a tree over some entries: what a walk from the first slot relies on. -/
structure TreeTable {α : Type} [Scalar α] (table : List (BoxSlot α))
    (entries : List (Entry α)) : Prop where
  length_eq : table.length + 1 = 2 * entries.length
  forward : ∀ (i : Nat) (s : BoxSlot α), table[i]? = some s →
    ∀ c ∈ s.children, i < c ∧ c < table.length
  distinct : ∀ s ∈ table, s.children.Nodup
  /-- Every slot but the first is a child of exactly one slot. -/
  parent : ∀ c, 0 < c → c < table.length →
    ∃! i : Nat, ∃ s : BoxSlot α, table[i]? = some s ∧ c ∈ s.children
  leaves : (table.filterMap BoxSlot.entry?).Perm entries
  union : ∀ (i l r : Nat) (b : Box α), table[i]? = some (.branch b l r) →
    ∃ left right : BoxSlot α, table[l]? = some left ∧ table[r]? = some right ∧
      (b == left.box.union right.box) = true
  /-- From every slot a subtree is reached. -/
  stands : ∀ i < table.length, ∃ node : BoxNode α, node.StandsAt table i
  spans : ∀ (i : Nat) (s : BoxSlot α) (node : BoxNode α), table[i]? = some s →
    node.StandsAt table i → (s.box == Entry.bounds node.leaves) = true
  root : ∃ node : BoxNode α, node.StandsAt table 0 ∧ node.leaves.Perm entries ∧
    node.box = .unionAll (entries.map (·.box))

namespace BoxSlot

variable {α : Type} {table : List (BoxSlot α)} {count c : Nat}

theorem mem_children_iff (h : (table.flatMap children).Perm (List.range' 1 count)) :
    (∃ s ∈ table, c ∈ s.children) ↔ 0 < c ∧ c ≤ count := by
  rw [← List.mem_flatMap, h.mem_iff, List.mem_range'_1]
  omega

/-- If every position is named once, no position has two parents. -/
theorem existsUnique_parent (h : (table.flatMap children).Perm (List.range' 1 count))
    (hpos : 0 < c) (hc : c ≤ count) :
    ∃! i : Nat, ∃ s : BoxSlot α, table[i]? = some s ∧ c ∈ s.children := by
  have hnodup := (List.nodup_flatMap.mp (h.nodup_iff.mpr List.nodup_range')).2
  have hapart : ∀ {i j : Nat} {s u : BoxSlot α}, i < j → table[i]? = some s →
      table[j]? = some u → c ∈ s.children → c ∉ u.children := by
    intro i j s u hij hs hu hcs hcu
    obtain ⟨hi, rfl⟩ := List.getElem?_eq_some_iff.mp hs
    obtain ⟨hj, rfl⟩ := List.getElem?_eq_some_iff.mp hu
    exact List.pairwise_iff_getElem.mp hnodup i j hi hj hij hcs hcu
  obtain ⟨s, hs, hcs⟩ := (mem_children_iff h).mpr ⟨hpos, hc⟩
  obtain ⟨i, hi⟩ := List.getElem?_of_mem hs
  refine ⟨i, ⟨s, hi, hcs⟩, ?_⟩
  rintro j ⟨u, hj, hcu⟩
  rcases Nat.lt_trichotomy i j with hij | hij | hij
  · exact absurd hcu (hapart hij hi hj hcs)
  · exact hij.symm
  · exact absurd hcs (hapart hij hj hi hcu)

end BoxSlot

namespace BoxNode

variable {α : Type} [Scalar α] {table : List (BoxSlot α)} {i : Nat} {node : BoxNode α}

theorem Tight.of_standsAt
    (h : ∀ i < table.length, ∃ node : BoxNode α, node.StandsAt table i ∧ node.Tight)
    (hnode : node.StandsAt table i) : node.Tight := by
  obtain ⟨s, hs, -⟩ := hnode.slot
  obtain ⟨other, hother, htight⟩ := h i (List.getElem?_eq_some_iff.mp hs).1
  exact hnode.unique hother ▸ htight

theorem Tight.union_of_standsAt (h : node.Tight) (hnode : node.StandsAt table i) {l r : Nat}
    {b : Box α} (hi : table[i]? = some (.branch b l r)) :
    ∃ left right : BoxSlot α, table[l]? = some left ∧ table[r]? = some right ∧
      (b == left.box.union right.box) = true := by
  cases hnode with
  | leaf hleaf => exact nomatch Option.some.inj (hi.symm.trans hleaf)
  | branch hbranch hleft hright =>
    obtain ⟨rfl, rfl, rfl⟩ := BoxSlot.branch.inj (Option.some.inj (hi.symm.trans hbranch))
    obtain ⟨left, hl, hboxl⟩ := hleft.slot
    obtain ⟨right, hr, hboxr⟩ := hright.slot
    refine ⟨left, right, hl, hr, ?_⟩
    rw [hboxl, hboxr]
    exact h.children _ _ _ rfl

/-- A tree that is tight everywhere is laid out in a table of its entries. -/
theorem treeTable_layOut (h : node.Everywhere Tight) {entries : List (Entry α)}
    (hleaves : node.leaves.Perm entries)
    (hbox : node.box = .unionAll (entries.map (·.box))) :
    TreeTable ((node.layOut 1).1 :: (node.layOut 1).2) entries := by
  have hlength := length_layOut node 1
  have hcount := hleaves.length_eq
  have hchildren := children_layOut node 1
  rw [← List.flatMap_cons] at hchildren
  obtain ⟨-, hlater⟩ := lt_children_layOut node 1
  obtain ⟨hroot, hbelow⟩ := standsAt_layOut h ((node.layOut 1).1 :: (node.layOut 1).2)
    (i := 0) rfl fun j s hs => by
      rw [Nat.add_comm]
      exact hs
  have hstands : ∀ i < ((node.layOut 1).1 :: (node.layOut 1).2).length, ∃ sub : BoxNode α,
      sub.StandsAt ((node.layOut 1).1 :: (node.layOut 1).2) i ∧ sub.Tight := by
    intro i hi
    cases i with
    | zero => exact ⟨node, hroot, h.here⟩
    | succ i => exact Nat.add_comm 1 i ▸ hbelow i (Nat.lt_of_succ_lt_succ hi)
  constructor
  case length_eq =>
    rw [List.length_cons]
    omega
  case forward =>
    intro i s hs c hc
    have hmem := (BoxSlot.mem_children_iff hchildren).mp ⟨s, List.mem_of_getElem? hs, hc⟩
    refine ⟨?_, Nat.lt_succ_of_le hmem.2⟩
    cases i with
    | zero => exact hmem.1
    | succ i => exact Nat.add_comm 1 i ▸ hlater i s hs c hc
  case distinct =>
    exact (List.nodup_flatMap.mp (hchildren.nodup_iff.mpr List.nodup_range')).1
  case parent =>
    intro c hpos hc
    exact BoxSlot.existsUnique_parent hchildren hpos (Nat.le_of_lt_succ hc)
  case leaves => exact (entries_layOut node 1).trans hleaves
  case union =>
    intro i l r b hi
    obtain ⟨sub, hsub, htight⟩ := hstands i (List.getElem?_eq_some_iff.mp hi).1
    exact htight.union_of_standsAt hsub hi
  case stands =>
    intro i hi
    obtain ⟨sub, hsub, -⟩ := hstands i hi
    exact ⟨sub, hsub⟩
  case spans =>
    intro i s sub hs hsub
    obtain ⟨u, hu, hboxu⟩ := hsub.slot
    rw [Option.some.inj (hs.symm.trans hu), hboxu]
    exact (Tight.of_standsAt hstands hsub).leaves
  case root => exact ⟨node, hroot, hleaves, hbox⟩

end BoxNode

end SpatialSearch
