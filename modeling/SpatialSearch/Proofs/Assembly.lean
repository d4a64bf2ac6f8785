import SpatialSearch.Index.Assembly
import SpatialSearch.Proofs.TreeLayout
import SpatialSearch.Proofs.Unions

/-!
# Assembled tables

Whichever way ranges are divided, assembly comes to an end with every slot filled in, and the
slots are the layout of the tree that divides in the same way. `Assembly.Fills` is the
invariant: once a task and the tasks that came of it are done, the subtree over its range
stands in its slot and in new ones, and outside of the range no entry has been moved.
-/

namespace SpatialSearch

/-! ### The tree of a rule -/

namespace SplitRule

variable {α : Type} [Scalar α] (rule : SplitRule α)

theorem box_grow (entries : List (Entry α)) (h : 0 < entries.length) :
    (rule.grow entries h).box = Entry.bounds entries := by
  rw [grow]
  split
  · rfl
  · rfl

/-- However the entries are divided, no box is larger than what it has to enclose. -/
theorem tight_grow [LawfulEqScalar α] (entries : List (Entry α)) (h : 0 < entries.length)
    (hnum : Entry.AllNumeric entries) : (rule.grow entries h).Everywhere BoxNode.Tight := by
  have hspan : ((rule.grow entries h).box ==
      Entry.bounds (rule.grow entries h).leaves) = true := by
    rw [box_grow]
    exact Entry.bounds_beq_of_perm hnum (rule.grow_spec entries h hnum).2
  fun_induction grow rule entries h with
  | case1 entries h h2 ihl ihr =>
    have hp := rule.perm entries
    have hall := hnum.of_perm hp
    have hl : Entry.AllNumeric (rule.divide entries).left := fun e he =>
      hall e (List.mem_append_left _ he)
    have hr : Entry.AllNumeric (rule.divide entries).right := fun e he =>
      hall e (List.mem_append_right _ he)
    refine ⟨⟨hspan, ?_⟩, ihl hl ?_, ihr hr ?_⟩
    · intro b left right hnode
      obtain ⟨rfl, rfl, rfl⟩ := BoxNode.branch.inj hnode
      rw [box_grow, box_grow]
      exact Entry.bounds_beq_union hnum hp
    · rw [box_grow]
      exact Entry.bounds_beq_of_perm hl (rule.grow_spec _ _ hl).2
    · rw [box_grow]
      exact Entry.bounds_beq_of_perm hr (rule.grow_spec _ _ hr).2
  | case2 entries h h2 =>
    refine ⟨hspan, ?_⟩
    intro b left right hnode
    cases hnode

end SplitRule

/-! ### Carrying out a task -/

theorem Task.range_eq {α : Type} {t : Task} {entries l r : List (Entry α)}
    (h : entries.drop t.lo = l ++ r) (hlen : t.hi - t.lo = l.length) : t.range entries = l := by
  rw [range, h, hlen, List.take_left]

namespace Assembly

variable {α : Type} [Scalar α] {rule : SplitRule α} {a b c : Assembly α} {t : Task}
  {rest : List Task}

theorem run_nil (h : a.pending = []) : a.run rule = a := by
  rw [run]
  split
  · rfl
  · rename_i hcons
    cases h.symm.trans hcons

theorem run_cons (h : a.pending = t :: rest) : a.run rule = (a.advance rule h).run rule := by
  rw [run]
  split
  · rename_i hnil
    cases h.symm.trans hnil
  · rename_i hcons
    obtain ⟨rfl, rfl⟩ := List.cons.inj (h.symm.trans hcons)
    rfl

section PlaceBranch

variable (h : a.pending = t :: rest) (h2 : 2 ≤ t.hi - t.lo)

@[simp] theorem length_slots_placeBranch :
    (a.placeBranch rule h h2).slots.length = a.slots.length + 2 := by
  simp [placeBranch]

theorem entries_placeBranch : (a.placeBranch rule h h2).entries = a.entries.take t.lo ++
    ((rule.divide (t.range a.entries)).left ++
      ((rule.divide (t.range a.entries)).right ++ a.entries.drop t.hi)) := by
  simp only [placeBranch, List.append_assoc]

include h in
omit [Scalar α] in
theorem length_take_lo : (a.entries.take t.lo).length = t.lo := by
  have ht := fits_next h
  have hlo := ht.lo_lt
  have hhi := ht.hi_le
  rw [List.length_take]
  omega

theorem take_placeBranch : (a.placeBranch rule h h2).entries.take t.lo = a.entries.take t.lo := by
  rw [entries_placeBranch]
  exact List.take_left' (length_take_lo h)

theorem drop_placeBranch : (a.placeBranch rule h h2).entries.drop t.lo =
    (rule.divide (t.range a.entries)).left ++
      ((rule.divide (t.range a.entries)).right ++ a.entries.drop t.hi) := by
  rw [entries_placeBranch, List.drop_left' (length_take_lo h)]

theorem drop_middle_placeBranch : (a.placeBranch rule h h2).entries.drop
      (t.lo + (rule.divide (t.range a.entries)).left.length) =
    (rule.divide (t.range a.entries)).right ++ a.entries.drop t.hi := by
  rw [← List.drop_drop, drop_placeBranch, List.drop_left]

end PlaceBranch

/-- Filling in the two slots that were added last, and then what is below them. -/
theorem set_children {β : Type} {slots : List (Option β)} {i : Nat} (hi : i < slots.length)
    (x l r : Option β) (belowLeft belowRight : List (Option β)) :
    (((slots ++ [none, none]).set i x).set slots.length l ++ belowLeft).set
        (slots.length + 1) r ++ belowRight =
      slots.set i x ++ (l :: r :: (belowLeft ++ belowRight)) := by
  simp [hi]

/-- A task and all that came of it have been carried out, and the tasks after it have not. -/
structure Fills (rule : SplitRule α) (a : Assembly α) (t : Task) (rest : List Task)
    (node : BoxNode α) (b : Assembly α) : Prop where
  run_eq : a.run rule = b.run rule
  pending : b.pending = rest
  slots : b.slots = a.slots.set t.slot (some (node.layOut a.slots.length).1) ++
    (node.layOut a.slots.length).2.map some
  before : b.entries.take t.lo = a.entries.take t.lo
  after : b.entries.drop t.hi = a.entries.drop t.hi

theorem Fills.leaf (h : a.pending = t :: rest) (hpos : 0 < (t.range a.entries).length)
    (h2 : ¬ 2 ≤ t.hi - t.lo) :
    Fills rule a t rest
      (.leaf (Entry.bounds (t.range a.entries)) (t.range a.entries)[0].index)
      (a.placeLeaf h) where
  run_eq := by rw [run_cons h, advance, dif_neg h2]
  pending := rfl
  slots := (List.append_nil _).symm
  before := rfl
  after := rfl

/-- A branch is filled in by its two sides, one after the other: the left one leaves the
range of the right one as it is. -/
theorem Fills.branch {h : a.pending = t :: rest} {h2 : 2 ≤ t.hi - t.lo} {middle : Nat}
    (hmiddle : t.lo + (rule.divide (t.range a.entries)).left.length = middle)
    {left right : BoxNode α}
    (hb : Fills rule (a.placeBranch rule h h2) ⟨a.slots.length, t.lo, middle⟩
      (⟨a.slots.length + 1, middle, t.hi⟩ :: rest) left b)
    (hc : Fills rule b ⟨a.slots.length + 1, middle, t.hi⟩ rest right c) :
    Fills rule a t rest (.branch (Entry.bounds (t.range a.entries)) left right) c := by
  have ht := fits_next h
  obtain ⟨-, -, hall⟩ := ht.length_sides h2 rule
  constructor
  case run_eq => rw [run_cons h, advance, dif_pos h2, hb.run_eq, hc.run_eq]
  case pending => exact hc.pending
  case slots =>
    have hslots : b.slots.length =
        a.slots.length + 2 + (left.layOut (a.slots.length + 2)).2.length := by
      rw [hb.slots, List.length_append, List.length_set, List.length_map,
        length_slots_placeBranch]
    rw [hc.slots, hslots, hb.slots, length_slots_placeBranch, BoxNode.layOut_branch]
    simp only [List.map_cons, List.map_append]
    exact set_children ht.slot_lt _ _ _ _ _
  case before =>
    have hle : t.lo ≤ middle := by omega
    have hbefore := congrArg (List.take t.lo) hc.before
    rw [List.take_take, List.take_take, Nat.min_eq_left hle] at hbefore
    exact hbefore.trans (hb.before.trans (take_placeBranch h h2))
  case after =>
    have hend : middle + (rule.divide (t.range a.entries)).right.length = t.hi := by omega
    have hafter := congrArg (List.drop (rule.divide (t.range a.entries)).right.length) hb.after
    dsimp only at hafter
    rw [← hmiddle, drop_middle_placeBranch, List.drop_left, List.drop_drop, hmiddle, hend]
      at hafter
    exact hc.after.trans hafter

/-- Whichever way ranges are divided, carrying out a task fills its slot with the subtree over
its range. -/
theorem exists_fills (rule : SplitRule α) (entries : List (Entry α)) (hpos : 0 < entries.length)
    {a : Assembly α} {t : Task} {rest : List Task} (h : a.pending = t :: rest)
    (hrange : t.range a.entries = entries) :
    ∃ b, Fills rule a t rest (rule.grow entries hpos) b := by
  fun_induction SplitRule.grow rule entries hpos generalizing a t rest with
  | case1 entries hpos h2 ihl ihr =>
    subst hrange
    have ht := fits_next h
    have hsize : 2 ≤ t.hi - t.lo := ht.length_range ▸ h2
    obtain ⟨-, -, hall⟩ := ht.length_sides hsize rule
    obtain ⟨b, hb⟩ := ihl (a := a.placeBranch rule h hsize) rfl
      (Task.range_eq (drop_placeBranch h hsize) (Nat.add_sub_cancel_left ..))
    have hmiddle := hb.after.trans (drop_middle_placeBranch h hsize)
    obtain ⟨c, hc⟩ := ihr hb.pending (Task.range_eq hmiddle (by dsimp only; omega))
    exact ⟨c, Fills.branch rfl hb hc⟩
  | case2 entries hpos h2 =>
    subst hrange
    have ht := fits_next h
    exact ⟨a.placeLeaf h, Fills.leaf h hpos (ht.length_range ▸ h2)⟩

/-- The slots are the layout of the tree that divides in the same way, and none is blank. -/
theorem table_eq_layOut (rule : SplitRule α) (entries : List (Entry α))
    (h : 0 < entries.length) :
    table rule entries =
      (((rule.grow entries h).layOut 1).1 :: ((rule.grow entries h).layOut 1).2).map some := by
  obtain ⟨b, hb⟩ := exists_fills rule entries h (a := start entries h)
    (t := ⟨0, 0, entries.length⟩) rfl List.take_length
  rw [table, dif_pos h, hb.run_eq, run_nil hb.pending, hb.slots]
  rfl

section Tables

variable [LawfulEqScalar α] {entries : List (Entry α)}

theorem treeTable_grow (rule : SplitRule α) (h : 0 < entries.length)
    (hnum : Entry.AllNumeric entries) :
    TreeTable (((rule.grow entries h).layOut 1).1 :: ((rule.grow entries h).layOut 1).2) entries :=
  BoxNode.treeTable_layOut (rule.tight_grow entries h hnum) (rule.grow_spec entries h hnum).2
    (rule.box_grow entries h)

/-- Assembly over entries with numeric boxes ends with the table of a tree over them, whatever
splits are chosen; with the cheapest cuts it is the table of the tree that is searched. -/
theorem table_holds_tree (h : 0 < entries.length) (hnum : Entry.AllNumeric entries) :
    (∀ rule : SplitRule α, ∃ slots, table rule entries = slots.map some ∧
      TreeTable slots entries) ∧
    table .cheapest entries = (BoxTree.ofEntries entries).nodes.map some ∧
    TreeTable (BoxTree.ofEntries entries).nodes entries ∧
    (BoxTree.ofEntries entries).bounds = .unionAll (entries.map (·.box)) := by
  have hnodes : (BoxTree.ofEntries entries).nodes =
      ((SplitRule.cheapest.grow entries h).layOut 1).1 ::
        ((SplitRule.cheapest.grow entries h).layOut 1).2 := by
    rw [BoxTree.nodes, BoxTree.root_ofEntries h, SplitRule.grow_cheapest]
  rw [hnodes]
  refine ⟨?_, table_eq_layOut _ entries h, treeTable_grow _ h hnum, ?_⟩
  · intro rule
    exact ⟨_, table_eq_layOut rule entries h, treeTable_grow rule h hnum⟩
  · exact Index.bounds_ofEntries entries .tree

/-- Boxes without a middle, without bounds, flat and met twice: a centroid that is not a number,
and costs that are infinite or not numbers. -/
def unevenEntries : List (Entry Binary64) :=
  [⟨3, .empty⟩, ⟨0, ⟨⟨.negInfinity, 0, 0⟩, ⟨.infinity, .infinity, 0⟩⟩⟩, ⟨3, .ofPoint .origin⟩,
    ⟨7, .ofPoint ⟨.half, .infinity, 0⟩⟩, ⟨3, .ofPoint .origin⟩]

theorem table_holds_tree_unevenEntries : 0 < unevenEntries.length ∧
    Entry.AllNumeric unevenEntries ∧
    (∀ rule : SplitRule Binary64, ∃ slots, table rule unevenEntries = slots.map some ∧
      TreeTable slots unevenEntries) ∧
    table .cheapest unevenEntries = (BoxTree.ofEntries unevenEntries).nodes.map some ∧
    TreeTable (BoxTree.ofEntries unevenEntries).nodes unevenEntries ∧
    (BoxTree.ofEntries unevenEntries).bounds = .unionAll (unevenEntries.map (·.box)) := by
  have hnum : Entry.AllNumeric unevenEntries := by decide +kernel
  exact ⟨by decide, hnum, table_holds_tree (by decide) hnum⟩

end Tables

end Assembly

end SpatialSearch
