import SpatialSearch.Proofs.Gathers
import SpatialSearch.Proofs.Rosters
import SpatialSearch.Proofs.Unions

/-!
# Bounds

The bounds of an index are the least box that encloses the corners of all its boxes. An empty
box has corners too: the canonical one has them where every box encloses them, but those of a
box that is inverted along one axis may lie anywhere along the others, and then the bounds grow
with it. The bounds of a group enclose the boxes on the ranks that hold a box which is not
empty, so where the boxes lie matters as soon as an inverted box reaches beyond the others.
-/

namespace SpatialSearch

open LawfulScalar

namespace Box

variable {α : Type} [Scalar α]

def properUnion (boxes : List (Box α)) : Box α := unionAll (boxes.filter fun b => !b.isEmpty)

theorem mem_proper {boxes : List (Box α)} {b : Box α} :
    b ∈ boxes.filter (fun b => !b.isEmpty) ↔ b ∈ boxes ∧ b.isEmpty = false := by
  simp

section

variable [LawfulScalar α]

theorem isHull_properUnion {boxes : List (Box α)} (hall : ∀ b ∈ boxes, b.Numeric) :
    IsHull (properUnion boxes) (boxes.filter fun b => !b.isEmpty) :=
  isHull_unionAll fun b hb => hall b (mem_proper.mp hb).1

/-- The union of the unions of some lists is the least box around all of their boxes. -/
theorem isHull_flatMap {ι : Type} {parts : List ι} {boxes : ι → List (Box α)}
    (hall : ∀ i ∈ parts, ∀ b ∈ boxes i, b.Numeric) :
    IsHull (unionAll (parts.map fun i => unionAll (boxes i))) (parts.flatMap boxes) := by
  have hparts : ∀ u ∈ parts.map fun i => unionAll (boxes i), u.Numeric :=
    List.forall_mem_map.mpr fun i _ => numeric_unionAll (boxes i)
  refine ⟨numeric_unionAll _, fun b hb => ?_, fun v hv hencloses => ?_⟩
  · obtain ⟨i, hi, hb⟩ := List.mem_flatMap.mp hb
    have hpart := unionAll_encloses hparts (unionAll (boxes i)) (List.mem_map_of_mem hi)
    exact hpart.trans (unionAll_encloses (hall i hi) b hb)
  · refine hv.encloses_unionAll (List.forall_mem_map.mpr fun i hi => ?_)
    exact hv.encloses_unionAll fun b hb => hencloses b (List.mem_flatMap.mpr ⟨i, hi, hb⟩)

end

variable [LawfulEqScalar α] {a b u v : Box α}

/-- To grow a box by another leaves it as it is exactly if it encloses the other already. -/
theorem union_beq_left_iff (ha : a.Numeric) (hb : b.Numeric) :
    (a.union b == a) = true ↔ a.Encloses b := by
  rw [beq_iff]
  constructor
  · rintro ⟨-, hback⟩
    exact hback.trans (union_encloses_right ha hb)
  · intro h
    exact ⟨union_encloses_left ha b, ha.encloses_self.union h⟩

/-- The least box around some of the boxes, all that are not empty among them, is their union
exactly if that encloses the corners of the empty ones. -/
theorem IsHull.beq_properUnion_iff {part boxes : List (Box α)} (hu : IsHull u part)
    (hall : ∀ b ∈ boxes, b.Numeric) (hpart : part ⊆ boxes)
    (hproper : ∀ b ∈ boxes, b.isEmpty = false → b ∈ part) :
    (u == properUnion boxes) = true ↔
      ∀ b ∈ part, b.isEmpty = true → (properUnion boxes).Encloses b := by
  have hv := isHull_properUnion hall
  rw [hu.beq_iff hv fun b hb => hproper b (mem_proper.mp hb).1 (mem_proper.mp hb).2]
  refine forall₂_congr fun b hb => ⟨fun h _ => h, fun h => ?_⟩
  cases hempty : b.isEmpty with
  | true => exact h hempty
  | false => exact hv.encloses b (mem_proper.mpr ⟨hpart hb, hempty⟩)

end Box

namespace Share

variable {α : Type} [Scalar α] {n : Nat}

def boxes (s : Share α) : List (Box α) := s.entries.map (·.box)

theorem AllNumeric.boxes {s : Share α} (hs : s.AllNumeric) : ∀ b ∈ s.boxes, b.Numeric :=
  Entry.AllNumeric.boxes hs

variable [LawfulScalar α]

/-- A rank is searchable exactly if it holds a box that is not empty. -/
theorem isSearchable_iff {s : Share α} (hs : s.AllNumeric) :
    s.holdings.isSearchable = true ↔ ∃ b ∈ s.boxes, b.isEmpty = false := by
  constructor
  · intro h
    rw [Holdings.isSearchable, Bool.and_eq_true, nonEmptySize_holdings] at h
    obtain ⟨e, he, hne⟩ := List.countP_pos_iff.mp (of_decide_eq_true h.1)
    exact ⟨e.box, List.mem_map_of_mem he, by simpa using hne⟩
  · rintro ⟨b, hb, hne⟩
    obtain ⟨e, he, rfl⟩ := List.mem_map.mp hb
    exact isSearchable_of_mem hs he hne

end Share

namespace Roster

variable {α : Type} [Scalar α] {n : Nat}

def allBoxes (shares : Fin n → Share α) : List (Box α) :=
  (List.finRange n).flatMap fun b => (shares b).boxes

omit [Scalar α] in
theorem mem_allBoxes {shares : Fin n → Share α} {box : Box α} :
    box ∈ allBoxes shares ↔ ∃ b, box ∈ (shares b).boxes := by
  simp [allBoxes]

theorem bounds_joint (shares : Fin n → Share α) :
    (joint shares).bounds = .unionAll ((worth shares).map fun b => .unionAll (shares b).boxes) := by
  change (Index.ofEntries (searchable _) .tree).bounds = _
  rw [Index.bounds_ofEntries, searchable_joint, Entry.bounds, List.map_map]
  congr 1
  exact List.map_congr_left fun b _ => Share.bounds_holdings (shares b)

variable [LawfulEqScalar α] {shares : Fin n → Share α}

/-- The bounds that all ranks of a group know enclose the boxes of the searchable ranks. They
are the union of the boxes that are not empty exactly if that encloses the empty boxes there. -/
theorem bounds_joint_beq_iff (hshares : ∀ b, (shares b).AllNumeric) {boxes : List (Box α)}
    (hboxes : (allBoxes shares).Perm boxes) :
    ((joint shares).bounds == Box.properUnion boxes) = true ↔
      ∀ b, (∃ box ∈ (shares b).boxes, box.isEmpty = false) →
        ∀ box ∈ (shares b).boxes, box.isEmpty = true → (Box.properUnion boxes).Encloses box := by
  have hall : ∀ box ∈ boxes, box.Numeric := by
    intro box hbox
    obtain ⟨b, hbox⟩ := mem_allBoxes.mp (hboxes.mem_iff.mpr hbox)
    exact (hshares b).boxes box hbox
  have hsearched : (worth shares).flatMap (fun b => (shares b).boxes) ⊆ boxes := by
    intro box hbox
    obtain ⟨b, -, hbox⟩ := List.mem_flatMap.mp hbox
    exact hboxes.mem_iff.mp (mem_allBoxes.mpr ⟨b, hbox⟩)
  have hproper : ∀ box ∈ boxes, box.isEmpty = false →
      box ∈ (worth shares).flatMap fun b => (shares b).boxes := by
    intro box hbox hne
    obtain ⟨b, hbox⟩ := mem_allBoxes.mp (hboxes.mem_iff.mpr hbox)
    have hworth := (Share.isSearchable_iff (hshares b)).mpr ⟨box, hbox, hne⟩
    exact List.mem_flatMap.mpr ⟨b, (mem_worth shares).mpr hworth, hbox⟩
  have hhull : Box.IsHull (joint shares).bounds
      ((worth shares).flatMap fun b => (shares b).boxes) := by
    rw [bounds_joint]
    exact Box.isHull_flatMap fun b _ => (hshares b).boxes
  rw [hhull.beq_properUnion_iff hall hsearched hproper]
  constructor
  · intro h b hb box hbox hempty
    have hworth := (mem_worth shares).mpr ((Share.isSearchable_iff (hshares b)).mpr hb)
    exact h box (List.mem_flatMap.mpr ⟨b, hworth, hbox⟩) hempty
  · intro h box hbox hempty
    obtain ⟨b, hb, hbox⟩ := List.mem_flatMap.mp hbox
    exact h b ((Share.isSearchable_iff (hshares b)).mp ((mem_worth shares).mp hb)) box hbox hempty

end Roster

namespace PartitionedIndex

/-- Growing a box by another changes nothing exactly if it encloses the other, be that empty or
not. So the bounds of an index, and on every run and every rank those of a partitioned index,
are the union of the boxes that are not empty exactly if that union encloses the corners of the
empty ones too. In a group only those count that share a rank with a box that is not empty. -/
theorem bounds_enclose_corners {α : Type} [Scalar α] [LawfulEqScalar α] :
    (∀ a e : Box α, a.Numeric → e.Numeric → ((a.union e == a) = true ↔ a.Encloses e)) ∧
    (∀ (entries : List (Entry α)) (kind : IndexKind), Entry.AllNumeric entries →
      (((Index.ofEntries entries kind).bounds == Box.properUnion (entries.map (·.box))) = true ↔
        ∀ e ∈ entries, e.box.isEmpty = true →
          (Box.properUnion (entries.map (·.box))).Encloses e.box)) ∧
    ∀ {n : Nat} (boxes : List (Box α)) (shares : Fin n → Share α)
      (options : Fin n → SearchOptions), (∀ b, (shares b).AllNumeric) →
      (Roster.allBoxes shares).Perm boxes → ∃ x : Fin n → PartitionedIndex α,
        Group.AlwaysEnds (Group.Settled fun i => .ok (x i))
          (joining (fun i => (shares i).index) options) ∧
        ∀ i, ((x i).bounds == Box.properUnion boxes) = true ↔
          ∀ b, (∃ box ∈ (shares b).boxes, box.isEmpty = false) →
            ∀ box ∈ (shares b).boxes, box.isEmpty = true →
              (Box.properUnion boxes).Encloses box := by
  refine ⟨fun a e => Box.union_beq_left_iff, fun entries kind hnum => ?_, ?_⟩
  · have hhull : Box.IsHull (Entry.bounds entries) (entries.map (·.box)) :=
      Box.isHull_unionAll hnum.boxes
    rw [Index.bounds_ofEntries, hhull.beq_properUnion_iff hnum.boxes (List.Subset.refl _)
      fun b hb _ => hb, List.forall_mem_map]
  · intro n boxes shares options hshares hboxes
    refine ⟨fun i => ⟨⟨n, i⟩, (shares i).index, .joint shares, options i⟩,
      settles_joining _ options, fun i => ?_⟩
    exact Roster.bounds_joint_beq_iff hshares hboxes

def inverted : Box Binary64 := ⟨⟨.half, 0, 0⟩, ⟨0, .half, .half⟩⟩

/-- One rank holds a point and an empty box, the other nothing. -/
def emptyBeside : Fin 2 → Share Binary64 := fun b =>
  ⟨if b.val = 0 then Entry.number [.ofPoint .origin, inverted] else [], .scan⟩

def emptyApart : Fin 2 → Share Binary64 := fun b =>
  ⟨Entry.number [if b.val = 0 then .ofPoint .origin else inverted], .scan⟩

/-- The bounds are wider than the point wherever the empty box is searched together with it. -/
theorem bounds_enclose_corners_inverted :
    ((.ofPoint .origin : Box Binary64).union inverted == .ofPoint .origin) = false ∧
    ((Index.ofEntries (Entry.number [.ofPoint .origin, inverted]) .tree).bounds ==
      .ofPoint .origin) = false ∧
    (∃ x : Fin 2 → PartitionedIndex Binary64,
      Group.AlwaysEnds (Group.Settled fun i => .ok (x i))
        (joining (fun i => (emptyBeside i).index) fun _ => {}) ∧
      ∀ i, ((x i).bounds == .ofPoint .origin) = false) ∧
    ∃ x : Fin 2 → PartitionedIndex Binary64,
      Group.AlwaysEnds (Group.Settled fun i => .ok (x i))
        (joining (fun i => (emptyApart i).index) fun _ => {}) ∧
      ∀ i, ((x i).bounds == .ofPoint .origin) = true := by
  have hpoint : Box.properUnion [.ofPoint .origin, inverted] = .ofPoint .origin := by decide
  obtain ⟨hunion, hindex, hgroup⟩ := bounds_enclose_corners (α := Binary64)
  refine ⟨?_, ?_, ?_, ?_⟩
  · rw [Bool.eq_false_iff, Ne, hunion _ _ (by decide) (by decide)]
    decide
  · have hiff := hindex (Entry.number [.ofPoint .origin, inverted]) .tree (by decide)
    rw [Bool.eq_false_iff, Ne, ← hpoint]
    exact fun h => absurd (hiff.mp h) (by decide)
  · obtain ⟨x, hends, hiff⟩ := hgroup [.ofPoint .origin, inverted] emptyBeside (fun _ => {})
      (by decide) (by decide)
    refine ⟨x, hends, fun i => ?_⟩
    rw [Bool.eq_false_iff, Ne, ← hpoint, hiff i]
    decide
  · obtain ⟨x, hends, hiff⟩ := hgroup [.ofPoint .origin, inverted] emptyApart (fun _ => {})
      (by decide) (by decide)
    refine ⟨x, hends, fun i => ?_⟩
    rw [← hpoint, hiff i]
    decide

/-- An empty box can make a box grow that it is united with, and the same boxes can have other
bounds as soon as they lie on other ranks. -/
theorem empties_count :
    (¬ ∀ a e : Box Binary64, a.Numeric → e.Numeric → e.isEmpty = true →
      (a.union e == a) = true) ∧
    ¬ ∀ shares moved : Fin 2 → Share Binary64, (∀ b, (shares b).AllNumeric) →
      (Roster.allBoxes shares).Perm (Roster.allBoxes moved) →
      ((Roster.joint shares).bounds == (Roster.joint moved).bounds) = true := by
  constructor
  · intro hsame
    exact absurd (hsame (.ofPoint .origin) inverted (by decide) (by decide) (by decide)) (by decide)
  · intro hsame
    have hbounds := hsame emptyBeside emptyApart (by decide) (by decide)
    rw [Roster.bounds_joint, Roster.bounds_joint] at hbounds
    exact absurd hbounds (by decide)

end PartitionedIndex

end SpatialSearch
